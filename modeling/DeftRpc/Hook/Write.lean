import DeftRpc.Foundation.Bytes
import DeftRpc.Hook.IoBase

/-!
# The hooked write (Hook.cpp:175-185)

Every underlying call is offered the whole buffer again.
-/

namespace DeftRpc.Hook
open DeftRpc.Foundation

/-- What a call that is offered `buf` returns and what the kernel takes. -/
def writeResult (buf : List Byte) : SysResult → ℤ
  | .ok k => (min k buf.length : ℕ)
  | .error _ => -1

def taken (buf : List Byte) : SysResult → List Byte
  | .ok k => buf.take k
  | .error _ => []

structure WriteRun where
  result : ℤ
  accepted : List Byte
  events : List IoEvent
  rest : List SysResult

/- Every turn uses up an entry of the script, so as many turns as it has entries
are enough. -/
def writeLoop (hooked : Bool) (buf : List Byte) : ℕ → ℕ → List SysResult → Option WriteRun
  | 0, _, _ => none
  | turns + 1, totalWrite, script => do
    let r ← ioBase hooked .write script
    let n := writeResult buf r.result
    if n ≤ 0 then pure ⟨n, taken buf r.result, r.events, r.rest⟩
    else
      let totalWrite := totalWrite + n.toNat
      if buf.length > totalWrite then do
        let run ← writeLoop hooked buf turns totalWrite r.rest
        pure { run with
          accepted := taken buf r.result ++ run.accepted, events := r.events ++ run.events }
      else pure ⟨totalWrite, taken buf r.result, r.events, r.rest⟩

def write (hooked : Bool) (buf : List Byte) (script : List SysResult) : Option WriteRun :=
  writeLoop hooked buf script.length 0 script

theorem writeLoop_enough (hooked : Bool) (buf : List Byte) (turns totalWrite : ℕ)
    (script : List SysResult) (h : script.length ≤ turns) :
    writeLoop hooked buf (turns + 1) totalWrite script
      = writeLoop hooked buf turns totalWrite script := by
  induction turns generalizing totalWrite script with
  | zero =>
    have hnil : script = [] := List.eq_nil_of_length_eq_zero (Nat.le_zero.mp h)
    subst hnil
    cases hooked <;> rfl
  | succ turns ih =>
    rw [writeLoop, writeLoop]
    cases hio : ioBase hooked .write script with
    | none => rfl
    | some r =>
      have hlt := (ioBase_consumes hio).rest_lt
      rw [Option.bind_eq_bind, Option.bind_some, Option.bind_eq_bind, Option.bind_some]
      have hrec : ∀ t, writeLoop hooked buf (turns + 1) t r.rest
          = writeLoop hooked buf turns t r.rest := fun t => ih t r.rest (by omega)
      simp only [hrec]

/-! ### When the buffer arrives -/

/-- Every slice taken after `total` bytes, always from the front of the buffer,
reads like the bytes due at that place. -/
def SlicesRepeat (buf : List Byte) : ℕ → List SysResult → Prop
  | _, [] => True
  | total, .error _ :: script => SlicesRepeat buf total script
  | total, .ok k :: script =>
    (∀ j, j < min k buf.length → buf[total + j]? = buf[j]?) ∧
      (total + min k buf.length < buf.length →
        SlicesRepeat buf (total + min k buf.length) script)

theorem slicesRepeat_refused (buf : List Byte) (total : ℕ) (refused : List Errno)
    (script : List SysResult) :
    SlicesRepeat buf total (refused.map Except.error ++ script) ↔ SlicesRepeat buf total script := by
  induction refused with
  | nil => exact Iff.rfl
  | cons e refused ih => exact ih

theorem slice_repeats_iff {buf : List Byte} (total : ℕ) {n : ℕ} (hn : 0 < n) (hl : n ≤ buf.length) :
    (∀ j, j < n → buf[total + j]? = buf[j]?) ↔
      total + n ≤ buf.length ∧ (buf.drop total).take n = buf.take n := by
  constructor
  · intro h
    refine ⟨?_, ?_⟩
    · -- The last byte of the slice is there, so the place due for it is.
      have hlast := h (n - 1) (by omega)
      rw [List.getElem?_eq_getElem (show n - 1 < buf.length by omega)] at hlast
      have hlt := (List.getElem?_eq_some_iff.mp hlast).1
      omega
    · apply List.ext_getElem?
      intro j
      by_cases hj : j < n
      · rw [List.getElem?_take_of_lt hj, List.getElem?_take_of_lt hj, List.getElem?_drop, h j hj]
      · rw [List.getElem?_take_eq_none (by omega), List.getElem?_take_eq_none (by omega)]
  · rintro ⟨-, h⟩ j hj
    have hj2 := congrArg (fun l => l[j]?) h
    rwa [List.getElem?_take_of_lt hj, List.getElem?_take_of_lt hj, List.getElem?_drop] at hj2

theorem take_append_eq_drop_iff {buf rest : List Byte} {total n : ℕ} (h : total + n ≤ buf.length) :
    buf.take n ++ rest = buf.drop total ↔
      (buf.drop total).take n = buf.take n ∧ rest = buf.drop (total + n) := by
  have hsplit : (buf.drop total).take n ++ buf.drop (total + n) = buf.drop total := by
    rw [← List.drop_drop, List.take_append_drop]
  have hlen : (buf.take n).length = ((buf.drop total).take n).length := by
    rw [List.length_take, List.length_take, List.length_drop]
    omega
  constructor
  · intro he
    rw [← hsplit] at he
    obtain ⟨h1, h2⟩ := List.append_inj he hlen
    exact ⟨h1.symm, h2⟩
  · rintro ⟨h1, h2⟩
    rw [← h1, h2, hsplit]

/-- The loop from `total` on delivers the bytes still due and returns the length
exactly when the slices repeat. -/
theorem writeLoop_delivers {hooked : Bool} {buf : List Byte} {turns total : ℕ}
    {script : List SysResult} {run : WriteRun} (ht : total < buf.length)
    (h : writeLoop hooked buf turns total script = some run) (hpos : 0 < run.result) :
    (run.result = buf.length ∧ run.accepted = buf.drop total) ↔ SlicesRepeat buf total script := by
  induction turns generalizing total script run with
  | zero => cases h
  | succ turns ih =>
    obtain ⟨r, hio, h⟩ := Option.bind_eq_some_iff.mp h
    obtain ⟨refused, hscript⟩ := ioBase_consumes hio
    rw [hscript, slicesRepeat_refused]
    dsimp only at h
    by_cases hle : writeResult buf r.result ≤ 0
    · rw [if_pos hle] at h
      cases h
      dsimp only at hpos
      omega
    · rw [if_neg hle] at h
      cases hres : r.result with
      | error e =>
        rw [hres] at hle
        have hneg : writeResult buf (.error e) = -1 := rfl
        omega
      | ok k =>
        rw [hres] at h hle
        have hn : 0 < min k buf.length := by
          have hk : ¬ ((min k buf.length : ℕ) : ℤ) ≤ 0 := hle
          omega
        have hcount : (writeResult buf (.ok k)).toNat = min k buf.length := Int.toNat_natCast _
        have htake : taken buf (.ok k) = buf.take (min k buf.length) := by
          rw [taken, List.take_eq_take_min]
        have hslice := slice_repeats_iff total hn (Nat.min_le_right k buf.length)
        rw [hcount, htake] at h
        rw [SlicesRepeat, hslice]
        by_cases hmore : buf.length > total + min k buf.length
        · rw [if_pos hmore] at h
          obtain ⟨run', hrun', hr⟩ := Option.bind_eq_some_iff.mp h
          cases hr
          have hrec := ih hmore hrun' hpos
          dsimp only
          rw [take_append_eq_drop_iff (le_of_lt hmore)]
          constructor
          · rintro ⟨hr, hs, ha⟩
            exact ⟨⟨le_of_lt hmore, hs⟩, fun _ => hrec.mp ⟨hr, ha⟩⟩
          · rintro ⟨⟨-, hs⟩, hrest⟩
            obtain ⟨hr, ha⟩ := hrec.mpr (hrest hmore)
            exact ⟨hr, hs, ha⟩
        · rw [if_neg hmore] at h
          cases h
          dsimp only
          constructor
          · rintro ⟨hr, ha⟩
            have hsum : total + min k buf.length = buf.length := by omega
            refine ⟨⟨le_of_eq hsum, ?_⟩, fun hlt => absurd hlt (by omega)⟩
            rw [ha, List.take_of_length_le (by rw [List.length_drop]; omega)]
          · rintro ⟨⟨hsum, hs⟩, -⟩
            refine ⟨by omega, ?_⟩
            rw [← hs, List.take_of_length_le (by rw [List.length_drop]; omega)]

theorem writeLoop_nil {hooked : Bool} {turns total : ℕ} {script : List SysResult} {run : WriteRun}
    (h : writeLoop hooked [] turns total script = some run) : run.result ≤ 0 := by
  cases turns with
  | zero => cases h
  | succ turns =>
    obtain ⟨r, -, h⟩ := Option.bind_eq_some_iff.mp h
    have hle : writeResult [] r.result ≤ 0 := by
      cases r.result with
      | error e => exact (by decide : (-1 : ℤ) ≤ 0)
      | ok k =>
        rw [writeResult, List.length_nil, Nat.min_zero]
        exact le_refl 0
    dsimp only at h
    rw [if_pos hle] at h
    cases h
    exact hle

/-- A call that returns a positive value returns the length and has delivered the
buffer exactly when every slice taken from its front repeats the bytes due. -/
theorem write_delivers_iff (hooked : Bool) (buf : List Byte) (script : List SysResult)
    (run : WriteRun) (h : write hooked buf script = some run) (hpos : 0 < run.result) :
    (run.result = buf.length ∧ run.accepted = buf) ↔ SlicesRepeat buf 0 script := by
  have hbuf : 0 < buf.length := by
    by_contra hzero
    have hnil : buf = [] := List.eq_nil_of_length_eq_zero (by omega)
    rw [hnil] at h
    have hle := writeLoop_nil h
    omega
  exact writeLoop_delivers hbuf h hpos

/-- A blocked call, an interrupted one, then the whole buffer. -/
theorem write_delivers_iff_retried :
    ((4 : ℤ) = ([1, 2, 3, 4] : List Byte).length ∧ ([1, 2, 3, 4] : List Byte) = [1, 2, 3, 4]) ↔
      SlicesRepeat [1, 2, 3, 4] 0 [.error .eagain, .error .eintr, .ok 4] :=
  write_delivers_iff true [1, 2, 3, 4] [.error .eagain, .error .eintr, .ok 4] ⟨4, [1, 2, 3, 4], _, _⟩
    rfl (by decide)

/-- Two of four bytes are accepted, then all four again: six bytes leave. Two and
two look right to the caller and are not. -/
theorem write_resends_from_start :
    (write true [1, 2, 3, 4] [.ok 2, .ok 4]).map (fun run => (run.result, run.accepted))
      = some (6, [1, 2, 1, 2, 3, 4]) ∧
    (write true [1, 2, 3, 4] [.ok 2, .ok 2]).map (fun run => (run.result, run.accepted))
      = some (4, [1, 2, 1, 2]) := by
  decide

end DeftRpc.Hook
