import DeftRpc.Hook.Write

/-!
# The hooked writev (Hook.cpp:200-223)

A vector that is cut inside a part is continued with the hooked write of the rest
of that part, and the parts behind it with the next turn.
-/

namespace DeftRpc.Hook
open DeftRpc.Foundation

/-- The parts behind the ones that `n` bytes cover, and what that cost. `none` in
`totalWrite` is `return -1`. -/
structure AdvanceRun where
  totalWrite : Option ℕ
  iov : List (List Byte)
  accepted : List Byte
  events : List IoEvent
  rest : List SysResult

/-- `for (i = 0; i < iovcnt; ++i)`; the loop is left at the first part that is cut. -/
def advance (hooked : Bool) (totalWrite n : ℕ) (script : List SysResult) :
    List (List Byte) → Option AdvanceRun
  | [] => some ⟨some totalWrite, [], [], [], script⟩
  | part :: iov =>
    if n ≥ part.length then advance hooked totalWrite (n - part.length) script iov
    else do
      let run ← write hooked (part.drop n) script
      if (part.length - n : ℕ) ≠ run.result then pure ⟨none, iov, run.accepted, run.events, run.rest⟩
      else pure ⟨some (totalWrite + (part.length - n)), iov, run.accepted, run.events, run.rest⟩

/- As in write, every turn uses up an entry of the script. -/
def writevLoop (hooked : Bool) : ℕ → List (List Byte) → ℕ → List SysResult → Option WriteRun
  | 0, _, _, _ => none
  | turns + 1, iov, totalWrite, script => do
    let r ← ioBase hooked .write script
    match r.result with
    | .error _ => pure ⟨-1, [], r.events, r.rest⟩
    | .ok k =>
      let n := min k iov.flatten.length
      let a ← advance hooked (totalWrite + n) n r.rest iov
      let accepted := taken iov.flatten r.result ++ a.accepted
      let events := r.events ++ a.events
      match a.totalWrite with
      | none => pure ⟨-1, accepted, events, a.rest⟩
      | some totalWrite =>
        if a.iov = [] then pure ⟨totalWrite, accepted, events, a.rest⟩
        else do
          let run ← writevLoop hooked turns a.iov totalWrite a.rest
          pure { run with accepted := accepted ++ run.accepted, events := events ++ run.events }

def writev (hooked : Bool) (iov : List (List Byte)) (script : List SysResult) : Option WriteRun :=
  writevLoop hooked script.length iov 0 script

/-! ### The part that is cut -/

/-- The rest of the first part that `n` bytes do not cover, and the parts behind. -/
def cut : ℕ → List (List Byte) → Option (List Byte × List (List Byte))
  | _, [] => none
  | n, part :: iov => if n ≥ part.length then cut (n - part.length) iov else some (part.drop n, iov)

theorem advance_of_cut_none {hooked : Bool} {totalWrite n : ℕ} {script : List SysResult}
    {iov : List (List Byte)} (h : cut n iov = none) :
    advance hooked totalWrite n script iov = some ⟨some totalWrite, [], [], [], script⟩ := by
  induction iov generalizing n with
  | nil => rfl
  | cons part iov ih =>
    rw [cut] at h
    rw [advance]
    split at h
    · next hge =>
      rw [if_pos hge]
      exact ih h
    · cases h

theorem advance_of_cut_some {hooked : Bool} {totalWrite n : ℕ} {script : List SysResult}
    {iov behind : List (List Byte)} {rest : List Byte} (h : cut n iov = some (rest, behind)) :
    advance hooked totalWrite n script iov = (write hooked rest script).bind fun run =>
      if (rest.length : ℤ) ≠ run.result then some ⟨none, behind, run.accepted, run.events, run.rest⟩
      else some ⟨some (totalWrite + rest.length), behind, run.accepted, run.events, run.rest⟩ := by
  induction iov generalizing n with
  | nil => cases h
  | cons part iov ih =>
    rw [cut] at h
    rw [advance]
    split at h
    · next hge =>
      rw [if_pos hge]
      exact ih h
    · next hlt =>
      cases h
      rw [if_neg hlt, List.length_drop]
      rfl

theorem cut_none_flatten {n : ℕ} {iov : List (List Byte)} (h : cut n iov = none) :
    iov.flatten.length ≤ n := by
  induction iov generalizing n with
  | nil => exact Nat.zero_le n
  | cons part iov ih =>
    rw [cut] at h
    split at h
    · have hrest := ih h
      rw [List.flatten_cons, List.length_append]
      omega
    · cases h

theorem cut_some_flatten {n : ℕ} {iov behind : List (List Byte)} {rest : List Byte}
    (h : cut n iov = some (rest, behind)) :
    iov.flatten = iov.flatten.take n ++ rest ++ behind.flatten ∧ n < iov.flatten.length ∧
      rest ≠ [] ∧ behind.length < iov.length := by
  induction iov generalizing n with
  | nil => cases h
  | cons part iov ih =>
    rw [cut] at h
    split at h
    · next hge =>
      obtain ⟨hflat, hlt, hne, hlen⟩ := ih h
      refine ⟨?_, ?_, hne, ?_⟩
      · rw [List.flatten_cons, List.take_append, List.take_of_length_le hge, List.append_assoc,
          List.append_assoc]
        rw [List.append_assoc] at hflat
        rw [← hflat]
      · rw [List.flatten_cons, List.length_append]
        omega
      · rw [List.length_cons]
        omega
    · next hlt =>
      cases h
      have hn : n < part.length := by omega
      refine ⟨?_, ?_, ?_, ?_⟩
      · rw [List.flatten_cons, List.take_append_of_le_length (le_of_lt hn), List.take_append_drop]
      · rw [List.flatten_cons, List.length_append]
        omega
      · intro hnil
        have hl := congrArg List.length hnil
        rw [List.length_drop, List.length_nil] at hl
        omega
      · rw [List.length_cons]
        omega

/-! ### Continuations that the kernel takes in full -/

/-- What a write does whose first accepted call takes everything. -/
theorem write_full {hooked : Bool} {buf : List Byte} {script : List SysResult} {c : IoRun}
    (hne : buf ≠ []) (hio : ioBase hooked .write script = some c)
    (hfull : ∀ k, c.result = .ok k → buf.length ≤ k) :
    write hooked buf script = some ⟨writeResult buf c.result, taken buf c.result, c.events, c.rest⟩ ∧
      (writeResult buf c.result = -1 ∨
        writeResult buf c.result = buf.length ∧ taken buf c.result = buf) := by
  have hpos := List.length_pos_iff.mpr hne
  cases hscript : script with
  | nil =>
    rw [hscript] at hio
    cases hooked <;> cases hio
  | cons entry rest =>
    rw [hscript] at hio
    rw [write, List.length_cons, writeLoop, hio, Option.bind_eq_bind, Option.bind_some]
    cases hres : c.result with
    | error e => exact ⟨rfl, Or.inl rfl⟩
    | ok k =>
      have hk := hfull k hres
      have hw : writeResult buf (.ok k) = buf.length := by
        rw [writeResult, Nat.min_eq_right hk]
      have ht : taken buf (.ok k) = buf := List.take_of_length_le hk
      refine ⟨?_, Or.inr ⟨hw, ht⟩⟩
      dsimp only
      rw [hw, if_neg (by omega), Int.toNat_natCast, if_neg (by omega), Nat.zero_add]
      rfl

theorem write_waits {hooked : Bool} {buf : List Byte} {script : List SysResult}
    (hio : ioBase hooked .write script = none) : write hooked buf script = none := by
  cases hscript : script with
  | nil => rfl
  | cons entry rest =>
    rw [hscript] at hio
    rw [write, List.length_cons, writeLoop, hio]
    rfl

/-- In every turn, the accepted call of the write that continues the cut part takes
all of its rest. -/
def ContinuationsFull (hooked : Bool) : ℕ → List (List Byte) → List SysResult → Prop
  | 0, _, _ => True
  | turns + 1, iov, script => ∀ r k rest behind c, ioBase hooked .write script = some r →
      r.result = .ok k → cut (min k iov.flatten.length) iov = some (rest, behind) →
      ioBase hooked .write r.rest = some c →
      (∀ m, c.result = .ok m → rest.length ≤ m) ∧ ContinuationsFull hooked turns behind c.rest

theorem writevLoop_turn {hooked : Bool} {turns totalWrite : ℕ} {iov : List (List Byte)}
    {script : List SysResult} {r : IoRun} (hio : ioBase hooked .write script = some r) :
    writevLoop hooked (turns + 1) iov totalWrite script =
      match r.result with
      | .error _ => some ⟨-1, [], r.events, r.rest⟩
      | .ok k =>
        match cut (min k iov.flatten.length) iov with
        | none => some ⟨(totalWrite + min k iov.flatten.length : ℕ), taken iov.flatten (.ok k) ++ [],
            r.events ++ [], r.rest⟩
        | some (rest, behind) => (write hooked rest r.rest).bind fun w =>
          if (rest.length : ℤ) ≠ w.result then
            some ⟨-1, taken iov.flatten (.ok k) ++ w.accepted, r.events ++ w.events, w.rest⟩
          else if behind = [] then
            some ⟨(totalWrite + min k iov.flatten.length + rest.length : ℕ),
              taken iov.flatten (.ok k) ++ w.accepted, r.events ++ w.events, w.rest⟩
          else (writevLoop hooked turns behind
              (totalWrite + min k iov.flatten.length + rest.length) w.rest).bind fun run =>
            some { run with
              accepted := taken iov.flatten (.ok k) ++ w.accepted ++ run.accepted
              events := r.events ++ w.events ++ run.events } := by
  rw [writevLoop, hio, Option.bind_eq_bind, Option.bind_some]
  cases r.result with
  | error e => rfl
  | ok k =>
    dsimp only
    cases hcut : cut (min k iov.flatten.length) iov with
    | none =>
      rw [advance_of_cut_none hcut]
      rfl
    | some cutAt =>
      obtain ⟨rest, behind⟩ := cutAt
      rw [advance_of_cut_some hcut]
      dsimp only
      cases write hooked rest r.rest with
      | none => rfl
      | some w =>
        rw [Option.bind_some, Option.bind_some, Option.bind_eq_bind]
        by_cases hw : (rest.length : ℤ) ≠ w.result
        · rw [if_pos hw, if_pos hw]
          rfl
        · rw [if_neg hw, if_neg hw]
          rfl

theorem taken_min (buf : List Byte) (k : ℕ) : taken buf (.ok k) = buf.take (min k buf.length) := by
  rw [taken, List.take_eq_take_min]

/-- From any turn on, a call that does not return `-1` delivers the parts left. -/
theorem writevLoop_delivers {hooked : Bool} {turns totalWrite : ℕ} {iov : List (List Byte)}
    {script : List SysResult} {run : WriteRun} (hfull : ContinuationsFull hooked turns iov script)
    (h : writevLoop hooked turns iov totalWrite script = some run) (hres : run.result ≠ -1) :
    run.result = (totalWrite + iov.flatten.length : ℕ) ∧ run.accepted = iov.flatten := by
  induction turns generalizing iov totalWrite script run with
  | zero => cases h
  | succ turns ih =>
    obtain ⟨r, hio, -⟩ := Option.bind_eq_some_iff.mp h
    rw [writevLoop_turn hio] at h
    cases hr : r.result with
    | error e =>
      rw [hr] at h
      cases h
      exact absurd rfl hres
    | ok k =>
      rw [hr] at h
      dsimp only at h
      rw [taken_min] at h
      cases hcut : cut (min k iov.flatten.length) iov with
      | none =>
        have hall := cut_none_flatten hcut
        have hn : min k iov.flatten.length = iov.flatten.length := by omega
        rw [hcut, hn, List.take_length] at h
        cases h
        exact ⟨rfl, List.append_nil _⟩
      | some cutAt =>
        obtain ⟨rest, behind⟩ := cutAt
        obtain ⟨hflat, hlt, hne, -⟩ := cut_some_flatten hcut
        have hlen := congrArg List.length hflat
        rw [List.length_append, List.length_append, List.length_take] at hlen
        rw [hcut] at h
        obtain ⟨w, hw, h⟩ := Option.bind_eq_some_iff.mp h
        cases hc : ioBase hooked .write r.rest with
        | none =>
          rw [write_waits hc] at hw
          cases hw
        | some c =>
          obtain ⟨htaken, hnext⟩ := hfull r k rest behind c hio hr hcut hc
          obtain ⟨hwrite, hout⟩ := write_full hne hc htaken
          rw [hwrite] at hw
          cases hw
          dsimp only at h
          by_cases hshort : (rest.length : ℤ) ≠ writeResult rest c.result
          · rw [if_pos hshort] at h
            cases h
            exact absurd rfl hres
          · have hacc : taken rest c.result = rest := by
              rcases hout with hbad | hgood
              · omega
              · exact hgood.2
            rw [if_neg hshort, hacc] at h
            by_cases hend : behind = []
            · rw [if_pos hend] at h
              cases h
              rw [hend] at hflat hlen
              simp only [List.flatten_nil, List.append_nil, List.length_nil] at hflat hlen
              refine ⟨?_, hflat.symm⟩
              dsimp only
              omega
            · rw [if_neg hend] at h
              obtain ⟨later, hlater, h⟩ := Option.bind_eq_some_iff.mp h
              cases h
              obtain ⟨hr2, ha2⟩ := ih hnext hlater hres
              dsimp only at hr2 ⊢
              refine ⟨?_, ?_⟩
              · rw [hr2]
                omega
              · rw [ha2, ← hflat]

/-- A turn takes at most two answers and leaves fewer parts. -/
theorem writevLoop_returns {hooked : Bool} {turns totalWrite : ℕ} {iov : List (List Byte)}
    {script : List SysResult} (hfull : ContinuationsFull hooked turns iov script)
    (hturns : script.length ≤ turns) (h : 2 * iov.length < answers script) :
    ∃ run, writevLoop hooked turns iov totalWrite script = some run := by
  induction turns generalizing iov totalWrite script with
  | zero =>
    have hnil : script = [] := List.eq_nil_of_length_eq_zero (Nat.le_zero.mp hturns)
    rw [hnil] at h
    simp at h
  | succ turns ih =>
    obtain ⟨r, hio⟩ := @ioBase_answered hooked .write script (by omega)
    have hcons := ioBase_consumes hio
    have hlt := hcons.rest_lt
    have hans := hcons.answers_le
    rw [writevLoop_turn hio]
    cases hr : r.result with
    | error e => exact ⟨_, rfl⟩
    | ok k =>
      dsimp only
      cases hcut : cut (min k iov.flatten.length) iov with
      | none => exact ⟨_, rfl⟩
      | some cutAt =>
        obtain ⟨rest, behind⟩ := cutAt
        obtain ⟨-, -, hne, hlen⟩ := cut_some_flatten hcut
        obtain ⟨c, hc⟩ := @ioBase_answered hooked .write r.rest (by omega)
        have hcons2 := ioBase_consumes hc
        have hlt2 := hcons2.rest_lt
        have hans2 := hcons2.answers_le
        obtain ⟨htaken, hnext⟩ := hfull r k rest behind c hio hr hcut hc
        obtain ⟨hwrite, -⟩ := write_full hne hc htaken
        dsimp only
        rw [hwrite, Option.bind_some]
        split
        · exact ⟨_, rfl⟩
        · split
          · exact ⟨_, rfl⟩
          · have hlater : ∀ total, ∃ run, writevLoop hooked turns behind total c.rest = some run :=
              fun total => ih hnext (by omega) (by omega)
            obtain ⟨run, hrun⟩ := hlater (totalWrite + min k iov.flatten.length + rest.length)
            dsimp only
            rw [hrun]
            exact ⟨_, rfl⟩

/-- **The parts arrive once and in order.** And two answers for each part, and one
more, are enough for the call to return. -/
theorem writev_delivers (hooked : Bool) (iov : List (List Byte)) (script : List SysResult)
    (hfull : ContinuationsFull hooked script.length iov script) :
    (∀ run, writev hooked iov script = some run → run.result ≠ -1 →
      run.result = iov.flatten.length ∧ run.accepted = iov.flatten) ∧
    (2 * iov.length < answers script → ∃ run, writev hooked iov script = some run) := by
  constructor
  · intro run h hres
    obtain ⟨hr, ha⟩ := writevLoop_delivers hfull h hres
    rw [Nat.zero_add] at hr
    exact ⟨hr, ha⟩
  · intro h
    exact writevLoop_returns hfull (le_refl _) h

/-- A blocked call, three bytes that end inside the third part, and its rest. -/
theorem writev_delivers_cut : ∃ run, writev true [[1, 2], [], [3, 4, 5], []]
      (.error .eagain :: .ok 3 :: List.replicate 8 (.ok 2)) = some run ∧ run.result ≠ -1 ∧
    run.result = 5 ∧ run.accepted = [1, 2, 3, 4, 5] := by
  have hfull : ContinuationsFull true 10 [[1, 2], [], [3, 4, 5], []]
      (.error .eagain :: .ok 3 :: List.replicate 8 (.ok 2)) := by
    intro r k rest behind c hio hr hcut hc
    cases hio
    cases hr
    cases hcut
    cases hc
    refine ⟨?_, ?_⟩
    · intro m hm
      cases hm
      decide
    · intro r k rest behind c hio hr hcut
      cases hio
      cases hr
      cases hcut
  obtain ⟨hdelivers, hreturns⟩ := writev_delivers true [[1, 2], [], [3, 4, 5], []]
    (.error .eagain :: .ok 3 :: List.replicate 8 (.ok 2)) hfull
  obtain ⟨run, hrun⟩ := hreturns (by decide)
  have hvalue : (writev true [[1, 2], [], [3, 4, 5], []]
      (.error .eagain :: .ok 3 :: List.replicate 8 (.ok 2))).map WriteRun.result = some 5 := by
    decide
  rw [hrun, Option.map_some, Option.some.injEq] at hvalue
  have hres : run.result ≠ -1 := by
    rw [hvalue]
    decide
  exact ⟨run, hrun, hres, hdelivers run hrun hres⟩

/-! ### When it returns -1 -/

theorem writeResult_eq_neg_one_iff (buf : List Byte) (result : SysResult) :
    writeResult buf result = -1 ↔ ∃ e, result = .error e := by
  cases result with
  | ok k =>
    rw [writeResult]
    constructor
    · intro h
      omega
    · rintro ⟨e, he⟩
      cases he
  | error e => exact ⟨fun _ => ⟨e, rfl⟩, fun _ => rfl⟩

/-- From any turn on, the last answer that is taken decides. -/
theorem writevLoop_last {hooked : Bool} {turns totalWrite : ℕ} {iov : List (List Byte)}
    {script : List SysResult} {run : WriteRun} (hfull : ContinuationsFull hooked turns iov script)
    (h : writevLoop hooked turns iov totalWrite script = some run) :
    ∃ before last, script = before ++ last :: run.rest ∧ (run.result = -1 ↔ ∃ e, last = .error e) := by
  induction turns generalizing iov totalWrite script run with
  | zero => cases h
  | succ turns ih =>
    obtain ⟨r, hio, -⟩ := Option.bind_eq_some_iff.mp h
    obtain ⟨refused, hscript⟩ := ioBase_consumes hio
    rw [writevLoop_turn hio] at h
    have hnot : ∀ (n : ℕ) (k : ℕ), ((n : ℤ) = -1 ↔ ∃ e, (.ok k : SysResult) = .error e) := by
      intro n k
      constructor
      · intro hn
        omega
      · rintro ⟨e, he⟩
        cases he
    cases hr : r.result with
    | error e =>
      rw [hr] at h hscript
      cases h
      exact ⟨_, _, hscript, fun _ => ⟨e, rfl⟩, fun _ => rfl⟩
    | ok k =>
      rw [hr] at h hscript
      dsimp only at h
      cases hcut : cut (min k iov.flatten.length) iov with
      | none =>
        rw [hcut] at h
        cases h
        exact ⟨_, _, hscript, hnot _ k⟩
      | some cutAt =>
        obtain ⟨rest, behind⟩ := cutAt
        obtain ⟨-, -, hne, -⟩ := cut_some_flatten hcut
        rw [hcut] at h
        obtain ⟨w, hw, h⟩ := Option.bind_eq_some_iff.mp h
        cases hc : ioBase hooked .write r.rest with
        | none =>
          rw [write_waits hc] at hw
          cases hw
        | some c =>
          obtain ⟨htaken, hnext⟩ := hfull r k rest behind c hio hr hcut hc
          obtain ⟨hwrite, hout⟩ := write_full hne hc htaken
          obtain ⟨refused', hrest⟩ := ioBase_consumes hc
          rw [hwrite] at hw
          cases hw
          dsimp only at h
          have hfailed := writeResult_eq_neg_one_iff rest c.result
          have hsplit : script = refused.map Except.error ++ .ok k :: refused'.map Except.error ++
              c.result :: c.rest := by
            rw [hscript, hrest, List.append_assoc, List.cons_append]
          by_cases hshort : (rest.length : ℤ) ≠ writeResult rest c.result
          · rw [if_pos hshort] at h
            cases h
            have hneg : writeResult rest c.result = -1 := by
              rcases hout with hbad | hgood
              · exact hbad
              · exact absurd hgood.1.symm hshort
            exact ⟨_, _, hsplit, fun _ => hfailed.mp hneg, fun _ => rfl⟩
          · rw [if_neg hshort] at h
            by_cases hend : behind = []
            · rw [if_pos hend] at h
              cases h
              refine ⟨_, _, hsplit, ?_⟩
              rw [← hfailed]
              dsimp only
              omega
            · rw [if_neg hend] at h
              obtain ⟨later, hlater, h⟩ := Option.bind_eq_some_iff.mp h
              cases h
              obtain ⟨before, last, hlast, hiff⟩ := ih hnext hlater
              refine ⟨refused.map Except.error ++ .ok k :: refused'.map Except.error ++ c.result :: before,
                last, ?_, hiff⟩
              rw [hsplit, hlast, List.append_assoc _ (c.result :: before), List.cons_append]

/-- A call returns -1 exactly when the last answer of the kernel was an error. -/
theorem writev_fails_iff {hooked : Bool} {iov : List (List Byte)} {script : List SysResult} {run : WriteRun}
    (hfull : ContinuationsFull hooked script.length iov script) (h : writev hooked iov script = some run) :
    run.result = -1 ↔ ∃ before e, script = before ++ .error e :: run.rest := by
  obtain ⟨before, last, hscript, hiff⟩ := writevLoop_last hfull h
  rw [hiff]
  constructor
  · rintro ⟨e, rfl⟩
    exact ⟨before, e, hscript⟩
  · rintro ⟨before', e, hscript'⟩
    rw [hscript] at hscript'
    obtain ⟨-, hcons⟩ := List.append_inj' hscript' rfl
    exact ⟨e, (List.cons.inj hcons).1⟩

end DeftRpc.Hook
