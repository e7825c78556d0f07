import DeftRpc.Hook.Writev
import DeftRpc.Net.Codec

/-!
# TcpClient::SendAll (TcpClient.h:61-78)

The client does not use the hook, so writev and write go to the kernel once a
turn. A script lists the kernel's results over one call.
-/

namespace DeftRpc.Net
open DeftRpc.Foundation DeftRpc.Buffer DeftRpc.Buffer.RingBuffer DeftRpc.Hook

/-- What a flush or a whole call returns, what the kernel has accepted meanwhile, the
output buffer and the results left over. -/
structure SendRun where
  result : ℤ
  accepted : List Byte
  buffer : RingBuffer
  rest : List SysResult

/-- FlushDataToFd over the writev of Hook.cpp; `none` while it waits for the kernel. -/
def flushToKernel (buffer : RingBuffer) (script : List SysResult) : Exec (Option SendRun) := do
  let iov ← buffer.flushIov
  match writev false iov script with
  | none => pure none
  | some run =>
    let writeSize := int32 run.result
    if writeSize < 0 then pure (some ⟨-1, run.accepted, buffer, run.rest⟩)
    else pure (some ⟨writeSize, run.accepted, buffer.updateAfterRead writeSize.toNat, run.rest⟩)

/- `do { ... } while (temp >= 0 && !Empty())`. Every flush uses up a result. -/
def sendLoop : ℕ → RingBuffer → ℤ → List SysResult → Exec (Option SendRun)
  | 0, _, _, _ => .ok none
  | turns + 1, buffer, res, script => do
    let flushed ← flushToKernel buffer script
    match flushed with
    | none => pure none
    | some f =>
      let res := int32 (res + f.result)
      if f.result ≥ 0 ∧ f.buffer.empty = false then do
        let later ← sendLoop turns f.buffer res f.rest
        pure (later.map fun run => { run with accepted := f.accepted ++ run.accepted })
      else if f.result < 0 then pure (some { f with result := -1 })
      else pure (some { f with result := int32 (res - packageLengthSize) })

def sendAll (buffer : RingBuffer) (msg : List Byte) (script : List SysResult) :
    Exec (Option SendRun) :=
  if msg.length = 0 then .ok (some ⟨0, [], buffer, script⟩)
  else do
    let buffer ← encode buffer msg (u32 msg.length)
    sendLoop script.length buffer 0 script

/-! ### The kernel's answers to one flush -/

/-- Where `n` bytes of the segments end: the rest of the segment that is cut and the
segments behind it. -/
def cut : ℕ → List ℕ → Option (ℕ × List ℕ)
  | _, [] => none
  | n, len :: lens => if n ≥ len then cut (n - len) lens else some (len - n, lens)

/-- The number of bytes that the kernel takes of the segments, and whether these are
all and the call succeeds. `none`: the answers do not suffice, or the write that
continues behind a cut gets a short count. -/
def transfer : List ℕ → List SysResult → Option (ℕ × Bool)
  | _, [] => none
  | _, .error _ :: _ => some (0, false)
  | lens, .ok k :: script =>
    match cut (min k lens.sum) lens with
    | none => some (min k lens.sum, true)
    | some (rest, lens') =>
      match script with
      | [] => none
      | .error _ :: _ => some (min k lens.sum, false)
      | .ok j :: script =>
        if j = 0 then some (min k lens.sum, false)
        else if j < rest then none
        else if lens' = [] then some (min k lens.sum + rest, true)
        else (transfer lens' script).map fun r => (min k lens.sum + rest + r.1, r.2)

theorem cut_lengths (n : ℕ) (iov : List (List Byte)) :
    cut n (iov.map List.length) = (Hook.cut n iov).map fun c => (c.1.length, c.2.map List.length) := by
  induction iov generalizing n with
  | nil => rfl
  | cons part iov ih =>
    rw [List.map_cons, cut, Hook.cut]
    split
    · exact ih (n - part.length)
    · rw [Option.map_some, List.length_drop]

theorem ioBase_unhooked (result : SysResult) (script : List SysResult) :
    ioBase false .write (result :: script) = some ⟨result, [.called result], script⟩ := rfl

theorem taken_refused {buf : List Byte} {result : SysResult} (h : writeResult buf result ≤ 0) :
    taken buf result = [] := by
  cases result with
  | error e => rfl
  | ok k =>
    rw [writeResult] at h
    have hmin : min k buf.length = 0 := by omega
    rw [taken_min, hmin, List.take_zero]

theorem write_refused {buf : List Byte} {result : SysResult} (h : writeResult buf result ≤ 0)
    (script : List SysResult) :
    write false buf (result :: script)
      = some ⟨writeResult buf result, [], [.called result], script⟩ := by
  rw [Hook.write, List.length_cons, writeLoop, ioBase_unhooked, ← taken_refused h]
  simp [h]

theorem write_whole {buf : List Byte} (hbuf : buf ≠ []) {j : ℕ} (h : buf.length ≤ j)
    (script : List SysResult) :
    write false buf (.ok j :: script) = some ⟨buf.length, buf, [.called (.ok j)], script⟩ := by
  have hfull : ∀ k, (Except.ok j : SysResult) = .ok k → buf.length ≤ k := by
    intro k hk
    cases hk
    exact h
  obtain ⟨hwrite, -⟩ := write_full hbuf (ioBase_unhooked (.ok j) script) hfull
  rw [hwrite, writeResult, Nat.min_eq_right h, taken, List.take_of_length_le h]

theorem take_behind {α : Type} {l part more : List α} {n : ℕ} (h : l = l.take n ++ part ++ more)
    (hn : n < l.length) (k : ℕ) : l.take (n + part.length + k) = l.take n ++ part ++ more.take k := by
  have hlen : (l.take n ++ part).length = n + part.length := by
    rw [List.length_append, List.length_take, Nat.min_eq_left (le_of_lt hn)]
  have hdrop : l.drop (n + part.length) = more := by
    rw [← hlen]
    nth_rewrite 2 [h]
    exact List.drop_left
  rw [List.take_add, hdrop, ← hlen]
  nth_rewrite 2 [h]
  rw [List.take_left]

/-- The ways in which one turn over the segments can go. -/
inductive TransferTurn (iov : List (List Byte)) : List SysResult → ℕ → Bool → Prop where
  | refused (e : Errno) (script : List SysResult) : TransferTurn iov (.error e :: script) 0 false
  | whole {k : ℕ} (script : List SysResult) (hcut : Hook.cut (min k iov.flatten.length) iov = none) :
      TransferTurn iov (.ok k :: script) iov.flatten.length true
  | stopped {k : ℕ} {part : List Byte} {behind : List (List Byte)} {answer : SysResult}
      (script : List SysResult) (hcut : Hook.cut (min k iov.flatten.length) iov = some (part, behind))
      (hstop : writeResult part answer ≤ 0) :
      TransferTurn iov (.ok k :: answer :: script) (min k iov.flatten.length) false
  | finished {k j : ℕ} {part : List Byte} (script : List SysResult)
      (hcut : Hook.cut (min k iov.flatten.length) iov = some (part, [])) (hj : part.length ≤ j) :
      TransferTurn iov (.ok k :: .ok j :: script) (min k iov.flatten.length + part.length) true
  | continued {k j t : ℕ} {part : List Byte} {behind : List (List Byte)} {script : List SysResult}
      {all : Bool} (hcut : Hook.cut (min k iov.flatten.length) iov = some (part, behind))
      (hj : part.length ≤ j) (hbehind : behind ≠ [])
      (hlater : transfer (behind.map List.length) script = some (t, all)) :
      TransferTurn iov (.ok k :: .ok j :: script) (min k iov.flatten.length + part.length + t) all

theorem transfer_turn {script : List SysResult} {iov : List (List Byte)} {t : ℕ} {all : Bool}
    (h : transfer (iov.map List.length) script = some (t, all)) : TransferTurn iov script t all := by
  have hsum : (iov.map List.length).sum = iov.flatten.length := List.length_flatten.symm
  cases script with
  | nil =>
    rw [transfer] at h
    cases h
  | cons answer script =>
    cases answer with
    | error e =>
      rw [transfer] at h
      cases h
      exact .refused e script
    | ok k =>
      rw [transfer, hsum, cut_lengths] at h
      cases hcut : Hook.cut (min k iov.flatten.length) iov with
      | none =>
        have hall := cut_none_flatten hcut
        have hmin : min k iov.flatten.length = iov.flatten.length := by omega
        simp only [hcut, Option.map_none, Option.some.injEq, Prod.mk.injEq] at h
        obtain ⟨rfl, rfl⟩ := h
        rw [hmin]
        exact .whole script hcut
      | some cutAt =>
        obtain ⟨part, behind⟩ := cutAt
        rw [hcut, Option.map_some] at h
        dsimp only at h
        cases script with
        | nil => cases h
        | cons answer script =>
          cases answer with
          | error e =>
            cases h
            exact .stopped script hcut (by simp [writeResult])
          | ok j =>
            dsimp only at h
            split at h
            case isTrue hj =>
              cases h
              exact .stopped script hcut (by simp [writeResult, hj])
            case isFalse hj =>
              split at h
              case isTrue hshort => cases h
              case isFalse hlong =>
                split at h
                case isTrue hend =>
                  rw [List.map_eq_nil_iff.mp hend] at hcut
                  cases h
                  exact .finished script hcut (not_lt.mp hlong)
                case isFalse hmore =>
                  obtain ⟨⟨t', all'⟩, hlater, hr⟩ := Option.map_eq_some_iff.mp h
                  cases hr
                  exact .continued hcut (not_lt.mp hlong) (fun hnil => hmore (by rw [hnil]; rfl)) hlater

theorem writevLoop_transfer {script : List SysResult} {turns t : ℕ} (total : ℕ)
    {iov : List (List Byte)} {all : Bool} (hturns : script.length ≤ turns)
    (h : transfer (iov.map List.length) script = some (t, all)) :
    ∃ run, writevLoop false turns iov total script = some run ∧
      run.accepted = iov.flatten.take t ∧ t ≤ iov.flatten.length ∧
      (all = true → t = iov.flatten.length) ∧
      run.result = if all then ((total + iov.flatten.length : ℕ) : ℤ) else -1 := by
  induction turns generalizing script total t iov all with
  | zero =>
    rw [List.eq_nil_of_length_eq_zero (Nat.le_zero.mp hturns), transfer] at h
    cases h
  | succ turns ih =>
    cases transfer_turn h with
    | refused e script => exact ⟨_, rfl, rfl, Nat.zero_le _, Bool.false_ne_true.elim, rfl⟩
    | @whole k script hcut =>
      have hall := cut_none_flatten hcut
      have hmin : min k iov.flatten.length = iov.flatten.length := by omega
      rw [writevLoop_turn (ioBase_unhooked (.ok k) script)]
      dsimp only
      rw [taken_min, hcut, hmin]
      exact ⟨_, rfl, List.append_nil _, le_refl _, fun _ => rfl, rfl⟩
    | @stopped k part behind answer script hcut hstop =>
      obtain ⟨-, hlt, hne, -⟩ := cut_some_flatten hcut
      have hpos := List.length_pos_iff.mpr hne
      rw [writevLoop_turn (ioBase_unhooked (.ok k) (answer :: script))]
      dsimp only
      rw [taken_min, hcut]
      dsimp only
      have hresult : (part.length : ℤ) ≠ writeResult part answer := by omega
      rw [write_refused hstop, Option.bind_some, if_pos hresult]
      exact ⟨_, rfl, List.append_nil _, le_of_lt hlt, Bool.false_ne_true.elim, rfl⟩
    | @finished k j part script hcut hj =>
      obtain ⟨hflat, hlt, hne, -⟩ := cut_some_flatten hcut
      have hall := take_behind hflat hlt 0
      rw [List.flatten_nil, List.append_nil] at hflat
      have hwhole := congrArg List.length hflat
      rw [List.length_append, List.length_take] at hwhole
      rw [writevLoop_turn (ioBase_unhooked (.ok k) (.ok j :: script))]
      dsimp only
      rw [taken_min, hcut]
      dsimp only
      rw [write_whole hne hj, Option.bind_some, if_neg (not_not.mpr rfl), if_pos rfl]
      refine ⟨_, rfl, ?_, by omega, fun _ => by omega, ?_⟩
      · rw [List.take_zero, List.append_nil, Nat.add_zero] at hall
        exact hall.symm
      · rw [if_pos rfl]
        exact congrArg Nat.cast (by omega)
    | @continued k j t part behind script all hcut hj hbehind hlater =>
      obtain ⟨hflat, hlt, hne, -⟩ := cut_some_flatten hcut
      have hwhole := congrArg List.length hflat
      rw [List.length_append, List.length_append, List.length_take] at hwhole
      have hrest : script.length ≤ turns := by
        rw [List.length_cons, List.length_cons] at hturns
        omega
      obtain ⟨run, hrun, hacc, hle, hall, hres⟩ :=
        ih (total + min k iov.flatten.length + part.length) hrest hlater
      rw [writevLoop_turn (ioBase_unhooked (.ok k) (.ok j :: script))]
      dsimp only
      rw [taken_min, hcut]
      dsimp only
      rw [write_whole hne hj, Option.bind_some, if_neg (not_not.mpr rfl), if_neg hbehind, hrun]
      refine ⟨_, rfl, ?_, by omega, fun ha => ?_, ?_⟩
      · rw [take_behind hflat hlt, ← hacc]
      · have hmore := hall ha
        omega
      · show run.result = _
        rw [hres]
        split
        · exact congrArg Nat.cast (by omega)
        · rfl

/-! ### One call -/

/-- The lengths of the segments that the first flush of a call offers. -/
def segments (buffer : RingBuffer) (msg : List Byte) : List ℕ :=
  match encodeString buffer msg >>= flushIov with
  | .ok iov => iov.map List.length
  | .error _ => []

theorem flushToKernel_spec {b : RingBuffer} (hi : Inv b) (hs : b.mSize < maxTotal)
    {iov : List (List Byte)} (hiov : b.flushIov = .ok iov) (hflat : iov.flatten = b.content)
    {script : List SysResult} {t : ℕ} {all : Bool}
    (h : transfer (iov.map List.length) script = some (t, all)) :
    ∃ f, flushToKernel b script = .ok (some f) ∧ f.accepted = b.content.take t ∧ t ≤ b.mSize ∧
      (all = true → t = b.mSize ∧ f.result = b.mSize ∧ Inv f.buffer ∧ f.buffer.content = []) ∧
      (all = false → f.result = -1 ∧ f.buffer = b) := by
  have hlen := hi.content_length
  have hm : maxTotal = 2147483648 := rfl
  obtain ⟨run, hrun, hacc, hle, hall, hres⟩ := writevLoop_transfer 0 (le_refl _) h
  rw [hflat] at hacc hle hall hres
  unfold flushToKernel
  rw [hiov, Exec.ok_bind, writev, hrun]
  cases all with
  | false =>
    simp only [hres, Bool.false_eq_true, if_false, int32_neg_one]
    exact ⟨_, rfl, hacc, by omega, by simp, fun _ => ⟨rfl, rfl⟩⟩
  | true =>
    have hint : int32 run.result = b.mSize := by
      rw [hres, if_pos rfl, Nat.zero_add, hlen]
      exact int32_of_lt (by omega)
    obtain ⟨hi', hc'⟩ := updateAfterRead_spec hi (le_refl b.mSize)
    simp only [hint, if_neg (show ¬ (b.mSize : ℤ) < 0 by omega), Int.toNat_natCast]
    refine ⟨_, rfl, hacc, by omega, fun _ => ⟨by rw [hall rfl, hlen], rfl, hi', ?_⟩, by simp⟩
    rw [hc', ← hlen, List.drop_length]

/-- A call whose answers suffice: all that was left over goes with the new frame, or
everything stays for the next call. -/
theorem sendAll_spec {b : RingBuffer} (hi : Inv b) {msg : List Byte} (hmsg : msg ≠ [])
    (hs : b.mSize + packageLengthSize + msg.length < maxTotal) {script : List SysResult} {t : ℕ}
    {all : Bool} (h : transfer (segments b msg) script = some (t, all)) :
    ∃ run, sendAll b msg script = .ok (some run) ∧ Inv run.buffer ∧
      run.accepted = (b.content ++ packageLength.frame msg).take t ∧
      t ≤ b.mSize + packageLengthSize + msg.length ∧
      (all = true → t = b.mSize + packageLengthSize + msg.length ∧
        run.result = (b.mSize + msg.length : ℕ) ∧ run.buffer.content = []) ∧
      (all = false → run.result = -1 ∧ run.buffer.content = b.content ++ packageLength.frame msg) := by
  have hframe := packageLength.frame_length msg
  have hw : packageLength.width = packageLengthSize := rfl
  have hm : maxTotal = 2147483648 := rfl
  have hp : packageLengthSize = 4 := rfl
  have hpos : msg.length ≠ 0 := by simpa using hmsg
  obtain ⟨b1, henc, hi1, hc1⟩ := encode_spec hi msg (by omega)
  have hsize : b1.mSize = b.mSize + packageLengthSize + msg.length := by
    rw [← hi1.content_length, hc1, List.length_append, hi.content_length, hframe, hw, Nat.add_assoc]
  have hu : u32 msg.length = msg.length := u32_of_lt (by omega)
  obtain ⟨iov, hiov, hflat⟩ := flushIov_spec hi1.toLayout
  have hseg : segments b msg = iov.map List.length := by
    rw [segments, encodeString, hu, henc, Exec.ok_bind, hiov]
  rw [hseg] at h
  obtain ⟨f, hf, hacc, hle, hall, hnone⟩ := flushToKernel_spec hi1 (by omega) hiov hflat h
  obtain ⟨result, script, rfl⟩ : ∃ result rest, script = result :: rest := by
    cases script with
    | nil => rw [transfer] at h; cases h
    | cons result script => exact ⟨result, script, rfl⟩
  rw [hc1] at hacc
  unfold sendAll
  rw [if_neg hpos, hu, henc, Exec.ok_bind, List.length_cons, sendLoop, hf, Exec.ok_bind]
  cases all with
  | false =>
    obtain ⟨hres, hbuf⟩ := hnone rfl
    refine ⟨{ f with result := -1 }, ?_, by simpa [hbuf] using hi1, hacc, by omega, by simp,
      fun _ => ⟨rfl, by simpa [hbuf] using hc1⟩⟩
    simp [hres]
  | true =>
    obtain ⟨ht, hres, hi2, hc2⟩ := hall rfl
    have hempty : f.buffer.empty = true := hi2.empty_iff.mpr (hi2.content_eq_nil.mp hc2)
    have hint : int32 (int32 (0 + f.result) - packageLengthSize) = (b.mSize + msg.length : ℕ) := by
      have hsum : int32 (0 + f.result) = (b1.mSize : ℕ) := by
        rw [hres, Int.zero_add]
        exact int32_of_lt (by omega)
      have hsub : ((b1.mSize : ℕ) : ℤ) - (packageLengthSize : ℕ) = (b.mSize + msg.length : ℕ) := by
        omega
      rw [hsum, hsub]
      exact int32_of_lt (by omega)
    refine ⟨{ f with result := (b.mSize + msg.length : ℕ) }, ?_, hi2, hacc, by omega,
      fun _ => ⟨by omega, rfl, hc2⟩, by simp⟩
    have hnonneg : ¬ f.result < 0 := by omega
    simp [hempty, hnonneg, ← hint]

/-! ### Every run -/

/-- The client, with all that the kernel has accepted and all frames so far. -/
structure SendingClient where
  mOutputBuffer : RingBuffer := fresh
  accepted : List Byte := []
  encoded : List Byte := []

structure SendCall where
  msg : List Byte
  script : List SysResult

/- What the kernel has accepted within a call that still waits, it has also accepted
when the call is then refused. -/
def sendCall (c : SendingClient) (call : SendCall) : Exec (ℤ × SendingClient) := do
  let run ← sendAll c.mOutputBuffer call.msg call.script
  match run with
  | none => .error .diverge
  | some run => pure (run.result, ⟨run.buffer, c.accepted ++ run.accepted,
      c.encoded ++ packageLength.frame call.msg⟩)

/-- The kernel has accepted bytes that still lie in the output buffer. -/
def Resends (c : SendingClient) : Prop :=
  c.encoded.length < c.accepted.length + c.mOutputBuffer.size

/-- No write that continues behind a cut gets a short count; what an earlier call has
left over does not leave now, and when a part of it has left already, nothing does. -/
def SendCallOk (c : SendingClient) (call : SendCall) : Prop :=
  c.mOutputBuffer.mSize + packageLengthSize + call.msg.length < maxTotal ∧
    ∃ r ∈ transfer (segments c.mOutputBuffer call.msg) call.script,
      (Resends c → r.1 = 0) ∧ (c.mOutputBuffer.empty = false → r.2 = false)

instance (c : SendingClient) : Decidable (Resends c) := Nat.decLt _ _

instance (c : SendingClient) (call : SendCall) : Decidable (SendCallOk c call) :=
  inferInstanceAs (Decidable (_ ∧ _))

def Returns (call : SendCall) (result : ℤ) : Prop := result = -1 ∨ result = call.msg.length

/-- The frames are those that are gone and those that still lie in the buffer, of which
a part has been accepted. -/
structure SendInv (c : SendingClient) : Prop where
  buffer : Inv c.mOutputBuffer
  stream : ∃ gone sent, c.encoded = gone ++ c.mOutputBuffer.content ∧
    sent ≤ c.mOutputBuffer.mSize ∧ c.accepted = gone ++ c.mOutputBuffer.content.take sent

theorem SendInv.prefix {c : SendingClient} (h : SendInv c) : c.accepted <+: c.encoded := by
  obtain ⟨gone, sent, henc, -, hacc⟩ := h.stream
  rw [henc, hacc]
  exact (List.prefix_append_right_inj gone).mpr (List.take_prefix _ _)

theorem sendCall_step {c : SendingClient} (h : SendInv c) {call : SendCall} (hmsg : call.msg ≠ [])
    (hok : SendCallOk c call) :
    ∃ result c', sendCall c call = .ok (result, c') ∧ SendInv c' ∧ Returns call result ∧
      c'.encoded = c.encoded ++ packageLength.frame call.msg := by
  obtain ⟨hs, ⟨t, all⟩, hmem, hresend, hleft⟩ := hok
  obtain ⟨gone, sent, henc, hsent, hacc⟩ := h.stream
  obtain ⟨run, hrun, hi, hracc, ht, hall, hnone⟩ := sendAll_spec h.buffer hmsg hs hmem
  have hlen := h.buffer.content_length
  have hresends : Resends c ↔ 0 < sent := by
    have h1 := congrArg List.length henc
    have h2 := congrArg List.length hacc
    simp only [List.length_append, List.length_take] at h1 h2
    unfold Resends size
    omega
  have hstep : sendCall c call = .ok (run.result, ⟨run.buffer, c.accepted ++ run.accepted,
      c.encoded ++ packageLength.frame call.msg⟩) := by
    rw [sendCall, hrun]
    rfl
  refine ⟨_, _, hstep, ⟨hi, ?_⟩, ?_, rfl⟩
  · cases all with
    | true =>
      -- Nothing was left over, so the frame has gone alone.
      obtain ⟨htall, -, hcontent⟩ := hall rfl
      have hempty : c.mOutputBuffer.mSize = 0 := by
        by_contra hne
        have := hleft (by rw [Bool.eq_false_iff, Ne, h.buffer.empty_iff]; exact hne)
        cases this
      have hnil : c.mOutputBuffer.content = [] := h.buffer.content_eq_nil.mpr hempty
      have hframe := packageLength.frame_length call.msg
      have hw : packageLength.width = packageLengthSize := rfl
      refine ⟨c.encoded ++ packageLength.frame call.msg, 0, by simp [hcontent], Nat.zero_le _, ?_⟩
      have hwhole : (packageLength.frame call.msg).take t = packageLength.frame call.msg :=
        List.take_of_length_le (by omega)
      simp [hracc, hacc, henc, hnil, hwhole]
    | false =>
      obtain ⟨-, hcontent⟩ := hnone rfl
      have hsize : run.buffer.mSize = c.mOutputBuffer.mSize + packageLengthSize + call.msg.length := by
        rw [← hi.content_length, hcontent, List.length_append, packageLength.frame_length, hlen]
        rw [Nat.add_assoc]
        rfl
      rcases Nat.eq_zero_or_pos sent with rfl | hpos
      · refine ⟨gone, t, by simp [hcontent, henc], by dsimp only; omega, ?_⟩
        simp [hracc, hacc, hcontent]
      · have hzero : t = 0 := hresend (hresends.mpr hpos)
        refine ⟨gone, sent, by simp [hcontent, henc], by dsimp only; omega, ?_⟩
        rw [hracc, hzero, List.take_zero, List.append_nil, hacc, hcontent,
          List.take_append_of_le_length (by omega)]
  · cases all with
    | true =>
      obtain ⟨-, hres, -⟩ := hall rfl
      have hempty : c.mOutputBuffer.mSize = 0 := by
        by_contra hne
        have := hleft (by rw [Bool.eq_false_iff, Ne, h.buffer.empty_iff]; exact hne)
        cases this
      exact .inr (by rw [hres, hempty, Nat.zero_add])
    | false => exact .inl (hnone rfl).1

theorem sendCalls_run (calls : List SendCall) (hne : ∀ call ∈ calls, call.msg ≠ [])
    {c : SendingClient} (h : SendInv c) (hok : StepsOk sendCall SendCallOk c calls) :
    ∃ results c', runOps sendCall c calls = .ok (results, c') ∧ SendInv c' ∧
      c'.encoded = c.encoded ++ packageLength.frames (calls.map SendCall.msg) ∧
      List.Forall₂ Returns calls results := by
  induction calls generalizing c with
  | nil => exact ⟨[], c, rfl, h, by simp, .nil⟩
  | cons call calls ih =>
    obtain ⟨result, c1, hstep, h1, hret, henc1⟩ :=
      sendCall_step h (hne call List.mem_cons_self) (stepsOk_head hok)
    obtain ⟨results, c2, hrun, h2, henc2, hrets⟩ :=
      ih (fun call' hc => hne call' (List.mem_cons_of_mem _ hc)) h1 (stepsOk_tail hstep hok)
    refine ⟨result :: results, c2, runOps_cons_ok hstep hrun, h2, ?_, .cons hret hrets⟩
    rw [henc2, henc1, List.map_cons, LengthCode.frames_cons, List.append_assoc]

/-- In every run whose calls meet the condition the kernel has accepted a prefix of the
frames, and every call returns -1 or the length of its message. -/
theorem sendAll_delivers (calls : List SendCall) (hne : ∀ call ∈ calls, call.msg ≠ [])
    (hok : StepsOk sendCall SendCallOk {} calls) :
    ∃ results c, runOps sendCall {} calls = .ok (results, c) ∧
      c.accepted <+: packageLength.frames (calls.map SendCall.msg) ∧
      List.Forall₂ Returns calls results := by
  have hstart : SendInv {} := ⟨fresh_inv, [], 0, rfl, Nat.zero_le _, rfl⟩
  obtain ⟨results, c, hrun, hinv, henc, hrets⟩ := sendCalls_run calls hne hstart hok
  refine ⟨results, c, hrun, ?_, hrets⟩
  rw [List.nil_append] at henc
  rw [← henc]
  exact hinv.prefix

/-- A frame cut once, then one that is refused behind its length field. -/
theorem sendAll_delivers_two :
    ∃ results c, runOps sendCall {} [⟨[7, 8], [.ok 3, .ok 3]⟩, ⟨[9], [.ok 4, .error (.other 32)]⟩]
        = .ok (results, c) ∧
      c.accepted <+: packageLength.frames ([⟨[7, 8], [.ok 3, .ok 3]⟩,
        ⟨[9], [.ok 4, .error (.other 32)]⟩].map SendCall.msg) ∧
      List.Forall₂ Returns [⟨[7, 8], [.ok 3, .ok 3]⟩, ⟨[9], [.ok 4, .error (.other 32)]⟩] results :=
  sendAll_delivers _ (by decide) (by decide +kernel)

/-- An error after one byte: the next call sends that byte again and counts the frame
that was left over. A short count in the continuing write: two bytes go twice. -/
theorem sendAll_resends :
    ((runOps sendCall {} [⟨[65], [.ok 1, .error (.other 32)]⟩, ⟨[66], [.ok 10]⟩]).map fun r =>
        (r.1, r.2.accepted)) = .ok ([-1, 6], [0, 0, 0, 0, 1, 65, 0, 0, 0, 1, 66]) ∧
      ¬ ([0, 0, 0, 0, 1, 65, 0, 0, 0, 1, 66] : List Byte) <+: packageLength.frames [[65], [66]] ∧
      ((runOps sendCall {} [⟨[1, 2, 3, 4], [.ok 4, .ok 2, .ok 2]⟩]).map fun r =>
        (r.1, r.2.accepted)) = .ok ([4], [0, 0, 0, 4, 1, 2, 1, 2]) ∧
      ¬ ([0, 0, 0, 4, 1, 2, 1, 2] : List Byte) <+: packageLength.frames [[1, 2, 3, 4]] := by
  decide +kernel

end DeftRpc.Net
