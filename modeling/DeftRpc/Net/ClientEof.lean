import DeftRpc.Net.ClientReceive

/-!
# TcpClient::Receive and the end of the stream (TcpClient.h:80-90)

At the end of the stream a fetch returns 0, which is not negative: the loop goes
on decoding the same bytes. A call returns exactly when a message that is not empty
comes next.
-/

namespace DeftRpc.Net
open DeftRpc.Foundation DeftRpc.Buffer DeftRpc.Buffer.RingBuffer

/-- The first `n` results of readv: the chunks, then the end of the stream. -/
def arrivals (chunks : List (List Byte)) : ℕ → List (Option (List Byte))
  | 0 => []
  | n + 1 => some (chunks.headD []) :: arrivals chunks.tail n

/-- A buffer and the chunks still to come after calls that have returned. -/
inductive Reached (chunks : List (List Byte)) : RingBuffer → List (List Byte) → Prop
  | start : Reached chunks fresh chunks
  | call {b : RingBuffer} {cs : List (List Byte)} {n : ℕ} {run : ReceiveRun} {view : List Byte} :
      Reached chunks b cs → receive b (arrivals cs n) = .ok run → run.view = some view →
        Reached chunks run.buffer (cs.drop run.fetchedOn.length)

/-- The next message if its frame is complete in the whole stream, otherwise nothing. -/
def nextMessage (b : RingBuffer) (cs : List (List Byte)) : List Byte :=
  match packageLength.next (b.content ++ cs.flatten) with
  | some (m, _) => m
  | none => []

/-- The call ends after some number of fetches and returns what it should. -/
def CallRight (b : RingBuffer) (cs : List (List Byte)) : Prop :=
  ∃ n run, receive b (arrivals cs n) = .ok run ∧ run.view = some (nextMessage b cs)

/-- The chunks up to the one that completes the first frame, one at least. -/
def needed : List Byte → List (List Byte) → List (List Byte)
  | _, [] => []
  | q, c :: cs => c :: if packageLength.next (q ++ c) = none then needed (q ++ c) cs else []

/-- A message that is not empty comes next, and the fetches for it start where
FetchDataFromFd is right. -/
def NextArrives (b : RingBuffer) (cs : List (List Byte)) : Prop :=
  (∃ m q, packageLength.next (b.content ++ cs.flatten) = some (m, q) ∧ m ≠ []) ∧
    StepsOk fetchTurn (fun b _ => ¬ b.AtEnd) b (needed b.content cs)

structure Ready (b : RingBuffer) (cs : List (List Byte)) : Prop where
  inv : Inv b
  possible : StepsOk fetchTurn Possible b cs

/-! ### One turn -/

theorem turn_decodes {b b1 : RingBuffer} {chunk : List Byte} {k : ℤ}
    (hf : b.fetchDataFromFd (some chunk) = .ok (k, b1)) (hi : Inv b1)
    (hc : b1.content = b.content ++ chunk) :
    ∃ m b2, decode b1 = .ok (m, b2) ∧ Inv b2 ∧ fetchTurn b chunk = .ok (m, b2) ∧
      (packageLength.next (b.content ++ chunk) = none ∧ m = [] ∧ b2.content = b.content ++ chunk ∨
        packageLength.next (b.content ++ chunk) = some (m, b2.content)) := by
  obtain ⟨hnone, hsome⟩ := decode_spec hi
  rw [hc] at hnone hsome
  have hturn : ∀ {m b2}, decode b1 = .ok (m, b2) → fetchTurn b chunk = .ok (m, b2) := by
    intro m b2 hd
    rw [fetchTurn, hf, Exec.ok_bind, hd]
  cases hnext : packageLength.next (b.content ++ chunk) with
  | none =>
    have hd := hnone hnext
    exact ⟨[], b1, hd, hi, hturn hd, Or.inl ⟨rfl, rfl, hc⟩⟩
  | some frame =>
    obtain ⟨m, q⟩ := frame
    obtain ⟨b2, hd, hi2, hc2⟩ := hsome m q hnext
    exact ⟨m, b2, hd, hi2, hturn hd, Or.inr (by rw [hc2])⟩

/-- A turn fetches the next chunk, or nothing, and decodes at most one frame. -/
theorem Ready.turn {b : RingBuffer} {cs : List (List Byte)} (h : Ready b cs)
    (hn : cs ≠ [] → ¬ b.AtEnd) :
    ∃ k b1 m b2, b.fetchDataFromFd (some (cs.headD [])) = .ok (k, b1) ∧ 0 ≤ k ∧
      decode b1 = .ok (m, b2) ∧ fetchTurn b (cs.headD []) = .ok (m, b2) ∧ Ready b2 cs.tail ∧
      (packageLength.next (b.content ++ cs.headD []) = none ∧ m = [] ∧
          b2.content = b.content ++ cs.headD [] ∨
        packageLength.next (b.content ++ cs.headD []) = some (m, b2.content)) := by
  cases cs with
  | nil =>
    have hf := fetchDataFromFd_eof h.inv
    obtain ⟨m, b2, hd, hi2, hturn, hcase⟩ := turn_decodes hf h.inv (List.append_nil _).symm
    exact ⟨0, b, m, b2, hf, le_refl 0, hd, hturn, ⟨hi2, trivial⟩, hcase⟩
  | cons c cs =>
    obtain ⟨b1, hf, hi, hc⟩ := fetch_possible h.inv (stepsOk_head h.possible)
      (hn (List.cons_ne_nil c cs))
    obtain ⟨m, b2, hd, hi2, hturn, hcase⟩ := turn_decodes hf hi hc
    exact ⟨c.length, b1, m, b2, hf, by omega, hd, hturn, ⟨hi2, stepsOk_tail hturn h.possible⟩, hcase⟩

theorem Ready.faults {b : RingBuffer} {cs : List (List Byte)} (h : Ready b cs) (hne : cs ≠ [])
    (hend : b.AtEnd) (n : ℕ) : receive b (arrivals cs (n + 1)) = .error .outOfRange := by
  cases cs with
  | nil => exact absurd rfl hne
  | cons c cs =>
    rw [arrivals, receive, List.headD_cons,
      fetchDataFromFd_atEnd h.inv hend (stepsOk_head h.possible).some]
    rfl

theorem receive_turn {b b1 b2 : RingBuffer} {cs : List (List Byte)} {k : ℤ} {m : List Byte}
    (hf : b.fetchDataFromFd (some (cs.headD [])) = .ok (k, b1)) (hk : 0 ≤ k)
    (hd : decode b1 = .ok (m, b2)) (n : ℕ) :
    receive b (arrivals cs (n + 1)) =
      if m = [] then do
        let run ← receive b2 (arrivals cs.tail n)
        pure { run with fetchedOn := b :: run.fetchedOn }
      else .ok ⟨some m, [b], b2, arrivals cs.tail n⟩ := by
  rw [arrivals, receive, hf, Exec.ok_bind, if_neg (by dsimp only; omega), hd, Exec.ok_bind]
  cases m with
  | nil => rfl
  | cons x xs => rfl

/-! ### Every call -/

/-- A call that returns leaves a buffer that is ready for the chunks left, and what
it returns is not empty. -/
theorem Ready.returns {b : RingBuffer} {cs : List (List Byte)} {n : ℕ} {run : ReceiveRun}
    {view : List Byte} (h : Ready b cs) (hrun : receive b (arrivals cs n) = .ok run)
    (hview : run.view = some view) :
    Ready run.buffer (cs.drop run.fetchedOn.length) ∧ view ≠ [] := by
  induction n generalizing b cs run with
  | zero =>
    cases hrun
    cases hview
  | succ n ih =>
    by_cases hfault : cs ≠ [] ∧ b.AtEnd
    · rw [h.faults hfault.1 hfault.2] at hrun
      cases hrun
    · obtain ⟨k, b1, m, b2, hf, hk, hd, -, h2, -⟩ := h.turn fun hne hend => hfault ⟨hne, hend⟩
      rw [receive_turn hf hk hd] at hrun
      by_cases hm : m = []
      · rw [if_pos hm] at hrun
        obtain ⟨later, hlater, hrun⟩ := Exec.bind_eq_ok hrun
        cases hrun
        have hdrop : cs.drop (later.fetchedOn.length + 1) = cs.tail.drop later.fetchedOn.length := by
          rw [← List.drop_one, List.drop_drop, Nat.add_comm]
        rw [List.length_cons, hdrop]
        exact ih h2 hlater hview
      · rw [if_neg hm] at hrun
        cases hrun
        cases hview
        rw [List.length_singleton, List.drop_one]
        exact ⟨h2, hm⟩

theorem Reached.ready {chunks cs : List (List Byte)} {b : RingBuffer}
    (h : StepsOk fetchTurn Possible fresh chunks) (hreach : Reached chunks b cs) : Ready b cs := by
  induction hreach with
  | start => exact ⟨fresh_inv, h⟩
  | call _ hrun hview ih => exact (ih.returns hrun hview).1

theorem Ready.fetches {b : RingBuffer} {cs : List (List Byte)} {n : ℕ} {run : ReceiveRun}
    {view : List Byte} (h : Ready b cs) (hrun : receive b (arrivals cs n) = .ok run)
    (hview : run.view = some view) :
    StepsOk fetchTurn (fun b _ => ¬ b.AtEnd) b (needed b.content cs) := by
  induction n generalizing b cs run with
  | zero =>
    cases hrun
    cases hview
  | succ n ih =>
    cases cs with
    | nil => exact trivial
    | cons c cs =>
      by_cases hend : b.AtEnd
      · rw [h.faults (List.cons_ne_nil c cs) hend] at hrun
        cases hrun
      · obtain ⟨k, b1, m, b2, hf, hk, hd, hturn, h2, hcase⟩ := h.turn fun _ => hend
        rw [List.headD_cons] at hturn hcase
        rw [needed, stepsOk_cons_iff hturn]
        refine ⟨hend, ?_⟩
        rcases hcase with ⟨hnone, hm, hc⟩ | hsome
        · rw [receive_turn hf hk hd, if_pos hm] at hrun
          obtain ⟨later, hlater, hrun⟩ := Exec.bind_eq_ok hrun
          cases hrun
          rw [if_pos hnone, ← hc]
          exact ih h2 hlater hview
        · rw [hsome, if_neg (by simp)]
          trivial

theorem Ready.receives_next {b : RingBuffer} {cs : List (List Byte)} {m q : List Byte}
    (h : Ready b cs) (hnext : packageLength.next (b.content ++ cs.flatten) = some (m, q))
    (hm : m ≠ []) (hok : StepsOk fetchTurn (fun b _ => ¬ b.AtEnd) b (needed b.content cs)) :
    ∃ n run, receive b (arrivals cs n) = .ok run ∧ run.view = some m := by
  induction cs generalizing b with
  | nil =>
    obtain ⟨k, b1, m', b2, hf, hk, hd, -, -, hcase⟩ := h.turn fun hne => absurd rfl hne
    rcases hcase with ⟨hnone, -, -⟩ | hsome
    · rw [List.headD_nil, ← List.flatten_nil, hnext] at hnone
      cases hnone
    · rw [List.headD_nil, ← List.flatten_nil, hnext] at hsome
      cases hsome
      refine ⟨1, ⟨some m, [b], b2, arrivals [] 0⟩, ?_, rfl⟩
      rw [receive_turn hf hk hd, if_neg hm, List.tail_nil]
  | cons c cs ih =>
    rw [needed] at hok
    obtain ⟨k, b1, m', b2, hf, hk, hd, hturn, h2, hcase⟩ := h.turn fun _ => stepsOk_head hok
    rw [List.headD_cons] at hturn hcase
    rw [List.flatten_cons, ← List.append_assoc] at hnext
    rcases hcase with ⟨hnone, hempty, hc⟩ | hsome
    · have hrest := stepsOk_tail hturn hok
      rw [if_pos hnone, ← hc] at hrest
      rw [← hc] at hnext
      obtain ⟨n, run, hrun, hview⟩ := ih h2 hnext hrest
      refine ⟨n + 1, { run with fetchedOn := b :: run.fetchedOn }, ?_, hview⟩
      rw [receive_turn hf hk hd, if_pos hempty, List.tail_cons, hrun]
      rfl
    · have hsame := packageLength.next_append hsome cs.flatten
      rw [hnext] at hsame
      cases hsame
      refine ⟨1, ⟨some m, [b], b2, arrivals (c :: cs).tail 0⟩, ?_, rfl⟩
      rw [receive_turn hf hk hd, if_neg hm]

/-- **When a call of Receive ends as it should.** -/
theorem receive_right_iff (chunks : List (List Byte))
    (hpossible : StepsOk fetchTurn Possible fresh chunks) {b : RingBuffer} {cs : List (List Byte)}
    (hreach : Reached chunks b cs) : CallRight b cs ↔ NextArrives b cs := by
  have h := hreach.ready hpossible
  constructor
  · rintro ⟨n, run, hrun, hview⟩
    refine ⟨?_, h.fetches hrun hview⟩
    have hne := (h.returns hrun hview).2
    unfold nextMessage at hne
    split at hne
    · next m q hnext => exact ⟨m, q, hnext, hne⟩
    · exact absurd rfl hne
  · rintro ⟨⟨m, q, hnext, hm⟩, hok⟩
    obtain ⟨n, run, hrun, hview⟩ := h.receives_next hnext hm hok
    refine ⟨n, run, hrun, ?_⟩
    rw [hview, nextMessage, hnext]

/-- The first call takes two of the three chunks, and the second goes on behind it. -/
theorem receive_right_iff_two_calls :
    (CallRight fresh [[0, 0], [0, 1, 7, 0], [0, 0, 1, 8]] ↔
      NextArrives fresh [[0, 0], [0, 1, 7, 0], [0, 0, 1, 8]]) ∧
    ∃ run, receive fresh (arrivals [[0, 0], [0, 1, 7, 0], [0, 0, 1, 8]] 2) = .ok run ∧
      run.view = some [7] ∧ (CallRight run.buffer [[0, 0, 1, 8]] ↔ NextArrives run.buffer [[0, 0, 1, 8]]) := by
  have hpossible : StepsOk fetchTurn Possible fresh [[0, 0], [0, 1, 7, 0], [0, 0, 1, 8]] := by
    decide +kernel
  have hfirst : (receive fresh (arrivals [[0, 0], [0, 1, 7, 0], [0, 0, 1, 8]] 2)).map
      (fun run => (run.view, run.fetchedOn.length)) = .ok (some [7], 2) := by
    decide +kernel
  cases hrun : receive fresh (arrivals [[0, 0], [0, 1, 7, 0], [0, 0, 1, 8]] 2) with
  | error fault =>
    rw [hrun] at hfirst
    cases hfirst
  | ok run =>
    rw [hrun] at hfirst
    obtain ⟨hview, hcount⟩ := Prod.mk.inj (Except.ok.inj hfirst)
    have hreach := Reached.call .start hrun hview
    rw [hcount] at hreach
    exact ⟨receive_right_iff _ hpossible .start, run, rfl, hview, receive_right_iff _ hpossible hreach⟩

/-- At the end of the stream, in front of an incomplete frame, the call never ends. -/
theorem Ready.hangs {b : RingBuffer} (h : Ready b [])
    (hnone : packageLength.next b.content = none) (n : ℕ) :
    ∃ run, receive b (arrivals [] n) = .ok run ∧ run.view = none := by
  induction n generalizing b with
  | zero => exact ⟨_, rfl, rfl⟩
  | succ n ih =>
    obtain ⟨k, b1, m, b2, hf, hk, hd, -, h2, hcase⟩ := h.turn fun hne => absurd rfl hne
    rw [List.headD_nil, List.append_nil, hnone] at hcase
    obtain ⟨-, hm, hc⟩ := hcase.resolve_right (by simp)
    obtain ⟨run, hrun, hview⟩ := ih h2 (by rw [hc]; exact hnone)
    refine ⟨{ run with fetchedOn := b :: run.fetchedOn }, ?_, hview⟩
    rw [receive_turn hf hk hd, if_pos hm, List.tail_nil, hrun]
    rfl

/-- The peer closes after five of the six bytes of a frame: the loop fetches nothing
for ever. -/
theorem receive_hangs_at_eof :
    StepsOk fetchTurn Possible fresh [[0, 0, 0, 2, 7]] ∧
      nextMessage fresh [[0, 0, 0, 2, 7]] = [] ∧
      (∀ n, ∃ run, receive fresh (arrivals [[0, 0, 0, 2, 7]] n) = .ok run ∧ run.view = none) ∧
      ¬ CallRight fresh [[0, 0, 0, 2, 7]] := by
  have hpossible : StepsOk fetchTurn Possible fresh [[0, 0, 0, 2, 7]] := by decide +kernel
  have hhang : ∀ n, ∃ run, receive fresh (arrivals [[0, 0, 0, 2, 7]] n) = .ok run ∧
      run.view = none := by
    intro n
    cases n with
    | zero => exact ⟨_, rfl, rfl⟩
    | succ n =>
      have h : Ready fresh [[0, 0, 0, 2, 7]] := ⟨fresh_inv, hpossible⟩
      have hnext : packageLength.next [0, 0, 0, 2, 7] = none := by decide
      obtain ⟨k, b1, m, b2, hf, hk, hd, -, h2, hcase⟩ := h.turn fun _ => by decide
      rw [fresh_content, List.nil_append, List.headD_cons, hnext] at hcase
      obtain ⟨-, hm, hc⟩ := hcase.resolve_right (by simp)
      obtain ⟨run, hrun, hview⟩ := h2.hangs (by rw [hc]; exact hnext) n
      refine ⟨{ run with fetchedOn := fresh :: run.fetchedOn }, ?_, hview⟩
      rw [receive_turn hf hk hd, if_pos hm, List.tail_cons, hrun]
      rfl
  refine ⟨hpossible, by decide, hhang, ?_⟩
  rintro ⟨n, run, hrun, hview⟩
  obtain ⟨run', hrun', hnone⟩ := hhang n
  rw [hrun] at hrun'
  cases hrun'
  rw [hnone] at hview
  cases hview

end DeftRpc.Net
