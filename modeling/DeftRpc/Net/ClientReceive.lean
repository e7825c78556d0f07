import DeftRpc.Buffer.RingFetch
import DeftRpc.Net.Codec

/-!
# TcpClient::Receive (TcpClient.h:80-90)

Receive fetches before it decodes, so it goes to the socket even when the next
message lies in the input buffer.
-/

namespace DeftRpc.Net
open DeftRpc.Foundation DeftRpc.Buffer DeftRpc.Buffer.RingBuffer

/-- A call of Receive: what it returns, `none` while it still waits for bytes, and
the input buffer at each of its fetches. -/
structure ReceiveRun where
  view : Option (List Byte)
  fetchedOn : List RingBuffer
  buffer : RingBuffer
  rest : List (Option (List Byte))

/-- The answers of readv are used up one a turn; without one the call waits. -/
def receive (buffer : RingBuffer) : List (Option (List Byte)) → Exec ReceiveRun
  | [] => .ok ⟨none, [buffer], buffer, []⟩
  | answer :: answers => do
    let fetched ← buffer.fetchDataFromFd answer
    if fetched.1 < 0 then pure ⟨some [], [buffer], fetched.2, answers⟩
    else do
      let decoded ← decode fetched.2
      if decoded.1.isEmpty then do
        let run ← receive decoded.2 answers
        pure { run with fetchedOn := buffer :: run.fetchedOn }
      else pure ⟨some decoded.1, [buffer], decoded.2, answers⟩

def receives (buffer : RingBuffer) (answers : List (Option (List Byte))) :
    ℕ → Exec (List (Option (List Byte)) × List RingBuffer)
  | 0 => .ok ([], [])
  | n + 1 => do
    let run ← receive buffer answers
    let later ← receives run.buffer run.rest n
    pure (run.view :: later.1, run.fetchedOn ++ later.2)

/-- One turn of the loop with a positive result. -/
def fetchTurn (buffer : RingBuffer) (chunk : List Byte) : Exec (List Byte × RingBuffer) := do
  let fetched ← buffer.fetchDataFromFd (some chunk)
  decode fetched.2

/-- One call a message, each returns the next one, and none goes to the socket with a
complete frame in the buffer. -/
def ReceivesAll (buffer : RingBuffer) (chunks ms : List (List Byte)) : Prop :=
  ∃ fetchedOn, receives buffer (chunks.map some) ms.length = .ok (ms.map some, fetchedOn) ∧
    ∀ b ∈ fetchedOn, packageLength.next b.content = none

/-- What one fetch can return: something, no more than the segments hold, and no more
than the counters of the buffer count. -/
structure Possible (buffer : RingBuffer) (chunk : List Byte) : Prop where
  some : chunk ≠ []
  fits : chunk.length ≤ iovTotal buffer.fetchIov
  counts : buffer.mSize + chunk.length < maxTotal

/-- The fetch starts where FetchDataFromFd is right and completes at most one frame. -/
def FetchOk (buffer : RingBuffer) (chunk : List Byte) : Prop :=
  ¬ buffer.AtEnd ∧ ∀ m ∈ packageLength.next (buffer.content ++ chunk), packageLength.next m.2 = none

instance (buffer : RingBuffer) (chunk : List Byte) : Decidable (Possible buffer chunk) :=
  decidable_of_iff (chunk ≠ [] ∧ chunk.length ≤ iovTotal buffer.fetchIov ∧
      buffer.mSize + chunk.length < maxTotal)
    ⟨fun h => ⟨h.1, h.2.1, h.2.2⟩, fun h => ⟨h.1, h.2, h.3⟩⟩

instance (buffer : RingBuffer) (chunk : List Byte) : Decidable (FetchOk buffer chunk) :=
  inferInstanceAs (Decidable (¬ buffer.AtEnd ∧
    ∀ m ∈ packageLength.next (buffer.content ++ chunk), packageLength.next m.2 = none))

/-! ### One turn -/

theorem receive_fetches {buffer : RingBuffer} {answers : List (Option (List Byte))} {run : ReceiveRun}
    (h : receive buffer answers = .ok run) : buffer ∈ run.fetchedOn := by
  cases answers with
  | nil =>
    cases h
    exact List.mem_cons_self
  | cons answer answers =>
    rw [receive] at h
    obtain ⟨fetched, -, h⟩ := Exec.bind_eq_ok h
    split at h
    · cases h
      exact List.mem_cons_self
    · obtain ⟨decoded, -, h⟩ := Exec.bind_eq_ok h
      split at h
      · obtain ⟨later, -, h⟩ := Exec.bind_eq_ok h
        cases h
        exact List.mem_cons_self
      · cases h
        exact List.mem_cons_self

theorem Receiving.next_eq_none {rest : List (List Byte)} {future : List Byte} {b : RingBuffer}
    (h : Receiving rest future b) : packageLength.next b.content = none ↔ FrontIncomplete rest b := by
  rcases packageLength.next_cases (by decide) h.lengths h.stream with
    ⟨hnone, hfront⟩ | ⟨m, tail, q, hrest, hq, hnext, -⟩
  · exact iff_of_true hnone hfront
  · refine iff_of_false (by simp [hnext]) fun hfront => ?_
    have hlt := hfront m tail hrest
    rw [hq, List.length_append] at hlt
    omega

theorem fetch_possible {b : RingBuffer} {chunk : List Byte} (hi : Inv b) (hp : Possible b chunk)
    (hn : ¬ b.AtEnd) : ∃ b', b.fetchDataFromFd (some chunk) = .ok (chunk.length, b') ∧ Inv b' ∧
      b'.content = b.content ++ chunk := by
  have hdel : b.delivered chunk = chunk := List.take_of_length_le hp.fits
  obtain ⟨b', hf, hi', hc⟩ := fetchDataFromFd_spec hi hn chunk (by rw [hdel]; exact hp.counts)
  rw [hdel] at hf hc
  exact ⟨b', hf, hi', hc⟩

theorem Receiving.fetch {rest : List (List Byte)} {chunk future : List Byte} {b : RingBuffer}
    (h : Receiving rest (chunk ++ future) b) (hp : Possible b chunk) (hn : ¬ b.AtEnd) :
    ∃ b', b.fetchDataFromFd (some chunk) = .ok (chunk.length, b') ∧ Receiving rest future b' ∧
      b'.content = b.content ++ chunk := by
  obtain ⟨b', hf, hi, hc⟩ := fetch_possible h.inv hp hn
  have hs := h.stream
  rw [← List.append_assoc] at hs
  exact ⟨b', hf, ⟨hi, hc ▸ hs, h.lengths, h.nonEmpty⟩, hc⟩

theorem receivesAll_nil (b : RingBuffer) (chunks : List (List Byte)) : ReceivesAll b chunks [] :=
  ⟨[], rfl, by simp⟩

theorem receivesAll_more {b b1 : RingBuffer} {chunk : List Byte} {chunks ms : List (List Byte)}
    (hne : ms ≠ []) (hfront : packageLength.next b.content = none)
    (hf : b.fetchDataFromFd (some chunk) = .ok (chunk.length, b1)) (hd : decode b1 = .ok ([], b1)) :
    ReceivesAll b (chunk :: chunks) ms ↔ ReceivesAll b1 chunks ms := by
  obtain ⟨m, tail, rfl⟩ := List.exists_cons_of_ne_nil hne
  have hstep : receive b ((chunk :: chunks).map some) = (do
      let run ← receive b1 (chunks.map some)
      pure { run with fetchedOn := b :: run.fetchedOn }) := by
    rw [List.map_cons, receive, hf, Exec.ok_bind, if_neg (by simp), hd]
    rfl
  unfold ReceivesAll
  rw [List.length_cons, receives, receives, hstep]
  cases hrun : receive b1 (chunks.map some) with
  | error e => simp
  | ok run =>
    simp only [Exec.ok_bind, Exec.pure_eq_ok]
    cases receives run.buffer run.rest tail.length with
    | error e => simp
    | ok later => simp [hfront]

theorem receivesAll_done {b b1 b2 : RingBuffer} {chunk m : List Byte}
    {chunks tail : List (List Byte)} (hm : m ≠ []) (hfront : packageLength.next b.content = none)
    (hf : b.fetchDataFromFd (some chunk) = .ok (chunk.length, b1)) (hd : decode b1 = .ok (m, b2)) :
    ReceivesAll b (chunk :: chunks) (m :: tail) ↔ ReceivesAll b2 chunks tail := by
  have hstep : receive b ((chunk :: chunks).map some)
      = .ok ⟨some m, [b], b2, chunks.map some⟩ := by
    rw [List.map_cons, receive, hf, Exec.ok_bind, if_neg (by simp), hd, Exec.ok_bind,
      if_neg (by simpa using hm)]
    rfl
  unfold ReceivesAll
  rw [List.length_cons, receives, hstep]
  simp only [Exec.ok_bind, Exec.pure_eq_ok]
  cases receives b2 (chunks.map some) tail.length with
  | error e => simp
  | ok later =>
    obtain ⟨views, fetchedOn⟩ := later
    simp [hfront]

/-- A call that starts with a complete frame goes to the socket all the same. -/
theorem not_receivesAll {b : RingBuffer} {chunks ms : List (List Byte)} (hne : ms ≠ [])
    (hfront : packageLength.next b.content ≠ none) : ¬ ReceivesAll b chunks ms := by
  obtain ⟨m, tail, rfl⟩ := List.exists_cons_of_ne_nil hne
  rintro ⟨fetchedOn, hrun, hall⟩
  rw [List.length_cons, receives] at hrun
  obtain ⟨run, hreceive, hrun⟩ := Exec.bind_eq_ok hrun
  obtain ⟨later, -, hrun⟩ := Exec.bind_eq_ok hrun
  obtain ⟨-, hfetched⟩ := Prod.mk.inj (Except.ok.inj hrun)
  rw [← hfetched] at hall
  exact hfront (hall b (List.mem_append_left _ (receive_fetches hreceive)))

/-! ### Every run -/

theorem receivesAll_iff (chunks ms : List (List Byte)) (b : RingBuffer)
    (h : Receiving ms chunks.flatten b) (hfront : FrontIncomplete ms b)
    (hp : StepsOk fetchTurn Possible b chunks) :
    ReceivesAll b chunks ms ↔ StepsOk fetchTurn FetchOk b chunks := by
  induction chunks generalizing ms b with
  | nil =>
    cases ms with
    | nil => exact iff_of_true (receivesAll_nil b []) trivial
    | cons m tail =>
      have hs := congrArg List.length h.stream
      have hlt := hfront m tail rfl
      rw [List.flatten_nil, List.append_nil, LengthCode.frames_cons, List.length_append] at hs
      omega
  | cons chunk chunks ih =>
    have hpossible := stepsOk_head hp
    have hnone := h.next_eq_none.mpr hfront
    have hne : ms ≠ [] := by
      rintro rfl
      have hs := h.stream
      simp only [List.flatten_cons, LengthCode.frames_nil, List.append_eq_nil_iff] at hs
      exact hpossible.some hs.2.1
    by_cases hend : b.AtEnd
    · refine iff_of_false ?_ fun hok => (stepsOk_head hok).1 hend
      obtain ⟨m, tail, rfl⟩ := List.exists_cons_of_ne_nil hne
      rintro ⟨fetchedOn, hrun, -⟩
      rw [List.length_cons, receives, List.map_cons, receive,
        fetchDataFromFd_atEnd h.inv hend hpossible.some] at hrun
      cases hrun
    · rw [List.flatten_cons] at h
      obtain ⟨b1, hf, h1, hc1⟩ := h.fetch hpossible hend
      rcases h1.decode_cases with ⟨hmore, hd⟩ | ⟨m, tail, b2, rfl, -, hd, h2⟩
      · have hturn : fetchTurn b chunk = .ok ([], b1) := by
          rw [fetchTurn, hf, Exec.ok_bind, hd]
        have hone : FetchOk b chunk := by
          refine ⟨hend, ?_⟩
          rw [← hc1, h1.next_eq_none.mpr hmore]
          simp
        rw [receivesAll_more hne hnone hf hd, stepsOk_cons_iff hturn,
          ih ms b1 h1 hmore (stepsOk_tail hturn hp)]
        simp [hone]
      · have hturn : fetchTurn b chunk = .ok (m, b2) := by
          rw [fetchTurn, hf, Exec.ok_bind, hd]
        have hm : m ≠ [] := h.nonEmpty m List.mem_cons_self
        have hone : FetchOk b chunk ↔ packageLength.next b2.content = none := by
          obtain ⟨-, hdecode⟩ := decode_spec h1.inv
          cases hnext : packageLength.next b1.content with
          | none =>
            rw [(decode_spec h1.inv).1 hnext] at hd
            cases hd
            exact absurd rfl hm
          | some r =>
            obtain ⟨b2', hd', -, hc2⟩ := hdecode r.1 r.2 hnext
            rw [hd] at hd'
            cases hd'
            simp [FetchOk, hend, ← hc1, hnext, hc2]
        rw [receivesAll_done hm hnone hf hd, stepsOk_cons_iff hturn, hone]
        by_cases hleft : packageLength.next b2.content = none
        · rw [ih tail b2 h2 (h2.next_eq_none.mp hleft) (stepsOk_tail hturn hp)]
          simp [hleft]
        · refine iff_of_false (not_receivesAll ?_ hleft) fun hok => hleft hok.1
          rintro rfl
          have hs := h2.stream
          simp only [LengthCode.frames_nil, List.append_eq_nil_iff] at hs
          rw [hs.1] at hleft
          exact hleft (packageLength.next_nil (by decide))

/-- The messages whose frames arrive in these chunks are returned one a call, without
a fetch that is not needed, exactly when every fetch starts where FetchDataFromFd is
right and completes at most one frame. -/
theorem receive_returns_iff (ms : List (List Byte)) (hlen : ∀ m ∈ ms, m.length < 4294967296)
    (hne : ∀ m ∈ ms, m ≠ []) (chunks : List (List Byte))
    (hstream : chunks.flatten = packageLength.frames ms)
    (hpossible : StepsOk fetchTurn Possible fresh chunks) :
    ReceivesAll fresh chunks ms ↔ StepsOk fetchTurn FetchOk fresh chunks := by
  have hstart : Receiving ms chunks.flatten fresh := by
    refine ⟨fresh_inv, ?_, hlen, hne⟩
    rw [fresh_content, List.nil_append, hstream]
  refine receivesAll_iff chunks ms fresh hstart ?_ hpossible
  rw [← hstart.next_eq_none, fresh_content]
  exact packageLength.next_nil (by decide)

/-- Two messages in three chunks. -/
theorem receive_returns_iff_two :
    ReceivesAll fresh [[0, 0], [0, 1, 7, 0], [0, 0, 1, 8]] [[7], [8]] ↔
      StepsOk fetchTurn FetchOk fresh [[0, 0], [0, 1, 7, 0], [0, 0, 1, 8]] :=
  receive_returns_iff [[7], [8]] (by decide) (by decide) _ (by decide) (by decide +kernel)

/-- Two frames in one chunk: the second call goes to the socket and waits. -/
theorem receive_two_frames_at_once :
    packageLength.frames [[7], [8]] = [0, 0, 0, 1, 7, 0, 0, 0, 1, 8] ∧
      ((receives fresh [some [0, 0, 0, 1, 7, 0, 0, 0, 1, 8]] 2).map fun r =>
          (r.1, r.2.map fun b => b.content)) =
        .ok ([some [7], none], [[], [0, 0, 0, 1, 8]]) ∧
      ¬ ReceivesAll fresh [[0, 0, 0, 1, 7, 0, 0, 0, 1, 8]] [[7], [8]] := by
  refine ⟨by decide +kernel, by decide +kernel, ?_⟩
  rintro ⟨fetchedOn, hrun, -⟩
  have hviews : (receives fresh [some [0, 0, 0, 1, 7, 0, 0, 0, 1, 8]] 2).map (fun r => r.1)
      = .ok [some [7], none] := by decide +kernel
  have hboth := congrArg (fun r => r.map (fun r => r.1)) hrun
  rw [show ([[7], [8]] : List (List Byte)).length = 2 from rfl, List.map_singleton, hviews] at hboth
  simp [Except.map] at hboth

end DeftRpc.Net
