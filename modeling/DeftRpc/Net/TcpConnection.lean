import DeftRpc.Buffer.RingFetch
import DeftRpc.Net.Codec

/-!
# TcpConnection::ProcessMag (TcpConnection.cpp:46-94)

One turn of the inner loop fetches, decodes once, and answers the request it
got. The message callback is arbitrary: each turn brings the function it is at
that time, which returns a response or throws.
-/

namespace DeftRpc.Net
open DeftRpc.Foundation DeftRpc.Buffer DeftRpc.Buffer.RingBuffer

structure TcpConnection where
  mInputBuffer : RingBuffer := fresh
  mOutputBuffer : RingBuffer := fresh

/-- What the outside does in one turn: the bytes waiting on the socket, the
callback, and the answer of writev. -/
structure Turn where
  waiting : List Byte
  magCallback : List Byte → Except (List Byte) (List Byte)
  writev : Option ℕ

structure TurnOut where
  called : Option (List Byte) := none
  response : Option (List Byte) := none
  sent : List Byte := []
  deriving DecidableEq

/-- The returned string, or `what()` of the exception. -/
def responseTo (magCallback : List Byte → Except (List Byte) (List Byte)) (view : List Byte) :
    List Byte :=
  match magCallback view with
  | .ok responseMsg => responseMsg
  | .error exception => exception

/-- Flush the output buffer; returns the bytes that leave. -/
def flushOutput (buffer : RingBuffer) (writev : Option ℕ) : Exec (List Byte × RingBuffer) := do
  let r ← buffer.flushDataToFd writev
  pure (r.1.1.flatten.take r.1.2.toNat, r.2)

def processTurn (conn : TcpConnection) (t : Turn) : Exec (TurnOut × TcpConnection) := do
  let fetched ← conn.mInputBuffer.fetchDataFromFd (some t.waiting)
  let decoded ← decode fetched.2
  if decoded.1.isEmpty then pure ({}, { conn with mInputBuffer := decoded.2 })
  else do
    let responseMsg := responseTo t.magCallback decoded.1
    let output ← encodeString conn.mOutputBuffer responseMsg
    let flushed ← flushOutput output t.writev
    pure (⟨some decoded.1, some responseMsg, flushed.1⟩, ⟨decoded.2, flushed.2⟩)

/-- How the loop ends: the peer closes, or the fetch fails. -/
inductive Closing where
  | remoteClose (writev : Option ℕ)
  | failure

def processClose (conn : TcpConnection) : Closing → Exec (List Byte × TcpConnection)
  | .remoteClose writev => do
    let fetched ← conn.mInputBuffer.fetchDataFromFd (some [])
    if !fetched.2.empty then do
      let flushed ← flushOutput conn.mOutputBuffer writev
      pure (flushed.1, ⟨fetched.2, flushed.2⟩)
    else pure ([], { conn with mInputBuffer := fetched.2 })
  | .failure => do
    let fetched ← conn.mInputBuffer.fetchDataFromFd none
    pure ([], { conn with mInputBuffer := fetched.2 })

/-- The turns whose fetches are positive, then the last fetch. -/
def processMag (conn : TcpConnection) (turns : List Turn) (closing : Closing) :
    Exec ((List TurnOut × List Byte) × TcpConnection) := do
  let r ← runOps processTurn conn turns
  let last ← processClose r.2 closing
  pure ((r.1, last.1), last.2)

/-! ### One turn -/

/-- At most one frame is complete in `q`. -/
def AtMostOneFrame (q : List Byte) : Prop :=
  ∀ m ∈ packageLength.next q, packageLength.next m.2 = none

instance (q : List Byte) : Decidable (AtMostOneFrame q) :=
  inferInstanceAs (Decidable (∀ m ∈ packageLength.next q, packageLength.next m.2 = none))

/-- The fetch delivers all that waits, something waits, and no buffer outgrows
the `uint32_t` counters. -/
structure Bounded (conn : TcpConnection) (t : Turn) : Prop where
  waits : t.waiting ≠ []
  delivers : t.waiting.length ≤ iovTotal conn.mInputBuffer.fetchIov
  input : conn.mInputBuffer.mSize + t.waiting.length < maxTotal
  output : ∀ m ∈ packageLength.next (conn.mInputBuffer.content ++ t.waiting),
    conn.mOutputBuffer.mSize + packageLengthSize + (responseTo t.magCallback m.1).length < maxTotal

/-- What a turn needs: the fetch starts where FetchDataFromFd is right, and the
unread input with the fetched bytes behind it completes at most one frame. -/
structure TurnOk (conn : TcpConnection) (t : Turn) : Prop where
  bounded : Bounded conn t
  notAtEnd : ¬ conn.mInputBuffer.AtEnd
  oneFrame : AtMostOneFrame (conn.mInputBuffer.content ++ t.waiting)

instance (conn : TcpConnection) (t : Turn) : Decidable (Bounded conn t) :=
  decidable_of_iff (t.waiting ≠ [] ∧ t.waiting.length ≤ iovTotal conn.mInputBuffer.fetchIov ∧
      conn.mInputBuffer.mSize + t.waiting.length < maxTotal ∧
      ∀ m ∈ packageLength.next (conn.mInputBuffer.content ++ t.waiting),
        conn.mOutputBuffer.mSize + packageLengthSize + (responseTo t.magCallback m.1).length
          < maxTotal)
    ⟨fun h => ⟨h.1, h.2.1, h.2.2.1, h.2.2.2⟩, fun h => ⟨h.1, h.2, h.3, h.4⟩⟩

instance (conn : TcpConnection) (t : Turn) : Decidable (TurnOk conn t) :=
  decidable_of_iff (Bounded conn t ∧ ¬ conn.mInputBuffer.AtEnd ∧
      AtMostOneFrame (conn.mInputBuffer.content ++ t.waiting))
    ⟨fun h => ⟨h.1, h.2.1, h.2.2⟩, fun h => ⟨h.1, h.2, h.3⟩⟩

theorem flushOutput_eq {b : RingBuffer} (hi : Inv b) (hs : b.mSize < maxTotal) (writev : Option ℕ) :
    ∃ b', flushOutput b writev = .ok (b.content.take (flushAccepted writev b.content.length), b') ∧
      Inv b' ∧ b'.content = b.content.drop (flushAccepted writev b.content.length) := by
  obtain ⟨iov, b', hf, hflat, hi', hc'⟩ := flushDataToFd_spec hi hs writev
  have hres : (flushResult writev b.content.length).toNat
      = flushAccepted writev b.content.length := by
    cases writev with
    | none => rfl
    | some k => exact Int.toNat_natCast _
  refine ⟨b', ?_, hi', hc'⟩
  rw [flushOutput, hf, Exec.ok_bind, hflat, hres]
  rfl

theorem flushOutput_spec {b : RingBuffer} (hi : Inv b) (hs : b.mSize < maxTotal)
    (writev : Option ℕ) :
    ∃ sent b', flushOutput b writev = .ok (sent, b') ∧ Inv b' ∧ sent ++ b'.content = b.content := by
  obtain ⟨b', hf, hi', hc'⟩ := flushOutput_eq hi hs writev
  exact ⟨_, b', hf, hi', by rw [hc', List.take_append_drop]⟩

theorem respond_spec {b : RingBuffer} (hi : Inv b) (responseMsg : List Byte) (writev : Option ℕ)
    (h : b.mSize + packageLengthSize + responseMsg.length < maxTotal) :
    ∃ output sent b', encodeString b responseMsg = .ok output ∧
      flushOutput output writev = .ok (sent, b') ∧ Inv b' ∧ b'.mSize < maxTotal ∧
      sent ++ b'.content = b.content ++ packageLength.frame responseMsg := by
  have hlen := packageLength.frame_length responseMsg
  have hw : packageLength.width = packageLengthSize := rfl
  have hm : maxTotal = 2147483648 := rfl
  have hu : u32 responseMsg.length = responseMsg.length := u32_of_lt (by omega)
  obtain ⟨output, henc, hio, hco⟩ := encode_spec hi responseMsg (by omega)
  have hso : output.mSize < maxTotal := by
    rw [← hio.content_length, hco, List.length_append, hi.content_length]
    omega
  obtain ⟨sent, b', hf, hi', hc'⟩ := flushOutput_spec hio hso writev
  have hsent : b'.mSize ≤ output.mSize := by
    rw [← hi'.content_length, ← hio.content_length, ← hc', List.length_append]
    exact Nat.le_add_left _ _
  refine ⟨output, sent, b', ?_, hf, hi', by omega, hc'.trans hco⟩
  rw [encodeString, hu]
  exact henc

/-- A turn whose fetch is right: the request at the front of the unread bytes is
called and answered, or nothing happens when it is not complete. -/
theorem processTurn_spec {conn : TcpConnection} {t : Turn} (hin : Inv conn.mInputBuffer)
    (hout : Inv conn.mOutputBuffer) (hs : conn.mOutputBuffer.mSize < maxTotal) (hb : Bounded conn t) (hn : ¬ conn.mInputBuffer.AtEnd)
    (hne : ∀ m ∈ packageLength.next (conn.mInputBuffer.content ++ t.waiting), m.1 ≠ []) :
    ∃ o conn', processTurn conn t = .ok (o, conn') ∧ Inv conn'.mInputBuffer ∧
      Inv conn'.mOutputBuffer ∧ conn'.mOutputBuffer.mSize < maxTotal ∧
      o.sent ++ conn'.mOutputBuffer.content
        = conn.mOutputBuffer.content ++ packageLength.frames o.response.toList ∧
      match packageLength.next (conn.mInputBuffer.content ++ t.waiting) with
      | none => o.called = none ∧ o.response = none ∧
          conn'.mInputBuffer.content = conn.mInputBuffer.content ++ t.waiting
      | some (m, q) => o.called = some m ∧ o.response = some (responseTo t.magCallback m) ∧
          conn'.mInputBuffer.content = q := by
  have hdel : conn.mInputBuffer.delivered t.waiting = t.waiting :=
    List.take_of_length_le hb.delivers
  have hsum := hb.input
  obtain ⟨input, hf, hi1, hc1⟩ := fetchDataFromFd_spec hin hn t.waiting (by rw [hdel]; exact hsum)
  rw [hdel] at hf hc1
  obtain ⟨hnone, hsome⟩ := decode_spec hi1
  rw [hc1] at hnone hsome
  cases hnext : packageLength.next (conn.mInputBuffer.content ++ t.waiting) with
  | none =>
    refine ⟨{}, { conn with mInputBuffer := input }, ?_, hi1, hout, hs, ?_, rfl, rfl, hc1⟩
    · rw [processTurn, hf, Exec.ok_bind, hnone hnext, Exec.ok_bind]
      rfl
    · exact (List.append_nil _).symm
  | some r =>
    obtain ⟨m, q⟩ := r
    obtain ⟨input', hd, hi2, hc2⟩ := hsome m q hnext
    obtain ⟨output, sent, out', henc, hfl, hi3, hs3, hc3⟩ := respond_spec hout
      (responseTo t.magCallback m) t.writev (hb.output (m, q) hnext)
    have hm : m ≠ [] := hne (m, q) hnext
    have hempty : m.isEmpty = false := by
      cases m with
      | nil => exact absurd rfl hm
      | cons x xs => rfl
    refine ⟨⟨some m, some (responseTo t.magCallback m), sent⟩, ⟨input', out'⟩, ?_, hi2, hi3,
      hs3, ?_, rfl, rfl, hc2⟩
    · rw [processTurn, hf, Exec.ok_bind, hd, Exec.ok_bind]
      dsimp only
      rw [hempty, if_neg Bool.false_ne_true, henc, Exec.ok_bind, hfl]
      rfl
    · rw [hc3, Option.toList_some, LengthCode.frames_cons, LengthCode.frames_nil, List.append_nil]

/-! ### A connection -/

def calls (outs : List TurnOut) : List (List Byte) := outs.filterMap TurnOut.called

def responses (outs : List TurnOut) : List (List Byte) := outs.filterMap TurnOut.response

def sentBytes (outs : List TurnOut) : List Byte := (outs.map TurnOut.sent).flatten

def fetchedBytes (turns : List Turn) : List Byte := (turns.map Turn.waiting).flatten

/-- One response, the callback's own, when there was a call, and else none. -/
def Answered (t : Turn) (o : TurnOut) : Prop :=
  o.response = o.called.map (responseTo t.magCallback)

/-- The input buffer holds the front of the frames of `rest`, and no frame that
is complete. -/
structure Waiting (rest : List (List Byte)) (future : List Byte) (conn : TcpConnection) :
    Prop where
  input : Receiving rest future conn.mInputBuffer
  front : FrontIncomplete rest conn.mInputBuffer
  output : Inv conn.mOutputBuffer
  outputLt : conn.mOutputBuffer.mSize < maxTotal

theorem filterMap_cons_toList {α β : Type} (f : α → Option β) (a : α) (as : List α) :
    (a :: as).filterMap f = (f a).toList ++ as.filterMap f := by
  cases h : f a with
  | none => rw [List.filterMap_cons_none h, Option.toList_none, List.nil_append]
  | some b => rw [List.filterMap_cons_some h, Option.toList_some, List.singleton_append]

theorem calls_cons (o : TurnOut) (outs : List TurnOut) :
    calls (o :: outs) = o.called.toList ++ calls outs :=
  filterMap_cons_toList TurnOut.called o outs

theorem responses_cons (o : TurnOut) (outs : List TurnOut) :
    responses (o :: outs) = o.response.toList ++ responses outs :=
  filterMap_cons_toList TurnOut.response o outs

theorem sentBytes_cons (o : TurnOut) (outs : List TurnOut) :
    sentBytes (o :: outs) = o.sent ++ sentBytes outs := rfl

theorem fetchedBytes_cons (t : Turn) (turns : List Turn) :
    fetchedBytes (t :: turns) = t.waiting ++ fetchedBytes turns := rfl

theorem turn_step {rest : List (List Byte)} {future : List Byte} {conn : TcpConnection} {t : Turn}
    (h : Waiting rest (t.waiting ++ future) conn) (hok : TurnOk conn t) :
    ∃ o conn' rest', processTurn conn t = .ok (o, conn') ∧ Waiting rest' future conn' ∧
      Answered t o ∧ o.called.toList ++ rest' = rest ∧
      o.sent ++ conn'.mOutputBuffer.content
        = conn.mOutputBuffer.content ++ packageLength.frames o.response.toList := by
  have hstream := h.input.stream
  rw [← List.append_assoc] at hstream
  rcases packageLength.next_cases (by decide) h.input.lengths hstream with
    ⟨hn, hf⟩ | ⟨m, tail, q, hrest, hq, hnext, hs⟩
  · obtain ⟨o, conn', hstep, hin, hout, hlt, hsent, hcase⟩ := processTurn_spec h.input.inv h.output
      h.outputLt hok.bounded hok.notAtEnd (by rw [hn]; exact fun m hm => absurd hm (Option.not_mem_none m))
    rw [hn] at hcase
    obtain ⟨hcalled, hresp, hc⟩ := hcase
    refine ⟨o, conn', rest, hstep, ⟨⟨hin, ?_, h.input.lengths, h.input.nonEmpty⟩, ?_, hout, hlt⟩,
      ?_, ?_, hsent⟩
    · rw [hc]
      exact hstream
    · intro m tail he
      rw [hc]
      exact hf m tail he
    · rw [Answered, hcalled, hresp]
      rfl
    · rw [hcalled]
      rfl
  · have hmem : ∀ x ∈ tail, x ∈ rest := by
      intro x hx
      rw [hrest]
      exact List.mem_cons_of_mem m hx
    have hlengths : ∀ x ∈ tail, x.length < packageLength.limit :=
      fun x hx => h.input.lengths x (hmem x hx)
    have hm : m ≠ [] := h.input.nonEmpty m (by rw [hrest]; exact List.mem_cons_self)
    obtain ⟨o, conn', hstep, hin, hout, hlt, hsent, hcase⟩ := processTurn_spec h.input.inv h.output
      h.outputLt hok.bounded hok.notAtEnd (by
        rw [hnext]
        intro r hr
        cases hr
        exact hm)
    rw [hnext] at hcase
    obtain ⟨hcalled, hresp, hc⟩ := hcase
    refine ⟨o, conn', tail, hstep, ⟨⟨hin, ?_, ?_, ?_⟩, ?_, hout, hlt⟩, ?_, ?_, hsent⟩
    · rw [hc]
      exact hs
    · exact hlengths
    · exact fun x hx => h.input.nonEmpty x (hmem x hx)
    · -- A second complete frame behind the first would be one too many for this turn.
      intro m' tail' he
      rcases packageLength.next_cases (by decide) hlengths hs with
        ⟨-, hf⟩ | ⟨_, _, _, -, -, hnext', -⟩
      · rw [hc]
        exact hf m' tail' he
      · have hone : packageLength.next q = none := hok.oneFrame (m, q) hnext
        have hboth := hone.symm.trans hnext'
        cases hboth
    · rw [Answered, hcalled, hresp]
      rfl
    · rw [hcalled, hrest]
      rfl

/-- Run of good turns: the calls are the requests in order, and what left
together with what waits to leave is the frames of the responses. -/
theorem turns_run (turns : List Turn) (rest : List (List Byte)) (future : List Byte)
    (conn : TcpConnection) (h : Waiting rest (fetchedBytes turns ++ future) conn)
    (hok : StepsOk processTurn TurnOk conn turns) :
    ∃ outs conn' rest', runOps processTurn conn turns = .ok (outs, conn') ∧
      Waiting rest' future conn' ∧ List.Forall₂ Answered turns outs ∧
      calls outs ++ rest' = rest ∧
      sentBytes outs ++ conn'.mOutputBuffer.content
        = conn.mOutputBuffer.content ++ packageLength.frames (responses outs) := by
  induction turns generalizing conn rest with
  | nil =>
    have hsent : sentBytes [] ++ conn.mOutputBuffer.content
        = conn.mOutputBuffer.content ++ packageLength.frames (responses []) := by
      rw [sentBytes, responses, List.map_nil, List.flatten_nil, List.nil_append, List.filterMap_nil,
        LengthCode.frames_nil, List.append_nil]
    exact ⟨[], conn, rest, rfl, h, .nil, rfl, hsent⟩
  | cons t turns ih =>
    rw [fetchedBytes_cons, List.append_assoc] at h
    obtain ⟨o, c1, rest1, hstep, h1, hans, hcalled, hsent⟩ := turn_step h (stepsOk_head hok)
    obtain ⟨outs, c2, rest2, hrun, h2, hanss, hcalls, hsents⟩ :=
      ih rest1 c1 h1 (stepsOk_tail hstep hok)
    refine ⟨o :: outs, c2, rest2, runOps_cons_ok hstep hrun, h2, .cons hans hanss, ?_, ?_⟩
    · rw [calls_cons, List.append_assoc, hcalls, hcalled]
    · rw [sentBytes_cons, responses_cons, LengthCode.frames_append, List.append_assoc, hsents,
        ← List.append_assoc, hsent, List.append_assoc]

theorem calls_eq_complete {ms done rest : List (List Byte)} {future fetched : List Byte}
    {conn : TcpConnection} (h : Waiting rest future conn) (hms : done ++ rest = ms)
    (hall : fetched ++ future = packageLength.frames ms) :
    done = ms.take (packageLength.complete ms fetched.length) := by
  have hlen : fetched.length
      = (packageLength.frames done).length + conn.mInputBuffer.content.length := by
    have h1 := congrArg List.length hall
    have h2 := congrArg List.length h.input.stream
    rw [← hms, LengthCode.frames_append, List.length_append, List.length_append] at h1
    rw [List.length_append] at h2
    omega
  rw [hlen, ← hms, packageLength.complete_eq done rest _ h.front, List.take_left]

theorem processClose_spec {rest : List (List Byte)} {future : List Byte} {conn : TcpConnection}
    (h : Waiting rest future conn) (closing : Closing) :
    ∃ sent conn', processClose conn closing = .ok (sent, conn') ∧
      sent ++ conn'.mOutputBuffer.content = conn.mOutputBuffer.content := by
  cases closing with
  | failure => exact ⟨[], conn, rfl, rfl⟩
  | remoteClose writev =>
    unfold processClose
    dsimp only
    rw [fetchDataFromFd_eof h.input.inv, Exec.ok_bind]
    dsimp only
    by_cases he : (!conn.mInputBuffer.empty) = true
    · obtain ⟨sent, out', hfl, -, hc⟩ := flushOutput_spec h.output h.outputLt writev
      rw [if_pos he, hfl, Exec.ok_bind]
      exact ⟨sent, ⟨conn.mInputBuffer, out'⟩, rfl, hc⟩
    · rw [if_neg he]
      exact ⟨[], conn, rfl, rfl⟩

/-! ### The whole loop -/

/-- The turn meets no fault and leaves no complete frame for the next one. -/
def TurnRight (conn : TcpConnection) (t : Turn) : Prop :=
  ∃ o conn', processTurn conn t = .ok (o, conn') ∧
    packageLength.next conn'.mInputBuffer.content = none

theorem turnRight_iff {rest : List (List Byte)} {future : List Byte} {conn : TcpConnection}
    (h : Waiting rest future conn) {t : Turn} (ht : t.waiting <+: future) (hb : Bounded conn t) :
    TurnRight conn t ↔ ¬ conn.mInputBuffer.AtEnd ∧
      AtMostOneFrame (conn.mInputBuffer.content ++ t.waiting) := by
  obtain ⟨later, rfl⟩ := ht
  have hstream := h.input.stream
  rw [← List.append_assoc] at hstream
  have hcases := packageLength.next_cases (by decide) h.input.lengths hstream
  have hne : ∀ m ∈ packageLength.next (conn.mInputBuffer.content ++ t.waiting), m.1 ≠ [] := by
    intro r hr
    rcases hcases with ⟨hn, -⟩ | ⟨m, tail, q, hrest, -, hnext, -⟩
    · rw [hn] at hr
      cases hr
    · rw [hnext] at hr
      cases hr
      exact h.input.nonEmpty m (by rw [hrest]; exact List.mem_cons_self)
  have hspec := fun hn => processTurn_spec h.input.inv h.output h.outputLt hb hn hne
  constructor
  · rintro ⟨o, conn', hstep, hleft⟩
    have hn : ¬ conn.mInputBuffer.AtEnd := by
      intro hend
      rw [processTurn, fetchDataFromFd_atEnd h.input.inv hend hb.waits, Exec.error_bind] at hstep
      cases hstep
    refine ⟨hn, ?_⟩
    obtain ⟨o', c', hstep', -, -, -, -, hcase⟩ := hspec hn
    rw [hstep] at hstep'
    cases hstep'
    rintro ⟨m, q⟩ hnext
    have hnext' : packageLength.next (conn.mInputBuffer.content ++ t.waiting) = some (m, q) := hnext
    rw [hnext'] at hcase
    rw [hcase.2.2] at hleft
    exact hleft
  · rintro ⟨hn, hone⟩
    obtain ⟨o, conn', hstep, -, -, -, -, hcase⟩ := hspec hn
    refine ⟨o, conn', hstep, ?_⟩
    cases hnext : packageLength.next (conn.mInputBuffer.content ++ t.waiting) with
    | none =>
      rw [hnext] at hcase
      rw [hcase.2.2]
      exact hnext
    | some r =>
      rw [hnext] at hcase
      rw [hcase.2.2]
      exact hone r hnext

/-- In every run of turns that each start where the fetch is right and complete
at most one frame, the requests whose frames have arrived are called in order,
each is answered once, and the next turn is right exactly under that condition. -/
theorem processMag_serves (ms : List (List Byte)) (hlen : ∀ m ∈ ms, m.length < 4294967296)
    (hne : ∀ m ∈ ms, m ≠ []) (turns : List Turn) (future : List Byte)
    (hstream : fetchedBytes turns ++ future = packageLength.frames ms) (closing : Closing)
    (hok : StepsOk processTurn TurnOk {} turns) :
    ∃ outs last conn conn', runOps processTurn {} turns = .ok (outs, conn) ∧
      processMag {} turns closing = .ok ((outs, last), conn') ∧
      calls outs = ms.take (packageLength.complete ms (fetchedBytes turns).length) ∧
      (future = [] → calls outs = ms) ∧ List.Forall₂ Answered turns outs ∧
      sentBytes outs ++ last ++ conn'.mOutputBuffer.content
        = packageLength.frames (responses outs) ∧
      ∀ t, t.waiting <+: future → Bounded conn t →
        (TurnRight conn t ↔ ¬ conn.mInputBuffer.AtEnd ∧
          AtMostOneFrame (conn.mInputBuffer.content ++ t.waiting)) := by
  have hfront : FrontIncomplete ms fresh := by
    intro m tail he
    rw [fresh_content, LengthCode.frame_length]
    exact Nat.lt_of_lt_of_le (by decide) (Nat.le_add_right packageLengthSize _)
  have hstart : Waiting ms (fetchedBytes turns ++ future) {} := by
    refine ⟨⟨fresh_inv, ?_, hlen, hne⟩, hfront, fresh_inv, by decide⟩
    rw [hstream]
    rfl
  obtain ⟨outs, conn, rest, hrun, hend, hans, hcalls, hsent⟩ :=
    turns_run turns ms future {} hstart hok
  obtain ⟨last, conn', hclose, hlast⟩ := processClose_spec hend closing
  have hcomplete := calls_eq_complete hend hcalls hstream
  refine ⟨outs, last, conn, conn', hrun, ?_, hcomplete, ?_, hans, ?_, ?_⟩
  · rw [processMag, hrun, Exec.ok_bind, hclose]
    rfl
  · intro hf
    rw [hf, List.append_nil] at hstream
    rw [hcomplete, hstream, packageLength.complete_all, List.take_length]
  · rw [List.append_assoc, hlast, hsent]
    rfl
  · intro t ht hb
    exact turnRight_iff hend ht hb

/-- Two requests whose frames arrive in three pieces. -/
theorem processMag_serves_two :
    ∃ outs last conn conn', runOps processTurn {} [⟨[0, 0], .ok, none⟩,
          ⟨[0, 1, 7, 0], .error, some 2⟩, ⟨[0, 0, 1, 8], .ok, some 9⟩] = .ok (outs, conn) ∧
      processMag {} [⟨[0, 0], .ok, none⟩, ⟨[0, 1, 7, 0], .error, some 2⟩,
          ⟨[0, 0, 1, 8], .ok, some 9⟩] (.remoteClose none) = .ok ((outs, last), conn') ∧
      calls outs = [[7], [8]].take (packageLength.complete [[7], [8]] 10) ∧
      (([] : List Byte) = [] → calls outs = [[7], [8]]) ∧
      List.Forall₂ Answered [⟨[0, 0], .ok, none⟩, ⟨[0, 1, 7, 0], .error, some 2⟩,
          ⟨[0, 0, 1, 8], .ok, some 9⟩] outs ∧
      sentBytes outs ++ last ++ conn'.mOutputBuffer.content
        = packageLength.frames (responses outs) ∧
      ∀ t, t.waiting <+: [] → Bounded conn t →
        (TurnRight conn t ↔ ¬ conn.mInputBuffer.AtEnd ∧
          AtMostOneFrame (conn.mInputBuffer.content ++ t.waiting)) :=
  processMag_serves [[7], [8]] (by decide) (by decide) _ [] (by decide) (.remoteClose none)
    (by decide +kernel)

/-- Two frames in one fetch, then the peer closes: the second is never called. -/
theorem processMag_two_frames_at_once :
    packageLength.frames [[7], [8]] = [0, 0, 0, 1, 7, 0, 0, 0, 1, 8] ∧
      ((processMag {} [⟨[0, 0, 0, 1, 7, 0, 0, 0, 1, 8], .ok, some 100⟩] (.remoteClose (some 100))).map
        fun r => (calls r.1.1, r.2.mInputBuffer.content)) = .ok ([[7]], [0, 0, 0, 1, 8]) := by
  decide +kernel

end DeftRpc.Net
