import DeftRpc.Net.ClientReceive
import DeftRpc.Net.ClientSend
import DeftRpc.Net.TcpConnection

/-!
# Requests and responses over one connection

TcpClient::SendAll and Receive on one side, TcpConnection::ProcessMag on the other, and
between them the bytes under way in each direction. Decode has only its string to say that
it took a frame off.
-/

namespace DeftRpc.Net
open DeftRpc.Foundation DeftRpc.Buffer DeftRpc.Buffer.RingBuffer DeftRpc.Hook

structure TcpClient where
  mInputBuffer : RingBuffer := fresh
  mOutputBuffer : RingBuffer := fresh

/-- `receiving`: the client is in Receive. -/
structure Conversation where
  client : TcpClient := {}
  conn : TcpConnection := {}
  toServer : List Byte := []
  toClient : List Byte := []
  receiving : Bool := false

/-- A request is sent, the kernel answering with the script; the server or the client fetches some of
the bytes under way to it. -/
inductive ConversationOp where
  | send (request : List Byte) (script : List SysResult)
  | serve (arrived : ℕ) (magCallback : List Byte → Except (List Byte) (List Byte))
      (writev : Option ℕ)
  | fetch (arrived : ℕ)

structure Exchange where
  sent : Option (List Byte) := none
  called : Option (List Byte) := none
  response : Option (List Byte) := none
  received : Option (List Byte) := none

def converse (c : Conversation) : ConversationOp → Exec (Exchange × Conversation)
  | .send request script => do
    let run ← sendAll c.client.mOutputBuffer request script
    match run with
    | none => .error .diverge
    | some run => pure ({ sent := some request },
        { c with
          client := { c.client with mOutputBuffer := run.buffer }
          toServer := c.toServer ++ run.accepted
          receiving := true })
  | .serve arrived magCallback writev => do
    let turn ← processTurn c.conn ⟨c.toServer.take arrived, magCallback, writev⟩
    pure ({ called := turn.1.called, response := turn.1.response },
      { c with
        conn := turn.2
        toServer := c.toServer.drop arrived
        toClient := c.toClient ++ turn.1.sent })
  | .fetch arrived => do
    let run ← receive c.client.mInputBuffer [some (c.toClient.take arrived)]
    pure ({ received := run.view },
      { c with
        client := { c.client with mInputBuffer := run.buffer }
        toClient := c.toClient.drop arrived
        receiving := run.view.isNone })

/-- The client sends one request at a time, its kernel takes all of it; a fetch gets something, no
more than is under way and no more than the segments hold. -/
def CanHappen (c : Conversation) : ConversationOp → Prop
  | .send request script => c.receiving = false ∧
      packageLengthSize + request.length < maxTotal ∧
      (request ≠ [] → ∃ r ∈ transfer (segments c.client.mOutputBuffer request) script, r.2 = true)
  | .serve arrived magCallback _ => 0 < arrived ∧ arrived ≤ c.toServer.length ∧
      arrived ≤ iovTotal c.conn.mInputBuffer.fetchIov ∧
      ∀ m ∈ packageLength.next (c.conn.mInputBuffer.content ++ c.toServer.take arrived),
        packageLengthSize + (responseTo magCallback m.1).length < maxTotal
  | .fetch arrived => c.receiving = true ∧ 0 < arrived ∧ arrived ≤ c.toClient.length ∧
      arrived ≤ iovTotal c.client.mInputBuffer.fetchIov

/-- Neither the request nor the response is empty, and the server's flush takes all of the
response. -/
def NothingEmpty (c : Conversation) : ConversationOp → Prop
  | .send request _ => request ≠ []
  | .serve arrived magCallback writev =>
      ∀ m ∈ packageLength.next (c.conn.mInputBuffer.content ++ c.toServer.take arrived),
        responseTo magCallback m.1 ≠ [] ∧
          ∃ n ∈ writev, packageLengthSize + (responseTo magCallback m.1).length ≤ n
  | .fetch _ => True

instance (c : Conversation) : ∀ op, Decidable (CanHappen c op)
  | .send _ _ => instDecidableAnd
  | .serve _ _ _ => instDecidableAnd
  | .fetch _ => instDecidableAnd

instance (c : Conversation) : ∀ op, Decidable (NothingEmpty c op)
  | .send _ _ => instDecidableNot
  | .serve arrived magCallback writev => inferInstanceAs (Decidable
      (∀ m ∈ packageLength.next (c.conn.mInputBuffer.content ++ c.toServer.take arrived),
        responseTo magCallback m.1 ≠ [] ∧
          ∃ n ∈ writev, packageLengthSize + (responseTo magCallback m.1).length ≤ n))
  | .fetch _ => .isTrue trivial

/-! ### What the callers make of Decode -/

/-- The caller takes a message exactly when Decode takes a frame off. -/
def HeededBy (c : Conversation) : ConversationOp → Exchange → Prop
  | .send _ _, _ => True
  | .serve arrived _ _, e => e.called.isSome =
      (packageLength.next (c.conn.mInputBuffer.content ++ c.toServer.take arrived)).isSome
  | .fetch arrived, e => e.received.isSome =
      (packageLength.next (c.client.mInputBuffer.content ++ c.toClient.take arrived)).isSome

def Heeds (c : Conversation) (op : ConversationOp) : Prop :=
  ∀ e c', converse c op = .ok (e, c') → HeededBy c op e

def AnsweredBy : ConversationOp → Exchange → Prop
  | .serve _ magCallback _, e => e.response = e.called.map (responseTo magCallback)
  | _, _ => True

def sentRequests (es : List Exchange) : List (List Byte) := es.filterMap Exchange.sent

def calledRequests (es : List Exchange) : List (List Byte) := es.filterMap Exchange.called

def givenResponses (es : List Exchange) : List (List Byte) := es.filterMap Exchange.response

def receivedResponses (es : List Exchange) : List (List Byte) := es.filterMap Exchange.received

/-- Every request is called, in order, and its response is returned by Receive. -/
def AllReceived (ops : List ConversationOp) : Prop :=
  ∃ es c, runOps converse {} ops = .ok (es, c) ∧ c.receiving = false ∧
    List.Forall₂ AnsweredBy ops es ∧ calledRequests es = sentRequests es ∧
    receivedResponses es = givenResponses es

def Delivered (ops : List ConversationOp) : Prop :=
  ∀ es c, runOps converse {} ops = .ok (es, c) → c.toServer = [] ∧ c.toClient = []

instance (ops : List ConversationOp) : Decidable (Delivered ops) :=
  match h : runOps converse {} ops with
  | .ok r => decidable_of_iff (r.2.toServer = [] ∧ r.2.toClient = []) (by
      constructor
      · intro hr es c hrun
        rw [h] at hrun
        cases hrun
        exact hr
      · exact fun hd => hd r.1 r.2 h)
  | .error _ => .isTrue fun _ _ hrun => by
      rw [h] at hrun
      cases hrun

/-! ### A frame that arrives piece by piece -/

/-- The buffer holds the front of the frame of `m`, from its first index on; `rest` is still to come. -/
structure Arriving (m rest : List Byte) (b : RingBuffer) : Prop where
  inv : Inv b
  begin : b.mBegin = 0
  stream : b.content ++ rest = packageLength.frame m
  fits : packageLengthSize + m.length < maxTotal

structure Drained (b : RingBuffer) : Prop where
  inv : Inv b
  begin : b.mBegin = 0
  content : b.content = []

theorem Drained.arriving {b : RingBuffer} (h : Drained b) {m : List Byte}
    (hm : packageLengthSize + m.length < maxTotal) : Arriving m (packageLength.frame m) b :=
  ⟨h.inv, h.begin, by rw [h.content, List.nil_append], hm⟩

theorem decode_begin {b b' : RingBuffer} (hi : Inv b) (hb : b.mSize = 0 → b.mBegin = 0)
    {m : List Byte} (h : decode b = .ok (m, b')) : b'.mSize = 0 → b'.mBegin = 0 := by
  unfold decode at h
  split at h
  · cases h
    exact hb
  · rw [peek_spec hi, Exec.ok_bind] at h
    obtain ⟨length, -, h⟩ := Exec.bind_eq_ok h
    dsimp only at h
    split at h
    · cases h
      exact hb
    · obtain ⟨b1, hread, hi1, -⟩ := read_spec hi packageLengthSize
      rw [hread, Exec.ok_bind] at h
      exact read_begin hi1 (read_begin hi hb hread) h

theorem Arriving.not_atEnd {m rest : List Byte} {b : RingBuffer} (h : Arriving m rest b) :
    ¬ b.AtEnd := by
  rintro ⟨hpos, -⟩
  rw [h.begin] at hpos
  exact Nat.lt_irrefl 0 hpos

theorem Arriving.iov_pos {m rest : List Byte} {b : RingBuffer} (h : Arriving m rest b) :
    0 < iovTotal b.fetchIov := by
  rw [iovTotal_eq h.inv h.not_atEnd, overflowIov]
  split
  · next hroom =>
    unfold maxPackageLen at hroom
    omega
  · simp [iovTotal, maxPackageLen]

theorem Arriving.fetch {m rest : List Byte} {b : RingBuffer} (h : Arriving m rest b) {n : ℕ}
    (hle : n ≤ rest.length) (hiov : n ≤ iovTotal b.fetchIov) :
    ∃ b', b.fetchDataFromFd (some (rest.take n)) = .ok (n, b') ∧ Arriving m (rest.drop n) b' ∧
      b'.content = b.content ++ rest.take n := by
  have hlen : (rest.take n).length = n := by
    rw [List.length_take]
    omega
  have hdel : b.delivered (rest.take n) = rest.take n := List.take_of_length_le (by omega)
  have htotal := congrArg List.length h.stream
  have hfits := h.fits
  have hw : packageLength.width = packageLengthSize := rfl
  rw [List.length_append, h.inv.content_length, LengthCode.frame_length, hw] at htotal
  obtain ⟨b', hf, hi, hc⟩ := fetchDataFromFd_spec h.inv h.not_atEnd (rest.take n) (by rw [hdel]; omega)
  rw [hdel] at hf hc
  rw [hlen] at hf
  refine ⟨b', hf, ⟨hi, fetchDataFromFd_begin h.begin hf, ?_, h.fits⟩, hc⟩
  rw [hc, List.append_assoc, List.take_append_drop, h.stream]

theorem Arriving.short {m rest : List Byte} {b : RingBuffer} (h : Arriving m rest b) :
    m.length < packageLength.limit := by
  have hfits := h.fits
  have hl : packageLength.limit = 4294967296 := rfl
  have hm : maxTotal = 2147483648 := rfl
  omega

theorem Arriving.next_more {m rest : List Byte} {b : RingBuffer} (h : Arriving m rest b)
    (hrest : rest ≠ []) : packageLength.next b.content = none := by
  have hpos : 0 < rest.length := List.length_pos_iff.mpr hrest
  have hstream : b.content ++ rest = packageLength.frame m ++ [] := by
    rw [List.append_nil]
    exact h.stream
  apply packageLength.next_incomplete h.short hstream
  rw [← h.stream, List.length_append]
  omega

theorem Arriving.next_whole {m rest : List Byte} {b : RingBuffer} (h : Arriving m rest b) {n : ℕ}
    (hrest : rest.drop n = []) : packageLength.next (b.content ++ rest.take n) = some (m, []) := by
  have hall : rest.take n = rest := List.take_of_length_le (List.drop_eq_nil_iff.mp hrest)
  rw [hall, h.stream, ← List.append_nil (packageLength.frame m)]
  exact packageLength.next_frame h.short []

theorem Arriving.next_done {m : List Byte} {b : RingBuffer} (h : Arriving m [] b) :
    packageLength.next b.content = some (m, []) := by
  simpa using h.next_whole (n := 0) rfl

theorem Arriving.decode_more {m rest : List Byte} {b : RingBuffer} (h : Arriving m rest b)
    (hrest : rest ≠ []) : decode b = .ok ([], b) :=
  (decode_spec h.inv).1 (h.next_more hrest)

theorem Arriving.decode_done {m : List Byte} {b : RingBuffer} (h : Arriving m [] b) :
    ∃ b', decode b = .ok (m, b') ∧ Drained b' := by
  obtain ⟨b', hd, hi, hc⟩ := (decode_spec h.inv).2 m [] h.next_done
  have hbegin := decode_begin h.inv (fun _ => h.begin) hd
  exact ⟨b', hd, hi, hbegin (hi.content_eq_nil.mp hc), hc⟩

/-! ### One fetch of the client -/

theorem receive_waits {b b1 b2 : RingBuffer} {chunk : List Byte} {n : ℕ}
    (hf : b.fetchDataFromFd (some chunk) = .ok (n, b1)) (hd : decode b1 = .ok ([], b2)) :
    ∃ run, receive b [some chunk] = .ok run ∧ run.view = none ∧ run.buffer = b2 := by
  rw [receive, hf, Exec.ok_bind, if_neg (by simp), hd]
  exact ⟨_, rfl, rfl, rfl⟩

theorem receive_returns {b b1 b2 : RingBuffer} {chunk m : List Byte} {n : ℕ}
    (hf : b.fetchDataFromFd (some chunk) = .ok (n, b1)) (hd : decode b1 = .ok (m, b2)) (hm : m ≠ []) :
    ∃ run, receive b [some chunk] = .ok run ∧ run.view = some m ∧ run.buffer = b2 := by
  rw [receive, hf, Exec.ok_bind, if_neg (by simp), hd, Exec.ok_bind, if_neg (by simpa using hm)]
  exact ⟨_, rfl, rfl, rfl⟩

/-- A fetch of the client: it waits on while bytes of the frame are missing, and also when the frame
is that of the empty string. -/
theorem Arriving.receive {m rest : List Byte} {b : RingBuffer} (h : Arriving m rest b) {n : ℕ}
    (hle : n ≤ rest.length) (hiov : n ≤ iovTotal b.fetchIov) :
    ∃ run, receive b [some (rest.take n)] = .ok run ∧
      (rest.drop n ≠ [] → run.view = none ∧ Arriving m (rest.drop n) run.buffer ∧
        packageLength.next (b.content ++ rest.take n) = none) ∧
      (rest.drop n = [] → run.view = (if m = [] then none else some m) ∧ Drained run.buffer ∧
        packageLength.next (b.content ++ rest.take n) = some (m, [])) := by
  obtain ⟨b1, hf, h1, hc1⟩ := h.fetch hle hiov
  rw [← hc1]
  by_cases hrest : rest.drop n = []
  · rw [hrest] at h1
    obtain ⟨b2, hd, hdrained⟩ := h1.decode_done
    by_cases hm : m = []
    · rw [hm] at hd
      obtain ⟨run, hrun, hview, hbuffer⟩ := receive_waits hf hd
      refine ⟨run, hrun, fun hne => absurd hrest hne, fun _ => ⟨?_, ?_, h1.next_done⟩⟩
      · rw [hview, if_pos hm]
      · rw [hbuffer]
        exact hdrained
    · obtain ⟨run, hrun, hview, hbuffer⟩ := receive_returns hf hd hm
      refine ⟨run, hrun, fun hne => absurd hrest hne, fun _ => ⟨?_, ?_, h1.next_done⟩⟩
      · rw [hview, if_neg hm]
      · rw [hbuffer]
        exact hdrained
  · obtain ⟨run, hrun, hview, hbuffer⟩ := receive_waits hf (h1.decode_more hrest)
    refine ⟨run, hrun, fun _ => ⟨hview, ?_, h1.next_more hrest⟩, fun he => absurd he hrest⟩
    rw [hbuffer]
    exact h1

/-! ### One turn of the server -/

theorem serve_more {conn : TcpConnection} {m rest : List Byte}
    (h : Arriving m rest conn.mInputBuffer) {n : ℕ} (hle : n ≤ rest.length)
    (hiov : n ≤ iovTotal conn.mInputBuffer.fetchIov) (hrest : rest.drop n ≠ [])
    (magCallback : List Byte → Except (List Byte) (List Byte)) (writev : Option ℕ) :
    ∃ b, processTurn conn ⟨rest.take n, magCallback, writev⟩
        = .ok ({}, { conn with mInputBuffer := b }) ∧ Arriving m (rest.drop n) b ∧
      packageLength.next (conn.mInputBuffer.content ++ rest.take n) = none := by
  obtain ⟨b, hf, h1, hc⟩ := h.fetch hle hiov
  refine ⟨b, ?_, h1, ?_⟩
  · rw [processTurn, hf, Exec.ok_bind, h1.decode_more hrest]
    rfl
  · rw [← hc]
    exact h1.next_more hrest

theorem le_flushAccepted_iff (writev : Option ℕ) {n : ℕ} (hn : 0 < n) :
    n ≤ flushAccepted writev n ↔ ∃ k ∈ writev, n ≤ k := by
  cases writev with
  | none => simp [flushAccepted, Nat.ne_of_gt hn]
  | some k => simp [flushAccepted]

/-- The request is complete: what its response's flush does not take stays in the output buffer. -/
theorem serve_done {conn : TcpConnection} {m rest : List Byte}
    (h : Arriving m rest conn.mInputBuffer) (hm : m ≠ []) {n : ℕ} (hle : n ≤ rest.length)
    (hiov : n ≤ iovTotal conn.mInputBuffer.fetchIov) (hrest : rest.drop n = [])
    (hout : Inv conn.mOutputBuffer) (hempty : conn.mOutputBuffer.content = [])
    {magCallback : List Byte → Except (List Byte) (List Byte)} (writev : Option ℕ)
    (hfits : packageLengthSize + (responseTo magCallback m).length < maxTotal) :
    ∃ sent conn', processTurn conn ⟨rest.take n, magCallback, writev⟩
        = .ok (⟨some m, some (responseTo magCallback m), sent⟩, conn') ∧
      Drained conn'.mInputBuffer ∧ Inv conn'.mOutputBuffer ∧
      sent ++ conn'.mOutputBuffer.content = packageLength.frame (responseTo magCallback m) ∧
      (conn'.mOutputBuffer.content = [] ↔
        ∃ k ∈ writev, packageLengthSize + (responseTo magCallback m).length ≤ k) := by
  have hframe := packageLength.frame_length (responseTo magCallback m)
  have hw : packageLength.width = packageLengthSize := rfl
  have hmax : maxTotal = 2147483648 := rfl
  have hzero : conn.mOutputBuffer.mSize = 0 := hout.content_eq_nil.mp hempty
  have hu : u32 (responseTo magCallback m).length = (responseTo magCallback m).length :=
    u32_of_lt (by omega)
  obtain ⟨b, hf, h1, hc⟩ := h.fetch hle hiov
  rw [hrest] at h1
  obtain ⟨b', hd, hdrained⟩ := h1.decode_done
  obtain ⟨output, henc, hio, hco⟩ := encode_spec hout (responseTo magCallback m) (by omega)
  rw [hempty, List.nil_append] at hco
  have hsize : output.mSize < maxTotal := by
    rw [← hio.content_length, hco]
    omega
  obtain ⟨output', hflush, hio', hleft⟩ := flushOutput_eq hio hsize writev
  rw [hco] at hflush hleft
  refine ⟨(packageLength.frame (responseTo magCallback m)).take
    (flushAccepted writev (packageLength.frame (responseTo magCallback m)).length),
    ⟨b', output'⟩, ?_, hdrained, hio', ?_, ?_⟩
  · have hne : m.isEmpty = false := by simpa using hm
    rw [processTurn, hf, Exec.ok_bind, hd, Exec.ok_bind]
    dsimp only
    rw [hne, if_neg Bool.false_ne_true, encodeString, hu, henc, Exec.ok_bind, hflush]
    rfl
  · rw [hleft, List.take_append_drop]
  · rw [hleft, List.drop_eq_nil_iff, hframe, hw]
    exact le_flushAccepted_iff writev (by unfold packageLengthSize; omega)

/-! ### One step -/

/-- Where a conversation stands: the client is not in Receive, its request is under way, or the
response is. -/
inductive Phase where
  | idle
  | requested (request : List Byte)
  | responded (response : List Byte)

def pendingRequest : Phase → List (List Byte)
  | .requested request => [request]
  | _ => []

def pendingResponse : Phase → List (List Byte)
  | .responded response => [response]
  | _ => []

structure Quiet (buffer : RingBuffer) : Prop where
  inv : Inv buffer
  content : buffer.content = []

/-- What the buffers and the bytes under way hold in a phase. -/
def Phase.Holds : Phase → Conversation → Prop
  | .idle, c => c.receiving = false ∧ c.toServer = [] ∧ c.toClient = [] ∧
      Drained c.client.mInputBuffer ∧ Drained c.conn.mInputBuffer
  | .requested request, c => c.receiving = true ∧ c.toServer ≠ [] ∧ c.toClient = [] ∧
      Drained c.client.mInputBuffer ∧ request ≠ [] ∧
      Arriving request c.toServer c.conn.mInputBuffer
  | .responded response, c => c.receiving = true ∧ c.toServer = [] ∧ c.toClient ≠ [] ∧
      Drained c.conn.mInputBuffer ∧ response ≠ [] ∧
      Arriving response c.toClient c.client.mInputBuffer

structure Standing (p : Phase) (c : Conversation) : Prop where
  phase : p.Holds c
  requests : Quiet c.client.mOutputBuffer
  responses : Quiet c.conn.mOutputBuffer

/-- The client waits for a frame of which nothing more will come, or that is the empty string's. -/
def Lost (c : Conversation) : Prop :=
  c.receiving = true ∧ c.toServer = [] ∧ ∃ response missing,
    Arriving response (c.toClient ++ missing) c.client.mInputBuffer ∧
      (response = [] ∨ missing ≠ [])

inductive Outcome (p : Phase) (c : Conversation) (op : ConversationOp) (e : Exchange)
    (c' : Conversation) : Prop where
  | good (p' : Phase) : NothingEmpty c op → Heeds c op → Standing p' c' →
      pendingRequest p ++ e.sent.toList = e.called.toList ++ pendingRequest p' →
      pendingResponse p ++ e.response.toList = e.received.toList ++ pendingResponse p' →
      Outcome p c op e c'
  | lost : ¬ NothingEmpty c op → Lost c' → Outcome p c op e c'

theorem send_step {c : Conversation} (h : Standing .idle c) {request : List Byte}
    {script : List SysResult} (hc : CanHappen c (.send request script)) :
    ∃ e c', converse c (.send request script) = .ok (e, c') ∧
      Outcome .idle c (.send request script) e c' := by
  obtain ⟨-, hserver, hclient, hinput, hconn⟩ := h.phase
  obtain ⟨-, hfits, hscript⟩ := hc
  by_cases hne : request = []
  · subst hne
    refine ⟨{ sent := some [] }, { c with receiving := true }, ?_, .lost (fun hok => hok rfl) ?_⟩
    · rw [converse, sendAll, List.length_nil, if_pos rfl, Exec.ok_bind]
      simp only [List.append_nil]
      rfl
    · refine ⟨rfl, hserver, [], packageLength.frame [], ?_, Or.inl rfl⟩
      show Arriving [] (c.toClient ++ _) c.client.mInputBuffer
      rw [hclient, List.nil_append]
      exact hinput.arriving (by decide)
  · obtain ⟨⟨t, all⟩, htransfer, hall⟩ := hscript hne
    have hzero : c.client.mOutputBuffer.mSize = 0 :=
      h.requests.inv.content_eq_nil.mp h.requests.content
    have hw : packageLength.width = packageLengthSize := rfl
    obtain ⟨run, hrun, hi, hacc, -, hsent, -⟩ :=
      sendAll_spec h.requests.inv hne (by omega) htransfer
    obtain ⟨ht, -, hcontent⟩ := hsent hall
    have haccepted : run.accepted = packageLength.frame request := by
      rw [hacc, h.requests.content, List.nil_append]
      apply List.take_of_length_le
      rw [LengthCode.frame_length, hw]
      omega
    refine ⟨{ sent := some request }, { c with
      client := { c.client with mOutputBuffer := run.buffer }
      toServer := packageLength.frame request
      receiving := true }, ?_, .good (.requested request) hne ?_ ?_ rfl rfl⟩
    · rw [converse, hrun, Exec.ok_bind]
      simp only [haccepted, hserver, List.nil_append]
      rfl
    · intro e c' _
      trivial
    · exact ⟨⟨rfl, packageLength.frame_ne_nil (by decide) request, hclient, hinput, hne,
        hconn.arriving hfits⟩, ⟨hi, hcontent⟩, h.responses⟩

theorem heeds_of_step {c c' : Conversation} {op : ConversationOp} {e : Exchange}
    (h : converse c op = .ok (e, c')) (heeded : HeededBy c op e) : Heeds c op := by
  intro e1 c1 h1
  rw [h] at h1
  cases h1
  exact heeded

theorem serve_step {c : Conversation} {request : List Byte} (h : Standing (.requested request) c)
    {arrived : ℕ} {magCallback : List Byte → Except (List Byte) (List Byte)} {writev : Option ℕ}
    (hc : CanHappen c (.serve arrived magCallback writev)) :
    ∃ e c', converse c (.serve arrived magCallback writev) = .ok (e, c') ∧
      AnsweredBy (.serve arrived magCallback writev) e ∧
      Outcome (.requested request) c (.serve arrived magCallback writev) e c' := by
  obtain ⟨hreceiving, -, hclient, hinput, hne, harriving⟩ := h.phase
  obtain ⟨-, hle, hiov, hfits⟩ := hc
  by_cases hrest : c.toServer.drop arrived = []
  · have hnext : packageLength.next (c.conn.mInputBuffer.content ++ c.toServer.take arrived)
        = some (request, []) := harriving.next_whole hrest
    have hresponse := hfits (request, []) hnext
    obtain ⟨sent, conn', hturn, hdrained, hinv, hsent, hall⟩ := serve_done harriving hne hle hiov
      hrest h.responses.inv h.responses.content writev hresponse
    have hstep : converse c (.serve arrived magCallback writev)
        = .ok ({ called := some request, response := some (responseTo magCallback request) }, { c with
          conn := conn'
          toServer := c.toServer.drop arrived
          toClient := sent }) := by
      rw [converse, hturn, hclient]
      rfl
    refine ⟨_, _, hstep, rfl, ?_⟩
    have hok : NothingEmpty c (.serve arrived magCallback writev) ↔
        responseTo magCallback request ≠ [] ∧ conn'.mOutputBuffer.content = [] := by
      rw [NothingEmpty, hnext, hall]
      simp
    by_cases hgood : NothingEmpty c (.serve arrived magCallback writev)
    · obtain ⟨hsome, hflushed⟩ := hok.mp hgood
      rw [hflushed, List.append_nil] at hsent
      refine .good (.responded (responseTo magCallback request)) hgood (heeds_of_step hstep ?_) ?_
        rfl rfl
      · rw [HeededBy, hnext]
        rfl
      · refine ⟨⟨hreceiving, hrest, ?_, hdrained, hsome, ?_⟩, h.requests, ⟨hinv, hflushed⟩⟩
        · dsimp only
          rw [hsent]
          exact packageLength.frame_ne_nil (by decide) _
        · dsimp only
          rw [hsent]
          exact hinput.arriving hresponse
    · refine .lost hgood ⟨hreceiving, hrest, responseTo magCallback request,
        conn'.mOutputBuffer.content, ?_, ?_⟩
      · dsimp only
        rw [hsent]
        exact hinput.arriving hresponse
      · rw [hok, not_and_or, not_not] at hgood
        exact hgood
  · obtain ⟨b, hturn, hmore, hnext⟩ := serve_more harriving hle hiov hrest magCallback writev
    have hstep : converse c (.serve arrived magCallback writev) = .ok ({}, { c with
        conn := { c.conn with mInputBuffer := b }
        toServer := c.toServer.drop arrived
        toClient := c.toClient ++ [] }) := by
      rw [converse, hturn]
      rfl
    refine ⟨_, _, hstep, rfl, .good (.requested request) ?_ (heeds_of_step hstep ?_) ?_ rfl rfl⟩
    · rw [NothingEmpty, hnext]
      exact fun m hm => absurd hm (Option.not_mem_none m)
    · rw [HeededBy, hnext]
      rfl
    · exact ⟨⟨hreceiving, hrest, by rw [List.append_nil]; exact hclient, hinput, hne, hmore⟩,
        h.requests, h.responses⟩

theorem converse_fetch {c : Conversation} {arrived : ℕ} {run : ReceiveRun}
    (hrun : receive c.client.mInputBuffer [some (c.toClient.take arrived)] = .ok run) :
    converse c (.fetch arrived) = .ok ({ received := run.view }, { c with
      client := { c.client with mInputBuffer := run.buffer }
      toClient := c.toClient.drop arrived
      receiving := run.view.isNone }) := by
  rw [converse, hrun]
  rfl

theorem fetch_step {c : Conversation} {response : List Byte}
    (h : Standing (.responded response) c) {arrived : ℕ} (hc : CanHappen c (.fetch arrived)) :
    ∃ e c', converse c (.fetch arrived) = .ok (e, c') ∧
      Outcome (.responded response) c (.fetch arrived) e c' := by
  obtain ⟨hreceiving, hserver, -, hdrained, hne, harriving⟩ := h.phase
  obtain ⟨-, -, hle, hiov⟩ := hc
  obtain ⟨run, hrun, hmore, hdone⟩ := harriving.receive hle hiov
  have hstep := converse_fetch hrun
  refine ⟨_, _, hstep, ?_⟩
  by_cases hrest : c.toClient.drop arrived = []
  · obtain ⟨hview, hinput, hnext⟩ := hdone hrest
    rw [if_neg hne] at hview
    refine .good .idle trivial (heeds_of_step hstep ?_) ?_ rfl ?_
    · rw [HeededBy, hnext, hview]
      rfl
    · exact ⟨⟨by rw [hview]; rfl, hserver, hrest, hinput, hdrained⟩, h.requests, h.responses⟩
    · rw [hview]
      rfl
  · obtain ⟨hview, hinput, hnext⟩ := hmore hrest
    refine .good (.responded response) trivial (heeds_of_step hstep ?_) ?_ rfl ?_
    · rw [HeededBy, hnext, hview]
      rfl
    · exact ⟨⟨by rw [hview]; rfl, hserver, hrest, hdrained, hne, hinput⟩, h.requests, h.responses⟩
    · rw [hview]
      rfl

theorem converse_step {p : Phase} {c : Conversation} (h : Standing p c) {op : ConversationOp}
    (hc : CanHappen c op) :
    ∃ e c', converse c op = .ok (e, c') ∧ AnsweredBy op e ∧ Outcome p c op e c' := by
  cases op with
  | send request script =>
    cases p with
    | idle =>
      obtain ⟨e, c', hstep, hout⟩ := send_step h hc
      exact ⟨e, c', hstep, trivial, hout⟩
    | requested _ => exact absurd (h.phase.1.symm.trans hc.1) (by decide)
    | responded _ => exact absurd (h.phase.1.symm.trans hc.1) (by decide)
  | serve arrived magCallback writev =>
    have hsome : c.toServer ≠ [] := List.length_pos_iff.mp (Nat.lt_of_lt_of_le hc.1 hc.2.1)
    cases p with
    | idle => exact absurd h.phase.2.1 hsome
    | requested request => exact serve_step h hc
    | responded _ => exact absurd h.phase.2.1 hsome
  | fetch arrived =>
    have hsome : c.toClient ≠ [] := List.length_pos_iff.mp (Nat.lt_of_lt_of_le hc.2.1 hc.2.2.1)
    cases p with
    | idle => exact absurd h.phase.2.2.1 hsome
    | requested _ => exact absurd h.phase.2.2.1 hsome
    | responded response =>
      obtain ⟨e, c', hstep, hout⟩ := fetch_step h hc
      exact ⟨e, c', hstep, trivial, hout⟩

theorem lost_step (c : Conversation) (op : ConversationOp) (h : Lost c) (hc : CanHappen c op) :
    ∃ e c', converse c op = .ok (e, c') ∧ Lost c' := by
  obtain ⟨hreceiving, hserver, response, missing, harriving, hwhy⟩ := h
  cases op with
  | send request script => exact absurd (hreceiving.symm.trans hc.1) (by decide)
  | serve arrived magCallback writev =>
    have hsome : c.toServer ≠ [] := List.length_pos_iff.mp (Nat.lt_of_lt_of_le hc.1 hc.2.1)
    exact absurd hserver hsome
  | fetch arrived =>
    obtain ⟨-, -, hle, hiov⟩ := hc
    have htake : (c.toClient ++ missing).take arrived = c.toClient.take arrived :=
      List.take_append_of_le_length hle
    have hdrop : (c.toClient ++ missing).drop arrived = c.toClient.drop arrived ++ missing :=
      List.drop_append_of_le_length hle
    obtain ⟨run, hrun, hmore, hdone⟩ := harriving.receive
      (show arrived ≤ (c.toClient ++ missing).length by rw [List.length_append]; omega) hiov
    rw [htake] at hrun
    rw [hdrop] at hmore hdone
    refine ⟨_, _, converse_fetch hrun, ?_⟩
    by_cases hrest : c.toClient.drop arrived ++ missing = []
    · -- The whole frame has come, so it is that of the empty string.
      obtain ⟨hview, hdrained, -⟩ := hdone hrest
      obtain ⟨hleft, hmissing⟩ := List.append_eq_nil_iff.mp hrest
      have hempty : response = [] := hwhy.resolve_right (not_not.mpr hmissing)
      refine ⟨by rw [hview, if_pos hempty]; rfl, hserver, [], packageLength.frame [], ?_, Or.inl rfl⟩
      dsimp only
      rw [hleft, List.nil_append]
      exact hdrained.arriving (by decide)
    · obtain ⟨hview, hpart, -⟩ := hmore hrest
      exact ⟨by rw [hview]; rfl, hserver, response, missing, hpart, hwhy⟩

/-- While a response is due there is always something to be fetched. -/
theorem Standing.progress {p : Phase} {c : Conversation} (h : Standing p c) (hdue : p ≠ .idle)
    {magCallback : List Byte → Except (List Byte) (List Byte)} (writev : Option ℕ)
    (hfits : ∀ view, packageLengthSize + (responseTo magCallback view).length < maxTotal) :
    CanHappen c (.serve 1 magCallback writev) ∨ CanHappen c (.fetch 1) := by
  cases p with
  | idle => exact absurd rfl hdue
  | requested request =>
    obtain ⟨-, hsome, -, -, -, harriving⟩ := h.phase
    exact Or.inl ⟨Nat.one_pos, List.length_pos_iff.mpr hsome, harriving.iov_pos, fun m _ => hfits m.1⟩
  | responded response =>
    obtain ⟨hreceiving, -, hsome, -, -, harriving⟩ := h.phase
    exact Or.inr ⟨hreceiving, Nat.one_pos, List.length_pos_iff.mpr hsome, harriving.iov_pos⟩

/-! ### Every run -/

/-- What is due from a phase on. -/
structure Completes (p : Phase) (c : Conversation) (ops : List ConversationOp)
    (es : List Exchange) (c' : Conversation) : Prop where
  run : runOps converse c ops = .ok (es, c')
  returned : c'.receiving = false
  answered : List.Forall₂ AnsweredBy ops es
  calls : pendingRequest p ++ sentRequests es = calledRequests es
  views : pendingResponse p ++ givenResponses es = receivedResponses es

theorem completes_cons {p p' : Phase} {c c1 c' : Conversation} {op : ConversationOp}
    {ops : List ConversationOp} {e : Exchange} {es : List Exchange}
    (hstep : converse c op = .ok (e, c1)) (hanswered : AnsweredBy op e)
    (hcalls : pendingRequest p ++ e.sent.toList = e.called.toList ++ pendingRequest p')
    (hviews : pendingResponse p ++ e.response.toList = e.received.toList ++ pendingResponse p') :
    Completes p c (op :: ops) (e :: es) c' ↔ Completes p' c1 ops es c' := by
  have hc : pendingRequest p ++ sentRequests (e :: es) = calledRequests (e :: es) ↔
      pendingRequest p' ++ sentRequests es = calledRequests es := by
    rw [sentRequests, calledRequests, filterMap_cons_toList, filterMap_cons_toList,
      ← List.append_assoc, hcalls, List.append_assoc, List.append_cancel_left_eq]
    rfl
  have hv : pendingResponse p ++ givenResponses (e :: es) = receivedResponses (e :: es) ↔
      pendingResponse p' ++ givenResponses es = receivedResponses es := by
    rw [givenResponses, receivedResponses, filterMap_cons_toList, filterMap_cons_toList,
      ← List.append_assoc, hviews, List.append_assoc, List.append_cancel_left_eq]
    rfl
  constructor
  · intro h
    obtain ⟨e1, s1, rest, hone, hrest, hes⟩ := runOps_cons_inv h.run
    rw [hstep] at hone
    cases hone
    cases hes
    exact ⟨hrest, h.returned, (List.forall₂_cons.mp h.answered).2, hc.mp h.calls, hv.mp h.views⟩
  · intro h
    exact ⟨runOps_cons_ok hstep h.run, h.returned, .cons hanswered h.answered, hc.mpr h.calls,
      hv.mpr h.views⟩

theorem converse_run (ops : List ConversationOp) (p : Phase) (c : Conversation) (h : Standing p c)
    (hcan : StepsOk converse CanHappen c ops)
    (hdelivered : ∀ es c', runOps converse c ops = .ok (es, c') →
      c'.toServer = [] ∧ c'.toClient = []) :
    (∃ es c', Completes p c ops es c') ∧ StepsOk converse Heeds c ops ↔
      StepsOk converse NothingEmpty c ops := by
  induction ops generalizing p c with
  | nil =>
    refine iff_of_true ⟨⟨[], c, ?_⟩, trivial⟩ trivial
    obtain ⟨hserver, hclient⟩ := hdelivered [] c rfl
    cases p with
    | idle => exact ⟨rfl, h.phase.1, .nil, rfl, rfl⟩
    | requested _ => exact absurd hserver h.phase.2.1
    | responded _ => exact absurd hclient h.phase.2.2.1
  | cons op ops ih =>
    obtain ⟨e, c1, hstep, hanswered, hout⟩ := converse_step h (stepsOk_head hcan)
    have hcan1 := stepsOk_tail hstep hcan
    cases hout with
    | good p' hok hheeds hstanding hcalls hviews =>
      have hrest := ih p' c1 hstanding hcan1 fun es c' hrun =>
        hdelivered (e :: es) c' (runOps_cons_ok hstep hrun)
      rw [stepsOk_cons_iff hstep, stepsOk_cons_iff hstep, ← hrest]
      constructor
      · rintro ⟨⟨es, c', hcompletes⟩, -, hheeded⟩
        obtain ⟨e1, s1, rest, hone, -, rfl⟩ := runOps_cons_inv hcompletes.run
        rw [hstep] at hone
        cases hone
        exact ⟨hok, ⟨rest, c', (completes_cons hstep hanswered hcalls hviews).mp hcompletes⟩, hheeded⟩
      · rintro ⟨-, ⟨es, c', hcompletes⟩, hheeded⟩
        exact ⟨⟨e :: es, c', (completes_cons hstep hanswered hcalls hviews).mpr hcompletes⟩,
          hheeds, hheeded⟩
    | lost hbad hlost =>
      refine iff_of_false ?_ fun hok => hbad (stepsOk_head hok)
      rintro ⟨⟨es, c', hcompletes⟩, -⟩
      obtain ⟨es1, c1', hrun, hreceiving, -⟩ := run_invariant lost_step ops c1 hlost hcan1
      have hboth := hcompletes.run.symm.trans (runOps_cons_ok hstep hrun)
      cases hboth
      exact absurd (hcompletes.returned.symm.trans hreceiving) (by decide)

theorem fresh_standing : Standing .idle {} :=
  ⟨⟨rfl, rfl, rfl, ⟨fresh_inv, rfl, rfl⟩, ⟨fresh_inv, rfl, rfl⟩⟩, ⟨fresh_inv, rfl⟩, ⟨fresh_inv, rfl⟩⟩

/-- When all bytes under way have arrived, every request has been called, its response has been
returned, and each frame that Decode took off was a message to its caller, exactly when no request
and no response was empty and every response left in one flush. -/
theorem conversation_completes_iff (ops : List ConversationOp)
    (hcan : StepsOk converse CanHappen {} ops) (hdelivered : Delivered ops) :
    AllReceived ops ∧ StepsOk converse Heeds {} ops ↔ StepsOk converse NothingEmpty {} ops := by
  rw [← converse_run ops .idle {} fresh_standing hcan hdelivered]
  apply and_congr_left
  intro _
  constructor
  · rintro ⟨es, c, hrun, hreturned, hanswered, hcalls, hviews⟩
    exact ⟨es, c, hrun, hreturned, hanswered, hcalls.symm, hviews.symm⟩
  · rintro ⟨es, c, h⟩
    exact ⟨es, c, h.run, h.returned, h.answered, h.calls.symm, h.views.symm⟩

/-- A request that fails, one that arrives in two pieces and whose response does, too. -/
theorem conversation_completes_iff_two :
    AllReceived [.send [7] [.ok 5], .serve 5 .error (some 9), .fetch 5, .send [1, 2] [.ok 6],
        .serve 3 .ok none, .serve 3 (fun _ => .ok [8, 9]) (some 9), .fetch 2, .fetch 4] ∧
      StepsOk converse Heeds {} [.send [7] [.ok 5], .serve 5 .error (some 9), .fetch 5,
        .send [1, 2] [.ok 6], .serve 3 .ok none, .serve 3 (fun _ => .ok [8, 9]) (some 9), .fetch 2,
        .fetch 4] ↔
    StepsOk converse NothingEmpty {} [.send [7] [.ok 5], .serve 5 .error (some 9), .fetch 5,
        .send [1, 2] [.ok 6], .serve 3 .ok none, .serve 3 (fun _ => .ok [8, 9]) (some 9), .fetch 2,
        .fetch 4] :=
  conversation_completes_iff _ (by decide +kernel) (by decide +kernel)

/-- The callback answers with the empty string: its frame arrives and is taken off, and Receive waits. -/
theorem emptyResponse_waits :
    StepsOk converse CanHappen {} [.send [7] [.ok 5], .serve 5 (fun _ => .ok []) (some 9), .fetch 4] ∧
      Delivered [.send [7] [.ok 5], .serve 5 (fun _ => .ok []) (some 9), .fetch 4] ∧
      ((runOps converse {} [.send [7] [.ok 5], .serve 5 (fun _ => .ok []) (some 9), .fetch 4]).map
        fun r => (calledRequests r.1, givenResponses r.1, receivedResponses r.1, r.2.receiving))
          = .ok ([[7]], [[]], [], true) ∧
      ¬ AllReceived [.send [7] [.ok 5], .serve 5 (fun _ => .ok []) (some 9), .fetch 4] := by
  refine ⟨by decide +kernel, by decide +kernel, by decide +kernel, ?_⟩
  rintro ⟨es, c, hrun, hreturned, -⟩
  have hreceiving : (runOps converse {} [.send [7] [.ok 5], .serve 5 (fun _ => .ok []) (some 9),
      .fetch 4]).map (fun r => r.2.receiving) = .ok true := by decide +kernel
  rw [hrun] at hreceiving
  have hwaits : c.receiving = true := Except.ok.inj hreceiving
  exact absurd (hreturned.symm.trans hwaits) (by decide)

end DeftRpc.Net
