import DeftRpc.Buffer.RingQueue
import DeftRpc.Foundation.Framing

/-!
# DefaultCodeC (Codec.h) over a stream cut into chunks

A frame is `htonl` of the length as it lies in memory, then the payload. The
receiving buffer always holds the front of the frames that are not decoded yet.
-/

namespace DeftRpc.Net
open DeftRpc.Foundation DeftRpc.Buffer DeftRpc.Buffer.RingBuffer

/-! ### Encode and Decode -/

/-- `sizeof(PackageLengthType)`. -/
def packageLengthSize : ℕ := 4

def encode (buffer : RingBuffer) (data : List Byte) (len : ℕ) : Exec RingBuffer := do
  let packageLength := htonl len
  let r ← buffer.write (leBytes packageLengthSize packageLength) packageLengthSize
  let r ← r.2.write data len
  pure r.2

/-- `Encode(Buffer *, const std::string &)`. -/
def encodeString (buffer : RingBuffer) (str : List Byte) : Exec RingBuffer :=
  encode buffer str (u32 str.length)

def decode (buffer : RingBuffer) : Exec (List Byte × RingBuffer) :=
  if buffer.size < packageLengthSize then .ok ([], buffer)
  else do
    let peek ← buffer.peek packageLengthSize
    let packageSize ← writeAt (leBytes packageLengthSize 0) 0 peek
    let packageSize := ntohl (leVal packageSize)
    -- the sum is a size_t and does not wrap
    if buffer.size < packageLengthSize + packageSize then pure ([], buffer)
    else do
      let r ← buffer.read packageLengthSize
      r.2.read packageSize

/-! ### One frame -/

def packageLength : LengthCode Byte where
  width := packageLengthSize
  limit := 4294967296
  put n := leBytes packageLengthSize (htonl n)
  get bs := ntohl (leVal bs)
  put_length n := leBytes_length _ _
  get_put n h := by
    have hl : htonl n < 256 ^ packageLengthSize := by
      have h2 := leVal_lt (leBytes 4 n).reverse
      rwa [List.length_reverse, leBytes_length] at h2
    rw [leVal_leBytes hl, ntohl_htonl h]

theorem encode_spec {b : RingBuffer} (hi : Inv b) (data : List Byte)
    (h : b.mSize + (packageLength.frame data).length ≤ maxTotal) :
    ∃ b', encode b data data.length = .ok b' ∧ Inv b' ∧
      b'.content = b.content ++ packageLength.frame data := by
  have hw : packageLength.width = packageLengthSize := rfl
  rw [LengthCode.frame_length, hw] at h
  have hlen : packageLengthSize ≤ (leBytes packageLengthSize (htonl data.length)).length := by
    rw [leBytes_length]
  obtain ⟨b1, hw1, hi1, hc1⟩ := write_spec hi hlen (by omega)
  rw [List.take_of_length_le (by rw [leBytes_length])] at hc1
  have hs1 : b1.mSize = b.mSize + packageLengthSize := by
    rw [← hi1.content_length, hc1, List.length_append, hi.content_length, leBytes_length]
  obtain ⟨b2, hw2, hi2, hc2⟩ := write_spec hi1 (le_refl data.length) (by omega)
  refine ⟨b2, ?_, hi2, ?_⟩
  · unfold encode
    dsimp only
    rw [hw1, Exec.ok_bind, hw2]
    rfl
  · rw [hc2, hc1, List.take_length, List.append_assoc]
    rfl

/-- Decode takes off the first frame when all of it is there, and otherwise
returns the empty string and leaves the buffer as it is. -/
theorem decode_spec {b : RingBuffer} (hi : Inv b) :
    (packageLength.next b.content = none → decode b = .ok ([], b)) ∧
    ∀ m q, packageLength.next b.content = some (m, q) →
      ∃ b', decode b = .ok (m, b') ∧ Inv b' ∧ b'.content = q := by
  have hw : packageLength.width = packageLengthSize := rfl
  have hget : ∀ bs, packageLength.get bs = ntohl (leVal bs) := fun bs => rfl
  have hsize : b.size = b.content.length := hi.content_length.symm
  unfold decode LengthCode.next
  rw [hsize, hw, hget]
  by_cases hshort : b.content.length < packageLengthSize
  · rw [if_pos hshort, if_pos hshort]
    exact ⟨fun _ => rfl, fun m q h => absurd h (by simp only [reduceCtorEq, not_false_eq_true])⟩
  · have htl : (b.content.take packageLengthSize).length = packageLengthSize := by
      rw [List.length_take]
      omega
    have hpaste : paste (leBytes packageLengthSize 0) 0 (b.content.take packageLengthSize)
        = b.content.take packageLengthSize := by
      rw [paste, List.take_zero, List.nil_append, htl, Nat.zero_add,
        List.drop_of_length_le (by rw [leBytes_length]), List.append_nil]
    rw [if_neg hshort, if_neg hshort, peek_spec hi, Exec.ok_bind,
      writeAt_ok (by rw [htl, leBytes_length, Nat.zero_add]), Exec.ok_bind, hpaste]
    dsimp only
    by_cases hpart : b.content.length
        < packageLengthSize + ntohl (leVal (b.content.take packageLengthSize))
    · rw [if_pos hpart, if_pos hpart]
      exact ⟨fun _ => rfl, fun m q h => absurd h (by simp only [reduceCtorEq, not_false_eq_true])⟩
    · rw [if_neg hpart, if_neg hpart]
      refine ⟨fun h => absurd h (by simp only [reduceCtorEq, not_false_eq_true]), ?_⟩
      intro m q h
      obtain ⟨b1, hr1, hi1, hc1⟩ := read_spec hi packageLengthSize
      obtain ⟨b2, hr2, hi2, hc2⟩ := read_spec hi1 (ntohl (leVal (b.content.take packageLengthSize)))
      rw [hc1] at hr2 hc2
      cases h
      refine ⟨b2, ?_, hi2, ?_⟩
      · rw [hr1]
        exact hr2
      · rw [hc2, List.drop_drop]

/-! ### The sender -/

inductive SendOp where
  | encode (message : List Byte)
  | drain (len : ℕ)

/-- Draining moves the oldest bytes onto the wire. -/
def sendStep (b : RingBuffer) : SendOp → Exec (List Byte × RingBuffer)
  | .encode message => do
    let b ← encodeString b message
    pure ([], b)
  | .drain len => b.read len

def SendOk (b : RingBuffer) : SendOp → Prop
  | .encode message => b.mSize + (packageLength.frame message).length < 1073741824
  | .drain _ => True

instance (b : RingBuffer) : ∀ op, Decidable (SendOk b op)
  | .encode _ => Nat.decLt _ _
  | .drain _ => .isTrue trivial

def encoded : List SendOp → List (List Byte)
  | [] => []
  | .encode message :: ops => message :: encoded ops
  | .drain _ :: ops => encoded ops

theorem encodeString_spec {b : RingBuffer} (hi : Inv b) {message : List Byte}
    (h : SendOk b (.encode message)) :
    ∃ b', encodeString b message = .ok b' ∧ Inv b' ∧
      b'.content = b.content ++ packageLength.frame message := by
  have hlt : b.mSize + (packageLength.frame message).length < 1073741824 := h
  have hlen := packageLength.frame_length message
  have hu : u32 message.length = message.length := u32_of_lt (by omega)
  rw [encodeString, hu]
  exact encode_spec hi message (by unfold maxTotal; omega)

/-- The wire followed by the sender's buffer is the sequence of all frames. -/
theorem sender_stream (ops : List SendOp) (b : RingBuffer) (hi : Inv b)
    (h : StepsOk sendStep SendOk b ops) :
    ∃ outs b', runOps sendStep b ops = .ok (outs, b') ∧ Inv b' ∧
      outs.flatten ++ b'.content = b.content ++ packageLength.frames (encoded ops) ∧
      ∀ m ∈ encoded ops, m.length < packageLength.limit := by
  induction ops generalizing b with
  | nil =>
    refine ⟨[], b, rfl, hi, ?_, fun m hm => absurd hm List.not_mem_nil⟩
    rw [encoded, LengthCode.frames_nil, List.append_nil, List.flatten_nil, List.nil_append]
  | cons op ops ih =>
    cases op with
    | encode message =>
      obtain ⟨b1, he, hi1, hc1⟩ := encodeString_spec hi (stepsOk_head h)
      have hstep : sendStep b (.encode message) = .ok ([], b1) := by
        rw [sendStep, he]
        rfl
      obtain ⟨outs, b2, hrun, hi2, hc2, hlim⟩ := ih b1 hi1 (stepsOk_tail hstep h)
      refine ⟨_, b2, runOps_cons_ok hstep hrun, hi2, ?_, ?_⟩
      · rw [List.flatten_cons, List.nil_append, hc2, hc1, encoded, LengthCode.frames_cons,
          List.append_assoc]
      · intro m hm
        rcases List.mem_cons.mp hm with rfl | hm
        · have hok : SendOk b (.encode m) := stepsOk_head h
          have hlt : b.mSize + (packageLength.frame m).length < 1073741824 := hok
          have hlen := packageLength.frame_length m
          have hl : packageLength.limit = 4294967296 := rfl
          omega
        · exact hlim m hm
    | drain len =>
      obtain ⟨b1, hr, hi1, hc1⟩ := read_spec hi len
      have hstep : sendStep b (.drain len) = .ok (b.content.take len, b1) := hr
      obtain ⟨outs, b2, hrun, hi2, hc2, hlim⟩ := ih b1 hi1 (stepsOk_tail hstep h)
      refine ⟨_, b2, runOps_cons_ok hstep hrun, hi2, ?_, hlim⟩
      rw [List.flatten_cons, List.append_assoc, hc2, hc1, ← List.append_assoc,
        List.take_append_drop, encoded]

/-! ### The receiver -/

inductive RecvOp where
  | chunk (bytes : List Byte)
  | decode

/-- A chunk answers nothing, a decode answers what it returns. -/
def recvStep (b : RingBuffer) : RecvOp → Exec (Option (List Byte) × RingBuffer)
  | .chunk bytes => do
    let r ← b.write bytes bytes.length
    pure (none, r.2)
  | .decode => do
    let r ← decode b
    pure (some r.1, r.2)

def RecvOk (b : RingBuffer) : RecvOp → Prop
  | .chunk bytes => b.mSize + bytes.length < 1073741824
  | .decode => True

instance (b : RingBuffer) : ∀ op, Decidable (RecvOk b op)
  | .chunk _ => Nat.decLt _ _
  | .decode => .isTrue trivial

def received : List RecvOp → List Byte
  | [] => []
  | .chunk bytes :: ops => bytes ++ received ops
  | .decode :: ops => received ops

/-- The non-empty results of the decodes. -/
def decoded (outs : List (Option (List Byte))) : List (List Byte) :=
  (outs.filterMap id).filter fun s => !s.isEmpty

theorem decoded_some {m : List Byte} (h : m ≠ []) (outs : List (Option (List Byte))) :
    decoded (some m :: outs) = m :: decoded outs := by
  cases m with
  | nil => exact absurd rfl h
  | cons x xs => rfl

/-- The buffer holds the front of the frames of `rest`; `future` is still to come. -/
structure Receiving (rest : List (List Byte)) (future : List Byte) (b : RingBuffer) : Prop where
  inv : Inv b
  stream : b.content ++ future = packageLength.frames rest
  lengths : ∀ m ∈ rest, m.length < packageLength.limit
  nonEmpty : ∀ m ∈ rest, m ≠ []

def FrontIncomplete (rest : List (List Byte)) (b : RingBuffer) : Prop :=
  ∀ m tail, rest = m :: tail → b.content.length < (packageLength.frame m).length

theorem Receiving.chunk {rest : List (List Byte)} {bytes future : List Byte} {b : RingBuffer}
    (h : Receiving rest (bytes ++ future) b) (hok : RecvOk b (.chunk bytes)) :
    ∃ b', recvStep b (.chunk bytes) = .ok (none, b') ∧ Receiving rest future b' := by
  have hlt : b.mSize + bytes.length < 1073741824 := hok
  obtain ⟨b', hw, hi', hc'⟩ := write_spec h.inv (le_refl bytes.length) (by unfold maxTotal; omega)
  have hs := h.stream
  rw [← List.append_assoc] at hs
  refine ⟨b', ?_, hi', ?_, h.lengths, h.nonEmpty⟩
  · rw [recvStep, hw]
    rfl
  · rw [hc', List.take_length, hs]

theorem Receiving.decode_cases {rest : List (List Byte)} {future : List Byte} {b : RingBuffer}
    (h : Receiving rest future b) :
    (FrontIncomplete rest b ∧ decode b = .ok ([], b)) ∨
    ∃ m tail b', rest = m :: tail ∧ (packageLength.frame m).length ≤ b.content.length ∧
      decode b = .ok (m, b') ∧ Receiving tail future b' := by
  obtain ⟨hnone, hsome⟩ := decode_spec h.inv
  rcases packageLength.next_cases (by decide) h.lengths h.stream with
    ⟨hn, hf⟩ | ⟨m, tail, q, hrest, hq, hnext, hs⟩
  · exact Or.inl ⟨hf, hnone hn⟩
  · obtain ⟨b', hd, hi', hc'⟩ := hsome m q hnext
    have hmem : ∀ x ∈ tail, x ∈ rest := by
      intro x hx
      rw [hrest]
      exact List.mem_cons_of_mem m hx
    refine Or.inr ⟨m, tail, b', hrest, ?_, hd, hi', ?_, ?_, ?_⟩
    · rw [hq, List.length_append]
      exact Nat.le_add_right _ _
    · rw [hc']
      exact hs
    · exact fun x hx => h.lengths x (hmem x hx)
    · exact fun x hx => h.nonEmpty x (hmem x hx)

theorem Receiving.decode_incomplete {rest : List (List Byte)} {future : List Byte}
    {b : RingBuffer} (h : Receiving rest future b) (hf : FrontIncomplete rest b) :
    decode b = .ok ([], b) := by
  rcases h.decode_cases with ⟨-, hd⟩ | ⟨m, tail, b', hrest, hl, -, -⟩
  · exact hd
  · have hlt := hf m tail hrest
    omega

theorem recvStep_decode {b b' : RingBuffer} {s : List Byte} (h : decode b = .ok (s, b')) :
    recvStep b .decode = .ok (some s, b') := by
  rw [recvStep, h]
  rfl

/-- A run of chunks and decodes returns a prefix of the messages still due. -/
theorem receive_run (ops : List RecvOp) (rest : List (List Byte)) (future : List Byte)
    (b : RingBuffer) (h : Receiving rest (received ops ++ future) b)
    (hok : StepsOk recvStep RecvOk b ops) :
    ∃ outs b' rest', runOps recvStep b ops = .ok (outs, b') ∧ Receiving rest' future b' ∧
      decoded outs ++ rest' = rest := by
  induction ops generalizing b rest with
  | nil => exact ⟨[], b, rest, rfl, h, rfl⟩
  | cons op ops ih =>
    cases op with
    | chunk bytes =>
      rw [received, List.append_assoc] at h
      obtain ⟨b1, hstep, h1⟩ := h.chunk (stepsOk_head hok)
      obtain ⟨outs, b2, rest', hrun, h2, hout⟩ := ih rest b1 h1 (stepsOk_tail hstep hok)
      exact ⟨_, b2, rest', runOps_cons_ok hstep hrun, h2, hout⟩
    | decode =>
      rw [received] at h
      rcases h.decode_cases with ⟨-, hd⟩ | ⟨m, tail, b1, hrest, -, hd, h1⟩
      · have hstep := recvStep_decode hd
        obtain ⟨outs, b2, rest', hrun, h2, hout⟩ := ih rest b h (stepsOk_tail hstep hok)
        exact ⟨_, b2, rest', runOps_cons_ok hstep hrun, h2, hout⟩
      · have hstep := recvStep_decode hd
        obtain ⟨outs, b2, rest', hrun, h2, hout⟩ := ih tail b1 h1 (stepsOk_tail hstep hok)
        refine ⟨_, b2, rest', runOps_cons_ok hstep hrun, h2, ?_⟩
        rw [decoded_some (h.nonEmpty m (by rw [hrest]; exact List.mem_cons_self)), List.cons_append,
          hout, hrest]

theorem decode_rest (rest : List (List Byte)) (b : RingBuffer) (h : Receiving rest [] b) :
    ∃ b', runOps recvStep b (List.replicate rest.length .decode) = .ok (rest.map some, b') ∧
      b'.empty = true := by
  induction rest generalizing b with
  | nil =>
    have hs := h.stream
    rw [List.append_nil, LengthCode.frames_nil, h.inv.content_eq_nil] at hs
    exact ⟨b, rfl, h.inv.empty_iff.mpr hs⟩
  | cons m rest ih =>
    rcases h.decode_cases with ⟨hf, -⟩ | ⟨m', tail, b1, hrest, -, hd, h1⟩
    · have hs := congrArg List.length h.stream
      have hlt := hf m rest rfl
      rw [List.append_nil, LengthCode.frames_cons, List.length_append] at hs
      omega
    · cases hrest
      obtain ⟨b2, hrun, he⟩ := ih b1 h1
      exact ⟨b2, runOps_cons_ok (recvStep_decode hd) hrun, he⟩

/-- The stream of any sender, cut anywhere into chunks and decoded at any time,
gives back the messages: so far a prefix of them, in the end all. -/
theorem decode_stream (sends : List SendOp) (ops : List RecvOp)
    (hsends : StepsOk sendStep SendOk fresh sends) (hne : ∀ m ∈ encoded sends, m ≠ [])
    (hops : StepsOk recvStep RecvOk fresh ops) :
    ∃ wire sender, runOps sendStep fresh sends = .ok (wire, sender) ∧
      (received ops <+: wire.flatten ++ sender.content →
        ∃ outs b rest, runOps recvStep fresh ops = .ok (outs, b) ∧
          decoded outs ++ rest = encoded sends ∧
          (FrontIncomplete rest b → decode b = .ok ([], b)) ∧
          (received ops = wire.flatten ++ sender.content →
            ∃ b', runOps recvStep b (List.replicate rest.length .decode)
                = .ok (rest.map some, b') ∧ b'.empty = true)) := by
  obtain ⟨wire, sender, hsrun, -, hstream, hlim⟩ := sender_stream sends fresh fresh_inv hsends
  rw [fresh_content, List.nil_append] at hstream
  refine ⟨wire, sender, hsrun, ?_⟩
  rintro ⟨future, hfuture⟩
  have hrecv : Receiving (encoded sends) (received ops ++ future) fresh := by
    refine ⟨fresh_inv, ?_, hlim, hne⟩
    rw [fresh_content, List.nil_append, hfuture, hstream]
  obtain ⟨outs, b, rest, hrun, hb, hout⟩ := receive_run ops _ future fresh hrecv hops
  refine ⟨outs, b, rest, hrun, hout, hb.decode_incomplete, ?_⟩
  intro hall
  have hf : future = [] := by
    rw [← hall] at hfuture
    exact List.self_eq_append_right.mp hfuture.symm
  rw [hf] at hb
  exact decode_rest rest b hb

/-- Two messages; the first chunk ends inside the length field of the first, the second inside that of
the second. -/
theorem decode_stream_two :
    ∃ wire sender, runOps sendStep fresh [.encode [1, 2], .drain 3, .encode [5]]
        = .ok (wire, sender) ∧
      ∃ outs b rest, runOps recvStep fresh
          [.chunk [0, 0, 0], .decode, .chunk [2, 1, 2, 0], .decode, .decode, .chunk [0, 0, 1, 5]]
            = .ok (outs, b) ∧
        decoded outs ++ rest = [[1, 2], [5]] ∧
        (FrontIncomplete rest b → decode b = .ok ([], b)) ∧
        ∃ b', runOps recvStep b (List.replicate rest.length .decode) = .ok (rest.map some, b') ∧
          b'.empty = true := by
  obtain ⟨wire, sender, hsend, hstream⟩ := decode_stream [.encode [1, 2], .drain 3, .encode [5]]
    [.chunk [0, 0, 0], .decode, .chunk [2, 1, 2, 0], .decode, .decode, .chunk [0, 0, 1, 5]]
    (by decide +kernel) (by decide) (by decide +kernel)
  have hwire : (runOps sendStep fresh [.encode [1, 2], .drain 3, .encode [5]]).map
      (fun sent => sent.1.flatten ++ sent.2.content) = .ok [0, 0, 0, 2, 1, 2, 0, 0, 0, 1, 5] := by
    decide +kernel
  rw [hsend] at hwire
  have hall := Except.ok.inj hwire
  dsimp only at hall
  rw [hall] at hstream
  obtain ⟨outs, b, rest, hrun, hout, hfront, hend⟩ := hstream (List.prefix_refl _)
  exact ⟨wire, sender, hsend, outs, b, rest, hrun, hout, hfront, hend rfl⟩

end DeftRpc.Net
