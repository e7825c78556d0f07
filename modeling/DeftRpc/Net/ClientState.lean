import DeftRpc.Foundation.Exec

/-!
# The state and the timeouts of TcpClient (TcpClient.h:32-59, 92-117, Socket.cpp)

Every system call comes with the result it has: 0 is success. A setsockopt that fails
leaves the option of the socket as it was.
-/

namespace DeftRpc.Net.ClientState
open DeftRpc.Foundation

/-- `kState`, in the order of its enumerators. -/
inductive KState
  | construct
  | connecting
  | connected
  | connectFailed
  | errorOccurred
  | closed
  deriving DecidableEq

def KState.value : KState → ℕ
  | construct => 0
  | connecting => 1
  | connected => 2
  | connectFailed => 3
  | errorOccurred => 4
  | closed => 5

/-- The timeouts in force, SO_RCVTIMEO and SO_SNDTIMEO in seconds; 0 is none. -/
structure Socket where
  rcvTimeo : ℤ := 0
  sndTimeo : ℤ := 0

def Socket.setReadTimeout (s : Socket) (val result : ℤ) : Socket :=
  if result = 0 then { s with rcvTimeo := val } else s

def Socket.setWriteTimeout (s : Socket) (val result : ℤ) : Socket :=
  if result = 0 then { s with sndTimeo := val } else s

structure TcpClient where
  mSock : Socket := {}
  mState : KState := .construct
  mReadTimeout : ℤ := 0
  mWriteTimeout : ℤ := 0

/-- The results of the system calls of one connect, in their order. -/
structure Answers where
  optionSet : ℤ
  connect : ℤ
  optionReset : ℤ

namespace TcpClient

def setReadTimeOut (c : TcpClient) (timeOut result : ℤ) : ℤ × TcpClient :=
  let c := { c with mReadTimeout := timeOut, mSock := c.mSock.setReadTimeout timeOut result }
  (result, if result ≠ 0 then { c with mState := .errorOccurred } else c)

def setWriteTimeOut (c : TcpClient) (timeOut result : ℤ) : ℤ × TcpClient :=
  let c := { c with mWriteTimeout := timeOut, mSock := c.mSock.setWriteTimeout timeOut result }
  (result, if result ≠ 0 then { c with mState := .errorOccurred } else c)

/-- The two connect functions, which differ in what they `report` of the last SetReadTimeOut. -/
def connectTo (report : ℤ → Bool) (c : TcpClient) (timeOut : ℤ) (a : Answers) : Bool × TcpClient :=
  if KState.connected.value ≤ c.mState.value then (decide (c.mState = .connected), c)
  else
    let r := if 0 < timeOut then c.setReadTimeOut timeOut a.optionSet else (0, c)
    if r.1 ≠ 0 ∨ a.connect ≠ 0 then (false, { r.2 with mState := .connectFailed })
    else if 0 < timeOut then
      let r' := r.2.setReadTimeOut r.2.mReadTimeout a.optionReset
      (report r'.1, r'.2)
    else (true, r.2)

def connect (c : TcpClient) : ℤ → Answers → Bool × TcpClient := c.connectTo fun result => 0 == result

def connectWithAddr (c : TcpClient) : ℤ → Answers → Bool × TcpClient :=
  c.connectTo fun result => 0 != result

def close (c : TcpClient) (result : ℤ) : ℤ × TcpClient := (result, { c with mState := .closed })

/-- ~TcpClient; returns whether it closes the socket. -/
def destroy (c : TcpClient) (result : ℤ) : Bool × TcpClient :=
  if c.mState = .connected then (true, (c.close result).2) else (false, c)

end TcpClient

/-! ### Histories of calls -/

inductive ClientCall
  | connect (timeOut : ℤ) (a : Answers)
  | connectWithAddr (timeOut : ℤ) (a : Answers)
  | setReadTimeOut (timeOut result : ℤ)
  | setWriteTimeOut (timeOut result : ℤ)
  | close (result : ℤ)

/-- A client, and the read timeout its user asked for last; `0` is the default. -/
structure ClientUse where
  client : TcpClient := {}
  asked : ℤ := 0

namespace ClientUse

def call (s : ClientUse) : ClientCall → Exec ((Bool ⊕ ℤ) × ClientUse)
  | .connect timeOut a =>
    let r := s.client.connect timeOut a
    .ok (.inl r.1, { s with client := r.2 })
  | .connectWithAddr timeOut a =>
    let r := s.client.connectWithAddr timeOut a
    .ok (.inl r.1, { s with client := r.2 })
  | .setReadTimeOut timeOut result =>
    let r := s.client.setReadTimeOut timeOut result
    .ok (.inr r.1, { client := r.2, asked := timeOut })
  | .setWriteTimeOut timeOut result =>
    let r := s.client.setWriteTimeOut timeOut result
    .ok (.inr r.1, { s with client := r.2 })
  | .close result =>
    let r := s.client.close result
    .ok (.inr r.1, { s with client := r.2 })

end ClientUse

/-! ### The law and its condition -/

/-- The call gets as far as a system connect that succeeds. -/
def TcpClient.Reaches (c : TcpClient) (timeOut : ℤ) (a : Answers) : Prop :=
  c.mState.value < KState.connected.value ∧ (0 < timeOut → a.optionSet = 0) ∧ a.connect = 0

def Answers.Restores (a : Answers) (timeOut : ℤ) : Prop := 0 < timeOut → a.optionReset = 0

/-- What a connect that returns `r` should do. -/
structure ConnectLaw (s : ClientUse) (timeOut : ℤ) (a : Answers) (r : Bool × TcpClient) : Prop where
  connected : r.1 = true ↔ r.2.mState = .connected
  succeeds : s.client.Reaches timeOut a → a.Restores timeOut → r.1 = true
  timeout : r.1 = true → r.2.mSock.rcvTimeo = s.asked

def CallLaw (s : ClientUse) : ClientCall → Prop
  | .connect timeOut a => ConnectLaw s timeOut a (s.client.connect timeOut a)
  | .connectWithAddr timeOut a => ConnectLaw s timeOut a (s.client.connectWithAddr timeOut a)
  | _ => True

/-- No system connect succeeds, or Connect cannot put the timeout back. -/
def CallFails (s : ClientUse) : ClientCall → Prop
  | .connect timeOut a => ¬ (s.client.Reaches timeOut a ∧ a.Restores timeOut)
  | .connectWithAddr timeOut a => ¬ s.client.Reaches timeOut a
  | _ => True

/-! ### One call -/

namespace TcpClient

/-- The client once setsockopt has set the read timeout. -/
def inForce (c : TcpClient) (timeOut : ℤ) : TcpClient :=
  { c with mReadTimeout := timeOut, mSock := { c.mSock with rcvTimeo := timeOut } }

theorem setReadTimeOut_ok (c : TcpClient) (timeOut : ℤ) :
    c.setReadTimeOut timeOut 0 = (0, c.inForce timeOut) := rfl

theorem setReadTimeOut_failed (c : TcpClient) (timeOut : ℤ) {result : ℤ} (h : result ≠ 0) :
    c.setReadTimeOut timeOut result =
      (result, { c with mReadTimeout := timeOut, mState := .errorOccurred }) := by
  simp [setReadTimeOut, Socket.setReadTimeout, h]

variable {report : ℤ → Bool} {c : TcpClient} {timeOut : ℤ} {a : Answers}

theorem connectTo_reached (h : c.Reaches timeOut a) : c.connectTo report timeOut a =
    if 0 < timeOut then
      (report a.optionReset, ((c.inForce timeOut).setReadTimeOut timeOut a.optionReset).2)
    else (true, c) := by
  obtain ⟨hstate, hset, hconnect⟩ := h
  rw [connectTo, if_neg (not_le.mpr hstate)]
  by_cases ht : 0 < timeOut
  · simp only [ht, if_true, hset ht, hconnect, setReadTimeOut_ok, ne_eq, not_true_eq_false, or_self, if_false]
    rfl
  · simp [ht, hconnect]

theorem value_ne {k : KState} (h : KState.connected.value < k.value) : k ≠ .connected := by
  rintro rfl
  exact absurd h (lt_irrefl _)

theorem connectTo_failed (hc : c.mState ≠ .connected) (h : ¬ c.Reaches timeOut a) :
    (c.connectTo report timeOut a).1 = false ∧
      KState.connected.value < (c.connectTo report timeOut a).2.mState.value := by
  rw [connectTo]
  by_cases hstate : KState.connected.value ≤ c.mState.value
  · rw [if_pos hstate]
    refine ⟨decide_eq_false hc, lt_of_le_of_ne hstate fun he => hc ?_⟩
    cases hk : c.mState <;> rw [hk] at he <;> first | rfl | cases he
  · have hbad : (if 0 < timeOut then c.setReadTimeOut timeOut a.optionSet else (0, c)).1 ≠ 0 ∨
        a.connect ≠ 0 := by
      by_contra hgood
      rw [not_or, not_not, not_not] at hgood
      refine h ⟨not_le.mp hstate, fun ht => ?_, hgood.2⟩
      have hfirst := hgood.1
      rw [if_pos ht] at hfirst
      exact hfirst
    rw [if_neg hstate]
    simp only [hbad, if_true]
    exact ⟨trivial, by decide⟩

theorem setReadTimeOut_state (c : TcpClient) (hc : c.mState ≠ .connected) (result : ℤ) :
    (c.setReadTimeOut timeOut result).2.mState ≠ .connected := by
  by_cases hres : result = 0
  · rw [hres, setReadTimeOut_ok]
    exact hc
  · rw [setReadTimeOut_failed c timeOut hres]
    exact KState.noConfusion

theorem connectTo_state (hc : c.mState ≠ .connected) :
    (c.connectTo report timeOut a).2.mState ≠ .connected := by
  by_cases h : c.Reaches timeOut a
  · rw [connectTo_reached h]
    by_cases ht : 0 < timeOut
    · rw [if_pos ht]
      exact (c.inForce timeOut).setReadTimeOut_state hc _
    · rw [if_neg ht]
      exact hc
  · exact value_ne (connectTo_failed hc h).2

theorem connectTo_true_iff (hc : c.mState ≠ .connected) : (c.connectTo report timeOut a).1 = true ↔
    c.Reaches timeOut a ∧ (0 < timeOut → report a.optionReset = true) := by
  by_cases h : c.Reaches timeOut a
  · rw [connectTo_reached h]
    by_cases ht : 0 < timeOut
    · simp [ht, h]
    · simp [ht, h]
  · simp [h, (connectTo_failed hc h).1]

theorem connectTo_timeout (h : c.Reaches timeOut a) :
    (c.connectTo report timeOut a).2.mSock.rcvTimeo = if 0 < timeOut then timeOut else c.mSock.rcvTimeo := by
  rw [connectTo_reached h]
  by_cases ht : 0 < timeOut
  · rw [if_pos ht, if_pos ht]
    by_cases hres : a.optionReset = 0
    · rw [hres, setReadTimeOut_ok]
      rfl
    · rw [setReadTimeOut_failed _ timeOut hres]
      rfl
  · rw [if_neg ht, if_neg ht]

theorem connect_true_iff (hc : c.mState ≠ .connected) :
    (c.connect timeOut a).1 = true ↔ c.Reaches timeOut a ∧ a.Restores timeOut := by
  rw [connect, connectTo_true_iff hc, Answers.Restores]
  simp only [beq_iff_eq, @eq_comm ℤ 0]

/-- ConnectWithAddr takes the failure of the last option call for success. -/
theorem connectWithAddr_true_iff (hc : c.mState ≠ .connected) :
    (c.connectWithAddr timeOut a).1 = true ↔
      c.Reaches timeOut a ∧ (0 < timeOut → a.optionReset ≠ 0) := by
  rw [connectWithAddr, connectTo_true_iff hc]
  simp only [bne_iff_ne, ne_comm]

end TcpClient

/-! ### Every history -/

namespace ClientUse

/-- Connected is never the state, and as long as nothing has failed the cached timeout is in force. -/
structure Possible (s : ClientUse) : Prop where
  state : s.client.mState ≠ .connected
  cached : s.client.mState.value < KState.connected.value →
    s.client.mSock.rcvTimeo = s.client.mReadTimeout

theorem possible_new : Possible {} := ⟨KState.noConfusion, fun _ => rfl⟩

theorem callLaw_iff {s : ClientUse} (h : Possible s) (op : ClientCall) : CallLaw s op ↔ CallFails s op := by
  have hc := h.state
  cases op with
  | connect timeOut a =>
    have hstate : (s.client.connect timeOut a).2.mState ≠ .connected := TcpClient.connectTo_state hc
    have htrue : (s.client.connect timeOut a).1 = true ↔ _ := TcpClient.connect_true_iff hc
    constructor
    · rintro law ⟨hreach, hrestore⟩
      exact hstate (law.connected.mp (law.succeeds hreach hrestore))
    · intro hfail
      have hnot : ¬ (s.client.connect timeOut a).1 = true := fun hret => hfail (htrue.mp hret)
      exact ⟨⟨fun hret => absurd hret hnot, fun hst => absurd hst hstate⟩,
        fun hreach hrestore => absurd ⟨hreach, hrestore⟩ hfail, fun hret => absurd hret hnot⟩
  | connectWithAddr timeOut a =>
    have hstate : (s.client.connectWithAddr timeOut a).2.mState ≠ .connected :=
      TcpClient.connectTo_state hc
    have htrue : (s.client.connectWithAddr timeOut a).1 = true ↔ _ := TcpClient.connectWithAddr_true_iff hc
    constructor
    · intro law hreach
      by_cases hrestore : a.Restores timeOut
      · exact hstate (law.connected.mp (law.succeeds hreach hrestore))
      · have hreset : 0 < timeOut → a.optionReset ≠ 0 := fun _ hzero => hrestore fun _ => hzero
        exact hstate (law.connected.mp (htrue.mpr ⟨hreach, hreset⟩))
    · intro hfail
      have hnot : ¬ (s.client.connectWithAddr timeOut a).1 = true := fun hret => hfail (htrue.mp hret).1
      exact ⟨⟨fun hret => absurd hret hnot, fun hst => absurd hst hstate⟩,
        fun hreach _ => absurd hreach hfail, fun hret => absurd hret hnot⟩
  | setReadTimeOut timeOut result => exact Iff.rfl
  | setWriteTimeOut timeOut result => exact Iff.rfl
  | close result => exact Iff.rfl

theorem Possible.setReadTimeOut {s : ClientUse} (h : Possible s) (timeOut result asked : ℤ) :
    Possible { client := (s.client.setReadTimeOut timeOut result).2, asked := asked } := by
  refine ⟨s.client.setReadTimeOut_state h.state result, fun hlt => ?_⟩
  by_cases hres : result = 0
  · rw [hres, TcpClient.setReadTimeOut_ok]
    rfl
  · rw [TcpClient.setReadTimeOut_failed s.client timeOut hres] at hlt
    have hfailed : ¬ KState.errorOccurred.value < KState.connected.value := by decide
    exact absurd hlt hfailed

theorem Possible.setWriteTimeOut {s : ClientUse} (h : Possible s) (timeOut result : ℤ) :
    Possible { s with client := (s.client.setWriteTimeOut timeOut result).2 } := by
  by_cases hres : result = 0
  · rw [hres]
    exact ⟨h.state, h.cached⟩
  · have hfailed : ¬ KState.errorOccurred.value < KState.connected.value := by decide
    simp only [TcpClient.setWriteTimeOut, ne_eq, hres, not_false_eq_true, if_true]
    exact ⟨KState.noConfusion, fun hlt => absurd hlt hfailed⟩

theorem Possible.connectTo {s : ClientUse} (h : Possible s) (report : ℤ → Bool) (timeOut : ℤ) (a : Answers) :
    Possible { s with client := (s.client.connectTo report timeOut a).2 } := by
  refine ⟨TcpClient.connectTo_state h.state, ?_⟩
  by_cases hreach : s.client.Reaches timeOut a
  · rw [TcpClient.connectTo_reached hreach]
    by_cases ht : 0 < timeOut
    · have hforce : Possible { s with client := s.client.inForce timeOut } := ⟨h.state, fun _ => rfl⟩
      rw [if_pos ht]
      exact (hforce.setReadTimeOut timeOut a.optionReset s.asked).cached
    · rw [if_neg ht]
      exact h.cached
  · exact fun hlt => absurd hlt (not_lt.mpr (le_of_lt (TcpClient.connectTo_failed h.state hreach).2))

theorem Possible.call {s s' : ClientUse} {op : ClientCall} {out : Bool ⊕ ℤ} (h : Possible s)
    (hcall : s.call op = .ok (out, s')) : Possible s' := by
  cases op with
  | connect timeOut a =>
    cases hcall
    exact h.connectTo _ timeOut a
  | connectWithAddr timeOut a =>
    cases hcall
    exact h.connectTo _ timeOut a
  | setReadTimeOut timeOut result =>
    cases hcall
    exact h.setReadTimeOut timeOut result timeOut
  | setWriteTimeOut timeOut result =>
    cases hcall
    exact h.setWriteTimeOut timeOut result
  | close result =>
    cases hcall
    have hclosed : ¬ KState.closed.value < KState.connected.value := by decide
    exact ⟨KState.noConfusion, fun hlt => absurd hlt hclosed⟩

theorem possible_run {calls : List ClientCall} {outs : List (Bool ⊕ ℤ)} {s : ClientUse}
    (hrun : runOps call {} calls = .ok (outs, s)) : Possible s := by
  have keep : ∀ s op out s', Possible s → True → call s op = .ok (out, s') → Possible s' :=
    fun s op out s' h _ hcall => h.call hcall
  exact run_keeps keep possible_new (stepsOk_true _ calls) hrun

theorem runOps_call_ok (calls : List ClientCall) (s : ClientUse) :
    ∃ outs s', runOps call s calls = .ok (outs, s') := by
  induction calls generalizing s with
  | nil => exact ⟨[], s, rfl⟩
  | cons op calls ih =>
    obtain ⟨out, s1, hcall⟩ : ∃ out s1, s.call op = .ok (out, s1) := by
      cases op <;> exact ⟨_, _, rfl⟩
    obtain ⟨outs, s', hrun⟩ := ih s1
    exact ⟨out :: outs, s', runOps_cons_ok hcall hrun⟩

/-- After every history a connect keeps the law if and only if it fails, and the connects of
the history all do if and only if all of them fail. -/
theorem clientCalls_lawful_iff (calls : List ClientCall) :
    (StepsOk call CallLaw {} calls ↔ StepsOk call CallFails {} calls) ∧
      ∃ outs s, runOps call {} calls = .ok (outs, s) ∧ ∀ op, CallLaw s op ↔ CallFails s op := by
  have same : ∀ s op, Possible s → True → (CallLaw s op ↔ CallFails s op) := fun s op h _ => callLaw_iff h op
  have keep : ∀ s op out s', Possible s → True → CallLaw s op → call s op = .ok (out, s') → Possible s' :=
    fun s op out s' h _ _ hcall => h.call hcall
  refine ⟨stepsOk_iff_of_invariant same keep calls {} possible_new (stepsOk_true _ calls), ?_⟩
  obtain ⟨outs, s, hrun⟩ := runOps_call_ok calls {}
  exact ⟨outs, s, hrun, callLaw_iff (possible_run hrun)⟩

/-- Connect(5) on a new client, with every system call successful: true, but the state is
Construct and the timeout of 5 seconds stays in force. -/
theorem connect_unlawful : ¬ StepsOk call CallLaw {} [.connect 5 ⟨0, 0, 0⟩] ∧
    ((({} : TcpClient).connect 5 ⟨0, 0, 0⟩).1 = true ∧
      (({} : TcpClient).connect 5 ⟨0, 0, 0⟩).2.mState = .construct ∧
      (({} : TcpClient).connect 5 ⟨0, 0, 0⟩).2.mSock.rcvTimeo = 5) ∧
    (({} : TcpClient).connectWithAddr 5 ⟨0, 0, 0⟩).1 = false := by
  refine ⟨fun h => ?_, by decide, by decide⟩
  have hlaw : ConnectLaw {} 5 ⟨0, 0, 0⟩ (({} : TcpClient).connect 5 ⟨0, 0, 0⟩) := h.1
  have hstate : (({} : TcpClient).connect 5 ⟨0, 0, 0⟩).2.mState ≠ .connected := by decide
  exact hstate (hlaw.connected.mp rfl)

/-! ### The timeout in force, and the destructor -/

def lastTimeout (timeout : ℤ) : List ClientCall → ℤ
  | [] => timeout
  | .connect timeOut _ :: calls => lastTimeout (if 0 < timeOut then timeOut else timeout) calls
  | .connectWithAddr timeOut _ :: calls => lastTimeout (if 0 < timeOut then timeOut else timeout) calls
  | .setReadTimeOut timeOut _ :: calls => lastTimeout timeOut calls
  | .setWriteTimeOut _ _ :: calls => lastTimeout timeout calls
  | .close _ :: calls => lastTimeout timeout calls

theorem connectTo_lastTimeout {s : ClientUse} (h : Possible s) (report : ℤ → Bool) (timeOut : ℤ)
    (a : Answers)
    (hlt : (s.client.connectTo report timeOut a).2.mState.value < KState.connected.value) :
    s.client.mState.value < KState.connected.value ∧
      (s.client.connectTo report timeOut a).2.mSock.rcvTimeo
        = if 0 < timeOut then timeOut else s.client.mSock.rcvTimeo := by
  by_cases hreach : s.client.Reaches timeOut a
  · exact ⟨hreach.1, TcpClient.connectTo_timeout hreach⟩
  · have hfailed := (@TcpClient.connectTo_failed report s.client timeOut a h.state hreach).2
    omega

theorem call_lastTimeout {s s' : ClientUse} {op : ClientCall} {out : Bool ⊕ ℤ} (h : Possible s)
    (hcall : s.call op = .ok (out, s')) (hlt : s'.client.mState.value < KState.connected.value) :
    s.client.mState.value < KState.connected.value ∧
      s'.client.mSock.rcvTimeo = lastTimeout s.client.mSock.rcvTimeo [op] := by
  have hfailed : ¬ KState.errorOccurred.value < KState.connected.value := by decide
  cases op with
  | connect timeOut a =>
    cases hcall
    exact connectTo_lastTimeout h _ timeOut a hlt
  | connectWithAddr timeOut a =>
    cases hcall
    exact connectTo_lastTimeout h _ timeOut a hlt
  | setReadTimeOut timeOut result =>
    cases hcall
    by_cases hres : result = 0
    · rw [hres] at hlt ⊢
      exact ⟨hlt, rfl⟩
    · simp only [TcpClient.setReadTimeOut_failed s.client timeOut hres] at hlt
      exact absurd hlt hfailed
  | setWriteTimeOut timeOut result =>
    cases hcall
    by_cases hres : result = 0
    · rw [hres] at hlt ⊢
      exact ⟨hlt, rfl⟩
    · simp only [TcpClient.setWriteTimeOut, ne_eq, hres, not_false_eq_true, if_true] at hlt
      exact absurd hlt hfailed
  | close result =>
    cases hcall
    have hclosed : ¬ KState.closed.value < KState.connected.value := by decide
    exact absurd hlt hclosed

theorem lastTimeout_cons (timeout : ℤ) (op : ClientCall) (calls : List ClientCall) :
    lastTimeout timeout (op :: calls) = lastTimeout (lastTimeout timeout [op]) calls := by
  cases op <;> rfl

theorem run_lastTimeout {s s' : ClientUse} (h : Possible s) {calls : List ClientCall}
    {outs : List (Bool ⊕ ℤ)} (hrun : runOps call s calls = .ok (outs, s'))
    (hlt : s'.client.mState.value < KState.connected.value) :
    s.client.mState.value < KState.connected.value ∧
      s'.client.mSock.rcvTimeo = lastTimeout s.client.mSock.rcvTimeo calls := by
  induction calls generalizing s outs with
  | nil =>
    cases hrun
    exact ⟨hlt, rfl⟩
  | cons op calls ih =>
    obtain ⟨out, s1, rest, hcall, hrest, -⟩ := runOps_cons_inv hrun
    obtain ⟨hlt1, hlater⟩ := ih (h.call hcall) hrest
    obtain ⟨hlt0, hfirst⟩ := call_lastTimeout h hcall hlt1
    rw [lastTimeout_cons, ← hfirst]
    exact ⟨hlt0, hlater⟩

/-- As long as nothing failed, the timeout in force is the one passed last, a connect's as well
as the user's; and the destructor never closes the socket. -/
theorem timeout_and_destroy {calls : List ClientCall} {outs : List (Bool ⊕ ℤ)} {s : ClientUse}
    (hrun : runOps call {} calls = .ok (outs, s)) :
    (s.client.mState.value < KState.connected.value →
      s.client.mSock.rcvTimeo = lastTimeout 0 calls) ∧
      ∀ result, (s.client.destroy result).1 = false := by
  refine ⟨fun hlt => (run_lastTimeout possible_new hrun hlt).2, fun result => ?_⟩
  rw [TcpClient.destroy, if_neg (possible_run hrun).state]

end ClientUse

end DeftRpc.Net.ClientState
