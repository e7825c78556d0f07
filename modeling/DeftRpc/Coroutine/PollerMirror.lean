import Mathlib.Data.List.GetD
import DeftRpc.Coroutine.Poller

/-!
# Whether the table mirrors the interest set

RegisterFd and CancelRegister write the table first and ask the kernel then.
-/

namespace DeftRpc.Coroutine
open DeftRpc.Foundation

namespace Poller

/-! ### What a call does to the table -/

theorem int32_le (n : ℕ) : int32 n ≤ n := by
  have h := Int.emod_nonneg (n : ℤ) (show (4294967296 : ℤ) ≠ 0 by decide)
  have h2 := Int.mul_ediv_add_emod (n : ℤ) 4294967296
  have h3 : 0 ≤ (n : ℤ) / 4294967296 := by omega
  simp only [int32, Int.bmod]
  split <;> omega

theorem resizeLoop_getD (fd turns : ℕ) (table : List RunnableContext) (i : ℕ) :
    (resizeLoop fd turns table).getD i {} = table.getD i {} := by
  induction turns generalizing table with
  | zero => rfl
  | succ turns ih =>
    have hpad : (table ++ List.replicate table.length ({} : RunnableContext)).getD i {}
        = table.getD i {} := by
      by_cases hi : i < table.length
      · rw [List.getD_append _ _ _ _ hi]
      · rw [List.getD_append_right _ _ _ _ (by omega), List.getD_eq_default table _ (by omega)]
        simp only [List.getD_eq_getElem?_getD, List.getElem?_replicate]
        split <;> rfl
    simp only [resizeLoop]
    split
    · rw [ih, hpad]
    · exact hpad

theorem resizeLoop_length (fd turns : ℕ) (table : List RunnableContext) (hpos : 0 < table.length)
    (hturns : fd < table.length + turns) : fd < (resizeLoop fd turns table).length := by
  induction turns generalizing table with
  | zero => simpa [resizeLoop] using hturns
  | succ turns ih =>
    have hlen : (table ++ List.replicate table.length ({} : RunnableContext)).length
        = table.length + table.length := by
      simp
    simp only [resizeLoop]
    split
    · exact ih _ (by omega) (by omega)
    · omega

@[simp] theorem resized_interest (p : Poller) (fd : ℤ) : (p.resized fd).interest = p.interest := by
  unfold resized
  split <;> rfl

@[simp] theorem resized_context (p : Poller) (fd fd' : ℤ) :
    (p.resized fd).context fd' = p.context fd' := by
  unfold resized context
  split
  · exact resizeLoop_getD _ _ _ _
  · rfl

theorem resized_size {p : Poller} (hp : 0 < p.size) {fd : ℤ} (hfd : 0 ≤ fd) :
    fd.toNat < (p.resized fd).size := by
  unfold resized
  split
  · exact resizeLoop_length _ _ _ hp (by omega)
  · next h =>
    have hle := int32_le p.size
    omega

theorem setContext_context {p : Poller} {fd : ℤ} (hfd : fd.toNat < p.size) (c : RunnableContext) :
    (p.setContext fd c).context fd = c := by
  unfold size at hfd
  simp [setContext, context, List.getD_eq_getElem?_getD, hfd]

theorem setContext_other (p : Poller) {fd fd' : ℤ} (c : RunnableContext) (hfd : 0 ≤ fd)
    (hfd' : 0 ≤ fd') (hne : fd' ≠ fd) : (p.setContext fd c).context fd' = p.context fd' := by
  have hn : fd.toNat ≠ fd'.toNat := by omega
  simp [setContext, context, List.getD_eq_getElem?_getD, hn]

/-- Whether the kernel has to know the fd before the operation. -/
def needs : EpollOp → Bool
  | .add => false
  | .mod => true
  | .del => true

/-- The interest that the operation leaves. -/
def leaves (event : ℕ) : EpollOp → Option ℕ
  | .add => some event
  | .mod => some event
  | .del => none

theorem epollCtl_known {p : Poller} {fd : ℤ} {op : EpollOp}
    (hknown : (p.interest fd).isSome = needs op) (event : ℕ) (mayWork : Bool) :
    p.epollCtl fd op event mayWork = (mayWork, if mayWork then
      { p with interest := Function.update p.interest fd (leaves event op) } else p) := by
  cases op <;> cases mayWork <;> simp_all [epollCtl, needs, leaves]

def SameAt (fd : ℤ) (p q : Poller) : Prop :=
  q.context fd = p.context fd ∧ q.interest fd = p.interest fd

/-- One entry written and the kernel asked, in a table that reaches `fd`. -/
theorem written {p : Poller} {fd : ℤ} (hfd : 0 ≤ fd) (hsize : fd.toNat < p.size) (op : EpollOp)
    (hknown : (p.interest fd).isSome = needs op) (c : RunnableContext) (event : ℕ)
    (mayWork : Bool) :
    ∃ q, (p.setContext fd c).epollCtl fd op event mayWork = (mayWork, q) ∧
      q.context fd = c ∧
      q.interest fd = (if mayWork then leaves event op else p.interest fd) ∧
      0 < q.size ∧ ∀ fd', 0 ≤ fd' → fd' ≠ fd → SameAt fd' p q := by
  have hsame := setContext_context hsize c
  have hother : ∀ fd', 0 ≤ fd' → fd' ≠ fd → (p.setContext fd c).context fd' = p.context fd' :=
    fun fd' => setContext_other p c hfd
  have hpos : 0 < (p.setContext fd c).size := by
    unfold size at hsize ⊢
    simp only [setContext, List.length_set]
    omega
  have hasks := epollCtl_known (p := p.setContext fd c) hknown event mayWork
  cases mayWork with
  | false =>
    exact ⟨_, hasks, hsame, rfl, hpos, fun fd' h hne => ⟨hother fd' h hne, rfl⟩⟩
  | true =>
    refine ⟨_, hasks, hsame, ?_, hpos, fun fd' h hne => ⟨hother fd' h hne, ?_⟩⟩
    · simp
    · simp [hne, setContext]

/-- The entry that RegisterFd leaves. -/
def registered (old runnable : RunnableContext) : RunnableContext :=
  if old.isNoneEvent then runnable
  else if runnable.isReading then
    { old with mEvent := old.mEvent ||| runnable.mEvent, mReadCallback := runnable.mReadCallback }
  else if runnable.isWriting then
    { old with mEvent := old.mEvent ||| runnable.mEvent, mWriteCallback := runnable.mWriteCallback }
  else { old with mEvent := old.mEvent ||| runnable.mEvent }

/-- Where table and kernel agree about `fd` being there, the answer of `epoll_ctl` is
the one that decides. -/
theorem registerFd_spec {p : Poller} (hp : 0 < p.size) (runnable : RunnableContext)
    (hfd : 0 ≤ runnable.mFd) (mayWork : Bool)
    (hknown : (p.context runnable.mFd).isNoneEvent = !(p.interest runnable.mFd).isSome) :
    ∃ q, p.registerFd runnable mayWork
        = (if mayWork then .returned else .thrown "register m_socket_ failed!", q) ∧
      q.context runnable.mFd = registered (p.context runnable.mFd) runnable ∧
      q.interest runnable.mFd = (if mayWork then
          some (registered (p.context runnable.mFd) runnable).mEvent
        else p.interest runnable.mFd) ∧
      0 < q.size ∧ ∀ fd, 0 ≤ fd → fd ≠ runnable.mFd → SameAt fd p q := by
  obtain ⟨op, hop⟩ : ∃ op, (if (p.context runnable.mFd).isNoneEvent then EpollOp.add else .mod) = op :=
    ⟨_, rfl⟩
  have hneeds : ((p.resized runnable.mFd).interest runnable.mFd).isSome = needs op := by
    rw [resized_interest, ← hop, hknown]
    cases (p.interest runnable.mFd).isSome <;> rfl
  have hleaves : ∀ event, leaves event op = some event := by
    intro event
    rw [← hop]
    split <;> rfl
  obtain ⟨q, hasks, hcontext, hinterest, hpos, hother⟩ := written hfd (resized_size hp hfd) _ hneeds
    (registered (p.context runnable.mFd) runnable)
    (registered (p.context runnable.mFd) runnable).mEvent mayWork
  refine ⟨q, ?_, hcontext, ?_, hpos, ?_⟩
  · simp only [registered] at hasks
    simp only [registerFd, resized_context, if_neg (not_lt.mpr hfd), hop, hasks]
    split <;> rfl
  · rw [hinterest, hleaves, resized_interest]
  · intro fd h hne
    have hsame := hother fd h hne
    unfold SameAt at hsame ⊢
    rwa [resized_context, resized_interest] at hsame

theorem cancelRegister_empty {p : Poller} {fd : ℤ} (hfd : 0 ≤ fd) (hempty : p.context fd = {})
    (mayWork : Bool) : p.cancelRegister fd mayWork = (.returned, p) := by
  rw [cancelRegister, if_neg (not_lt.mpr hfd), if_neg (by simp [hempty, Runnable.index])]

theorem cancelRegister_spec {p : Poller} {fd : ℤ} (hfd : 0 ≤ fd) (hevent : (p.context fd).mEvent ≠ 0)
    (hknown : (p.interest fd).isSome = true) (mayWork : Bool) :
    ∃ q, p.cancelRegister fd mayWork
        = (if mayWork then .returned else .thrown "Cancel register error!", q) ∧
      q.context fd = {} ∧ q.interest fd = (if mayWork then none else p.interest fd) ∧
      0 < q.size ∧ ∀ fd', 0 ≤ fd' → fd' ≠ fd → SameAt fd' p q := by
  have hsize : fd.toNat < p.size := by
    by_contra hout
    rw [context, List.getD_eq_default _ _ (by unfold size at hout; omega)] at hevent
    exact hevent rfl
  obtain ⟨q, hq, hrest⟩ := written hfd hsize .del hknown {} 0 mayWork
  refine ⟨q, ?_, hrest⟩
  rw [cancelRegister, if_neg (not_lt.mpr hfd), if_pos ⟨by omega, by simp [Ne.symm hevent]⟩]
  simp only [hq]
  split <;> rfl

/-! ### The mirror -/

/-- The entry of `fd` and the interest of the kernel agree. -/
structure Mirrors (fd : ℤ) (c : RunnableContext) (mask : Option ℕ) : Prop where
  event : c.mEvent = mask.getD 0
  nonzero : mask ≠ some 0
  fd : c.mFd = if c.mEvent = 0 then -1 else fd
  read : c.mReadCallback.index ≠ 0 ↔ c.isReading
  write : c.mWriteCallback.index ≠ 0 ↔ c.isWriting

def Mirror (p : Poller) : Prop := ∀ fd, 0 ≤ fd → Mirrors fd (p.context fd) (p.interest fd)

/-- What holds between the calls beside the mirror. -/
structure MirrorInv (p : Poller) : Prop where
  mirror : Mirror p
  pos : 0 < p.size
  masks : ∀ fd, 0 ≤ fd → (p.context fd).mEvent ∈ [0, 1, 4, 5]

theorem Mirrors.known {fd : ℤ} {c : RunnableContext} {mask : Option ℕ} (h : Mirrors fd c mask) :
    c.isNoneEvent = !mask.isSome := by
  have hevent := h.event
  have hnonzero := h.nonzero
  cases mask with
  | none => simpa [RunnableContext.isNoneEvent] using hevent
  | some event =>
    have : c.mEvent ≠ 0 := by simp_all
    simpa [RunnableContext.isNoneEvent] using this

theorem Mirrors.eq_empty {fd : ℤ} {c : RunnableContext} {mask : Option ℕ} (h : Mirrors fd c mask)
    (hnone : c.mEvent = 0) : c = {} := by
  have hread := h.read
  have hwrite := h.write
  have hfd := h.fd
  obtain ⟨mFd, mRead, mWrite, mEvent⟩ := c
  simp only [RunnableContext.isReading, RunnableContext.isWriting] at hnone hread hwrite hfd
  subst hnone
  cases mRead <;> cases mWrite <;> simp_all [Runnable.index]

theorem task_index_ne_zero (t : TaskOrCoroutine) : t.runnable.index ≠ 0 := by
  cases t <;> simp [TaskOrCoroutine.runnable, Runnable.index]

/-- What RegisterRead and RegisterWrite give to RegisterFd. -/
def wanted (reading : Bool) (fd : ℤ) (t : TaskOrCoroutine) : RunnableContext :=
  if reading then { mFd := fd, mReadCallback := t.runnable, mEvent := epollIn }
  else { mFd := fd, mWriteCallback := t.runnable, mEvent := epollOut }

theorem Mirrors.register {fd : ℤ} {c : RunnableContext} {mask : Option ℕ}
    (h : Mirrors fd c mask) (hmasks : c.mEvent ∈ [0, 1, 4, 5]) (reading : Bool)
    (t : TaskOrCoroutine) :
    let new := registered c (wanted reading fd t)
    new.mEvent = c.mEvent ||| (wanted reading fd t).mEvent ∧ new.mEvent ∈ [0, 1, 4, 5] ∧
      Mirrors fd new (some new.mEvent) := by
  have ht := task_index_ne_zero t
  have hfd := h.fd
  have hread := h.read
  have hwrite := h.write
  obtain ⟨mFd, mRead, mWrite, mEvent⟩ := c
  simp only [List.mem_cons, List.not_mem_nil, or_false] at hmasks
  rcases hmasks with rfl | rfl | rfl | rfl <;> cases reading <;>
    simp_all [registered, wanted, RunnableContext.isNoneEvent, RunnableContext.isReading,
      RunnableContext.isWriting, epollIn, epollOut] <;>
    constructor <;>
    simp_all [RunnableContext.isReading, RunnableContext.isWriting, epollIn, epollOut, Runnable.index]

theorem Mirrors.empty (fd : ℤ) : Mirrors fd {} none :=
  ⟨rfl, by simp, rfl, by simp [Runnable.index, RunnableContext.isReading],
    by simp [Runnable.index, RunnableContext.isWriting]⟩

/-! ### Every run -/

/-- A call together with the answer of `epoll_ctl`. -/
inductive Call where
  | registerRead (fd : ℤ) (taskOrCoroutine : TaskOrCoroutine) (mayWork : Bool)
  | registerWrite (fd : ℤ) (taskOrCoroutine : TaskOrCoroutine) (mayWork : Bool)
  | cancelRegister (fd : ℤ) (mayWork : Bool)

def Call.fd : Call → ℤ
  | .registerRead fd _ _ => fd
  | .registerWrite fd _ _ => fd
  | .cancelRegister fd _ => fd

def call (p : Poller) : Call → Outcome × Poller
  | .registerRead fd t mayWork => p.registerRead fd t mayWork
  | .registerWrite fd t mayWork => p.registerWrite fd t mayWork
  | .cancelRegister fd mayWork => p.cancelRegister fd mayWork

def states (p : Poller) : List Call → List Poller
  | [] => []
  | c :: calls => (p.call c).2 :: states (p.call c).2 calls

/-- The kernel follows, or there is nothing that it would have to change. -/
def CallOk (p : Poller) : Call → Prop
  | .registerRead fd _ mayWork => mayWork = true ∨ (p.context fd).isReading = true
  | .registerWrite fd _ mayWork => mayWork = true ∨ (p.context fd).isWriting = true
  | .cancelRegister fd mayWork => mayWork = true ∨ (p.context fd).isNoneEvent = true

def CallsOk (p : Poller) : List Call → Prop
  | [] => True
  | c :: calls => p.CallOk c ∧ CallsOk (p.call c).2 calls

theorem fresh_context (fd : ℤ) : ({} : Poller).context fd = {} := by
  simp only [context, List.getD_eq_getElem?_getD, List.getElem?_replicate]
  split <;> rfl

theorem fresh_mirrorInv : MirrorInv {} where
  mirror := by
    intro fd _
    rw [fresh_context]
    exact Mirrors.empty fd
  pos := by
    show 0 < (List.replicate 1024 ({} : RunnableContext)).length
    rw [List.length_replicate]
    norm_num
  masks := by
    intro fd _
    rw [fresh_context]
    exact List.mem_cons_self

theorem MirrorInv.at {p q : Poller} (h : MirrorInv p) {fd : ℤ} (hpos : 0 < q.size)
    (hother : ∀ fd', 0 ≤ fd' → fd' ≠ fd → SameAt fd' p q)
    (hfd : Mirrors fd (q.context fd) (q.interest fd)) (hmask : (q.context fd).mEvent ∈ [0, 1, 4, 5]) :
    MirrorInv q where
  mirror := by
    intro fd' hfd'
    by_cases hne : fd' = fd
    · rw [hne]
      exact hfd
    · rw [(hother fd' hfd' hne).1, (hother fd' hfd' hne).2]
      exact h.mirror fd' hfd'
  pos := hpos
  masks := by
    intro fd' hfd'
    by_cases hne : fd' = fd
    · rw [hne]
      exact hmask
    · rw [(hother fd' hfd' hne).1]
      exact h.masks fd' hfd'

theorem or_eq_self_iff_read {event : ℕ} (h : event ∈ [0, 1, 4, 5]) :
    event ||| epollIn = event ↔ event &&& epollIn ≠ 0 := by
  simp only [List.mem_cons, List.not_mem_nil, or_false] at h
  rcases h with rfl | rfl | rfl | rfl <;> decide

theorem or_eq_self_iff_write {event : ℕ} (h : event ∈ [0, 1, 4, 5]) :
    event ||| epollOut = event ↔ event &&& epollOut ≠ 0 := by
  simp only [List.mem_cons, List.not_mem_nil, or_false] at h
  rcases h with rfl | rfl | rfl | rfl <;> decide

theorem registerFd_mirror {p : Poller} (h : MirrorInv p) {fd : ℤ} (hfd : 0 ≤ fd) (reading : Bool)
    (t : TaskOrCoroutine) (mayWork : Bool) :
    (Mirror (p.registerFd (wanted reading fd t) mayWork).2 ↔ mayWork = true ∨
        (p.context fd).mEvent ||| (wanted reading fd t).mEvent = (p.context fd).mEvent) ∧
      (Mirror (p.registerFd (wanted reading fd t) mayWork).2 →
        MirrorInv (p.registerFd (wanted reading fd t) mayWork).2) := by
  have hat := h.mirror fd hfd
  have hwanted : (wanted reading fd t).mFd = fd := by cases reading <;> rfl
  obtain ⟨q, hq, hcontext, hinterest, hpos, hother⟩ := registerFd_spec h.pos
    (wanted reading fd t) (by rw [hwanted]; exact hfd) mayWork
    (by rw [hwanted]; exact hat.known)
  rw [hwanted] at hcontext hinterest hother
  obtain ⟨hevent, hmask, hnew⟩ := hat.register (h.masks fd hfd) reading t
  rw [← hcontext] at hevent hmask hnew
  simp only [hq]
  refine ⟨⟨fun hm => ?_, fun hok => ?_⟩, fun hm => h.at hpos hother (hm fd hfd) hmask⟩
  · cases mayWork with
    | true => exact .inl rfl
    | false =>
      have := (hm fd hfd).event
      rw [hinterest, if_neg Bool.false_ne_true, ← hat.event, hevent] at this
      exact .inr this
  · refine (h.at hpos hother ?_ hmask).mirror
    cases mayWork with
    | true =>
      rw [hinterest, if_pos rfl, ← hcontext]
      exact hnew
    | false =>
      have hsame : (q.context fd).mEvent = (p.context fd).mEvent := by
        rw [hevent]
        simpa using hok
      rw [hinterest, if_neg Bool.false_ne_true]
      exact ⟨hsame.trans hat.event, hat.nonzero, hnew.fd, hnew.read, hnew.write⟩

theorem registerRead_eq (p : Poller) {fd : ℤ} (hfd : 0 ≤ fd) (t : TaskOrCoroutine) (mayWork : Bool) :
    p.registerRead fd t mayWork =
      if int32 p.size ≤ fd ∨ (p.context fd).isReading = false then
        p.registerFd (wanted true fd t) mayWork
      else (.thrown "fd register read twice!", p) := by
  simp [registerRead, wanted, RunnableContext.isReading, Nat.and_comm, not_lt.mpr hfd]

theorem registerWrite_eq (p : Poller) (fd : ℤ) (t : TaskOrCoroutine) (mayWork : Bool) :
    p.registerWrite fd t mayWork =
      if int32 p.size ≤ fd ∨ (p.context fd).isWriting = false then
        p.registerFd (wanted false fd t) mayWork
      else (.thrown "fd register read twice!", p) := by
  simp [registerWrite, wanted, RunnableContext.isWriting, Nat.and_comm]

theorem call_mirror {p : Poller} (h : MirrorInv p) {c : Call} (hfd : 0 ≤ c.fd) :
    (Mirror (p.call c).2 ↔ p.CallOk c) ∧ (Mirror (p.call c).2 → MirrorInv (p.call c).2) := by
  cases c with
  | registerRead fd t mayWork =>
    replace hfd : 0 ≤ fd := hfd
    have hmask := h.masks fd hfd
    obtain ⟨hiff, hkeep⟩ := registerFd_mirror h hfd true t mayWork
    have hself := or_eq_self_iff_read hmask
    simp only [call, registerRead_eq p hfd]
    split
    · refine ⟨hiff.trans ?_, hkeep⟩
      simp [CallOk, wanted, hself, RunnableContext.isReading]
    · next htwice =>
      refine ⟨iff_of_true h.mirror (.inr ?_), fun _ => h⟩
      simpa using (not_or.mp htwice).2
  | registerWrite fd t mayWork =>
    replace hfd : 0 ≤ fd := hfd
    have hmask := h.masks fd hfd
    obtain ⟨hiff, hkeep⟩ := registerFd_mirror h hfd false t mayWork
    have hself := or_eq_self_iff_write hmask
    simp only [call, registerWrite_eq p fd]
    split
    · refine ⟨hiff.trans ?_, hkeep⟩
      simp [CallOk, wanted, hself, RunnableContext.isWriting]
    · next htwice =>
      refine ⟨iff_of_true h.mirror (.inr ?_), fun _ => h⟩
      simpa using (not_or.mp htwice).2
  | cancelRegister fd mayWork =>
    replace hfd : 0 ≤ fd := hfd
    have hat := h.mirror fd hfd
    simp only [call]
    by_cases hnone : (p.context fd).mEvent = 0
    · rw [cancelRegister_empty hfd (hat.eq_empty hnone)]
      exact ⟨iff_of_true h.mirror (.inr (by simp [RunnableContext.isNoneEvent, hnone])), fun _ => h⟩
    · have hknown : (p.interest fd).isSome = true := by
        have hevent := hat.event
        cases hi : p.interest fd with
        | none =>
          rw [hi] at hevent
          exact absurd hevent hnone
        | some event => rfl
      obtain ⟨q, hq, hcontext, hinterest, hpos, hother⟩ := cancelRegister_spec hfd hnone hknown mayWork
      rw [hq]
      have hmask : (q.context fd).mEvent ∈ [0, 1, 4, 5] := by
        rw [hcontext]
        exact List.mem_cons_self
      refine ⟨⟨fun hm => ?_, fun hok => ?_⟩, fun hm => h.at hpos hother (hm fd hfd) hmask⟩
      · cases mayWork with
        | true => exact .inl rfl
        | false =>
          have hevent : (q.context fd).mEvent = (q.interest fd).getD 0 := (hm fd hfd).event
          rw [hinterest, if_neg Bool.false_ne_true, hcontext, ← hat.event] at hevent
          exact absurd hevent.symm hnone
      · have hworks : mayWork = true := by
          simpa [CallOk, RunnableContext.isNoneEvent, hnone] using hok
        refine (h.at hpos hother ?_ hmask).mirror
        rw [hcontext, hinterest, hworks]
        exact Mirrors.empty fd

theorem states_mirror (calls : List Call) (hfds : ∀ c ∈ calls, 0 ≤ c.fd) {p : Poller}
    (h : MirrorInv p) : (∀ q ∈ p.states calls, Mirror q) ↔ p.CallsOk calls := by
  induction calls generalizing p with
  | nil => simp [states, CallsOk]
  | cons c calls ih =>
    obtain ⟨hiff, hkeep⟩ := call_mirror h (hfds c List.mem_cons_self)
    have hrest : ∀ c' ∈ calls, 0 ≤ c'.fd := fun c' hc' => hfds c' (List.mem_cons_of_mem _ hc')
    simp only [states, CallsOk, List.forall_mem_cons, ← hiff]
    exact ⟨fun ⟨hm, hall⟩ => ⟨hm, (ih hrest (hkeep hm)).mp hall⟩,
      fun ⟨hm, hall⟩ => ⟨hm, (ih hrest (hkeep hm)).mpr hall⟩⟩

/-- The table mirrors the kernel after every call, the throwing ones included, exactly
in the runs in which the kernel follows every call that has something to change. -/
theorem mirror_iff_callsOk (calls : List Call) (hfds : ∀ c ∈ calls, 0 ≤ c.fd) :
    (∀ q ∈ states {} calls, Mirror q) ↔ CallsOk {} calls :=
  states_mirror calls hfds fresh_mirrorInv

theorem mirror_iff_callsOk_three :
    (∀ q ∈ states {} [.registerRead 5 (.coroutine 1) true, .registerRead 5 (.task 2) false,
        .cancelRegister 5 true], Mirror q) ↔
      CallsOk {} [.registerRead 5 (.coroutine 1) true, .registerRead 5 (.task 2) false,
        .cancelRegister 5 true] :=
  mirror_iff_callsOk _ (by simp [Call.fd])

/-- A failing `EPOLL_CTL_ADD` leaves an entry without an interest, a failing
`EPOLL_CTL_DEL` an interest without an entry. -/
theorem not_mirror_failing_ctl :
    (call {} (.registerRead 5 (.coroutine 1) false)).1 = .thrown "register m_socket_ failed!" ∧
      ¬ Mirror (call {} (.registerRead 5 (.coroutine 1) false)).2 ∧
      ¬ Mirror (call (call {} (.registerRead 5 (.coroutine 1) true)).2 (.cancelRegister 5 false)).2 := by
  refine ⟨by decide +kernel, fun h => ?_, fun h => ?_⟩
  · have := (h 5 (by decide)).event
    revert this
    decide +kernel
  · have := (h 5 (by decide)).event
    revert this
    decide +kernel

end Poller

end DeftRpc.Coroutine
