import DeftRpc.Concurrent.QueueOrder

/-!
# How long a call of EnQueue or Dequeue can take

A call of EnQueue begins its loop again only after another thread has linked a node or
moved the tail, and the tail is never more than one node behind. Dequeue, with one
consumer, goes around at most twice.
-/

namespace DeftRpc.Concurrent
open DeftRpc.Foundation

variable {ι ε : Type}

/-! ### Steps that are left -/

/-- A node is linked behind the tail. -/
def LockFreeQueue.pending (q : LockFreeQueue ε) : Bool := (q.nodes q.mTail).mNext.isSome

/-- From `m_tail_.load` to the return, if nobody interferes. -/
def LockFreeQueue.loop (q : LockFreeQueue ε) : ℕ := if q.pending then 10 else 6

/-- The steps of a call until it returns, if nobody interferes. -/
def enQueueLeft (q : LockFreeQueue ε) : EnPc ε → ℕ
  | .idle => 0
  | .storeNext _ _ => q.loop + 1
  | .loadTail _ => q.loop
  | .loadNext _ curTail => if q.mTail = curTail then q.loop - 1 else q.loop + 2
  | .checkTail _ curTail curTailNext =>
    if q.mTail = curTail then
      if curTailNext.isSome then 8 else if q.pending then q.loop + 2 else 4
    else q.loop + 1
  | .linkNext _ curTail => if (q.nodes curTail).mNext = none then 3 else q.loop + 1
  | .addSize _ _ => 2
  | .swingTail _ _ => 1
  | .helpTail _ curTail _ => if q.mTail = curTail then 7 else q.loop + 1

theorem LockFreeQueue.loop_bounds (q : LockFreeQueue ε) : 6 ≤ q.loop ∧ q.loop ≤ 10 := by
  unfold LockFreeQueue.loop
  split <;> omega

theorem enQueueLeft_le (q : LockFreeQueue ε) (pc : EnPc ε) : enQueueLeft q pc ≤ 12 := by
  have hloop := q.loop_bounds
  cases pc <;> simp only [enQueueLeft] <;> (repeat' split) <;> omega

namespace EnPc

/-- The tail that the call has read. -/
def curTail : EnPc ε → Option Addr
  | .loadNext _ cur | .checkTail _ cur _ | .linkNext _ cur | .helpTail _ cur _ => some cur
  | _ => none

end EnPc

/-! ### The tail is close to the end -/

structure Close (s : QueueState ι ε) (chain : List Addr) (t : ℕ) : Prop where
  read : ∀ i cur, (s.producers i).curTail = some cur → ∃ k, k ≤ t ∧ chain[k]? = some cur
  last : chain.length ≤ t + 2

/-- What a step does to the links and to the tail. -/
inductive Moves (s s' : QueueState ι ε) (chain : List Addr) : Prop
  | quiet (tail : s'.queue.mTail = s.queue.mTail)
      (next : ∀ b ∈ chain, (s'.queue.nodes b).mNext = (s.queue.nodes b).mNext)
      (enqueued : s'.enqueued.length = s.enqueued.length)
  | link {cur a : Addr} (last : cur ∈ chain ∧ (s.queue.nodes cur).mNext = none)
      (read : ∃ i, (s.producers i).curTail = some cur)
      (tail : s'.queue.mTail = s.queue.mTail)
      (next : ∀ b, (s'.queue.nodes b).mNext = if b = cur then some a else (s.queue.nodes b).mNext)
      (enqueued : s'.enqueued.length = s.enqueued.length + 1)
  | swing {next : Addr} (tail : (s.queue.nodes s.queue.mTail).mNext = some next)
      (tail' : s'.queue.mTail = next) (nodes : s'.queue.nodes = s.queue.nodes)
      (enqueued : s'.enqueued.length = s.enqueued.length)

theorem LockFreeQueue.pending_congr {q q' : LockFreeQueue ε} (htail : q'.mTail = q.mTail)
    (hnext : (q'.nodes q.mTail).mNext = (q.nodes q.mTail).mNext) : q'.pending = q.pending := by
  rw [LockFreeQueue.pending, LockFreeQueue.pending, htail, hnext]

theorem enQueueLeft_congr {q q' : LockFreeQueue ε} {chain : List Addr} {h t : ℕ} {pc : EnPc ε}
    (hc : Chain q chain h t) (hown : Own q chain pc) (htail : q'.mTail = q.mTail)
    (hnext : ∀ b ∈ chain, (q'.nodes b).mNext = (q.nodes b).mNext) :
    enQueueLeft q' pc = enQueueLeft q pc := by
  have hpending : q'.pending = q.pending :=
    LockFreeQueue.pending_congr htail (hnext _ (List.mem_of_getElem? hc.tail))
  have hloop : q'.loop = q.loop := by
    rw [LockFreeQueue.loop, LockFreeQueue.loop, hpending]
  cases pc with
  | idle | addSize _ _ | swingTail _ _ => rfl
  | storeNext _ _ | loadTail _ | loadNext _ _ | helpTail _ _ _ | checkTail _ _ _ =>
    simp only [enQueueLeft, htail, hloop, hpending]
  | linkNext newNode cur => simp only [enQueueLeft, hloop, hnext cur hown.2]

/-- Each step of a call is one less. -/
theorem enQueueLeft_step {q : LockFreeQueue ε} {chain : List Addr} {h t : ℕ} {pc : EnPc ε}
    {r : LockFreeQueue ε × EnPc ε × Option ε} (hc : Chain q chain h t) (hlast : chain.length ≤ t + 2)
    (hown : Own q chain pc) (hr : enQueueStep q pc = some r) :
    enQueueLeft r.1 r.2.1 + 1 ≤ enQueueLeft q pc := by
  obtain ⟨hlow, hhigh⟩ := q.loop_bounds
  cases pc with
  | idle => cases hr
  | storeNext newNode element =>
    cases hr
    have hne : q.mTail ≠ newNode := by
      intro he
      exact hown.2 (he ▸ List.mem_of_getElem? hc.tail)
    have hnext : ((q.setNode newNode ⟨none, some element⟩).nodes q.mTail).mNext
        = (q.nodes q.mTail).mNext := by
      show (Function.update q.nodes newNode _ q.mTail).mNext = _
      rw [Function.update_of_ne hne]
    have hpending : (q.setNode newNode ⟨none, some element⟩).pending = q.pending :=
      LockFreeQueue.pending_congr rfl hnext
    have hloop : (q.setNode newNode ⟨none, some element⟩).loop = q.loop := by
      rw [LockFreeQueue.loop, LockFreeQueue.loop, hpending]
    simp only [enQueueLeft, hloop, le_refl]
  | loadTail newNode =>
    cases hr
    simp only [enQueueLeft, if_true]
    omega
  | loadNext newNode cur =>
    cases hr
    by_cases htail : q.mTail = cur
    · have hpending : q.pending = (q.nodes cur).mNext.isSome := by
        rw [LockFreeQueue.pending, htail]
      have hloop : q.loop = if q.pending then 10 else 6 := rfl
      simp only [enQueueLeft, if_pos htail]
      rw [hloop, hpending]
      split <;> omega
    · simp only [enQueueLeft, if_neg htail]
      omega
  | checkTail newNode cur next =>
    by_cases htail : q.mTail = cur
    · cases next with
      | none =>
        simp only [enQueueStep, if_pos htail, Option.some.injEq] at hr
        subst hr
        have hpending : q.pending = (q.nodes cur).mNext.isSome := by
          rw [LockFreeQueue.pending, htail]
        simp only [enQueueLeft, if_pos htail, hpending, Option.isSome_none]
        cases (q.nodes cur).mNext <;> simp
      | some next =>
        simp only [enQueueStep, if_pos htail, Option.some.injEq] at hr
        subst hr
        simp [enQueueLeft, htail]
    · simp only [enQueueStep, if_neg htail, Option.some.injEq] at hr
      subst hr
      simp only [enQueueLeft, if_neg htail]
      omega
  | linkNext newNode cur =>
    cases hnext : (q.nodes cur).mNext with
    | none =>
      simp only [enQueueStep, hnext, Option.some.injEq] at hr
      subst hr
      simp [enQueueLeft, hnext]
    | some next =>
      simp only [enQueueStep, hnext, Option.some.injEq] at hr
      subst hr
      simp [enQueueLeft, hnext]
  | addSize newNode cur | swingTail newNode cur =>
    cases hr
    exact le_refl _
  | helpTail newNode cur next =>
    cases hr
    by_cases htail : q.mTail = cur
    · -- the tail moves to the last node
      obtain ⟨-, k, hk, hnext⟩ := hown
      have hkt : k = t := by
        rw [← htail] at hk
        exact hc.place_unique hk hc.tail
      rw [hkt] at hnext
      have hcas : q.casTail cur next = { q with mTail := next } := if_pos htail
      have hend : (q.nodes next).mNext = none := by
        rw [hc.next (t + 1) next hnext]
        exact List.getElem?_eq_none (by omega)
      have hpending : (q.casTail cur next).pending = false := by
        rw [hcas, LockFreeQueue.pending]
        dsimp only
        rw [hend]
        rfl
      simp [enQueueLeft, htail, LockFreeQueue.loop, hpending]
    · have hcas : q.casTail cur next = q := if_neg htail
      simp only [enQueueLeft, if_neg htail, hcas, le_refl]

/-! ### What the steps move -/

theorem Moves.of_casTail {s s' : QueueState ι ε} {chain : List Addr} {h t k : ℕ} {cur next : Addr}
    (hc : Chain s.queue chain h t) (hcur : chain[k]? = some cur) (hnext : chain[k + 1]? = some next)
    (hqueue : s'.queue = s.queue.casTail cur next) (hlen : s'.enqueued.length = s.enqueued.length) :
    Moves s s' chain := by
  by_cases htail : s.queue.mTail = cur
  · have hcas : s.queue.casTail cur next = { s.queue with mTail := next } := if_pos htail
    rw [hcas] at hqueue
    have hlast : (s.queue.nodes s.queue.mTail).mNext = some next := by
      rw [htail, hc.next k cur hcur, hnext]
    refine .swing hlast ?_ ?_ hlen
    · rw [hqueue]
    · rw [hqueue]
  · have hcas : s.queue.casTail cur next = s.queue := if_neg htail
    rw [hcas] at hqueue
    refine .quiet ?_ ?_ hlen
    · rw [hqueue]
    · intro b _
      rw [hqueue]

theorem enQueueStep_curTail {q : LockFreeQueue ε} {pc : EnPc ε} {r : LockFreeQueue ε × EnPc ε × Option ε}
    {cur : Addr} (hr : enQueueStep q pc = some r) (hcur : r.2.1.curTail = some cur) :
    pc.curTail = some cur ∨ cur = q.mTail := by
  cases pc with
  | idle => cases hr
  | storeNext _ _ | addSize _ _ | swingTail _ _ | helpTail _ _ _ =>
    cases hr
    cases hcur
  | loadTail _ =>
    cases hr
    cases hcur
    exact Or.inr rfl
  | loadNext _ _ =>
    cases hr
    exact Or.inl hcur
  | checkTail _ _ _ | linkNext _ _ =>
    simp only [enQueueStep] at hr
    repeat' split at hr
    all_goals
      cases hr
      first
        | exact Or.inl hcur
        | cases hcur

variable [DecidableEq ι]

theorem QueueInv.producerMoves {s : QueueState ι ε} {chain : List Addr} {h t : ℕ} {linked : Finset ι}
    (hi : QueueInv s chain h t linked) {i : ι} {r : LockFreeQueue ε × EnPc ε × Option ε}
    (hr : enQueueStep s.queue (s.producers i) = some r) :
    Moves s { s with
      queue := r.1, producers := Function.update s.producers i r.2.1,
      enqueued := s.enqueued ++ r.2.2.toList } chain := by
  have hown := hi.own i
  cases hpc : s.producers i with
  | idle =>
    rw [hpc] at hr
    cases hr
  | storeNext newNode element =>
    rw [hpc] at hr hown
    cases hr
    refine .quiet rfl ?_ (by simp)
    intro b hb
    have hne : b ≠ newNode := fun he => hown.2 (he ▸ hb)
    show (Function.update s.queue.nodes newNode _ b).mNext = _
    rw [Function.update_of_ne hne]
  | loadTail _ | loadNext _ _ | addSize _ _ =>
    rw [hpc] at hr
    cases hr
    exact .quiet rfl (fun _ _ => rfl) (by simp)
  | checkTail newNode cur next =>
    rw [hpc] at hr
    simp only [enQueueStep] at hr
    repeat' split at hr
    all_goals
      cases hr
      exact .quiet rfl (fun _ _ => rfl) (by simp)
  | linkNext newNode cur =>
    rw [hpc] at hr hown
    cases hnext : (s.queue.nodes cur).mNext with
    | none =>
      obtain ⟨element, helement⟩ := Option.isSome_iff_exists.mp hown.1.element
      simp only [enQueueStep, hnext, Option.some.injEq] at hr
      subst hr
      have hread : ∃ i, (s.producers i).curTail = some cur := ⟨i, by rw [hpc]; rfl⟩
      refine .link (a := newNode) ⟨hown.2, hnext⟩ hread rfl ?_ ?_
      · intro b
        show (Function.update s.queue.nodes cur _ b).mNext = _
        by_cases hb : b = cur
        · rw [hb, Function.update_self, if_pos rfl]
        · rw [Function.update_of_ne hb, if_neg hb]
      · simp [helement]
    | some next =>
      simp only [enQueueStep, hnext, Option.some.injEq] at hr
      subst hr
      exact .quiet rfl (fun _ _ => rfl) (by simp)
  | swingTail newNode cur =>
    rw [hpc] at hr hown
    cases hr
    obtain ⟨k, hk, hnext⟩ := hown
    exact Moves.of_casTail hi.shape hk hnext rfl (by simp)
  | helpTail newNode cur next =>
    rw [hpc] at hr hown
    cases hr
    obtain ⟨-, k, hk, hnext⟩ := hown
    exact Moves.of_casTail hi.shape hk hnext rfl (by simp)

omit [DecidableEq ι] in
theorem QueueInv.consumerMoves {s : QueueState ι ε} {chain : List Addr} {h t : ℕ} {linked : Finset ι}
    (hi : QueueInv s chain h t linked) {r : LockFreeQueue ε × DePc ε × Option (Option ε)}
    (hr : deQueueStep s.queue s.consumer = some r) :
    Moves s { s with queue := r.1, consumer := r.2.1, dequeued := s.dequeued ++ r.2.2.toList } chain := by
  have hheld := hi.held
  cases hpc : s.consumer with
  | idle | nullHead | nullNext =>
    rw [hpc] at hr
    cases hr
  | helpTail next curTail =>
    rw [hpc] at hr hheld
    cases hr
    exact Moves.of_casTail hi.shape hheld.1 hheld.2 rfl rfl
  | loadNext _ | loadTail _ _ | checkHead _ _ _ | subSize _ =>
    rw [hpc] at hr
    cases hr
    exact .quiet rfl (fun _ _ => rfl) rfl
  | loadHead | compareTail _ _ _ | moveHead _ _ =>
    rw [hpc] at hr
    simp only [deQueueStep] at hr
    repeat' split at hr
    all_goals
      cases hr
      exact .quiet rfl (fun _ _ => rfl) rfl

theorem QueueInv.moves {s s' : QueueState ι ε} {chain : List Addr} {hd t : ℕ} {linked : Finset ι}
    (hi : QueueInv s chain hd t linked) {a : QueueAct ι ε} (h : queueStep s a = some s') :
    Moves s s' chain := by
  cases a with
  | enQueue i element =>
    obtain ⟨-, rfl⟩ := queueStep_enQueue h
    exact .quiet rfl (fun _ _ => rfl) rfl
  | producer i =>
    obtain ⟨r, hr, rfl⟩ := Option.map_eq_some_iff.mp h
    exact hi.producerMoves hr
  | consumer =>
    by_cases hidle : s.consumer = .idle
    · simp only [queueStep, hidle, Option.some.injEq] at h
      subst h
      exact .quiet rfl (fun _ _ => rfl) rfl
    · have hcall : queueStep s .consumer = (deQueueStep s.queue s.consumer).map fun r =>
          { s with queue := r.1, consumer := r.2.1, dequeued := s.dequeued ++ r.2.2.toList } := by
        simp only [queueStep]
      rw [hcall] at h
      obtain ⟨r, hr, rfl⟩ := Option.map_eq_some_iff.mp h
      exact hi.consumerMoves hr

theorem queueStep_curTail {s s' : QueueState ι ε} {a : QueueAct ι ε} (h : queueStep s a = some s') {i : ι}
    {cur : Addr} (hcur : (s'.producers i).curTail = some cur) :
    (s.producers i).curTail = some cur ∨ cur = s.queue.mTail := by
  cases a with
  | enQueue j element =>
    obtain ⟨-, rfl⟩ := queueStep_enQueue h
    dsimp only at hcur
    by_cases hij : i = j
    · rw [hij, Function.update_self] at hcur
      cases hcur
    · rw [Function.update_of_ne hij] at hcur
      exact Or.inl hcur
  | producer j =>
    obtain ⟨r, hr, rfl⟩ := Option.map_eq_some_iff.mp h
    dsimp only at hcur
    by_cases hij : i = j
    · rw [hij, Function.update_self] at hcur
      rw [hij]
      exact enQueueStep_curTail hr hcur
    · rw [Function.update_of_ne hij] at hcur
      exact Or.inl hcur
  | consumer =>
    left
    by_cases hidle : s.consumer = .idle
    · simp only [queueStep, hidle, Option.some.injEq] at h
      subst h
      exact hcur
    · have hcall : queueStep s .consumer = (deQueueStep s.queue s.consumer).map fun r =>
          { s with queue := r.1, consumer := r.2.1, dequeued := s.dequeued ++ r.2.2.toList } := by
        simp only [queueStep]
      rw [hcall] at h
      obtain ⟨r, -, rfl⟩ := Option.map_eq_some_iff.mp h
      exact hcur

section Places
variable {s s' : QueueState ι ε} {chain chain' : List Addr} {hd hd' t t' : ℕ} {linked linked' : Finset ι}

omit [DecidableEq ι] in
/-- The tail stays, or moves on by one place; a node is linked only where the tail is. -/
theorem Moves.close (hm : Moves s s' chain) (hi : QueueInv s chain hd t linked)
    (hi' : QueueInv s' chain' hd' t' linked') (hpre : chain <+: chain') (hclose : Close s chain t) :
    t ≤ t' ∧ chain'.length ≤ t' + 2 := by
  obtain ⟨more, rfl⟩ := hpre
  have hlen := hi.length
  have hlen' := hi'.length
  have hlast := hclose.last
  rw [List.length_append] at hlen' ⊢
  have htail' := hi'.shape.tail
  cases hm with
  | quiet tail next enqueued =>
    rw [tail] at htail'
    have hplace := hi'.shape.place_unique (place_append hi.shape.tail) htail'
    omega
  | link last read tail next enqueued =>
    rename_i cur a
    obtain ⟨i, hi⟩ := read
    obtain ⟨k, hkt, hk⟩ := hclose.read i cur hi
    rw [tail] at htail'
    have hplace := hi'.shape.place_unique (place_append ‹QueueInv s chain hd t linked›.shape.tail) htail'
    have hend := (‹QueueInv s chain hd t linked›.shape.next k cur hk).symm.trans last.2
    have hle := List.getElem?_eq_none_iff.mp hend
    omega
  | swing tail tail' nodes enqueued =>
    rw [hi.shape.next t _ hi.shape.tail] at tail
    rw [tail'] at htail'
    have hplace := hi'.shape.place_unique (place_append tail) htail'
    omega

omit [DecidableEq ι] in
theorem Moves.lag (hm : Moves s s' chain) (hi : QueueInv s chain hd t linked) (hlast : chain.length ≤ t + 2) :
    (if s'.queue.pending then 12 else 0) + 24 * s.enqueued.length
      ≤ (if s.queue.pending then 12 else 0) + 24 * s'.enqueued.length := by
  cases hm with
  | quiet tail next enqueued =>
    have hpending := LockFreeQueue.pending_congr tail (next _ (List.mem_of_getElem? hi.shape.tail))
    rw [hpending, enqueued]
  | link last read tail next enqueued =>
    rw [enqueued]
    split <;> split <;> omega
  | swing tail tail' nodes enqueued =>
    have hplace := tail
    rw [hi.shape.next t _ hi.shape.tail] at hplace
    have hend := hi.shape.next (t + 1) _ hplace
    rw [List.getElem?_eq_none (by omega)] at hend
    have hpending : s'.queue.pending = false := by
      rw [LockFreeQueue.pending, tail', nodes, hend]
      rfl
    have hpending' : s.queue.pending = true := by
      rw [LockFreeQueue.pending, tail]
      rfl
    simp [hpending, hpending', enqueued]

omit [DecidableEq ι] in
/-- The call of a thread that does not move can lose at most what is left of it. -/
theorem Moves.left (hm : Moves s s' chain) (hi : QueueInv s chain hd t linked)
    (hlast : chain.length ≤ t + 2) {pc : EnPc ε} (hown : Own s.queue chain pc) :
    enQueueLeft s'.queue pc + (if s'.queue.pending then 12 else 0) + 24 * s.enqueued.length
      ≤ enQueueLeft s.queue pc + (if s.queue.pending then 12 else 0) + 24 * s'.enqueued.length := by
  have hle := enQueueLeft_le s'.queue pc
  have hlag := hm.lag hi hlast
  cases hm with
  | quiet tail next enqueued =>
    rw [enQueueLeft_congr hi.shape hown tail next]
    omega
  | link last read tail next enqueued =>
    rw [enqueued]
    split <;> split <;> omega
  | swing tail tail' nodes enqueued =>
    have hplace := tail
    rw [hi.shape.next t _ hi.shape.tail] at hplace
    have hend := hi.shape.next (t + 1) _ hplace
    rw [List.getElem?_eq_none (by omega)] at hend
    have hpending : s'.queue.pending = false := by
      rw [LockFreeQueue.pending, tail', nodes, hend]
      rfl
    have hpending' : s.queue.pending = true := by
      rw [LockFreeQueue.pending, tail]
      rfl
    simp only [hpending, hpending', enqueued, if_true, Bool.false_eq_true, if_false]
    omega

end Places

/-! ### Every interleaving -/

def Progress (s : QueueState ι ε) : Prop :=
  ∃ chain h t linked, QueueInv s chain h t linked ∧ Close s chain t

omit [DecidableEq ι] in
theorem progress_start : Progress ({} : QueueState ι ε) := by
  obtain ⟨chain, h, t, linked, hi⟩ := ordered_start (ι := ι) (ε := ε)
  have hlen := hi.length
  refine ⟨chain, h, t, linked, hi, ?_, ?_⟩
  · intro i cur hcur
    cases hcur
  · rw [← hlen]
    exact Nat.le_add_left _ _

theorem progress_step (s : QueueState ι ε) (a : QueueAct ι ε) (s' : QueueState ι ε) (hs : Progress s)
    (h : queueStep s a = some s') : Progress s' := by
  obtain ⟨chain, hd, t, linked, hi, hclose⟩ := hs
  obtain ⟨chain', hd', t', linked', hpre, -, hi'⟩ := hi.step h
  obtain ⟨hle, hlast⟩ := (hi.moves h).close hi hi' hpre hclose
  refine ⟨chain', hd', t', linked', hi', ?_, hlast⟩
  obtain ⟨more, rfl⟩ := hpre
  intro i cur hcur
  rcases queueStep_curTail h hcur with hold | rfl
  · obtain ⟨k, hkt, hk⟩ := hclose.read i cur hold
    exact ⟨k, le_trans hkt hle, place_append hk⟩
  · exact ⟨t, hle, place_append hi.shape.tail⟩

namespace QueueAct

/-- A step of a call of EnQueue by `i`. -/
def stepOf (i : ι) : QueueAct ι ε → Bool
  | .producer j => j = i
  | _ => false

def callOf (i : ι) : QueueAct ι ε → Bool
  | .enQueue j _ => j = i
  | _ => false

end QueueAct

/-- The steps of `i` that are left, with those that a move of the tail can undo. -/
def QueueState.left (i : ι) (s : QueueState ι ε) : ℕ :=
  enQueueLeft s.queue (s.producers i) + if s.queue.pending then 12 else 0

theorem queueStep_left {s s' : QueueState ι ε} {a : QueueAct ι ε} (i : ι) (hs : Progress s)
    (h : queueStep s a = some s') :
    s'.left i + (if a.stepOf i then 1 else 0) + 24 * s.enqueued.length
      ≤ s.left i + 24 * s'.enqueued.length + (if a.callOf i then 12 else 0) := by
  obtain ⟨chain, hd, t, linked, hi, hclose⟩ := hs
  have hmoves := hi.moves h
  have hother : s'.producers i = s.producers i → a.stepOf i = false →
      s'.left i + (if a.stepOf i then 1 else 0) + 24 * s.enqueued.length
        ≤ s.left i + 24 * s'.enqueued.length + (if a.callOf i then 12 else 0) := by
    intro hsame hnot
    have hleft := hmoves.left hi hclose.last (hi.own i)
    rw [QueueState.left, QueueState.left, hsame, hnot]
    exact le_trans hleft (Nat.le_add_right _ _)
  cases a with
  | enQueue j element =>
    by_cases hij : i = j
    · have hlag := hmoves.lag hi hclose.last
      obtain ⟨hidle, rfl⟩ := queueStep_enQueue h
      have hloop := (enQueueCall s.queue element).1.loop_bounds
      have hcall : QueueAct.callOf i (.enQueue j element) = true := decide_eq_true hij.symm
      have hstep : QueueAct.stepOf i (.enQueue j element) = false := rfl
      rw [hcall, hstep, hij, QueueState.left, QueueState.left]
      dsimp only at hlag ⊢
      rw [Function.update_self, hidle]
      simp only [enQueueCall, enQueueLeft, if_true, Bool.false_eq_true, if_false] at hloop hlag ⊢
      omega
    · obtain ⟨-, rfl⟩ := queueStep_enQueue h
      exact hother (Function.update_of_ne hij _ _) rfl
  | producer j =>
    by_cases hij : i = j
    · have hlag := hmoves.lag hi hclose.last
      obtain ⟨r, hr, rfl⟩ := Option.map_eq_some_iff.mp h
      have hown := enQueueLeft_step hi.shape hclose.last (hi.own j) hr
      have hstep : QueueAct.stepOf i (.producer j : QueueAct ι ε) = true := decide_eq_true hij.symm
      rw [hstep, hij, QueueState.left, QueueState.left, if_pos rfl]
      dsimp only at hlag ⊢
      rw [Function.update_self]
      omega
    · obtain ⟨r, -, rfl⟩ := Option.map_eq_some_iff.mp h
      exact hother (Function.update_of_ne hij _ _) (decide_eq_false (Ne.symm hij))
  | consumer =>
    apply hother _ rfl
    by_cases hidle : s.consumer = .idle
    · simp only [queueStep, hidle, Option.some.injEq] at h
      subst h
      rfl
    · have hcall : queueStep s .consumer = (deQueueStep s.queue s.consumer).map fun r =>
          { s with queue := r.1, consumer := r.2.1, dequeued := s.dequeued ++ r.2.2.toList } := by
        simp only [queueStep]
      rw [hcall] at h
      obtain ⟨r, -, rfl⟩ := Option.map_eq_some_iff.mp h
      rfl

omit [DecidableEq ι] in
theorem Close.last_behind {s : QueueState ι ε} {chain : List Addr} {hd t : ℕ}
    (h : Close s chain t) (hc : Chain s.queue chain hd t) {next : Addr}
    (hnext : (s.queue.nodes s.queue.mTail).mNext = some next) : (s.queue.nodes next).mNext = none := by
  have hplace : chain[t + 1]? = some next := by
    rw [← hc.next t s.queue.mTail hc.tail]
    exact hnext
  have hlast := h.last
  rw [hc.next (t + 1) next hplace, List.getElem?_eq_none (by omega)]

/-- The tail is never more than one node behind the last one. -/
theorem tail_behind_last (as : List (QueueAct ι ε)) (s : QueueState ι ε)
    (h : interleave queueStep {} as = some s) {next : Addr}
    (hnext : (s.queue.nodes s.queue.mTail).mNext = some next) : (s.queue.nodes next).mNext = none := by
  obtain ⟨chain, hd, t, linked, hi, hclose⟩ := interleave_invariant progress_step as {} s progress_start h
  exact hclose.last_behind hi.shape hnext

/-- Lock-freedom: a call of EnQueue that does not come to an end is held up by elements that
others enqueue. At any time each of the threads can go on. -/
theorem enQueue_lockFree (before as : List (QueueAct ι ε)) (s s' : QueueState ι ε) (i : ι)
    (hbefore : interleave queueStep {} before = some s) (h : interleave queueStep s as = some s') :
    as.countP (QueueAct.stepOf i) + 24 * s.enqueued.length
        ≤ 12 * as.countP (QueueAct.callOf i) + 24 * (s'.enqueued.length + 1) ∧
      (s'.producers i ≠ .idle → (queueStep s' (.producer i)).isSome) := by
  have hs : Progress s := interleave_invariant progress_step before {} s progress_start hbefore
  have hcost : s'.left i + as.countP (QueueAct.stepOf i) + 24 * s.enqueued.length
      ≤ s.left i + 24 * s'.enqueued.length + 12 * as.countP (QueueAct.callOf i) :=
    interleave_amortised (fun s a s' hs h => ⟨progress_step s a s' hs h, queueStep_left i hs h⟩)
      as s s' hs h
  have hleft : s.left i ≤ 24 := by
    have hle := enQueueLeft_le s.queue (s.producers i)
    rw [QueueState.left]
    split <;> omega
  refine ⟨by omega, ?_⟩
  intro hidle
  have hstep : (enQueueStep s'.queue (s'.producers i)).isSome := by
    cases hpc : s'.producers i with
    | idle => exact absurd hpc hidle
    | storeNext _ _ | loadTail _ | loadNext _ _ | addSize _ _ | swingTail _ _ | helpTail _ _ _ => rfl
    | checkTail _ _ _ | linkNext _ _ =>
      simp only [enQueueStep]
      repeat' split
      all_goals rfl
  simpa [queueStep] using hstep

/-- The first producer is about to link its node, and another one has begun. -/
def aboutToLink : List (QueueAct ℕ ℕ) :=
  [.enQueue 0 7, .enQueue 1 8] ++ List.replicate 4 (.producer 0)

def interrupted : List (QueueAct ℕ ℕ) :=
  List.replicate 5 (.producer 1) ++ List.replicate 9 (.producer 0)

theorem enQueue_lockFree_two : ∃ s s' : QueueState ℕ ℕ,
    interleave queueStep {} aboutToLink = some s ∧ interleave queueStep s interrupted = some s' ∧
    (interrupted.countP (QueueAct.stepOf 0) + 24 * s.enqueued.length
      ≤ 12 * interrupted.countP (QueueAct.callOf 0) + 24 * (s'.enqueued.length + 1) ∧
    (s'.producers 0 ≠ .idle → (queueStep s' (.producer 0)).isSome)) :=
  ⟨_, _, rfl, rfl, enQueue_lockFree aboutToLink interrupted _ _ 0 rfl rfl⟩

/-! ### Dequeue -/

/-- The steps of a call of Dequeue until it returns, if nobody interferes. -/
def deQueueLeft (q : LockFreeQueue ε) : DePc ε → ℕ
  | .idle | .nullHead | .nullNext => 0
  | .loadHead => if some q.mTail = q.mHead then 13 else 7
  | .loadNext _ => if some q.mTail = q.mHead then 12 else 6
  | .loadTail _ _ => if some q.mTail = q.mHead then 11 else 5
  | .checkHead _ _ curTail => if some curTail = q.mHead then 10 else 4
  | .compareTail _ _ curTail => if some curTail = q.mHead then 9 else 3
  | .helpTail _ _ => 8
  | .moveHead _ _ => 2
  | .subSize _ => 1

theorem deQueueLeft_le (q : LockFreeQueue ε) (pc : DePc ε) : deQueueLeft q pc ≤ 13 := by
  cases pc <;> simp only [deQueueLeft] <;> (repeat' split) <;> omega

section Consumer
variable {s s' : QueueState ι ε} {chain : List Addr} {hd t : ℕ} {linked : Finset ι}

omit [DecidableEq ι] in
theorem QueueInv.left_pos (hi : QueueInv s chain hd t linked) (hcall : s.consumer ≠ .idle) :
    0 < deQueueLeft s.queue s.consumer := by
  have hheld := hi.held
  cases hpc : s.consumer with
  | idle => exact absurd hpc hcall
  | nullHead | nullNext =>
    rw [hpc] at hheld
    exact hheld.elim
  | loadHead | loadNext _ | loadTail _ _ | checkHead _ _ _ | compareTail _ _ _ =>
    simp only [deQueueLeft]
    split <;> omega
  | helpTail _ _ | moveHead _ _ | subSize _ => simp [deQueueLeft]

omit [DecidableEq ι] in
/-- Each step of the call is one less, and the last one returns an element. -/
theorem QueueInv.consumer_left (hi : QueueInv s chain hd t linked)
    {r : LockFreeQueue ε × DePc ε × Option (Option ε)} (hr : deQueueStep s.queue s.consumer = some r) :
    deQueueLeft r.1 r.2.1 + 1 ≤ deQueueLeft s.queue s.consumer ∧ (r.2.1 = .idle → r.2.2.isSome) := by
  have hheld := hi.held
  cases hpc : s.consumer with
  | idle | nullHead | nullNext =>
    rw [hpc] at hr
    cases hr
  | loadHead =>
    obtain ⟨head, hhead, -⟩ := hi.shape.head_some
    rw [hpc] at hr
    simp only [deQueueStep, hhead, Option.some.injEq] at hr
    subst hr
    refine ⟨?_, fun he => by cases he⟩
    simp only [deQueueLeft]
    split <;> omega
  | loadNext _ | loadTail _ _ =>
    rw [hpc] at hr
    cases hr
    refine ⟨?_, fun he => by cases he⟩
    simp only [deQueueLeft]
    split <;> omega
  | checkHead curHead next curTail =>
    rw [hpc] at hr hheld
    have hcur : s.queue.mHead = some curHead := hheld.1.1
    simp only [deQueueStep, if_pos hcur, Option.some.injEq] at hr
    subst hr
    refine ⟨?_, fun he => by cases he⟩
    simp only [deQueueLeft]
    split <;> omega
  | compareTail curHead next curTail =>
    rw [hpc] at hr hheld
    obtain ⟨⟨-, n, rfl, -⟩, -⟩ := hheld
    by_cases htail : some curTail = s.queue.mHead
    · simp only [deQueueStep, if_pos htail, Option.some.injEq] at hr
      subst hr
      refine ⟨?_, fun he => by cases he⟩
      simp [deQueueLeft, htail]
    · simp only [deQueueStep, if_neg htail, Option.some.injEq] at hr
      subst hr
      refine ⟨?_, fun he => by cases he⟩
      simp [deQueueLeft, htail]
  | helpTail next curTail =>
    rw [hpc] at hr hheld
    cases hr
    refine ⟨?_, fun he => by cases he⟩
    -- the tail is behind the head, whoever has moved it
    have hmoved : some (s.queue.casTail curTail next).mTail ≠ (s.queue.casTail curTail next).mHead := by
      rw [(s.queue.casTail_frame curTail next).2.1, ← hi.shape.head, hheld.1]
      by_cases htail : s.queue.mTail = curTail
      · rw [LockFreeQueue.casTail, if_pos htail]
        intro he
        have hplace := hi.shape.place_unique (hheld.1.trans he.symm) hheld.2
        omega
      · rw [LockFreeQueue.casTail, if_neg htail]
        exact fun he => htail (Option.some.inj he)
    simp [deQueueLeft, hmoved]
  | moveHead curHead next =>
    rw [hpc] at hr hheld
    obtain ⟨⟨hcur, n, rfl, -⟩, -⟩ := hheld
    simp only [deQueueStep, if_pos hcur, Option.some.injEq] at hr
    subst hr
    exact ⟨by simp [deQueueLeft], fun he => by cases he⟩
  | subSize element =>
    rw [hpc] at hr
    cases hr
    exact ⟨le_refl _, fun _ => rfl⟩

omit [DecidableEq ι] in
/-- Producers move the tail away from the head only. -/
theorem Moves.consumer_left (hm : Moves s s' chain) (hi : QueueInv s chain hd t linked)
    (hhead : s'.queue.mHead = s.queue.mHead) (pc : DePc ε) :
    deQueueLeft s'.queue pc ≤ deQueueLeft s.queue pc := by
  have htail : some s'.queue.mTail = s.queue.mHead → some s.queue.mTail = s.queue.mHead := by
    intro he
    cases hm with
    | quiet tail _ _ | link _ _ tail _ _ => rwa [tail] at he
    | swing tail tail' _ _ =>
      rw [hi.shape.next t _ hi.shape.tail] at tail
      rw [tail', ← hi.shape.head] at he
      have hplace := hi.shape.place_unique tail he.symm
      have horder := hi.shape.order
      omega
  have hmono : ∀ m n : ℕ, n ≤ m → (if some s'.queue.mTail = s'.queue.mHead then m else n)
      ≤ if some s.queue.mTail = s.queue.mHead then m else n := by
    intro m n hle
    rw [hhead]
    by_cases he : some s'.queue.mTail = s.queue.mHead
    · rw [if_pos he, if_pos (htail he)]
    · rw [if_neg he]
      split <;> omega
  cases pc with
  | idle | nullHead | nullNext | helpTail _ _ | moveHead _ _ | subSize _ => exact le_refl _
  | loadHead | loadNext _ | loadTail _ _ => exact hmono _ _ (by omega)
  | checkHead _ _ _ | compareTail _ _ _ =>
    simp only [deQueueLeft, hhead]
    exact le_refl _

end Consumer

namespace QueueAct

def consumes : QueueAct ι ε → Bool
  | .consumer => true
  | _ => false

end QueueAct

omit [DecidableEq ι] in
theorem queueStep_consumer [DecidableEq ι] {s s' : QueueState ι ε} (hcall : s.consumer ≠ .idle)
    (h : queueStep s .consumer = some s') : ∃ r, deQueueStep s.queue s.consumer = some r ∧
      s' = { s with queue := r.1, consumer := r.2.1, dequeued := s.dequeued ++ r.2.2.toList } := by
  have hstep : queueStep s .consumer = (deQueueStep s.queue s.consumer).map fun r =>
      { s with queue := r.1, consumer := r.2.1, dequeued := s.dequeued ++ r.2.2.toList } := by
    simp only [queueStep]
  rw [hstep] at h
  obtain ⟨r, hr, he⟩ := Option.map_eq_some_iff.mp h
  exact ⟨r, hr, he.symm⟩

theorem queueStep_dequeued (n : ℕ) (s : QueueState ι ε) (a : QueueAct ι ε) (s' : QueueState ι ε)
    (hn : n ≤ s.dequeued.length) (h : queueStep s a = some s') : n ≤ s'.dequeued.length := by
  cases a with
  | enQueue i element =>
    obtain ⟨-, rfl⟩ := queueStep_enQueue h
    exact hn
  | producer i =>
    obtain ⟨r, -, rfl⟩ := Option.map_eq_some_iff.mp h
    exact hn
  | consumer =>
    by_cases hidle : s.consumer = .idle
    · simp only [queueStep, hidle, Option.some.injEq] at h
      subst h
      exact hn
    · obtain ⟨r, -, rfl⟩ := queueStep_consumer hidle h
      rw [List.length_append]
      omega

/-- A step of a producer, for the call of Dequeue. -/
theorem queueStep_others {s s' : QueueState ι ε} {a : QueueAct ι ε} (h : queueStep s a = some s')
    (hnot : a.consumes = false) :
    s'.consumer = s.consumer ∧ s'.dequeued = s.dequeued ∧ s'.queue.mHead = s.queue.mHead := by
  cases a with
  | enQueue i element =>
    obtain ⟨-, rfl⟩ := queueStep_enQueue h
    exact ⟨rfl, rfl, rfl⟩
  | producer i =>
    obtain ⟨r, hr, rfl⟩ := Option.map_eq_some_iff.mp h
    exact ⟨rfl, rfl, (enQueueStep_mHead hr).1⟩
  | consumer => cases hnot

theorem consumer_returns (as : List (QueueAct ι ε)) (s s' : QueueState ι ε) (hs : Progress s)
    (h : interleave queueStep s as = some s') (hcall : s.consumer ≠ .idle)
    (hsteps : deQueueLeft s.queue s.consumer ≤ as.countP QueueAct.consumes) :
    s.dequeued.length < s'.dequeued.length := by
  induction as generalizing s with
  | nil =>
    obtain ⟨chain, hd, t, linked, hi, -⟩ := hs
    have hpos := hi.left_pos hcall
    rw [List.countP_nil] at hsteps
    omega
  | cons a as ih =>
    obtain ⟨s1, hstep, hrest⟩ := interleave_cons h
    have hs1 := progress_step s a s1 hs hstep
    obtain ⟨chain, hd, t, linked, hi, hclose⟩ := hs
    rw [List.countP_cons] at hsteps
    cases ha : a.consumes with
    | true =>
      have hconsumer : a = .consumer := by
        cases a with
        | enQueue _ _ | producer _ => cases ha
        | consumer => rfl
      rw [ha, if_pos rfl] at hsteps
      rw [hconsumer] at hstep
      obtain ⟨r, hr, rfl⟩ := queueStep_consumer hcall hstep
      obtain ⟨hleft, hlast⟩ := hi.consumer_left hr
      by_cases hidle : r.2.1 = .idle
      · obtain ⟨element, helement⟩ := Option.isSome_iff_exists.mp (hlast hidle)
        refine interleave_invariant (queueStep_dequeued (s.dequeued.length + 1)) as _ s' ?_ hrest
        simp [helement]
      · have hlater := ih _ hs1 hrest hidle (by dsimp only; omega)
        rw [List.length_append] at hlater
        omega
    | false =>
      obtain ⟨hsame, hdequeued, hhead⟩ := queueStep_others hstep ha
      have hleft := (hi.moves hstep).consumer_left hi hhead s.consumer
      rw [ha] at hsteps
      rw [← hdequeued]
      apply ih s1 hs1 hrest (by rw [hsame]; exact hcall)
      rw [hsame]
      simp only [Bool.false_eq_true, if_false] at hsteps
      omega

/-- In no reachable state is the consumer without a next step. -/
theorem Progress.consumer_goes_on {s : QueueState ι ε} (hs : Progress s) :
    (queueStep s .consumer).isSome := by
  obtain ⟨chain, hd, t, linked, hi, -⟩ := hs
  have hheld := hi.held
  obtain ⟨head, hhead, -⟩ := hi.shape.head_some
  cases hpc : s.consumer with
  | idle => simp [queueStep, hpc]
  | nullHead | nullNext =>
    rw [hpc] at hheld
    exact hheld.elim
  | loadHead => simp [queueStep, deQueueStep, hpc, hhead]
  | loadNext _ | loadTail _ _ | checkHead _ _ _ | helpTail _ _ | subSize _ =>
    simp [queueStep, deQueueStep, hpc]
  | compareTail _ next _ | moveHead _ next =>
    simp only [queueStep, deQueueStep, hpc, Option.isSome_map]
    repeat' split
    all_goals rfl

/-- Wait-freedom: the only consumer can always go on, and thirteen of its steps bring a call of Dequeue
to an end, whatever the producers do. -/
theorem dequeue_waitFree (before : List (QueueAct ι ε)) (s : QueueState ι ε)
    (hbefore : interleave queueStep {} before = some s) :
    (queueStep s .consumer).isSome ∧ ∀ as s', interleave queueStep s as = some s' →
      s.consumer ≠ .idle → 13 ≤ as.countP QueueAct.consumes →
      s.dequeued.length < s'.dequeued.length := by
  have hs : Progress s := interleave_invariant progress_step before {} s progress_start hbefore
  refine ⟨hs.consumer_goes_on, fun as s' h hcall hsteps => ?_⟩
  exact consumer_returns as s s' hs h hcall ((deQueueLeft_le _ _).trans hsteps)

/-- The consumer has begun before the producer moves the tail. -/
def begun : List (QueueAct ℕ ℕ) := [.enQueue 0 7] ++ List.replicate 6 (.producer 0) ++ [.consumer]

def consumed : List (QueueAct ℕ ℕ) :=
  List.replicate 6 .consumer ++ [.producer 0] ++ List.replicate 7 .consumer

theorem dequeue_waitFree_one : ∃ s s' : QueueState ℕ ℕ,
    interleave queueStep {} begun = some s ∧ interleave queueStep s consumed = some s' ∧
    (queueStep s .consumer).isSome ∧ s.dequeued.length < s'.dequeued.length := by
  obtain ⟨s, hs, hcall, s', hs'⟩ : ∃ s : QueueState ℕ ℕ, interleave queueStep {} begun = some s ∧
      s.consumer = .loadHead ∧ ∃ s', interleave queueStep s consumed = some s' :=
    ⟨_, rfl, rfl, _, rfl⟩
  obtain ⟨hsome, hreturns⟩ := dequeue_waitFree begun s hs
  refine ⟨s, s', hs, hs', hsome, hreturns consumed s' hs' ?_ (by decide)⟩
  rw [hcall]
  exact fun h => by cases h

end DeftRpc.Concurrent
