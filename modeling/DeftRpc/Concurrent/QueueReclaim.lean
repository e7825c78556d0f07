import DeftRpc.Concurrent.QueueOrder

/-!
# The nodes that Dequeue deletes

The consumer deletes the old head after it has moved the head on. A producer that has
loaded the tail earlier may still be about to use `m_next_` of that node.
-/

namespace DeftRpc.Concurrent
open DeftRpc.Foundation

variable {ι ε : Type}

namespace EnPc

/-- The node whose `m_next_` the next access of the call loads or compare-exchanges. -/
def access : EnPc ε → Option Addr
  | .loadNext _ curTail | .linkNext _ curTail => some curTail
  | _ => none

end EnPc

/-- `curHead` is the old head of a call that has moved the head on and not deleted it yet. -/
structure ReclaimState (ι ε : Type) where
  run : QueueState ι ε := {}
  curHead : Option Addr := none
  deleted : List Addr := []

inductive ReclaimAct (ι ε : Type) where
  | queue (a : QueueAct ι ε)
  | delete

/-- The old head of a compare-exchange on `m_head_` that succeeds. -/
def movedHead (s : QueueState ι ε) : QueueAct ι ε → Option Addr
  | .consumer =>
    match s.consumer with
    | .moveHead curHead _ => if s.queue.mHead = some curHead then some curHead else none
    | _ => none
  | _ => none

/-- The consumer has counted its element off and comes to `delete cur_head` next. -/
def ReclaimState.deletes (s : ReclaimState ι ε) : Option Addr :=
  match s.run.consumer with
  | .idle => s.curHead
  | _ => none

variable [DecidableEq ι]

def reclaimStep (s : ReclaimState ι ε) : ReclaimAct ι ε → Option (ReclaimState ι ε)
  | .queue .consumer =>
    match s.deletes with
    | some _ => none
    | none => (queueStep s.run .consumer).map fun run =>
        { s with run := run, curHead := (movedHead s.run .consumer).or s.curHead }
  | .queue a => (queueStep s.run a).map fun run => { s with run := run }
  | .delete =>
    match s.deletes with
    | some node => some { s with curHead := none, deleted := s.deleted ++ [node] }
    | none => none

def ReclaimState.Unused (s : ReclaimState ι ε) : Prop :=
  ∀ i a, (s.run.producers i).access = some a → a ∉ s.deleted

/-- The node that is deleted is not the one a producer has loaded as its tail and is about to
use. -/
def DeletesUnused (s : ReclaimState ι ε) : ReclaimAct ι ε → Prop
  | .delete => ∀ i a, (s.run.producers i).access = some a → s.deletes ≠ some a
  | .queue _ => True

/-! ### What a step of a producer loads -/

omit [DecidableEq ι] in
theorem enQueueStep_access {q : LockFreeQueue ε} {pc : EnPc ε}
    {r : LockFreeQueue ε × EnPc ε × Option ε} (hr : enQueueStep q pc = some r) {a : Addr}
    (ha : r.2.1.access = some a) : q.mTail = a := by
  cases pc with
  | idle => cases hr
  | loadTail newNode =>
    cases hr
    exact Option.some.inj ha
  | storeNext _ _ | loadNext _ _ | addSize _ _ | swingTail _ _ | helpTail _ _ _ =>
    cases hr
    cases ha
  | checkTail newNode curTail curTailNext =>
    by_cases htail : q.mTail = curTail
    · cases curTailNext with
      | none =>
        simp only [enQueueStep, if_pos htail, Option.some.injEq] at hr
        subst hr
        exact htail.trans (Option.some.inj ha)
      | some next =>
        simp only [enQueueStep, if_pos htail, Option.some.injEq] at hr
        subst hr
        cases ha
    · simp only [enQueueStep, if_neg htail, Option.some.injEq] at hr
      subst hr
      cases ha
  | linkNext newNode curTail =>
    simp only [enQueueStep] at hr
    split at hr <;> cases hr <;> cases ha

/-- A producer is about to use the node it was about to use before, or the tail. -/
theorem queueStep_access {s s' : QueueState ι ε} {a : QueueAct ι ε} (h : queueStep s a = some s')
    {i : ι} {x : Addr} (hx : (s'.producers i).access = some x) :
    (s.producers i).access = some x ∨ s.queue.mTail = x := by
  cases a with
  | enQueue j element =>
    obtain ⟨-, rfl⟩ := queueStep_enQueue h
    dsimp only at hx
    by_cases hij : i = j
    · subst hij
      rw [Function.update_self] at hx
      cases hx
    · rw [Function.update_of_ne hij] at hx
      exact Or.inl hx
  | producer j =>
    obtain ⟨r, hr, he⟩ := Option.map_eq_some_iff.mp h
    subst he
    dsimp only at hx
    by_cases hij : i = j
    · subst hij
      rw [Function.update_self] at hx
      exact Or.inr (enQueueStep_access hr hx)
    · rw [Function.update_of_ne hij] at hx
      exact Or.inl hx
  | consumer =>
    left
    cases hpc : s.consumer with
    | idle =>
      simp only [queueStep, hpc, Option.some.injEq] at h
      subst h
      exact hx
    | loadHead | loadNext _ | loadTail _ _ | checkHead _ _ _ | compareTail _ _ _ | helpTail _ _
    | moveHead _ _ | subSize _ | nullHead | nullNext =>
      simp only [queueStep, hpc] at h
      obtain ⟨r, -, he⟩ := Option.map_eq_some_iff.mp h
      subst he
      exact hx

/-! ### The invariant -/

structure ReclaimInv (s : ReclaimState ι ε) (chain : List Addr) (h t : ℕ) (linked : Finset ι) :
    Prop where
  queue : QueueInv s.run chain h t linked
  passed : ∀ a, a ∈ s.deleted ∨ s.curHead = some a → ∃ k, k < h ∧ chain[k]? = some a
  unused : s.Unused

def Reclaimed (s : ReclaimState ι ε) : Prop := ∃ chain h t linked, ReclaimInv s chain h t linked

omit [DecidableEq ι] in
theorem reclaimed_start : Reclaimed ({} : ReclaimState ι ε) := by
  obtain ⟨chain, h, t, linked, hi⟩ := ordered_start (ι := ι) (ε := ε)
  refine ⟨chain, h, t, linked, hi, ?_, ?_⟩
  · rintro a (ha | ha) <;> cases ha
  · intro i a ha
    cases ha

variable {s : ReclaimState ι ε} {chain : List Addr} {h t : ℕ} {linked : Finset ι}

omit [DecidableEq ι] in
theorem ReclaimInv.tail_kept (hi : ReclaimInv s chain h t linked) : s.run.queue.mTail ∉ s.deleted := by
  intro hdel
  obtain ⟨k, hk, hplace⟩ := hi.passed _ (Or.inl hdel)
  have hkt := hi.queue.shape.place_unique hplace hi.queue.shape.tail
  have horder := hi.queue.shape.order
  omega

theorem QueueInv.movedHead_passed {s s' : QueueState ι ε} {chain' : List Addr} {h' t' : ℕ}
    {linked' : Finset ι} (hi : QueueInv s chain h t linked) {a : QueueAct ι ε}
    (hstep : queueStep s a = some s') (hpre : chain <+: chain') (hi' : QueueInv s' chain' h' t' linked')
    {x : Addr} (hx : movedHead s a = some x) : ∃ k, k < h' ∧ chain'[k]? = some x := by
  obtain ⟨more, rfl⟩ := hpre
  cases a with
  | enQueue | producer => cases hx
  | consumer =>
    cases hpc : s.consumer with
    | moveHead curHead next =>
      have hheld := hi.held
      rw [hpc] at hheld
      obtain ⟨⟨hhead, n, hn, hplace⟩, -⟩ := hheld
      subst hn
      simp only [movedHead, hpc, if_pos hhead] at hx
      cases hx
      simp only [queueStep, hpc, deQueueStep, if_pos hhead, Option.map_some, Option.some.injEq] at hstep
      subst hstep
      have hnew := hi'.shape.place_unique (place_append hplace) hi'.shape.head
      refine ⟨h, by omega, place_append ?_⟩
      rw [hi.shape.head, hhead]
    | idle | loadHead | loadNext _ | loadTail _ _ | checkHead _ _ _ | compareTail _ _ _
    | helpTail _ _ | subSize _ | nullHead | nullNext =>
      simp only [movedHead, hpc] at hx
      cases hx

/-- A step of the queue, `curHead` being the old head if the step has moved the head. -/
theorem ReclaimInv.queueStep (hi : ReclaimInv s chain h t linked) {a : QueueAct ι ε}
    {run : QueueState ι ε} (hstep : queueStep s.run a = some run) :
    Reclaimed { s with run := run, curHead := (movedHead s.run a).or s.curHead } := by
  obtain ⟨chain', h', t', linked', hpre, hle, hi'⟩ := hi.queue.step hstep
  refine ⟨chain', h', t', linked', hi', ?_, ?_⟩
  · have hold : ∀ x, (∃ k, k < h ∧ chain[k]? = some x) → ∃ k, k < h' ∧ chain'[k]? = some x := by
      rintro x ⟨k, hk, hplace⟩
      obtain ⟨more, rfl⟩ := hpre
      exact ⟨k, by omega, place_append hplace⟩
    intro x hx
    rcases hx with hx | hx
    · exact hold x (hi.passed x (Or.inl hx))
    · cases hmoved : movedHead s.run a with
      | none =>
        rw [hmoved, Option.none_or] at hx
        exact hold x (hi.passed x (Or.inr hx))
      | some y =>
        rw [hmoved, Option.some_or] at hx
        cases hx
        exact hi.queue.movedHead_passed hstep hpre hi' hmoved
  · intro i x hx
    rcases queueStep_access hstep hx with hx | rfl
    · exact hi.unused i x hx
    · exact hi.tail_kept

theorem reclaimed_step (s : ReclaimState ι ε) (a : ReclaimAct ι ε) (s' : ReclaimState ι ε)
    (hs : Reclaimed s) (hok : DeletesUnused s a) (h : reclaimStep s a = some s') : Reclaimed s' := by
  obtain ⟨chain, hd, tl, linked, hi⟩ := hs
  cases a with
  | queue a =>
    cases a with
    | enQueue i element =>
      obtain ⟨run, hstep, he⟩ := Option.map_eq_some_iff.mp h
      subst he
      exact hi.queueStep hstep
    | producer i =>
      obtain ⟨run, hstep, he⟩ := Option.map_eq_some_iff.mp h
      subst he
      exact hi.queueStep hstep
    | consumer =>
      simp only [reclaimStep] at h
      split at h
      · cases h
      · obtain ⟨run, hstep, he⟩ := Option.map_eq_some_iff.mp h
        subst he
        exact hi.queueStep hstep
  | delete =>
    simp only [reclaimStep] at h
    split at h
    · next node hdel =>
      cases h
      have hcur : s.curHead = some node := by
        unfold ReclaimState.deletes at hdel
        split at hdel
        · exact hdel
        · cases hdel
      refine ⟨chain, hd, tl, linked, hi.queue, ?_, ?_⟩
      · rintro a (ha | ha)
        · rcases List.mem_append.mp ha with ha | ha
          · exact hi.passed a (Or.inl ha)
          · rw [List.mem_singleton.mp ha]
            exact hi.passed node (Or.inr hcur)
        · cases ha
      · intro i a ha hmem
        rcases List.mem_append.mp hmem with hmem | hmem
        · exact hi.unused i a ha hmem
        · rw [List.mem_singleton.mp hmem] at ha
          exact hok i node ha hdel
    · cases h

/-! ### Every interleaving -/

theorem deletesUnused_of_unused (s : ReclaimState ι ε) (a : ReclaimAct ι ε) (s' : ReclaimState ι ε)
    (h : reclaimStep s a = some s') (hunused : s'.Unused) : DeletesUnused s a := by
  cases a with
  | queue a => trivial
  | delete =>
    intro i a ha hdel
    simp only [reclaimStep, hdel, Option.some.injEq] at h
    subst h
    exact hunused i a ha (List.mem_append_right _ (List.mem_singleton_self a))

/-- In an interleaving no producer is ever about to use `m_next_` of a deleted node exactly when
no delete hits the node that a producer is about to use. -/
theorem unused_iff_deletesUnused (as : List (ReclaimAct ι ε)) (s : ReclaimState ι ε)
    (h : interleave reclaimStep {} as = some s) :
    (∀ before, before <+: as → ∀ t, interleave reclaimStep {} before = some t → t.Unused) ↔
      GoodSteps reclaimStep DeletesUnused {} as := by
  constructor
  · intro hgood
    exact goodSteps_of_states (I := fun _ => True) (fun _ _ _ _ _ => trivial)
      (fun s a s' _ _ hstep hunused => deletesUnused_of_unused s a s' hstep hunused) as {} s trivial h hgood
  · intro hok before hpre t ht
    obtain ⟨chain, hd, tl, linked, hi⟩ :=
      goodSteps_invariant reclaimed_step before {} t reclaimed_start (goodSteps_take hpre hok) ht
    exact hi.unused

/-- Producer 0 has loaded the first node as its tail when producer 1 links behind it, and the
consumer takes that element and deletes the first node. -/
def staleTail : List (ReclaimAct ℕ ℕ) :=
  [.queue (.enQueue 0 7), .queue (.producer 0), .queue (.producer 0), .queue (.enQueue 1 8)] ++
    List.replicate 7 (.queue (.producer 1)) ++ List.replicate 8 (.queue .consumer) ++ [.delete]

theorem staleTail_uses_deleted :
    (interleave reclaimStep {} staleTail).map
      (fun s => ((s.run.producers 0).access, s.deleted)) = some (some 0, [0]) := by
  decide +kernel

/-- Here producer 0 has loaded `m_next_` of the first node before the delete. -/
def movedOn : List (ReclaimAct ℕ ℕ) :=
  [.queue (.enQueue 0 7), .queue (.producer 0), .queue (.producer 0), .queue (.enQueue 1 8)] ++
    List.replicate 7 (.queue (.producer 1)) ++ [.queue (.producer 0)] ++
    List.replicate 8 (.queue .consumer) ++ [.delete]

theorem unused_iff_deletesUnused_two :
    ∃ s : ReclaimState ℕ ℕ, interleave reclaimStep {} movedOn = some s ∧
      ((s.run.producers 0).access, s.deleted) = (none, [0]) ∧
      ((∀ before, before <+: movedOn → ∀ t, interleave reclaimStep {} before = some t → t.Unused) ↔
        GoodSteps reclaimStep DeletesUnused {} movedOn) := by
  have hrun : (interleave reclaimStep {} movedOn).map
      (fun s => ((s.run.producers 0).access, s.deleted)) = some (none, [0]) := by
    decide +kernel
  obtain ⟨s, hs, he⟩ := Option.map_eq_some_iff.mp hrun
  exact ⟨s, hs, he, unused_iff_deletesUnused movedOn s hs⟩

end DeftRpc.Concurrent
