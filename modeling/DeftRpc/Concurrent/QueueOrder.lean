import DeftRpc.Concurrent.QueueProducers

/-!
# The consumer takes the elements in the order of their links

The count may lag the chain by the producers that have linked and not yet counted.
-/

namespace DeftRpc.Concurrent
open DeftRpc.Foundation

variable {ι ε : Type}

/-! ### What the consumer holds -/

def Behind (chain : List Addr) (h : ℕ) (next : Option Addr) : Prop :=
  ∃ n, next = some n ∧ chain[h + 1]? = some n

/-- What the local variables of the call say about the chain; only this call moves the head. -/
def Held (q : LockFreeQueue ε) (chain : List Addr) (h t : ℕ) : DePc ε → Prop
  | .idle | .loadHead | .subSize _ => True
  | .loadNext curHead => q.mHead = some curHead
  | .loadTail curHead next => q.mHead = some curHead ∧ Behind chain h next
  | .checkHead curHead next curTail | .compareTail curHead next curTail =>
    (q.mHead = some curHead ∧ Behind chain h next) ∧ ∃ k, h ≤ k ∧ k ≤ t ∧ chain[k]? = some curTail
  | .helpTail next curTail => chain[h]? = some curTail ∧ chain[h + 1]? = some next
  | .moveHead curHead next => (q.mHead = some curHead ∧ Behind chain h next) ∧ h < t
  | .nullHead | .nullNext => False

theorem Behind.append {chain : List Addr} {h : ℕ} {next : Option Addr} (hb : Behind chain h next)
    (more : List Addr) : Behind (chain ++ more) h next := by
  obtain ⟨n, hn, hk⟩ := hb
  exact ⟨n, hn, place_append hk⟩

theorem Held.mono {q q' : LockFreeQueue ε} {chain : List Addr} {h t t' : ℕ} {pc : DePc ε}
    (hh : Held q chain h t pc) (hhead : q'.mHead = q.mHead) (ht : t ≤ t') (more : List Addr) :
    Held q' (chain ++ more) h t' pc := by
  cases pc with
  | idle | loadHead | subSize _ => trivial
  | loadNext curHead => exact hhead.trans hh
  | loadTail curHead next => exact ⟨hhead.trans hh.1, hh.2.append more⟩
  | checkHead curHead next curTail | compareTail curHead next curTail =>
    obtain ⟨⟨hc, hb⟩, k, hk, hkt, hplace⟩ := hh
    exact ⟨⟨hhead.trans hc, hb.append more⟩, k, hk, le_trans hkt ht, place_append hplace⟩
  | helpTail next curTail => exact ⟨place_append hh.1, place_append hh.2⟩
  | moveHead curHead next =>
    exact ⟨⟨hhead.trans hh.1.1, hh.1.2.append more⟩, Nat.lt_of_lt_of_le hh.2 ht⟩
  | nullHead | nullNext => exact hh

/-! ### The invariant -/

/-- `linked` are the producers that have linked their node and not counted it. -/
structure QueueInv (s : QueueState ι ε) (chain : List Addr) (h t : ℕ) (linked : Finset ι) : Prop where
  shape : Chain s.queue chain h t
  own : ∀ i, Own s.queue chain (s.producers i)
  apart : ∀ i j a, (s.producers i).owned = some a → (s.producers j).owned = some a → i = j
  held : Held s.queue chain h t s.consumer
  uncounted : ∀ i, i ∈ linked ↔ (s.producers i).uncounted
  size : s.queue.mSize + linked.card + h + 1 = chain.length + s.consumer.taken.length
  positive : s.consumer.calling → 1 ≤ s.queue.mSize
  nonneg : 0 ≤ s.queue.mSize
  length : s.enqueued.length + 1 = chain.length
  elements : ∀ k a, chain[k + 1]? = some a → (s.queue.nodes a).mElement = s.enqueued[k]?
  dequeued : s.dequeued ++ s.consumer.taken = (s.enqueued.take h).map some

def Ordered (s : QueueState ι ε) : Prop := ∃ chain h t linked, QueueInv s chain h t linked

/-- The chain may have grown and the head may have moved on. -/
def Onward (chain : List Addr) (h : ℕ) (s : QueueState ι ε) : Prop :=
  ∃ chain' h' t' linked', chain <+: chain' ∧ h ≤ h' ∧ QueueInv s chain' h' t' linked'

theorem ordered_start : Ordered ({} : QueueState ι ε) := by
  refine ⟨[0], 0, 0, ∅, ⟨?_, ?_, ?_, rfl, rfl, le_refl 0⟩, ?_, ?_, trivial, ?_, rfl, ?_, le_refl 0,
    rfl, ?_, rfl⟩
  · exact List.nodup_singleton 0
  · intro a ha
    rw [List.mem_singleton.mp ha]
    exact Nat.one_pos
  · intro k a hk
    simp [LockFreeQueue.new]
  · exact fun i => trivial
  · intro i j a hi hj
    cases hi
  · intro i
    simp [EnPc.uncounted]
  · exact fun hc => hc.elim
  · intro k a hk
    simp at hk

variable [DecidableEq ι]

/-! ### Producers -/

omit [DecidableEq ι] in
theorem QueueInv.producing {s : QueueState ι ε} {chain : List Addr} {h t : ℕ} {linked : Finset ι}
    (hi : QueueInv s chain h t linked) : Producing s.queue s.producers s.enqueued chain h t :=
  ⟨hi.shape, hi.own, hi.apart, hi.length, hi.elements⟩

theorem uncounted_update {producers : ι → EnPc ε} {linked : Finset ι}
    (hl : ∀ i, i ∈ linked ↔ (producers i).uncounted) (i : ι) (pc : EnPc ε) :
    ∃ linked' : Finset ι, (∀ j, j ∈ linked' ↔ (Function.update producers i pc j).uncounted) ∧
      linked'.card + (if (producers i).uncounted then 1 else 0) =
        linked.card + (if pc.uncounted then 1 else 0) := by
  have hcard : (linked.erase i).card + (if (producers i).uncounted then 1 else 0) = linked.card := by
    split
    · next hin => exact Finset.card_erase_add_one ((hl i).mpr hin)
    · next hnot => rw [Finset.erase_eq_of_notMem fun hin => hnot ((hl i).mp hin), Nat.add_zero]
  by_cases hpc : pc.uncounted
  · refine ⟨insert i (linked.erase i), ?_, ?_⟩
    · intro j
      by_cases hj : j = i
      · subst hj
        simp [hpc]
      · simp [hj, hl j]
    · rw [Finset.card_insert_of_notMem (Finset.notMem_erase i linked), if_pos hpc]
      omega
  · refine ⟨linked.erase i, ?_, ?_⟩
    · intro j
      by_cases hj : j = i
      · subst hj
        simp [hpc]
      · simp [hj, hl j]
    · rw [if_neg hpc]
      exact hcard

theorem QueueInv.advance {s : QueueState ι ε} {chain : List Addr} {h t : ℕ} {linked : Finset ι}
    (hi : QueueInv s chain h t linked) {i : ι} {q : LockFreeQueue ε} {pc : EnPc ε}
    {enqueued : List ε} {more : List Addr} {t' : ℕ} (ht : t ≤ t') (hhead : q.mHead = s.queue.mHead)
    (hsize : s.queue.mSize ≤ q.mSize)
    (hp : Producing q (Function.update s.producers i pc) (s.enqueued ++ enqueued) (chain ++ more) h t')
    (hcount : q.mSize + (if pc.uncounted then 1 else 0) =
      s.queue.mSize + (if (s.producers i).uncounted then 1 else 0) + more.length) :
    Onward chain h { s with
      queue := q, producers := Function.update s.producers i pc,
      enqueued := s.enqueued ++ enqueued } := by
  obtain ⟨linked', hlinked, hcard⟩ := uncounted_update hi.uncounted i pc
  have hsizes := hi.size
  have hnonneg := hi.nonneg
  refine ⟨chain ++ more, h, t', linked', List.prefix_append chain more, le_refl h, hp.shape,
    hp.own, hp.apart, hi.held.mono hhead ht more, hlinked, ?_, ?_, ?_, hp.length, hp.elements, ?_⟩
  · dsimp only
    rw [List.length_append]
    push_cast
    zify at hcard
    linarith
  · intro hc
    have hpos := hi.positive hc
    dsimp only
    omega
  · dsimp only
    omega
  · have hle : h ≤ s.enqueued.length := by
      have hlt := hi.shape.head_lt
      have hlen := hi.length
      omega
    show s.dequeued ++ s.consumer.taken = _
    rw [List.take_append_of_le_length hle]
    exact hi.dequeued

theorem QueueInv.call {s : QueueState ι ε} {chain : List Addr} {h t : ℕ} {linked : Finset ι}
    (hi : QueueInv s chain h t linked) {i : ι} (hpc : s.producers i = .idle) (element : ε) :
    Onward chain h { s with
      queue := (enQueueCall s.queue element).1,
      producers := Function.update s.producers i (enQueueCall s.queue element).2 } := by
  have hp := hi.producing.call i element
  rw [← List.append_nil s.enqueued, ← List.append_nil chain] at hp
  have hcount : s.queue.mSize + (if (enQueueCall s.queue element).2.uncounted then 1 else 0) =
      s.queue.mSize + (if (s.producers i).uncounted then 1 else 0) + (([] : List Addr).length : ℤ) := by
    simp [hpc, enQueueCall, EnPc.uncounted]
  have hadv := hi.advance (q := (enQueueCall s.queue element).1) (le_refl t) rfl (le_refl _) hp hcount
  rwa [List.append_nil] at hadv

theorem QueueInv.producerStep {s : QueueState ι ε} {chain : List Addr} {h t : ℕ} {linked : Finset ι}
    (hi : QueueInv s chain h t linked) {i : ι} {r : LockFreeQueue ε × EnPc ε × Option ε}
    (hr : enQueueStep s.queue (s.producers i) = some r) :
    Onward chain h { s with
      queue := r.1, producers := Function.update s.producers i r.2.1,
      enqueued := s.enqueued ++ r.2.2.toList } := by
  obtain ⟨more, t', ht, hp, hcount⟩ := hi.producing.step hr
  obtain ⟨hhead, hsize⟩ := enQueueStep_mHead hr
  exact hi.advance ht hhead hsize hp hcount

/-! ### The consumer -/

omit [DecidableEq ι] in
theorem QueueInv.wait {s : QueueState ι ε} {chain : List Addr} {h t t' : ℕ} {linked : Finset ι}
    (hi : QueueInv s chain h t linked) (q : LockFreeQueue ε) (pc : DePc ε)
    (hchain : Chain q chain h t') (hsize : q.mSize = s.queue.mSize)
    (hunused : q.unused = s.queue.unused) (hnodes : q.nodes = s.queue.nodes)
    (hheld : Held q chain h t' pc) (htaken : pc.taken = s.consumer.taken)
    (hpos : pc.calling → 1 ≤ s.queue.mSize) : Onward chain h { s with queue := q, consumer := pc } := by
  refine ⟨chain, h, t', linked, List.prefix_rfl, le_refl h, hchain, ?_, hi.apart, hheld, hi.uncounted,
    ?_, ?_, ?_, hi.length, ?_, ?_⟩
  · intro i
    exact (hi.own i).mono_same (le_of_eq hunused.symm) fun a _ => by rw [hnodes]
  · dsimp only
    rw [hsize, htaken]
    exact hi.size
  · dsimp only
    rw [hsize]
    exact hpos
  · dsimp only
    rw [hsize]
    exact hi.nonneg
  · dsimp only
    rw [hnodes]
    exact hi.elements
  · dsimp only
    rw [htaken]
    exact hi.dequeued

omit [DecidableEq ι] in
/-- A call that has not taken an element finds one behind the head. -/
theorem QueueInv.behind {s : QueueState ι ε} {chain : List Addr} {h t : ℕ} {linked : Finset ι}
    (hi : QueueInv s chain h t linked) (hc : s.consumer.calling) (ht : s.consumer.taken = []) :
    Behind chain h chain[h + 1]? := by
  have hsize := hi.size
  have hpos := hi.positive hc
  rw [ht, List.length_nil] at hsize
  have hlt : h + 1 < chain.length := by
    have hcard : (0 : ℤ) ≤ linked.card := Int.natCast_nonneg _
    omega
  exact ⟨chain[h + 1], List.getElem?_eq_getElem hlt, List.getElem?_eq_getElem hlt⟩

omit [DecidableEq ι] in
/-- The successful compare-exchange on m_head_. -/
theorem QueueInv.take {s : QueueState ι ε} {chain : List Addr} {h t : ℕ} {linked : Finset ι}
    (hi : QueueInv s chain h t linked) {n : Addr} (hn : chain[h + 1]? = some n) (hlt : h < t)
    (hc : s.consumer.calling) (ht : s.consumer.taken = []) :
    Onward chain h { s with
      queue := { s.queue with mHead := some n }, consumer := .subSize (s.queue.nodes n).mElement } := by
  have hsize := hi.size
  have hlen := (List.getElem?_eq_some_iff.mp hn).1
  have hlength := hi.length
  have helement := hi.elements h n hn
  have hdeq := hi.dequeued
  rw [ht] at hsize hdeq
  refine ⟨chain, h + 1, t, linked, List.prefix_rfl, Nat.le_succ h, ?_, ?_, hi.apart, trivial,
    hi.uncounted, ?_, ?_, hi.nonneg, hi.length, hi.elements, ?_⟩
  · exact ⟨hi.shape.nodup, hi.shape.below, hi.shape.next, hn, hi.shape.tail, hlt⟩
  · intro i
    exact (hi.own i).mono_same (le_refl _) fun _ _ => rfl
  · dsimp only [DePc.taken, List.length_singleton]
    rw [List.length_nil] at hsize
    push_cast
    omega
  · exact fun _ => hi.positive hc
  · dsimp only [DePc.taken]
    rw [List.append_nil] at hdeq
    rw [hdeq, helement, List.take_add_one, List.map_append]
    rw [List.getElem?_eq_getElem (by omega)]
    rfl

omit [DecidableEq ι] in
theorem QueueInv.give {s : QueueState ι ε} {chain : List Addr} {h t : ℕ} {linked : Finset ι}
    (hi : QueueInv s chain h t linked) {element : Option ε} (hpc : s.consumer = .subSize element) :
    Onward chain h { s with
      queue := { s.queue with mSize := s.queue.mSize - 1 }, consumer := .idle,
      dequeued := s.dequeued ++ [element] } := by
  have hsize := hi.size
  have hdeq := hi.dequeued
  have hpos := hi.positive (by rw [hpc]; trivial)
  rw [hpc] at hsize hdeq
  refine ⟨chain, h, t, linked, List.prefix_rfl, le_refl h, ?_, ?_, hi.apart, trivial, hi.uncounted,
    ?_, ?_, ?_, hi.length, hi.elements, ?_⟩
  · exact hi.shape.congr rfl rfl (le_refl _) fun _ _ => rfl
  · intro i
    exact (hi.own i).mono_same (le_refl _) fun _ _ => rfl
  · simp only [DePc.taken, List.length_singleton, List.length_nil] at hsize ⊢
    push_cast at hsize ⊢
    omega
  · exact fun hc => hc.elim
  · dsimp only
    omega
  · dsimp only [DePc.taken] at hdeq ⊢
    rw [List.append_nil]
    exact hdeq

omit [DecidableEq ι] in
theorem QueueInv.consumerStep {s : QueueState ι ε} {chain : List Addr} {h t : ℕ}
    {linked : Finset ι} (hi : QueueInv s chain h t linked)
    {r : LockFreeQueue ε × DePc ε × Option (Option ε)}
    (hr : deQueueStep s.queue s.consumer = some r) :
    Onward chain h { s with queue := r.1, consumer := r.2.1, dequeued := s.dequeued ++ r.2.2.toList } := by
  have hheld := hi.held
  have hquiet : ∀ pc, Held s.queue chain h t pc → pc.taken = s.consumer.taken →
      s.consumer.calling → Onward chain h { s with consumer := pc } := by
    intro pc hpc ht hc
    exact hi.wait s.queue pc hi.shape rfl rfl rfl hpc ht fun _ => hi.positive hc
  cases hpc : s.consumer with
  | idle | nullHead | nullNext =>
    rw [hpc] at hr
    cases hr
  | loadHead =>
    obtain ⟨head, hhead, -⟩ := hi.shape.head_some
    rw [hpc] at hr
    simp only [deQueueStep, hhead, Option.some.injEq] at hr
    subst hr
    simp only [Option.toList_none, List.append_nil]
    exact hquiet _ hhead (by rw [hpc]; rfl) (by rw [hpc]; trivial)
  | loadNext curHead =>
    rw [hpc] at hr hheld
    cases hr
    have hcur : s.queue.mHead = some curHead := hheld
    have hbehind := hi.behind (by rw [hpc]; trivial) (by rw [hpc]; rfl)
    rw [← hi.shape.next h curHead (hi.shape.head.trans hcur)] at hbehind
    simp only [Option.toList_none, List.append_nil]
    exact hquiet _ ⟨hcur, hbehind⟩ (by rw [hpc]; rfl) (by rw [hpc]; trivial)
  | loadTail curHead next =>
    rw [hpc] at hr hheld
    cases hr
    simp only [Option.toList_none, List.append_nil]
    exact hquiet _ ⟨hheld, t, hi.shape.order, le_refl t, hi.shape.tail⟩ (by rw [hpc]; rfl)
      (by rw [hpc]; trivial)
  | checkHead curHead next curTail =>
    rw [hpc] at hr hheld
    have hcur : s.queue.mHead = some curHead := hheld.1.1
    simp only [deQueueStep, if_pos hcur, Option.some.injEq] at hr
    subst hr
    simp only [Option.toList_none, List.append_nil]
    exact hquiet _ hheld (by rw [hpc]; rfl) (by rw [hpc]; trivial)
  | compareTail curHead next curTail =>
    rw [hpc] at hr hheld
    obtain ⟨⟨hcur, n, hn, hplace⟩, k, hhk, hkt, hk⟩ := hheld
    subst hn
    by_cases htail : some curTail = s.queue.mHead
    · simp only [deQueueStep, if_pos htail, Option.some.injEq] at hr
      subst hr
      simp only [Option.toList_none, List.append_nil]
      refine hquiet _ ⟨?_, hplace⟩ (by rw [hpc]; rfl) (by rw [hpc]; trivial)
      exact hi.shape.head.trans htail.symm
    · -- The tail that was read is another node than the head, so it is behind it.
      have hlt : h < t := by
        rcases Nat.lt_or_eq_of_le hhk with hlt | rfl
        · exact Nat.lt_of_lt_of_le hlt hkt
        · rw [hi.shape.head] at hk
          exact absurd hk.symm htail
      simp only [deQueueStep, if_neg htail, Option.some.injEq] at hr
      subst hr
      simp only [Option.toList_none, List.append_nil]
      exact hquiet _ ⟨⟨hcur, n, rfl, hplace⟩, hlt⟩ (by rw [hpc]; rfl) (by rw [hpc]; trivial)
  | helpTail next curTail =>
    rw [hpc] at hr hheld
    cases hr
    obtain ⟨t', -, hchain⟩ := hi.shape.casTail hheld.1 hheld.2
    obtain ⟨hnodes, -, hsize, hunused⟩ := s.queue.casTail_frame curTail next
    simp only [Option.toList_none, List.append_nil]
    exact hi.wait _ .loadHead hchain hsize hunused hnodes trivial (by rw [hpc]; rfl)
      fun _ => hi.positive (by rw [hpc]; trivial)
  | moveHead curHead next =>
    rw [hpc] at hr hheld
    obtain ⟨⟨hcur, n, hn, hplace⟩, hlt⟩ := hheld
    subst hn
    simp only [deQueueStep, if_pos hcur, Option.some.injEq] at hr
    subst hr
    simp only [Option.toList_none, List.append_nil]
    exact hi.take hplace hlt (by rw [hpc]; trivial) (by rw [hpc]; rfl)
  | subSize element =>
    rw [hpc] at hr
    cases hr
    exact hi.give hpc

theorem QueueInv.step {s s' : QueueState ι ε} {chain : List Addr} {hd tl : ℕ} {linked : Finset ι}
    (hi : QueueInv s chain hd tl linked) {a : QueueAct ι ε} (h : queueStep s a = some s') :
    Onward chain hd s' := by
  cases a with
  | enQueue i element =>
    obtain ⟨hpc, rfl⟩ := queueStep_enQueue h
    exact hi.call hpc element
  | producer i =>
    obtain ⟨r, hr, he⟩ := Option.map_eq_some_iff.mp h
    subst he
    exact hi.producerStep hr
  | consumer =>
    by_cases hidle : s.consumer = .idle
    · simp only [queueStep, hidle, Option.some.injEq] at h
      subst h
      by_cases hsize : 0 < s.queue.size
      · rw [if_pos hsize]
        refine hi.wait s.queue .loadHead hi.shape rfl rfl rfl trivial (by rw [hidle]; rfl) fun _ => ?_
        have hnonneg := hi.nonneg
        unfold LockFreeQueue.size at hsize
        omega
      · rw [if_neg hsize]
        exact hi.wait s.queue .idle hi.shape rfl rfl rfl trivial (by rw [hidle]) fun hc => hc.elim
    · have hcall : queueStep s .consumer = (deQueueStep s.queue s.consumer).map fun r =>
          { s with queue := r.1, consumer := r.2.1, dequeued := s.dequeued ++ r.2.2.toList } := by
        simp only [queueStep]
      rw [hcall] at h
      obtain ⟨r, hr, he⟩ := Option.map_eq_some_iff.mp h
      subst he
      exact hi.consumerStep hr

theorem ordered_step (s : QueueState ι ε) (a : QueueAct ι ε) (s' : QueueState ι ε) (hs : Ordered s)
    (h : queueStep s a = some s') : Ordered s' := by
  obtain ⟨chain, hd, tl, linked, hi⟩ := hs
  obtain ⟨chain', hd', tl', linked', -, -, hi'⟩ := hi.step h
  exact ⟨chain', hd', tl', linked', hi'⟩

/-! ### Every interleaving -/

def LockFreeQueue.Reachable (q : LockFreeQueue ε) (a b : Addr) : Prop :=
  Relation.ReflTransGen (fun x y => (q.nodes x).mNext = some y) a b

theorem Chain.reachable {q : LockFreeQueue ε} {chain : List Addr} {h t : ℕ} (hc : Chain q chain h t)
    {j k : ℕ} {a b : Addr} (hj : chain[j]? = some a) (hk : chain[k]? = some b) (hle : j ≤ k) :
    q.Reachable a b := by
  induction k, hle using Nat.le_induction generalizing b with
  | base =>
    rw [hj] at hk
    cases hk
    exact .refl
  | succ k hle ih =>
    have hlt : k < chain.length := by
      have hk' := (List.getElem?_eq_some_iff.mp hk).1
      omega
    have hprev : chain[k]? = some chain[k] := List.getElem?_eq_getElem hlt
    exact (ih hprev).tail ((hc.next k _ hprev).trans hk)

/-- Any number of producers and the consumer that first reads Size() > 0, in every
interleaving of their accesses. -/
theorem dequeues_in_link_order (as : List (QueueAct ι ε)) (s : QueueState ι ε)
    (h : interleave queueStep {} as = some s) :
    s.dequeued <+: s.enqueued.map some ∧ s.consumer ≠ .nullNext ∧
      (∃ head, s.queue.mHead = some head ∧ s.queue.Reachable head s.queue.mTail) ∧
      0 ≤ s.queue.mSize := by
  obtain ⟨chain, hd, tl, linked, hi⟩ :=
    interleave_invariant ordered_step as {} s ordered_start h
  obtain ⟨head, hhead, hplace⟩ := hi.shape.head_some
  refine ⟨?_, ?_, ⟨head, hhead, hi.shape.reachable hplace hi.shape.tail hi.shape.order⟩, hi.nonneg⟩
  · have htake : (s.enqueued.take hd).map some <+: s.enqueued.map some :=
      (List.take_prefix hd s.enqueued).map some
    rw [← hi.dequeued] at htake
    exact (List.prefix_append _ _).trans htake
  · intro hnull
    have hheld := hi.held
    rw [hnull] at hheld
    exact hheld

/-- The consumer takes the first element before its producer has moved the tail. -/
theorem dequeues_in_link_order_two :
    ∃ s : QueueState ℕ ℕ, interleave queueStep {}
        (([.enQueue 0 7, .enQueue 1 8] : List (QueueAct ℕ ℕ)) ++ List.replicate 6 (.producer 0) ++
          List.replicate 5 .consumer ++ List.replicate 8 (.producer 1) ++
          List.replicate 9 .consumer ++ List.replicate 3 (.producer 1)) = some s ∧
      (s.enqueued, s.dequeued) = ([7, 8], [some 7]) ∧
      s.dequeued <+: s.enqueued.map some ∧ s.consumer ≠ .nullNext ∧
      (∃ head, s.queue.mHead = some head ∧ s.queue.Reachable head s.queue.mTail) ∧
      0 ≤ s.queue.mSize := by
  have reaches : ∀ as : List (QueueAct ℕ ℕ),
      (interleave queueStep {} as).map (fun s => (s.enqueued, s.dequeued)) = some ([7, 8], [some 7]) →
        ∃ s, interleave queueStep {} as = some s ∧ (s.enqueued, s.dequeued) = ([7, 8], [some 7]) :=
    fun _ hrun => Option.map_eq_some_iff.mp hrun
  refine (reaches _ ?_).imp fun s h => ⟨h.1, h.2, dequeues_in_link_order _ s h.1⟩
  decide

end DeftRpc.Concurrent
