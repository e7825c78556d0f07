import DeftRpc.Concurrent.LockFreeQueue

/-!
# What the calls of EnQueue keep

The linked nodes form a chain, in link order from the first node on. Head and
tail are places in it, the head never behind the tail. A step of a producer leaves
the head alone and extends the chain by the node it links.
-/

namespace DeftRpc.Concurrent
open DeftRpc.Foundation

variable {ι ε : Type}

/-! ### The chain -/

structure Chain (q : LockFreeQueue ε) (chain : List Addr) (h t : ℕ) : Prop where
  nodup : chain.Nodup
  below : ∀ a ∈ chain, a < q.unused
  next : ∀ k a, chain[k]? = some a → (q.nodes a).mNext = chain[k + 1]?
  head : chain[h]? = q.mHead
  tail : chain[t]? = some q.mTail
  order : h ≤ t

/-- The node of a call that has not linked it yet. -/
structure Private (q : LockFreeQueue ε) (chain : List Addr) (a : Addr) : Prop where
  below : a < q.unused
  unlinked : a ∉ chain
  last : (q.nodes a).mNext = none
  element : (q.nodes a).mElement.isSome = true

theorem place_append {chain more : List Addr} {k : ℕ} {a : Addr} (h : chain[k]? = some a) :
    (chain ++ more)[k]? = some a := by
  have hlt : k < chain.length := (List.getElem?_eq_some_iff.mp h).1
  rw [List.getElem?_append_left hlt]
  exact h

theorem Chain.place_unique {q : LockFreeQueue ε} {chain : List Addr} {h t : ℕ}
    (hc : Chain q chain h t) {j k : ℕ} {a : Addr} (hj : chain[j]? = some a)
    (hk : chain[k]? = some a) : j = k := by
  have hlt : j < chain.length := (List.getElem?_eq_some_iff.mp hj).1
  exact (List.getElem?_inj hlt hc.nodup).mp (hj.trans hk.symm)

theorem Chain.head_lt {q : LockFreeQueue ε} {chain : List Addr} {h t : ℕ} (hc : Chain q chain h t) :
    h < chain.length :=
  Nat.lt_of_le_of_lt hc.order (List.getElem?_eq_some_iff.mp hc.tail).1

theorem Chain.head_some {q : LockFreeQueue ε} {chain : List Addr} {h t : ℕ} (hc : Chain q chain h t) :
    ∃ head, q.mHead = some head ∧ chain[h]? = some head :=
  ⟨chain.get ⟨h, hc.head_lt⟩, hc.head.symm.trans (List.getElem?_eq_getElem hc.head_lt),
    List.getElem?_eq_getElem hc.head_lt⟩

/-- A step that moves neither head nor tail and touches no linked node. -/
theorem Chain.congr {q q' : LockFreeQueue ε} {chain : List Addr} {h t : ℕ} (hc : Chain q chain h t)
    (hhead : q'.mHead = q.mHead) (htail : q'.mTail = q.mTail) (hunused : q.unused ≤ q'.unused)
    (hnodes : ∀ a ∈ chain, q'.nodes a = q.nodes a) : Chain q' chain h t where
  nodup := hc.nodup
  below a ha := Nat.lt_of_lt_of_le (hc.below a ha) hunused
  next k a hk := by
    rw [hnodes a (List.mem_of_getElem? hk)]
    exact hc.next k a hk
  head := by rw [hhead]; exact hc.head
  tail := by rw [htail]; exact hc.tail
  order := hc.order

theorem Chain.link {q : LockFreeQueue ε} {chain : List Addr} {h t : ℕ} (hc : Chain q chain h t)
    {a cur : Addr} (ha : Private q chain a) (hcur : cur ∈ chain)
    (hlast : (q.nodes cur).mNext = none) :
    Chain (q.setNode cur { q.nodes cur with mNext := some a }) (chain ++ [a]) h t ∧
      ∃ k, k + 1 = chain.length ∧ chain[k]? = some cur := by
  obtain ⟨k, hk⟩ := List.mem_iff_getElem?.mp hcur
  have hlt : k < chain.length := (List.getElem?_eq_some_iff.mp hk).1
  have hlen : k + 1 = chain.length := by
    have hnone := (hc.next k cur hk).symm.trans hlast
    have hle := List.getElem?_eq_none_iff.mp hnone
    omega
  refine ⟨⟨?_, ?_, ?_, ?_, place_append hc.tail, hc.order⟩, k, hlen, hk⟩
  · have hapart : chain.Disjoint [a] := by simpa using ha.unlinked
    exact List.Nodup.append hc.nodup (List.nodup_singleton a) hapart
  · intro b hb
    rcases List.mem_append.mp hb with hb | hb
    · exact hc.below b hb
    · rw [List.mem_singleton.mp hb]
      exact ha.below
  · intro j b hj
    show (Function.update q.nodes cur _ b).mNext = (chain ++ [a])[j + 1]?
    by_cases hjk : j < chain.length
    · rw [List.getElem?_append_left hjk] at hj
      by_cases hb : b = cur
      · subst hb
        have hjeq : j = k := hc.place_unique hj hk
        rw [Function.update_self, hjeq, hlen]
        simp
      · have hne : j ≠ k := by
          intro he
          rw [he, hk] at hj
          exact hb (Option.some.inj hj).symm
        rw [Function.update_of_ne hb, hc.next j b hj, List.getElem?_append_left (by omega)]
    · have hj' : j = chain.length ∧ b = a := by
        have hjlt := (List.getElem?_eq_some_iff.mp hj).1
        rw [List.length_append, List.length_singleton] at hjlt
        have he : j = chain.length := by omega
        rw [he] at hj
        simp at hj
        exact ⟨he, hj.symm⟩
      obtain ⟨he, rfl⟩ := hj'
      have hb : b ≠ cur := by
        intro hbc
        rw [hbc] at ha
        exact ha.unlinked hcur
      rw [Function.update_of_ne hb, ha.last, he]
      simp
  · rw [List.getElem?_append_left hc.head_lt]
    exact hc.head

/-- The tail moves on by at most one place. -/
theorem Chain.casTail {q : LockFreeQueue ε} {chain : List Addr} {h t k : ℕ} {cur next : Addr}
    (hc : Chain q chain h t) (hcur : chain[k]? = some cur) (hnext : chain[k + 1]? = some next) :
    ∃ t', t ≤ t' ∧ Chain (q.casTail cur next) chain h t' := by
  by_cases he : q.mTail = cur
  · have hk : k = t := by
      rw [← he] at hcur
      exact hc.place_unique hcur hc.tail
    have hcas : q.casTail cur next = { q with mTail := next } := if_pos he
    refine ⟨t + 1, Nat.le_succ t, ?_⟩
    rw [hcas]
    exact ⟨hc.nodup, hc.below, hc.next, hc.head, hk ▸ hnext, Nat.le_succ_of_le hc.order⟩
  · have hcas : q.casTail cur next = q := if_neg he
    refine ⟨t, le_refl t, ?_⟩
    rw [hcas]
    exact hc

theorem LockFreeQueue.casTail_frame (q : LockFreeQueue ε) (cur next : Addr) :
    (q.casTail cur next).nodes = q.nodes ∧ (q.casTail cur next).mHead = q.mHead ∧
      (q.casTail cur next).mSize = q.mSize ∧ (q.casTail cur next).unused = q.unused := by
  unfold LockFreeQueue.casTail
  split <;> exact ⟨rfl, rfl, rfl, rfl⟩

theorem enQueueStep_mHead {q : LockFreeQueue ε} {pc : EnPc ε}
    {r : LockFreeQueue ε × EnPc ε × Option ε} (hr : enQueueStep q pc = some r) :
    r.1.mHead = q.mHead ∧ q.mSize ≤ r.1.mSize := by
  cases pc with
  | idle => cases hr
  | storeNext _ _ | loadTail _ | loadNext _ _ =>
    cases hr
    exact ⟨rfl, le_refl _⟩
  | addSize _ _ =>
    cases hr
    exact ⟨rfl, Int.le_add_one (le_refl _)⟩
  | swingTail newNode curTail | helpTail _ curTail newNode =>
    cases hr
    obtain ⟨-, hhead, hsize, -⟩ := q.casTail_frame curTail newNode
    exact ⟨hhead, hsize.ge⟩
  | checkTail newNode curTail curTailNext | linkNext newNode curTail =>
    simp only [enQueueStep] at hr
    split at hr
    all_goals try split at hr
    all_goals
      cases hr
      exact ⟨rfl, le_refl _⟩

/-! ### What a call of EnQueue holds -/

namespace EnPc

/-- The node that the call has allocated and not linked. -/
def owned : EnPc ε → Option Addr
  | .storeNext newNode _ | .loadTail newNode | .loadNext newNode _ | .checkTail newNode _ _
  | .linkNext newNode _ | .helpTail newNode _ _ => some newNode
  | .idle | .addSize _ _ | .swingTail _ _ => none

/-- The call has linked its node and not counted it. -/
def uncounted : EnPc ε → Prop
  | .addSize _ _ => True
  | _ => False

instance (pc : EnPc ε) : Decidable pc.uncounted := by
  cases pc <;> unfold uncounted <;> infer_instance

end EnPc

/-- What the local variables of a call say about the chain. -/
def Own (q : LockFreeQueue ε) (chain : List Addr) : EnPc ε → Prop
  | .idle => True
  | .storeNext newNode _ => newNode < q.unused ∧ newNode ∉ chain
  | .loadTail newNode => Private q chain newNode
  | .loadNext newNode curTail | .linkNext newNode curTail =>
    Private q chain newNode ∧ curTail ∈ chain
  | .checkTail newNode curTail curTailNext => Private q chain newNode ∧
    ∃ k : ℕ, chain[k]? = some curTail ∧ ∀ next, curTailNext = some next → chain[k + 1]? = some next
  | .helpTail newNode curTail next => Private q chain newNode ∧
    ∃ k : ℕ, chain[k]? = some curTail ∧ chain[k + 1]? = some next
  | .addSize newNode curTail | .swingTail newNode curTail =>
    ∃ k : ℕ, chain[k]? = some curTail ∧ chain[k + 1]? = some newNode

theorem Own.owned_unlinked {q : LockFreeQueue ε} {chain : List Addr} {pc : EnPc ε}
    (h : Own q chain pc) {a : Addr} (ha : pc.owned = some a) : a < q.unused ∧ a ∉ chain := by
  cases pc with
  | idle | addSize _ _ | swingTail _ _ => cases ha
  | storeNext newNode element =>
    cases ha
    exact h
  | loadTail newNode =>
    cases ha
    exact ⟨h.below, h.unlinked⟩
  | loadNext newNode curTail | linkNext newNode curTail | checkTail newNode curTail curTailNext
  | helpTail newNode curTail next =>
    cases ha
    exact ⟨h.1.below, h.1.unlinked⟩

/-- The steps of other threads: the chain only grows and the owned node is left alone. -/
theorem Own.mono {q q' : LockFreeQueue ε} {chain more : List Addr} {pc : EnPc ε}
    (h : Own q chain pc) (hunused : q.unused ≤ q'.unused)
    (hnode : ∀ a, pc.owned = some a → a ∉ more ∧ q'.nodes a = q.nodes a) :
    Own q' (chain ++ more) pc := by
  have hpriv : ∀ a, pc.owned = some a → Private q chain a → Private q' (chain ++ more) a := by
    intro a ha hp
    obtain ⟨hmore, hsame⟩ := hnode a ha
    refine ⟨Nat.lt_of_lt_of_le hp.below hunused, ?_, ?_, ?_⟩
    · simp [hp.unlinked, hmore]
    · rw [hsame]
      exact hp.last
    · rw [hsame]
      exact hp.element
  cases pc with
  | idle => trivial
  | storeNext newNode element =>
    obtain ⟨hmore, -⟩ := hnode newNode rfl
    exact ⟨Nat.lt_of_lt_of_le h.1 hunused, by simp [h.2, hmore]⟩
  | loadTail newNode => exact hpriv newNode rfl h
  | loadNext newNode curTail | linkNext newNode curTail =>
    exact ⟨hpriv newNode rfl h.1, List.mem_append_left more h.2⟩
  | checkTail newNode curTail curTailNext =>
    obtain ⟨hp, k, hk, hnext⟩ := h
    exact ⟨hpriv newNode rfl hp, k, place_append hk, fun n hn => place_append (hnext n hn)⟩
  | helpTail newNode curTail next =>
    obtain ⟨hp, k, hk, hnext⟩ := h
    exact ⟨hpriv newNode rfl hp, k, place_append hk, place_append hnext⟩
  | addSize newNode curTail | swingTail newNode curTail =>
    obtain ⟨k, hk, hnext⟩ := h
    exact ⟨k, place_append hk, place_append hnext⟩

theorem Own.mono_same {q q' : LockFreeQueue ε} {chain : List Addr} {pc : EnPc ε} (h : Own q chain pc)
    (hunused : q.unused ≤ q'.unused) (hnode : ∀ a, pc.owned = some a → q'.nodes a = q.nodes a) :
    Own q' chain pc := by
  have hmono : Own q' (chain ++ []) pc :=
    h.mono hunused fun a ha => ⟨List.not_mem_nil, hnode a ha⟩
  rwa [List.append_nil] at hmono

/-! ### All producers -/

/-- `enqueued` are the elements of the linked nodes, without the first one. -/
structure Producing (q : LockFreeQueue ε) (producers : ι → EnPc ε) (enqueued : List ε)
    (chain : List Addr) (h t : ℕ) : Prop where
  shape : Chain q chain h t
  own : ∀ i, Own q chain (producers i)
  apart : ∀ i j a, (producers i).owned = some a → (producers j).owned = some a → i = j
  length : enqueued.length + 1 = chain.length
  elements : ∀ k a, chain[k + 1]? = some a → (q.nodes a).mElement = enqueued[k]?

variable [DecidableEq ι]

omit [DecidableEq ι] in
theorem owned_apart_symm {producers : ι → EnPc ε}
    (hap : ∀ i j a, (producers i).owned = some a → (producers j).owned = some a → i = j) {i j : ι}
    {a : Addr} (hi : (producers i).owned = some a) (hj : j ≠ i) : (producers j).owned ≠ some a :=
  fun ha => hj (hap j i a ha hi)

theorem apart_update {producers : ι → EnPc ε}
    (hap : ∀ i j a, (producers i).owned = some a → (producers j).owned = some a → i = j) {i : ι}
    {pc : EnPc ε} (hpc : ∀ j a, j ≠ i → (producers j).owned = some a → pc.owned ≠ some a) :
    ∀ j k a, (Function.update producers i pc j).owned = some a →
      (Function.update producers i pc k).owned = some a → j = k := by
  intro j k a hj hk
  by_cases hji : j = i <;> by_cases hki : k = i
  · rw [hji, hki]
  · rw [hji, Function.update_self] at hj
    rw [Function.update_of_ne hki] at hk
    exact absurd hj (hpc k a hki hk)
  · rw [hki, Function.update_self] at hk
    rw [Function.update_of_ne hji] at hj
    exact absurd hk (hpc j a hji hj)
  · rw [Function.update_of_ne hji] at hj
    rw [Function.update_of_ne hki] at hk
    exact hap j k a hj hk

namespace Producing
variable {q : LockFreeQueue ε} {producers : ι → EnPc ε} {enqueued : List ε} {chain : List Addr} {h t : ℕ}

omit [DecidableEq ι] in
theorem consume (hp : Producing q producers enqueued chain h t) {q' : LockFreeQueue ε} {h' t' : ℕ}
    (hchain : Chain q' chain h' t') (hunused : q'.unused = q.unused) (hnodes : q'.nodes = q.nodes) :
    Producing q' producers enqueued chain h' t' where
  shape := hchain
  own i := (hp.own i).mono_same (le_of_eq hunused.symm) fun a _ => by rw [hnodes]
  apart := hp.apart
  length := hp.length
  elements := by
    rw [hnodes]
    exact hp.elements

theorem quiet (hp : Producing q producers enqueued chain h t) (i : ι) (pc : EnPc ε)
    {q' : LockFreeQueue ε} {t' : ℕ} (hchain : Chain q' chain h t') (hunused : q.unused ≤ q'.unused)
    (hlinked : ∀ a ∈ chain, q'.nodes a = q.nodes a)
    (hothers : ∀ j a, j ≠ i → (producers j).owned = some a →
      q'.nodes a = q.nodes a ∧ pc.owned ≠ some a)
    (hown : Own q' chain pc) :
    Producing q' (Function.update producers i pc) enqueued chain h t' where
  shape := hchain
  own := by
    refine forall_update (P := fun _ => Own q chain) hown ?_ hp.own
    intro j hj ho
    exact ho.mono_same hunused fun a ha => (hothers j a hj ha).1
  apart := apart_update hp.apart fun j a hj ha => (hothers j a hj ha).2
  length := hp.length
  elements k a hk := by
    rw [hlinked a (List.mem_of_getElem? hk)]
    exact hp.elements k a hk

theorem load (hp : Producing q producers enqueued chain h t) {i : ι} {pc : EnPc ε}
    (hown : Own q chain pc) (howned : pc.owned = (producers i).owned) :
    Producing q (Function.update producers i pc) enqueued chain h t := by
  apply hp.quiet i pc hp.shape (le_refl _) (fun _ _ => rfl) ?_ hown
  intro j a hj ha
  refine ⟨rfl, ?_⟩
  rw [howned]
  intro he
  exact owned_apart_symm hp.apart he hj ha

theorem advance (hp : Producing q producers enqueued chain h t) (i : ι) (pc : EnPc ε) {k : ℕ}
    {cur next : Addr} (hcur : chain[k]? = some cur) (hnext : chain[k + 1]? = some next)
    (hown : Own q chain pc) (howned : ∀ a, pc.owned = some a → (producers i).owned = some a) :
    ∃ t', t ≤ t' ∧
      Producing (q.casTail cur next) (Function.update producers i pc) enqueued chain h t' := by
  obtain ⟨t', ht, hchain⟩ := hp.shape.casTail hcur hnext
  obtain ⟨hnodes, -, -, hunused⟩ := q.casTail_frame cur next
  refine ⟨t', ht, ?_⟩
  apply hp.quiet i pc hchain (le_of_eq hunused.symm)
  · intro a _
    rw [hnodes]
  · intro j a hj ha
    refine ⟨by rw [hnodes], ?_⟩
    intro he
    exact owned_apart_symm hp.apart (howned a he) hj ha
  · exact hown.mono_same (le_of_eq hunused.symm) fun b _ => by rw [hnodes]

theorem call (hp : Producing q producers enqueued chain h t) (i : ι) (element : ε) :
    Producing (enQueueCall q element).1 (Function.update producers i (enQueueCall q element).2)
      enqueued chain h t := by
  have hle : q.unused ≤ q.unused + 1 := Nat.le_succ _
  refine hp.quiet i _ (hp.shape.congr rfl rfl hle fun _ _ => rfl) hle (fun _ _ => rfl) ?_ ?_
  · intro j a hj ha
    refine ⟨rfl, ?_⟩
    have hlt := ((hp.own j).owned_unlinked ha).1
    intro he
    cases he
    exact absurd hlt (lt_irrefl _)
  · refine ⟨Nat.lt_succ_self _, ?_⟩
    intro hin
    exact absurd (hp.shape.below _ hin) (lt_irrefl _)

theorem store (hp : Producing q producers enqueued chain h t) {i : ι} {a : Addr} {element : ε}
    (hpc : producers i = .storeNext a element) :
    Producing (q.setNode a ⟨none, some element⟩) (Function.update producers i (.loadTail a)) enqueued
      chain h t := by
  have hown := hp.own i
  rw [hpc] at hown
  obtain ⟨hlt, hnot⟩ := hown
  have howned : (producers i).owned = some a := by
    rw [hpc]
    rfl
  have hnodes : ∀ b, b ≠ a → (q.setNode a ⟨none, some element⟩).nodes b = q.nodes b :=
    fun b hb => Function.update_of_ne hb _ _
  have hnew : (q.setNode a ⟨none, some element⟩).nodes a = ⟨none, some element⟩ :=
    Function.update_self _ _ _
  have hlinked : ∀ b ∈ chain, (q.setNode a ⟨none, some element⟩).nodes b = q.nodes b := by
    intro b hb
    apply hnodes
    intro he
    exact hnot (he ▸ hb)
  refine hp.quiet i _ (hp.shape.congr rfl rfl (le_refl _) hlinked) (le_refl _) hlinked ?_ ?_
  · intro j b hj hb
    have hne : b ≠ a := by
      intro he
      rw [he] at hb
      exact owned_apart_symm hp.apart howned hj hb
    refine ⟨hnodes b hne, ?_⟩
    intro he
    cases he
    exact hne rfl
  · exact ⟨hlt, hnot, by rw [hnew], by rw [hnew]; rfl⟩

/-- The successful compare-exchange on m_next_. -/
theorem link (hp : Producing q producers enqueued chain h t) {i : ι} {a cur : Addr}
    (hpc : producers i = .linkNext a cur) (hlast : (q.nodes cur).mNext = none) :
    Producing (q.setNode cur { q.nodes cur with mNext := some a })
      (Function.update producers i (.addSize a cur)) (enqueued ++ (q.nodes a).mElement.toList)
      (chain ++ [a]) h t := by
  have hown := hp.own i
  rw [hpc] at hown
  obtain ⟨hpriv, hcur⟩ := hown
  obtain ⟨hchain, k, hlen, hk⟩ := hp.shape.link hpriv hcur hlast
  obtain ⟨element, helement⟩ := Option.isSome_iff_exists.mp hpriv.element
  have hnodes : ∀ b, b ≠ cur →
      (q.setNode cur { q.nodes cur with mNext := some a }).nodes b = q.nodes b :=
    fun b hb => Function.update_of_ne hb _ _
  have howned : (producers i).owned = some a := by
    rw [hpc]
    rfl
  have hapart : ∀ j b, j ≠ i → (producers j).owned = some b → b ≠ a := by
    intro j b hj hb hba
    rw [hba] at hb
    exact owned_apart_symm hp.apart howned hj hb
  have hlength := hp.length
  rw [helement]
  refine ⟨hchain, ?_, ?_, ?_, ?_⟩
  · have hnew : Own (q.setNode cur { q.nodes cur with mNext := some a }) (chain ++ [a])
        (.addSize a cur) := by
      refine ⟨k, place_append hk, ?_⟩
      rw [hlen]
      simp
    refine forall_update (P := fun _ => Own q chain) hnew ?_ hp.own
    intro j hj ho
    refine ho.mono (le_refl _) ?_
    intro b hb
    have hba := hapart j b hj hb
    have hbc : b ≠ cur := by
      intro he
      rw [he] at hb
      exact (ho.owned_unlinked hb).2 hcur
    exact ⟨by simpa using hba, hnodes b hbc⟩
  · apply apart_update hp.apart
    intro j b hj hb hnew
    cases hnew
  · simp
    omega
  · intro j b hj
    by_cases hjlt : j + 1 < chain.length
    · rw [List.getElem?_append_left hjlt] at hj
      have hel : ((q.setNode cur { q.nodes cur with mNext := some a }).nodes b).mElement
          = (q.nodes b).mElement := by
        by_cases hb : b = cur
        · rw [hb]
          show (Function.update q.nodes cur _ cur).mElement = _
          rw [Function.update_self]
        · rw [hnodes b hb]
      rw [hel, List.getElem?_append_left (by omega)]
      exact hp.elements j b hj
    · have hjl := (List.getElem?_eq_some_iff.mp hj).1
      rw [List.length_append, List.length_singleton] at hjl
      have he : j = enqueued.length := by omega
      have hb : b = a := by
        have hplace : j + 1 = chain.length := by omega
        rw [hplace] at hj
        simpa using hj.symm
      have hbc : b ≠ cur := by
        intro hbc
        rw [hb] at hbc
        rw [hbc] at hpriv
        exact hpriv.unlinked hcur
      rw [hnodes b hbc, hb, helement, he]
      simp

/-- One step of a producer; it links at most its own node, and every node is counted once. -/
theorem step (hp : Producing q producers enqueued chain h t) {i : ι}
    {r : LockFreeQueue ε × EnPc ε × Option ε} (hr : enQueueStep q (producers i) = some r) :
    ∃ more t', t ≤ t' ∧
      Producing r.1 (Function.update producers i r.2.1) (enqueued ++ r.2.2.toList) (chain ++ more) h t' ∧
      r.1.mSize + (if r.2.1.uncounted then 1 else 0) =
        q.mSize + (if (producers i).uncounted then 1 else 0) + more.length := by
  have hown := hp.own i
  have hsame : ∀ {q' : LockFreeQueue ε} {pc : EnPc ε} {t' : ℕ}, t ≤ t' →
      Producing q' (Function.update producers i pc) enqueued chain h t' →
      (q'.mSize + (if pc.uncounted then 1 else 0) =
        q.mSize + (if (producers i).uncounted then 1 else 0)) →
      ∃ more t', t ≤ t' ∧ Producing q' (Function.update producers i pc) (enqueued ++ [])
        (chain ++ more) h t' ∧ q'.mSize + (if pc.uncounted then 1 else 0) =
          q.mSize + (if (producers i).uncounted then 1 else 0) + (more.length : ℤ) := by
    intro q' pc t' ht hq hcount
    refine ⟨[], t', ht, ?_, ?_⟩
    · simpa using hq
    · simpa using hcount
  cases hpc : producers i with
  | idle =>
    rw [hpc] at hr
    cases hr
  | storeNext newNode element =>
    rw [hpc] at hr hsame
    cases hr
    exact hsame (le_refl t) (hp.store hpc) rfl
  | loadTail newNode =>
    rw [hpc] at hr hown hsame
    cases hr
    exact hsame (le_refl t)
      (hp.load ⟨hown, List.mem_of_getElem? hp.shape.tail⟩ (by rw [hpc]; rfl)) rfl
  | loadNext newNode curTail =>
    rw [hpc] at hr hown hsame
    cases hr
    obtain ⟨hpriv, hcur⟩ := hown
    obtain ⟨k, hk⟩ := List.mem_iff_getElem?.mp hcur
    have hnext : ∀ next, (q.nodes curTail).mNext = some next → chain[k + 1]? = some next := by
      intro next hnext
      rw [← hp.shape.next k curTail hk]
      exact hnext
    exact hsame (le_refl t) (hp.load ⟨hpriv, k, hk, hnext⟩ (by rw [hpc]; rfl)) rfl
  | checkTail newNode curTail curTailNext =>
    rw [hpc] at hr hown hsame
    obtain ⟨hpriv, k, hk, hnext⟩ := hown
    by_cases htail : q.mTail = curTail
    · cases curTailNext with
      | none =>
        simp only [enQueueStep, if_pos htail, Option.some.injEq] at hr
        subst hr
        exact hsame (le_refl t) (hp.load ⟨hpriv, List.mem_of_getElem? hk⟩ (by rw [hpc]; rfl)) rfl
      | some next =>
        simp only [enQueueStep, if_pos htail, Option.some.injEq] at hr
        subst hr
        exact hsame (le_refl t) (hp.load ⟨hpriv, k, hk, hnext next rfl⟩ (by rw [hpc]; rfl)) rfl
    · simp only [enQueueStep, if_neg htail, Option.some.injEq] at hr
      subst hr
      exact hsame (le_refl t) (hp.load hpriv (by rw [hpc]; rfl)) rfl
  | linkNext newNode curTail =>
    rw [hpc] at hr hown hsame
    cases hnext : (q.nodes curTail).mNext with
    | none =>
      simp only [enQueueStep, hnext, Option.some.injEq] at hr
      subst hr
      refine ⟨[newNode], t, le_refl t, hp.link hpc hnext, ?_⟩
      simp [EnPc.uncounted, LockFreeQueue.setNode]
    | some next =>
      simp only [enQueueStep, hnext, Option.some.injEq] at hr
      subst hr
      exact hsame (le_refl t) (hp.load hown.1 (by rw [hpc]; rfl)) rfl
  | addSize newNode curTail =>
    rw [hpc] at hr hown hsame
    cases hr
    have hchain : Chain { q with mSize := q.mSize + 1 } chain h t :=
      hp.shape.congr rfl rfl (le_refl _) fun _ _ => rfl
    have hquiet := hp.quiet i (.swingTail newNode curTail) hchain (le_refl _) (fun _ _ => rfl)
      (fun j a _ _ => ⟨rfl, by intro he; cases he⟩) hown
    exact hsame (le_refl t) hquiet (by simp [EnPc.uncounted])
  | swingTail newNode curTail =>
    rw [hpc] at hr hown hsame
    cases hr
    obtain ⟨k, hk, hnext⟩ := hown
    obtain ⟨t', ht, hadv⟩ := hp.advance i .idle hk hnext trivial
      (by intro a ha; cases ha)
    exact hsame ht hadv (by rw [(q.casTail_frame _ _).2.2.1]; rfl)
  | helpTail newNode curTail next =>
    rw [hpc] at hr hown hsame
    cases hr
    obtain ⟨hpriv, k, hk, hnext⟩ := hown
    obtain ⟨t', ht, hadv⟩ := hp.advance i (.loadTail newNode) hk hnext hpriv
      (by intro a ha; rw [hpc]; exact ha)
    exact hsame ht hadv (by rw [(q.casTail_frame _ _).2.2.1]; rfl)

end Producing

end DeftRpc.Concurrent
