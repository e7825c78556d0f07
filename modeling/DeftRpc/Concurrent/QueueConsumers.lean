import DeftRpc.Concurrent.QueueProducers

/-!
# Any number of consumers, on an empty queue too

Dequeue loads `m_next_` of the head before it loads the tail. The two loads fit
together as long as no EnQueue moves the tail between them; the compare-exchange
that helps the tail fits as long as its `next` is the node behind that tail.
-/

namespace DeftRpc.Concurrent
open DeftRpc.Foundation

variable {ι κ ε : Type}

def LockFreeQueue.isEmpty (q : LockFreeQueue ε) : Bool :=
  match q.mHead with
  | some head => (q.nodes head).mNext.isNone
  | none => false

/-- `taken` lists the elements in the order in which calls have moved the head, each with its
consumer. For a consumer, `dequeued` are the elements its calls have returned, `wasEmpty` says
whether the queue has been empty at some moment of the present call, and `emptied` what that was
at each return of `Element{}`. -/
structure ConsumersState (ι κ ε : Type) where
  queue : LockFreeQueue ε := .new
  producers : ι → EnPc ε := fun _ => .idle
  consumers : κ → DePc ε := fun _ => .idle
  enqueued : List ε := []
  taken : List (κ × Option ε) := []
  dequeued : κ → List (Option ε) := fun _ => []
  wasEmpty : κ → Bool := fun _ => false
  emptied : κ → List Bool := fun _ => []

inductive ConsumersAct (ι κ ε : Type) where
  | enQueue (i : ι) (element : ε)
  | producer (i : ι)
  | deQueue (j : κ)
  | consumer (j : κ)

/-- The calls that are going on see whether the queue is empty now. -/
def ConsumersState.watch (s : ConsumersState ι κ ε) : ConsumersState ι κ ε :=
  { s with wasEmpty := fun j => s.wasEmpty j || s.queue.isEmpty }

variable [DecidableEq ι] [DecidableEq κ]

def consumersStep (s : ConsumersState ι κ ε) : ConsumersAct ι κ ε → Option (ConsumersState ι κ ε)
  | .enQueue i element =>
    match s.producers i with
    | .idle =>
      let r := enQueueCall s.queue element
      some (ConsumersState.watch
        { s with queue := r.1, producers := Function.update s.producers i r.2 })
    | _ => none
  | .producer i =>
    (enQueueStep s.queue (s.producers i)).map fun r => ConsumersState.watch
      { s with
        queue := r.1, producers := Function.update s.producers i r.2.1,
        enqueued := s.enqueued ++ r.2.2.toList }
  | .deQueue j =>
    match s.consumers j with
    | .idle => some { s with
        consumers := Function.update s.consumers j .loadHead,
        wasEmpty := Function.update s.wasEmpty j s.queue.isEmpty }
    | _ => none
  | .consumer j =>
    (deQueueStep s.queue (s.consumers j)).map fun r => ConsumersState.watch
      { s with
        queue := r.1, consumers := Function.update s.consumers j r.2.1,
        taken := s.taken ++ r.2.1.taken.map fun element => (j, element),
        dequeued := Function.update s.dequeued j (s.dequeued j ++ (s.consumers j).taken),
        emptied := Function.update s.emptied j (s.emptied j ++
          if (s.consumers j).taken.isEmpty && r.2.2.isSome then [s.wasEmpty j] else []) }

/-- The loads of a call fit together: a tail that is loaded after a null `next` is still the
head, and a tail that is helped on is followed by `next`. -/
def LoadsFit (s : ConsumersState ι κ ε) : ConsumersAct ι κ ε → Prop
  | .consumer j =>
    match s.consumers j with
    | .loadTail curHead none => s.queue.mHead = some curHead → s.queue.mTail = curHead
    | .helpTail next curTail =>
      s.queue.mTail = curTail → next = curTail ∨ (s.queue.nodes curTail).mNext = some next
    | _ => True
  | _ => True

instance (s : ConsumersState ι κ ε) : ∀ a, Decidable (LoadsFit s a)
  | .consumer j => by
    simp only [LoadsFit]
    split <;> infer_instance
  | .enQueue _ _ | .producer _ | .deQueue _ => .isTrue trivial

/-! ### What a consumer holds -/

/-- What is known of a head that was loaded, and of its `next`. -/
structure HeadAt (chain : List Addr) (h k : ℕ) (curHead : Addr) (next : Option Addr) : Prop where
  le : k ≤ h
  head : chain[k]? = some curHead
  next : ∀ n, next = some n → chain[k + 1]? = some n

theorem HeadAt.mono {chain : List Addr} {h h' k : ℕ} {curHead : Addr} {next : Option Addr}
    (hk : HeadAt chain h k curHead next) (hle : h ≤ h') (more : List Addr) :
    HeadAt (chain ++ more) h' k curHead next :=
  ⟨hk.le.trans hle, place_append hk.head, fun n hn => place_append (hk.next n hn)⟩

def TailAt (chain : List Addr) (t k : ℕ) (curTail : Addr) : Prop :=
  ∃ m, k ≤ m ∧ m ≤ t ∧ chain[m]? = some curTail

theorem TailAt.mono {chain : List Addr} {t t' k : ℕ} {curTail : Addr} (hk : TailAt chain t k curTail)
    (hle : t ≤ t') (more : List Addr) : TailAt (chain ++ more) t' k curTail := by
  obtain ⟨m, hkm, hmt, hm⟩ := hk
  exact ⟨m, hkm, hmt.trans hle, place_append hm⟩

/-- What the local variables of a call say about the chain; other calls may have moved the
head. -/
def HeldBy (chain : List Addr) (h t : ℕ) (wasEmpty : Bool) : DePc ε → Prop
  | .idle | .loadHead | .subSize _ | .helpTail _ _ => True
  | .loadNext curHead => ∃ k, HeadAt chain h k curHead none
  | .loadTail curHead next => ∃ k, HeadAt chain h k curHead next ∧
    (next = none → k = h → wasEmpty = true)
  | .checkHead curHead next curTail => ∃ k, HeadAt chain h k curHead next ∧ TailAt chain t k curTail ∧
    (next = none → k = h → wasEmpty = true ∧ curTail = curHead)
  | .compareTail curHead next curTail => ∃ k, HeadAt chain h k curHead next ∧
    TailAt chain t k curTail ∧ (next = none → wasEmpty = true ∧ curTail = curHead)
  | .moveHead curHead next => ∃ k, HeadAt chain h k curHead next ∧ (next = none → k < h) ∧
    (k = h → h < t)
  | .nullHead | .nullNext => False

theorem HeldBy.mono {chain : List Addr} {h h' t t' : ℕ} {wasEmpty wasEmpty' : Bool} {pc : DePc ε}
    (hh : HeldBy chain h t wasEmpty pc) (hle : h ≤ h') (ht : t ≤ t')
    (hw : wasEmpty = true → wasEmpty' = true) (more : List Addr) :
    HeldBy (chain ++ more) h' t' wasEmpty' pc := by
  cases pc with
  | idle | loadHead | subSize _ | helpTail _ _ => trivial
  | nullHead | nullNext => exact hh
  | loadNext curHead =>
    obtain ⟨k, hk⟩ := hh
    exact ⟨k, hk.mono hle more⟩
  | loadTail curHead next =>
    obtain ⟨k, hk, hnone⟩ := hh
    refine ⟨k, hk.mono hle more, ?_⟩
    intro hn he
    have hkle := hk.le
    exact hw (hnone hn (by omega))
  | checkHead curHead next curTail =>
    obtain ⟨k, hk, htail, hnone⟩ := hh
    refine ⟨k, hk.mono hle more, htail.mono ht more, ?_⟩
    intro hn he
    have hkle := hk.le
    obtain ⟨hempty, hcur⟩ := hnone hn (by omega)
    exact ⟨hw hempty, hcur⟩
  | compareTail curHead next curTail =>
    obtain ⟨k, hk, htail, hnone⟩ := hh
    exact ⟨k, hk.mono hle more, htail.mono ht more, fun hn => ⟨hw (hnone hn).1, (hnone hn).2⟩⟩
  | moveHead curHead next =>
    obtain ⟨k, hk, hnone, hlt⟩ := hh
    refine ⟨k, hk.mono hle more, fun hn => (hnone hn).trans_le hle, ?_⟩
    intro he
    have hkle := hk.le
    have hkt := hlt (by omega)
    omega

/-! ### The invariant -/

structure ConsumersInv (s : ConsumersState ι κ ε) (chain : List Addr) (h t : ℕ) : Prop where
  producing : Producing s.queue s.producers s.enqueued chain h t
  held : ∀ j, HeldBy chain h t (s.wasEmpty j) (s.consumers j)
  taken : s.taken.map Prod.snd = (s.enqueued.take h).map some
  dequeued : ∀ j, s.dequeued j ++ (s.consumers j).taken =
    (s.taken.filter fun r => r.1 = j).map Prod.snd
  emptied : ∀ j, ∀ b ∈ s.emptied j, b = true

def Served (s : ConsumersState ι κ ε) : Prop := ∃ chain h t, ConsumersInv s chain h t

omit [DecidableEq ι] in
theorem served_start : Served ({} : ConsumersState ι κ ε) := by
  refine ⟨[0], 0, 0, ⟨⟨?_, ?_, ?_, rfl, rfl, le_refl 0⟩, fun i => trivial, ?_, rfl, ?_⟩, fun j => trivial, rfl,
    fun j => rfl, ?_⟩
  · exact List.nodup_singleton 0
  · intro a ha
    rw [List.mem_singleton.mp ha]
    exact Nat.one_pos
  · intro k a hk
    simp [LockFreeQueue.new]
  · intro i j a hi hj
    cases hi
  · intro k a hk
    simp at hk
  · intro j b hb
    cases hb

variable {s : ConsumersState ι κ ε} {chain : List Addr} {h t : ℕ}

theorem ConsumersInv.advance (hi : ConsumersInv s chain h t) {i : ι} {q : LockFreeQueue ε}
    {pc : EnPc ε} {enqueued : List ε} {more : List Addr} {t' : ℕ} (ht : t ≤ t')
    (hp : Producing q (Function.update s.producers i pc) (s.enqueued ++ enqueued) (chain ++ more) h t') :
    Served (ConsumersState.watch { s with
      queue := q, producers := Function.update s.producers i pc,
      enqueued := s.enqueued ++ enqueued }) := by
  refine ⟨chain ++ more, h, t', hp, ?_, ?_, hi.dequeued, hi.emptied⟩
  · intro j
    apply (hi.held j).mono (le_refl h) ht
    intro hw
    simp [ConsumersState.watch, hw]
  · have hlt := hi.producing.shape.head_lt
    have hlen := hi.producing.length
    show s.taken.map Prod.snd = ((s.enqueued ++ enqueued).take h).map some
    rw [List.take_append_of_le_length (by omega)]
    exact hi.taken

omit [DecidableEq ι] in
/-- A step of a consumer: what it takes goes to the elements taken, what it has taken before is
returned. -/
theorem ConsumersInv.consume (hi : ConsumersInv s chain h t) (j : κ) (pc : DePc ε)
    {q : LockFreeQueue ε} {h' t' : ℕ} (hle : h ≤ h') (ht : t ≤ t') (hchain : Chain q chain h' t')
    (hunused : q.unused = s.queue.unused) (hnodes : q.nodes = s.queue.nodes)
    (hheld : HeldBy chain h' t' (s.wasEmpty j || q.isEmpty) pc)
    (htaken : s.taken.map Prod.snd ++ pc.taken = (s.enqueued.take h').map some)
    {returns : List Bool} (hreturns : ∀ b ∈ returns, b = true) :
    Served (ConsumersState.watch { s with
      queue := q, consumers := Function.update s.consumers j pc,
      taken := s.taken ++ pc.taken.map fun element => (j, element),
      dequeued := Function.update s.dequeued j (s.dequeued j ++ (s.consumers j).taken),
      emptied := Function.update s.emptied j (s.emptied j ++ returns) }) := by
  refine ⟨chain, h', t', hi.producing.consume hchain hunused hnodes, ?_, ?_, ?_, ?_⟩
  · refine forall_update (P := fun j pc => HeldBy chain h t (s.wasEmpty j) pc)
      (Q := fun j pc => HeldBy chain h' t' (s.wasEmpty j || q.isEmpty) pc) hheld ?_ hi.held
    intro k _ hk
    have hmono := hk.mono hle ht (fun hw => by rw [hw]; rfl : _ → (s.wasEmpty k || q.isEmpty) = true) []
    rwa [List.append_nil] at hmono
  · simpa [ConsumersState.watch, Function.comp_def] using htaken
  · intro k
    have hk := hi.dequeued k
    simp only [ConsumersState.watch, List.filter_append, List.map_append]
    rw [← hk]
    by_cases hkj : k = j
    · subst hkj
      simp [List.filter_map, Function.comp_def]
    · have hjk : j ≠ k := fun he => hkj he.symm
      simp [hkj, hjk]
  · intro k b hb
    simp only [ConsumersState.watch] at hb
    by_cases hkj : k = j
    · subst hkj
      rw [Function.update_self] at hb
      rcases List.mem_append.mp hb with hb | hb
      · exact hi.emptied k b hb
      · exact hreturns b hb
    · rw [Function.update_of_ne hkj] at hb
      exact hi.emptied k b hb

omit [DecidableEq ι] in
theorem ConsumersInv.quiet (hi : ConsumersInv s chain h t) (j : κ) (pc : DePc ε)
    {q : LockFreeQueue ε} {t' : ℕ} (ht : t ≤ t') (hchain : Chain q chain h t')
    (hunused : q.unused = s.queue.unused) (hnodes : q.nodes = s.queue.nodes)
    (hheld : HeldBy chain h t' (s.wasEmpty j || q.isEmpty) pc) (htaken : pc.taken = [])
    {returns : List Bool} (hreturns : ∀ b ∈ returns, b = true) :
    Served (ConsumersState.watch { s with
      queue := q, consumers := Function.update s.consumers j pc,
      taken := s.taken ++ pc.taken.map fun element => (j, element),
      dequeued := Function.update s.dequeued j (s.dequeued j ++ (s.consumers j).taken),
      emptied := Function.update s.emptied j (s.emptied j ++ returns) }) := by
  refine hi.consume j pc (le_refl h) ht hchain hunused hnodes hheld ?_ hreturns
  rw [htaken, List.append_nil]
  exact hi.taken

omit [DecidableEq ι] in
/-- The successful compare-exchange on m_head_. -/
theorem ConsumersInv.take (hi : ConsumersInv s chain h t) {j : κ} {n : Addr}
    (hn : chain[h + 1]? = some n) (hlt : h < t) :
    Served (ConsumersState.watch { s with
      queue := { s.queue with mHead := some n },
      consumers := Function.update s.consumers j (.subSize (s.queue.nodes n).mElement),
      taken := s.taken ++ [(j, (s.queue.nodes n).mElement)],
      dequeued := Function.update s.dequeued j (s.dequeued j ++ (s.consumers j).taken),
      emptied := Function.update s.emptied j (s.emptied j ++ []) }) := by
  have hp := hi.producing
  have hchain : Chain { s.queue with mHead := some n } chain (h + 1) t :=
    ⟨hp.shape.nodup, hp.shape.below, hp.shape.next, hn, hp.shape.tail, hlt⟩
  have hlen := (List.getElem?_eq_some_iff.mp hn).1
  have hlength := hp.length
  refine hi.consume j (.subSize _) (Nat.le_succ h) (le_refl t) hchain rfl rfl trivial ?_
    fun b hb => by cases hb
  rw [hi.taken, hp.elements h n hn, List.take_add_one, List.map_append,
    List.getElem?_eq_getElem (by omega)]
  rfl

omit [DecidableEq ι] in
theorem ConsumersInv.give (hi : ConsumersInv s chain h t) (j : κ) :
    Served (ConsumersState.watch { s with
      queue := { s.queue with mSize := s.queue.mSize - 1 },
      consumers := Function.update s.consumers j .idle,
      taken := s.taken ++ [],
      dequeued := Function.update s.dequeued j (s.dequeued j ++ (s.consumers j).taken),
      emptied := Function.update s.emptied j (s.emptied j ++ []) }) := by
  have hchain : Chain { s.queue with mSize := s.queue.mSize - 1 } chain h t :=
    hi.producing.shape.congr rfl rfl (le_refl _) fun _ _ => rfl
  exact hi.quiet j .idle (le_refl t) hchain rfl rfl trivial rfl fun b hb => by cases hb

theorem Chain.helpTail {q : LockFreeQueue ε} (hshape : Chain q chain h t) {next curTail : Addr}
    (hfit : q.mTail = curTail → next = curTail ∨ (q.nodes curTail).mNext = some next) :
    ∃ t', t ≤ t' ∧ Chain (q.casTail curTail next) chain h t' := by
  by_cases he : q.mTail = curTail
  · rcases hfit he with rfl | hnext
    · have hsame : q.casTail next next = q := by
        rw [LockFreeQueue.casTail, if_pos he, ← he]
      rw [hsame]
      exact ⟨t, le_refl t, hshape⟩
    · have hplace := he ▸ hshape.tail
      exact hshape.casTail hplace ((hshape.next t curTail hplace).symm.trans hnext)
  · rw [LockFreeQueue.casTail, if_neg he]
    exact ⟨t, le_refl t, hshape⟩

theorem Chain.behindHead {q : LockFreeQueue ε} (hshape : Chain q chain h t) {curHead curTail : Addr}
    {next : Option Addr} {wasEmpty wasEmpty' : Bool}
    (hheld : HeldBy chain h t wasEmpty (.compareTail curHead next curTail : DePc ε))
    (htail : some curTail ≠ q.mHead) :
    HeldBy chain h t wasEmpty' (.moveHead curHead next : DePc ε) := by
  obtain ⟨k, hk, ⟨m, hkm, hmt, hm⟩, hnone⟩ := hheld
  refine ⟨k, hk, ?_, ?_⟩
  · -- The tail is the head that was loaded, so the head has moved on.
    intro hn
    obtain ⟨-, hc⟩ := hnone hn
    apply lt_of_le_of_ne hk.le
    intro he
    rw [hc, ← hshape.head, ← he, hk.head] at htail
    exact htail rfl
  · -- The head has not moved, so the tail was another node, behind it.
    intro he
    have hne : m ≠ h := by
      intro hmh
      rw [hmh, hshape.head] at hm
      exact htail hm.symm
    omega

omit [DecidableEq ι] in
theorem ConsumersInv.consumerStep (hi : ConsumersInv s chain h t) {j : κ}
    (hfit : LoadsFit s (.consumer j)) {r : LockFreeQueue ε × DePc ε × Option (Option ε)}
    (hr : deQueueStep s.queue (s.consumers j) = some r) :
    Served (ConsumersState.watch { s with
      queue := r.1, consumers := Function.update s.consumers j r.2.1,
      taken := s.taken ++ r.2.1.taken.map fun element => (j, element),
      dequeued := Function.update s.dequeued j (s.dequeued j ++ (s.consumers j).taken),
      emptied := Function.update s.emptied j (s.emptied j ++
        if (s.consumers j).taken.isEmpty && r.2.2.isSome then [s.wasEmpty j] else []) }) := by
  have hheld := hi.held j
  have hshape := hi.producing.shape
  have hquiet : ∀ pc, pc.taken = [] →
      HeldBy chain h t (s.wasEmpty j || s.queue.isEmpty) pc → ∀ returns : List Bool,
      (∀ b ∈ returns, b = true) → Served (ConsumersState.watch { s with
        queue := s.queue, consumers := Function.update s.consumers j pc,
        taken := s.taken ++ pc.taken.map fun element => (j, element),
        dequeued := Function.update s.dequeued j (s.dequeued j ++ (s.consumers j).taken),
        emptied := Function.update s.emptied j (s.emptied j ++ returns) }) :=
    fun pc htaken hpc returns hreturns =>
      hi.quiet j pc (le_refl t) hshape rfl rfl hpc htaken hreturns
  have hnil : ∀ b ∈ ([] : List Bool), b = true := fun b hb => by cases hb
  have hor : ∀ b, s.wasEmpty j = true → (s.wasEmpty j || b) = true := by
    intro b hw
    rw [hw]
    rfl
  cases hpc : s.consumers j with
  | idle | nullHead | nullNext =>
    rw [hpc] at hr
    cases hr
  | loadHead =>
    obtain ⟨head, hhead, hplace⟩ := hshape.head_some
    rw [hpc] at hr hquiet
    simp only [deQueueStep, hhead, Option.some.injEq] at hr
    subst hr
    refine hquiet (.loadNext head) rfl ⟨h, le_refl h, hplace, ?_⟩ [] hnil
    intro n hn
    cases hn
  | loadNext curHead =>
    rw [hpc] at hr hquiet hheld
    cases hr
    obtain ⟨k, hle, hplace, -⟩ := hheld
    have hnext := hshape.next k curHead hplace
    refine hquiet (.loadTail curHead _) rfl
      ⟨k, ⟨hle, hplace, fun n hn => hnext.symm.trans hn⟩, ?_⟩ [] hnil
    -- The head is still the one that was loaded, and nothing is linked behind it.
    intro hnone he
    have hhead : s.queue.mHead = some curHead := by rw [← hshape.head, ← he, hplace]
    simp [LockFreeQueue.isEmpty, hhead, hnone]
  | loadTail curHead next =>
    simp only [LoadsFit, hpc] at hfit
    rw [hpc] at hr hquiet hheld
    cases hr
    obtain ⟨k, hk, hnone⟩ := hheld
    have htail : TailAt chain t k s.queue.mTail :=
      ⟨t, hk.le.trans hshape.order, le_refl t, hshape.tail⟩
    refine hquiet (.checkHead curHead next _) rfl ⟨k, hk, htail, ?_⟩ [] hnil
    intro hn he
    subst hn
    refine ⟨hor _ (hnone rfl he), hfit ?_⟩
    rw [← hshape.head, ← he, hk.head]
  | checkHead curHead next curTail =>
    rw [hpc] at hr hquiet hheld
    cases hr
    obtain ⟨k, hk, htail, hnone⟩ := hheld
    by_cases hcur : s.queue.mHead = some curHead
    · have he : k = h := hshape.place_unique hk.head (hshape.head.trans hcur)
      simp only [if_pos hcur]
      refine hquiet (.compareTail curHead next curTail) rfl ⟨k, hk, htail, ?_⟩ [] hnil
      intro hn
      obtain ⟨hw, hc⟩ := hnone hn he
      exact ⟨hor _ hw, hc⟩
    · simp only [if_neg hcur]
      exact hquiet .loadHead rfl trivial [] hnil
  | compareTail curHead next curTail =>
    rw [hpc] at hr hquiet hheld
    by_cases htail : some curTail = s.queue.mHead
    · cases next with
      | some n =>
        simp only [deQueueStep, if_pos htail, Option.some.injEq] at hr
        subst hr
        exact hquiet (.helpTail n curTail) rfl trivial [] hnil
      | none =>
        simp only [deQueueStep, if_pos htail, Option.some.injEq] at hr
        subst hr
        refine hquiet .idle rfl trivial [s.wasEmpty j] ?_
        intro b hb
        obtain ⟨-, -, -, hnone⟩ := hheld
        rw [List.mem_singleton.mp hb]
        exact (hnone rfl).1
    · simp only [deQueueStep, if_neg htail, Option.some.injEq] at hr
      subst hr
      exact hquiet (.moveHead curHead next) rfl (hshape.behindHead hheld htail) [] hnil
  | helpTail next curTail =>
    simp only [LoadsFit, hpc] at hfit
    rw [hpc] at hr
    cases hr
    obtain ⟨t', ht, hchain⟩ := hshape.helpTail hfit
    obtain ⟨hnodes, -, -, hunused⟩ := s.queue.casTail_frame curTail next
    have hresult := hi.quiet j .loadHead ht hchain hunused hnodes trivial rfl hnil
    rw [hpc] at hresult
    exact hresult
  | moveHead curHead next =>
    rw [hpc] at hr hquiet hheld
    obtain ⟨k, hk, hnone, hlt⟩ := hheld
    by_cases hcur : s.queue.mHead = some curHead
    · have he : k = h := hshape.place_unique hk.head (hshape.head.trans hcur)
      cases next with
      | none =>
        have hkh := hnone rfl
        omega
      | some n =>
        simp only [deQueueStep, if_pos hcur, Option.some.injEq] at hr
        subst hr
        have htake := hi.take (j := j) (he ▸ hk.next n rfl) (hlt he)
        rw [hpc] at htake
        exact htake
    · simp only [deQueueStep, if_neg hcur, Option.some.injEq] at hr
      subst hr
      exact hquiet .loadHead rfl trivial [] hnil
  | subSize element =>
    rw [hpc] at hr
    cases hr
    have hgive := hi.give j
    rw [hpc] at hgive
    exact hgive

theorem served_step (s : ConsumersState ι κ ε) (a : ConsumersAct ι κ ε) (s' : ConsumersState ι κ ε)
    (hs : Served s) (hfit : LoadsFit s a) (hstep : consumersStep s a = some s') : Served s' := by
  obtain ⟨chain, h, t, hi⟩ := hs
  cases a with
  | enQueue i element =>
    cases hpc : s.producers i with
    | idle =>
      simp only [consumersStep, hpc, Option.some.injEq] at hstep
      subst hstep
      have hp := hi.producing.call i element
      rw [← List.append_nil s.enqueued, ← List.append_nil chain] at hp
      have hadv := hi.advance (le_refl t) hp
      rwa [List.append_nil] at hadv
    | storeNext _ _ | loadTail _ | loadNext _ _ | checkTail _ _ _ | linkNext _ _ | addSize _ _
    | swingTail _ _ | helpTail _ _ _ =>
      simp only [consumersStep, hpc] at hstep
      cases hstep
  | producer i =>
    obtain ⟨r, hr, he⟩ := Option.map_eq_some_iff.mp hstep
    subst he
    obtain ⟨more, t', ht, hp, -⟩ := hi.producing.step hr
    exact hi.advance ht hp
  | deQueue j =>
    cases hpc : s.consumers j with
    | idle =>
      simp only [consumersStep, hpc, Option.some.injEq] at hstep
      subst hstep
      refine ⟨chain, h, t, hi.producing, ?_, hi.taken, ?_, hi.emptied⟩
      · intro k
        have hk := hi.held k
        by_cases hkj : k = j
        · subst hkj
          simp [HeldBy]
        · simpa [hkj] using hk
      · intro k
        have hk := hi.dequeued k
        by_cases hkj : k = j
        · subst hkj
          rw [hpc] at hk
          simpa [DePc.taken] using hk
        · simpa [hkj] using hk
    | loadHead | loadNext _ | loadTail _ _ | checkHead _ _ _ | compareTail _ _ _ | helpTail _ _
    | moveHead _ _ | subSize _ | nullHead | nullNext =>
      simp only [consumersStep, hpc] at hstep
      cases hstep
  | consumer j =>
    obtain ⟨r, hr, he⟩ := Option.map_eq_some_iff.mp hstep
    subst he
    exact hi.consumerStep hfit hr

/-- In every interleaving whose loads fit, with any producers and consumers and with calls on an
empty queue: the head is no null pointer, no call reads the element of a null `next`, the
elements are taken one by one in the order of their links and returned by the calls that took
them, and a call returns `Element{}` only if the queue was empty at some moment of it. -/
theorem consumers_served (as : List (ConsumersAct ι κ ε)) (s : ConsumersState ι κ ε)
    (hfit : GoodSteps consumersStep LoadsFit {} as) (h : interleave consumersStep {} as = some s) :
    s.queue.mHead ≠ none ∧ (∀ j, s.consumers j ≠ .nullHead ∧ s.consumers j ≠ .nullNext) ∧
      s.taken.map Prod.snd <+: s.enqueued.map some ∧
      (∀ j, s.dequeued j ++ (s.consumers j).taken = (s.taken.filter fun r => r.1 = j).map Prod.snd) ∧
      ∀ j, ∀ b ∈ s.emptied j, b = true := by
  obtain ⟨chain, hd, tl, hi⟩ := goodSteps_invariant served_step as {} s served_start hfit h
  obtain ⟨head, hhead, -⟩ := hi.producing.shape.head_some
  refine ⟨by rw [hhead]; exact Option.some_ne_none head, ?_, ?_, hi.dequeued, hi.emptied⟩
  · intro j
    have hheld := hi.held j
    constructor
    · intro hpc
      rw [hpc] at hheld
      exact hheld
    · intro hpc
      rw [hpc] at hheld
      exact hheld
  · rw [hi.taken]
    exact (List.take_prefix hd s.enqueued).map some

/-- Two consumers: one calls on the empty queue, the other one takes the first element. -/
def twoConsumers : List (ConsumersAct ℕ ℕ ℕ) :=
  [.deQueue 0] ++ List.replicate 5 (.consumer 0) ++ [.enQueue 0 7, .deQueue 1] ++
    List.replicate 7 (.producer 0) ++ List.replicate 7 (.consumer 1)

theorem consumers_served_two :
    ∃ s : ConsumersState ℕ ℕ ℕ, interleave consumersStep {} twoConsumers = some s ∧
      (s.enqueued, s.taken, s.emptied 0) = ([7], [(1, some 7)], [true]) ∧
      s.queue.mHead ≠ none ∧ (∀ j, s.consumers j ≠ .nullHead ∧ s.consumers j ≠ .nullNext) ∧
      s.taken.map Prod.snd <+: s.enqueued.map some ∧
      (∀ j, s.dequeued j ++ (s.consumers j).taken = (s.taken.filter fun r => r.1 = j).map Prod.snd) ∧
      ∀ j, ∀ b ∈ s.emptied j, b = true := by
  have hrun : (interleave consumersStep {} twoConsumers).map
      (fun s => (s.enqueued, s.taken, s.emptied 0)) = some ([7], [(1, some 7)], [true]) := by
    decide +kernel
  obtain ⟨s, hs, he⟩ := Option.map_eq_some_iff.mp hrun
  exact ⟨s, hs, he, consumers_served twoConsumers s (by decide +kernel) hs⟩

/-- One producer and one consumer: the whole EnQueue falls between the two loads of a call of
Dequeue. The head becomes a null pointer, through which the element is read. -/
theorem dequeue_stores_null_head :
    (interleave (consumersStep (ι := ℕ) (κ := ℕ) (ε := ℕ)) {}
        (([.deQueue 0, .consumer 0, .consumer 0, .enQueue 0 7] : List (ConsumersAct ℕ ℕ ℕ)) ++
          List.replicate 7 (.producer 0) ++ List.replicate 4 (.consumer 0))).map
      (fun s => (s.queue.mHead, match s.consumers 0 with | .nullNext => true | _ => false)) =
        some (none, true) := by
  decide +kernel

end DeftRpc.Concurrent
