import DeftRpc.DataStruct.SkipListInsert

/-!
# A SkipList is an ordered list of elements

Delete counts `m_level_` down from one level too high, so it can end below a level that
is in use. A run is right as long as no later call needs such a level.
-/

namespace DeftRpc.DataStruct
open DeftRpc.Foundation

def Element.Is (e : Element) (score : ℕ) (val : List Byte) : Prop := e.score = score ∧ e.val = val

instance (e : Element) (score : ℕ) (val : List Byte) : Decidable (e.Is score val) :=
  inferInstanceAs (Decidable (_ ∧ _))

theorem Element.is_iff (e : Element) (score : ℕ) (val : List Byte) :
    e.Is score val ↔ e.key = keyOf score val := keyOf_inj.symm

namespace SkipList

/-! ### The ordered list -/

inductive Spec : List Element → Op → Out → List Element → Prop
  | insert {l l' : List Element} {score : ℕ} {val : List Byte} {lv addr rank : ℕ}
      (hfree : ∀ e ∈ l, e.node ≠ addr) (hat : At l' ⟨addr, score, val, lv⟩ rank)
      (hrest : l'.eraseIdx (rank - 1) = l) (hordered : Ordered l') :
      Spec l (.insert score val lv addr) (.found (some addr) rank) l'
  | find {l : List Element} {score : ℕ} {val : List Byte} {e : Element} {rank : ℕ}
      (hat : At l e rank) (hkey : e.Is score val) : Spec l (.find score val) (.found (some e.node) rank) l
  | findNone {l : List Element} {score : ℕ} {val : List Byte} (hnone : ∀ e ∈ l, ¬e.Is score val) :
      Spec l (.find score val) (.found none 0) l
  | delete {l : List Element} {score : ℕ} {val : List Byte} {e : Element} {rank : ℕ}
      (hat : At l e rank) (hkey : e.Is score val) :
      Spec l (.delete score val) (.deleted true) (l.eraseIdx (rank - 1))
  | deleteNone {l : List Element} {score : ℕ} {val : List Byte} (hnone : ∀ e ∈ l, ¬e.Is score val) :
      Spec l (.delete score val) (.deleted false) l
  | modify {l l1 l2 : List Element} {score : ℕ} {val : List Byte} {lv addr : ℕ} {out : Out}
      (hdelete : Spec l (.delete score val) (.deleted true) l1)
      (hinsert : Spec l1 (.insert score val lv addr) out l2) : Spec l (.modify score val lv addr) out l2
  | modifyNone {l : List Element} {score : ℕ} {val : List Byte} {lv addr : ℕ}
      (hnone : ∀ e ∈ l, ¬e.Is score val) : Spec l (.modify score val lv addr) (.found none 0) l
  | getSize {l : List Element} : Spec l .getSize (.size l.length) l

/-! ### The condition on a call -/

/-- `new` returns storage that no node uses. -/
def Unused (t : SkipList) (addr : ℕ) (l : List Element) : Prop :=
  addr ≠ t.mHead ∧ ∀ e ∈ l, e.node ≠ addr

instance (t : SkipList) (addr : ℕ) (l : List Element) : Decidable (t.Unused addr l) :=
  inferInstanceAs (Decidable (_ ∧ _))

/-- What the Insert of a Modify needs of the elements that its Delete leaves. -/
def Refits (t : SkipList) (lv : ℕ) (left : List Element) : Prop :=
  if t.top = none then left = [] ∨ ∃ e ∈ left, lv < e.lv else lv < t.mLevel

instance (t : SkipList) (lv : ℕ) (left : List Element) : Decidable (t.Refits lv left) := by
  unfold Refits
  infer_instance

def StepOk (t : SkipList) : Op → Prop
  | .insert _ _ lv addr => lv < 255 ∧ t.Unused addr t.elements ∧ t.mLength + 1 < 4294967296 ∧
      (lv < t.mLevel ∨ t.top = none)
  | .delete _ _ => 0 < t.mLevel
  | .find score val => 0 < t.mLevel ∨ ∀ e ∈ t.elements, ¬e.Is score val
  | .modify score val lv addr => 0 < t.mLevel ∧ lv < 255 ∧
      ((∀ e ∈ t.elements, ¬e.Is score val) ∨
        t.Unused addr (t.elements.eraseP fun e => e.Is score val) ∧
          t.Refits lv (t.elements.eraseP fun e => e.Is score val))
  | .getSize => True

instance (t : SkipList) : ∀ op, Decidable (t.StepOk op)
  | .insert _ _ _ _ => inferInstanceAs (Decidable (_ ∧ _ ∧ _ ∧ (_ ∨ _)))
  | .delete _ _ => inferInstanceAs (Decidable (0 < t.mLevel))
  | .find _ _ => inferInstanceAs (Decidable (_ ∨ _))
  | .modify _ _ _ _ => inferInstanceAs (Decidable (_ ∧ _ ∧ (_ ∨ _ ∧ _)))
  | .getSize => .isTrue trivial

/-! ### Steps -/

variable {t : SkipList} {l : List Element} {score lv addr : ℕ} {val : List Byte}

theorem create_lookup (head : ℕ) :
    (create head).nodes.lookup head = some (SkipListNode.make 4294967295 [] 255) := by
  rw [create, ← AList.insert_empty, AList.lookup_insert]

theorem create_lookup_ne {head x : ℕ} (hx : x ≠ head) : (create head).nodes.lookup x = none := by
  rw [create, ← AList.insert_empty, AList.lookup_insert_ne hx, AList.lookup_empty]

theorem create_represents (exact : Prop) (head : ℕ) : Represents exact (create head) [] where
  head := by
    refine ⟨⟨4294967295, [], 256⟩, ?_, rfl⟩
    rw [Nodes.info, show (create head).mHead = head from rfl, create_lookup, Option.map_some,
      SkipListNode.make, List.length_replicate]
  stored := fun e he => absurd he List.not_mem_nil
  only := by
    intro x hx
    by_contra hne
    have hx' : x ≠ head := fun he => hne (Or.inl he)
    rw [Nodes.info, create_lookup_ne hx'] at hx
    cases hx
  nodup := List.nodup_singleton _
  ordered := List.Pairwise.nil
  low := fun e he => absurd he List.not_mem_nil
  length := rfl
  small := by decide
  level := show 1 < 256 by decide
  lanes := by
    intro i hi _
    refine ⟨0, ?_, fun _ => rfl⟩
    rw [Nodes.lane, show (create head).mHead = head from rfl, create_lookup, Option.bind_some,
      SkipListNode.make, List.getElem?_replicate, if_pos hi]
    rfl

theorem Unused.not_mem {t : SkipList} {addr : ℕ} {l : List Element} (h : t.Unused addr l) :
    addr ∉ t.mHead :: l.map Element.node := by
  intro hin
  rcases List.mem_cons.mp hin with he | hin
  · exact h.1 he
  · obtain ⟨e, he, heq⟩ := List.mem_map.mp hin
    exact h.2 e he heq

theorem Represents.insert {exact : Prop} (h : Represents exact t l) (score : ℕ) (val : List Byte) (hfree : t.Unused addr l) (hlv : lv < 255)
    (hsmall : l.length + 1 < 4294967296) (hlevel : lv < t.mLevel ∨ t.top = none) :
    ∃ pre post t', l = pre ++ post ∧ (∀ e ∈ pre, e.key < keyOf score val) ∧
      (∀ e ∈ post, keyOf score val ≤ e.key) ∧
      t.insert score val lv addr = .ok ((some addr, pre.length + 1), t') ∧
      Represents exact t' (pre ++ ⟨addr, score, val, lv⟩ :: post) ∧
      t'.mLevel = (if t.mLevel ≤ lv then lv + 1 else t.mLevel) ∧ (t.top = none → t'.top = none) := by
  obtain ⟨pre, post, rfl, hpre, hpost⟩ := h.ordered.split (keyOf score val)
  obtain ⟨t', hins, hrep⟩ := insert_ok h hfree.not_mem hlv hsmall hlevel hpre hpost
  exact ⟨pre, post, t', rfl, hpre, hpost, hins, hrep⟩

theorem insert_spec (h : Represents False t l) (score : ℕ) (val : List Byte) (hfree : t.Unused addr l) (hlv : lv < 255)
    (hsmall : l.length + 1 < 4294967296) (hlevel : lv < t.mLevel ∨ t.top = none) :
    ∃ rank t' l', t.insert score val lv addr = .ok ((some addr, rank), t') ∧
      Spec l (.insert score val lv addr) (.found (some addr) rank) l' ∧ Represents False t' l' := by
  obtain ⟨pre, post, t', rfl, -, -, hins, hrep, -⟩ :=
    h.insert score val hfree hlv hsmall hlevel
  refine ⟨pre.length + 1, t', _, hins, ?_, hrep⟩
  apply Spec.insert hfree.2
  · exact ⟨pre.length, by simp, rfl⟩
  · rw [Nat.add_sub_cancel, List.eraseIdx_append_of_length_le (le_refl _), Nat.sub_self]
    rfl
  · exact hrep.ordered

theorem delete_spec (h : Represents False t l) (hlevel : 0 < t.mLevel) (score : ℕ) (val : List Byte) :
    (∃ t', t.delete score val = .ok (true, t') ∧
        Spec l (.delete score val) (.deleted true) (l.eraseP fun e => e.Is score val) ∧
        Represents False t' (l.eraseP fun e => e.Is score val) ∧
        Lowered t t' (l.eraseP fun e => e.Is score val) ∧ t'.mHead = t.mHead ∧
        (l.eraseP fun e => e.Is score val).length + 1 = l.length) ∨
      (∀ e ∈ l, ¬e.Is score val) ∧ t.delete score val = .ok (false, t) := by
  rcases delete_ok h score val hlevel with ⟨pre, x, post, t', rfl, hpre, hx, hdel, hrep, hlow, hhead⟩ | ⟨hnone, hdel⟩
  · left
    have hxis : x.Is score val := (x.is_iff score val).mpr hx
    have herase : ((pre ++ x :: post).eraseP fun e => e.Is score val) = pre ++ post := by
      rw [List.eraseP_append_right, List.eraseP_cons_of_pos]
      · simpa using hxis
      · intro e he
        have hne := ne_of_lt (hpre e he)
        simpa [e.is_iff] using hne
    have hidx : (pre ++ x :: post).eraseIdx (pre.length + 1 - 1) = pre ++ post := by
      rw [Nat.add_sub_cancel, List.eraseIdx_append_of_length_le (le_refl _), Nat.sub_self]
      rfl
    rw [herase]
    refine ⟨t', hdel, ?_, hrep, hlow, hhead, ?_⟩
    · rw [← hidx]
      exact Spec.delete ⟨pre.length, by simp, rfl⟩ hxis
    · rw [List.length_append, List.length_append, List.length_cons]
      omega
  · right
    refine ⟨fun e he his => hnone e he ((e.is_iff score val).mp his), hdel⟩

theorem Lowered.refits {t' : SkipList} (h : Lowered t t' l) (hrefits : t.Refits lv l) (hlv : lv < 255) :
    lv < t'.mLevel := by
  unfold Refits at hrefits
  by_cases htop : t.top = none
  · rw [if_pos htop] at hrefits
    rcases hrefits with hnil | ⟨e, he, hlt⟩
    · rw [h.empty htop hnil]
      exact hlv
    · exact lt_of_lt_of_le hlt (h.above htop e he)
  · rw [if_neg htop] at hrefits
    rw [h.kept htop]
    exact hrefits

theorem find_spec (h : Represents False t l)
    (hlevel : 0 < t.mLevel ∨ ∀ e ∈ l, ¬e.Is score val) :
    ∃ node rank, t.find score val = .ok ((node, rank), t) ∧ Spec l (.find score val) (.found node rank) l := by
  have hlevel' : 0 < t.mLevel ∨ ∀ e ∈ l, e.key ≠ keyOf score val := by
    rcases hlevel with hpos | hnone
    · exact Or.inl hpos
    · exact Or.inr fun e he hkey => hnone e he ((e.is_iff score val).mpr hkey)
  obtain ⟨node, rank, hfind, hcase⟩ := find_ok h score val hlevel'
  refine ⟨node, rank, hfind, ?_⟩
  rcases hcase with ⟨e, hkey, hat, rfl⟩ | ⟨hnone, rfl, rfl⟩
  · exact Spec.find hat ((e.is_iff score val).mpr hkey)
  · exact Spec.findNone fun e he his => hnone e he ((e.is_iff score val).mp his)

theorem modify_spec (h : Represents False t l) (hlevel : 0 < t.mLevel) (hlv : lv < 255)
    (hok : (∀ e ∈ l, ¬e.Is score val) ∨ t.Unused addr (l.eraseP fun e => e.Is score val) ∧
      t.Refits lv (l.eraseP fun e => e.Is score val)) :
    ∃ node rank t' l', t.modify score val lv addr = .ok ((node, rank), t') ∧
      Spec l (.modify score val lv addr) (.found node rank) l' ∧ Represents False t' l' := by
  rcases delete_spec h hlevel score val with ⟨t1, hdel, hspec, hrep, hlow, hhead, hlength⟩ | ⟨hnone, hdel⟩
  · have hpresent : ¬∀ e ∈ l, ¬e.Is score val := by
      intro hnone
      rw [List.eraseP_of_forall_not (by simpa using hnone)] at hlength
      omega
    obtain ⟨hunused, hrefits⟩ := hok.resolve_left hpresent
    have hunused' : t1.Unused addr (l.eraseP fun e => e.Is score val) := by
      rw [Unused, hhead]
      exact hunused
    have hsmall := h.small
    obtain ⟨rank, t', l', hins, hspec', hrep'⟩ := insert_spec hrep score val hunused' hlv (by omega)
      (Or.inl (hlow.refits hrefits hlv))
    refine ⟨some addr, rank, t', l', ?_, Spec.modify hspec hspec', hrep'⟩
    simp only [modify, hdel, Exec.ok_bind, if_true, hins]
  · refine ⟨none, 0, t, l, ?_, Spec.modifyNone hnone, h⟩
    simp only [modify, hdel, Exec.ok_bind, Bool.false_eq_true, if_false]
    rfl

theorem step_spec (h : Represents False t l) (op : Op) (hok : t.StepOk op) :
    ∃ out t' l', t.step op = .ok (out, t') ∧ Spec l op out l' ∧ Represents False t' l' := by
  cases op with
  | insert score val lv addr =>
    obtain ⟨hlv, hfree, hsmall, hlevel⟩ := hok
    rw [h.elements_eq] at hfree
    rw [h.length] at hsmall
    obtain ⟨rank, t', l', hins, hspec, hrep⟩ := insert_spec h score val hfree hlv hsmall hlevel
    refine ⟨.found (some addr) rank, t', l', ?_, hspec, hrep⟩
    simp only [step, hins, Exec.ok_bind]
    rfl
  | delete score val =>
    rcases delete_spec h hok score val with ⟨t', hdel, hspec, hrep, -⟩ | ⟨hnone, hdel⟩
    · refine ⟨.deleted true, t', _, ?_, hspec, hrep⟩
      simp only [step, hdel, Exec.ok_bind]
      rfl
    · refine ⟨.deleted false, t, l, ?_, Spec.deleteNone hnone, h⟩
      simp only [step, hdel, Exec.ok_bind]
      rfl
  | find score val =>
    simp only [StepOk, h.elements_eq] at hok
    obtain ⟨node, rank, hfind, hspec⟩ := find_spec h hok
    refine ⟨.found node rank, t, l, ?_, hspec, h⟩
    simp only [step, hfind, Exec.ok_bind]
    rfl
  | modify score val lv addr =>
    simp only [StepOk, h.elements_eq] at hok
    obtain ⟨node, rank, t', l', hmod, hspec, hrep⟩ := modify_spec h hok.1 hok.2.1 hok.2.2
    refine ⟨.found node rank, t', l', ?_, hspec, hrep⟩
    simp only [step, hmod, Exec.ok_bind]
    rfl
  | getSize =>
    refine ⟨.size l.length, t, l, ?_, Spec.getSize, h⟩
    rw [← h.length]
    rfl

/-- Every run whose calls meet the condition answers as the ordered list does, with no access
outside the vectors, and ends with its elements along level 0. -/
theorem run_refines_list (head : ℕ) (ops : List Op) (h : StepsOk step StepOk (create head) ops) :
    ∃ outs t l, runOps step (create head) ops = .ok (outs, t) ∧ Trace Spec [] ops outs l ∧
      t.elements = l ∧ Ordered l ∧ t.getSize = l.length := by
  obtain ⟨outs, t, l, hrun, htrace, hrep⟩ :=
    run_simulates (fun t l op (hr : Represents False t l) (hok : StepOk t op) => step_spec hr op hok) ops
      (create head) [] (create_represents False head) h
  exact ⟨outs, t, l, hrun, htrace, hrep.elements_eq, hrep.ordered, hrep.length⟩

/-- The Delete leaves `m_level_` at 3, below the level of the node with score 2. -/
theorem run_refines_list_eight :
    ∃ outs t l, runOps step (create 0) [.insert 1 [97] 0 1, .insert 2 [98] 3 2, .insert 5 [98] 1 3,
        .find 5 [98], .delete 1 [97], .modify 5 [98] 2 3, .find 5 [98], .getSize] = .ok (outs, t) ∧
      Trace Spec [] [.insert 1 [97] 0 1, .insert 2 [98] 3 2, .insert 5 [98] 1 3,
        .find 5 [98], .delete 1 [97], .modify 5 [98] 2 3, .find 5 [98], .getSize] outs l ∧
      t.elements = l ∧ Ordered l ∧ t.getSize = l.length :=
  run_refines_list 0 _ (by decide +kernel)

theorem mem_delete {l l' : List Element} {score : ℕ} {val : List Byte} {done : Bool} {e : Element}
    (h : Spec l (.delete score val) (.deleted done) l') (he : e ∈ l) (hne : ¬e.Is score val) : e ∈ l' := by
  cases h with
  | delete hat hkey =>
    obtain ⟨r, hget, rfl⟩ := hat
    obtain ⟨i, hi⟩ := List.mem_iff_getElem?.mp he
    have hir : i ≠ r := by
      intro heq
      rw [heq, hget] at hi
      cases hi
      exact hne hkey
    exact List.mem_eraseIdx_iff_getElem?.mpr ⟨i, hir, hi⟩
  | deleteNone => exact he

/-- With two elements, a Delete of one makes the other one disappear. -/
theorem find_after_delete :
    ¬∃ outs t l, runOps step (create 0) [.insert 1 [97] 0 1, .insert 2 [98] 0 2, .delete 1 [97], .find 2 [98]]
        = .ok (outs, t) ∧
      Trace Spec [] [.insert 1 [97] 0 1, .insert 2 [98] 0 2, .delete 1 [97], .find 2 [98]] outs l := by
  intro ⟨outs, t, l, hrun, htrace⟩
  have houts : (runOps step (create 0) [.insert 1 [97] 0 1, .insert 2 [98] 0 2, .delete 1 [97], .find 2 [98]]).map
      Prod.fst = .ok [.found (some 1) 1, .found (some 2) 2, .deleted true, .found none 0] := by decide +kernel
  rw [hrun] at houts
  cases houts
  cases htrace with
  | cons h1 htrace =>
    cases htrace with
    | cons h2 htrace =>
      cases htrace with
      | cons h3 htrace =>
        cases htrace with
        | cons h4 htrace =>
          cases h2 with
          | insert hfree hat =>
            obtain ⟨r, hget, -⟩ := hat
            have hmem := mem_delete h3 (List.mem_of_getElem? hget) (by decide)
            cases h4 with
            | findNone hnone => exact hnone _ hmem ⟨rfl, rfl⟩

end SkipList

end DeftRpc.DataStruct
