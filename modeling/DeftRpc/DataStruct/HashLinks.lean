import DeftRpc.DataStruct.HashInvariant
import DeftRpc.DataStruct.HashNodes
import DeftRpc.Foundation.LinkedChain
import DeftRpc.Foundation.Related

/-!
# The nodes of a HashTable are its chains

The table of nodes does what the table of chains does when every value is taken with
the address of its node: a bucket points at the first entry of the chain, the nodes of
a chain are linked both ways, and there are no others.
-/

namespace DeftRpc.DataStruct
open DeftRpc.Foundation

variable {V : Type}

def addr (entry : HashEntry (ℕ × V)) : ℕ := entry.val.1

/-- What a bucket with the chain points at. -/
def headPtr (chain : List (HashEntry (ℕ × V))) : Option ℕ := (chain.map addr).head?

namespace HashNodes

def nextOf (nodes : HashNodes V) (p : ℕ) : Option ℕ := (nodes.lookup p).bind HashNode.mNext

def prevOf (nodes : HashNodes V) (p : ℕ) : Option ℕ := (nodes.lookup p).bind HashNode.mPrev

def content (nodes : HashNodes V) (p : ℕ) : Option (List Byte × V) :=
  (nodes.lookup p).map fun node => (node.mKey, node.mVal)

theorem mem_iff_content {nodes : HashNodes V} {p : ℕ} : p ∈ nodes ↔ nodes.content p ≠ none := by
  rw [← AList.lookup_isSome, content]
  cases nodes.lookup p <;> simp

theorem deref_of_content {nodes : HashNodes V} {p : ℕ} {c : List Byte × V} (h : nodes.content p = some c) :
    nodes.deref p = .ok ⟨c.1, c.2, nodes.nextOf p, nodes.prevOf p⟩ := by
  unfold content at h
  unfold deref nextOf prevOf
  cases hlook : nodes.lookup p with
  | none =>
    rw [hlook] at h
    cases h
  | some node =>
    rw [hlook] at h
    cases h
    rfl

theorem content_insert (nodes : HashNodes V) (p : ℕ) (node : HashNode V) :
    HashNodes.content (nodes.insert p node) = Function.update nodes.content p (some (node.mKey, node.mVal)) := by
  funext q
  by_cases hq : q = p
  · subst hq
    rw [content, AList.lookup_insert, Function.update_self]
    rfl
  · rw [content, AList.lookup_insert_ne hq, Function.update_of_ne hq, content]

theorem nextOf_insert (nodes : HashNodes V) (p : ℕ) (node : HashNode V) :
    HashNodes.nextOf (nodes.insert p node) = Function.update nodes.nextOf p node.mNext := by
  funext q
  by_cases hq : q = p
  · subst hq
    rw [nextOf, AList.lookup_insert, Function.update_self]
    rfl
  · rw [nextOf, AList.lookup_insert_ne hq, Function.update_of_ne hq, nextOf]

theorem prevOf_insert (nodes : HashNodes V) (p : ℕ) (node : HashNode V) :
    HashNodes.prevOf (nodes.insert p node) = Function.update nodes.prevOf p node.mPrev := by
  funext q
  by_cases hq : q = p
  · subst hq
    rw [prevOf, AList.lookup_insert, Function.update_self]
    rfl
  · rw [prevOf, AList.lookup_insert_ne hq, Function.update_of_ne hq, prevOf]

theorem content_erase (nodes : HashNodes V) (p : ℕ) :
    HashNodes.content (nodes.erase p) = Function.update nodes.content p none := by
  funext q
  by_cases hq : q = p
  · subst hq
    rw [content, AList.lookup_erase, Function.update_self]
    rfl
  · rw [content, AList.lookup_erase_ne hq, Function.update_of_ne hq, content]

theorem links_erase {nodes : HashNodes V} {p q : ℕ} (h : q ≠ p) :
    HashNodes.nextOf (nodes.erase p) q = nodes.nextOf q ∧ HashNodes.prevOf (nodes.erase p) q = nodes.prevOf q := by
  rw [nextOf, prevOf, AList.lookup_erase_ne h]
  exact ⟨rfl, rfl⟩

/-! ### Changes of the links -/

/-- The same nodes with other links. -/
structure Relinked (nodes nodes' : HashNodes V) (next prev : ℕ → Option ℕ) : Prop where
  content : nodes'.content = nodes.content
  next : nodes'.nextOf = next
  prev : nodes'.prevOf = prev

theorem setNext_spec {nodes : HashNodes V} {p : ℕ} (h : nodes.content p ≠ none) (n : Option ℕ) :
    ∃ nodes', nodes.setNext p n = .ok nodes' ∧
      nodes.Relinked nodes' (Function.update nodes.nextOf p n) nodes.prevOf := by
  obtain ⟨c, hc⟩ := Option.ne_none_iff_exists'.mp h
  refine ⟨nodes.insert p ⟨c.1, c.2, n, nodes.prevOf p⟩, ?_, ?_, nextOf_insert nodes p _, ?_⟩
  · rw [setNext, deref_of_content hc]
    rfl
  · rw [content_insert]
    exact Function.update_eq_self_iff.mpr hc.symm
  · rw [prevOf_insert]
    exact Function.update_eq_self p nodes.prevOf

theorem setPrev_spec {nodes : HashNodes V} {p : ℕ} (h : nodes.content p ≠ none) (n : Option ℕ) :
    ∃ nodes', nodes.setPrev p n = .ok nodes' ∧
      nodes.Relinked nodes' nodes.nextOf (Function.update nodes.prevOf p n) := by
  obtain ⟨c, hc⟩ := Option.ne_none_iff_exists'.mp h
  refine ⟨nodes.insert p ⟨c.1, c.2, nodes.nextOf p, n⟩, ?_, ?_, ?_, prevOf_insert nodes p _⟩
  · rw [setPrev, deref_of_content hc]
    rfl
  · rw [content_insert]
    exact Function.update_eq_self_iff.mpr hc.symm
  · rw [nextOf_insert]
    exact Function.update_eq_self p nodes.nextOf

/-- The links back after `if (p != nullptr) p->SetPrev(n);` -/
def backLink (prev : ℕ → Option ℕ) (p n : Option ℕ) : ℕ → Option ℕ :=
  match p with
  | none => prev
  | some p => Function.update prev p n

theorem backLink_head (prev : ℕ → Option ℕ) {p n : Option ℕ} {q : ℕ} (hq : q ∈ p) : backLink prev p n q = n := by
  cases hq
  exact Function.update_self q n prev

theorem backLink_other (prev : ℕ → Option ℕ) {p n : Option ℕ} {q : ℕ} (hq : q ∉ p) :
    backLink prev p n q = prev q := by
  cases p with
  | none => rfl
  | some p =>
    have hne : q ≠ p := by
      rintro rfl
      exact hq rfl
    exact Function.update_of_ne hne n prev

theorem setPrevOf_spec {nodes : HashNodes V} {p : Option ℕ} (h : ∀ q ∈ p, nodes.content q ≠ none)
    (n : Option ℕ) :
    ∃ nodes', nodes.setPrevOf p n = .ok nodes' ∧
      nodes.Relinked nodes' nodes.nextOf (backLink nodes.prevOf p n) := by
  cases p with
  | none => exact ⟨nodes, rfl, rfl, rfl, rfl⟩
  | some p => exact setPrev_spec (h p rfl) n

theorem linkFront_spec {nodes : HashNodes V} {entry : ℕ} {bucket : Option ℕ}
    (h : nodes.content entry ≠ none) (hbucket : ∀ q ∈ bucket, nodes.content q ≠ none) :
    ∃ nodes', nodes.linkFront entry bucket = .ok nodes' ∧
      nodes.Relinked nodes' (Function.update nodes.nextOf entry bucket)
        (backLink (Function.update nodes.prevOf entry none) bucket (some entry)) := by
  obtain ⟨nodes1, hset1, h1⟩ := setNext_spec h bucket
  obtain ⟨nodes2, hset2, h2⟩ := setPrev_spec (h1.content ▸ h) none
  have hcontent := h2.content.trans h1.content
  obtain ⟨nodes3, hset3, h3⟩ := setPrevOf_spec (p := bucket) (fun q hq => hcontent ▸ hbucket q hq) (some entry)
  refine ⟨nodes3, ?_, h3.content.trans hcontent, ?_, ?_⟩
  · simp only [linkFront, hset1, Exec.ok_bind, hset2, hset3]
  · rw [h3.next, h2.next, h1.next]
  · rw [h3.prev, h2.prev, h1.prev]

end HashNodes

/-! ### The chains that the nodes form -/

/-- The nodes are those of the entries. -/
structure Owns (nodes : HashNodes V) (entries : List (HashEntry (ℕ × V))) : Prop where
  nodup : (entries.map addr).Nodup
  live : ∀ p, nodes.content p ≠ none → p ∈ entries.map addr
  data : ∀ e ∈ entries, nodes.content (addr e) = some (e.key, e.val.2)

theorem Owns.perm {nodes : HashNodes V} {entries entries' : List (HashEntry (ℕ × V))}
    (h : Owns nodes entries) (hperm : entries'.Perm entries) : Owns nodes entries' where
  nodup := (hperm.map addr).nodup_iff.mpr h.nodup
  live := fun p hp => (hperm.map addr).mem_iff.mpr (h.live p hp)
  data := fun e he => h.data e (hperm.mem_iff.mp he)

theorem Owns.length_le {nodes : HashNodes V} {entries : List (HashEntry (ℕ × V))} (h : Owns nodes entries) :
    entries.length ≤ nodes.entries.length := by
  have hsub : entries.map addr ⊆ nodes.keys := by
    intro p hp
    obtain ⟨e, he, rfl⟩ := List.mem_map.mp hp
    refine AList.mem_keys.mp (HashNodes.mem_iff_content.mpr ?_)
    rw [h.data e he]
    exact Option.some_ne_none _
  have hle := (List.subperm_of_subset h.nodup hsub).length_le
  rwa [List.length_map, AList.keys, List.keys, List.length_map] at hle

/-- The nodes are linked to chains, and to a part `loose` of a chain whose first node points back
at `before`. -/
structure Stores (nodes : HashNodes V) (before : Option ℕ) (loose : List (HashEntry (ℕ × V)))
    (chains : List (List (HashEntry (ℕ × V)))) : Prop where
  front : Chained nodes.nextOf nodes.prevOf before (loose.map addr) none
  linked : ∀ (i : ℕ) chain, chains[i]? = some chain →
    Chained nodes.nextOf nodes.prevOf none (chain.map addr) none
  owns : Owns nodes (loose ++ chains.flatten)

variable {nodes nodes' : HashNodes V} {before : Option ℕ} {e : HashEntry (ℕ × V)}
  {loose chain pre post : List (HashEntry (ℕ × V))} {chains : List (List (HashEntry (ℕ × V)))} {i : ℕ}

theorem mem_flatten_of_get {x : HashEntry (ℕ × V)} (hget : chains[i]? = some chain) (hx : x ∈ chain) :
    x ∈ chains.flatten :=
  List.mem_flatten.mpr ⟨chain, List.mem_of_getElem? hget, hx⟩

theorem addr_ne_of_get (h : ((loose ++ chains.flatten).map addr).Nodup) {j : ℕ}
    {chain' : List (HashEntry (ℕ × V))} (hget : chains[i]? = some chain) (hget' : chains[j]? = some chain')
    (hne : j ≠ i) {x y : HashEntry (ℕ × V)} (hx : x ∈ chain') (hy : y ∈ chain) : addr x ≠ addr y := by
  have hperm := flatten_set_perm hget []
  rw [List.append_nil] at hperm
  rw [List.map_append] at h
  have hnodup := (hperm.map addr).nodup_iff.mpr (List.nodup_append.mp h).2.1
  rw [List.map_append] at hnodup
  have hother : (chains.set i [])[j]? = some chain' := by
    rw [List.getElem?_set_ne (Ne.symm hne), hget']
  exact (List.nodup_append.mp hnodup).2.2 _ (List.mem_map_of_mem (mem_flatten_of_get hother hx)) _
    (List.mem_map_of_mem hy)

theorem mem_map_head {p : ℕ} (h : p ∈ headPtr chain) : ∃ x ∈ chain, addr x = p := by
  have hmem := List.mem_of_mem_head? h
  simpa using hmem

theorem chained_frame {after : Option ℕ} (h : Chained nodes.nextOf nodes.prevOf before (chain.map addr) after)
    (hsame : ∀ x ∈ chain, nodes'.nextOf (addr x) = nodes.nextOf (addr x) ∧
      nodes'.prevOf (addr x) = nodes.prevOf (addr x)) :
    Chained nodes'.nextOf nodes'.prevOf before (chain.map addr) after := by
  refine h.frame ?_ ?_
  · intro p hp
    obtain ⟨x, hx, rfl⟩ := List.mem_map.mp hp
    exact (hsame x hx).1
  · intro p hp
    obtain ⟨x, hx, rfl⟩ := List.mem_map.mp hp
    exact (hsame x hx).2

theorem Stores.take (h : Stores nodes before [] chains) (hget : chains[i]? = some chain) :
    Stores nodes none chain (chains.set i []) := by
  refine ⟨h.linked i chain hget, fun j chain' hj => ?_, h.owns.perm ?_⟩
  · rw [List.getElem?_set] at hj
    split at hj
    · split at hj
      · cases hj
        trivial
      · cases hj
    · exact h.linked j chain' hj
  · have hperm := flatten_set_perm hget []
    rw [List.append_nil] at hperm
    exact List.perm_append_comm.trans hperm

theorem Stores.reset (h : Stores nodes before [] chains) : Stores nodes none [] chains :=
  ⟨trivial, h.linked, h.owns⟩

theorem Owns.relinked {entries : List (HashEntry (ℕ × V))} {next prev : ℕ → Option ℕ}
    (h : Owns nodes entries) (hrel : nodes.Relinked nodes' next prev) : Owns nodes' entries :=
  ⟨h.nodup, fun p hp => h.live p (hrel.content ▸ hp), fun e he => hrel.content ▸ h.data e he⟩

theorem Owns.content_ne {entries : List (HashEntry (ℕ × V))} (h : Owns nodes entries) (he : e ∈ entries) :
    nodes.content (addr e) ≠ none := by
  rw [h.data e he]
  exact Option.some_ne_none _

theorem Stores.push (h : Stores nodes before (e :: loose) chains) (hget : chains[i]? = some chain) :
    ∃ nodes', nodes.linkFront (addr e) (headPtr chain) = .ok nodes' ∧
      Stores nodes' (some (addr e)) loose (chains.set i (e :: chain)) := by
  have hall : ∀ x ∈ chain, x ∈ e :: loose ++ chains.flatten := fun x hx =>
    List.mem_append_right _ (mem_flatten_of_get hget hx)
  have hhead : ∀ p ∈ headPtr chain, nodes.content p ≠ none := by
    intro p hp
    obtain ⟨x, hx, rfl⟩ := mem_map_head hp
    exact h.owns.content_ne (hall x hx)
  have hfirst : e ∈ e :: loose ++ chains.flatten := List.mem_append_left _ List.mem_cons_self
  obtain ⟨nodes', hlink, hrel⟩ := HashNodes.linkFront_spec (h.owns.content_ne hfirst) hhead
  have hnodup := h.owns.nodup
  rw [List.cons_append, List.map_cons] at hnodup
  obtain ⟨hfresh, hrest⟩ := List.nodup_cons.mp hnodup
  have hne : ∀ x ∈ loose ++ chains.flatten, addr x ≠ addr e := by
    intro x hx heq
    exact hfresh (heq ▸ List.mem_map_of_mem hx)
  -- What lies in no other chain is not the head that gets its link back.
  have hsame : ∀ x ∈ loose ++ chains.flatten, addr x ∉ headPtr chain →
      nodes'.nextOf (addr x) = nodes.nextOf (addr x) ∧ nodes'.prevOf (addr x) = nodes.prevOf (addr x) := by
    intro x hx hnot
    rw [hrel.next, hrel.prev, HashNodes.backLink_other _ hnot, Function.update_of_ne (hne x hx),
      Function.update_of_ne (hne x hx)]
    exact ⟨rfl, rfl⟩
  have hdisj : ∀ x ∈ loose, addr x ∉ headPtr chain := by
    intro x hx hp
    obtain ⟨y, hy, heq⟩ := mem_map_head hp
    rw [List.map_append] at hrest
    exact (List.nodup_append.mp hrest).2.2 _ (List.mem_map_of_mem hx) _
      (List.mem_map_of_mem (mem_flatten_of_get hget hy)) heq.symm
  refine ⟨nodes', hlink, ?_, fun j chain' hj => ?_, (h.owns.relinked hrel).perm ?_⟩
  · exact chained_frame h.front.2.2 fun x hx => hsame x (List.mem_append_left _ hx) (hdisj x hx)
  · rw [List.getElem?_set] at hj
    split at hj
    · split at hj
      · cases hj
        have hchain : (chain.map addr).Nodup := by
          have hsub : chain.Sublist chains.flatten := List.sublist_flatten_of_mem (List.mem_of_getElem? hget)
          exact hrest.sublist ((hsub.trans (List.sublist_append_right _ _)).map addr)
        refine (h.linked i chain hget).push hchain ?_ ?_ ?_ ?_ ?_
        · intro p hp
          obtain ⟨x, hx, rfl⟩ := List.mem_map.mp hp
          rw [hrel.next, Function.update_of_ne (hne x (List.mem_append_right _ (mem_flatten_of_get hget hx)))]
        · rw [hrel.next, Function.update_self]
          rfl
        · have hnot : addr e ∉ headPtr chain := by
            intro hp
            obtain ⟨x, hx, heq⟩ := mem_map_head hp
            exact hne x (List.mem_append_right _ (mem_flatten_of_get hget hx)) heq
          rw [hrel.prev, HashNodes.backLink_other _ hnot, Function.update_self]
        · intro p hp
          rw [hrel.prev]
          exact HashNodes.backLink_head _ hp
        · intro p hp hnot
          obtain ⟨x, hx, rfl⟩ := List.mem_map.mp hp
          exact (hsame x (List.mem_append_right _ (mem_flatten_of_get hget hx)) hnot).2
      · cases hj
    · next hij =>
      have hother : ∀ x ∈ chain', addr x ∉ headPtr chain := by
        intro x hx hp
        obtain ⟨y, hy, heq⟩ := mem_map_head hp
        exact addr_ne_of_get hrest hget hj (Ne.symm hij) hx hy heq.symm
      exact chained_frame (h.linked j chain' hj) fun x hx =>
        hsame x (List.mem_append_right _ (mem_flatten_of_get hj hx)) (hother x hx)
  · have hcons := (flatten_set_cons hget e).append_left loose
    exact hcons.trans List.perm_middle

theorem Stores.alloc (h : Stores nodes before [] chains) {p : ℕ} (hp : p ∉ nodes) (key : List Byte) (v : V) :
    Stores (nodes.insert p ⟨key, v, none, none⟩) none [⟨key, (p, v)⟩] chains := by
  have hp' : nodes.content p = none := by
    by_contra hne
    exact hp (HashNodes.mem_iff_content.mpr hne)
  have hne : ∀ x ∈ chains.flatten, addr x ≠ p := by
    intro x hx heq
    have hdata := h.owns.data x hx
    rw [heq, hp'] at hdata
    cases hdata
  refine ⟨⟨?_, ?_, trivial⟩, fun j chain' hj => ?_, ⟨?_, ?_, ?_⟩⟩
  · rw [HashNodes.prevOf_insert]
    simp only [addr, Function.update_self]
  · rw [HashNodes.nextOf_insert]
    simp [addr]
  · refine chained_frame (h.linked j chain' hj) fun x hx => ?_
    have hother := hne x (mem_flatten_of_get hj hx)
    rw [HashNodes.nextOf_insert, HashNodes.prevOf_insert, Function.update_of_ne hother,
      Function.update_of_ne hother]
    exact ⟨rfl, rfl⟩
  · refine List.nodup_cons.mpr ⟨fun hmem => ?_, h.owns.nodup⟩
    obtain ⟨x, hx, heq⟩ := List.mem_map.mp hmem
    exact hne x hx heq
  · intro q hq
    rw [HashNodes.content_insert] at hq
    by_cases heq : q = p
    · subst heq
      exact List.mem_cons_self
    · rw [Function.update_of_ne heq] at hq
      exact List.mem_cons_of_mem _ (h.owns.live q hq)
  · intro x hx
    rw [HashNodes.content_insert]
    rcases List.mem_cons.mp hx with rfl | hx
    · exact Function.update_self _ _ _
    · rw [Function.update_of_ne (hne x hx)]
      exact h.owns.data x hx

theorem Owns.erase {entries : List (HashEntry (ℕ × V))} (h : Owns nodes (e :: entries))
    (hcontent : nodes'.content = Function.update nodes.content (addr e) none) : Owns nodes' entries := by
  obtain ⟨hfresh, hrest⟩ := List.nodup_cons.mp h.nodup
  refine ⟨hrest, fun p hp => ?_, fun x hx => ?_⟩
  · rw [hcontent] at hp
    by_cases heq : p = addr e
    · subst heq
      rw [Function.update_self] at hp
      exact absurd rfl hp
    · rw [Function.update_of_ne heq] at hp
      rcases List.mem_cons.mp (h.live p hp) with hmem | hmem
      · exact absurd hmem heq
      · exact hmem
  · have hne : addr x ≠ addr e := fun heq => hfresh (heq ▸ List.mem_map_of_mem hx)
    rw [hcontent, Function.update_of_ne hne]
    exact h.data x (List.mem_cons_of_mem e hx)

theorem Stores.free (h : Stores nodes before (e :: loose) chains) :
    Stores (nodes.erase (addr e)) (some (addr e)) loose chains := by
  have hnodup := h.owns.nodup
  rw [List.cons_append, List.map_cons] at hnodup
  have hne : ∀ x ∈ loose ++ chains.flatten, addr x ≠ addr e := by
    intro x hx heq
    exact (List.nodup_cons.mp hnodup).1 (heq ▸ List.mem_map_of_mem hx)
  refine ⟨?_, fun j chain' hj => ?_, h.owns.erase (HashNodes.content_erase nodes (addr e))⟩
  · exact chained_frame h.front.2.2 fun x hx => HashNodes.links_erase (hne x (List.mem_append_left _ hx))
  · exact chained_frame (h.linked j chain' hj) fun x hx =>
      HashNodes.links_erase (hne x (List.mem_append_right _ (mem_flatten_of_get hj hx)))

/-! ### The loops along a chain -/

/-- The loop finds the first entry with the key and the node before it. -/
theorem search_spec (hlinks : Chained nodes.nextOf nodes.prevOf before (chain.map addr) none)
    (hdata : ∀ x ∈ chain, nodes.content (addr x) = some (x.key, x.val.2)) (key : List Byte) {turns : ℕ}
    (hturns : chain.length < turns) :
    (∃ x pre post, chain = pre ++ x :: post ∧ chain.find? (fun y => y.key = cString key) = some x ∧
      chain.eraseP (fun y => y.key = cString key) = pre ++ post ∧
      nodes.search key turns before (headPtr chain) =
        .ok (some ((pre.map addr).getLast?.or before, addr x))) ∨
    (chain.find? (fun y => y.key = cString key) = none ∧
      nodes.search key turns before (headPtr chain) = .ok none) := by
  induction chain generalizing before turns with
  | nil =>
    obtain ⟨turns, rfl⟩ : ∃ n, turns = n + 1 := ⟨turns - 1, by omega⟩
    exact .inr ⟨rfl, rfl⟩
  | cons y chain ih =>
    obtain ⟨turns, rfl⟩ : ∃ n, turns = n + 1 := ⟨turns - 1, by omega⟩
    obtain ⟨-, hnext, hrest⟩ := hlinks
    have hderef := HashNodes.deref_of_content (hdata y List.mem_cons_self)
    have hstep : nodes.search key (turns + 1) before (headPtr (y :: chain)) =
        if y.key = cString key then .ok (some (before, addr y))
        else nodes.search key turns (some (addr y)) (headPtr chain) := by
      show nodes.search key (turns + 1) before (some (addr y)) = _
      rw [Option.or_none] at hnext
      simp only [HashNodes.search, hderef, Exec.ok_bind, hnext]
      rfl
    rw [hstep]
    by_cases hkey : y.key = cString key
    · refine .inl ⟨y, [], chain, rfl, ?_, ?_, if_pos hkey⟩
      · simp [hkey]
      · simp [hkey]
    · rw [if_neg hkey]
      rcases ih hrest (fun x hx => hdata x (List.mem_cons_of_mem y hx)) (Nat.lt_of_succ_lt_succ hturns) with
        ⟨x, pre, post, rfl, hfind, herase, hsearch⟩ | ⟨hfind, hsearch⟩
      · refine .inl ⟨x, y :: pre, post, rfl, ?_, ?_, ?_⟩
        · rw [List.find?_cons_of_neg (by simpa using hkey), hfind]
        · rw [List.eraseP_cons_of_neg (by simpa using hkey), herase]
          rfl
        · rw [hsearch, List.map_cons, List.getLast?_cons]
          cases (pre.map addr).getLast? <;> rfl
      · refine .inr ⟨?_, hsearch⟩
        rw [List.find?_cons_of_neg (by simpa using hkey), hfind]

theorem freeBucket_spec (h : Stores nodes before loose chains) {turns : ℕ} (hturns : loose.length < turns) :
    ∃ nodes', HashNodes.freeBucket turns nodes (headPtr loose) = .ok (loose.map addr, nodes') ∧
      Stores nodes' none [] chains := by
  induction loose generalizing nodes before turns with
  | nil =>
    obtain ⟨turns, rfl⟩ : ∃ n, turns = n + 1 := ⟨turns - 1, by omega⟩
    exact ⟨nodes, rfl, h.reset⟩
  | cons e loose ih =>
    obtain ⟨turns, rfl⟩ : ∃ n, turns = n + 1 := ⟨turns - 1, by omega⟩
    have hderef := HashNodes.deref_of_content (h.owns.data e (List.mem_append_left _ List.mem_cons_self))
    have hnext : nodes.nextOf (addr e) = headPtr loose := by
      rw [h.front.2.1, Option.or_none]
      rfl
    obtain ⟨nodes', hfree, hstores⟩ := ih h.free (Nat.lt_of_succ_lt_succ hturns)
    refine ⟨nodes', ?_, hstores⟩
    show HashNodes.freeBucket (turns + 1) nodes (some (addr e)) = _
    simp only [HashNodes.freeBucket, hderef, Exec.ok_bind, hnext, hfree]
    rfl

/-! ### Taking a node out -/

theorem head_append (pre post : List (HashEntry (ℕ × V))) (e : HashEntry (ℕ × V)) (hpre : pre ≠ []) :
    headPtr (pre ++ post) = headPtr (pre ++ e :: post) := by
  cases pre with
  | nil => exact absurd rfl hpre
  | cons x pre => rfl

theorem map_headPtr_set (buckets : List (List (HashEntry (ℕ × V)))) (i : ℕ) (chain : List (HashEntry (ℕ × V))) :
    (buckets.set i chain).map headPtr = (buckets.map headPtr).set i (headPtr chain) := List.map_set

theorem set_self {α : Type} {l : List α} {i : ℕ} {a : α} (h : l[i]? = some a) : l.set i a = l := by
  obtain ⟨hlt, hget⟩ := List.getElem?_eq_some_iff.mp h
  rw [← hget, List.set_getElem_self]

/-- The links that unlink writes, before the node is deleted. -/
theorem unlink_relinks (h : Stores nodes none [] chains) (hget : chains[i]? = some (pre ++ e :: post))
    {buckets : List (List (HashEntry (ℕ × V)))} {j : ℕ} (hbucket : buckets[j]? = some (pre ++ e :: post)) :
    ∃ nodes1, NodeTable.unlink nodes (some (buckets.map headPtr)) j (pre.map addr).getLast? (addr e) =
        .ok (nodes1.erase (addr e), some ((buckets.set j (pre ++ post)).map headPtr)) ∧
      nodes.Relinked nodes1 (HashNodes.backLink nodes.nextOf (pre.map addr).getLast? (post.map addr).head?)
        (HashNodes.backLink nodes.prevOf (post.map addr).head? (pre.map addr).getLast?) := by
  have hmem : ∀ x ∈ pre ++ e :: post, x ∈ chains.flatten := fun x hx => mem_flatten_of_get hget hx
  have hnext : nodes.nextOf (addr e) = (post.map addr).head? := by
    have hlinks := h.linked i _ hget
    rw [List.map_append, List.map_cons] at hlinks
    have hboth := hlinks.links.2
    rw [Option.or_none] at hboth
    exact hboth
  have hpost : ∀ p ∈ (post.map addr).head?, nodes.content p ≠ none := by
    intro p hp
    obtain ⟨x, hx, rfl⟩ := mem_map_head hp
    exact h.owns.content_ne (hmem x (by simp [hx]))
  have hderef := HashNodes.deref_of_content (h.owns.data e (hmem e (by simp)))
  rw [map_headPtr_set]
  cases hlast : (pre.map addr).getLast? with
  | none =>
    have hnil : pre = [] := by simpa using hlast
    subst hnil
    obtain ⟨nodes1, hset, hrel⟩ := HashNodes.setPrevOf_spec hpost none
    refine ⟨nodes1, ?_, hrel⟩
    simp only [NodeTable.unlink, hderef, Exec.ok_bind, hnext, hset]
    rfl
  | some q =>
    have hne : pre ≠ [] := by
      rintro rfl
      cases hlast
    have hq : nodes.content q ≠ none := by
      have hin := List.mem_of_mem_getLast? (Option.mem_def.mpr hlast)
      obtain ⟨x, hx, rfl⟩ := List.mem_map.mp hin
      exact h.owns.content_ne (hmem x (by simp [hx]))
    obtain ⟨nodes1, hset1, h1⟩ := HashNodes.setNext_spec hq (post.map addr).head?
    obtain ⟨nodes2, hset2, h2⟩ := HashNodes.setPrevOf_spec (fun p hp => h1.content ▸ hpost p hp) (some q)
    refine ⟨nodes2, ?_, h2.content.trans h1.content, ?_, ?_⟩
    · simp only [NodeTable.unlink, hderef, Exec.ok_bind, hnext, hset1, hset2]
      rw [head_append pre post e hne]
      have hsame : (buckets.map headPtr)[j]? = some (headPtr (pre ++ e :: post)) := by
        rw [List.getElem?_map, hbucket, Option.map_some]
      rw [set_self hsame]
      rfl
    · rw [h2.next, h1.next]
      rfl
    · rw [h2.prev, h1.prev]

/-- What unlink leaves: the node is gone, its neighbours in the chain point at each other. -/
theorem unlink_spec (h : Stores nodes none [] chains) (hget : chains[i]? = some (pre ++ e :: post))
    {buckets : List (List (HashEntry (ℕ × V)))} {j : ℕ} (hbucket : buckets[j]? = some (pre ++ e :: post)) :
    ∃ nodes', NodeTable.unlink nodes (some (buckets.map headPtr)) j (pre.map addr).getLast? (addr e) =
        .ok (nodes', some ((buckets.set j (pre ++ post)).map headPtr)) ∧
      Stores nodes' none [] (chains.set i (pre ++ post)) := by
  have hlinks := h.linked i _ hget
  rw [List.map_append, List.map_cons] at hlinks
  have hchain : ((pre ++ e :: post).map addr).Nodup := by
    have hsub : (pre ++ e :: post).Sublist chains.flatten :=
      List.sublist_flatten_of_mem (List.mem_of_getElem? hget)
    exact h.owns.nodup.sublist (hsub.map addr)
  rw [List.map_append, List.map_cons] at hchain
  obtain ⟨nodes1, hunlink, hrel⟩ := unlink_relinks h hget hbucket
  have hnextOf : ∀ p, p ≠ addr e → HashNodes.nextOf (nodes1.erase (addr e)) p =
      HashNodes.backLink nodes.nextOf (pre.map addr).getLast? (post.map addr).head? p := by
    intro p hp
    rw [(HashNodes.links_erase hp).1, hrel.next]
  have hprevOf : ∀ p, p ≠ addr e → HashNodes.prevOf (nodes1.erase (addr e)) p =
      HashNodes.backLink nodes.prevOf (post.map addr).head? (pre.map addr).getLast? p := by
    intro p hp
    rw [(HashNodes.links_erase hp).2, hrel.prev]
  obtain ⟨-, hback, hdisj⟩ := List.nodup_append.mp hchain
  refine ⟨nodes1.erase (addr e), hunlink, trivial, fun k chain hk => ?_, ?_⟩
  · rw [List.getElem?_set] at hk
    split at hk
    · split at hk
      · cases hk
        rw [List.map_append]
        refine hlinks.unlink hchain ?_ ?_ ?_ ?_
        · intro p hp
          rw [hnextOf p (hdisj p (List.mem_of_mem_getLast? hp) _ List.mem_cons_self)]
          exact HashNodes.backLink_head _ hp
        · intro p hp
          have hne : p ≠ addr e := by
            rintro rfl
            exact (List.nodup_cons.mp hback).1 (List.mem_of_mem_head? hp)
          rw [hprevOf p hne]
          exact HashNodes.backLink_head _ hp
        · intro p hne hnot
          rw [hnextOf p hne, HashNodes.backLink_other _ hnot]
        · intro p hne hnot
          rw [hprevOf p hne, HashNodes.backLink_other _ hnot]
      · cases hk
    · next hik =>
      have hother : ∀ x ∈ chain, ∀ y ∈ pre ++ e :: post, addr x ≠ addr y := fun x hx y hy =>
        addr_ne_of_get h.owns.nodup hget hk (Ne.symm hik) hx hy
      refine chained_frame (h.linked k chain hk) fun x hx => ?_
      have hne := hother x hx e (by simp)
      rw [hnextOf _ hne, hprevOf _ hne, HashNodes.backLink_other, HashNodes.backLink_other]
      · exact ⟨rfl, rfl⟩
      · intro hp
        obtain ⟨y, hy, heq⟩ := mem_map_head hp
        exact hother x hx y (by simp [hy]) heq.symm
      · intro hp
        obtain ⟨y, hy, heq⟩ := List.mem_map.mp (List.mem_of_mem_getLast? hp)
        exact hother x hx y (by simp [hy]) heq.symm
  · have hperm := flatten_set_erase hget (show (pre ++ e :: post).Perm (e :: (pre ++ post)) from List.perm_middle)
    exact ((h.owns.relinked hrel).perm hperm.symm).erase (HashNodes.content_erase nodes1 (addr e))

end DeftRpc.DataStruct
