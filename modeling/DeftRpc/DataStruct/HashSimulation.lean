import DeftRpc.DataStruct.HashLinks

/-!
# The table of nodes simulates the table of chains

What one does with every call the other does, with the same faults.
-/

namespace DeftRpc.DataStruct
open DeftRpc.Foundation

variable {V : Type}

/-- The nodes of a table of chains. -/
def render (nodes : HashNodes V) (t : HashTable (ℕ × V)) : NodeTable V :=
  ⟨nodes, t.mTable.map (List.map headPtr), t.mRehashTable.map (List.map headPtr), t.mSize0, t.mSize1,
    t.mUsed0, t.mUsed1, t.mRehashIdx⟩

section Fields
variable (nodes : HashNodes V) (t : HashTable (ℕ × V))

@[simp] theorem render_nodes : (render nodes t).nodes = nodes := rfl
@[simp] theorem render_mTable : (render nodes t).mTable = t.mTable.map (List.map headPtr) := rfl
@[simp] theorem render_mRehashTable :
    (render nodes t).mRehashTable = t.mRehashTable.map (List.map headPtr) := rfl
@[simp] theorem render_mSize0 : (render nodes t).mSize0 = t.mSize0 := rfl
@[simp] theorem render_mSize1 : (render nodes t).mSize1 = t.mSize1 := rfl
@[simp] theorem render_mUsed0 : (render nodes t).mUsed0 = t.mUsed0 := rfl
@[simp] theorem render_mUsed1 : (render nodes t).mUsed1 = t.mUsed1 := rfl
@[simp] theorem render_mRehashIdx : (render nodes t).mRehashIdx = t.mRehashIdx := rfl
@[simp] theorem render_isReHashing : (render nodes t).isReHashing = t.isReHashing := rfl
@[simp] theorem render_needExpend : (render nodes t).needExpend = t.needExpend := rfl
@[simp] theorem render_needReduce : (render nodes t).needReduce = t.needReduce := rfl

end Fields

/-- The chains of both arrays. -/
def chains (t : HashTable (ℕ × V)) : List (List (HashEntry (ℕ × V))) :=
  t.mTable.getD [] ++ t.mRehashTable.getD []

structure Renders (p : NodeTable V) (t : HashTable (ℕ × V)) : Prop where
  eq : p = render p.nodes t
  stores : Stores p.nodes none [] (chains t)

theorem chains_flatten (t : HashTable (ℕ × V)) : (chains t).flatten = t.entries := List.flatten_append

theorem Stores.congr {nodes : HashNodes V} {chains chains' : List (List (HashEntry (ℕ × V)))}
    (h : Stores nodes none [] chains) (hflat : chains'.flatten = chains.flatten)
    (hmem : ∀ chain ∈ chains', chain = [] ∨ chain ∈ chains) : Stores nodes none [] chains' := by
  refine ⟨trivial, fun i chain hget => ?_, ?_⟩
  · rcases hmem chain (List.mem_of_getElem? hget) with rfl | hin
    · trivial
    · obtain ⟨j, hj⟩ := List.mem_iff_getElem?.mp hin
      exact h.linked j chain hj
  · rw [hflat]
    exact h.owns

theorem bucketPtr_map {buckets : List (List (HashEntry (ℕ × V)))} {i : ℕ} {chain : List (HashEntry (ℕ × V))}
    (h : buckets[i]? = some chain) : bucketPtr (some (buckets.map headPtr)) i = .ok (headPtr chain) := by
  rw [bucketPtr, List.getElem?_map, h, Option.map_some]

theorem bucketPtr_related (table : Option (List (List (HashEntry (ℕ × V))))) (i : ℕ) :
    Related (fun p chain => p = headPtr chain ∧ ∃ buckets, table = some buckets ∧ buckets[i]? = some chain)
      (bucketPtr (table.map (List.map headPtr)) i) (bucketAt table i) := by
  cases table with
  | none => exact .error _
  | some buckets =>
    cases hget : buckets[i]? with
    | none =>
      rw [Option.map_some, bucketPtr, bucketAt, List.getElem?_map, hget, Option.map_none]
      exact .error _
    | some chain =>
      rw [Option.map_some, bucketPtr_map hget, bucketAt, hget]
      exact .ok ⟨rfl, buckets, rfl, hget⟩

section Hashed
variable (hashFunc : List Byte → ℕ)

/-! ### Rehash -/

theorem moveChain_sim (old : Option (List (List (HashEntry (ℕ × V))))) {size0 size1 : ℕ}
    (used0 used1 idx : ℕ) (ri : Option ℕ) (hlt : size0 < size1)
    {others : List (List (HashEntry (ℕ × V)))} {loose : List (HashEntry (ℕ × V))} {nodes : HashNodes V}
    {before : Option ℕ} {new : List (List (HashEntry (ℕ × V)))} (hnew : new.length = 2 ^ size1)
    (h : Stores nodes before loose (others ++ new)) {turns : ℕ} (hturns : loose.length < turns) :
    ∃ nodes' new', Stores nodes' none [] (others ++ new') ∧
      HashTable.moveChain hashFunc idx ⟨old, some new, size0, size1, used0, used1, ri⟩ loose =
        .ok ⟨old, some new', size0, size1, used0 - loose.length, used1 + loose.length, ri⟩ ∧
      NodeTable.moveChain hashFunc idx turns
          (render nodes ⟨old, some new, size0, size1, used0, used1, ri⟩) (headPtr loose) =
        .ok (render nodes' ⟨old, some new', size0, size1, used0 - loose.length, used1 + loose.length, ri⟩) := by
  induction loose generalizing nodes before new used0 used1 turns with
  | nil =>
    obtain ⟨turns, rfl⟩ : ∃ n, turns = n + 1 := ⟨turns - 1, by omega⟩
    exact ⟨nodes, new, h.reset, rfl, rfl⟩
  | cons e loose ih =>
    obtain ⟨turns, rfl⟩ : ∃ n, turns = n + 1 := ⟨turns - 1, by omega⟩
    have hpos : hashFunc e.key % 2 ^ size1 < new.length := by
      rw [hnew]
      exact Nat.mod_lt _ (Nat.two_pow_pos size1)
    generalize hi : hashFunc e.key % 2 ^ size1 = i at *
    obtain ⟨bucket, hbucket, hget⟩ := HashTable.bucketAt_some hpos
    have hplace : (others ++ new)[others.length + i]? = some bucket := by
      rw [List.getElem?_append_right (Nat.le_add_right _ _), Nat.add_sub_cancel_left, hget]
    obtain ⟨nodes1, hlink, hstores⟩ := h.push hplace
    rw [List.set_append_right _ _ (Nat.le_add_right _ _), Nat.add_sub_cancel_left] at hstores
    obtain ⟨nodes', new', hstores', hmove, hmove'⟩ := ih (used0 - 1) (used1 + 1)
      (by rw [List.length_set, hnew]) hstores (Nat.lt_of_succ_lt_succ hturns)
    have hderef := HashNodes.deref_of_content (h.owns.data e (List.mem_append_left _ List.mem_cons_self))
    have hnext : nodes.nextOf (addr e) = headPtr loose := by
      rw [h.front.2.1, Option.or_none]
      rfl
    have hused : used0 - 1 - loose.length = used0 - (e :: loose).length ∧
        used1 + 1 + loose.length = used1 + (e :: loose).length := by
      rw [List.length_cons]
      omega
    rw [hused.1, hused.2] at hmove hmove'
    refine ⟨nodes', new', hstores', ?_, ?_⟩
    · simp only [HashTable.moveChain, if_pos hlt, hi, hbucket, Exec.ok_bind, setBucket, Option.map_some, hmove]
    · rw [← hmove']
      show NodeTable.moveChain hashFunc idx (turns + 1) _ (some (addr e)) = _
      simp only [NodeTable.moveChain, render, hderef, Exec.ok_bind, if_pos hlt, hi, Option.map_some,
        bucketPtr_map hget, hlink, setBucketPtr, hnext, map_headPtr_set]
      rfl

theorem reHash_sim {p : NodeTable V} {t : HashTable (ℕ × V)} (h : Renders p t) (hready : HashTable.Ready t) :
    Related Renders (p.reHash hashFunc) (t.reHash hashFunc) := by
  obtain ⟨hp, hstores⟩ := h
  generalize p.nodes = nodes at *
  subst hp
  cases hready with
  | still buckets size used hlen hpos hused => exact .ok ⟨rfl, hstores⟩
  | moving old new size0 size1 used0 used1 idx hold hnew hpos hlt hused0 hused1 hidx hmoved =>
    obtain ⟨chain, hchain, hget⟩ := HashTable.bucketAt_some (show idx < old.length by omega)
    have hplace : (old ++ new)[idx]? = some chain := by
      rw [List.getElem?_append_left (by omega), hget]
    have htake := hstores.take (i := idx) hplace
    simp only [chains, Option.getD_some] at htake
    rw [List.set_append_left _ _ (by omega)] at htake
    have hturns : chain.length < nodes.turns := by
      have hle := htake.owns.length_le
      rw [List.length_append] at hle
      exact Nat.lt_succ_of_le ((Nat.le_add_right _ _).trans hle)
    obtain ⟨nodes', new', hstores', hmove, hmove'⟩ := moveChain_sim hashFunc (some old) used0 used1 idx
      (some idx) hlt hnew htake hturns
    have hset := flatten_set_length hget []
    simp only [List.length_nil, Nat.add_zero] at hset
    simp only [HashTable.reHash, NodeTable.reHash, hchain, Exec.ok_bind, hmove, render_mRehashIdx, render_mTable,
      Option.map_some, bucketPtr_map hget, render_nodes, hmove', render_mUsed0]
    by_cases hdone : used0 - chain.length = 0
    · simp only [hdone, if_true]
      have hempty : (old.set idx []).flatten = [] := List.eq_nil_of_length_eq_zero (by omega)
      refine .ok ⟨rfl, hstores'.congr ?_ fun c hc => .inr ?_⟩
      · simp [chains, hempty]
      · have hin : c ∈ new' := by simpa [chains] using hc
        exact List.mem_append_right _ hin
    · simp only [hdone, if_false]
      have hrender : setBucketPtr (some (old.map headPtr)) idx none =
          (some (old.set idx [])).map (List.map headPtr) := by
        rw [Option.map_some, map_headPtr_set]
        rfl
      refine .ok ⟨?_, hstores'⟩
      simp [render, hrender, setBucket]

theorem reHashStep_sim {p : NodeTable V} {t : HashTable (ℕ × V)} (h : Renders p t) (hinv : HashTable.Inv t) :
    Related (fun p t => Renders p t ∧ HashTable.Inv t) (p.reHashStep hashFunc) (t.reHashStep hashFunc) := by
  have hkeep : ∀ t', t.reHashStep hashFunc = .ok t' → HashTable.Inv t' := by
    intro t' hre
    obtain ⟨t1, hre1, h1, -⟩ := HashTable.reHashStep_spec hashFunc hinv
    cases hre.symm.trans hre1
    exact h1
  refine Related.and_right ?_ hkeep
  have hmoving : p.isReHashing = t.isReHashing := by rw [h.eq, render_isReHashing]
  unfold NodeTable.reHashStep HashTable.reHashStep
  rw [hmoving]
  split
  · rcases hinv with rfl | hready
    · next hre => cases hre
    · exact reHash_sim hashFunc h hready
  · exact .ok h

/-! ### A new array -/

theorem map_headPtr_replicate (n : ℕ) :
    (List.replicate n ([] : List (HashEntry (ℕ × V)))).map headPtr = List.replicate n none := by
  rw [List.map_replicate]
  rfl

theorem expendOrReduce_sim {p : NodeTable V} {t : HashTable (ℕ × V)} (h : Renders p t)
    (hinv : HashTable.Inv t) (hidle : t.mRehashIdx = none) (len : ℕ) :
    Related Renders (p.expendOrReduce len) (t.expendOrReduce len) := by
  obtain ⟨hp, hstores⟩ := h
  generalize p.nodes = nodes at *
  subst hp
  unfold NodeTable.expendOrReduce HashTable.expendOrReduce makeTable
  split
  · simp only [Exec.ok_bind, render_mSize0]
    rcases hinv with rfl | hready
    · refine .ok ⟨?_, hstores.congr ?_ fun c hc => .inl ?_⟩
      · simp [render, map_headPtr_replicate, -List.map_replicate]
      · simp [chains]
      · simpa [chains] using hc
    · cases hready with
      | moving => cases hidle
      | still old size used hlen hpos hused =>
        have hne : size ≠ 0 := by omega
        simp only [hne, if_false]
        refine .ok ⟨?_, hstores.congr ?_ fun c hc => ?_⟩
        · simp [render, map_headPtr_replicate, -List.map_replicate]
        · simp [chains]
        · rcases List.mem_append.mp hc with hin | hin
          · exact .inr (List.mem_append_left _ hin)
          · exact .inl (List.eq_of_mem_replicate hin)
  · exact .error _

theorem expendWhen_sim {p : NodeTable V} {t : HashTable (ℕ × V)} (h : Renders p t) (hinv : HashTable.Inv t)
    {need : Bool} (hidle : need = true → t.mRehashIdx = none) (hfresh : t = {} → need = true) :
    Related (fun p t => Renders p t ∧ HashTable.Ready t) (p.expendWhen need) (t.expendWhen need) := by
  refine Related.and_right ?_ fun t' hexp => (HashTable.expendWhen_spec (fun _ => 0) hinv hidle hfresh hexp).1
  have hsize : p.expendSize = t.expendSize := by
    rw [h.eq]
    rfl
  cases need with
  | false => exact .ok h
  | true =>
    simp only [NodeTable.expendWhen, HashTable.expendWhen, if_true, hsize]
    exact expendOrReduce_sim h hinv (hidle rfl) _

/-! ### Lookup -/

theorem mem_chains {t : HashTable (ℕ × V)} {buckets : List (List (HashEntry (ℕ × V)))} {i : ℕ}
    {chain : List (HashEntry (ℕ × V))} (hget : buckets[i]? = some chain)
    (htable : t.mTable = some buckets ∨ t.mRehashTable = some buckets) : chain ∈ chains t := by
  have hin := List.mem_of_getElem? hget
  rcases htable with h | h
  · refine List.mem_append_left _ ?_
    rw [h]
    exact hin
  · refine List.mem_append_right _ ?_
    rw [h]
    exact hin

theorem Stores.search {nodes : HashNodes V} {chains : List (List (HashEntry (ℕ × V)))}
    (h : Stores nodes none [] chains) {chain : List (HashEntry (ℕ × V))} (hmem : chain ∈ chains) (key : List Byte) :
    (∃ x pre post, chain = pre ++ x :: post ∧ chain.find? (fun y => y.key = cString key) = some x ∧
      chain.eraseP (fun y => y.key = cString key) = pre ++ post ∧
      nodes.search key nodes.turns none (headPtr chain) = .ok (some ((pre.map addr).getLast?, addr x))) ∨
    (chain.find? (fun y => y.key = cString key) = none ∧
      nodes.search key nodes.turns none (headPtr chain) = .ok none) := by
  obtain ⟨i, hget⟩ := List.mem_iff_getElem?.mp hmem
  have hsub : chain.Sublist chains.flatten := List.sublist_flatten_of_mem hmem
  have hturns : chain.length < nodes.turns := Nat.lt_succ_of_le (hsub.length_le.trans h.owns.length_le)
  have hsearch := search_spec (h.linked i chain hget) (fun x hx => h.owns.data x (hsub.subset hx)) key hturns
  simpa only [Option.or_none] using hsearch

def SameFound : NodeTable.Found → HashTable.Found (ℕ × V) → Prop
  | .entry p, .entry e => p = addr e
  | .bucket i, .bucket j => i = j
  | .entry _, .bucket _ => False
  | .bucket _, .entry _ => False

theorem findBucketByKey_sim {p : NodeTable V} {t : HashTable (ℕ × V)} (h : Renders p t)
    (hinv : HashTable.Inv t) (key : List Byte) (len : ℕ) :
    Related (fun r r' => SameFound r.1 r'.1 ∧ Renders r.2 r'.2) (p.findBucketByKey hashFunc key len)
      (t.findBucketByKey hashFunc key len) := by
  unfold NodeTable.findBucketByKey HashTable.findBucketByKey
  refine (reHashStep_sim hashFunc h hinv).bind fun p1 t1 h1 => ?_
  have hneed : p1.needExpend = t1.needExpend := by rw [h1.1.eq, render_needExpend]
  rw [hneed]
  refine (expendWhen_sim h1.1 h1.2 (HashTable.needExpend_idle h1.2) fun hnew => by rw [hnew]; rfl).bind
    fun p2 t2 h2 => ?_
  obtain ⟨⟨hp, hstores⟩, -⟩ := h2
  generalize p2.nodes = nodes at *
  subst hp
  simp only [render_mTable, render_mRehashTable, render_mSize0, render_mSize1]
  refine (bucketPtr_related t2.mTable _).bind fun ptr chain hb => ?_
  obtain ⟨rfl, buckets, htable, hget⟩ := hb
  rcases hstores.search (mem_chains hget (.inl htable)) key with ⟨x, pre, post, -, hfind, -, hsearch⟩ | ⟨hfind, hsearch⟩
  · simp only [hsearch, hfind, Exec.ok_bind]
    exact .ok ⟨rfl, rfl, hstores⟩
  · simp only [hsearch, hfind, Exec.ok_bind]
    refine Related.ite Iff.rfl (fun _ => .ok ⟨rfl, rfl, hstores⟩) fun _ => ?_
    · refine (bucketPtr_related t2.mRehashTable _).bind fun ptr chain' hb => ?_
      obtain ⟨rfl, buckets', htable', hget'⟩ := hb
      rcases hstores.search (mem_chains hget' (.inr htable')) key with
        ⟨x, pre, post, -, hfind', -, hsearch'⟩ | ⟨hfind', hsearch'⟩
      · simp only [hsearch', hfind', Exec.ok_bind]
        exact .ok ⟨rfl, rfl, hstores⟩
      · simp only [hsearch', hfind', Exec.ok_bind]
        exact .ok ⟨rfl, rfl, hstores⟩

/-! ### The calls -/

/-- The place of a bucket among the chains of both arrays, and what setting it leaves. -/
theorem chains_first {t : HashTable (ℕ × V)} {buckets : List (List (HashEntry (ℕ × V)))} {i : ℕ}
    {chain : List (HashEntry (ℕ × V))} (htable : t.mTable = some buckets) (hget : buckets[i]? = some chain) :
    (chains t)[i]? = some chain ∧
      ∀ c, (chains t).set i c = buckets.set i c ++ t.mRehashTable.getD [] := by
  obtain ⟨hlt, -⟩ := List.getElem?_eq_some_iff.mp hget
  rw [chains, htable, Option.getD_some]
  exact ⟨by rw [List.getElem?_append_left hlt, hget], fun c => List.set_append_left _ _ hlt⟩

theorem chains_second {t : HashTable (ℕ × V)} {buckets : List (List (HashEntry (ℕ × V)))} {i : ℕ}
    {chain : List (HashEntry (ℕ × V))} (htable : t.mRehashTable = some buckets) (hget : buckets[i]? = some chain) :
    (chains t)[(t.mTable.getD []).length + i]? = some chain ∧
      ∀ c, (chains t).set ((t.mTable.getD []).length + i) c = t.mTable.getD [] ++ buckets.set i c := by
  have hle := Nat.le_add_right (t.mTable.getD []).length i
  rw [chains, htable, Option.getD_some]
  constructor
  · rw [List.getElem?_append_right hle, Nat.add_sub_cancel_left, hget]
  · intro c
    rw [List.set_append_right _ _ hle, Nat.add_sub_cancel_left]

theorem insertToBucket_sim {p : NodeTable V} {t : HashTable (ℕ × V)} (h : Renders p t) (key : List Byte)
    {value : ℕ × V} (hfresh : value.1 ∉ p.nodes) (i : ℕ) :
    Related (fun r r' => r.1 = addr r'.1 ∧ Renders r.2 r'.2) (p.insertToBucket key value i)
      (t.insertToBucket key value i) := by
  obtain ⟨hp, hstores⟩ := h
  generalize p.nodes = nodes at *
  subst hp
  have halloc := hstores.alloc hfresh (cString key) value.2
  unfold NodeTable.insertToBucket HashTable.insertToBucket
  simp only [render_mTable, render_mRehashTable, render_nodes]
  refine Related.ite Iff.rfl (fun _ => ?_) fun _ => ?_
  · refine (bucketPtr_related t.mRehashTable i).bind fun ptr chain hb => ?_
    obtain ⟨rfl, buckets, htable, hget⟩ := hb
    obtain ⟨hplace, hset⟩ := chains_second htable hget
    obtain ⟨nodes', hlink, hpush⟩ := halloc.push hplace
    rw [hset] at hpush
    have hlink' : HashNodes.linkFront (nodes.insert value.1 ⟨cString key, value.2, none, none⟩) value.1
        (headPtr chain) = .ok nodes' := hlink
    rw [hlink', Exec.ok_bind]
    refine .ok ⟨rfl, ?_, ?_⟩
    · simp only [render, htable, setBucket, setBucketPtr, Option.map_some, map_headPtr_set]
      rfl
    · simpa only [chains, htable, setBucket, Option.map_some, Option.getD_some] using hpush.reset
  · refine (bucketPtr_related t.mTable i).bind fun ptr chain hb => ?_
    obtain ⟨rfl, buckets, htable, hget⟩ := hb
    obtain ⟨hplace, hset⟩ := chains_first htable hget
    obtain ⟨nodes', hlink, hpush⟩ := halloc.push hplace
    rw [hset] at hpush
    have hlink' : HashNodes.linkFront (nodes.insert value.1 ⟨cString key, value.2, none, none⟩) value.1
        (headPtr chain) = .ok nodes' := hlink
    rw [hlink', Exec.ok_bind]
    refine .ok ⟨rfl, ?_, ?_⟩
    · simp only [render, htable, setBucket, setBucketPtr, Option.map_some, map_headPtr_set]
      rfl
    · simpa only [chains, htable, setBucket, Option.map_some, Option.getD_some] using hpush.reset

theorem any_of_find {chain : List (HashEntry (ℕ × V))} {key : List Byte} {x : HashEntry (ℕ × V)}
    (h : chain.find? (fun y => y.key = key) = some x) : (chain.any fun y => y.key = key) = true :=
  List.any_eq_true.mpr ⟨x, List.mem_of_find?_eq_some h, by simpa using List.find?_some h⟩

theorem not_any_of_find {chain : List (HashEntry (ℕ × V))} {key : List Byte}
    (h : chain.find? (fun y => y.key = key) = none) : ¬(chain.any fun y => y.key = key) = true := by
  intro hany
  obtain ⟨x, hx, hkey⟩ := List.any_eq_true.mp hany
  exact List.find?_eq_none.mp h x hx hkey

theorem delete_sim {p : NodeTable V} {t : HashTable (ℕ × V)} (h : Renders p t) (hinv : HashTable.Inv t)
    (key : List Byte) (len : ℕ) :
    Related Renders (p.delete hashFunc key len) (t.delete hashFunc key len) := by
  unfold NodeTable.delete HashTable.delete
  refine (reHashStep_sim hashFunc h hinv).bind fun p1 t1 h1 => ?_
  have hneed : p1.needReduce = t1.needReduce := by rw [h1.1.eq, render_needReduce]
  rw [hneed]
  refine (expendWhen_sim h1.1 h1.2 HashTable.needReduce_idle fun hnew => by rw [hnew]; rfl).bind
    fun p2 t2 h2 => ?_
  obtain ⟨⟨hp, hstores⟩, -⟩ := h2
  generalize p2.nodes = nodes at *
  subst hp
  simp only [render_mTable, render_mRehashTable, render_mSize0, render_mSize1]
  refine (bucketPtr_related t2.mTable _).bind fun ptr chain hb => ?_
  obtain ⟨rfl, buckets, htable, hget⟩ := hb
  rcases hstores.search (mem_chains hget (.inl htable)) key with
    ⟨x, pre, post, hchain, hfind, herase, hsearch⟩ | ⟨hfind, hsearch⟩
  · rw [if_pos (any_of_find hfind), hsearch, herase]
    obtain ⟨hplace, hset⟩ := chains_first htable hget
    rw [hchain] at hplace hget
    obtain ⟨nodes', hunlink, hstores'⟩ := unlink_spec hstores hplace hget
    rw [hset] at hstores'
    simp only [Exec.ok_bind, htable, Option.map_some, hunlink]
    refine .ok ⟨?_, ?_⟩
    · simp only [render, setBucket, Option.map_some]
    · simpa only [chains, setBucket, Option.map_some, Option.getD_some] using hstores'
  · rw [if_neg (not_any_of_find hfind), hsearch]
    simp only [Exec.ok_bind]
    refine Related.ite Iff.rfl (fun _ => .ok ⟨rfl, hstores⟩) fun _ => ?_
    · refine (bucketPtr_related t2.mRehashTable _).bind fun ptr chain' hb => ?_
      obtain ⟨rfl, buckets', htable', hget'⟩ := hb
      rcases hstores.search (mem_chains hget' (.inr htable')) key with
        ⟨x, pre, post, hchain, hfind', herase, hsearch'⟩ | ⟨hfind', hsearch'⟩
      · rw [if_pos (any_of_find hfind'), hsearch', herase]
        obtain ⟨hplace, hset⟩ := chains_second htable' hget'
        rw [hchain] at hplace hget'
        obtain ⟨nodes', hunlink, hstores'⟩ := unlink_spec hstores hplace hget'
        rw [hset] at hstores'
        simp only [Exec.ok_bind, htable', Option.map_some, hunlink]
        refine .ok ⟨?_, ?_⟩
        · simp only [render, setBucket, Option.map_some]
        · simpa only [chains, setBucket, Option.map_some, Option.getD_some] using hstores'
      · rw [if_neg (not_any_of_find hfind'), hsearch']
        exact .ok ⟨rfl, hstores⟩

theorem Renders.mem_nodes {p : NodeTable V} {t : HashTable (ℕ × V)} (h : Renders p t) {a : ℕ} :
    a ∈ p.nodes ↔ a ∈ t.entries.map addr := by
  have howns := h.stores.owns
  rw [List.nil_append, chains_flatten] at howns
  rw [HashNodes.mem_iff_content]
  refine ⟨howns.live a, fun hin => ?_⟩
  obtain ⟨e, he, rfl⟩ := List.mem_map.mp hin
  exact howns.content_ne he

theorem step_sim {p : NodeTable V} {t : HashTable (ℕ × V)} (h : Renders p t) (hinv : HashTable.Inv t)
    {op : HashTable.HashOp (ℕ × V)} (hfresh : p.Fresh op) :
    Related (fun r r' => r.1 = r'.1.map addr ∧ Renders r.2 r'.2) (p.step hashFunc op) (t.step hashFunc op) := by
  cases op with
  | insert key len value =>
    have hfind := (findBucketByKey_sim hashFunc h hinv key len).and_right
      (Q := fun r => r.2.entries.Perm t.entries) fun r hr => (HashTable.findBucketByKey_inv hashFunc hinv hr).2.1
    refine hfind.bind fun r r' hr => ?_
    obtain ⟨found, p1⟩ := r
    obtain ⟨found', t1⟩ := r'
    obtain ⟨⟨hfound, h1⟩, hperm⟩ := hr
    cases found with
    | entry a =>
      cases found' with
      | entry e => exact .ok ⟨rfl, h1⟩
      | bucket j => exact absurd hfound id
    | bucket i =>
      cases found' with
      | entry e => exact absurd hfound id
      | bucket j =>
        have hij : i = j := hfound
        subst hij
        have hnew : value.1 ∉ p1.nodes := by
          intro hin
          have hmem := (hperm.map addr).mem_iff.mp (h1.mem_nodes.mp hin)
          exact hfresh (h.mem_nodes.mpr hmem)
        refine (insertToBucket_sim h1 key hnew i).bind fun s s' hs => .ok ⟨?_, hs.2⟩
        rw [hs.1]
        rfl
  | find key len =>
    refine (findBucketByKey_sim hashFunc h hinv key len).bind fun r r' hr => ?_
    obtain ⟨found, p1⟩ := r
    obtain ⟨found', t1⟩ := r'
    obtain ⟨hfound, h1⟩ := hr
    cases found with
    | entry a =>
      cases found' with
      | entry e =>
        have hae : a = addr e := hfound
        rw [hae]
        exact .ok ⟨rfl, h1⟩
      | bucket j => exact absurd hfound id
    | bucket i =>
      cases found' with
      | entry e => exact absurd hfound id
      | bucket j => exact .ok ⟨rfl, h1⟩
  | delete key len =>
    exact (delete_sim hashFunc h hinv key len).bind fun p1 t1 h1 => .ok ⟨rfl, h1⟩

theorem renders_new : Renders ({} : NodeTable V) ({} : HashTable (ℕ × V)) := by
  refine ⟨rfl, trivial, fun i chain hget => ?_, ⟨List.nodup_nil, fun p hp => ?_, fun e he => ?_⟩⟩
  · simp [chains] at hget
  · exact absurd rfl hp
  · simp [chains] at he

/-- Every run of the table of nodes is one of the table of chains, with the same answers and faults. -/
theorem run_sim (ops : List (HashTable.HashOp (ℕ × V)))
    (hfresh : StepsOk (NodeTable.step hashFunc) NodeTable.Fresh {} ops) :
    Related (fun r r' => r.1 = r'.1.map (Option.map addr) ∧ Renders r.2 r'.2 ∧ HashTable.Inv r'.2)
      (runOps (NodeTable.step hashFunc) {} ops) (runOps (HashTable.step hashFunc) {} ops) := by
  have sim : ∀ (p : NodeTable V) (t : HashTable (ℕ × V)) op, Renders p t ∧ HashTable.Inv t → p.Fresh op →
      Related (fun r r' => r.1 = r'.1.map addr ∧ Renders r.2 r'.2 ∧ HashTable.Inv r'.2) (p.step hashFunc op)
        (t.step hashFunc op) := by
    intro p t op h hop
    have hstep := (step_sim hashFunc h.1 h.2 hop).and_right (Q := fun r => HashTable.Inv r.2)
      fun r hr => .inr (HashTable.step_inv hashFunc h.2 hr)
    exact hstep.mono fun r r' hr => ⟨hr.1.1, hr.1.2, hr.2⟩
  have hrun := runOps_related (O := fun (o : Option ℕ) (o' : Option (HashEntry (ℕ × V))) => o = o'.map addr)
    (R := fun p t => Renders p t ∧ HashTable.Inv t) sim ops ⟨renders_new, .inl rfl⟩ hfresh
  refine hrun.mono fun r r' hr => ⟨?_, hr.2⟩
  rw [← List.forall₂_eq_eq_eq, List.forall₂_map_right_iff]
  exact hr.1

theorem NodeTable.Reachable.renders {p : NodeTable V} (h : NodeTable.Reachable hashFunc p) :
    ∃ t, Renders p t ∧ HashTable.Reachable hashFunc t := by
  obtain ⟨ops, outs, hfresh, hrun⟩ := h
  obtain ⟨⟨outs', t⟩, hrun', -, h, -⟩ := (run_sim hashFunc ops hfresh).of_ok_left hrun
  exact ⟨t, h, ops, outs', hrun'⟩

end Hashed

end DeftRpc.DataStruct
