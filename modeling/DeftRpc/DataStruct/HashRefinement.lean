import Mathlib.Data.List.AList
import DeftRpc.DataStruct.HashInvariant

/-!
# A HashTable is a finite map

The entries of both arrays are the bindings. A lookup finds a binding because every
array places its entries by the hash of their keys, at every stage of a rehash.
-/

namespace DeftRpc.DataStruct
open DeftRpc.Foundation

/-! ### The map -/

/-- Keys are the strings that the `char` pointers point at. -/
abbrev Bindings (V : Type) := AList fun _ : List Byte => V

variable {V : Type}

def mapStep (m : Bindings V) : HashTable.HashOp V → Option (HashEntry V) × Bindings V
  | .insert key _ value =>
    if cString key ∈ m then (none, m)
    else (some ⟨cString key, value⟩, m.insert (cString key) value)
  | .find key _ => ((m.lookup (cString key)).map fun value => ⟨cString key, value⟩, m)
  | .delete key _ => (none, m.erase (cString key))

namespace HashTable

def binding (entry : HashEntry V) : Sigma fun _ : List Byte => V := ⟨entry.key, entry.val⟩

/-- `len` is the length of the string. -/
def KeyOk (key : List Byte) (len : ℕ) : Prop := len = (cString key).length

theorem take_of_keyOk {key : List Byte} {len : ℕ} (h : KeyOk key len) : key.take len = cString key := by
  rw [h, cString]
  exact (List.prefix_iff_eq_take.mp (List.takeWhile_prefix _)).symm

section Hashed
variable (hashFunc : List Byte → ℕ)

/-- An array that is allocated in the call has an exponent below 31. -/
def Fits (t : HashTable V) (need : HashTable V → Bool) : Prop :=
  match t.reHashStep hashFunc with
  | .ok t1 => need t1 = true → t1.expendSize < 31
  | .error _ => True

instance (t : HashTable V) (need : HashTable V → Bool) : Decidable (t.Fits hashFunc need) := by
  unfold Fits
  split <;> infer_instance

def StepOk (t : HashTable V) : HashOp V → Prop
  | .insert key len _ => KeyOk key len ∧ t.Fits hashFunc needExpend
  | .find key len => KeyOk key len ∧ t.Fits hashFunc needExpend
  | .delete key len => KeyOk key len ∧ t.Fits hashFunc needReduce

instance (t : HashTable V) : ∀ op, Decidable (t.StepOk hashFunc op)
  | .insert key len _ =>
    inferInstanceAs (Decidable (len = (cString key).length ∧ t.Fits hashFunc needExpend))
  | .find key len =>
    inferInstanceAs (Decidable (len = (cString key).length ∧ t.Fits hashFunc needExpend))
  | .delete key len =>
    inferInstanceAs (Decidable (len = (cString key).length ∧ t.Fits hashFunc needReduce))

/-! ### Lookup -/

theorem expendWhen_ok {t : HashTable V} {need : Bool} (h : need = true → t.expendSize < 31) :
    ∃ t', t.expendWhen need = .ok t' := by
  cases need with
  | false => exact ⟨t, rfl⟩
  | true =>
    have hlen := h rfl
    simp only [expendWhen, if_true, expendOrReduce, makeTable, if_pos hlen, Exec.ok_bind]
    split
    · exact ⟨_, rfl⟩
    · exact ⟨_, rfl⟩

theorem prepare_spec {t : HashTable V} (h : Inv t) (hp : t.Placed hashFunc)
    {need : HashTable V → Bool} (hfits : t.Fits hashFunc need)
    (hidle : ∀ t1 : HashTable V, Inv t1 → need t1 = true → t1.mRehashIdx = none)
    (hfresh : need {} = true) :
    ∃ t1 t2, t.reHashStep hashFunc = .ok t1 ∧ t1.expendWhen (need t1) = .ok t2 ∧ Ready t2 ∧
      t2.entries.Perm t.entries ∧ t2.Placed hashFunc := by
  obtain ⟨t1, hre, h1, hperm, hplaced⟩ := reHashStep_spec hashFunc h
  unfold Fits at hfits
  rw [hre] at hfits
  obtain ⟨t2, hexp⟩ := expendWhen_ok hfits
  obtain ⟨h2, hentries, hplaced2⟩ := expendWhen_spec hashFunc h1 (hidle t1 h1)
    (fun hnew => by rw [hnew]; exact hfresh) hexp
  exact ⟨t1, t2, hre, hexp, h2, hentries ▸ hperm, hplaced2 (hplaced hp)⟩

theorem mem_chain_of_key {hashFunc : List Byte → ℕ} {buckets : List (List (HashEntry V))} {size : ℕ}
    (hp : PlacedBy (fun e => hashFunc e.key % 2 ^ size) buckets) {key : List Byte}
    {chain : List (HashEntry V)} (hchain : buckets[hashFunc key % 2 ^ size]? = some chain)
    {entry : HashEntry V} (hkey : entry.key = key) : entry ∈ buckets.flatten ↔ entry ∈ chain := by
  subst hkey
  exact hp.mem_flatten hchain

theorem bucketAt_key {buckets : List (List (HashEntry V))} {size : ℕ} (hlen : buckets.length = 2 ^ size)
    (n : ℕ) : ∃ chain, bucketAt (some buckets) (n % 2 ^ size) = .ok chain ∧
      buckets[n % 2 ^ size]? = some chain := by
  apply bucketAt_some
  rw [hlen]
  exact Nat.mod_lt _ (Nat.two_pow_pos size)

/-- What FindBucketByKey says about a key. -/
def FoundFor (t : HashTable V) (key : List Byte) : Found V → Prop
  | .entry e => e ∈ t.entries ∧ e.key = key
  | .bucket i => (∀ e ∈ t.entries, e.key ≠ key) ∧
    i = hashFunc key % 2 ^ (if t.isReHashing then t.mSize1 else t.mSize0)

theorem findBucketByKey_spec {t : HashTable V} (h : Inv t) (hp : t.Placed hashFunc) {key : List Byte}
    {len : ℕ} (hkey : KeyOk key len) (hfits : t.Fits hashFunc needExpend) :
    ∃ found t', t.findBucketByKey hashFunc key len = .ok (found, t') ∧
      t'.FoundFor hashFunc (cString key) found := by
  obtain ⟨t1, t2, hre, hexp, h2, -, hp2⟩ := prepare_spec hashFunc h hp hfits
    (fun t1 h1 => needExpend_idle h1) rfl
  unfold findBucketByKey
  simp only [take_of_keyOk hkey, hre, Exec.ok_bind, hexp]
  cases h2 with
  | still buckets size used hlen hpos hused =>
    obtain ⟨chain, hchain, hget⟩ := bucketAt_key hlen (hashFunc (cString key))
    have hmem : ∀ e : HashEntry V, e.key = cString key → (e ∈ buckets.flatten ↔ e ∈ chain) :=
      fun e he => mem_chain_of_key hp2.1 hget he
    simp only [hchain, Exec.ok_bind]
    cases hfind : chain.find? fun entry => entry.key = cString key with
    | some e =>
      have he : e.key = cString key := by simpa using List.find?_some hfind
      refine ⟨.entry e, _, rfl, ?_, he⟩
      have hin := (hmem e he).mpr (List.mem_of_find?_eq_some hfind)
      simpa [entries] using hin
    | none =>
      refine ⟨.bucket _, _, rfl, ?_, rfl⟩
      intro e he hk
      have hin : e ∈ buckets.flatten := by simpa [entries] using he
      have hnot := List.find?_eq_none.mp hfind e ((hmem e hk).mp hin)
      simp [hk] at hnot
  | moving old new size0 size1 used0 used1 idx hold hnew hpos hlt hused0 hused1 hidx hmoved =>
    obtain ⟨chain, hchain, hget⟩ := bucketAt_key hold (hashFunc (cString key))
    obtain ⟨chain', hchain', hget'⟩ := bucketAt_key hnew (hashFunc (cString key))
    have hmem : ∀ e : HashEntry V, e.key = cString key → (e ∈ old.flatten ↔ e ∈ chain) :=
      fun e he => mem_chain_of_key hp2.1 hget he
    have hmem' : ∀ e : HashEntry V, e.key = cString key → (e ∈ new.flatten ↔ e ∈ chain') :=
      fun e he => mem_chain_of_key hp2.2 hget' he
    simp only [hchain, hchain', Exec.ok_bind]
    cases hfind : chain.find? fun entry => entry.key = cString key with
    | some e =>
      have he : e.key = cString key := by simpa using List.find?_some hfind
      refine ⟨.entry e, _, rfl, ?_, he⟩
      have hin := (hmem e he).mpr (List.mem_of_find?_eq_some hfind)
      exact List.mem_append_left _ hin
    | none =>
      cases hfind' : chain'.find? fun entry => entry.key = cString key with
      | some e =>
        have he : e.key = cString key := by simpa using List.find?_some hfind'
        refine ⟨.entry e, _, rfl, ?_, he⟩
        have hin := (hmem' e he).mpr (List.mem_of_find?_eq_some hfind')
        exact List.mem_append_right _ hin
      | none =>
        refine ⟨.bucket _, _, rfl, ?_, rfl⟩
        intro e he hk
        rcases List.mem_append.mp he with hin | hin
        · have hnot := List.find?_eq_none.mp hfind e ((hmem e hk).mp hin)
          simp [hk] at hnot
        · have hnot := List.find?_eq_none.mp hfind' e ((hmem' e hk).mp hin)
          simp [hk] at hnot

/-! ### Insertion -/

theorem insertToBucket_spec {t : HashTable V} (h : Ready t) (hp : t.Placed hashFunc) {key : List Byte}
    (value : V) {i : ℕ}
    (hi : i = hashFunc (cString key) % 2 ^ (if t.isReHashing then t.mSize1 else t.mSize0)) :
    ∃ t', t.insertToBucket key value i = .ok (⟨cString key, value⟩, t') ∧ t'.Placed hashFunc := by
  subst hi
  cases h with
  | still buckets size used hlen hpos hused =>
    obtain ⟨chain, hchain, hget⟩ := bucketAt_key hlen (hashFunc (cString key))
    simp only [insertToBucket, isReHashing, Option.isSome_none, Bool.false_eq_true, if_false, hchain,
      Exec.ok_bind]
    refine ⟨_, rfl, hp.1.set fun x hx => ?_, hp.2⟩
    rcases List.mem_cons.mp hx with rfl | hx
    · rfl
    · exact hp.1 _ _ hget x hx
  | moving old new size0 size1 used0 used1 idx hold hnew hpos hlt hused0 hused1 hidx hmoved =>
    obtain ⟨chain, hchain, hget⟩ := bucketAt_key hnew (hashFunc (cString key))
    simp only [insertToBucket, isReHashing, Option.isSome_some, if_true, hchain, Exec.ok_bind]
    refine ⟨_, rfl, hp.1, hp.2.set fun x hx => ?_⟩
    rcases List.mem_cons.mp hx with rfl | hx
    · rfl
    · exact hp.2 _ _ hget x hx

/-! ### Deletion -/

theorem PlacedBy.erase {place : HashEntry V → ℕ} {buckets : List (List (HashEntry V))}
    (h : PlacedBy place buckets) {i : ℕ} {chain : List (HashEntry V)} (hget : buckets[i]? = some chain)
    (p : HashEntry V → Bool) : PlacedBy place (buckets.set i (chain.eraseP p)) :=
  h.set fun x hx => h i chain hget x (List.mem_of_mem_eraseP hx)

/-- Delete takes away the entry with the key, if there is one. -/
def Deletes (key : List Byte) (before after : List (HashEntry V)) : Prop :=
  (∃ entry, entry.key = key ∧ before.Perm (entry :: after)) ∨
    ((∀ e ∈ before, e.key ≠ key) ∧ after.Perm before)

theorem Deletes.perm {key : List Byte} {before before' after : List (HashEntry V)}
    (h : Deletes key before' after) (hperm : before'.Perm before) : Deletes key before after := by
  rcases h with ⟨entry, hkey, h⟩ | ⟨hnone, h⟩
  · exact Or.inl ⟨entry, hkey, hperm.symm.trans h⟩
  · exact Or.inr ⟨fun e he => hnone e (hperm.mem_iff.mpr he), h.trans hperm⟩

theorem delete_spec {t : HashTable V} (h : Inv t) (hp : t.Placed hashFunc) {key : List Byte} {len : ℕ}
    (hkey : KeyOk key len) (hfits : t.Fits hashFunc needReduce) :
    ∃ t', t.delete hashFunc key len = .ok t' ∧ t'.Placed hashFunc ∧
      Deletes (cString key) t.entries t'.entries := by
  obtain ⟨t1, t2, hre, hexp, h2, hperm, hp2⟩ := prepare_spec hashFunc h hp hfits
    (fun t1 _ => needReduce_idle) rfl
  suffices hlater : ∃ t', t.delete hashFunc key len = .ok t' ∧ t'.Placed hashFunc ∧
      Deletes (cString key) t2.entries t'.entries by
    obtain ⟨t', hdel, hplaced, hdeletes⟩ := hlater
    exact ⟨t', hdel, hplaced, hdeletes.perm hperm⟩
  unfold delete
  simp only [take_of_keyOk hkey, hre, Exec.ok_bind, hexp]
  have hready := h2
  cases h2 with
  | still buckets size used hlen hpos hused =>
    obtain ⟨chain, hchain, hget⟩ := bucketAt_key hlen (hashFunc (cString key))
    simp only [hchain, Exec.ok_bind]
    by_cases hany : (chain.any fun entry => entry.key = cString key) = true
    · rw [if_pos hany]
      exact ⟨_, rfl, ⟨PlacedBy.erase hp2.1 hget _, hp2.2⟩, Or.inl (erase_old hready hchain hany).2⟩
    · rw [if_neg hany]
      refine ⟨_, rfl, hp2, Or.inr ⟨fun e he hk => hany ?_, List.Perm.refl _⟩⟩
      have hin : e ∈ buckets.flatten := by simpa [entries] using he
      have hmem := (mem_chain_of_key hp2.1 hget hk).mp hin
      exact List.any_eq_true.mpr ⟨e, hmem, by simpa using hk⟩
  | moving old new size0 size1 used0 used1 idx hold hnew hpos hlt hused0 hused1 hidx hmoved =>
    obtain ⟨chain, hchain, hget⟩ := bucketAt_key hold (hashFunc (cString key))
    obtain ⟨chain', hchain', hget'⟩ := bucketAt_key hnew (hashFunc (cString key))
    simp only [hchain, hchain', Exec.ok_bind]
    by_cases hany : (chain.any fun entry => entry.key = cString key) = true
    · rw [if_pos hany]
      exact ⟨_, rfl, ⟨PlacedBy.erase hp2.1 hget _, hp2.2⟩, Or.inl (erase_old hready hchain hany).2⟩
    · rw [if_neg hany]
      by_cases hany' : (chain'.any fun entry => entry.key = cString key) = true
      · rw [if_pos hany']
        exact ⟨_, rfl, ⟨hp2.1, PlacedBy.erase hp2.2 hget' _⟩, Or.inl (erase_new hready hchain' hany').2⟩
      · rw [if_neg hany']
        refine ⟨_, rfl, hp2, Or.inr ⟨fun e he hk => ?_, List.Perm.refl _⟩⟩
        rcases List.mem_append.mp he with hin | hin
        · have hmem := (mem_chain_of_key hp2.1 hget hk).mp hin
          exact hany (List.any_eq_true.mpr ⟨e, hmem, by simpa using hk⟩)
        · have hmem := (mem_chain_of_key hp2.2 hget' hk).mp hin
          exact hany' (List.any_eq_true.mpr ⟨e, hmem, by simpa using hk⟩)

/-! ### Refinement -/

structure Holds (t : HashTable V) (m : Bindings V) : Prop where
  inv : Inv t
  placed : t.Placed hashFunc
  bindings : (t.entries.map binding).Perm m.entries

variable {hashFunc}

theorem Holds.mem_iff {t : HashTable V} {m : Bindings V} (h : Holds hashFunc t m) {entry : HashEntry V} :
    entry ∈ t.entries ↔ m.lookup entry.key = some entry.val := by
  have hinj : Function.Injective (binding : HashEntry V → _) := by
    intro a b hab
    cases a
    cases b
    cases hab
    rfl
  rw [← List.mem_map_of_injective hinj, h.bindings.mem_iff]
  exact AList.mem_lookup_iff.symm

theorem Holds.key_mem_iff {t : HashTable V} {m : Bindings V} (h : Holds hashFunc t m) {key : List Byte} :
    key ∈ m ↔ ∃ entry ∈ t.entries, entry.key = key := by
  constructor
  · intro hin
    obtain ⟨v, hv⟩ := Option.isSome_iff_exists.mp (AList.lookup_isSome.mpr hin)
    exact ⟨⟨key, v⟩, h.mem_iff.mpr hv, rfl⟩
  · rintro ⟨entry, hin, rfl⟩
    exact AList.lookup_isSome.mp (by rw [h.mem_iff.mp hin]; rfl)

theorem Holds.delete {t t' : HashTable V} {m : Bindings V} (h : Holds hashFunc t m) {key : List Byte}
    (hinv : Inv t') (hp : t'.Placed hashFunc) (hdel : Deletes key t.entries t'.entries) :
    Holds hashFunc t' (m.erase key) := by
  refine ⟨hinv, hp, ?_⟩
  show (t'.entries.map binding).Perm (m.entries.kerase key)
  rcases hdel with ⟨entry, hkey, hperm⟩ | ⟨hnone, hperm⟩
  · have hbefore : m.entries.Perm (binding entry :: t'.entries.map binding) :=
      h.bindings.symm.trans (hperm.map binding)
    have herase := hbefore.kerase (a := key) m.nodupKeys
    rw [List.kerase_cons_eq hkey.symm] at herase
    exact herase.symm
  · have habsent : key ∉ m := by
      intro hin
      obtain ⟨entry, hmem, hkey⟩ := h.key_mem_iff.mp hin
      exact hnone entry hmem hkey
    rw [List.kerase_of_notMem_keys habsent]
    exact (hperm.map binding).trans h.bindings

theorem Holds.find {t : HashTable V} {m : Bindings V} (h : Holds hashFunc t m) {key : List Byte}
    {len : ℕ} (hkey : KeyOk key len) (hfits : t.Fits hashFunc needExpend) :
    ∃ found t', t.findBucketByKey hashFunc key len = .ok (found, t') ∧ Ready t' ∧
      Holds hashFunc t' m ∧ t'.FoundFor hashFunc (cString key) found := by
  obtain ⟨found, t', hfind, hfound⟩ := findBucketByKey_spec hashFunc h.inv h.placed hkey hfits
  obtain ⟨hready, hperm, hplaced⟩ := findBucketByKey_inv hashFunc h.inv hfind
  exact ⟨found, t', hfind, hready, ⟨inv_of_ready hready, hplaced h.placed,
    (hperm.map binding).trans h.bindings⟩, hfound⟩

theorem Holds.insert {t : HashTable V} {m : Bindings V} (h : Holds hashFunc t m) (hready : Ready t)
    {key : List Byte} (value : V) {i : ℕ} (hfound : t.FoundFor hashFunc (cString key) (.bucket i)) :
    cString key ∉ m ∧ ∃ t', t.insertToBucket key value i = .ok (⟨cString key, value⟩, t') ∧
      Holds hashFunc t' (m.insert (cString key) value) := by
  have habsent : cString key ∉ m := by
    intro hin
    obtain ⟨entry, hmem, hkey⟩ := h.key_mem_iff.mp hin
    exact hfound.1 entry hmem hkey
  obtain ⟨t', hins, hplaced⟩ := insertToBucket_spec hashFunc hready h.placed value hfound.2
  obtain ⟨-, hready', hperm⟩ := insertToBucket_inv hready hins
  refine ⟨habsent, t', hins, inv_of_ready hready', hplaced, ?_⟩
  rw [AList.entries_insert_of_notMem habsent]
  exact (hperm.map binding).trans (h.bindings.cons _)

theorem step_holds {t : HashTable V} {m : Bindings V} (h : Holds hashFunc t m) (op : HashOp V)
    (hok : t.StepOk hashFunc op) :
    ∃ out t' m', t.step hashFunc op = .ok (out, t') ∧ mapStep m op = (out, m') ∧
      Holds hashFunc t' m' := by
  cases op with
  | insert key len value =>
    obtain ⟨found, t1, hfind, hready, h1, hfound⟩ := h.find hok.1 hok.2
    simp only [step, HashTable.insert, hfind, Exec.ok_bind, mapStep]
    cases found with
    | entry e =>
      have hin : cString key ∈ m := h1.key_mem_iff.mpr ⟨e, hfound.1, hfound.2⟩
      exact ⟨none, t1, m, rfl, by rw [if_pos hin], h1⟩
    | bucket i =>
      obtain ⟨habsent, t2, hins, h2⟩ := h1.insert hready value hfound
      simp only [hins, Exec.ok_bind]
      exact ⟨_, t2, _, rfl, by rw [if_neg habsent], h2⟩
  | find key len =>
    obtain ⟨found, t1, hfind, -, h1, hfound⟩ := h.find hok.1 hok.2
    simp only [step, findByKey, hfind, Exec.ok_bind, mapStep]
    cases found with
    | entry e =>
      refine ⟨some e, t1, m, rfl, ?_, h1⟩
      have hlook := h1.mem_iff.mp hfound.1
      rw [hfound.2] at hlook
      rw [hlook, ← hfound.2]
      rfl
    | bucket i =>
      refine ⟨none, t1, m, rfl, ?_, h1⟩
      have habsent : m.lookup (cString key) = none := by
        rw [AList.lookup_eq_none]
        intro hin
        obtain ⟨entry, hmem, hkey⟩ := h1.key_mem_iff.mp hin
        exact hfound.1 entry hmem hkey
      rw [habsent]
      rfl
  | delete key len =>
    obtain ⟨t1, hdel, hplaced, hdeletes⟩ := delete_spec hashFunc h.inv h.placed hok.1 hok.2
    have hready := delete_inv hashFunc h.inv hdel
    simp only [step, hdel, Exec.ok_bind]
    exact ⟨none, t1, _, rfl, rfl, h.delete (inv_of_ready hready) hplaced hdeletes⟩

theorem holds_new : Holds hashFunc ({} : HashTable V) ∅ :=
  ⟨Or.inl rfl, ⟨placedBy_replicate_nil _ 0, placedBy_replicate_nil _ 0⟩, List.Perm.refl _⟩

theorem Holds.size_eq {t : HashTable V} {m : Bindings V} (h : Holds hashFunc t m) :
    t.size = m.entries.length := by
  rw [← h.bindings.length_eq, List.length_map, entries_length h.inv]

/-- Every run on a new table answers as a finite map does, meets no fault, and ends with the bindings
of that map. -/
theorem run_refines_map (hashFunc : List Byte → ℕ) (ops : List (HashOp V))
    (h : StepsOk (step hashFunc) (StepOk hashFunc) {} ops) :
    ∃ outs t m, runOps (step hashFunc) {} ops = .ok (outs, t) ∧
      Trace (fun m op out m' => mapStep m op = (out, m')) ∅ ops outs m ∧
      (t.entries.map binding).Perm m.entries ∧ t.size = m.entries.length ∧
      (t.isEmpty = true ↔ t.size = 0) := by
  obtain ⟨outs, t, m, hrun, htrace, hholds⟩ :=
    run_simulates (R := Holds hashFunc) (fun t m op hh hok => step_holds hh op hok) ops {} ∅ holds_new h
  refine ⟨outs, t, m, hrun, htrace, hholds.bindings, hholds.size_eq, ?_⟩
  simp [isEmpty, size]

/-- Two bindings, one of them in the second array of a rehash that the first Delete starts. -/
theorem run_refines_map_rehash :
    ∃ outs t m, runOps (step fun key => (key.headD 0).val) {} [.insert [5, 0] 1 50, .delete [9, 0] 1,
        .insert [6, 0] 1 60, .insert [5, 0] 1 70, .find [6, 0] 1, .delete [5, 0] 1] = .ok (outs, t) ∧
      Trace (fun m op out m' => mapStep m op = (out, m')) ∅ [.insert [5, 0] 1 50, .delete [9, 0] 1,
        .insert [6, 0] 1 60, .insert [5, 0] 1 70, .find [6, 0] 1, .delete [5, 0] 1] outs m ∧
      (t.entries.map binding).Perm m.entries ∧ t.size = m.entries.length ∧
      (t.isEmpty = true ↔ t.size = 0) :=
  run_refines_map _ _ (by decide +kernel)

end Hashed

end HashTable

end DeftRpc.DataStruct
