import DeftRpc.DataStruct.HashRefinement

/-!
# The std::string calls of a HashTable

A call passes `str.c_str()` and `str.size()`: the hash sees the whole string, the
comparisons and the stored key end at its first NUL.
-/

namespace DeftRpc.DataStruct
open DeftRpc.Foundation

namespace HashTable
variable {V : Type}

inductive StringOp (V : Type) where
  | insert (str : List Byte) (value : V)
  | findByKey (str : List Byte)
  | delete (str : List Byte)

namespace StringOp

def str : StringOp V → List Byte
  | insert str _ => str
  | findByKey str => str
  | delete str => str

/-- `str.c_str()` points at the string and a NUL. -/
def call : StringOp V → HashOp V
  | insert str value => .insert (str ++ [0]) str.length value
  | findByKey str => .find (str ++ [0]) str.length
  | delete str => .delete (str ++ [0]) str.length

end StringOp

theorem cString_eq_iff (str : List Byte) : cString (str ++ [0]) = str ↔ (0 : Byte) ∉ str := by
  constructor
  · intro heq hmem
    rw [← heq] at hmem
    have hne := List.all_eq_true.mp List.all_takeWhile 0 hmem
    simp at hne
  · intro hnul
    have hall : ∀ c ∈ str, decide (c ≠ 0) = true := by
      intro c hc
      have hne : c ≠ 0 := fun hzero => hnul (hzero ▸ hc)
      exact decide_eq_true hne
    rw [cString, List.takeWhile_append_of_pos hall]
    simp

theorem mapStep_insert {str : List Byte} (hnul : (0 : Byte) ∉ str) (value : V) (m : Bindings V) :
    mapStep m (StringOp.insert str value).call =
      if str ∈ m then (none, m) else (some ⟨str, value⟩, m.insert str value) := by
  rw [StringOp.call, mapStep, (cString_eq_iff str).mpr hnul]

theorem mapStep_findByKey {str : List Byte} (hnul : (0 : Byte) ∉ str) (m : Bindings V) :
    mapStep m (StringOp.findByKey str).call = ((m.lookup str).map fun value => ⟨str, value⟩, m) := by
  rw [StringOp.call, mapStep, (cString_eq_iff str).mpr hnul]

theorem mapStep_delete {str : List Byte} (hnul : (0 : Byte) ∉ str) (m : Bindings V) :
    mapStep m (StringOp.delete str).call = (none, m.erase str) := by
  rw [StringOp.call, mapStep, (cString_eq_iff str).mpr hnul]

theorem keyOk_of_noNul {str : List Byte} (hnul : (0 : Byte) ∉ str) : KeyOk (str ++ [0]) str.length := by
  rw [KeyOk, (cString_eq_iff str).mpr hnul]

section Hashed
variable (hashFunc : List Byte → ℕ)

def strStep (t : HashTable V) (op : StringOp V) : Exec (Option (HashEntry V) × HashTable V) :=
  t.step hashFunc op.call

/-- What a call does with an entry that was inserted for the string: FindByKey returns it for
that string and no other, Delete removes it for that string and no other. -/
def Serves (str : List Byte) (entry : HashEntry V) (t : HashTable V) (op : StringOp V) : Prop :=
  ∀ out t', strStep hashFunc t op = .ok (out, t') →
    match op with
    | .insert _ _ => entry ∈ t'.entries
    | .findByKey str' => entry ∈ t'.entries ∧ (out = some entry ↔ str' = str)
    | .delete str' => entry ∈ t'.entries ↔ str' ≠ str

/-- Every entry that Insert creates has its string as the key, and is served by every call up to and
including the first Delete of the string. -/
def KeepsKeys (ops : List (StringOp V)) : Prop :=
  ∀ before str value after, ops = before ++ .insert str value :: after →
    ∀ outs t, runOps (strStep hashFunc) {} before = .ok (outs, t) →
    ∀ entry t1, strStep hashFunc t (.insert str value) = .ok (some entry, t1) →
      entry.key = str ∧ entry.val = value ∧ entry ∈ t1.entries ∧
        ∀ mid op rest, after = mid ++ op :: rest → .delete str ∉ mid →
          ∀ outs' t2, runOps (strStep hashFunc) t1 mid = .ok (outs', t2) →
            Serves hashFunc str entry t2 op

/-! ### The entry that an Insert creates -/

theorem insert_entry {t t' : HashTable V} {key : List Byte} {len : ℕ} {value : V} {entry : HashEntry V}
    (hins : t.insert hashFunc key len value = .ok (some entry, t')) : entry = ⟨cString key, value⟩ := by
  obtain ⟨⟨found, t1⟩, -, hins⟩ := Exec.bind_eq_ok hins
  cases found with
  | entry e => cases hins
  | bucket i =>
    obtain ⟨⟨e, t2⟩, hbucket, hins⟩ := Exec.bind_eq_ok hins
    cases hins
    simp only [insertToBucket] at hbucket
    split at hbucket
    · obtain ⟨chain, -, hbucket⟩ := Exec.bind_eq_ok hbucket
      cases hbucket
      rfl
    · obtain ⟨chain, -, hbucket⟩ := Exec.bind_eq_ok hbucket
      cases hbucket
      rfl

/-! ### Calls without a NUL -/

theorem fits_of_ok {t t1 t' : HashTable V} {need : HashTable V → Bool} (hre : t.reHashStep hashFunc = .ok t1)
    (hexp : t1.expendWhen (need t1) = .ok t') : t.Fits hashFunc need := by
  rw [Fits, hre]
  intro hneed
  rw [hneed] at hexp
  obtain ⟨buckets, hmake, -⟩ := Exec.bind_eq_ok hexp
  by_contra hlarge
  rw [makeTable, if_neg hlarge] at hmake
  cases hmake

theorem stepOk_of_noNul {t t' : HashTable V} {op : StringOp V} (hnul : (0 : Byte) ∉ op.str)
    {out : Option (HashEntry V)} (hstep : strStep hashFunc t op = .ok (out, t')) :
    t.StepOk hashFunc op.call := by
  cases op with
  | insert str value =>
    obtain ⟨⟨found, t2⟩, hfind, -⟩ := Exec.bind_eq_ok hstep
    obtain ⟨t1, hre, hexp⟩ := findBucketByKey_state hashFunc hfind
    exact ⟨keyOk_of_noNul hnul, fits_of_ok hashFunc hre hexp⟩
  | findByKey str =>
    obtain ⟨⟨found, t2⟩, hfind, -⟩ := Exec.bind_eq_ok hstep
    obtain ⟨t1, hre, hexp⟩ := findBucketByKey_state hashFunc hfind
    exact ⟨keyOk_of_noNul hnul, fits_of_ok hashFunc hre hexp⟩
  | delete str =>
    obtain ⟨t2, hdel, -⟩ := Exec.bind_eq_ok hstep
    unfold HashTable.delete at hdel
    obtain ⟨t1, hre, hdel⟩ := Exec.bind_eq_ok hdel
    obtain ⟨t2', hexp, -⟩ := Exec.bind_eq_ok hdel
    exact ⟨keyOk_of_noNul hnul, fits_of_ok hashFunc hre hexp⟩

variable {hashFunc}

theorem strStep_holds {t t' : HashTable V} {m : Bindings V} (h : Holds hashFunc t m) {op : StringOp V}
    (hnul : (0 : Byte) ∉ op.str) {out : Option (HashEntry V)}
    (hstep : strStep hashFunc t op = .ok (out, t')) :
    mapStep m op.call = (out, (mapStep m op.call).2) ∧ Holds hashFunc t' (mapStep m op.call).2 := by
  obtain ⟨out', t'', m', hstep', hmap, hholds⟩ := step_holds h op.call (stepOk_of_noNul hashFunc hnul hstep)
  cases hstep.symm.trans hstep'
  rw [hmap]
  exact ⟨rfl, hholds⟩

theorem lookup_kept {m : Bindings V} {str : List Byte} {value : V} (hm : m.lookup str = some value)
    {op : StringOp V} (hnul : (0 : Byte) ∉ op.str) (hop : op ≠ .delete str) :
    (mapStep m op.call).2.lookup str = some value := by
  cases op with
  | insert str' value' =>
    have hstr : (0 : Byte) ∉ str' := hnul
    rw [mapStep_insert hstr]
    split
    · exact hm
    · next habsent =>
      have hne : str ≠ str' := by
        rintro rfl
        exact habsent (AList.lookup_isSome.mp (by rw [hm]; rfl))
      exact (AList.lookup_insert_ne hne).trans hm
  | findByKey str' => exact hm
  | delete str' =>
    have hne : str ≠ str' := fun heq => hop (by rw [heq])
    have hstr : (0 : Byte) ∉ str' := hnul
    rw [mapStep_delete hstr]
    exact (AList.lookup_erase_ne hne).trans hm

theorem run_holds (ops : List (StringOp V)) {t t' : HashTable V} {m : Bindings V} (h : Holds hashFunc t m)
    (hnul : ∀ op ∈ ops, (0 : Byte) ∉ op.str) {outs : List (Option (HashEntry V))}
    (hrun : runOps (strStep hashFunc) t ops = .ok (outs, t')) :
    ∃ m', Holds hashFunc t' m' ∧ ∀ str value, m.lookup str = some value → .delete str ∉ ops →
      m'.lookup str = some value := by
  induction ops generalizing t m outs with
  | nil =>
    cases hrun
    exact ⟨m, h, fun _ _ hm _ => hm⟩
  | cons op ops ih =>
    obtain ⟨out, t1, rest, hstep, hrest, -⟩ := runOps_cons_inv hrun
    have hop := hnul op List.mem_cons_self
    have h1 := (strStep_holds h hop hstep).2
    obtain ⟨m', h', hkept⟩ := ih h1 (fun op' hin => hnul op' (List.mem_cons_of_mem op hin)) hrest
    refine ⟨m', h', fun str value hm hnot => ?_⟩
    have hne : op ≠ .delete str := fun heq => hnot (heq ▸ List.mem_cons_self)
    exact hkept str value (lookup_kept hm hop hne) fun hin => hnot (List.mem_cons_of_mem op hin)

theorem insert_binds {m m' : Bindings V} {str : List Byte} {value : V} {entry : HashEntry V}
    (hnul : (0 : Byte) ∉ str) (hmap : mapStep m (StringOp.insert str value).call = (some entry, m')) :
    entry = ⟨str, value⟩ ∧ m'.lookup str = some value := by
  rw [mapStep_insert hnul] at hmap
  split at hmap
  · cases hmap
  · cases hmap
    exact ⟨rfl, AList.lookup_insert m⟩

theorem serves {t : HashTable V} {m : Bindings V} (h : Holds hashFunc t m) {str : List Byte} {value : V}
    (hm : m.lookup str = some value) {op : StringOp V} (hnul : (0 : Byte) ∉ op.str) :
    Serves hashFunc str ⟨str, value⟩ t op := by
  intro out t' hstep
  obtain ⟨hmap, h'⟩ := strStep_holds h hnul hstep
  cases op with
  | insert str' value' => exact h'.mem_iff.mpr (lookup_kept hm hnul (by simp))
  | findByKey str' =>
    refine ⟨h'.mem_iff.mpr (lookup_kept hm hnul (by simp)), ?_⟩
    have hstr : (0 : Byte) ∉ str' := hnul
    rw [mapStep_findByKey hstr] at hmap
    have hout : (m.lookup str').map (fun value => (⟨str', value⟩ : HashEntry V)) = out := congrArg Prod.fst hmap
    rw [← hout]
    constructor
    · intro hfound
      obtain ⟨v, -, hentry⟩ := Option.map_eq_some_iff.mp hfound
      cases hentry
      rfl
    · rintro rfl
      simp only [hm, Option.map_some]
  | delete str' =>
    constructor
    · rintro hin rfl
      have hlook := h'.mem_iff.mp hin
      have hstr : (0 : Byte) ∉ str' := hnul
      rw [mapStep_delete hstr] at hlook
      rw [AList.lookup_erase] at hlook
      cases hlook
    · intro hne
      exact h'.mem_iff.mpr (lookup_kept hm hnul (by simpa using hne))

variable (hashFunc)

/-- A run keeps the keys of its entries when none of its strings has a NUL. A NUL is always lost with
what is behind it. -/
theorem keepsKeys_of_noNul (ops : List (StringOp V)) (hnul : ∀ op ∈ ops, (0 : Byte) ∉ op.str) :
    KeepsKeys hashFunc ops ∧
      ∀ (t : HashTable V) str value entry t', strStep hashFunc t (.insert str value) = .ok (some entry, t') →
        (entry.key = str ↔ (0 : Byte) ∉ str) := by
  constructor
  · rintro before str value after rfl outs t hbefore entry t1 hins
    obtain ⟨m, h, -⟩ := run_holds before holds_new
      (fun op hin => hnul op (List.mem_append_left _ hin)) hbefore
    have hstr : (0 : Byte) ∉ (StringOp.insert str value).str := hnul (.insert str value) (by simp)
    obtain ⟨hmap, h1⟩ := strStep_holds h hstr hins
    obtain ⟨rfl, hbound⟩ := insert_binds hstr hmap
    refine ⟨rfl, rfl, h1.mem_iff.mpr hbound, ?_⟩
    rintro mid op rest rfl hnot outs' t2 hmid
    obtain ⟨m2, h2, hkept⟩ := run_holds mid h1 (fun op' hin => hnul op' (by simp [hin])) hmid
    exact serves h2 (hkept str value hbound hnot) (hnul op (by simp))
  · intro t str value entry t' hins
    rw [insert_entry hashFunc hins]
    exact cString_eq_iff str

end Hashed

theorem strStep_first (hashFunc : List Byte → ℕ) (str : List Byte) (value : V) :
    ∃ entry t, strStep hashFunc {} (.insert str value) = .ok (some entry, t) := by
  have hbucket : ∀ n : ℕ, bucketAt (some (List.replicate 16 ([] : List (HashEntry V)))) (n % 16) = .ok [] := by
    intro n
    rw [bucketAt, List.getElem?_replicate, if_pos (Nat.mod_lt n (by omega))]
  have hfind : findBucketByKey hashFunc ({} : HashTable V) (str ++ [0]) str.length =
      .ok (.bucket (hashFunc ((str ++ [0]).take str.length) % 16),
        ⟨some (List.replicate 16 []), none, 4, 0, 0, 0, none⟩) := by
    simp [findBucketByKey, reHashStep, isReHashing, expendWhen, needExpend, expendOrReduce, expendSize,
      makeTable, hbucket, -List.reduceReplicate]
  simp only [strStep, StringOp.call, step, HashTable.insert, hfind, Exec.ok_bind, insertToBucket, isReHashing,
    Option.isSome_none, Bool.false_eq_true, if_false, hbucket]
  exact ⟨_, _, rfl⟩

/-- It stores what is before the first NUL, whatever the hash. -/
theorem not_keepsKeys_of_nul (hashFunc : List Byte → ℕ) {str : List Byte} (hnul : (0 : Byte) ∈ str) (value : V) :
    ¬KeepsKeys hashFunc [StringOp.insert str value] := by
  intro hkeeps
  obtain ⟨entry, t, hins⟩ := strStep_first hashFunc str value
  obtain ⟨hkey, -⟩ := hkeeps [] str value [] rfl [] {} rfl entry t hins
  rw [insert_entry hashFunc hins, cString_eq_iff] at hkey
  exact hkey hnul

theorem nul_cuts_key : ¬KeepsKeys (fun str => (str.headD 0).val) [StringOp.insert [97, 0, 98] (1 : ℕ)] :=
  not_keepsKeys_of_nul _ (by decide) 1

/-- One entry, found and removed by its own string only, on both sides of a rehash step. -/
theorem keepsKeys_of_noNul_rehash : KeepsKeys (fun str => (str.headD 0).val) [.insert [97] 1, .delete [98],
      .findByKey [97], .insert [99] 2, .findByKey [99], .delete [97]] ∧
    ∀ (t : HashTable ℕ) str value entry t',
      strStep (fun str => (str.headD 0).val) t (.insert str value) = .ok (some entry, t') →
        (entry.key = str ↔ (0 : Byte) ∉ str) :=
  keepsKeys_of_noNul _ _ (by decide)

end HashTable

end DeftRpc.DataStruct
