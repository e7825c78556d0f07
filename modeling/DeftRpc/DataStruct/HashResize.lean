import DeftRpc.DataStruct.HashInvariant

/-!
# How large a HashTable gets

Insert and FindByKey expand an array that is full, to at most eight times its
entries. Delete takes the same size for an array that is half empty, and that size
is always a larger one.
-/

namespace DeftRpc.DataStruct
open DeftRpc.Foundation

def bucketCount {V : Type} (table : Option (List (List (HashEntry V)))) : ℕ := (table.getD []).length

namespace HashTable
variable {V : Type}

theorem expendLoop_le (target turns temp : ℕ) (h : 2 ^ temp ≤ target) :
    2 ^ expendLoop target turns temp ≤ 2 * target := by
  induction turns generalizing temp with
  | zero =>
    rw [expendLoop]
    omega
  | succ turns ih =>
    rw [expendLoop]
    split
    · next hle => exact ih (temp + 1) hle
    · rw [pow_succ]
      omega

theorem expendSize_le {t : HashTable V} (hpos : 0 < t.mSize0) (h : 2 ^ t.mSize0 ≤ t.mUsed0) :
    2 ^ t.expendSize ≤ 8 * t.mUsed0 := by
  have hne : t.mSize0 ≠ 0 := by omega
  have hloop := expendLoop_le (4 * t.mUsed0) (4 * t.mUsed0 + 1) t.mSize0 (by omega)
  rw [expendSize, if_neg hne]
  omega

theorem bucketCount_le {t : HashTable V} (h : Inv t) :
    bucketCount t.mTable ≤ 2 ^ t.mSize0 ∧ bucketCount t.mRehashTable ≤ 2 ^ t.mSize1 := by
  rcases h with rfl | h
  · exact ⟨Nat.zero_le _, Nat.zero_le _⟩
  · cases h with
    | still buckets size used hlen => exact ⟨hlen.le, Nat.zero_le _⟩
    | moving old new size0 size1 used0 used1 idx hold hnew => exact ⟨hold.le, hnew.le⟩

theorem mSize1_idle {t : HashTable V} (h : Inv t) (hidle : t.mRehashIdx = none) :
    t.mUsed0 = t.size ∧ t.mSize1 = 0 := by
  rcases h with rfl | h
  · exact ⟨rfl, rfl⟩
  · cases h with
    | still buckets size used => exact ⟨rfl, rfl⟩
    | moving => cases hidle

structure SizesLe (t : HashTable V) (bound : ℕ) : Prop where
  size0 : 2 ^ t.mSize0 ≤ bound
  size1 : 2 ^ t.mSize1 ≤ bound

section Hashed
variable (hashFunc : List Byte → ℕ)

/-! ### What one rehash step leaves -/

/-- Either the buckets go on moving, or the second array takes over with all entries. -/
theorem reHash_moving {old new : List (List (HashEntry V))} {size0 size1 used0 used1 idx : ℕ}
    (h : Ready ⟨some old, some new, size0, size1, used0, used1, some idx⟩) {t1 : HashTable V}
    (hre : reHash hashFunc ⟨some old, some new, size0, size1, used0, used1, some idx⟩ = .ok t1) :
    ((old[idx]?.getD []).length < used0 ∧ t1.mRehashIdx = some (idx + 1) ∧
      t1.mSize0 = size0 ∧ t1.mSize1 = size1) ∨
    (used0 ≤ (old[idx]?.getD []).length ∧ t1.mRehashIdx = none ∧ t1.mSize0 = size1 ∧
      t1.mSize1 = 0) := by
  cases h with
  | moving _ _ _ _ _ _ _ hold hnew hpos hlt hused0 hused1 hidx hmoved =>
    obtain ⟨chain, hchain, hget⟩ := bucketAt_some (show idx < old.length by omega)
    obtain ⟨new', hmove, -⟩ := moveChain_spec hashFunc (some old) used0 used1 idx (some idx) hlt chain
      new hnew
    simp only [reHash, hchain, Exec.ok_bind, hmove] at hre
    simp only [hget, Option.getD_some]
    split at hre
    · cases hre
      exact Or.inr ⟨by omega, rfl, rfl, rfl⟩
    · cases hre
      exact Or.inl ⟨by omega, rfl, rfl, rfl⟩

theorem reHashStep_size {t t1 : HashTable V} (h : Inv t) (hre : t.reHashStep hashFunc = .ok t1) :
    Inv t1 ∧ t1.size = t.size := by
  obtain ⟨t1', hre', h1, hperm, -⟩ := reHashStep_spec hashFunc h
  cases hre.symm.trans hre'
  refine ⟨h1, ?_⟩
  rw [← entries_length h1, hperm.length_eq, entries_length h]

theorem reHashStep_sizesLe {t t1 : HashTable V} (h : Inv t) (hre : t.reHashStep hashFunc = .ok t1)
    {bound : ℕ} (hb : t.SizesLe bound) : t1.SizesLe bound := by
  rcases h with rfl | h
  · cases hre
    exact hb
  · cases h with
    | still =>
      cases hre
      exact hb
    | moving old new size0 size1 used0 used1 idx hold hnew hpos hlt hused0 hused1 hidx hmoved =>
      have hready : Ready _ := .moving old new size0 size1 used0 used1 idx hold hnew hpos hlt hused0
        hused1 hidx hmoved
      rcases reHash_moving hashFunc hready hre with ⟨-, -, h0, h1⟩ | ⟨-, -, h0, h1⟩
      · exact ⟨h0 ▸ hb.size0, h1 ▸ hb.size1⟩
      · have hone : 1 ≤ bound := Nat.one_le_two_pow.trans hb.size0
        exact ⟨h0 ▸ hb.size1, by rw [h1]; simpa using hone⟩

/-! ### When Delete starts a resize -/

/-- The array is at most half full: the one there is, or the one that the next rehash step
completes. -/
def HalfEmpty (t : HashTable V) : Prop :=
  match t.mRehashIdx with
  | none => 2 * t.mUsed0 ≤ 2 ^ t.mSize0
  | some idx => t.mUsed0 ≤ ((t.mTable.getD [])[idx]?.getD []).length ∧ 2 * t.size ≤ 2 ^ t.mSize1

instance (t : HashTable V) : Decidable t.HalfEmpty := by
  unfold HalfEmpty
  split <;> infer_instance

theorem needReduce_iff {t t1 : HashTable V} (h : Inv t) (hre : t.reHashStep hashFunc = .ok t1) :
    t1.needReduce = true ↔ t.HalfEmpty := by
  obtain ⟨h1, hsize⟩ := reHashStep_size hashFunc h hre
  rcases h with rfl | h
  · cases hre
    simp [needReduce, isReHashing, HalfEmpty]
  · cases h with
    | still =>
      cases hre
      simp [needReduce, isReHashing, HalfEmpty]
    | moving old new size0 size1 used0 used1 idx hold hnew hpos hlt hused0 hused1 hidx hmoved =>
      have hready : Ready _ := .moving old new size0 size1 used0 used1 idx hold hnew hpos hlt hused0
        hused1 hidx hmoved
      simp only [HalfEmpty, Option.getD_some, needReduce, isReHashing]
      rcases reHash_moving hashFunc hready hre with ⟨hmore, hidx1, -⟩ | ⟨hdone, hidx1, h0, -⟩
      · simp only [hidx1, Option.isSome_some, Bool.not_true, Bool.false_and, Bool.false_eq_true,
          false_iff]
        omega
      · have hused := (mSize1_idle h1 hidx1).1
        simp only [hidx1, Option.isSome_none, Bool.not_false, Bool.true_and, decide_eq_true_eq, hused,
          hsize, h0, hdone, true_and]

theorem mTable_reHashStep {t t1 : HashTable V} (h : Inv t) (hre : t.reHashStep hashFunc = .ok t1) :
    t1.mTable.isSome = t.mTable.isSome := by
  rcases h with rfl | h
  · cases hre
    rfl
  · obtain ⟨t1', hre', h1, -⟩ := reHash_spec hashFunc h
    have hsome : ∀ t : HashTable V, Ready t → t.mTable.isSome = true := by
      intro t h
      cases h <;> rfl
    rw [hsome t h]
    unfold reHashStep at hre
    split at hre
    · cases hre.symm.trans hre'
      exact hsome t1 h1
    · cases hre
      exact hsome t h

/-- The array that Delete allocates has no more buckets than the one it replaces. -/
def Reduces (t : HashTable V) : HashOp V → Prop
  | .delete _ _ =>
    match t.reHashStep hashFunc with
    | .ok t1 => t1.needReduce = true → t1.mTable.isSome = true →
        2 ^ t1.expendSize ≤ bucketCount t1.mTable
    | .error _ => True
  | .insert _ _ _ => True
  | .find _ _ => True

/-- Delete finds no array, or one that is more than half full. -/
def KeepsSize (t : HashTable V) : HashOp V → Prop
  | .delete _ _ => t.mTable.isSome = true → ¬t.HalfEmpty
  | .insert _ _ _ => True
  | .find _ _ => True

instance (t : HashTable V) : ∀ op, Decidable (t.Reduces hashFunc op)
  | .delete _ _ =>
    match hstep : t.reHashStep hashFunc with
    | .ok t1 => decidable_of_iff (t1.needReduce = true → t1.mTable.isSome = true →
        2 ^ t1.expendSize ≤ bucketCount t1.mTable) (by rw [Reduces, hstep])
    | .error _ => .isTrue (by rw [Reduces, hstep]; trivial)
  | .insert _ _ _ => .isTrue trivial
  | .find _ _ => .isTrue trivial

instance (t : HashTable V) : ∀ op, Decidable (t.KeepsSize op)
  | .delete _ _ => inferInstanceAs (Decidable (t.mTable.isSome = true → ¬t.HalfEmpty))
  | .insert _ _ _ => .isTrue trivial
  | .find _ _ => .isTrue trivial

theorem reduces_iff {t : HashTable V} (h : Inv t) (op : HashOp V) :
    t.Reduces hashFunc op ↔ t.KeepsSize op := by
  cases op with
  | insert key len value => exact Iff.rfl
  | find key len => exact Iff.rfl
  | delete key len =>
    obtain ⟨t1, hre, h1, -⟩ := reHashStep_spec hashFunc h
    have hgrow : ¬2 ^ t1.expendSize ≤ bucketCount t1.mTable := by
      have hlt := Nat.pow_lt_pow_right (show 1 < 2 by omega) (mSize0_lt_expendSize t1)
      have hcount := (bucketCount_le h1).1
      omega
    have hsome := mTable_reHashStep hashFunc h hre
    simp only [Reduces, KeepsSize, hre, hgrow, needReduce_iff hashFunc h hre, hsome]
    tauto

/-! ### The bound -/

def peakSize : HashTable V → List (HashOp V) → ℕ
  | t, [] => t.size
  | t, op :: ops => max t.size (match t.step hashFunc op with
    | .ok r => peakSize r.2 ops
    | .error _ => 0)

theorem expendWhen_sizesLe {t t' : HashTable V} (h : Inv t) {need : Bool}
    (hneed : need = true → t = {} ∨ t.mRehashIdx = none ∧ 2 ^ t.mSize0 ≤ t.mUsed0)
    (hexp : t.expendWhen need = .ok t') {peak : ℕ} (hpeak : t.size ≤ peak)
    (hb : t.SizesLe (max 16 (8 * peak))) : t'.SizesLe (max 16 (8 * peak)) := by
  cases need with
  | false =>
    cases hexp
    exact hb
  | true =>
    obtain ⟨buckets, hmake, hexp⟩ := Exec.bind_eq_ok hexp
    rcases hneed rfl with rfl | ⟨hidle, hfull⟩
    · cases hexp
      exact ⟨le_max_left _ _, hb.size1⟩
    · obtain ⟨hused, -⟩ := mSize1_idle h hidle
      split at hexp
      · next hzero =>
        -- The initial array is no expansion of a full one, but has 16 buckets.
        cases hexp
        refine ⟨?_, hb.size1⟩
        simp only [expendSize, if_pos hzero]
        exact le_max_left _ _
      · next hne =>
        cases hexp
        refine ⟨hb.size0, ?_⟩
        have hle := expendSize_le (by omega) hfull
        exact hle.trans (le_max_of_le_right (by omega))

theorem needExpend_full {t : HashTable V} (h : Inv t) (hneed : t.needExpend = true) :
    t = {} ∨ t.mRehashIdx = none ∧ 2 ^ t.mSize0 ≤ t.mUsed0 := by
  rcases h with rfl | h
  · exact Or.inl rfl
  · right
    cases h with
    | still buckets size used hlen hpos hused =>
      refine ⟨rfl, ?_⟩
      have hne : size ≠ 0 := by omega
      simpa [needExpend, isReHashing, hne] using hneed
    | moving old new size0 size1 used0 used1 idx hold hnew hpos =>
      have hne : size0 ≠ 0 := by omega
      simp [needExpend, isReHashing, hne] at hneed

/-- Delete changes the two sizes and the index in its first steps only. -/
theorem delete_sizes {t t' : HashTable V} {key : List Byte} {len : ℕ}
    (hdel : t.delete hashFunc key len = .ok t') :
    ∃ t1 t2, t.reHashStep hashFunc = .ok t1 ∧ t1.expendWhen t1.needReduce = .ok t2 ∧
      t'.mSize0 = t2.mSize0 ∧ t'.mSize1 = t2.mSize1 ∧ t'.mRehashIdx = t2.mRehashIdx ∧
      t'.size ≤ t2.size := by
  unfold delete at hdel
  obtain ⟨t1, hre, hdel⟩ := Exec.bind_eq_ok hdel
  obtain ⟨t2, hexp, hdel⟩ := Exec.bind_eq_ok hdel
  refine ⟨t1, t2, hre, hexp, ?_⟩
  obtain ⟨chain, -, hdel⟩ := Exec.bind_eq_ok hdel
  split at hdel
  · cases hdel
    exact ⟨rfl, rfl, rfl, Nat.add_le_add_right (Nat.sub_le _ 1) _⟩
  · split at hdel
    · cases hdel
      exact ⟨rfl, rfl, rfl, le_rfl⟩
    · obtain ⟨chain', -, hdel⟩ := Exec.bind_eq_ok hdel
      split at hdel
      · cases hdel
        exact ⟨rfl, rfl, rfl, Nat.add_le_add_left (Nat.sub_le _ 1) _⟩
      · cases hdel
        exact ⟨rfl, rfl, rfl, le_rfl⟩

theorem delete_sizesLe {t t' : HashTable V} (h : Inv t) {key : List Byte} {len : ℕ}
    (hkeeps : t.KeepsSize (.delete key len)) (hdel : t.delete hashFunc key len = .ok t') {peak : ℕ}
    (hpeak : t.size ≤ peak) (hb : t.SizesLe (max 16 (8 * peak))) :
    t'.SizesLe (max 16 (8 * peak)) := by
  obtain ⟨t1, t2, hre, hexp, hsize0, hsize1, -⟩ := delete_sizes hashFunc hdel
  obtain ⟨h1, hsize⟩ := reHashStep_size hashFunc h hre
  have hneed : t1.needReduce = true → t1 = {} ∨ t1.mRehashIdx = none ∧ 2 ^ t1.mSize0 ≤ t1.mUsed0 := by
    intro hneed
    have hhalf := (needReduce_iff hashFunc h hre).mp hneed
    rcases h with rfl | h
    · cases hre
      exact Or.inl rfl
    · have hsome : t.mTable.isSome = true := by cases h <;> rfl
      exact absurd hhalf (hkeeps hsome)
  have h2 := expendWhen_sizesLe h1 hneed hexp (hsize ▸ hpeak) (reHashStep_sizesLe hashFunc h hre hb)
  exact ⟨hsize0 ▸ h2.size0, hsize1 ▸ h2.size1⟩

theorem findBucketByKey_sizesLe {t t' : HashTable V} (h : Inv t) {key : List Byte} {len : ℕ}
    {found : Found V} (hfind : t.findBucketByKey hashFunc key len = .ok (found, t')) {peak : ℕ}
    (hpeak : t.size ≤ peak) (hb : t.SizesLe (max 16 (8 * peak))) :
    t'.SizesLe (max 16 (8 * peak)) := by
  obtain ⟨t1, hre, hexp⟩ := findBucketByKey_state hashFunc hfind
  obtain ⟨h1, hsize⟩ := reHashStep_size hashFunc h hre
  exact expendWhen_sizesLe h1 (needExpend_full h1) hexp (hsize ▸ hpeak)
    (reHashStep_sizesLe hashFunc h hre hb)

theorem step_sizesLe {t t' : HashTable V} (h : Inv t) {op : HashOp V} {o : Option (HashEntry V)}
    (hkeeps : t.KeepsSize op) (hstep : t.step hashFunc op = .ok (o, t')) {peak : ℕ}
    (hpeak : t.size ≤ peak) (hb : t.SizesLe (max 16 (8 * peak))) :
    t'.SizesLe (max 16 (8 * peak)) := by
  cases op with
  | insert key len value =>
    obtain ⟨⟨found, t1⟩, hfind, hstep⟩ := Exec.bind_eq_ok hstep
    have h1 := findBucketByKey_sizesLe hashFunc h hfind hpeak hb
    cases found with
    | entry e =>
      cases hstep
      exact h1
    | bucket i =>
      obtain ⟨⟨e, t2⟩, hins, hstep⟩ := Exec.bind_eq_ok hstep
      cases hstep
      simp only [insertToBucket] at hins
      split at hins
      · obtain ⟨bucket, -, hins⟩ := Exec.bind_eq_ok hins
        cases hins
        exact ⟨h1.size0, h1.size1⟩
      · obtain ⟨bucket, -, hins⟩ := Exec.bind_eq_ok hins
        cases hins
        exact ⟨h1.size0, h1.size1⟩
  | find key len =>
    obtain ⟨⟨found, t1⟩, hfind, hstep⟩ := Exec.bind_eq_ok hstep
    have h1 := findBucketByKey_sizesLe hashFunc h hfind hpeak hb
    cases found <;> cases hstep <;> exact h1
  | delete key len =>
    obtain ⟨t1, hdel, hstep⟩ := Exec.bind_eq_ok hstep
    cases hstep
    exact delete_sizesLe hashFunc h hkeeps hdel hpeak hb

theorem run_sizesLe {t t' : HashTable V} (h : Inv t) {ops : List (HashOp V)}
    {outs : List (Option (HashEntry V))} (hkeeps : StepsOk (step hashFunc) KeepsSize t ops)
    (hrun : runOps (step hashFunc) t ops = .ok (outs, t')) {peak : ℕ}
    (hpeak : peakSize hashFunc t ops ≤ peak) (hb : t.SizesLe (max 16 (8 * peak))) :
    t'.SizesLe (max 16 (8 * peak)) := by
  induction ops generalizing t outs with
  | nil =>
    cases hrun
    exact hb
  | cons op ops ih =>
    obtain ⟨o, t1, rest, hstep, hrest, -⟩ := runOps_cons_inv hrun
    simp only [peakSize, hstep, max_le_iff] at hpeak
    exact ih (.inr (step_inv hashFunc h hstep)) (stepsOk_tail hstep hkeeps) hrest hpeak.2
      (step_sizesLe hashFunc h (stepsOk_head hkeeps) hstep hpeak.1 hb)

/-- No state of the run has an array of more buckets than its entries ask for. -/
def SizeBounded (ops : List (HashOp V)) : Prop :=
  ∀ before, before <+: ops → ∀ outs t, runOps (step hashFunc) {} before = .ok (outs, t) →
    bucketCount t.mTable ≤ max 16 (8 * peakSize hashFunc {} before) ∧
      bucketCount t.mRehashTable ≤ max 16 (8 * peakSize hashFunc {} before)

theorem sizeBounded_of_keepsSize {ops : List (HashOp V)}
    (h : StepsOk (step hashFunc) KeepsSize {} ops) : SizeBounded hashFunc ops := by
  rintro before ⟨after, rfl⟩ outs t hrun
  have hinv : Inv t := run_inv hashFunc before (.inl rfl) hrun
  have hsizes : t.SizesLe (max 16 (8 * peakSize hashFunc {} before)) := by
    apply run_sizesLe hashFunc (.inl rfl) (stepsOk_append h).1 hrun le_rfl
    exact ⟨le_max_of_le_left (by simp), le_max_of_le_left (by simp)⟩
  obtain ⟨hcount0, hcount1⟩ := bucketCount_le hinv
  exact ⟨hcount0.trans hsizes.size0, hcount1.trans hsizes.size1⟩

/-- A run on a new table keeps both sizes bounded, with every resize of a Delete a reduction, exactly
when no Delete finds an array that is half empty. -/
theorem run_reduces_iff (ops : List (HashOp V)) :
    StepsOk (step hashFunc) (Reduces hashFunc) {} ops ∧ SizeBounded hashFunc ops ↔
      StepsOk (step hashFunc) KeepsSize {} ops := by
  have keep : ∀ (t : HashTable V) op o t', Inv t → step hashFunc t op = .ok (o, t') → Inv t' :=
    fun _ _ _ _ h hstep => .inr (step_inv hashFunc h hstep)
  constructor
  · rintro ⟨hreduces, -⟩
    exact stepsOk_of_invariant keep (fun t op h => (reduces_iff hashFunc h op).mp) ops {} (.inl rfl)
      hreduces
  · intro hkeeps
    refine ⟨?_, sizeBounded_of_keepsSize hashFunc hkeeps⟩
    exact stepsOk_of_invariant keep (fun t op h => (reduces_iff hashFunc h op).mpr) ops {} (.inl rfl)
      hkeeps

/-- One entry, and two Deletes of an absent key. -/
def absentDeletes : List (HashOp ℕ) := [.insert [5, 0] 1 50, .delete [9, 0] 1, .find [5, 0] 1,
  .find [5, 0] 1, .find [5, 0] 1, .find [5, 0] 1, .find [5, 0] 1, .delete [9, 0] 1]

theorem absentDeletes_grow :
    ∃ outs t, runOps (step fun key => (key.headD 0).val) {} absentDeletes = .ok (outs, t) ∧
      peakSize (fun key => (key.headD 0).val) {} absentDeletes = 1 ∧
      bucketCount t.mTable = 32 ∧ bucketCount t.mRehashTable = 64 ∧
      ¬StepsOk (step fun key => (key.headD 0).val) (Reduces fun key => (key.headD 0).val) {}
        absentDeletes :=
  ⟨_, _, rfl, by decide +kernel, by decide +kernel, by decide +kernel, by decide +kernel⟩

end Hashed

end HashTable

end DeftRpc.DataStruct
