import DeftRpc.DataStruct.HashResize

/-!
# How long a rehash takes

The new array has a place for every entry and one more for every bucket that has
still to move, so that an Insert between two moves finds room in it.
-/

namespace DeftRpc.DataStruct
open DeftRpc.Foundation

namespace HashTable
variable {V : Type}

/-- The array that is filled has `free` places beside those of the entries and of the buckets
that have still to move. -/
def Room (t : HashTable V) (free : ℕ) : Prop :=
  match t.mRehashIdx with
  | none => t.size + free ≤ 2 ^ t.mSize0
  | some idx => t.size + (2 ^ t.mSize0 - idx) + free ≤ 2 ^ t.mSize1

theorem Room.weaken {t : HashTable V} {free : ℕ} (h : t.Room free) : t.Room 0 := by
  unfold Room at *
  split at h
  · omega
  · omega

theorem Room.of_eq {t t' : HashTable V} {free free' : ℕ} (h : t.Room free) (hidx : t'.mRehashIdx = t.mRehashIdx)
    (hsize0 : t'.mSize0 = t.mSize0) (hsize1 : t'.mSize1 = t.mSize1)
    (hsize : t'.size + free' ≤ t.size + free) : t'.Room free' := by
  unfold Room at *
  rw [hidx, hsize0, hsize1]
  cases hcur : t.mRehashIdx with
  | none =>
    rw [hcur] at h
    simp only at h ⊢
    omega
  | some idx =>
    rw [hcur] at h
    simp only at h ⊢
    omega

theorem Room.size_le {t : HashTable V} (h : t.Room 0) : t.size ≤ 2 ^ max t.mSize0 t.mSize1 := by
  have hpow0 : 2 ^ t.mSize0 ≤ 2 ^ max t.mSize0 t.mSize1 := Nat.pow_le_pow_right (by omega) (le_max_left _ _)
  have hpow1 : 2 ^ t.mSize1 ≤ 2 ^ max t.mSize0 t.mSize1 := Nat.pow_le_pow_right (by omega) (le_max_right _ _)
  unfold Room at h
  split at h
  · omega
  · omega

theorem expendSize_gt {t : HashTable V} (hpos : 0 < t.mSize0) : 4 * t.mUsed0 < 2 ^ t.expendSize := by
  have hne : t.mSize0 ≠ 0 := by omega
  rw [expendSize, if_neg hne]
  exact (expendLoop_gt _ _ _ (by omega) (by omega)).2

/-- The array that a resize allocates has room for the entries, the buckets and one more. -/
theorem expendOrReduce_room {t t' : HashTable V} (h : Inv t) (hidle : t.mRehashIdx = none)
    (hexp : t.expendOrReduce t.expendSize = .ok t') : t'.Room 1 := by
  obtain ⟨buckets, -, hexp⟩ := Exec.bind_eq_ok hexp
  rcases h with rfl | h
  · cases hexp
    show 0 + 0 + 1 ≤ 2 ^ 4
    omega
  · cases h with
    | moving => cases hidle
    | still old size used hlen hpos hused =>
      have hgt := expendSize_gt (t := ⟨some old, none, size, 0, used, 0, none⟩) hpos
      have hgrow := mSize0_lt_expendSize (⟨some old, none, size, 0, used, 0, none⟩ : HashTable V)
      generalize expendSize (⟨some old, none, size, 0, used, 0, none⟩ : HashTable V) = len at *
      have hne : size ≠ 0 := by omega
      simp only [if_neg hne] at hexp
      cases hexp
      have hdouble : 2 ^ (size + 1) ≤ 2 ^ len := Nat.pow_le_pow_right (by omega) hgrow
      have hsmall : 2 ^ 1 ≤ 2 ^ size := Nat.pow_le_pow_right (by omega) hpos
      rw [pow_succ] at hdouble
      simp only at hgt
      show used + 0 + (2 ^ size - 0) + 1 ≤ 2 ^ len
      omega

theorem room_of_not_needExpend {t : HashTable V} (h : Inv t) (hidle : t.mRehashIdx = none)
    (hneed : t.needExpend = false) : t.Room 1 := by
  have hused := (mSize1_idle h hidle).1
  simp only [needExpend, isReHashing, hidle, Option.isSome_none, Bool.not_false, Bool.true_and,
    Bool.or_eq_false_iff, decide_eq_false_iff_not] at hneed
  unfold Room
  rw [hidle]
  simp only
  omega

theorem not_needExpend {t : HashTable V} (h : Ready t) (hroom : t.Room 1) : t.needExpend = false := by
  cases h with
  | still buckets size used hlen hpos hused =>
    have hne : size ≠ 0 := by omega
    have hlt : used + 0 + 1 ≤ 2 ^ size := hroom
    simp [needExpend, isReHashing, hne]
    omega
  | moving old new size0 size1 used0 used1 idx hold hnew hpos =>
    have hne : size0 ≠ 0 := by omega
    simp [needExpend, isReHashing, hne]

section Hashed
variable (hashFunc : List Byte → ℕ)

/-! ### What the calls leave -/

theorem reHashStep_room {t t1 : HashTable V} (h : Inv t) (hroom : t.Room 0)
    (hre : t.reHashStep hashFunc = .ok t1) : t1.Room (if t.isReHashing then 1 else 0) := by
  have hsize := (reHashStep_size hashFunc h hre).2
  rcases h with rfl | h
  · cases hre
    exact hroom
  · cases h with
    | still buckets size used hlen hpos hused =>
      cases hre
      exact hroom
    | moving old new size0 size1 used0 used1 idx hold hnew hpos hlt hused0 hused1 hidx hmoved =>
      have hready : Ready _ := .moving old new size0 size1 used0 used1 idx hold hnew hpos hlt hused0
        hused1 hidx hmoved
      have hall : used0 + used1 + (2 ^ size0 - idx) + 0 ≤ 2 ^ size1 := hroom
      have hsum : t1.size = used0 + used1 := hsize
      unfold Room
      rcases reHash_moving hashFunc hready hre with ⟨-, hidx1, h0, h1⟩ | ⟨-, hidx1, h0, -⟩
      · rw [hidx1, h0, h1, hsum]
        simp only [isReHashing, Option.isSome_some, if_true]
        omega
      · rw [hidx1, h0, hsum]
        simp only [isReHashing, Option.isSome_some, if_true]
        omega

theorem reHashStep_idle {t t1 : HashTable V} (hidle : t.isReHashing = false)
    (hre : t.reHashStep hashFunc = .ok t1) : t1 = t := by
  unfold reHashStep at hre
  rw [hidle, if_neg Bool.false_ne_true] at hre
  cases hre
  rfl

theorem findBucketByKey_room {t t' : HashTable V} (h : Inv t) (hroom : t.Room 0) {key : List Byte}
    {len : ℕ} {found : Found V} (hfind : t.findBucketByKey hashFunc key len = .ok (found, t')) :
    t'.Room 1 := by
  obtain ⟨t1, hre, hexp⟩ := findBucketByKey_state hashFunc hfind
  have h1 := (reHashStep_size hashFunc h hre).1
  have hroom1 := reHashStep_room hashFunc h hroom hre
  cases hneed : t1.needExpend with
  | true =>
    rw [hneed] at hexp
    exact expendOrReduce_room h1 (needExpend_idle h1 hneed) hexp
  | false =>
    rw [hneed] at hexp
    cases hexp
    cases hcur : t.isReHashing with
    | true =>
      rw [hcur] at hroom1
      exact hroom1
    | false =>
      have hsame := reHashStep_idle hashFunc hcur hre
      have hidle : t.mRehashIdx = none := by simpa [isReHashing] using hcur
      exact room_of_not_needExpend h1 (hsame ▸ hidle) hneed

theorem insertToBucket_room {t t' : HashTable V} {key : List Byte} {value : V} {i : ℕ}
    {entry : HashEntry V} (hins : t.insertToBucket key value i = .ok (entry, t')) (hroom : t.Room 1) :
    t'.Room 0 := by
  simp only [insertToBucket] at hins
  split at hins
  · obtain ⟨bucket, -, hins⟩ := Exec.bind_eq_ok hins
    cases hins
    exact hroom.of_eq rfl rfl rfl (by simp only [size]; omega)
  · obtain ⟨bucket, -, hins⟩ := Exec.bind_eq_ok hins
    cases hins
    exact hroom.of_eq rfl rfl rfl (by simp only [size]; omega)

theorem delete_room {t t' : HashTable V} (h : Inv t) (hroom : t.Room 0) {key : List Byte} {len : ℕ}
    (hdel : t.delete hashFunc key len = .ok t') : t'.Room 0 := by
  obtain ⟨t1, t2, hre, hexp, hsize0, hsize1, hidx, hsize⟩ := delete_sizes hashFunc hdel
  have h1 := (reHashStep_size hashFunc h hre).1
  have hroom1 := (reHashStep_room hashFunc h hroom hre).weaken
  have hroom2 : t2.Room 0 := by
    cases hneed : t1.needReduce with
    | true =>
      rw [hneed] at hexp
      exact (expendOrReduce_room h1 (needReduce_idle hneed) hexp).weaken
    | false =>
      rw [hneed] at hexp
      cases hexp
      exact hroom1
  exact hroom2.of_eq hidx hsize0 hsize1 (by omega)

theorem step_room {t t' : HashTable V} (h : Inv t) (hroom : t.Room 0) {op : HashOp V}
    {o : Option (HashEntry V)} (hstep : t.step hashFunc op = .ok (o, t')) : t'.Room 0 := by
  cases op with
  | insert key len value =>
    obtain ⟨⟨found, t1⟩, hfind, hstep⟩ := Exec.bind_eq_ok hstep
    have hroom1 := findBucketByKey_room hashFunc h hroom hfind
    cases found with
    | entry e =>
      cases hstep
      exact hroom1.weaken
    | bucket i =>
      obtain ⟨⟨e, t2⟩, hins, hstep⟩ := Exec.bind_eq_ok hstep
      cases hstep
      exact insertToBucket_room hins hroom1
  | find key len =>
    obtain ⟨⟨found, t1⟩, hfind, hstep⟩ := Exec.bind_eq_ok hstep
    have hroom1 := findBucketByKey_room hashFunc h hroom hfind
    cases found <;> cases hstep <;> exact hroom1.weaken
  | delete key len =>
    obtain ⟨t1, hdel, hstep⟩ := Exec.bind_eq_ok hstep
    cases hstep
    exact delete_room hashFunc h hroom hdel

theorem run_room (ops : List (HashOp V)) {t t' : HashTable V} {outs : List (Option (HashEntry V))}
    (h : Inv t) (hroom : t.Room 0) (hrun : runOps (step hashFunc) t ops = .ok (outs, t')) :
    t'.Room 0 := by
  have keep : ∀ (t : HashTable V) op o t', (Inv t ∧ t.Room 0) → True →
      step hashFunc t op = .ok (o, t') → Inv t' ∧ t'.Room 0 := by
    intro t op o t' hboth _ hstep
    obtain ⟨h, hroom⟩ := hboth
    exact ⟨.inr (step_inv hashFunc h hstep), step_room hashFunc h hroom hstep⟩
  exact (run_keeps keep ⟨h, hroom⟩ (stepsOk_true t ops) hrun).2

theorem Reachable.room {t : HashTable V} (h : Reachable hashFunc t) : t.Room 0 := by
  obtain ⟨ops, outs, hrun⟩ := h
  exact run_room hashFunc ops (.inl rfl) (by show 0 + 0 + 0 ≤ 2 ^ 0; omega) hrun

/-! ### What the calls do while a rehash goes on -/

theorem bucketAt_ready {t : HashTable V} (h : Ready t) (n : ℕ) :
    (∃ chain, bucketAt t.mTable (n % 2 ^ t.mSize0) = .ok chain) ∧
      (t.isReHashing = true → ∃ chain, bucketAt t.mRehashTable (n % 2 ^ t.mSize1) = .ok chain) := by
  have hpos0 := Nat.mod_lt n (Nat.two_pow_pos t.mSize0)
  have hpos1 := Nat.mod_lt n (Nat.two_pow_pos t.mSize1)
  cases h with
  | still buckets size used hlen =>
    obtain ⟨chain, hchain, -⟩ := bucketAt_some (show n % 2 ^ size < buckets.length by rw [hlen]; exact hpos0)
    exact ⟨⟨chain, hchain⟩, fun hre => absurd hre Bool.false_ne_true⟩
  | moving old new size0 size1 used0 used1 idx hold hnew =>
    obtain ⟨chain, hchain, -⟩ := bucketAt_some (show n % 2 ^ size0 < old.length by rw [hold]; exact hpos0)
    obtain ⟨chain', hchain', -⟩ := bucketAt_some (show n % 2 ^ size1 < new.length by rw [hnew]; exact hpos1)
    exact ⟨⟨chain, hchain⟩, fun _ => ⟨chain', hchain'⟩⟩

/-- The second table is at the same place of its rehash. -/
structure SamePlace (t t' : HashTable V) : Prop where
  idx : t'.mRehashIdx = t.mRehashIdx
  size0 : t'.mSize0 = t.mSize0
  size1 : t'.mSize1 = t.mSize1

theorem findBucketByKey_moving {t t1 : HashTable V} (h1 : Ready t1) (hmoving : t1.isReHashing = true)
    (hre : t.reHashStep hashFunc = .ok t1) (key : List Byte) (len : ℕ) :
    ∃ found, t.findBucketByKey hashFunc key len = .ok (found, t1) ∧
      ∀ i, found = .bucket i → ∃ chain, bucketAt t1.mRehashTable i = .ok chain := by
  have hneed : t1.needExpend = false := by
    cases h1 with
    | still => cases hmoving
    | moving old new size0 size1 used0 used1 idx hold hnew hpos =>
      have hne : size0 ≠ 0 := by omega
      simp [needExpend, isReHashing, hne]
  obtain ⟨⟨chain, hchain⟩, hnew⟩ := bucketAt_ready h1 (hashFunc (key.take len))
  obtain ⟨chain', hchain'⟩ := hnew hmoving
  unfold findBucketByKey
  simp only [hre, Exec.ok_bind, hneed, expendWhen, Bool.false_eq_true, if_false, hchain]
  cases hfind : chain.find? fun entry => entry.key = cString key with
  | some e => exact ⟨.entry e, rfl, fun i hi => by cases hi⟩
  | none =>
    simp only [hmoving, Bool.not_true, Bool.false_eq_true, if_false, hchain', Exec.ok_bind]
    cases hfind' : chain'.find? fun entry => entry.key = cString key with
    | some e => exact ⟨.entry e, rfl, fun i hi => by cases hi⟩
    | none =>
      refine ⟨.bucket _, rfl, fun i hi => ?_⟩
      cases hi
      exact ⟨chain', hchain'⟩

theorem delete_moving {t t1 : HashTable V} (h1 : Ready t1) (hmoving : t1.isReHashing = true)
    (hre : t.reHashStep hashFunc = .ok t1) (key : List Byte) (len : ℕ) :
    ∃ t', t.delete hashFunc key len = .ok t' ∧ t1.SamePlace t' := by
  have hneed : t1.needReduce = false := by
    rw [needReduce, hmoving, Bool.not_true, Bool.false_and]
  obtain ⟨⟨chain, hchain⟩, hnew⟩ := bucketAt_ready h1 (hashFunc (key.take len))
  obtain ⟨chain', hchain'⟩ := hnew hmoving
  unfold delete
  simp only [hre, Exec.ok_bind, hneed, expendWhen, Bool.false_eq_true, if_false, hchain]
  split
  · exact ⟨_, rfl, ⟨rfl, rfl, rfl⟩⟩
  · simp only [hmoving, Bool.not_true, Bool.false_eq_true, if_false, hchain', Exec.ok_bind]
    split
    · exact ⟨_, rfl, ⟨rfl, rfl, rfl⟩⟩
    · exact ⟨_, rfl, ⟨rfl, rfl, rfl⟩⟩

/-- A call that does not complete the rehash moves one bucket, and meets no fault. -/
theorem step_moving {t t1 : HashTable V} (h1 : Ready t1) (hmoving : t1.isReHashing = true)
    (hre : t.reHashStep hashFunc = .ok t1) (op : HashOp V) :
    ∃ o t', t.step hashFunc op = .ok (o, t') ∧ t1.SamePlace t' := by
  cases op with
  | insert key len value =>
    obtain ⟨found, hfind, hbucket⟩ := findBucketByKey_moving hashFunc h1 hmoving hre key len
    simp only [step, HashTable.insert, hfind, Exec.ok_bind]
    cases found with
    | entry e => exact ⟨_, t1, rfl, ⟨rfl, rfl, rfl⟩⟩
    | bucket i =>
      obtain ⟨chain, hchain⟩ := hbucket i rfl
      simp only [insertToBucket, hmoving, if_true, hchain, Exec.ok_bind]
      exact ⟨_, _, rfl, ⟨rfl, rfl, rfl⟩⟩
  | find key len =>
    obtain ⟨found, hfind, -⟩ := findBucketByKey_moving hashFunc h1 hmoving hre key len
    simp only [step, findByKey, hfind, Exec.ok_bind]
    cases found with
    | entry e => exact ⟨_, t1, rfl, ⟨rfl, rfl, rfl⟩⟩
    | bucket i => exact ⟨_, t1, rfl, ⟨rfl, rfl, rfl⟩⟩
  | delete key len =>
    obtain ⟨t', hdel, hsame⟩ := delete_moving hashFunc h1 hmoving hre key len
    simp only [step, hdel, Exec.ok_bind]
    exact ⟨none, t', rfl, hsame⟩

/-- One of the calls completes the rehash: those before it meet no fault and move a bucket each, and
it leaves an array that does not have to expand. -/
def CompletesIn (t : HashTable V) (idx : ℕ) (ops : List (HashOp V)) : Prop :=
  ∃ before op after outs t1 t2, ops = before ++ op :: after ∧
    runOps (step hashFunc) t before = .ok (outs, t1) ∧ t1.mRehashIdx = some (idx + before.length) ∧
    t1.mSize0 = t.mSize0 ∧ t1.mSize1 = t.mSize1 ∧ t1.reHashStep hashFunc = .ok t2 ∧
    t2.mRehashIdx = none ∧ t2.mSize0 = t.mSize1 ∧ t2.needExpend = false

theorem completesIn {t : HashTable V} (h : Inv t) (hroom : t.Room 0) {idx : ℕ} (hidx : t.mRehashIdx = some idx)
    (ops : List (HashOp V)) (hops : ops.length = 2 ^ t.mSize0 - idx) : t.CompletesIn hashFunc idx ops := by
  induction ops generalizing t idx with
  | nil =>
    rcases h with rfl | h
    · cases hidx
    · cases h with
      | still => cases hidx
      | moving old new size0 size1 used0 used1 i hold hnew hpos hlt hused0 hused1 hbound =>
        cases hidx
        simp only [List.length_nil] at hops
        omega
  | cons op ops ih =>
    rcases h with rfl | h
    · cases hidx
    · obtain ⟨t1, hre, h1, -, -⟩ := reHash_spec hashFunc h
      have hmoving : t.isReHashing = true := by rw [isReHashing, hidx, Option.isSome_some]
      have hstepped : t.reHashStep hashFunc = .ok t1 := by rw [reHashStep, if_pos hmoving, hre]
      have hroom1 := reHashStep_room hashFunc (.inr h) hroom hstepped
      rw [if_pos hmoving] at hroom1
      cases h with
      | still => cases hidx
      | moving old new size0 size1 used0 used1 i hold hnew hpos hlt hused0 hused1 hbound hmoved =>
        cases hidx
        have hready : Ready _ := .moving old new size0 size1 used0 used1 idx hold hnew hpos hlt hused0
          hused1 hbound hmoved
        rcases reHash_moving hashFunc hready hre with ⟨-, hidx1, h0, hs1⟩ | ⟨-, hidx1, h0, -⟩
        · have hmoving1 : t1.isReHashing = true := by rw [isReHashing, hidx1, Option.isSome_some]
          obtain ⟨o, t', hstep, hsame⟩ := step_moving hashFunc h1 hmoving1 hstepped op
          have hidx' : t'.mRehashIdx = some (idx + 1) := hsame.idx.trans hidx1
          have hsize0 : t'.mSize0 = size0 := hsame.size0.trans h0
          have hsize1 : t'.mSize1 = size1 := hsame.size1.trans hs1
          have hops' : ops.length = 2 ^ t'.mSize0 - (idx + 1) := by
            rw [hsize0]
            simp only [List.length_cons] at hops
            omega
          obtain ⟨before, op', after, outs, u, u', rfl, hrun, hidxu, hu0, hu1, hreu, hdone, hlast, hneed⟩ :=
            ih (.inr (step_inv hashFunc (.inr hready) hstep))
              (step_room hashFunc (.inr hready) hroom hstep) hidx' hops'
          refine ⟨op :: before, op', after, o :: outs, u, u', rfl, runOps_cons_ok hstep hrun, ?_,
            hu0.trans hsize0, hu1.trans hsize1, hreu, hdone, hlast.trans hsize1, hneed⟩
          rw [hidxu, List.length_cons]
          congr 1
          omega
        · exact ⟨[], op, ops, [], _, t1, rfl, rfl, rfl, rfl, rfl, hstepped, hidx1, h0,
            not_needExpend h1 hroom1⟩

/-- In every reachable state the entries fit, and a rehash in progress has emptied the buckets before
its index and is completed by as many calls as there are buckets from the index on. -/
theorem rehash_progress (t : HashTable V) (h : Reachable hashFunc t) :
    t.size ≤ 2 ^ max t.mSize0 t.mSize1 ∧
      ∀ idx, t.mRehashIdx = some idx →
        idx < 2 ^ t.mSize0 ∧ bucketCount t.mTable = 2 ^ t.mSize0 ∧
        (∀ i, i < idx → bucketAt t.mTable i = .ok []) ∧ t.size < 2 ^ t.mSize1 ∧
        ∀ ops : List (HashOp V), ops.length = 2 ^ t.mSize0 - idx → t.CompletesIn hashFunc idx ops := by
  have hroom := h.room
  refine ⟨hroom.size_le, fun idx hidx => ?_⟩
  have hcomplete := completesIn hashFunc h.inv hroom hidx
  rcases h.inv with rfl | hready
  · cases hidx
  · cases hready with
    | still => cases hidx
    | moving old new size0 size1 used0 used1 i hold hnew hpos hlt hused0 hused1 hbound hmoved =>
      cases hidx
      have hall : used0 + used1 + (2 ^ size0 - idx) + 0 ≤ 2 ^ size1 := hroom
      have hempty : ∀ i, i < idx → bucketAt (some old) i = .ok [] := by
        intro i hi
        rw [bucketAt, hmoved i hi]
      have hsize : used0 + used1 < 2 ^ size1 := by omega
      exact ⟨hbound, hold, hempty, hsize, hcomplete⟩

end Hashed

/- The first Delete has started a rehash, and no bucket has moved. -/
def rehashStarted : HashTable ℕ :=
  ⟨some ((List.replicate 16 []).set 5 [⟨[5], 50⟩]), some (List.replicate 32 []), 4, 5, 1, 0, some 0⟩

/-- Sixteen calls complete it. -/
theorem rehash_progress_started :
    rehashStarted.CompletesIn (fun key => (key.headD 0).val) 0 (List.replicate 16 (.delete [9] 1)) := by
  have hreach : Reachable (fun key => (key.headD 0).val) rehashStarted :=
    ⟨[.insert [5] 1 50, .delete [9] 1], [some ⟨[5], 50⟩, none], by decide +kernel⟩
  have hprogress := (rehash_progress _ rehashStarted hreach).2 0 rfl
  exact hprogress.2.2.2.2 _ List.length_replicate

end HashTable

end DeftRpc.DataStruct
