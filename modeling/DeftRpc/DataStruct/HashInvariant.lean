import DeftRpc.DataStruct.HashTable
import DeftRpc.Foundation.Buckets

/-!
# The states of a HashTable

Nothing is allocated, or one array is there, or a second larger one into which the
buckets before `mRehashIdx` have moved.
-/

namespace DeftRpc.DataStruct
open DeftRpc.Foundation

namespace HashTable
variable {V : Type}

def entries (t : HashTable V) : List (HashEntry V) :=
  (t.mTable.getD []).flatten ++ (t.mRehashTable.getD []).flatten

/-- A table with an array. -/
inductive Ready : HashTable V → Prop where
  | still (buckets : List (List (HashEntry V))) (size used : ℕ) : buckets.length = 2 ^ size →
      0 < size → buckets.flatten.length = used → Ready ⟨some buckets, none, size, 0, used, 0, none⟩
  | moving (old new : List (List (HashEntry V))) (size0 size1 used0 used1 idx : ℕ) :
      old.length = 2 ^ size0 → new.length = 2 ^ size1 → 0 < size0 → size0 < size1 →
        old.flatten.length = used0 → new.flatten.length = used1 → idx < 2 ^ size0 →
          (∀ i, i < idx → old[i]? = some []) →
            Ready ⟨some old, some new, size0, size1, used0, used1, some idx⟩

def Inv (t : HashTable V) : Prop := t = {} ∨ Ready t

/-- Both arrays place their entries by the hash of the stored key. -/
def Placed (hashFunc : List Byte → ℕ) (t : HashTable V) : Prop :=
  PlacedBy (fun e => hashFunc e.key % 2 ^ t.mSize0) (t.mTable.getD []) ∧
    PlacedBy (fun e => hashFunc e.key % 2 ^ t.mSize1) (t.mRehashTable.getD [])

theorem entries_length {t : HashTable V} (h : Inv t) : t.entries.length = t.size := by
  rcases h with rfl | h
  · rfl
  · cases h with
    | still buckets len used hlen hpos hused => simp [entries, size, hused]
    | moving old new size0 size1 used0 used1 idx hold hnew hpos hlt hused0 hused1 hidx hmoved =>
      simp [entries, size, hused0, hused1]

theorem bucketAt_some {buckets : List (List (HashEntry V))} {i : ℕ} (h : i < buckets.length) :
    ∃ chain, bucketAt (some buckets) i = .ok chain ∧ buckets[i]? = some chain := by
  have hi : buckets[i]? = some buckets[i] := List.getElem?_eq_getElem h
  exact ⟨_, by rw [bucketAt, hi], hi⟩

theorem bucketAt_ok {buckets : List (List (HashEntry V))} {i : ℕ} {chain : List (HashEntry V)}
    (h : bucketAt (some buckets) i = .ok chain) : buckets[i]? = some chain := by
  unfold bucketAt at h
  simp only at h
  split at h
  · cases h
  · next chain' hi =>
    cases h
    exact hi

theorem expendLoop_gt (target turns temp : ℕ) (h : target < temp + turns) (hturns : 0 < turns) :
    temp < expendLoop target turns temp ∧ target < 2 ^ expendLoop target turns temp := by
  induction turns generalizing temp with
  | zero => omega
  | succ turns ih =>
    rw [expendLoop]
    have hpow : temp + 1 < 2 ^ (temp + 1) := Nat.lt_two_pow_self
    split
    · next hle =>
      have hmore : 0 < turns := by omega
      obtain ⟨h1, h2⟩ := ih (temp + 1) (by omega) hmore
      exact ⟨by omega, h2⟩
    · exact ⟨by omega, by omega⟩

theorem mSize0_lt_expendSize (t : HashTable V) : t.mSize0 < t.expendSize := by
  unfold expendSize
  split
  · omega
  · exact (expendLoop_gt _ _ _ (by omega) (by omega)).1

section Hashed
variable (hashFunc : List Byte → ℕ)

/-! ### One step of the rehash -/

theorem moveChain_spec (old : Option (List (List (HashEntry V)))) {size0 size1 : ℕ}
    (used0 used1 idx : ℕ) (ri : Option ℕ) (hlt : size0 < size1) (chain : List (HashEntry V))
    (new : List (List (HashEntry V))) (hnew : new.length = 2 ^ size1) :
    ∃ new', moveChain hashFunc idx ⟨old, some new, size0, size1, used0, used1, ri⟩ chain
        = .ok ⟨old, some new', size0, size1, used0 - chain.length, used1 + chain.length, ri⟩ ∧
      new'.length = 2 ^ size1 ∧ new'.flatten.Perm (chain ++ new.flatten) ∧
      (PlacedBy (fun e => hashFunc e.key % 2 ^ size1) new →
        PlacedBy (fun e => hashFunc e.key % 2 ^ size1) new') := by
  induction chain generalizing new used0 used1 with
  | nil => exact ⟨new, rfl, hnew, List.Perm.refl _, id⟩
  | cons entry chain ih =>
    have hpos : hashFunc entry.key % 2 ^ size1 < new.length := by
      rw [hnew]
      exact Nat.mod_lt _ (Nat.two_pow_pos size1)
    obtain ⟨bucket, hbucket, hget⟩ := bucketAt_some hpos
    obtain ⟨new', hmove, hlen, hperm, hplaced⟩ := ih (used0 - 1) (used1 + 1)
      (new.set (hashFunc entry.key % 2 ^ size1) (entry :: bucket)) (by simpa using hnew)
    refine ⟨new', ?_, hlen, ?_, fun h => hplaced ?_⟩
    · rw [moveChain]
      simp only [if_pos hlt, hbucket, Exec.ok_bind, setBucket, Option.map_some]
      rw [hmove, List.length_cons]
      congr 2 <;> omega
    · have hcons := (flatten_set_cons hget entry).append_left chain
      exact hperm.trans (hcons.trans List.perm_middle)
    · refine h.set fun x hx => ?_
      rcases List.mem_cons.mp hx with rfl | hx
      · rfl
      · exact h _ _ hget x hx

theorem reHash_spec {t : HashTable V} (h : Ready t) :
    ∃ t', t.reHash hashFunc = .ok t' ∧ Ready t' ∧ t'.entries.Perm t.entries ∧
      (t.Placed hashFunc → t'.Placed hashFunc) := by
  cases h with
  | still buckets size used hlen hpos hused =>
    exact ⟨_, rfl, .still buckets size used hlen hpos hused, List.Perm.refl _, id⟩
  | moving old new size0 size1 used0 used1 idx hold hnew hpos hlt hused0 hused1 hidx hmoved =>
    obtain ⟨chain, hchain, hget⟩ := bucketAt_some (show idx < old.length by omega)
    obtain ⟨new', hmove, hlen, hperm, hplaced⟩ := moveChain_spec hashFunc (some old)
      used0 used1 idx (some idx) hlt chain new hnew
    have hset := flatten_set_length hget []
    have hnewlen := hperm.length_eq
    simp only [List.length_append, List.length_nil, Nat.add_zero] at hset hnewlen
    have hentries : ((old.set idx []).flatten ++ new'.flatten).Perm (old.flatten ++ new.flatten) := by
      have hmid := hperm.append_left (old.set idx []).flatten
      have hfront := (flatten_set_perm hget []).append_right new.flatten
      simp only [List.append_nil] at hfront
      rw [← List.append_assoc] at hmid
      exact hmid.trans hfront
    unfold reHash
    simp only [hchain, Exec.ok_bind, hmove, setBucket, Option.map_some]
    by_cases hdone : used0 - chain.length = 0
    · -- The old array is empty now.
      have hempty : (old.set idx []).flatten = [] := List.eq_nil_of_length_eq_zero (by omega)
      rw [if_pos hdone]
      refine ⟨_, rfl, .still new' size1 (used1 + chain.length) hlen (by omega) (by omega), ?_, ?_⟩
      · rw [hempty, List.nil_append] at hentries
        simpa [entries] using hentries
      · exact fun hp => ⟨hplaced hp.2, placedBy_replicate_nil _ 0⟩
    · rw [if_neg hdone]
      have hmoved' : ∀ i, i < idx + 1 → (old.set idx [])[i]? = some [] := by
        intro i hi
        rw [List.getElem?_set]
        split
        · rw [if_pos (by omega)]
        · exact hmoved i (by omega)
      have hidx' : idx + 1 < 2 ^ size0 := by
        by_contra hend
        have hall := flatten_eq_drop (by rw [List.length_set]; omega) hmoved'
        rw [List.drop_of_length_le (by rw [List.length_set]; omega)] at hall
        rw [hall] at hset
        simp only [List.flatten_nil, List.length_nil] at hset
        omega
      refine ⟨_, rfl, .moving (old.set idx []) new' size0 size1 (used0 - chain.length)
        (used1 + chain.length) (idx + 1) (by simpa using hold) hlen hpos hlt (by omega) (by omega)
        hidx' hmoved', ?_, ?_⟩
      · simpa [entries] using hentries
      · exact fun hp => ⟨hp.1.set (by simp), hplaced hp.2⟩

/-! ### The beginning of FindBucketByKey and Delete -/

theorem inv_of_ready {t : HashTable V} (h : Ready t) : Inv t := .inr h

theorem reHashStep_spec {t : HashTable V} (h : Inv t) :
    ∃ t', t.reHashStep hashFunc = .ok t' ∧ Inv t' ∧
      t'.entries.Perm t.entries ∧ (t.Placed hashFunc → t'.Placed hashFunc) := by
  rcases h with rfl | h
  · exact ⟨{}, rfl, .inl rfl, List.Perm.refl _, id⟩
  · obtain ⟨t', hre, hready, hperm, hplaced⟩ := reHash_spec hashFunc h
    unfold reHashStep
    split
    · exact ⟨t', hre, .inr hready, hperm, hplaced⟩
    · exact ⟨t, rfl, .inr h, List.Perm.refl _, id⟩

theorem makeTable_ok {len : ℕ} {buckets : List (List (HashEntry V))}
    (h : makeTable V len = .ok buckets) : buckets = List.replicate (2 ^ len) [] := by
  unfold makeTable at h
  split at h
  · cases h
    rfl
  · cases h

theorem expendOrReduce_spec {t t' : HashTable V} (h : Inv t) (hidle : t.mRehashIdx = none)
    (hexp : t.expendOrReduce t.expendSize = .ok t') :
    Ready t' ∧ t'.entries = t.entries ∧ (t.Placed hashFunc → t'.Placed hashFunc) := by
  have hgrow := mSize0_lt_expendSize t
  generalize t.expendSize = len at hexp hgrow
  obtain ⟨buckets, hmake, hexp⟩ := Exec.bind_eq_ok hexp
  have hbuckets := makeTable_ok hmake
  have hlen : buckets.length = 2 ^ len := by simp [hbuckets]
  have hflat : buckets.flatten = [] := by simp [hbuckets]
  rcases h with rfl | h
  · cases hexp
    refine ⟨.still buckets len 0 hlen (by simpa using hgrow) (by simp [hflat]), ?_, fun _ => ⟨?_, ?_⟩⟩
    · simp [entries, hflat]
    · simp only [Option.getD_some, hbuckets]
      exact placedBy_replicate_nil _ _
    · exact placedBy_replicate_nil _ 0
  · cases h with
    | moving old new size0 size1 used0 used1 idx hold hnew hpos hlt hused0 hused1 hidx hmoved =>
      cases hidle
    | still old size used hold hpos hused =>
      have hne : size ≠ 0 := by omega
      simp only [if_neg hne] at hexp
      cases hexp
      refine ⟨.moving old buckets size len used 0 0 hold hlen hpos hgrow hused (by simp [hflat])
        (Nat.two_pow_pos size) (by simp), ?_, fun hp => ⟨hp.1, ?_⟩⟩
      · simp [entries, hflat]
      · simp only [Option.getD_some, hbuckets]
        exact placedBy_replicate_nil _ _

theorem needExpend_idle {t : HashTable V} (h : Inv t) (hneed : t.needExpend = true) :
    t.mRehashIdx = none := by
  rcases h with rfl | h
  · rfl
  · cases h with
    | still => rfl
    | moving old new size0 size1 used0 used1 idx hold hnew hpos =>
      have hne : size0 ≠ 0 := by omega
      simp [needExpend, isReHashing, hne] at hneed

theorem needReduce_idle {t : HashTable V} (hneed : t.needReduce = true) : t.mRehashIdx = none := by
  simp only [needReduce, isReHashing, Bool.and_eq_true] at hneed
  simpa using hneed.1

theorem expendWhen_spec {t t' : HashTable V} (h : Inv t) {need : Bool}
    (hidle : need = true → t.mRehashIdx = none) (hfresh : t = {} → need = true)
    (hexp : t.expendWhen need = .ok t') :
    Ready t' ∧ t'.entries = t.entries ∧ (t.Placed hashFunc → t'.Placed hashFunc) := by
  cases need with
  | true => exact expendOrReduce_spec hashFunc h (hidle rfl) hexp
  | false =>
    cases hexp
    rcases h with hnew | h
    · cases hfresh hnew
    · exact ⟨h, rfl, id⟩

/-- FindBucketByKey changes the table by a rehash step and an expansion only. -/
theorem findBucketByKey_state {t t' : HashTable V} {key : List Byte} {len : ℕ} {found : Found V}
    (hfind : t.findBucketByKey hashFunc key len = .ok (found, t')) :
    ∃ t1, t.reHashStep hashFunc = .ok t1 ∧ t1.expendWhen t1.needExpend = .ok t' := by
  unfold findBucketByKey at hfind
  obtain ⟨t1, hre, hfind⟩ := Exec.bind_eq_ok hfind
  obtain ⟨t2, hexp, hfind⟩ := Exec.bind_eq_ok hfind
  have ht' : t' = t2 := by
    obtain ⟨chain, -, hfind⟩ := Exec.bind_eq_ok hfind
    split at hfind
    · cases hfind
      rfl
    · split at hfind
      · cases hfind
        rfl
      · obtain ⟨chain', -, hfind⟩ := Exec.bind_eq_ok hfind
        split at hfind
        · cases hfind
          rfl
        · cases hfind
          rfl
  rw [ht']
  exact ⟨t1, hre, hexp⟩

theorem findBucketByKey_inv {t t' : HashTable V} (h : Inv t) {key : List Byte} {len : ℕ}
    {found : Found V} (hfind : t.findBucketByKey hashFunc key len = .ok (found, t')) :
    Ready t' ∧ t'.entries.Perm t.entries ∧ (t.Placed hashFunc → t'.Placed hashFunc) := by
  obtain ⟨t1, hre, hexp⟩ := findBucketByKey_state hashFunc hfind
  obtain ⟨t1', hre', h1, hperm1, hplaced1⟩ := reHashStep_spec hashFunc h
  cases hre.symm.trans hre'
  obtain ⟨h2, hentries2, hplaced2⟩ := expendWhen_spec hashFunc h1 (needExpend_idle h1)
    (fun hnew => by rw [hnew]; rfl) hexp
  exact ⟨h2, hentries2 ▸ hperm1, fun hp => hplaced2 (hplaced1 hp)⟩

theorem insertToBucket_inv {t t' : HashTable V} (h : Ready t) {key : List Byte} {value : V} {i : ℕ}
    {entry : HashEntry V} (hins : t.insertToBucket key value i = .ok (entry, t')) :
    entry = ⟨cString key, value⟩ ∧ Ready t' ∧ t'.entries.Perm (entry :: t.entries) := by
  cases h with
  | still buckets size used hlen hpos hused =>
    obtain ⟨chain, hchain, hins⟩ := Exec.bind_eq_ok hins
    cases hins
    have hcons := flatten_set_cons (bucketAt_ok hchain) (⟨cString key, value⟩ : HashEntry V)
    have hlen' := hcons.length_eq
    simp only [List.length_cons] at hlen'
    refine ⟨rfl, .still (buckets.set i (⟨cString key, value⟩ :: chain)) size (used + 1)
      (by simpa using hlen) hpos (by omega), ?_⟩
    simpa [entries, setBucket] using hcons
  | moving old new size0 size1 used0 used1 idx hold hnew hpos hlt hused0 hused1 hidx hmoved =>
    obtain ⟨chain, hchain, hins⟩ := Exec.bind_eq_ok hins
    cases hins
    have hcons := flatten_set_cons (bucketAt_ok hchain) (⟨cString key, value⟩ : HashEntry V)
    have hlen' := hcons.length_eq
    simp only [List.length_cons] at hlen'
    refine ⟨rfl, .moving old (new.set i (⟨cString key, value⟩ :: chain)) size0 size1 used0 (used1 + 1)
      idx hold (by simpa using hnew) hpos hlt hused0 (by omega) hidx hmoved, ?_⟩
    have hmid := (hcons.append_left old.flatten).trans List.perm_middle
    simpa [entries, setBucket] using hmid

theorem perm_eraseP {chain : List (HashEntry V)} {key : List Byte}
    (h : (chain.any fun entry => entry.key = key) = true) :
    ∃ entry, entry.key = key ∧
      chain.Perm (entry :: chain.eraseP fun entry => entry.key = key) := by
  simp only [List.any_eq_true, decide_eq_true_eq] at h
  obtain ⟨x, hx, hkey⟩ := h
  obtain ⟨entry, front, back, -, hentry, hchain, herase⟩ :=
    List.exists_of_eraseP (p := fun entry : HashEntry V => decide (entry.key = key)) hx (by simpa using hkey)
  refine ⟨entry, by simpa using hentry, ?_⟩
  rw [herase]
  conv_lhs => rw [hchain]
  exact List.perm_middle

theorem erase_old {t : HashTable V} (h : Ready t) {i : ℕ} {chain : List (HashEntry V)}
    (hchain : bucketAt t.mTable i = .ok chain) {key : List Byte}
    (hany : (chain.any fun entry => entry.key = key) = true) :
    Ready { t with
      mUsed0 := t.mUsed0 - 1
      mTable := setBucket t.mTable i (chain.eraseP fun entry => entry.key = key) } ∧
    ∃ entry, entry.key = key ∧ t.entries.Perm (entry :: entries { t with
      mUsed0 := t.mUsed0 - 1
      mTable := setBucket t.mTable i (chain.eraseP fun entry => entry.key = key) }) := by
  obtain ⟨entry, hkey, hperm⟩ := perm_eraseP hany
  cases h with
  | still buckets size used hlen hpos hused =>
    have herase := flatten_set_erase (bucketAt_ok hchain) hperm
    have hlen' := herase.length_eq
    simp only [List.length_cons] at hlen'
    refine ⟨.still (buckets.set i _) size (used - 1) (by simpa using hlen) hpos (by omega),
      entry, hkey, ?_⟩
    simpa [entries, setBucket] using herase
  | moving old new size0 size1 used0 used1 idx hold hnew hpos hlt hused0 hused1 hidx hmoved =>
    have hget := bucketAt_ok hchain
    have herase := flatten_set_erase hget hperm
    have hlen' := herase.length_eq
    simp only [List.length_cons] at hlen'
    have hmoved' : ∀ j, j < idx →
        (old.set i (chain.eraseP fun entry => entry.key = key))[j]? = some [] := by
      intro j hj
      rw [List.getElem?_set]
      split
      · next hij =>
        -- An entry was found in the chain, so it has not moved.
        rw [hij, hmoved j hj] at hget
        cases hget
        simp at hany
      · exact hmoved j hj
    refine ⟨.moving (old.set i _) new size0 size1 (used0 - 1) used1 idx (by simpa using hold) hnew hpos
      hlt (by omega) hused1 hidx hmoved', entry, hkey, ?_⟩
    simpa [entries, setBucket] using herase.append_right new.flatten

theorem erase_new {t : HashTable V} (h : Ready t) {i : ℕ} {chain : List (HashEntry V)}
    (hchain : bucketAt t.mRehashTable i = .ok chain) {key : List Byte}
    (hany : (chain.any fun entry => entry.key = key) = true) :
    Ready { t with
      mUsed1 := t.mUsed1 - 1
      mRehashTable := setBucket t.mRehashTable i (chain.eraseP fun entry => entry.key = key) } ∧
    ∃ entry, entry.key = key ∧ t.entries.Perm (entry :: entries { t with
      mUsed1 := t.mUsed1 - 1
      mRehashTable := setBucket t.mRehashTable i (chain.eraseP fun entry => entry.key = key) }) := by
  obtain ⟨entry, hkey, hperm⟩ := perm_eraseP hany
  cases h with
  | still buckets size used hlen hpos hused => cases hchain
  | moving old new size0 size1 used0 used1 idx hold hnew hpos hlt hused0 hused1 hidx hmoved =>
    have herase := flatten_set_erase (bucketAt_ok hchain) hperm
    have hlen' := herase.length_eq
    simp only [List.length_cons] at hlen'
    refine ⟨.moving old (new.set i _) size0 size1 used0 (used1 - 1) idx hold (by simpa using hnew) hpos
      hlt hused0 (by omega) hidx hmoved, entry, hkey, ?_⟩
    have hmid := (herase.append_left old.flatten).trans List.perm_middle
    simpa [entries, setBucket] using hmid

theorem delete_inv {t t' : HashTable V} (h : Inv t) {key : List Byte} {len : ℕ}
    (hdel : t.delete hashFunc key len = .ok t') : Ready t' := by
  obtain ⟨t1, hre, h1, -, -⟩ := reHashStep_spec hashFunc h
  unfold delete at hdel
  simp only [hre, Exec.ok_bind] at hdel
  obtain ⟨t2, hexp, hdel⟩ := Exec.bind_eq_ok hdel
  obtain ⟨h2, -⟩ := expendWhen_spec hashFunc h1 needReduce_idle (fun hnew => by rw [hnew]; rfl) hexp
  obtain ⟨chain, hchain, hdel⟩ := Exec.bind_eq_ok hdel
  split at hdel
  · next hany =>
    cases hdel
    exact (erase_old h2 hchain hany).1
  · split at hdel
    · cases hdel
      exact h2
    · obtain ⟨chain', hchain', hdel⟩ := Exec.bind_eq_ok hdel
      split at hdel
      · next hany =>
        cases hdel
        exact (erase_new h2 hchain' hany).1
      · cases hdel
        exact h2

theorem step_inv {t t' : HashTable V} (h : Inv t) {op : HashOp V} {o : Option (HashEntry V)}
    (hstep : t.step hashFunc op = .ok (o, t')) : Ready t' := by
  cases op with
  | insert key len value =>
    obtain ⟨⟨found, t1⟩, hfind, hstep⟩ := Exec.bind_eq_ok hstep
    have h1 := (findBucketByKey_inv hashFunc h hfind).1
    cases found with
    | entry e =>
      cases hstep
      exact h1
    | bucket i =>
      obtain ⟨⟨e, t2⟩, hins, hstep⟩ := Exec.bind_eq_ok hstep
      cases hstep
      exact (insertToBucket_inv h1 hins).2.1
  | find key len =>
    obtain ⟨⟨found, t1⟩, hfind, hstep⟩ := Exec.bind_eq_ok hstep
    have h1 := (findBucketByKey_inv hashFunc h hfind).1
    cases found <;> cases hstep <;> exact h1
  | delete key len =>
    obtain ⟨t1, hdel, hstep⟩ := Exec.bind_eq_ok hstep
    cases hstep
    exact delete_inv hashFunc h hdel

def Reachable (t : HashTable V) : Prop :=
  ∃ ops outs, runOps (step hashFunc) {} ops = .ok (outs, t)

theorem run_inv (ops : List (HashOp V)) {t t' : HashTable V} {outs : List (Option (HashEntry V))}
    (h : Inv t) (hrun : runOps (step hashFunc) t ops = .ok (outs, t')) : Inv t' := by
  have keep : ∀ (t : HashTable V) op o t', Inv t → True → step hashFunc t op = .ok (o, t') → Inv t' :=
    fun t op o t' h _ hstep => .inr (step_inv hashFunc h hstep)
  exact run_keeps keep h (stepsOk_true t ops) hrun

theorem Reachable.inv {t : HashTable V} (h : Reachable hashFunc t) : Inv t := by
  obtain ⟨ops, outs, hrun⟩ := h
  exact run_inv hashFunc ops (.inl rfl) hrun

end Hashed

end HashTable

end DeftRpc.DataStruct
