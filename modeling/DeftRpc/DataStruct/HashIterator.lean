import DeftRpc.DataStruct.HashInvariant

/-!
# HashIterator (hash.cpp:166-257)

The current element is the rest of its chain, which is empty for a null pointer.
Reading behind an array is a fault.
-/

namespace DeftRpc.DataStruct
open DeftRpc.Foundation

/-- `m_table_` of the iterator. -/
inductive Walking where
  | null
  | table
  | rehashTable
  deriving DecidableEq

structure HashIterator (V : Type) where
  mTable : Walking := .null
  mCurBucket : ℕ := 0
  mCurElement : List (HashEntry V) := []

namespace HashTable
variable {V : Type}

def chainAt (t : HashTable V) (walking : Walking) (i : ℕ) : Exec (List (HashEntry V)) :=
  match walking with
  | .null => .error .badPointer
  | .table => bucketAt t.mTable i
  | .rehashTable => bucketAt t.mRehashTable i

def isValid (it : HashIterator V) : Bool := !it.mCurElement.isEmpty

/- `while (m_cur_element_ == nullptr)`. Every turn goes one bucket on, so as many turns
as there are buckets are enough. -/
def nextLoop (t : HashTable V) : ℕ → HashIterator V → Exec (HashIterator V)
  | 0, _ => .error .diverge
  | turns + 1, it =>
    if isValid it then .ok it
    else
      let maxSize := if it.mTable = .table then 2 ^ t.mSize0 else 2 ^ t.mSize1
      if it.mCurBucket < maxSize - 1 then do
        let chain ← t.chainAt it.mTable (it.mCurBucket + 1)
        t.nextLoop turns { it with mCurBucket := it.mCurBucket + 1, mCurElement := chain }
      else if it.mTable = .table ∧ t.isReHashing then do
        let chain ← t.chainAt .rehashTable 0
        t.nextLoop turns ⟨.rehashTable, 0, chain⟩
      else .ok it

def next (t : HashTable V) (it : HashIterator V) : Exec (HashIterator V) :=
  if !isValid it then .ok it
  else t.nextLoop (2 ^ t.mSize0 + 2 ^ t.mSize1 + 1) { it with mCurElement := it.mCurElement.tail }

/-- The loop of MReset reads `m_hash_table_->m_table_` in both of its phases. -/
def resetLoop (t : HashTable V) : ℕ → ℕ → HashIterator V → Exec (HashIterator V)
  | 0, _, _ => .error .diverge
  | turns + 1, maxSize, it =>
    if isValid it then .ok it
    else if it.mCurBucket < maxSize - 1 then do
      let chain ← t.chainAt .table (it.mCurBucket + 1)
      t.resetLoop turns maxSize { it with mCurBucket := it.mCurBucket + 1, mCurElement := chain }
    else if t.isReHashing then do
      let chain ← t.chainAt .table 0
      t.resetLoop turns (2 ^ t.mSize1) ⟨.rehashTable, 0, chain⟩
    else .ok it

def reset (t : HashTable V) : Exec (HashIterator V) :=
  if 0 < t.size then do
    let chain ← t.chainAt .table 0
    t.resetLoop (2 ^ t.mSize0 + 2 ^ t.mSize1 + 1) (2 ^ t.mSize0) ⟨.table, 0, chain⟩
  else .ok {}

def getIterator (t : HashTable V) : Exec (HashIterator V) :=
  if !t.isEmpty then t.reset else .ok {}

/- The elements up to the end. A table holds `size` of them. -/
def walk (t : HashTable V) : ℕ → HashIterator V → Exec (List (HashEntry V))
  | 0, it => if isValid it then .error .diverge else .ok []
  | steps + 1, it =>
    match it.mCurElement with
    | [] => .ok []
    | entry :: _ => do
      let it ← t.next it
      let later ← t.walk steps it
      pure (entry :: later)

/-- The elements from GetIterator, or from Reset, to the end. -/
def traverse (t : HashTable V) (start : Exec (HashIterator V)) : Exec (List (HashEntry V)) := do
  let it ← start
  t.walk t.size it

/-- Every entry once and no other, and no read behind an array. -/
def VisitsAll (t : HashTable V) (start : Exec (HashIterator V)) : Prop :=
  ∃ visited, t.traverse start = .ok visited ∧ visited.Perm t.entries

/-- Something is stored, and it has all been moved or deleted from the first array while
the rehash goes on. -/
def OldEmptied (t : HashTable V) : Prop := t.isReHashing = true ∧ t.mUsed0 = 0 ∧ 0 < t.mUsed1

instance (t : HashTable V) : Decidable t.OldEmptied := instDecidableAnd

/-! ### What an iterator still has to visit -/

def behind (t : HashTable V) (it : HashIterator V) : List (HashEntry V) :=
  match it.mTable with
  | .null => []
  | .table => ((t.mTable.getD []).drop (it.mCurBucket + 1)).flatten ++ (t.mRehashTable.getD []).flatten
  | .rehashTable => ((t.mRehashTable.getD []).drop (it.mCurBucket + 1)).flatten

def remaining (t : HashTable V) (it : HashIterator V) : List (HashEntry V) :=
  it.mCurElement ++ t.behind it

theorem drop_eq {buckets : List (List (HashEntry V))} {i : ℕ} {chain : List (HashEntry V)}
    (h : buckets[i]? = some chain) : (buckets.drop i).flatten = chain ++ (buckets.drop (i + 1)).flatten := by
  obtain ⟨hlt, hget⟩ := List.getElem?_eq_some_iff.mp h
  rw [List.drop_eq_getElem_cons hlt, hget, List.flatten_cons]

theorem isValid_iff (it : HashIterator V) : isValid it = true ↔ it.mCurElement ≠ [] := by
  simp [isValid]

/-- The loop skips empty chains only, in the second array. -/
theorem nextLoop_rehashTable {t : HashTable V} {new : List (List (HashEntry V))}
    (hnew : t.mRehashTable = some new) (hlen : new.length = 2 ^ t.mSize1) (turns i : ℕ)
    (chain : List (HashEntry V)) (hturns : 2 ^ t.mSize1 - i ≤ turns) (hi : i < 2 ^ t.mSize1) :
    ∃ it, t.nextLoop turns ⟨.rehashTable, i, chain⟩ = .ok it ∧ (it.mTable = .rehashTable) ∧
      it.mCurBucket < 2 ^ t.mSize1 ∧ t.remaining it = t.remaining ⟨.rehashTable, i, chain⟩ ∧
      (it.mCurElement = [] → t.behind it = []) := by
  induction turns generalizing i chain with
  | zero => omega
  | succ turns ih =>
    rw [nextLoop]
    by_cases hvalid : isValid (⟨.rehashTable, i, chain⟩ : HashIterator V) = true
    · rw [if_pos hvalid]
      exact ⟨_, rfl, rfl, hi, rfl, fun hnil => absurd hnil ((isValid_iff _).mp hvalid)⟩
    · have hnil : chain = [] := by simpa [isValid] using hvalid
      subst hnil
      simp only [if_neg hvalid, reduceCtorEq, if_false, false_and]
      split
      · next hmore =>
        obtain ⟨chain', hchain, hget⟩ := bucketAt_some (show i + 1 < new.length by omega)
        obtain ⟨it, hloop, hwalk, hbucket, hrem, hend⟩ := ih (i + 1) chain' (by omega) (by omega)
        simp only [chainAt, hnew, hchain, Exec.ok_bind]
        refine ⟨it, hloop, hwalk, hbucket, hrem.trans ?_, hend⟩
        simp [remaining, behind, hnew, drop_eq hget]
      · next hlast =>
        refine ⟨_, rfl, rfl, hi, rfl, fun _ => ?_⟩
        simp only [behind, hnew, Option.getD_some]
        rw [List.drop_of_length_le (by omega), List.flatten_nil]

/-- The iterator is inside the array it walks, and at a null pointer at the end. -/
structure Inside (t : HashTable V) (it : HashIterator V) : Prop where
  null : it.mTable = .null → it.mCurElement = []
  table : it.mTable = .table → it.mCurBucket < 2 ^ t.mSize0
  rehashTable : it.mTable = .rehashTable → t.isReHashing = true ∧ it.mCurBucket < 2 ^ t.mSize1
  atEnd : it.mCurElement = [] → t.behind it = []

theorem Ready.arrays {t : HashTable V} (h : Ready t) :
    ∃ old, t.mTable = some old ∧ old.length = 2 ^ t.mSize0 ∧ old.flatten.length = t.mUsed0 ∧
      (t.isReHashing = false ∧ t.mRehashTable = none ∧ t.mUsed1 = 0 ∨
        t.isReHashing = true ∧ t.mSize0 < t.mSize1 ∧ ∃ new, t.mRehashTable = some new ∧
          new.length = 2 ^ t.mSize1 ∧ new.flatten.length = t.mUsed1) := by
  cases h with
  | still buckets size used hlen hpos hused =>
    exact ⟨buckets, rfl, hlen, hused, .inl ⟨rfl, rfl, rfl⟩⟩
  | moving old new size0 size1 used0 used1 idx hold hnew hpos hlt hused0 hused1 hidx hmoved =>
    exact ⟨old, rfl, hold, hused0, .inr ⟨rfl, hlt, new, rfl, hnew, hused1⟩⟩

/-- In the first array the loop goes over to the second one at the end. -/
theorem nextLoop_table {t : HashTable V} (h : Ready t) (turns i : ℕ) (chain : List (HashEntry V))
    (hturns : 2 ^ t.mSize0 - i + 2 ^ t.mSize1 ≤ turns) (hi : i < 2 ^ t.mSize0) :
    ∃ it, t.nextLoop turns ⟨.table, i, chain⟩ = .ok it ∧ t.Inside it ∧
      t.remaining it = t.remaining ⟨.table, i, chain⟩ := by
  obtain ⟨old, hold, hlen, -, hnew⟩ := h.arrays
  induction turns generalizing i chain with
  | zero =>
    have hpos := Nat.two_pow_pos t.mSize1
    omega
  | succ turns ih =>
    rw [nextLoop]
    by_cases hvalid : isValid (⟨.table, i, chain⟩ : HashIterator V) = true
    · rw [if_pos hvalid]
      exact ⟨_, rfl, ⟨by simp, fun _ => hi, by simp, fun hnil => absurd hnil ((isValid_iff _).mp hvalid)⟩, rfl⟩
    · have hnil : chain = [] := by simpa [isValid] using hvalid
      subst hnil
      simp only [if_neg hvalid, if_true, true_and]
      split
      · next hmore =>
        obtain ⟨chain', hchain, hget⟩ := bucketAt_some (show i + 1 < old.length by omega)
        obtain ⟨it, hloop, hinside, hrem⟩ := ih (i + 1) chain' (by omega) (by omega)
        simp only [chainAt, hold, hchain, Exec.ok_bind]
        refine ⟨it, hloop, hinside, hrem.trans ?_⟩
        simp [remaining, behind, hold, drop_eq hget]
      · next hlast =>
        have hdone : (old.drop (i + 1)).flatten = [] := by
          rw [List.drop_of_length_le (by omega), List.flatten_nil]
        rcases hnew with ⟨hidle, hnone, -⟩ | ⟨hre, -, new, hsome, hlen', -⟩
        · rw [hidle, if_neg Bool.false_ne_true]
          refine ⟨_, rfl, ⟨by simp, fun _ => hi, by simp, fun _ => ?_⟩, rfl⟩
          simp [behind, hold, hnone, hdone]
        · have hpos := Nat.two_pow_pos t.mSize1
          obtain ⟨chain', hchain, hget⟩ := bucketAt_some (show 0 < new.length by omega)
          obtain ⟨it, hloop, hwalk, hbucket, hrem, hend⟩ := nextLoop_rehashTable hsome hlen' turns 0 chain'
            (by omega) hpos
          rw [hre, if_pos rfl]
          simp only [chainAt, hsome, hchain, Exec.ok_bind]
          refine ⟨it, hloop, ⟨by simp [hwalk], by simp [hwalk], fun _ => ⟨hre, hbucket⟩, hend⟩, hrem.trans ?_⟩
          have hfirst := drop_eq hget
          simp only [List.drop_zero, Nat.zero_add] at hfirst
          simp [remaining, behind, hold, hsome, hdone, hfirst]

theorem next_spec {t : HashTable V} (h : Ready t) {it : HashIterator V} (hinside : t.Inside it)
    {entry : HashEntry V} {chain : List (HashEntry V)} (hcur : it.mCurElement = entry :: chain) :
    ∃ it', t.next it = .ok it' ∧ t.Inside it' ∧ t.remaining it = entry :: t.remaining it' := by
  obtain ⟨mTable, mCurBucket, mCurElement⟩ := it
  simp only at hcur
  subst hcur
  have hvalid : isValid (⟨mTable, mCurBucket, entry :: chain⟩ : HashIterator V) = true := rfl
  have hpos0 := Nat.two_pow_pos t.mSize0
  have hpos1 := Nat.two_pow_pos t.mSize1
  unfold next
  rw [hvalid, Bool.not_true, if_neg Bool.false_ne_true]
  simp only [List.tail_cons]
  cases mTable with
  | null => cases hinside.null rfl
  | table =>
    obtain ⟨it', hloop, hinside', hrem⟩ := nextLoop_table h (2 ^ t.mSize0 + 2 ^ t.mSize1 + 1)
      mCurBucket chain (by omega) (hinside.table rfl)
    refine ⟨it', hloop, hinside', ?_⟩
    rw [hrem]
    simp [remaining, behind]
  | rehashTable =>
    obtain ⟨hre, hbucket⟩ := hinside.rehashTable rfl
    obtain ⟨old, -, -, -, hnew⟩ := h.arrays
    rcases hnew with ⟨hidle, -⟩ | ⟨-, -, new, hsome, hlen, -⟩
    · rw [hre] at hidle
      cases hidle
    · obtain ⟨it', hloop, hwalk, hbucket', hrem, hend⟩ := nextLoop_rehashTable hsome hlen
        (2 ^ t.mSize0 + 2 ^ t.mSize1 + 1) mCurBucket chain (by omega) hbucket
      refine ⟨it', hloop, ⟨by simp [hwalk], by simp [hwalk], fun _ => ⟨hre, hbucket'⟩, hend⟩, ?_⟩
      rw [hrem]
      simp [remaining, behind]

theorem walk_spec {t : HashTable V} (h : Ready t) (steps : ℕ) {it : HashIterator V} (hinside : t.Inside it)
    (hsteps : (t.remaining it).length ≤ steps) : t.walk steps it = .ok (t.remaining it) := by
  induction steps generalizing it with
  | zero =>
    have hnil : t.remaining it = [] := List.eq_nil_of_length_eq_zero (by omega)
    have hcur : it.mCurElement = [] := (List.append_eq_nil_iff.mp hnil).1
    rw [hnil]
    simp [walk, isValid, hcur]
  | succ steps ih =>
    cases hcur : it.mCurElement with
    | nil =>
      have hend := hinside.atEnd hcur
      simp [walk, remaining, hcur, hend]
    | cons entry chain =>
      obtain ⟨it', hnext, hinside', hrem⟩ := next_spec h hinside hcur
      rw [hrem, List.length_cons] at hsteps
      have hlater := ih hinside' (by omega)
      simp only [walk, hcur, hnext, Exec.ok_bind, hlater, hrem]
      rfl

/-! ### MReset -/

theorem resetLoop_finds {t : HashTable V} {old : List (List (HashEntry V))} (hold : t.mTable = some old)
    (hlen : old.length = 2 ^ t.mSize0) (turns i : ℕ) (chain : List (HashEntry V)) (hi : i < 2 ^ t.mSize0)
    (hturns : 2 ^ t.mSize0 - i ≤ turns) (hmore : chain ++ (old.drop (i + 1)).flatten ≠ []) :
    ∃ it, t.resetLoop turns (2 ^ t.mSize0) ⟨.table, i, chain⟩ = .ok it ∧ t.Inside it ∧
      t.remaining it = t.remaining ⟨.table, i, chain⟩ := by
  induction turns generalizing i chain with
  | zero => omega
  | succ turns ih =>
    rw [resetLoop]
    cases chain with
    | cons entry chain => exact ⟨_, rfl, ⟨by simp, fun _ => hi, by simp, by simp⟩, rfl⟩
    | nil =>
      rw [List.nil_append] at hmore
      have hbound : i + 1 < old.length := by
        by_contra hend
        exact hmore (by rw [List.drop_of_length_le (by omega), List.flatten_nil])
      obtain ⟨chain', hchain, hget⟩ := bucketAt_some hbound
      rw [drop_eq hget] at hmore
      obtain ⟨it, hloop, hinside, hrem⟩ := ih (i + 1) chain' (by omega) (by omega) hmore
      have hcond : i < 2 ^ t.mSize0 - 1 := by omega
      simp only [isValid, List.isEmpty_nil, Bool.not_true, Bool.false_eq_true, if_false, if_pos hcond,
        chainAt, hold, hchain, Exec.ok_bind]
      refine ⟨it, hloop, hinside, hrem.trans ?_⟩
      simp [remaining, behind, hold, drop_eq hget]

theorem get_nil {old : List (List (HashEntry V))} (hnil : old.flatten = []) {i : ℕ} (hi : i < old.length) :
    old[i]? = some [] := by
  rw [List.getElem?_eq_getElem hi, List.flatten_eq_nil_iff.mp hnil _ (List.getElem_mem hi)]

/-- With the bound of the second array the loop runs out of the first one. -/
theorem resetLoop_leaves {t : HashTable V} {old : List (List (HashEntry V))} (hold : t.mTable = some old)
    (hlen : old.length = 2 ^ t.mSize0) (hnil : old.flatten = []) {maxSize : ℕ}
    (hmax : 2 ^ t.mSize0 < maxSize) (walking : Walking) (turns i : ℕ) (hi : i < 2 ^ t.mSize0)
    (hturns : 2 ^ t.mSize0 - i ≤ turns) :
    t.resetLoop turns maxSize ⟨walking, i, []⟩ = .error .outOfRange := by
  induction turns generalizing i with
  | zero => omega
  | succ turns ih =>
    have hcond : i < maxSize - 1 := by omega
    rw [resetLoop]
    simp only [isValid, List.isEmpty_nil, Bool.not_true, Bool.false_eq_true, if_false, if_pos hcond,
      chainAt, hold, bucketAt]
    by_cases hend : i + 1 < old.length
    · rw [get_nil hnil hend]
      exact ih (i + 1) (by omega) (by omega)
    · rw [List.getElem?_eq_none (by omega)]
      rfl

theorem resetLoop_empty {t : HashTable V} {old : List (List (HashEntry V))} (hold : t.mTable = some old)
    (hlen : old.length = 2 ^ t.mSize0) (hnil : old.flatten = []) (hre : t.isReHashing = true)
    (hsize : 2 ^ t.mSize0 < 2 ^ t.mSize1) (turns i : ℕ) (hi : i < 2 ^ t.mSize0)
    (hturns : 2 ^ t.mSize0 - i + 2 ^ t.mSize0 ≤ turns) :
    t.resetLoop turns (2 ^ t.mSize0) ⟨.table, i, []⟩ = .error .outOfRange := by
  induction turns generalizing i with
  | zero => omega
  | succ turns ih =>
    rw [resetLoop]
    simp only [isValid, List.isEmpty_nil, Bool.not_true, Bool.false_eq_true, if_false, hre, if_true,
      chainAt, hold, bucketAt]
    split
    · next hmore =>
      rw [get_nil hnil (show i + 1 < old.length by omega)]
      exact ih (i + 1) (by omega) (by omega)
    · next hlast =>
      rw [get_nil hnil (show 0 < old.length by omega)]
      exact resetLoop_leaves hold hlen hnil hsize .rehashTable turns 0 (by omega) (by omega)

theorem getIterator_eq_reset (t : HashTable V) : t.getIterator = t.reset := by
  unfold getIterator reset isEmpty size
  by_cases h : t.mUsed0 + t.mUsed1 = 0 <;> simp [h]
  intro h0 h1
  omega

theorem traverse_empty {t : HashTable V} (hsize : t.size = 0) : t.traverse t.reset = .ok [] := by
  simp [traverse, reset, hsize, walk, isValid]

/-- From a first array that is not empty the entries are visited in the order of the buckets. -/
theorem traverse_ready {t : HashTable V} (h : Ready t) (hused : 0 < t.mUsed0) :
    t.traverse t.reset = .ok t.entries := by
  obtain ⟨old, hold, hlen, hflat, -⟩ := h.arrays
  have hpos := Nat.two_pow_pos t.mSize0
  have hpos1 := Nat.two_pow_pos t.mSize1
  obtain ⟨chain, hchain, hget⟩ := bucketAt_some (show 0 < old.length by omega)
  have hfirst := drop_eq hget
  rw [List.drop_zero] at hfirst
  have hne : chain ++ (old.drop (0 + 1)).flatten ≠ [] := by
    rw [← hfirst]
    intro hnil
    simp only [hnil, List.length_nil] at hflat
    omega
  obtain ⟨it, hloop, hinside, hrem⟩ := resetLoop_finds hold hlen (2 ^ t.mSize0 + 2 ^ t.mSize1 + 1) 0
    chain hpos (by omega) hne
  have hall : t.remaining it = t.entries := by
    rw [hrem]
    simp [remaining, behind, entries, hold, hfirst]
  have hsize : 0 < t.size := Nat.add_pos_left hused _
  have hwalk := walk_spec h t.size hinside (by rw [hall, entries_length (.inr h)])
  unfold traverse reset
  simp only [if_pos hsize, chainAt, hold, hchain, Exec.ok_bind, hloop, hwalk, hall]

theorem traverse_emptied {t : HashTable V} (h : Ready t) (hemptied : t.OldEmptied) :
    t.traverse t.reset = .error .outOfRange := by
  obtain ⟨hre, hused0, hused1⟩ := hemptied
  obtain ⟨old, hold, hlen, hflat, hnew⟩ := h.arrays
  rcases hnew with ⟨hidle, -⟩ | ⟨-, hlt, -⟩
  · rw [hre] at hidle
    cases hidle
  · have hnil : old.flatten = [] := List.eq_nil_of_length_eq_zero (by omega)
    have hpos := Nat.two_pow_pos t.mSize0
    have hpow : 2 ^ t.mSize0 < 2 ^ t.mSize1 := Nat.pow_lt_pow_right (by omega) hlt
    have hloop := resetLoop_empty hold hlen hnil hre hpow (2 ^ t.mSize0 + 2 ^ t.mSize1 + 1) 0 hpos
      (by omega)
    have hsize : 0 < t.size := Nat.add_pos_right _ hused1
    unfold traverse reset
    simp only [if_pos hsize, chainAt, hold, bucketAt, get_nil hnil (show 0 < old.length by omega),
      Exec.ok_bind, hloop]
    rfl

theorem visitsAll_reset {t : HashTable V} (h : Inv t) : t.VisitsAll t.reset ↔ ¬ t.OldEmptied := by
  rcases h with rfl | h
  · have hfresh : ({} : HashTable V).traverse ({} : HashTable V).reset = .ok [] := traverse_empty rfl
    exact ⟨fun _ hemptied => absurd hemptied.1 Bool.false_ne_true,
      fun _ => ⟨[], hfresh, List.Perm.refl _⟩⟩
  · constructor
    · rintro ⟨visited, hok, -⟩ hemptied
      rw [traverse_emptied h hemptied] at hok
      cases hok
    · intro hnot
      rcases Nat.eq_zero_or_pos t.mUsed0 with hused | hused
      · have hsize : t.size = 0 := by
          by_contra hne
          have hlater : 0 < t.mUsed1 := by
            have hsum : t.size = t.mUsed0 + t.mUsed1 := rfl
            omega
          obtain ⟨old, -, -, -, hnew⟩ := h.arrays
          rcases hnew with ⟨-, -, hused1⟩ | ⟨hre, -⟩
          · omega
          · exact hnot ⟨hre, hused, hlater⟩
        have hnil : t.entries = [] := List.eq_nil_of_length_eq_zero ((entries_length (.inr h)).trans hsize)
        exact ⟨[], traverse_empty hsize, by rw [hnil]⟩
      · exact ⟨t.entries, traverse_ready h hused, List.Perm.refl _⟩

/-- In every reachable state both ways to start a traversal visit every entry once, unless the
first array was emptied before the rehash was over. -/
theorem visitsAll_iff (hashFunc : List Byte → ℕ) (t : HashTable V) (h : Reachable hashFunc t) :
    (t.VisitsAll t.getIterator ↔ ¬ t.OldEmptied) ∧ (t.VisitsAll t.reset ↔ ¬ t.OldEmptied) := by
  have hreset := visitsAll_reset h.inv
  exact ⟨by rw [getIterator_eq_reset]; exact hreset, hreset⟩

def firstByte (key : List Byte) : ℕ := (key.headD 0).val

/- An entry in each of the two arrays. -/
def twoArrays : HashTable ℕ :=
  ⟨some ((List.replicate 16 []).set 5 [⟨[5], 50⟩]), some ((List.replicate 32 []).set 6 [⟨[6], 60⟩]),
    4, 5, 1, 1, some 1⟩

theorem visitsAll_twoArrays : (twoArrays.VisitsAll twoArrays.getIterator ↔ ¬ twoArrays.OldEmptied) ∧
    (twoArrays.VisitsAll twoArrays.reset ↔ ¬ twoArrays.OldEmptied) :=
  visitsAll_iff firstByte twoArrays
    ⟨[.insert [5] 1 50, .delete [9] 1, .insert [6] 1 60], [some ⟨[5], 50⟩, none, some ⟨[6], 60⟩],
      by decide +kernel⟩

/- The same table after its first array has lost the entry. -/
def firstEmptied : HashTable ℕ :=
  ⟨some (List.replicate 16 []), some ((List.replicate 32 []).set 6 [⟨[6], 60⟩]), 4, 5, 0, 1, some 2⟩

/-- One entry is stored, and both ways read behind the first array. -/
theorem reset_reads_behind : Reachable firstByte firstEmptied ∧ firstEmptied.entries = [⟨[6], 60⟩] ∧
    firstEmptied.traverse firstEmptied.getIterator = .error .outOfRange ∧
    firstEmptied.traverse firstEmptied.reset = .error .outOfRange := by
  refine ⟨⟨[.insert [5] 1 50, .delete [9] 1, .insert [6] 1 60, .delete [5] 1],
    [some ⟨[5], 50⟩, none, some ⟨[6], 60⟩, none], ?_⟩, ?_, ?_, ?_⟩
  · decide +kernel
  · decide +kernel
  · decide +kernel
  · decide +kernel

end HashTable

end DeftRpc.DataStruct
