import DeftRpc.DataStruct.HashIterator
import DeftRpc.DataStruct.HashSimulation

/-!
# Next and Prev of a HashIterator (hash.cpp:166-224)

Over the nodes: a step forward follows the next link, then the buckets up to the end of
the second array. A step back follows the previous link, then the buckets down to the
first one of the first array, and there the links to the tail of the chain.
-/

namespace DeftRpc.DataStruct
open DeftRpc.Foundation

variable {V : Type}

structure NodeCursor where
  mTable : Walking := .null
  mCurBucket : ℕ := 0
  mCurElement : Option ℕ := none
  deriving DecidableEq

def NodeCursor.isValid (it : NodeCursor) : Bool := it.mCurElement.isSome

namespace NodeTable

/-- `m_table_[i]` of the iterator. -/
def bucketOf (t : NodeTable V) (walking : Walking) (i : ℕ) : Exec (Option ℕ) :=
  match walking with
  | .null => .error .badPointer
  | .table => bucketPtr t.mTable i
  | .rehashTable => bucketPtr t.mRehashTable i

/- `while (m_cur_element_ == nullptr)` of Next. -/
def nextLoop (t : NodeTable V) : ℕ → NodeCursor → Exec NodeCursor
  | 0, _ => .error .diverge
  | turns + 1, it =>
    if it.isValid then .ok it
    else
      let maxSize := if it.mTable = .table then 2 ^ t.mSize0 else 2 ^ t.mSize1
      if it.mCurBucket < maxSize - 1 then do
        let p ← t.bucketOf it.mTable (it.mCurBucket + 1)
        t.nextLoop turns ⟨it.mTable, it.mCurBucket + 1, p⟩
      else if it.mTable = .table ∧ t.isReHashing then do
        let p ← t.bucketOf .rehashTable 0
        t.nextLoop turns ⟨.rehashTable, 0, p⟩
      else .ok it

def next (t : NodeTable V) (it : NodeCursor) : Exec NodeCursor :=
  match it.mCurElement with
  | none => .ok it
  | some entry => do
    let node ← t.nodes.deref entry
    t.nextLoop (2 ^ t.mSize0 + 2 ^ t.mSize1 + 1) { it with mCurElement := node.mNext }

/- `do .. while (m_cur_element_ == nullptr)` of Prev. -/
def prevLoop (t : NodeTable V) : ℕ → NodeCursor → Exec NodeCursor
  | 0, _ => .error .diverge
  | turns + 1, it =>
    if 0 < it.mCurBucket then do
      let p ← t.bucketOf it.mTable (it.mCurBucket - 1)
      if p.isSome then .ok ⟨it.mTable, it.mCurBucket - 1, p⟩
      else t.prevLoop turns ⟨it.mTable, it.mCurBucket - 1, none⟩
    else if it.mTable = .table then .ok it
    else do
      let p ← t.bucketOf .table (2 ^ t.mSize0 - 1)
      if p.isSome then .ok ⟨.table, 2 ^ t.mSize0 - 1, p⟩
      else t.prevLoop turns ⟨.table, 2 ^ t.mSize0 - 1, none⟩

/-- The loop to the tail of a chain. -/
def tailOf (nodes : HashNodes V) : ℕ → ℕ → Exec ℕ
  | 0, _ => .error .diverge
  | turns + 1, entry => do
    let node ← nodes.deref entry
    match node.mNext with
    | none => pure entry
    | some next => tailOf nodes turns next

def prev (t : NodeTable V) (it : NodeCursor) : Exec NodeCursor :=
  match it.mCurElement with
  | none => .ok it
  | some entry => do
    let node ← t.nodes.deref entry
    match node.mPrev with
    | some q => pure { it with mCurElement := some q }
    | none => do
      let it ← t.prevLoop (2 ^ t.mSize0 + 2 ^ t.mSize1 + 1) { it with mCurElement := none }
      match it.mCurElement with
      | none => pure it
      | some first => do
        let last ← tailOf t.nodes t.nodes.turns first
        pure { it with mCurElement := some last }

/-- The next links lead from the pointer to the node. -/
inductive OnChain (nodes : HashNodes V) : Option ℕ → ℕ → Prop
  | here (a : ℕ) : OnChain nodes (some a) a
  | later {a b : ℕ} : OnChain nodes (nodes.nextOf a) b → OnChain nodes (some a) b

/-- The iterator is at an entry of the bucket that its fields name. -/
def Positioned (t : NodeTable V) (it : NodeCursor) : Prop :=
  ∃ p a, t.bucketOf it.mTable it.mCurBucket = .ok p ∧ it.mCurElement = some a ∧ OnChain t.nodes p a

end NodeTable

/-! ### Both arrays as one row of chains -/

/-- The iterator at chain `k` of both arrays. -/
def cursorAt (t : HashTable (ℕ × V)) (k : ℕ) (p : Option ℕ) : NodeCursor :=
  if k < 2 ^ t.mSize0 then ⟨.table, k, p⟩ else ⟨.rehashTable, k - 2 ^ t.mSize0, p⟩

@[simp] theorem cursorAt_mCurElement (t : HashTable (ℕ × V)) (k : ℕ) (p : Option ℕ) :
    (cursorAt t k p).mCurElement = p := by
  unfold cursorAt
  split <;> rfl

theorem cursorAt_set (t : HashTable (ℕ × V)) (k : ℕ) (p q : Option ℕ) :
    { cursorAt t k p with mCurElement := q } = cursorAt t k q := by
  unfold cursorAt
  split <;> rfl

theorem bucketOf_cursorAt (nodes : HashNodes V) {t : HashTable (ℕ × V)} (hready : HashTable.Ready t) {k : ℕ}
    {chain : List (HashEntry (ℕ × V))} (hget : (chains t)[k]? = some chain) (p : Option ℕ) :
    (render nodes t).bucketOf (cursorAt t k p).mTable (cursorAt t k p).mCurBucket = .ok (headPtr chain) := by
  cases hready with
  | still buckets size used hlen hpos hused =>
    have hin : buckets[k]? = some chain := by simpa [chains] using hget
    obtain ⟨hlt, -⟩ := List.getElem?_eq_some_iff.mp hin
    rw [cursorAt, if_pos (show k < 2 ^ size by omega)]
    exact bucketPtr_map hin
  | moving old new size0 size1 used0 used1 idx hold hnew hpos hlt hused0 hused1 hidx hmoved =>
    simp only [chains, Option.getD_some] at hget
    by_cases hk : k < 2 ^ size0
    · rw [cursorAt, if_pos hk]
      rw [List.getElem?_append_left (by omega)] at hget
      exact bucketPtr_map hget
    · rw [cursorAt, if_neg hk]
      rw [List.getElem?_append_right (by omega), hold] at hget
      exact bucketPtr_map hget

theorem chains_length {t : HashTable (ℕ × V)} (hready : HashTable.Ready t) :
    t.isReHashing = false ∧ (chains t).length = 2 ^ t.mSize0 ∨
      t.isReHashing = true ∧ (chains t).length = 2 ^ t.mSize0 + 2 ^ t.mSize1 := by
  cases hready with
  | still buckets size used hlen => exact .inl ⟨rfl, by simpa [chains] using hlen⟩
  | moving old new size0 size1 used0 used1 idx hold hnew =>
    exact .inr ⟨rfl, by simp [chains, hold, hnew]⟩

theorem chains_length_le {t : HashTable (ℕ × V)} (hready : HashTable.Ready t) :
    (chains t).length ≤ 2 ^ t.mSize0 + 2 ^ t.mSize1 := by
  rcases chains_length hready with ⟨-, hlen⟩ | ⟨-, hlen⟩
  · exact hlen.le.trans (Nat.le_add_right _ _)
  · exact hlen.le

theorem nextLoop_turn {nodes : HashNodes V} {t : HashTable (ℕ × V)} (hready : HashTable.Ready t) (turns k : ℕ)
    (hk : k < (chains t).length) :
    (render nodes t).nextLoop (turns + 1) (cursorAt t k none) =
      match (chains t)[k + 1]? with
      | none => .ok (cursorAt t k none)
      | some chain => (render nodes t).nextLoop turns (cursorAt t (k + 1) (headPtr chain)) := by
  have hlength := chains_length hready
  have hpos0 := Nat.two_pow_pos t.mSize0
  have hpos1 := Nat.two_pow_pos t.mSize1
  cases hget : (chains t)[k + 1]? with
  | none =>
    -- The last chain: no turn of the loop goes on.
    have hend := List.getElem?_eq_none_iff.mp hget
    rcases hlength with ⟨hidle, hlen⟩ | ⟨hre, hlen⟩
    · have hlast : ¬k < 2 ^ t.mSize0 - 1 := by omega
      rw [cursorAt, if_pos (by omega)]
      simp [NodeTable.nextLoop, NodeCursor.isValid, hlast, hidle]
    · have hlast : ¬k - 2 ^ t.mSize0 < 2 ^ t.mSize1 - 1 := by omega
      rw [cursorAt, if_neg (by omega)]
      simp [NodeTable.nextLoop, NodeCursor.isValid, hlast]
  | some chain =>
    obtain ⟨hlt, -⟩ := List.getElem?_eq_some_iff.mp hget
    have hbucket := bucketOf_cursorAt nodes hready hget none
    by_cases hin : k + 1 < 2 ^ t.mSize0
    · have hmore : k < 2 ^ t.mSize0 - 1 := by omega
      rw [cursorAt, if_pos hin] at hbucket
      have hk0 : k < 2 ^ t.mSize0 := by omega
      simp [cursorAt, if_pos hin, if_pos hk0, NodeTable.nextLoop, NodeCursor.isValid, hmore, hbucket]
    · rcases hlength with ⟨-, hlen⟩ | ⟨hre, hlen⟩
      · omega
      · rw [cursorAt, if_neg hin] at hbucket
        by_cases hfirst : k < 2 ^ t.mSize0
        · have hlast : ¬k < 2 ^ t.mSize0 - 1 := by omega
          have hzero : k + 1 - 2 ^ t.mSize0 = 0 := by omega
          rw [hzero] at hbucket
          simp [cursorAt, if_pos hfirst, if_neg hin, hzero, NodeTable.nextLoop, NodeCursor.isValid, hlast, hre,
            hbucket]
        · have hmore : k - 2 ^ t.mSize0 < 2 ^ t.mSize1 - 1 := by omega
          have hsucc : k + 1 - 2 ^ t.mSize0 = k - 2 ^ t.mSize0 + 1 := by omega
          rw [hsucc] at hbucket
          simp [cursorAt, if_neg hfirst, if_neg hin, hsucc, NodeTable.nextLoop, NodeCursor.isValid, hmore, hbucket]

theorem prevLoop_turn {nodes : HashNodes V} {t : HashTable (ℕ × V)} (hready : HashTable.Ready t) (turns k : ℕ)
    {chain : List (HashEntry (ℕ × V))} (hget : (chains t)[k]? = some chain) :
    (render nodes t).prevLoop (turns + 1) (cursorAt t (k + 1) none) =
      if (headPtr chain).isSome then .ok (cursorAt t k (headPtr chain))
      else (render nodes t).prevLoop turns (cursorAt t k none) := by
  have hpos0 := Nat.two_pow_pos t.mSize0
  have hbucket := bucketOf_cursorAt nodes hready hget none
  by_cases hin : k + 1 < 2 ^ t.mSize0
  · have hk : k < 2 ^ t.mSize0 := by omega
    simp only [cursorAt, if_pos hk] at hbucket
    simp [cursorAt, if_pos hin, if_pos hk, NodeTable.prevLoop, hbucket]
  · by_cases hfirst : k < 2 ^ t.mSize0
    · have hzero : k + 1 - 2 ^ t.mSize0 = 0 := by omega
      have hlast : 2 ^ t.mSize0 - 1 = k := by omega
      simp only [cursorAt, if_pos hfirst] at hbucket
      simp [cursorAt, if_neg hin, if_pos hfirst, NodeTable.prevLoop, hzero, hlast, hbucket]
    · have hback : k + 1 - 2 ^ t.mSize0 = k - 2 ^ t.mSize0 + 1 := by omega
      simp only [cursorAt, if_neg hfirst] at hbucket
      simp [cursorAt, if_neg hin, if_neg hfirst, NodeTable.prevLoop, hback, hbucket]

theorem prevLoop_first {nodes : HashNodes V} {t : HashTable (ℕ × V)} (turns : ℕ) :
    (render nodes t).prevLoop (turns + 1) (cursorAt t 0 none) = .ok (cursorAt t 0 none) := by
  rw [cursorAt, if_pos (Nat.two_pow_pos t.mSize0)]
  simp [NodeTable.prevLoop]

/-! ### The loops -/

/-- Next stops at the first entry of the next chain that has one. -/
theorem nextLoop_spec {nodes : HashNodes V} {t : HashTable (ℕ × V)} (hready : HashTable.Ready t) (turns k : ℕ)
    (hk : k < (chains t).length) (hturns : (chains t).length - k ≤ turns) :
    ∃ it, (render nodes t).nextLoop turns (cursorAt t k none) = .ok it ∧
      (it.mCurElement = none ∧ (∀ i, k < i → i < (chains t).length → (chains t)[i]? = some []) ∨
        ∃ j e post, k < j ∧ (chains t)[j]? = some (e :: post) ∧
          (∀ i, k < i → i < j → (chains t)[i]? = some []) ∧ it = cursorAt t j (some (addr e))) := by
  induction turns generalizing k with
  | zero => omega
  | succ turns ih =>
    rw [nextLoop_turn hready turns k hk]
    cases hget : (chains t)[k + 1]? with
    | none =>
      have hend := List.getElem?_eq_none_iff.mp hget
      exact ⟨_, rfl, .inl ⟨cursorAt_mCurElement t k none, fun i hi hlt => by omega⟩⟩
    | some chain =>
      obtain ⟨hlt, -⟩ := List.getElem?_eq_some_iff.mp hget
      cases chain with
      | cons e post =>
        obtain ⟨turns, rfl⟩ : ∃ n, turns = n + 1 := ⟨turns - 1, by omega⟩
        refine ⟨_, ?_, .inr ⟨k + 1, e, post, Nat.lt_succ_self k, hget, fun i hi hj => by omega, rfl⟩⟩
        have hvalid : (cursorAt t (k + 1) (headPtr (e :: post))).isValid = true := by
          rw [NodeCursor.isValid, cursorAt_mCurElement]
          rfl
        simp only [NodeTable.nextLoop]
        rw [if_pos hvalid]
        rfl
      | nil =>
        obtain ⟨it, hloop, hend⟩ := ih (k + 1) hlt (by omega)
        refine ⟨it, hloop, ?_⟩
        have hextend : ∀ i, k < i → (k + 1 < i → (chains t)[i]? = some []) → (chains t)[i]? = some [] := by
          intro i hi himp
          rcases Nat.lt_or_ge (k + 1) i with h | h
          · exact himp h
          · rw [show i = k + 1 by omega, hget]
        rcases hend with ⟨hnone, hempty⟩ | ⟨j, e, post, hj, hfirst, hempty, hit⟩
        · exact .inl ⟨hnone, fun i hi hlt => hextend i hi fun h => hempty i h hlt⟩
        · exact .inr ⟨j, e, post, by omega, hfirst, fun i hi hij => hextend i hi fun h => hempty i h hij, hit⟩

/-- Prev stops at the chain before that has an entry. -/
theorem prevLoop_spec (nodes : HashNodes V) {t : HashTable (ℕ × V)} (hready : HashTable.Ready t) (turns k : ℕ)
    (hk : k ≤ (chains t).length) (hturns : k < turns) :
    ∃ it, (render nodes t).prevLoop turns (cursorAt t k none) = .ok it ∧
      (it.mCurElement = none ∧ (∀ i, i < k → (chains t)[i]? = some []) ∨
        ∃ j e post, j < k ∧ (chains t)[j]? = some (e :: post) ∧
          (∀ i, j < i → i < k → (chains t)[i]? = some []) ∧ it = cursorAt t j (some (addr e))) := by
  induction turns generalizing k with
  | zero => omega
  | succ turns ih =>
    cases k with
    | zero => exact ⟨_, prevLoop_first turns, .inl ⟨cursorAt_mCurElement t 0 none, fun i hi => by omega⟩⟩
    | succ k =>
      have hget : (chains t)[k]? = some (chains t)[k] := List.getElem?_eq_getElem (by omega)
      generalize (chains t)[k] = chain at hget
      rw [prevLoop_turn hready turns k hget]
      cases chain with
      | cons e post =>
        exact ⟨_, rfl, .inr ⟨k, e, post, Nat.lt_succ_self k, hget, fun i hi hj => by omega, rfl⟩⟩
      | nil =>
        obtain ⟨it, hloop, hend⟩ := ih k (by omega) (by omega)
        refine ⟨it, hloop, ?_⟩
        have hextend : ∀ i, i < k + 1 → (i < k → (chains t)[i]? = some []) → (chains t)[i]? = some [] := by
          intro i hi himp
          rcases Nat.lt_or_ge i k with h | h
          · exact himp h
          · rw [show i = k by omega, hget]
        rcases hend with ⟨hnone, hempty⟩ | ⟨j, e, post, hj, hfirst, hempty, hit⟩
        · exact .inl ⟨hnone, fun i hi => hextend i hi (hempty i)⟩
        · exact .inr ⟨j, e, post, by omega, hfirst, fun i hi hik => hextend i hik (hempty i hi), hit⟩

theorem tailOf_spec {nodes : HashNodes V} {before : Option ℕ} (front : List (HashEntry (ℕ × V)))
    {x : HashEntry (ℕ × V)} {turns : ℕ} (hlinks : Chained nodes.nextOf nodes.prevOf before ((front ++ [x]).map addr) none)
    (hdata : ∀ y ∈ front ++ [x], nodes.content (addr y) = some (y.key, y.val.2)) (hturns : front.length < turns) :
    ∃ first, headPtr (front ++ [x]) = some first ∧ NodeTable.tailOf nodes turns first = .ok (addr x) := by
  induction front generalizing before turns with
  | nil =>
    obtain ⟨turns, rfl⟩ : ∃ n, turns = n + 1 := ⟨turns - 1, by omega⟩
    have hnext : nodes.nextOf (addr x) = none := hlinks.2.1
    have hderef := HashNodes.deref_of_content (hdata x List.mem_cons_self)
    refine ⟨addr x, rfl, ?_⟩
    simp only [NodeTable.tailOf, hderef, Exec.ok_bind, hnext]
    rfl
  | cons e front ih =>
    obtain ⟨turns, rfl⟩ : ∃ n, turns = n + 1 := ⟨turns - 1, by omega⟩
    obtain ⟨-, hnext, hrest⟩ := hlinks
    obtain ⟨second, hsecond, htail⟩ := ih hrest (fun y hy => hdata y (List.mem_cons_of_mem e hy))
      (Nat.lt_of_succ_lt_succ hturns)
    have hderef := HashNodes.deref_of_content (hdata e List.mem_cons_self)
    have hlink : nodes.nextOf (addr e) = some second := by
      rw [hnext, Option.or_none]
      exact hsecond
    refine ⟨addr e, rfl, ?_⟩
    simp only [NodeTable.tailOf, hderef, Exec.ok_bind, hlink, htail]

/-! ### Next and Prev of an entry -/

section Steps
variable {nodes : HashNodes V} {t : HashTable (ℕ × V)} {k : ℕ} {pre post : List (HashEntry (ℕ × V))}
  {e : HashEntry (ℕ × V)}

theorem deref_entry (h : Stores nodes none [] (chains t)) (hget : (chains t)[k]? = some (pre ++ e :: post)) :
    nodes.deref (addr e) = .ok ⟨e.key, e.val.2, headPtr post, (pre.map addr).getLast?⟩ := by
  have hlinks := h.linked k _ hget
  rw [List.map_append, List.map_cons] at hlinks
  obtain ⟨hprev, hnext⟩ := hlinks.links
  rw [Option.or_none] at hprev hnext
  have hin : e ∈ (chains t).flatten := mem_flatten_of_get hget (by simp)
  rw [HashNodes.deref_of_content (h.owns.data e hin), hprev, hnext]
  rfl

theorem next_entry (h : Stores nodes none [] (chains t)) (hget : (chains t)[k]? = some (pre ++ e :: post)) :
    (render nodes t).next (cursorAt t k (some (addr e))) =
      (render nodes t).nextLoop (2 ^ t.mSize0 + 2 ^ t.mSize1 + 1) (cursorAt t k (headPtr post)) := by
  simp only [NodeTable.next, cursorAt_mCurElement, render_nodes, deref_entry h hget, Exec.ok_bind, render_mSize0,
    render_mSize1, cursorAt_set]

theorem next_inside {e' : HashEntry (ℕ × V)} (h : Stores nodes none [] (chains t))
    (hget : (chains t)[k]? = some (pre ++ e :: e' :: post)) :
    (render nodes t).next (cursorAt t k (some (addr e))) = .ok (cursorAt t k (some (addr e'))) := by
  have hvalid : (cursorAt t k (some (addr e'))).isValid = true := by
    rw [NodeCursor.isValid, cursorAt_mCurElement]
    rfl
  rw [next_entry h hget]
  show (render nodes t).nextLoop _ (cursorAt t k (some (addr e'))) = _
  rw [NodeTable.nextLoop, if_pos hvalid]

theorem prev_inside {e' : HashEntry (ℕ × V)} (h : Stores nodes none [] (chains t))
    (hget : (chains t)[k]? = some (pre ++ e :: e' :: post)) :
    (render nodes t).prev (cursorAt t k (some (addr e'))) = .ok (cursorAt t k (some (addr e))) := by
  have hget' : (chains t)[k]? = some ((pre ++ [e]) ++ e' :: post) := by
    rw [hget, List.append_assoc]
    rfl
  have hlast : ((pre ++ [e]).map addr).getLast? = some (addr e) := by
    rw [List.map_append]
    exact List.getLast?_concat
  simp only [NodeTable.prev, cursorAt_mCurElement, render_nodes, deref_entry h hget', hlast, Exec.ok_bind, cursorAt_set]
  rfl

theorem next_last (hready : HashTable.Ready t) (h : Stores nodes none [] (chains t))
    (hget : (chains t)[k]? = some (pre ++ [e])) :
    ∃ it, (render nodes t).next (cursorAt t k (some (addr e))) = .ok it ∧
      (it.mCurElement = none ∧ (∀ i, k < i → i < (chains t).length → (chains t)[i]? = some []) ∨
        ∃ j e' post, k < j ∧ (chains t)[j]? = some (e' :: post) ∧
          (∀ i, k < i → i < j → (chains t)[i]? = some []) ∧ it = cursorAt t j (some (addr e'))) := by
  obtain ⟨hk, -⟩ := List.getElem?_eq_some_iff.mp hget
  have hlen := chains_length_le hready
  rw [next_entry h hget]
  exact nextLoop_spec hready _ k hk (by omega)

theorem prev_first (hready : HashTable.Ready t) (h : Stores nodes none [] (chains t))
    (hget : (chains t)[k]? = some (e :: post)) :
    ∃ it, (render nodes t).prev (cursorAt t k (some (addr e))) = .ok it ∧
      (it.mCurElement = none ∧ (∀ i, i < k → (chains t)[i]? = some []) ∨
        ∃ j front x, j < k ∧ (chains t)[j]? = some (front ++ [x]) ∧
          (∀ i, j < i → i < k → (chains t)[i]? = some []) ∧ it = cursorAt t j (some (addr x))) := by
  obtain ⟨hk, -⟩ := List.getElem?_eq_some_iff.mp hget
  have hlen := chains_length_le hready
  have hget' : (chains t)[k]? = some ([] ++ e :: post) := hget
  have hderef := deref_entry h hget'
  simp only [List.map_nil, List.getLast?_nil] at hderef
  obtain ⟨it, hloop, hend⟩ := prevLoop_spec nodes hready (2 ^ t.mSize0 + 2 ^ t.mSize1 + 1) k hk.le (by omega)
  simp only [NodeTable.prev, cursorAt_mCurElement, render_nodes, hderef, Exec.ok_bind, render_mSize0,
    render_mSize1, cursorAt_set, hloop]
  rcases hend with ⟨hnone, hempty⟩ | ⟨j, e', post', hj, hfirst, hempty, rfl⟩
  · rw [hnone]
    exact ⟨it, rfl, .inl ⟨hnone, hempty⟩⟩
  · obtain ⟨front, x, hsplit⟩ : ∃ front x, e' :: post' = front ++ [x] :=
      ⟨_, _, (List.dropLast_append_getLast (List.cons_ne_nil e' post')).symm⟩
    rw [hsplit] at hfirst
    have hmem : ∀ y ∈ front ++ [x], y ∈ (chains t).flatten := fun y hy => mem_flatten_of_get hfirst hy
    have hturns : front.length < nodes.turns := by
      have hsub : (front ++ [x]).Sublist (chains t).flatten :=
        List.sublist_flatten_of_mem (List.mem_of_getElem? hfirst)
      have hle := hsub.length_le.trans h.owns.length_le
      rw [List.length_append, List.length_singleton] at hle
      exact Nat.lt_succ_of_lt hle
    obtain ⟨first, hhead, htail⟩ := tailOf_spec front (h.linked j _ hfirst) (fun y hy => h.owns.data y (hmem y hy)) hturns
    have hfst : addr e' = first := by
      rw [← hsplit] at hhead
      exact Option.some.inj hhead
    rw [← hfst] at htail
    simp only [cursorAt_mCurElement, htail, Exec.ok_bind, cursorAt_set]
    exact ⟨_, rfl, .inr ⟨j, front, x, hj, hfirst, hempty, rfl⟩⟩

/-! ### The two directions -/

theorem prev_next (hready : HashTable.Ready t) (h : Stores nodes none [] (chains t))
    (hget : (chains t)[k]? = some (pre ++ e :: post)) :
    ∃ it, (render nodes t).next (cursorAt t k (some (addr e))) = .ok it ∧
      (it.isValid = true → (render nodes t).prev it = .ok (cursorAt t k (some (addr e)))) := by
  cases post with
  | cons e' post => exact ⟨_, next_inside h hget, fun _ => prev_inside h hget⟩
  | nil =>
    obtain ⟨it, hnext, hend⟩ := next_last hready h hget
    refine ⟨it, hnext, fun hvalid => ?_⟩
    rcases hend with ⟨hnone, -⟩ | ⟨j, e', post, hj, hfirst, hempty, rfl⟩
    · rw [NodeCursor.isValid, hnone] at hvalid
      cases hvalid
    · obtain ⟨back, hprev, hstop⟩ := prev_first hready h hfirst
      rw [hprev]
      rcases hstop with ⟨-, hall⟩ | ⟨r, front, x, hr, hlast, hempty', rfl⟩
      · have hnil := hall k hj
        rw [hget] at hnil
        simp at hnil
      · -- The chains between are empty both ways, and neither of the two chains is.
        have hsame : r = k := by
          rcases Nat.lt_trichotomy r k with hlt | heq | hgt
          · have hnil := hempty' k hlt hj
            rw [hget] at hnil
            simp at hnil
          · exact heq
          · have hnil := hempty r hgt hr
            rw [hlast] at hnil
            simp at hnil
        subst hsame
        rw [hget] at hlast
        obtain ⟨-, heq⟩ := List.append_inj' (Option.some.inj hlast) rfl
        cases heq
        rfl

theorem next_prev (hready : HashTable.Ready t) (h : Stores nodes none [] (chains t))
    (hget : (chains t)[k]? = some (pre ++ e :: post)) :
    ∃ it, (render nodes t).prev (cursorAt t k (some (addr e))) = .ok it ∧
      (it.isValid = true → (render nodes t).next it = .ok (cursorAt t k (some (addr e)))) := by
  rcases List.eq_nil_or_concat pre with rfl | ⟨pre, x, rfl⟩
  · obtain ⟨it, hprev, hstop⟩ := prev_first hready h hget
    refine ⟨it, hprev, fun hvalid => ?_⟩
    rcases hstop with ⟨hnone, -⟩ | ⟨j, front, x, hj, hlast, hempty, rfl⟩
    · rw [NodeCursor.isValid, hnone] at hvalid
      cases hvalid
    · obtain ⟨fwd, hnext, hend⟩ := next_last hready h hlast
      obtain ⟨hk, -⟩ := List.getElem?_eq_some_iff.mp hget
      rw [hnext]
      rcases hend with ⟨-, hall⟩ | ⟨r, e', post', hr, hfirst, hempty', rfl⟩
      · have hnil := hall k hj hk
        rw [hget] at hnil
        simp at hnil
      · have hsame : r = k := by
          rcases Nat.lt_trichotomy r k with hlt | heq | hgt
          · have hnil := hempty r hr hlt
            rw [hfirst] at hnil
            simp at hnil
          · exact heq
          · have hnil := hempty' k hj hgt
            rw [hget] at hnil
            simp at hnil
        subst hsame
        rw [hget] at hfirst
        cases hfirst
        rfl
  · rw [List.concat_eq_append, List.append_assoc] at hget
    exact ⟨_, prev_inside h hget, fun _ => next_inside h hget⟩

end Steps

/-! ### The iterator over the chains -/

/-- The rest of a chain and the pointer to its first entry. -/
structure SameElement (it : NodeCursor) (it' : HashIterator (ℕ × V)) : Prop where
  table : it.mTable = it'.mTable
  bucket : it.mCurBucket = it'.mCurBucket
  element : it.mCurElement = headPtr it'.mCurElement

theorem SameElement.isValid_iff {it : NodeCursor} {it' : HashIterator (ℕ × V)} (h : SameElement it it') :
    it.isValid = true ↔ HashTable.isValid it' = true := by
  rw [NodeCursor.isValid, HashTable.isValid, h.element]
  cases it'.mCurElement <;> simp [headPtr]

theorem bucketOf_related {p : NodeTable V} {t : HashTable (ℕ × V)} (h : Renders p t) (walking : Walking) (i : ℕ) :
    Related (fun q chain => q = headPtr chain) (p.bucketOf walking i) (t.chainAt walking i) := by
  rw [h.eq]
  cases walking with
  | null => exact .error _
  | table => exact (bucketPtr_related t.mTable i).mono fun q chain hq => hq.1
  | rehashTable => exact (bucketPtr_related t.mRehashTable i).mono fun q chain hq => hq.1

theorem nextLoop_sim {p : NodeTable V} {t : HashTable (ℕ × V)} (h : Renders p t) (turns : ℕ) {it : NodeCursor}
    {it' : HashIterator (ℕ × V)} (hsame : SameElement it it') :
    Related SameElement (p.nextLoop turns it) (t.nextLoop turns it') := by
  induction turns generalizing it it' with
  | zero => exact .error _
  | succ turns ih =>
    have hsize0 : p.mSize0 = t.mSize0 := by rw [h.eq, render_mSize0]
    have hsize1 : p.mSize1 = t.mSize1 := by rw [h.eq, render_mSize1]
    have hre : p.isReHashing = t.isReHashing := by rw [h.eq, render_isReHashing]
    simp only [NodeTable.nextLoop, HashTable.nextLoop, hsame.table, hsame.bucket, hsize0, hsize1, hre]
    refine Related.ite hsame.isValid_iff (fun _ => .ok hsame) fun _ => ?_
    refine Related.ite Iff.rfl (fun _ => ?_) fun _ => ?_
    · exact (bucketOf_related h _ _).bind fun q chain hq => ih ⟨rfl, rfl, hq⟩
    · refine Related.ite Iff.rfl (fun _ => ?_) fun _ => .ok hsame
      exact (bucketOf_related h _ _).bind fun q chain hq => ih ⟨rfl, rfl, hq⟩

theorem next_sim {p : NodeTable V} {t : HashTable (ℕ × V)} (h : Renders p t) {it : NodeCursor}
    {it' : HashIterator (ℕ × V)} (hsame : SameElement it it') {k : ℕ} {pre : List (HashEntry (ℕ × V))}
    (hget : (chains t)[k]? = some (pre ++ it'.mCurElement)) :
    Related SameElement (p.next it) (t.next it') := by
  have helement := hsame.element
  unfold NodeTable.next HashTable.next
  cases hcur : it'.mCurElement with
  | nil =>
    rw [hcur] at helement
    have hvalid : (!HashTable.isValid it') = true := by rw [HashTable.isValid, hcur]; rfl
    rw [helement, if_pos hvalid]
    exact .ok hsame
  | cons e rest =>
    rw [hcur] at helement hget
    have hvalid : ¬(!HashTable.isValid it') = true := by rw [HashTable.isValid, hcur]; simp
    have hsize0 : p.mSize0 = t.mSize0 := by rw [h.eq, render_mSize0]
    have hsize1 : p.mSize1 = t.mSize1 := by rw [h.eq, render_mSize1]
    have hentry : it.mCurElement = some (addr e) := helement
    simp only [hentry, deref_entry h.stores hget, Exec.ok_bind, if_neg hvalid, hsize0, hsize1]
    exact nextLoop_sim h _ ⟨hsame.table, hsame.bucket, rfl⟩

/-! ### Reachable tables -/

theorem mem_of_onChain {nodes : HashNodes V} {p : Option ℕ} {a : ℕ} (h : NodeTable.OnChain nodes p a)
    {before : Option ℕ} {chain : List (HashEntry (ℕ × V))}
    (hlinks : Chained nodes.nextOf nodes.prevOf before (chain.map addr) none) (hp : p = headPtr chain) :
    ∃ e ∈ chain, addr e = a := by
  induction h generalizing before chain with
  | here a =>
    cases chain with
    | nil => cases hp
    | cons e chain => exact ⟨e, List.mem_cons_self, (Option.some.inj hp).symm⟩
  | later hrest ih =>
    cases chain with
    | nil => cases hp
    | cons e chain =>
      obtain ⟨-, hnext, hlater⟩ := hlinks
      rw [Option.or_none] at hnext
      cases hp
      obtain ⟨x, hx, hax⟩ := ih hlater hnext
      exact ⟨x, List.mem_cons_of_mem e hx, hax⟩

theorem positioned_place {p : NodeTable V} {t : HashTable (ℕ × V)} (h : Renders p t) (hready : HashTable.Ready t)
    {it : NodeCursor} (hpos : p.Positioned it) :
    ∃ k pre e post, (chains t)[k]? = some (pre ++ e :: post) ∧ it = cursorAt t k (some (addr e)) := by
  obtain ⟨hp, hstores⟩ := h
  generalize p.nodes = nodes at *
  subst hp
  obtain ⟨walking, i, element⟩ := it
  obtain ⟨q, a, hbucket, rfl, hchain⟩ := hpos
  have hplace : ∃ k chain, (chains t)[k]? = some chain ∧ q = headPtr chain ∧
      (⟨walking, i, some a⟩ : NodeCursor) = cursorAt t k (some a) := by
    obtain ⟨old, hold, hlen, -⟩ := hready.arrays
    cases walking with
    | null => cases hbucket
    | table =>
      obtain ⟨chain, hok, rfl, buckets, htable, hget⟩ := (bucketPtr_related t.mTable i).of_ok_left hbucket
      have hlt := (List.getElem?_eq_some_iff.mp hget).1
      cases htable.symm.trans hold
      refine ⟨i, chain, (chains_first htable hget).1, rfl, ?_⟩
      rw [cursorAt, if_pos (hlen ▸ hlt)]
    | rehashTable =>
      obtain ⟨chain, hok, rfl, buckets, htable, hget⟩ := (bucketPtr_related t.mRehashTable i).of_ok_left hbucket
      have hsecond := (chains_second htable hget).1
      rw [hold, Option.getD_some, hlen] at hsecond
      refine ⟨2 ^ t.mSize0 + i, chain, hsecond, rfl, ?_⟩
      rw [cursorAt, if_neg (by omega), Nat.add_sub_cancel_left]
  obtain ⟨k, chain, hget, hq, hit⟩ := hplace
  obtain ⟨e, he, rfl⟩ := mem_of_onChain hchain (hstores.linked k chain hget) hq
  obtain ⟨pre, post, rfl⟩ := List.append_of_mem he
  exact ⟨k, pre, e, post, hget, hit⟩

/-- From an entry of a reachable table Next and Prev undo each other. -/
theorem next_prev_inverse (hashFunc : List Byte → ℕ) (p : NodeTable V) (h : NodeTable.Reachable hashFunc p)
    (it : NodeCursor) (hpos : p.Positioned it) :
    (∃ fwd, p.next it = .ok fwd ∧ (fwd.isValid = true → p.prev fwd = .ok it)) ∧
      ∃ back, p.prev it = .ok back ∧ (back.isValid = true → p.next back = .ok it) := by
  obtain ⟨t, hrenders, hreach⟩ := h.renders
  have hready : HashTable.Ready t := by
    rcases hreach.inv with rfl | hready
    · obtain ⟨q, a, hbucket, -⟩ := hpos
      rw [hrenders.eq] at hbucket
      cases hwalk : it.mTable <;> rw [hwalk] at hbucket <;> cases hbucket
    · exact hready
  obtain ⟨k, pre, e, post, hget, rfl⟩ := positioned_place hrenders hready hpos
  obtain ⟨hp, hstores⟩ := hrenders
  generalize p.nodes = nodes at *
  subst hp
  exact ⟨prev_next hready hstores hget, next_prev hready hstores hget⟩

/- An entry in each of the two arrays. -/
def acrossArrays : List (HashTable.HashOp (ℕ × ℕ)) :=
  [.insert [5] 1 (1, 50), .delete [9] 1, .insert [6] 1 (2, 60)]

/-- From the entry of the first array Next goes over to the second one. -/
theorem next_prev_inverse_arrays :
    ∃ outs p, runOps (NodeTable.step fun key => (key.headD 0).val) {} acrossArrays = .ok (outs, p) ∧
      p.next ⟨.table, 5, some 1⟩ = .ok ⟨.rehashTable, 6, some 2⟩ ∧
      (∃ fwd, p.next ⟨.table, 5, some 1⟩ = .ok fwd ∧
        (fwd.isValid = true → p.prev fwd = .ok ⟨.table, 5, some 1⟩)) ∧
      ∃ back, p.prev ⟨.table, 5, some 1⟩ = .ok back ∧
        (back.isValid = true → p.next back = .ok ⟨.table, 5, some 1⟩) :=
  ⟨_, _, rfl, rfl, next_prev_inverse (fun key => (key.headD 0).val) _
    ⟨acrossArrays, _, by decide +kernel, rfl⟩ ⟨.table, 5, some 1⟩ ⟨some 1, 1, rfl, rfl, .here 1⟩⟩

end DeftRpc.DataStruct
