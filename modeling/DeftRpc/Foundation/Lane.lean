import Mathlib.Tactic

/-!
# Lanes over a sequence

A lane runs over some elements of a sequence. An element on it points at the next
one on it and counts the steps of the sequence in between; the last one points
nowhere, and counts the elements behind it where the lane is kept exact. Inserting or
erasing an element of the sequence touches one element of every lane, the last one
before that place.
-/

namespace DeftRpc.Foundation
variable {α : Type} {exact : Prop}

/-- Pointer and count of the elements on the lane, `none` for the others. -/
abbrev Lane (α : Type) := α → Option (Option α × ℕ)

/-- The last element on the lane and the number of elements behind it. The element at hand
is on the lane and has `d` elements behind it so far. -/
def holder (lane : Lane α) : α → ℕ → List α → α × ℕ
  | a, d, [] => (a, d)
  | a, d, b :: l => if (lane b).isSome then holder lane b 0 l else holder lane a (d + 1) l

/-- The lane is right up to its last element. -/
def Reaches (lane : Lane α) : α → ℕ → List α → Prop
  | _, _, [] => True
  | a, d, b :: l =>
    if (lane b).isSome then lane a = some (some b, d + 1) ∧ Reaches lane b 0 l
    else Reaches lane a (d + 1) l

/-- The lane is right, and ends with its last element. -/
def Linked (exact : Prop) (lane : Lane α) : α → ℕ → List α → Prop
  | a, d, [] => ∃ span, lane a = some (none, span) ∧ (exact → span = d)
  | a, d, b :: l =>
    if (lane b).isSome then lane a = some (some b, d + 1) ∧ Linked exact lane b 0 l
    else Linked exact lane a (d + 1) l

section Cases
variable {lane : Lane α} {a b : α} {d : ℕ} {l : List α}

theorem holder_on (h : (lane b).isSome = true) : holder lane a d (b :: l) = holder lane b 0 l := if_pos h

theorem holder_off (h : ¬(lane b).isSome = true) :
    holder lane a d (b :: l) = holder lane a (d + 1) l := if_neg h

theorem reaches_on (h : (lane b).isSome = true) :
    Reaches lane a d (b :: l) ↔ lane a = some (some b, d + 1) ∧ Reaches lane b 0 l := by
  rw [Reaches, if_pos h]

theorem reaches_off (h : ¬(lane b).isSome = true) :
    Reaches lane a d (b :: l) ↔ Reaches lane a (d + 1) l := by
  rw [Reaches, if_neg h]

theorem linked_on (h : (lane b).isSome = true) :
    Linked exact lane a d (b :: l) ↔ lane a = some (some b, d + 1) ∧ Linked exact lane b 0 l := by
  rw [Linked, if_pos h]

theorem linked_off (h : ¬(lane b).isSome = true) :
    Linked exact lane a d (b :: l) ↔ Linked exact lane a (d + 1) l := by
  rw [Linked, if_neg h]

end Cases

/-! ### Two parts of a sequence -/

theorem holder_append (lane : Lane α) (a : α) (d : ℕ) (l m : List α) :
    holder lane a d (l ++ m) = holder lane (holder lane a d l).1 (holder lane a d l).2 m := by
  induction l generalizing a d with
  | nil => rfl
  | cons b l ih =>
    by_cases hb : (lane b).isSome = true
    · rw [List.cons_append, holder_on hb, holder_on hb, ih]
    · rw [List.cons_append, holder_off hb, holder_off hb, ih]

theorem linked_append (exact : Prop) (lane : Lane α) (a : α) (d : ℕ) (l m : List α) :
    Linked exact lane a d (l ++ m) ↔
      Reaches lane a d l ∧ Linked exact lane (holder lane a d l).1 (holder lane a d l).2 m := by
  induction l generalizing a d with
  | nil => simp [Reaches, holder]
  | cons b l ih =>
    by_cases hb : (lane b).isSome = true
    · rw [List.cons_append, linked_on hb, reaches_on hb, holder_on hb, ih, and_assoc]
    · rw [List.cons_append, linked_off hb, reaches_off hb, holder_off hb, ih]

theorem holder_mem (lane : Lane α) (a : α) (d : ℕ) (l : List α) : (holder lane a d l).1 ∈ a :: l := by
  induction l generalizing a d with
  | nil => exact List.mem_cons_self
  | cons b l ih =>
    by_cases hb : (lane b).isSome = true
    · rw [holder_on hb]
      exact List.mem_cons_of_mem a (ih b 0)
    · rw [holder_off hb]
      rcases List.mem_cons.mp (ih a (d + 1)) with h | h
      · rw [h]
        exact List.mem_cons_self
      · exact List.mem_cons_of_mem a (List.mem_cons_of_mem b h)

theorem holder_split (lane : Lane α) (a : α) (d : ℕ) (l : List α) :
    (holder lane a d l = (a, d + l.length) ∧ ∀ x ∈ l, lane x = none) ∨
      ∃ p c q, l = p ++ c :: q ∧ holder lane a d l = (c, q.length) ∧ (lane c).isSome = true := by
  induction l generalizing a d with
  | nil => exact Or.inl ⟨rfl, fun x hx => absurd hx List.not_mem_nil⟩
  | cons b l ih =>
    by_cases hb : (lane b).isSome = true
    · rw [holder_on hb]
      rcases ih b 0 with ⟨h, -⟩ | ⟨p, c, q, rfl, h, hc⟩
      · exact Or.inr ⟨[], b, l, rfl, by rw [h, Nat.zero_add], hb⟩
      · exact Or.inr ⟨b :: p, c, q, rfl, h, hc⟩
    · rw [holder_off hb]
      rcases ih a (d + 1) with ⟨h, hnone⟩ | ⟨p, c, q, rfl, h, hc⟩
      · left
        refine ⟨by rw [h, List.length_cons]; congr 1; omega, fun x hx => ?_⟩
        rcases List.mem_cons.mp hx with rfl | hx
        · simpa using hb
        · exact hnone x hx
      · exact Or.inr ⟨b :: p, c, q, rfl, h, hc⟩

theorem holder_of_none {lane : Lane α} {l : List α} (h : ∀ x ∈ l, lane x = none) (a : α) (d : ℕ) :
    holder lane a d l = (a, d + l.length) := by
  rcases holder_split lane a d l with ⟨hl, -⟩ | ⟨p, c, q, hl, -, hc⟩
  · exact hl
  · have hnone := h c (by simp [hl])
    rw [hnone] at hc
    cases hc

theorem holder_isSome {lane : Lane α} {a : α} (ha : (lane a).isSome = true) (d : ℕ) (l : List α) :
    (lane (holder lane a d l).1).isSome = true := by
  rcases holder_split lane a d l with ⟨hl, -⟩ | ⟨p, c, q, -, hl, hc⟩
  · rwa [hl]
  · rwa [hl]

theorem holder_position (lane : Lane α) (a : α) (l : List α) :
    ∃ p q, a :: l = p ++ (holder lane a 0 l).1 :: q ∧ (holder lane a 0 l).2 = q.length := by
  rcases holder_split lane a 0 l with ⟨h, -⟩ | ⟨p, c, q, hl, h, -⟩
  · rw [h]
    exact ⟨[], l, rfl, Nat.zero_add l.length⟩
  · rw [h, hl]
    exact ⟨a :: p, q, rfl, rfl⟩

theorem holder_congr {lane lane' : Lane α} (h : ∀ x, (lane' x).isSome = (lane x).isSome) :
    holder lane' = holder lane := by
  funext a d l
  induction l generalizing a d with
  | nil => rfl
  | cons b l ih => simp only [holder, h, ih]

theorem Linked.suffix {lane : Lane α} {a c : α} {l m p q : List α} (h : Linked exact lane a 0 (l ++ m))
    (hsplit : a :: l = p ++ c :: q) (hc : (lane c).isSome = true) :
    Linked exact lane c 0 (q ++ m) ∧ holder lane a 0 l = holder lane c 0 q := by
  cases p with
  | nil =>
    cases hsplit
    exact ⟨h, rfl⟩
  | cons b p =>
    have hl : l = p ++ c :: q := (List.cons_eq_cons.mp hsplit).2
    rw [hl, List.append_assoc, List.cons_append] at h
    rw [hl]
    constructor
    · exact ((linked_on hc).mp ((linked_append _ _ _ _ _ _).mp h).2).2
    · rw [holder_append, holder_on hc]

theorem Linked.next {lane : Lane α} {a : α} {d : ℕ} {l : List α} (h : Linked exact lane a d l) :
    (∃ span, lane a = some (none, span) ∧ (exact → span = d + l.length) ∧ ∀ x ∈ l, lane x = none) ∨
      ∃ p b q, l = p ++ b :: q ∧ lane a = some (some b, d + p.length + 1) ∧
        (∀ x ∈ p, lane x = none) ∧ (lane b).isSome = true ∧ Linked exact lane b 0 q := by
  induction l generalizing d with
  | nil =>
    obtain ⟨span, hspan, hexact⟩ := h
    exact Or.inl ⟨span, hspan, hexact, fun x hx => absurd hx List.not_mem_nil⟩
  | cons b l ih =>
    by_cases hb : (lane b).isSome = true
    · obtain ⟨ha, hl⟩ := (linked_on hb).mp h
      exact Or.inr ⟨[], b, l, rfl, ha, fun x hx => absurd hx List.not_mem_nil, hb, hl⟩
    · have hb' : lane b = none := by simpa using hb
      rcases ih ((linked_off hb).mp h) with ⟨span, hspan, hexact, hnone⟩ | ⟨p, c, q, rfl, ha, hnone, hc, hq⟩
      · refine Or.inl ⟨span, hspan, fun he => ?_, fun x hx => ?_⟩
        · rw [hexact he, List.length_cons]
          omega
        · rcases List.mem_cons.mp hx with rfl | hx
          · exact hb'
          · exact hnone x hx
      · refine Or.inr ⟨b :: p, c, q, rfl, ?_, fun x hx => ?_, hc, hq⟩
        · rw [ha, List.length_cons]
          congr 3
          omega
        · rcases List.mem_cons.mp hx with rfl | hx
          · exact hb'
          · exact hnone x hx

theorem Linked.weaken {exact' : Prop} {lane : Lane α} {a : α} {d : ℕ} {l : List α}
    (h : Linked exact lane a d l) (himp : exact' → exact) : Linked exact' lane a d l := by
  induction l generalizing a d with
  | nil =>
    obtain ⟨span, hspan, hexact⟩ := h
    exact ⟨span, hspan, fun he => hexact (himp he)⟩
  | cons b l ih =>
    by_cases hb : (lane b).isSome = true
    · obtain ⟨ha, hl⟩ := (linked_on hb).mp h
      exact (linked_on hb).mpr ⟨ha, ih hl⟩
    · exact (linked_off hb).mpr (ih ((linked_off hb).mp h))

theorem Linked.span_le {lane : Lane α} {a : α} {d span : ℕ} {next : Option α} {l : List α}
    (h : Linked exact lane a d l) (ha : lane a = some (next, span)) (hcounts : next ≠ none ∨ exact) :
    d ≤ span ∧ span ≤ d + l.length ∧ (l ≠ [] → d < span) := by
  rcases h.next with ⟨s, hs, hexact, -⟩ | ⟨p, c, q, rfl, hs, -⟩
  · rw [ha] at hs
    cases hs
    rcases hcounts with hne | he
    · exact absurd rfl hne
    · have hspan := hexact he
      refine ⟨by omega, by omega, fun hne => ?_⟩
      have hpos := List.length_pos_of_ne_nil hne
      omega
  · rw [ha] at hs
    cases hs
    rw [List.length_append, List.length_cons]
    exact ⟨by omega, by omega, fun _ => by omega⟩

theorem Linked.next_none_iff {lane : Lane α} {a : α} {d span : ℕ} {next : Option α} {l : List α}
    (h : Linked exact lane a d l) (ha : lane a = some (next, span)) :
    next = none ↔ ∀ x ∈ l, lane x = none := by
  rcases h.next with ⟨s, hs, -, hnone⟩ | ⟨p, c, q, rfl, hs, -, hc, -⟩
  · rw [ha] at hs
    cases hs
    exact ⟨fun _ => hnone, fun _ => rfl⟩
  · rw [ha] at hs
    cases hs
    constructor
    · intro he
      cases he
    · intro hnone
      rw [hnone c (by simp)] at hc
      cases hc

theorem linked_of_none {lane : Lane α} {a : α} {span : ℕ} (ha : lane a = some (none, span)) {l : List α}
    (hl : ∀ x ∈ l, lane x = none) {d : ℕ} (hspan : exact → span = d + l.length) :
    Linked exact lane a d l := by
  induction l generalizing d with
  | nil => exact ⟨span, ha, hspan⟩
  | cons b l ih =>
    have hb : ¬(lane b).isSome = true := by simp [hl b List.mem_cons_self]
    apply (linked_off hb).mpr
    apply ih fun x hx => hl x (List.mem_cons_of_mem b hx)
    intro he
    rw [hspan he, List.length_cons]
    omega

theorem holder_all {lane : Lane α} {l : List α} (h : ∀ x ∈ l, (lane x).isSome = true) (a : α) :
    (holder lane a 0 l).2 = 0 := by
  induction l generalizing a with
  | nil => rfl
  | cons b l ih =>
    rw [holder_on (h b List.mem_cons_self)]
    exact ih (fun x hx => h x (List.mem_cons_of_mem b hx)) b

/-! ### Changes -/

theorem Reaches.frame {lane lane' : Lane α} {a : α} {d : ℕ} {l : List α} (h : Reaches lane a d l)
    (hnodup : (a :: l).Nodup) (hon : ∀ x ∈ l, (lane' x).isSome = (lane x).isSome)
    (hsame : ∀ x ∈ a :: l, x ≠ (holder lane a d l).1 → lane' x = lane x) :
    Reaches lane' a d l ∧ holder lane' a d l = holder lane a d l := by
  induction l generalizing a d with
  | nil => exact ⟨trivial, rfl⟩
  | cons b l ih =>
    have hnodup' := (List.nodup_cons.mp hnodup).2
    have hon' : ∀ x ∈ l, (lane' x).isSome = (lane x).isSome :=
      fun x hx => hon x (List.mem_cons_of_mem b hx)
    by_cases hb : (lane b).isSome = true
    · have hb' : (lane' b).isSome = true := by rw [hon b List.mem_cons_self, hb]
      obtain ⟨ha, hl⟩ := (reaches_on hb).mp h
      rw [holder_on hb] at hsame ⊢
      have hmem := holder_mem lane b 0 l
      have hne : a ≠ (holder lane b 0 l).1 := by
        intro he
        rw [← he] at hmem
        exact (List.nodup_cons.mp hnodup).1 hmem
      have hrest := ih hl hnodup' hon' fun x hx => hsame x (List.mem_cons_of_mem a hx)
      rw [reaches_on hb', holder_on hb', hsame a List.mem_cons_self hne]
      exact ⟨⟨ha, hrest.1⟩, hrest.2⟩
    · have hb' : ¬(lane' b).isSome = true := by rwa [hon b List.mem_cons_self]
      rw [holder_off hb] at hsame ⊢
      rw [reaches_off hb', holder_off hb']
      have hsub : (a :: l).Sublist (a :: b :: l) := (List.sublist_cons_self b l).cons_cons a
      exact ih ((reaches_off hb).mp h) (hnodup.sublist hsub) hon' fun x hx => hsame x (hsub.subset hx)

/-- The rest of a lane behind another element, with the count moved along. -/
theorem Linked.move {lane lane' : Lane α} {c c' : α} {e e' span span' : ℕ} {next : Option α} {l : List α}
    (h : Linked exact lane c e l) (hc : lane c = some (next, span)) (hc' : lane' c' = some (next, span'))
    (hspan : next ≠ none ∨ exact → span' + e = span + e') (hsame : ∀ x ∈ l, lane' x = lane x) :
    Linked exact lane' c' e' l := by
  induction l generalizing c c' e e' span span' next with
  | nil =>
    obtain ⟨s, hs, hexact⟩ := h
    rw [hc] at hs
    cases hs
    refine ⟨span', hc', fun he => ?_⟩
    have heq := hspan (Or.inr he)
    have hend := hexact he
    omega
  | cons b l ih =>
    have hb' := hsame b List.mem_cons_self
    have hsame' : ∀ x ∈ l, lane' x = lane x := fun x hx => hsame x (List.mem_cons_of_mem b hx)
    by_cases hb : (lane b).isSome = true
    · obtain ⟨ha, hl⟩ := (linked_on hb).mp h
      rw [hc] at ha
      cases ha
      have hs := hspan (Or.inl (Option.some_ne_none b))
      refine (linked_on (by rwa [hb'])).mpr ⟨?_, ?_⟩
      · rw [hc']
        congr 2
        omega
      · obtain ⟨⟨next, span⟩, hlink⟩ := Option.isSome_iff_exists.mp hb
        exact ih hl hlink (by rw [hb', hlink]) (fun _ => rfl) hsame'
    · refine (linked_off (by rwa [hb'])).mpr ?_
      refine ih ((linked_off hb).mp h) hc hc' (fun hn => ?_) hsame'
      have hs := hspan hn
      omega

theorem Linked.congr {lane lane' : Lane α} {a : α} {d : ℕ} {l : List α} (h : Linked exact lane a d l)
    (hsame : ∀ x ∈ a :: l, lane' x = lane x) : Linked exact lane' a d l := by
  have ha : ∃ next span, lane a = some (next, span) := by
    rcases h.next with ⟨span, hspan, -⟩ | ⟨p, b, q, -, hspan, -⟩
    · exact ⟨none, span, hspan⟩
    · exact ⟨some b, _, hspan⟩
  obtain ⟨next, span, ha⟩ := ha
  apply h.move ha
  · rw [hsame a List.mem_cons_self, ha]
  · exact fun _ => rfl
  · exact fun x hx => hsame x (List.mem_cons_of_mem a hx)

/-- Another rest behind the same first part: only the holder changes. -/
theorem Linked.replace {lane lane' : Lane α} {a : α} {l m m' : List α} (h : Linked exact lane a 0 (l ++ m))
    (hnodup : (a :: l).Nodup) {link link' : Option α × ℕ}
    (hc : lane (holder lane a 0 l).1 = some link) (hc' : lane' (holder lane a 0 l).1 = some link')
    (hsame : ∀ x ∈ a :: l, x ≠ (holder lane a 0 l).1 → lane' x = lane x)
    (hrest : Linked exact lane' (holder lane a 0 l).1 (holder lane a 0 l).2 m') :
    Linked exact lane' a 0 (l ++ m') := by
  have hon : ∀ x ∈ l, (lane' x).isSome = (lane x).isSome := by
    intro x hx
    by_cases he : x = (holder lane a 0 l).1
    · rw [he, hc, hc', Option.isSome_some, Option.isSome_some]
    · rw [hsame x (List.mem_cons_of_mem a hx) he]
  obtain ⟨hreach, -⟩ := (linked_append exact lane a 0 l m).mp h
  obtain ⟨hreach', hholder⟩ := hreach.frame hnodup hon hsame
  exact (linked_append exact lane' a 0 l m').mpr ⟨hreach', hholder ▸ hrest⟩

section Edit
variable {lane lane' : Lane α} {a n : α} {pre post : List α} {next : Option α} {span span' : ℕ}

theorem not_mem_of_nodup (hnodup : (a :: (pre ++ post)).Nodup) {c : α} (hc : c ∈ a :: pre) : c ∉ post := by
  rw [← List.cons_append] at hnodup
  exact fun hpost => (List.disjoint_of_nodup_append hnodup) hc hpost

theorem Linked.insertOn (h : Linked exact lane a 0 (pre ++ post)) (hnodup : (a :: (pre ++ post)).Nodup)
    (hn : n ∉ a :: (pre ++ post)) (hc : lane (holder lane a 0 pre).1 = some (next, span))
    (hc' : lane' (holder lane a 0 pre).1 = some (some n, (holder lane a 0 pre).2 + 1))
    (hn' : lane' n = some (next, span'))
    (hspan : next ≠ none ∨ exact → span' + (holder lane a 0 pre).2 = span)
    (hsame : ∀ x, x ≠ n → x ≠ (holder lane a 0 pre).1 → lane' x = lane x) :
    Linked exact lane' a 0 (pre ++ n :: post) := by
  have hpre : (a :: pre).Sublist (a :: (pre ++ post)) := (List.sublist_append_left pre post).cons_cons a
  refine h.replace (hnodup.sublist hpre) hc hc' (fun x hx => hsame x ?_) ?_
  · rintro rfl
    exact hn (hpre.subset hx)
  · refine (linked_on (by rw [hn', Option.isSome_some])).mpr ⟨hc', ?_⟩
    refine ((linked_append _ _ _ _ _ _).mp h).2.move hc hn' (by simpa using hspan) fun x hx => hsame x ?_ ?_
    · rintro rfl
      exact hn (List.mem_cons_of_mem a (List.mem_append_right pre hx))
    · rintro rfl
      exact not_mem_of_nodup hnodup (holder_mem lane a 0 pre) hx

theorem Linked.insertOff (h : Linked exact lane a 0 (pre ++ post)) (hnodup : (a :: (pre ++ post)).Nodup)
    (hn : n ∉ a :: (pre ++ post)) (hc : lane (holder lane a 0 pre).1 = some (next, span))
    (hc' : lane' (holder lane a 0 pre).1 = some (next, span')) (hn' : lane' n = none)
    (hspan : next ≠ none ∨ exact → span' = span + 1)
    (hsame : ∀ x, x ≠ n → x ≠ (holder lane a 0 pre).1 → lane' x = lane x) :
    Linked exact lane' a 0 (pre ++ n :: post) := by
  have hpre : (a :: pre).Sublist (a :: (pre ++ post)) := (List.sublist_append_left pre post).cons_cons a
  refine h.replace (hnodup.sublist hpre) hc hc' (fun x hx => hsame x ?_) ?_
  · rintro rfl
    exact hn (hpre.subset hx)
  · refine (linked_off (by simp [hn'])).mpr ?_
    refine ((linked_append _ _ _ _ _ _).mp h).2.move hc hc' (fun hne => ?_) fun x hx => hsame x ?_ ?_
    · rw [hspan hne]
      omega
    · rintro rfl
      exact hn (List.mem_cons_of_mem a (List.mem_append_right pre hx))
    · rintro rfl
      exact not_mem_of_nodup hnodup (holder_mem lane a 0 pre) hx

theorem Linked.holder_next (h : Linked exact lane a 0 (pre ++ n :: post)) (hn : (lane n).isSome = true) :
    lane (holder lane a 0 pre).1 = some (some n, (holder lane a 0 pre).2 + 1) ∧ Linked exact lane n 0 post :=
  (linked_on hn).mp ((linked_append _ _ _ _ _ _).mp h).2

theorem Linked.eraseOn (h : Linked exact lane a 0 (pre ++ n :: post)) (hnodup : (a :: (pre ++ n :: post)).Nodup)
    (hn : lane n = some (next, span)) (hc' : lane' (holder lane a 0 pre).1 = some (next, span'))
    (hspan : next ≠ none ∨ exact → span' = span + (holder lane a 0 pre).2)
    (hsame : ∀ x, x ≠ n → x ≠ (holder lane a 0 pre).1 → lane' x = lane x) :
    Linked exact lane' a 0 (pre ++ post) := by
  have hpre : (a :: pre).Sublist (a :: (pre ++ n :: post)) :=
    (List.sublist_append_left pre (n :: post)).cons_cons a
  obtain ⟨hc, hrest⟩ := h.holder_next (by rw [hn, Option.isSome_some])
  have hnpost : n ∉ post :=
    (List.nodup_cons.mp ((List.nodup_append.mp (List.nodup_cons.mp hnodup).2).2.1)).1
  refine h.replace (hnodup.sublist hpre) hc hc' (fun x hx => hsame x ?_) ?_
  · rintro rfl
    exact not_mem_of_nodup hnodup hx List.mem_cons_self
  · refine hrest.move hn hc' (by simpa using hspan) fun x hx => hsame x ?_ ?_
    · rintro rfl
      exact hnpost hx
    · rintro rfl
      exact not_mem_of_nodup hnodup (holder_mem lane a 0 pre) (List.mem_cons_of_mem n hx)

theorem Linked.eraseOff (h : Linked exact lane a 0 (pre ++ n :: post)) (hnodup : (a :: (pre ++ n :: post)).Nodup)
    (hn : lane n = none) (hc : lane (holder lane a 0 pre).1 = some (next, span))
    (hc' : lane' (holder lane a 0 pre).1 = some (next, span')) (hspan : next ≠ none ∨ exact → span' + 1 = span)
    (hsame : ∀ x, x ≠ n → x ≠ (holder lane a 0 pre).1 → lane' x = lane x) :
    Linked exact lane' a 0 (pre ++ post) := by
  have hpre : (a :: pre).Sublist (a :: (pre ++ n :: post)) :=
    (List.sublist_append_left pre (n :: post)).cons_cons a
  have hnpost : n ∉ post :=
    (List.nodup_cons.mp ((List.nodup_append.mp (List.nodup_cons.mp hnodup).2).2.1)).1
  have hrest := (linked_off (by simp [hn])).mp ((linked_append _ _ _ _ _ _).mp h).2
  refine h.replace (hnodup.sublist hpre) hc hc' (fun x hx => hsame x ?_) ?_
  · rintro rfl
    exact not_mem_of_nodup hnodup hx List.mem_cons_self
  · refine hrest.move hc hc' (fun hne => ?_) fun x hx => hsame x ?_ ?_
    · have hs := hspan hne
      omega
    · rintro rfl
      exact hnpost hx
    · rintro rfl
      exact not_mem_of_nodup hnodup (holder_mem lane a 0 pre) (List.mem_cons_of_mem n hx)

end Edit

end DeftRpc.Foundation
