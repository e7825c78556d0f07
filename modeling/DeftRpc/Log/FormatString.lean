import DeftRpc.Log.LogFormatter

/-!
# Reading a format string

A format string as a sequence of tokens, and the items that the constructor makes of
them. It keeps the text of a time run from the literals before its first specifier on.
-/

namespace DeftRpc.Log
open DeftRpc.Foundation

/-! ### Tokens -/

abbrev Literal := {c : Char // c ≠ '%'}

inductive Conversion where
  | year
  | month
  | day
  | hour
  | minute
  | second

def Conversion.char : Conversion → Char
  | .year => 'Y'
  | .month => 'm'
  | .day => 'd'
  | .hour => 'H'
  | .minute => 'M'
  | .second => 'S'

inductive Field where
  | line
  | message
  | fileName
  | threadId
  | logLevelName
  | loggerName

def Field.char : Field → Char
  | .line => 'n'
  | .message => 's'
  | .fileName => 'f'
  | .threadId => 't'
  | .logLevelName => 'l'
  | .loggerName => 'o'

def Field.item : Field → FormatterItem
  | .line => .line
  | .message => .message
  | .fileName => .fileName
  | .threadId => .threadId
  | .logLevelName => .logLevelName
  | .loggerName => .loggerName

/-- What may stand in a format of strftime. -/
inductive Piece where
  | literal (c : Literal)
  | time (x : Conversion)

def Piece.text : Piece → List Char
  | .literal c => [c.1]
  | .time x => ['%', x.char]

inductive Token where
  | piece (p : Piece)
  | percent
  | field (f : Field)

def Token.text : Token → List Char
  | .piece p => p.text
  | .percent => ['%', '%']
  | .field f => ['%', f.char]

/-- The token of a percent sign and this char. -/
def specified : Char → Option Token
  | '%' => some .percent
  | 'Y' => some (.piece (.time .year))
  | 'm' => some (.piece (.time .month))
  | 'd' => some (.piece (.time .day))
  | 'H' => some (.piece (.time .hour))
  | 'M' => some (.piece (.time .minute))
  | 'S' => some (.piece (.time .second))
  | 'n' => some (.field .line)
  | 's' => some (.field .message)
  | 'f' => some (.field .fileName)
  | 't' => some (.field .threadId)
  | 'l' => some (.field .logLevelName)
  | 'o' => some (.field .loggerName)
  | _ => none

/-- From left to right; a percent sign takes the next char with it. -/
def scan : List Char → Option (List Token)
  | [] => some []
  | c :: cs =>
    if h : c = '%' then
      match cs with
      | [] => none
      | x :: cs => do
        let t ← specified x
        let ts ← scan cs
        some (t :: ts)
    else do
      let ts ← scan cs
      some (.piece (.literal ⟨c, h⟩) :: ts)

/-! ### The items of a sequence of tokens -/

/-- `run` is the text of the time run that is not made an item yet, `text` the literals
since the last specifier. -/
def compile : Option (List Char) → List Char → List Token → List FormatterItem
  | some run, text, [] => [.time (run ++ text)]
  | none, text, [] => if 1 < text.length then [.str text] else []
  | run, text, .piece (.literal c) :: ts => compile run (text ++ [c.1]) ts
  | run, text, .piece (.time x) :: ts => compile (some (run.getD [] ++ text ++ ['%', x.char])) [] ts
  | run, text, .percent :: ts => .str (run.getD [] ++ text ++ ['%']) :: compile none [] ts
  | some run, text, .field f :: ts =>
    if text = [] then f.item :: compile (some (run ++ ['%', f.char])) [] ts
    else .time (run ++ text) :: f.item :: compile none [] ts
  | none, text, .field f :: ts =>
    if text = [] then f.item :: compile none [] ts
    else .str text :: f.item :: compile none [] ts

/-! ### Literals -/

def literals (ls : List Literal) : List Token := ls.map fun c => .piece (.literal c)

def chars (ls : List Literal) : List Char := ls.map fun c => c.1

theorem exists_literals {cs : List Char} (h : '%' ∉ cs) : ∃ ls : List Literal, cs = chars ls := by
  induction cs with
  | nil => exact ⟨[], rfl⟩
  | cons c cs ih =>
    obtain ⟨ls, rfl⟩ := ih fun hmem => h (List.mem_cons_of_mem c hmem)
    have hc : c ≠ '%' := fun heq => h (by rw [heq]; exact List.mem_cons_self)
    exact ⟨⟨c, hc⟩ :: ls, rfl⟩

theorem scan_literal (c : Literal) (cs : List Char) :
    scan (c.1 :: cs) = (scan cs).map (.piece (.literal c) :: ·) := by
  rw [scan.eq_def]
  dsimp only
  rw [dif_neg c.2]
  cases scan cs <;> rfl

theorem scan_specified (x : Char) (cs : List Char) :
    scan ('%' :: x :: cs) = (specified x).bind fun t => (scan cs).map (t :: ·) := by
  rw [scan.eq_def]
  dsimp only
  rw [dif_pos rfl]
  cases specified x with
  | none => rfl
  | some t =>
    cases scan cs <;> rfl

theorem scan_text (ts : List Token) : scan (ts.flatMap Token.text) = some ts := by
  induction ts with
  | nil => rfl
  | cons t ts ih =>
    rw [List.flatMap_cons]
    cases t with
    | piece p =>
      cases p with
      | literal c =>
        rw [Token.text, Piece.text, List.singleton_append, scan_literal, ih]
        rfl
      | time x =>
        have hx : specified x.char = some (.piece (.time x)) := by cases x <;> rfl
        rw [Token.text, Piece.text, List.cons_append, List.singleton_append, scan_specified, hx, ih]
        rfl
    | percent =>
      rw [Token.text, List.cons_append, List.singleton_append, scan_specified, ih]
      rfl
    | field f =>
      have hf : specified f.char = some (.field f) := by cases f <;> rfl
      rw [Token.text, List.cons_append, List.singleton_append, scan_specified, hf, ih]
      rfl

theorem scan_literals (ls : List Literal) (cs : List Char) :
    scan (chars ls ++ cs) = (scan cs).map (literals ls ++ ·) := by
  induction ls with
  | nil => exact Option.map_id'.symm
  | cons c ls ih =>
    have hcons : chars (c :: ls) ++ cs = c.1 :: (chars ls ++ cs) := rfl
    rw [hcons, scan_literal, ih, Option.map_map]
    rfl

theorem compile_literals (ls : List Literal) (run : Option (List Char)) (text : List Char) (ts : List Token) :
    compile run text (literals ls ++ ts) = compile run (text ++ chars ls) ts := by
  induction ls generalizing text with
  | nil => rw [chars, literals, List.map_nil, List.map_nil, List.append_nil, List.nil_append]
  | cons c ls ih =>
    have hcons : literals (c :: ls) ++ ts = .piece (.literal c) :: (literals ls ++ ts) := rfl
    rw [hcons, compile, ih, List.append_assoc]
    rfl

/-! ### Indices -/

section Indices
variable {format : List Char} {c : Char} {pos index : ℕ}

theorem find_none (h : find format c pos = none) : c ∉ format.drop pos := by
  rw [find, Option.map_eq_none_iff, List.idxOf?_eq_none_iff] at h
  exact h

theorem idxOf?_split {s : List Char} {n : ℕ} (h : s.idxOf? c = some n) :
    ∃ l r, s = l ++ c :: r ∧ c ∉ l ∧ n = l.length := by
  induction s generalizing n with
  | nil => cases h
  | cons a s ih =>
    rw [List.idxOf?_cons] at h
    by_cases hac : a = c
    · rw [if_pos (beq_iff_eq.mpr hac)] at h
      cases h
      exact ⟨[], s, by rw [hac]; rfl, List.not_mem_nil, rfl⟩
    · rw [if_neg (fun hb => hac (beq_iff_eq.mp hb)), Option.map_eq_some_iff] at h
      obtain ⟨m, hm, rfl⟩ := h
      obtain ⟨l, r, rfl, hl, rfl⟩ := ih hm
      refine ⟨a :: l, r, rfl, fun hmem => ?_, rfl⟩
      rcases List.mem_cons.mp hmem with heq | hmem
      · exact hac heq.symm
      · exact hl hmem

theorem find_some (h : find format c pos = some index) :
    ∃ l r, format.drop pos = l ++ c :: r ∧ c ∉ l ∧ index = pos + l.length := by
  rw [find, Option.map_eq_some_iff] at h
  obtain ⟨n, hn, rfl⟩ := h
  obtain ⟨l, r, hdrop, hl, rfl⟩ := idxOf?_split hn
  exact ⟨l, r, hdrop, hl, rfl⟩

theorem idxOf?_first {l : List Char} (h : c ∉ l) (r : List Char) :
    (l ++ c :: r).idxOf? c = some l.length := by
  induction l with
  | nil => rw [List.nil_append, List.idxOf?_cons, if_pos (beq_self_eq_true c), List.length_nil]
  | cons a l ih =>
    obtain ⟨hac, hl⟩ := not_or.mp (List.mem_cons.not.mp h)
    rw [List.cons_append, List.idxOf?_cons, if_neg (fun hb => hac (beq_iff_eq.mp hb).symm), ih hl]
    rfl

theorem find_first {l : List Char} (h : c ∉ l) (r : List Char) :
    find (l ++ c :: r) c 0 = some l.length := by
  rw [find, List.drop_zero, idxOf?_first h, Option.map_some, Nat.zero_add]

theorem range_append {first : ℕ} {u v : List Char} (hle : first ≤ pos) (hdrop : format.drop pos = u ++ v) :
    range format first (pos + u.length) = range format first pos ++ u := by
  have hsum : pos + u.length - first = (pos - first) + u.length := by omega
  have hat : first + (pos - first) = pos := by omega
  rw [range, range, hsum, List.take_add, List.drop_drop, hat, hdrop, List.take_left]

theorem range_self (format : List Char) (pos : ℕ) : range format pos pos = [] := by
  rw [range, Nat.sub_self, List.take_zero]

end Indices

/-! ### The constructor -/

section AppendItem
variable {format : List Char} {index b : ℕ} {item : FormatterItem} {s : Construction}

theorem appendItem_direct (h : ¬ s.prev < index) : appendItem format index item s = s.addItem item := by
  rw [appendItem, if_neg h]

theorem appendItem_literals (h : s.prev < index) (hb : s.timeBegin = none) :
    appendItem format index item s = (s.addItem (.str (range format s.prev index))).addItem item := by
  rw [appendItem, if_pos h, hb]

theorem appendItem_run (h : s.prev < index) (hb : s.timeBegin = some b) :
    appendItem format index item s =
      ⟨none, b, s.items ++ [.time (range format b index)] ++ [item]⟩ := by
  rw [appendItem, if_pos h, hb]
  rfl

end AppendItem

/-- What the constructor adds for a token after literals up to `index`. -/
def appendToken (format : List Char) (index : ℕ) (s : Construction) : Token → Construction
  | .piece (.literal _) => s
  | .piece (.time _) => beginTime s
  | .percent => appendPercent format index s
  | .field f => appendItem format index f.item s

theorem specifier_eq {format : List Char} {index : ℕ} {x : Char} (hget : format[index + 1]? = some x)
    (s : Construction) : specifier format index s =
      match specified x with
      | some t => .ok (appendToken format index s t)
      | none => .error (.throws formatError) := by
  have hlt : index + 1 < format.length := (List.getElem?_eq_some_iff.mp hget).1
  have hlast : ¬ minusOne format.length ≤ index := by
    rw [minusOne, if_neg (by omega)]
    omega
  rw [specifier, if_neg hlast, List.getD_eq_getElem?_getD, hget, Option.getD_some]
  split <;> try rfl
  -- the default case of the switch
  next =>
    have hnone : specified x = none := by
      unfold specified
      split <;> first | rfl | exact absurd rfl (by assumption)
    rw [hnone]

/-- The time run whose text is not an item yet. -/
def pending (format : List Char) (s : Construction) : Option (List Char) :=
  s.timeBegin.map fun timeBegin => range format timeBegin s.prev

structure Valid (format : List Char) (s : Construction) : Prop where
  prev_le : s.prev ≤ format.length
  begin_le : ∀ timeBegin, s.timeBegin = some timeBegin → timeBegin ≤ s.prev

theorem specified_time {x : Char} {c : Conversion} (h : specified x = some (.piece (.time c))) : x = c.char := by
  unfold specified at h
  split at h <;> cases h <;> rfl

theorem specified_field {x : Char} {f : Field} (h : specified x = some (.field f)) : x = f.char := by
  unfold specified at h
  split at h <;> cases h <;> rfl

theorem specified_ne_literal {x : Char} {c : Literal} : specified x ≠ some (.piece (.literal c)) := by
  intro h
  unfold specified at h
  split at h <;> cases h

theorem appendToken_timeBegin {format : List Char} {index timeBegin : ℕ} {s : Construction} {t : Token}
    (h : (appendToken format index s t).timeBegin = some timeBegin) :
    s.timeBegin = some timeBegin ∨ timeBegin = s.prev := by
  cases t with
  | piece p =>
    cases p with
    | literal c => exact .inl h
    | time c =>
      cases hb : s.timeBegin with
      | none =>
        simp only [appendToken, beginTime, hb, Option.some.injEq] at h
        exact .inr h.symm
      | some b =>
        simp only [appendToken, beginTime, hb] at h
        exact .inl h
  | percent =>
    cases hb : s.timeBegin with
    | none => simp [appendToken, appendPercent, Construction.addItem, hb] at h
    | some b => simp [appendToken, appendPercent, Construction.addItem, hb] at h
  | field f =>
    rw [appendToken] at h
    by_cases hlt : s.prev < index
    · cases hb : s.timeBegin with
      | none =>
        rw [appendItem_literals hlt hb, Construction.addItem, Construction.addItem, hb] at h
        cases h
      | some b =>
        rw [appendItem_run hlt hb] at h
        cases h
    · rw [appendItem_direct hlt] at h
      exact .inl h

section Step
variable {format : List Char} {s : Construction} {l r : List Char} {x : Char}

/-- The loop goes on behind the token. -/
def afterToken (format : List Char) (s : Construction) (l : List Char) (t : Token) : Construction :=
  { appendToken format (s.prev + l.length) s t with prev := s.prev + l.length + 2 }

theorem Valid.afterToken (h : Valid format s) (hdrop : format.drop s.prev = l ++ '%' :: x :: r) (t : Token) :
    Valid format (afterToken format s l t) := by
  have hlen := congrArg List.length hdrop
  rw [List.length_drop, List.length_append, List.length_cons, List.length_cons] at hlen
  have hprev := h.prev_le
  refine ⟨show s.prev + l.length + 2 ≤ format.length by omega, fun timeBegin hb => ?_⟩
  have hle : timeBegin ≤ s.prev := by
    rcases appendToken_timeBegin hb with hb | rfl
    · exact h.begin_le timeBegin hb
    · exact le_refl _
  exact show timeBegin ≤ s.prev + l.length + 2 by omega

/-- The texts of the runs that begin at `first` and reach into a specifier. -/
theorem range_specifier {first : ℕ} (hle : first ≤ s.prev) (hdrop : format.drop s.prev = l ++ '%' :: x :: r) :
    range format first (s.prev + l.length) = range format first s.prev ++ l ∧
      range format first (s.prev + l.length + 1) = range format first s.prev ++ l ++ ['%'] ∧
      range format first (s.prev + l.length + 2) = range format first s.prev ++ l ++ ['%', x] := by
  have hone : s.prev + l.length + 1 = s.prev + (l ++ ['%']).length := by
    rw [List.length_append]
    rfl
  have htwo : s.prev + l.length + 2 = s.prev + (l ++ ['%', x]).length := by
    rw [List.length_append]
    rfl
  refine ⟨range_append hle hdrop, ?_, ?_⟩
  · rw [hone, range_append (v := x :: r) hle (by rw [hdrop, List.append_assoc]; rfl), List.append_assoc]
  · rw [htwo, range_append (v := r) hle (by rw [hdrop, List.append_assoc]; rfl), List.append_assoc]

theorem compile_step (h : Valid format s) (hdrop : format.drop s.prev = l ++ '%' :: x :: r) {t : Token}
    (ht : specified x = some t) (ts : List Token) :
    (afterToken format s l t).items ++ compile (pending format (afterToken format s l t)) [] ts =
      s.items ++ compile (pending format s) l (t :: ts) := by
  obtain ⟨hzero, hone, htwo⟩ := range_specifier (le_refl s.prev) hdrop
  rw [range_self, List.nil_append] at hzero hone htwo
  cases t with
  | piece p =>
    cases p with
    | literal c => exact absurd ht specified_ne_literal
    | time c =>
      have hx := specified_time ht
      cases hb : s.timeBegin with
      | none =>
        simp only [afterToken, appendToken, beginTime, pending, hb, Option.map_some, Option.map_none, htwo, hx,
          compile, Option.getD_none, List.nil_append]
      | some b =>
        obtain ⟨-, -, hrun⟩ := range_specifier (h.begin_le b hb) hdrop
        simp only [afterToken, appendToken, beginTime, pending, hb, Option.map_some, hrun, hx, compile,
          Option.getD_some]
  | percent =>
    cases hb : s.timeBegin with
    | none =>
      simp only [afterToken, appendToken, appendPercent, Construction.addItem, pending, hb, Option.map_none, hone,
        compile, Option.getD_none, List.nil_append, List.append_assoc, List.singleton_append]
    | some b =>
      obtain ⟨-, hrun, -⟩ := range_specifier (h.begin_le b hb) hdrop
      simp only [afterToken, appendToken, appendPercent, Construction.addItem, pending, hb, Option.map_none,
        Option.map_some, hrun, compile, Option.getD_some, List.append_assoc, List.singleton_append]
  | field f =>
    have hx := specified_field ht
    by_cases hl : l = []
    · subst hl
      have hdirect : ¬ s.prev < s.prev + ([] : List Char).length := lt_irrefl s.prev
      rw [afterToken, appendToken, appendItem_direct hdirect]
      cases hb : s.timeBegin with
      | none =>
        simp only [Construction.addItem, pending, hb, Option.map_none, compile, if_true, List.append_assoc,
          List.singleton_append]
      | some b =>
        obtain ⟨-, -, hstale⟩ := range_specifier (h.begin_le b hb) hdrop
        simp only [Construction.addItem, pending, hb, Option.map_some, hstale, hx, List.append_nil, compile, if_true,
          List.append_assoc, List.singleton_append]
    · have hitems : s.prev < s.prev + l.length := Nat.lt_add_of_pos_right (List.length_pos_iff.mpr hl)
      cases hb : s.timeBegin with
      | none =>
        rw [afterToken, appendToken, appendItem_literals hitems hb]
        simp only [Construction.addItem, pending, hb, Option.map_none, compile, hl, if_false, hzero,
          List.append_assoc, List.cons_append, List.nil_append]
      | some b =>
        obtain ⟨hrun, -, -⟩ := range_specifier (h.begin_le b hb) hdrop
        rw [afterToken, appendToken, appendItem_run hitems hb]
        simp only [pending, hb, Option.map_none, Option.map_some, compile, hl, if_false, hrun, List.append_assoc,
          List.cons_append, List.nil_append]

theorem finish_eq (h : Valid format s) (hne : format ≠ []) :
    finish format s = s.items ++ compile (pending format s) (format.drop s.prev) [] := by
  have hprev := h.prev_le
  have hpos : 0 < format.length := List.length_pos_iff.mpr hne
  have hlen : (format.drop s.prev).length = format.length - s.prev := List.length_drop
  have hend : s.prev + (format.drop s.prev).length = format.length := by omega
  have hself : format.drop s.prev = format.drop s.prev ++ [] := (List.append_nil _).symm
  obtain ⟨timeBegin, prev, items⟩ := s
  dsimp only at hprev hlen hend hself
  cases timeBegin with
  | some b =>
    have hrun := range_append (h.begin_le b rfl) hself
    rw [hend] at hrun
    simp only [finish, Construction.addItem, pending, Option.map_some, compile, hrun]
  | none =>
    have hrest := range_append (le_refl prev) hself
    rw [hend, range_self, List.nil_append] at hrest
    have hlast : prev < minusOne format.length ↔ 1 < (format.drop prev).length := by
      rw [minusOne, if_neg (by omega)]
      omega
    simp only [finish, Construction.addItem, pending, Option.map_none, compile, hrest, hlast]
    split
    · rfl
    · exact (List.append_nil _).symm

end Step

theorem constructLoop_spec {format : List Char} (hne : format ≠ []) (turns : ℕ) {s : Construction}
    (h : Valid format s) (hturns : format.length - s.prev < turns) :
    match scan (format.drop s.prev) with
    | none => constructLoop format turns s = .error (.throws formatError)
    | some ts => ∃ s', constructLoop format turns s = .ok s' ∧
        finish format s' = s.items ++ compile (pending format s) [] ts := by
  induction turns generalizing s with
  | zero => exact absurd hturns (Nat.not_lt_zero _)
  | succ turns ih =>
    rw [constructLoop]
    cases hfind : find format '%' s.prev with
    | none =>
      obtain ⟨ls, hls⟩ := exists_literals (find_none hfind)
      have hscan : scan (format.drop s.prev) = some (literals ls ++ []) := by
        have hlits := scan_literals ls []
        rw [List.append_nil] at hlits
        rw [hls, hlits]
        rfl
      rw [hscan]
      refine ⟨s, rfl, ?_⟩
      rw [finish_eq h hne, compile_literals, List.nil_append, hls]
    | some index =>
      obtain ⟨l, r, hdrop, hl, rfl⟩ := find_some hfind
      obtain ⟨ls, rfl⟩ := exists_literals hl
      have hlen := congrArg List.length hdrop
      rw [List.length_drop, List.length_append, List.length_cons] at hlen
      have hguard : s.prev ≤ minusOne format.length := by
        rw [minusOne, if_neg (by omega)]
        omega
      dsimp only
      rw [if_pos hguard, hdrop, scan_literals]
      cases r with
      | nil =>
        have hlast : minusOne format.length ≤ s.prev + (chars ls).length := by
          rw [minusOne, if_neg (by omega)]
          rw [List.length_nil] at hlen
          omega
        rw [specifier, if_pos hlast]
        rfl
      | cons x r =>
        have hget : format[s.prev + (chars ls).length + 1]? = some x := by
          rw [Nat.add_assoc, ← List.getElem?_drop, hdrop, List.getElem?_append_right (by omega),
            Nat.add_sub_cancel_left]
          rfl
        rw [specifier_eq hget, scan_specified]
        cases ht : specified x with
        | none => rfl
        | some t =>
          have hrest := ih (h.afterToken hdrop t)
            (show format.length - (s.prev + (chars ls).length + 2) < turns by omega)
          have hdrop2 : format.drop (s.prev + (chars ls).length + 2) = r := by
            rw [Nat.add_assoc, ← List.drop_drop, hdrop, List.drop_append]
            have hn : (chars ls).length + 2 - (chars ls).length = 2 := by omega
            rw [List.drop_of_length_le (by omega), hn]
            rfl
          have hprev : (afterToken format s (chars ls) t).prev = s.prev + (chars ls).length + 2 := rfl
          rw [hprev, hdrop2] at hrest
          cases hscan : scan r with
          | none =>
            rw [hscan] at hrest
            exact hrest
          | some ts =>
            rw [hscan] at hrest
            obtain ⟨s', hloop, hfinish⟩ := hrest
            refine ⟨s', hloop, ?_⟩
            rw [hfinish, compile_step h hdrop ht, compile_literals, List.nil_append]

/-- FormatError is thrown for the formats that have no tokens. -/
theorem construct_spec (format : List Char) :
    match scan format with
    | none => construct format = .error (.throws formatError)
    | some ts => ∃ items, construct format = .ok (.temp :: items) ∧
        (items = compile none [] ts ∨ format = [] ∧ items = [.str []]) := by
  by_cases hne : format = []
  · subst hne
    exact ⟨[.str []], rfl, .inr ⟨rfl, rfl⟩⟩
  · have hv : Valid format {} := ⟨Nat.zero_le _, fun timeBegin hb => by cases hb⟩
    have hloop := constructLoop_spec hne (format.length + 1) hv (show format.length - 0 < _ by omega)
    rw [List.drop_zero] at hloop
    cases hscan : scan format with
    | none =>
      rw [hscan] at hloop
      rw [construct, hloop]
      rfl
    | some ts =>
      rw [hscan] at hloop
      obtain ⟨s', hloop, hfinish⟩ := hloop
      refine ⟨compile none [] ts, ?_, .inl rfl⟩
      rw [construct, hloop, Exec.ok_bind, hfinish]
      rfl

theorem construct_throws_iff (format : List Char) :
    construct format = .error (.throws formatError) ↔ scan format = none := by
  have hspec := construct_spec format
  cases hscan : scan format with
  | none =>
    rw [hscan] at hspec
    exact ⟨fun _ => rfl, fun _ => hspec⟩
  | some ts =>
    rw [hscan] at hspec
    obtain ⟨items, hok, -⟩ := hspec
    rw [hok]
    constructor
    · intro h
      cases h
    · intro h
      cases h

end DeftRpc.Log
