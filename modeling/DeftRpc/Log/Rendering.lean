import DeftRpc.Log.Strftime

/-!
# What a formatter writes

The format falls into segments of literals and time specifiers, with the other
specifiers between them. The constructor makes one strftime format of a segment with a
time specifier, unless the next specifier stands in its way.
-/

namespace DeftRpc.Log
open DeftRpc.Foundation

variable {Tm : Type}

/-! ### The text that a format stands for -/

def Field.text (record : LogRecord) : Field → List Char
  | .line => decimal record.mLine.toNat
  | .message => record.mMessage
  | .fileName => record.mFile
  | .threadId => decimal record.mPid.toNat
  | .logLevelName => (logLevelToString record.mLevel).toList
  | .loggerName => record.mLogger

section Expected
variable (conv : Conversion → Tm → List Char)

def Token.rendered (lib : TimeLib Tm) (record : LogRecord) : Token → List Char
  | .piece p => p.expand conv (lib.localtimeR record.mTime)
  | .percent => ['%']
  | .field f => f.text record

def rendered (lib : TimeLib Tm) (record : LogRecord) (ts : List Token) : List Char :=
  ts.flatMap (Token.rendered conv lib record) ++ ['\n']

/-! ### The formats that are rendered right -/

def HasTime (seg : List Piece) : Prop := ∃ x, Piece.time x ∈ seg

def EndsLiteral (seg : List Piece) : Prop := ∃ seg' c, seg = seg' ++ [.literal c]

/-- At every time the segment fits the buffer of 64 chars, and it is a C string. -/
def Fits (lib : TimeLib Tm) (seg : List Piece) : Prop :=
  '\x00' ∉ text seg ∧ ∀ time, (expand conv (lib.localtimeR time) seg).length < 64

/-- `seg` is the segment so far. No second percent sign follows a segment with a time
specifier, a field specifier follows it after a literal only, and the last segment is not one
literal. -/
def Good (lib : TimeLib Tm) : List Piece → List Token → Prop
  | seg, [] => (HasTime seg → Fits conv lib seg) ∧ (¬ HasTime seg → seg.length ≠ 1)
  | seg, .piece p :: ts => Good lib (seg ++ [p]) ts
  | seg, .percent :: ts => ¬ HasTime seg ∧ Good lib [] ts
  | seg, .field _ :: ts => (HasTime seg → EndsLiteral seg ∧ Fits conv lib seg) ∧ Good lib [] ts

end Expected

/-! ### Segments -/

/-- How far the constructor has read the segment. -/
inductive Reads : List Piece → Option (List Char) → List Char → Prop
  | plain (ls : List Literal) : Reads (ls.map .literal) none (chars ls)
  | timed (seg : List Piece) (x : Conversion) (ls : List Literal) :
    Reads (seg ++ .time x :: ls.map .literal) (some (text seg ++ ['%', x.char])) (chars ls)

section Segments
variable {seg : List Piece} {run : Option (List Char)} {txt : List Char}

theorem Reads.text_eq (h : Reads seg run txt) : run.getD [] ++ txt = text seg := by
  cases h with
  | plain ls => rw [text_literals, Option.getD_none, List.nil_append]
  | timed seg x ls =>
    rw [text_append, Option.getD_some, List.append_assoc, text_cons, text_literals]
    rfl

theorem Reads.literal (h : Reads seg run txt) (c : Literal) :
    Reads (seg ++ [.literal c]) run (txt ++ [c.1]) := by
  cases h with
  | plain ls =>
    have hplain := Reads.plain (ls ++ [c])
    rw [List.map_append, chars, List.map_append] at hplain
    exact hplain
  | timed seg x ls =>
    have htimed := Reads.timed seg x (ls ++ [c])
    rw [List.map_append, chars, List.map_append] at htimed
    rw [List.append_assoc]
    exact htimed

theorem Reads.time (h : Reads seg run txt) (x : Conversion) :
    Reads (seg ++ [.time x]) (some (run.getD [] ++ txt ++ ['%', x.char])) [] := by
  rw [h.text_eq]
  exact .timed seg x []

theorem not_hasTime_literals (ls : List Literal) : ¬ HasTime (ls.map .literal) := by
  rintro ⟨x, hx⟩
  obtain ⟨c, -, hc⟩ := List.mem_map.mp hx
  cases hc

theorem hasTime_timed (seg : List Piece) (x : Conversion) (ls : List Literal) :
    HasTime (seg ++ .time x :: ls.map .literal) :=
  ⟨x, List.mem_append_right seg List.mem_cons_self⟩

theorem endsLiteral_timed_iff (seg : List Piece) (x : Conversion) (ls : List Literal) :
    EndsLiteral (seg ++ .time x :: ls.map .literal) ↔ ls ≠ [] := by
  constructor
  · rintro ⟨seg', c, heq⟩ rfl
    have hlast := congrArg List.getLast? heq
    rw [List.map_nil, List.getLast?_append, List.getLast?_append] at hlast
    cases hlast
  · intro hne
    obtain ⟨ls', c, rfl⟩ := (List.eq_nil_or_concat' ls).resolve_left hne
    refine ⟨seg ++ .time x :: ls'.map .literal, c, ?_⟩
    rw [List.map_append, List.append_assoc]
    rfl

end Segments

/-! ### Outputs -/

section Outputs
variable {conv : Conversion → Tm → List Char} {lib : TimeLib Tm} {record : LogRecord}
  {item : FormatterItem} {items : List FormatterItem} {seg : List Piece} {v out : List Char}

theorem formatRecord_cons (hitem : item.format lib record = .ok v) :
    formatRecord lib record (item :: items) = .ok (v ++ out) ↔ formatRecord lib record items = .ok out := by
  rw [formatRecord, hitem, Exec.ok_bind]
  cases formatRecord lib record items with
  | error e =>
    constructor
    · intro h
      cases h
    · intro h
      cases h
  | ok rest =>
    rw [Exec.ok_bind, Exec.pure_eq_ok, Except.ok.injEq, Except.ok.injEq, List.append_cancel_left_eq]

theorem formatRecord_prefix (hitem : item.format lib record = .ok v)
    (h : formatRecord lib record (item :: items) = .ok out) :
    ∃ rest, formatRecord lib record items = .ok rest ∧ out = v ++ rest := by
  rw [formatRecord, hitem, Exec.ok_bind] at h
  obtain ⟨rest, hrest, hout⟩ := Exec.bind_eq_ok h
  cases hout
  exact ⟨rest, hrest, rfl⟩

theorem Field.item_format (f : Field) : f.item.format lib record = .ok (f.text record) := by
  cases f <;> rfl

theorem rendered_cons (t : Token) (ts : List Token) :
    rendered conv lib record (t :: ts) = t.rendered conv lib record ++ rendered conv lib record ts := by
  rw [rendered, rendered, List.flatMap_cons, List.append_assoc]

/-- A record with two initials in its fields. -/
def probe (time : Int64) (digit : Char) (number : ℕ) (level : LogLevel) : LogRecord :=
  ⟨[digit], time, [digit], .ofNat number, level, .ofNat number, [digit]⟩

theorem probe_one (f : Field) (time : Int64) :
    ∃ d ds, f.text (probe time '1' 1 .debug) = d :: ds ∧ (d = '1' ∨ d = 'D') := by
  have hnumber : decimal 1 = ['1'] := Nat.toDigits_of_lt_base (by decide)
  have hlevel : (logLevelToString .debug).toList = ['D', 'e', 'b', 'u', 'g'] := by decide
  cases f
  case line | threadId => exact ⟨'1', [], hnumber, .inl rfl⟩
  case logLevelName => exact ⟨'D', _, hlevel, .inr rfl⟩
  all_goals exact ⟨'1', [], rfl, .inl rfl⟩

theorem probe_two (f : Field) (time : Int64) :
    ∃ d ds, f.text (probe time '2' 2 .fatal) = d :: ds ∧ (d = '2' ∨ d = 'F') := by
  have hnumber : decimal 2 = ['2'] := Nat.toDigits_of_lt_base (by decide)
  have hlevel : (logLevelToString .fatal).toList = ['F', 'a', 't', 'a', 'l'] := by decide
  cases f
  case line | threadId => exact ⟨'2', [], hnumber, .inl rfl⟩
  case logLevelName => exact ⟨'F', _, hlevel, .inr rfl⟩
  all_goals exact ⟨'2', [], rfl, .inl rfl⟩

theorem exists_record (f : Field) (c : Char) (time : Int64) :
    ∃ record : LogRecord, record.mTime = time ∧ ∃ d ds, f.text record = d :: ds ∧ d ≠ c := by
  obtain ⟨d, ds, htext, hd⟩ := probe_one f time
  obtain ⟨d', ds', htext', hd'⟩ := probe_two f time
  have hne : d ≠ d' := by
    rcases hd with rfl | rfl <;> rcases hd' with rfl | rfl <;> decide
  by_cases hc : d = c
  · exact ⟨probe time '2' 2 .fatal, rfl, d', ds', htext', fun hc' => hne (hc.trans hc'.symm)⟩
  · exact ⟨probe time '1' 1 .debug, rfl, d, ds, htext, hc⟩

/-! ### Time runs -/

/-- The text of a segment is not what it stands for. -/
theorem text_ne_expand (hd : lib.Documented conv) (tm : Tm) (h : HasTime seg) (u w : List Char) :
    text seg ++ u ≠ expand conv tm seg ++ w := by
  induction seg with
  | nil =>
    obtain ⟨x, hx⟩ := h
    exact absurd hx List.not_mem_nil
  | cons p seg ih =>
    rw [text_cons, expand_cons, List.append_assoc, List.append_assoc]
    cases p with
    | literal c =>
      obtain ⟨x, hx⟩ := h
      have hx' : Piece.time x ∈ seg := by
        rcases List.mem_cons.mp hx with heq | hx
        · cases heq
        · exact hx
      exact fun heq => ih ⟨x, hx'⟩ (List.cons.inj heq).2
    | time x =>
      obtain ⟨hne, hpercent⟩ := hd.numeral x tm
      intro heq
      cases hconv : conv x tm with
      | nil => exact hne hconv
      | cons d ds =>
        rw [Piece.expand, hconv] at heq
        rw [hconv] at hpercent
        exact hpercent (by rw [← (List.cons.inj heq).1]; exact List.mem_cons_self)

theorem expand_ne_nil (hd : lib.Documented conv) (tm : Tm) (h : HasTime seg) : expand conv tm seg ≠ [] := by
  obtain ⟨x, hx⟩ := h
  obtain ⟨s, t, rfl⟩ := List.append_of_mem hx
  rw [expand_append, expand_cons]
  intro hnil
  have hconv := (List.append_eq_nil_iff.mp (List.append_eq_nil_iff.mp hnil).2).1
  exact (hd.numeral x tm).1 hconv

theorem time_format_of_fits (hd : lib.Documented conv) (h : Fits conv lib seg) :
    (FormatterItem.time (text seg)).format lib record =
      .ok (expand conv (lib.localtimeR record.mTime) seg) := by
  have hlen := h.2 record.mTime
  rw [FormatterItem.format, cStr_self h.1, hd.fits seg 64 _ h.1 hlen]

theorem exists_terminator (h : '\x00' ∈ text seg) :
    ∃ seg1 c seg2, seg = seg1 ++ .literal c :: seg2 ∧ c.1 = '\x00' ∧ '\x00' ∉ text seg1 := by
  induction seg with
  | nil => exact absurd h List.not_mem_nil
  | cons p seg ih =>
    by_cases hp : '\x00' ∈ p.text
    · cases p with
      | literal c => exact ⟨[], c, seg, rfl, (List.mem_singleton.mp hp).symm, List.not_mem_nil⟩
      | time x =>
        cases x <;> exact absurd hp (by decide)
    · rw [text_cons] at h
      obtain ⟨seg1, c, seg2, rfl, hc, hseg1⟩ := ih ((List.mem_append.mp h).resolve_left hp)
      refine ⟨p :: seg1, c, seg2, rfl, hc, fun hmem => ?_⟩
      rw [text_cons] at hmem
      rcases List.mem_append.mp hmem with hmem | hmem
      · exact hp hmem
      · exact hseg1 hmem

theorem cStr_terminator {seg1 seg2 : List Piece} {c : Literal} (hc : c.1 = '\x00') (h : '\x00' ∉ text seg1) :
    cStr (text (seg1 ++ .literal c :: seg2)) = text seg1 := by
  have hend : cStr (text (.literal c :: seg2)) = [] := by
    rw [text_cons, Piece.text, hc]
    rfl
  rw [text_append, cStr_append h, hend, List.append_nil]

/-- When a segment with a terminator looks right, what comes next begins with it. -/
theorem next_of_terminator (hd : lib.Documented conv) (h : '\x00' ∈ text seg)
    (hout : formatRecord lib record (.time (text seg) :: items) =
      .ok (expand conv (lib.localtimeR record.mTime) seg ++ out)) :
    ∃ rest, formatRecord lib record items = .ok ('\x00' :: rest) := by
  obtain ⟨seg1, c, seg2, rfl, hc, hseg1⟩ := exists_terminator h
  by_cases hlen : (expand conv (lib.localtimeR record.mTime) seg1).length < 64
  · have hitem : (FormatterItem.time (text (seg1 ++ .literal c :: seg2))).format lib record =
        .ok (expand conv (lib.localtimeR record.mTime) seg1) := by
      rw [FormatterItem.format, cStr_terminator hc hseg1, hd.fits seg1 64 _ hseg1 hlen]
    obtain ⟨rest, hrest, heq⟩ := formatRecord_prefix hitem hout
    rw [expand_append, expand_cons, List.append_assoc, List.append_cancel_left_eq, Piece.expand, hc] at heq
    exact ⟨_, hrest.trans (congrArg Except.ok heq.symm)⟩
  · have hitem : (FormatterItem.time (text (seg1 ++ .literal c :: seg2))).format lib record =
        .error .outOfRange := by
      rw [FormatterItem.format, cStr_terminator hc hseg1, hd.overflows seg1 64 _ hseg1 (not_lt.mp hlen)]
    rw [formatRecord, hitem] at hout
    cases hout

theorem fits_of_renders (hd : lib.Documented conv) (next : LogRecord → List Char)
    (hout : ∀ record, formatRecord lib record (.time (text seg) :: items) =
      .ok (expand conv (lib.localtimeR record.mTime) seg ++ next record))
    (hnext : ∃ record, ∀ rest, formatRecord lib record items ≠ .ok ('\x00' :: rest)) : Fits conv lib seg := by
  have hterm : '\x00' ∉ text seg := by
    intro hmem
    obtain ⟨record, hne⟩ := hnext
    obtain ⟨rest, hrest⟩ := next_of_terminator hd hmem (hout record)
    exact hne rest hrest
  refine ⟨hterm, fun time => ?_⟩
  by_contra hlen
  obtain ⟨record, rfl, -⟩ := exists_record .line 'x' time
  have hitem : (FormatterItem.time (text seg)).format lib record = .error .outOfRange := by
    rw [FormatterItem.format, cStr_self hterm, hd.overflows seg 64 _ hterm (not_lt.mp hlen)]
  have hok := hout record
  rw [formatRecord, hitem] at hok
  cases hok

/-! ### Which formats are rendered right -/

/-- For every record, the items of the rest of the format are right. -/
def Right (conv : Conversion → Tm → List Char) (lib : TimeLib Tm) (seg : List Piece)
    (items : List FormatterItem) (ts : List Token) : Prop :=
  ∀ record, formatRecord lib record items =
    .ok (expand conv (lib.localtimeR record.mTime) seg ++ rendered conv lib record ts)

variable {run : Option (List Char)} {txt : List Char} {ts : List Token}

theorem right_piece (p : Piece) :
    Right conv lib seg items (.piece p :: ts) ↔ Right conv lib (seg ++ [p]) items ts := by
  refine forall_congr' fun record => ?_
  rw [rendered_cons, expand_append, expand_singleton, List.append_assoc]
  rfl

theorem right_field (f : Field) : Right conv lib [] (f.item :: items) (.field f :: ts) ↔ Right conv lib [] items ts := by
  refine forall_congr' fun record => ?_
  rw [rendered_cons]
  exact formatRecord_cons f.item_format

theorem right_str (ls : List Literal) :
    Right conv lib (ls.map .literal) (.str (chars ls) :: items) ts ↔ Right conv lib [] items ts := by
  refine forall_congr' fun record => ?_
  rw [expand_literals]
  exact formatRecord_cons rfl

theorem right_percent (ls : List Literal) :
    Right conv lib (ls.map .literal) (.str (chars ls ++ ['%']) :: items) (.percent :: ts) ↔
      Right conv lib [] items ts := by
  refine forall_congr' fun record => ?_
  rw [expand_literals, rendered_cons, ← List.append_assoc]
  exact formatRecord_cons rfl

theorem right_time (hd : lib.Documented conv)
    (hnext : ∃ record, ∀ rest, formatRecord lib record items ≠ .ok ('\x00' :: rest)) :
    Right conv lib seg (.time (text seg) :: items) ts ↔ Fits conv lib seg ∧ Right conv lib [] items ts := by
  constructor
  · intro hright
    have hfits : Fits conv lib seg := fits_of_renders hd _ hright hnext
    exact ⟨hfits, fun record => (formatRecord_cons (time_format_of_fits hd hfits)).mp (hright record)⟩
  · rintro ⟨hfits, hright⟩ record
    exact (formatRecord_cons (time_format_of_fits hd hfits)).mpr (hright record)

theorem next_newline : ∃ record, ∀ rest, formatRecord lib record [] ≠ .ok ('\x00' :: rest) := by
  refine ⟨probe 0 '1' 1 .debug, fun rest h => ?_⟩
  cases h

theorem next_field (f : Field) :
    ∃ record, ∀ rest, formatRecord lib record (f.item :: items) ≠ .ok ('\x00' :: rest) := by
  obtain ⟨record, -, d, ds, htext, hne⟩ := exists_record f '\x00' 0
  refine ⟨record, fun rest h => ?_⟩
  obtain ⟨rest', -, heq⟩ := formatRecord_prefix f.item_format h
  rw [htext] at heq
  exact hne (List.cons.inj heq).1.symm

theorem right_newline : Right conv lib [] [] [] := fun _ => rfl

theorem not_right_percent (hd : lib.Documented conv) (h : HasTime seg) :
    ¬ Right conv lib seg (.str (text seg ++ ['%']) :: items) ts := by
  intro hright
  obtain ⟨rest, -, heq⟩ := formatRecord_prefix rfl (hright (probe 0 '1' 1 .debug))
  rw [List.append_assoc] at heq
  exact text_ne_expand hd _ h _ _ heq.symm

/-- The field is written before the time run that it follows. -/
theorem not_right_field (hd : lib.Documented conv) (h : HasTime seg) (f : Field) :
    ¬ Right conv lib seg (f.item :: items) ts := by
  intro hright
  cases hexp : expand conv (lib.localtimeR 0) seg with
  | nil => exact expand_ne_nil hd _ h hexp
  | cons c cs =>
    obtain ⟨record, htime, d, ds, htext, hne⟩ := exists_record f c 0
    obtain ⟨rest, -, heq⟩ := formatRecord_prefix f.item_format (hright record)
    rw [htime, hexp, htext] at heq
    exact hne (List.cons.inj heq).1.symm

theorem right_literals (ls : List Literal) :
    Right conv lib (ls.map .literal) (compile none (chars ls) []) [] ↔ ls.length ≠ 1 := by
  have hlen : (chars ls).length = ls.length := List.length_map _
  rw [compile]
  by_cases hlong : 1 < (chars ls).length
  · rw [if_pos hlong, right_str]
    exact ⟨fun _ => by omega, fun _ => right_newline⟩
  · rw [if_neg hlong]
    constructor
    · intro hright hone
      have hout := hright (probe 0 '1' 1 .debug)
      rw [expand_literals, formatRecord, Except.ok.injEq] at hout
      have hcount := congrArg List.length hout
      rw [List.length_append, hlen, hone] at hcount
      cases hcount
    · intro hne
      have hnil : ls = [] := List.length_eq_zero_iff.mp (by omega)
      subst hnil
      exact right_newline

/-- The items that the constructor makes of what follows a segment are right exactly when the
format is good from there on. -/
theorem right_iff_good (hd : lib.Documented conv) (ts : List Token) (h : Reads seg run txt) :
    Right conv lib seg (compile run txt ts) ts ↔ Good conv lib seg ts := by
  induction ts generalizing seg run txt with
  | nil =>
    rw [Good]
    cases h with
    | plain ls =>
      rw [right_literals, List.length_map]
      exact ⟨fun hne => ⟨fun ht => absurd ht (not_hasTime_literals ls), fun _ => hne⟩,
        fun hgood => hgood.2 (not_hasTime_literals ls)⟩
    | timed seg x ls =>
      have htext := (Reads.timed seg x ls).text_eq
      have htime := hasTime_timed seg x ls
      rw [Option.getD_some] at htext
      rw [compile, htext, right_time hd next_newline]
      exact ⟨fun hr => ⟨fun _ => hr.1, fun hn => absurd htime hn⟩, fun hgood => ⟨hgood.1 htime, right_newline⟩⟩
  | cons t ts ih =>
    have hrest : Right conv lib [] (compile none [] ts) ts ↔ Good conv lib [] ts := ih (.plain [])
    cases t with
    | piece p =>
      rw [right_piece, Good]
      cases p with
      | literal c =>
        rw [compile]
        exact ih (h.literal c)
      | time x =>
        rw [compile]
        exact ih (h.time x)
    | percent =>
      rw [compile, h.text_eq, Good]
      cases h with
      | plain ls =>
        rw [text_literals, right_percent, hrest]
        exact (and_iff_right (not_hasTime_literals ls)).symm
      | timed seg x ls =>
        have htime := hasTime_timed seg x ls
        exact ⟨fun hr => absurd hr (not_right_percent hd htime), fun hgood => absurd htime hgood.1⟩
    | field f =>
      rw [Good]
      cases h with
      | plain ls =>
        have hplain := not_hasTime_literals ls
        rw [and_iff_right (fun ht => absurd ht hplain), ← hrest, compile]
        by_cases hls : chars ls = []
        · have hnil : ls = [] := List.map_eq_nil_iff.mp hls
          subst hnil
          exact right_field f
        · rw [if_neg hls, right_str, right_field]
      | timed seg x ls =>
        have htext := (Reads.timed seg x ls).text_eq
        have htime := hasTime_timed seg x ls
        rw [Option.getD_some] at htext
        rw [imp_iff_right htime, endsLiteral_timed_iff, compile, htext, ← hrest]
        by_cases hls : chars ls = []
        · have hnil : ls = [] := List.map_eq_nil_iff.mp hls
          rw [if_pos hls]
          exact ⟨fun hr => absurd hr (not_right_field hd htime f), fun hgood => absurd hnil hgood.1.1⟩
        · have hne : ls ≠ [] := fun hnil => hls (by rw [hnil]; rfl)
          rw [if_neg hls, right_time hd (next_field f), right_field, and_iff_right hne]

/-! ### LogFormatter -/

/-- FormatError for the formats that have no tokens, and the text of the tokens for the others. -/
def Renders (conv : Conversion → Tm → List Char) (lib : TimeLib Tm) (format : List Char) : Prop :=
  (construct format = .error (.throws formatError) ↔ scan format = none) ∧
    ∀ ts, scan format = some ts → ∃ items, construct format = .ok items ∧
      ∀ record, formatRecord lib record items = .ok (rendered conv lib record ts)

theorem formats_iff_right {format : List Char} (hscan : scan format = some ts) :
    (∃ items, construct format = .ok items ∧
        ∀ record, formatRecord lib record items = .ok (rendered conv lib record ts)) ↔
      Right conv lib [] (compile none [] ts) ts := by
  have hspec := construct_spec format
  rw [hscan] at hspec
  obtain ⟨items, hok, hitems⟩ := hspec
  have htemp : ∀ record out, formatRecord lib record (.temp :: items) = .ok out ↔
      formatRecord lib record items = .ok out := fun record out => formatRecord_cons (v := []) rfl
  have hcompile : ∀ record, formatRecord lib record items =
      formatRecord lib record (compile none [] ts) := by
    intro record
    rcases hitems with rfl | ⟨rfl, rfl⟩
    · rfl
    · cases hscan
      rfl
  constructor
  · rintro ⟨items', hok', hout⟩ record
    rw [hok] at hok'
    cases hok'
    rw [← hcompile]
    exact (htemp record _).mp (hout record)
  · intro hright
    refine ⟨.temp :: items, hok, fun record => (htemp record _).mpr ?_⟩
    rw [hcompile]
    exact hright record

/-- LogFormatter throws FormatError as it should, and renders a format right exactly when the format
is good. -/
theorem renders_iff (hd : lib.Documented conv) (format : List Char) :
    Renders conv lib format ↔ ∀ ts, scan format = some ts → Good conv lib [] ts := by
  have hright : ∀ ts, scan format = some ts →
      ((∃ items, construct format = .ok items ∧
          ∀ record, formatRecord lib record items = .ok (rendered conv lib record ts)) ↔
        Good conv lib [] ts) := by
    intro ts hscan
    rw [formats_iff_right hscan]
    exact right_iff_good hd ts (.plain [])
  constructor
  · intro h ts hscan
    exact (hright ts hscan).mp (h.2 ts hscan)
  · intro h
    exact ⟨construct_throws_iff format, fun ts hscan => (hright ts hscan).mpr (h ts hscan)⟩

end Outputs

/-! ### The pattern of the README -/

/-- The segment with the time, from a bracket to an angle bracket. -/
def readmeTime : List Piece :=
  [.literal ⟨']', by decide⟩, .literal ⟨' ', by decide⟩, .time .year, .literal ⟨'-', by decide⟩, .time .month,
    .literal ⟨'-', by decide⟩, .time .day, .literal ⟨' ', by decide⟩, .time .hour, .literal ⟨':', by decide⟩,
    .time .minute, .literal ⟨':', by decide⟩, .time .second, .literal ⟨':', by decide⟩, .literal ⟨'<', by decide⟩]

def readme : List Token :=
  .piece (.literal ⟨'[', by decide⟩) :: .field .threadId :: readmeTime.map .piece ++
    [.field .fileName, .piece (.literal ⟨':', by decide⟩), .field .line, .piece (.literal ⟨'>', by decide⟩),
      .piece (.literal ⟨' ', by decide⟩), .piece (.literal ⟨'[', by decide⟩), .field .logLevelName,
      .piece (.literal ⟨']', by decide⟩), .piece (.literal ⟨' ', by decide⟩), .field .message]

theorem readme_text : readme.flatMap Token.text = "[%t] %Y-%m-%d %H:%M:%S:<%f:%n> [%l] %s".toList := by decide

theorem readmeTime_fits : Fits utcConv utcLib readmeTime :=
  ⟨by decide, fun _ => lt_of_le_of_lt (utc_expand_length _ _) (by decide)⟩

theorem readme_good : Good utcConv utcLib [] readme := by
  have hplain : ∀ ls : List Literal, HasTime (ls.map .literal) →
      EndsLiteral (ls.map .literal) ∧ Fits utcConv utcLib (ls.map .literal) :=
    fun ls ht => absurd ht (not_hasTime_literals ls)
  have htime : HasTime readmeTime → EndsLiteral readmeTime ∧ Fits utcConv utcLib readmeTime :=
    fun _ => ⟨⟨readmeTime.dropLast, ⟨'<', by decide⟩, rfl⟩, readmeTime_fits⟩
  have hlast : (HasTime [] → Fits utcConv utcLib []) ∧ (¬ HasTime [] → ([] : List Piece).length ≠ 1) :=
    ⟨fun ht => absurd ht (not_hasTime_literals []), fun _ => by decide⟩
  exact ⟨hplain [⟨'[', by decide⟩], htime, hplain [⟨':', by decide⟩],
    hplain [⟨'>', by decide⟩, ⟨' ', by decide⟩, ⟨'[', by decide⟩], hplain [⟨']', by decide⟩, ⟨' ', by decide⟩], hlast⟩

theorem renders_iff_readme : Renders utcConv utcLib "[%t] %Y-%m-%d %H:%M:%S:<%f:%n> [%l] %s".toList := by
  refine (renders_iff utc_documented _).mpr fun ts hscan => ?_
  rw [← readme_text, scan_text] at hscan
  cases hscan
  exact readme_good

/-- A last literal is dropped, a time specifier before a second percent sign is copied, and one
before a field specifier comes too late. -/
theorem not_renders :
    ¬ Renders utcConv utcLib ['%', 's', '.'] ∧ ¬ Renders utcConv utcLib ['%', 'H', '%', '%'] ∧
      ¬ Renders utcConv utcLib ['%', 'H', '%', 's'] := by
  have hlast : construct ['%', 's', '.'] = .ok [.temp, .message] := rfl
  have hpercent : construct ['%', 'H', '%', '%'] = .ok [.temp, .str ['%', 'H', '%']] := rfl
  have hfield : construct ['%', 'H', '%', 's'] = .ok [.temp, .message, .time ['%', 'H', '%', 's']] := rfl
  refine ⟨fun h => ?_, fun h => ?_, fun h => ?_⟩
  · obtain ⟨items, hok, hout⟩ := h.2 [.field .message, .piece (.literal ⟨'.', by decide⟩)] rfl
    rw [hlast] at hok
    cases hok
    exact absurd (hout (probe 0 '1' 1 .debug)) (by decide)
  · obtain ⟨items, hok, hout⟩ := h.2 [.piece (.time .hour), .percent] rfl
    rw [hpercent] at hok
    cases hok
    exact absurd (hout (probe 0 '1' 1 .debug)) (by decide)
  · obtain ⟨items, hok, hout⟩ := h.2 [.piece (.time .hour), .field .message] rfl
    rw [hfield] at hok
    cases hok
    exact absurd (hout (probe 0 '1' 1 .debug)) (by decide)

end DeftRpc.Log
