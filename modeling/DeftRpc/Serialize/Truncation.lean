import DeftRpc.Serialize.StringDeSerialize

/-!
# Input that ends the process

`skip` tells where the image of a value ends, `NoCut` that nothing goes wrong in the input
of a `noexcept` function. Structs, which have member functions of their own, are left out.
-/

namespace DeftRpc.Serialize
open DeftRpc.Foundation

mutual

def plain : Ty → Bool
  | .arith _ => true
  | .string => true
  | .tuple elems => plainAll elems
  | .unique pointee => plain pointee
  | .shared pointee => plain pointee
  | .struct _ => false

def plainAll : List Ty → Bool
  | [] => true
  | ty :: tys => plain ty && plainAll tys

end

mutual

/-- What follows the image of a value of the type. -/
def skip : Ty → List Byte → Option (List Byte)
  | .arith width, bs => if bs.length < width then none else some (bs.drop width)
  | .string, bs =>
    if bs.length < 8 then none
    else if stringMaxSize < leVal (bs.take 8) ∨ (bs.drop 8).length < leVal (bs.take 8) then none
    else some ((bs.drop 8).drop (leVal (bs.take 8)))
  | .tuple elems, bs =>
    if bs.length < 8 then none
    else if leVal (bs.take 8) ≠ elems.length then none
    else skipAll elems (bs.drop 8)
  | .unique pointee, bs =>
    if bs.length < 2 then none
    else if leVal (bs.take 2) ≠ 0 then skip pointee (bs.drop 2)
    else some (bs.drop 2)
  | .shared pointee, bs =>
    if bs.length < 8 then none
    else if leVal (bs.take 8) &&& ptrIdMask ≠ 0 then skip pointee (bs.drop 8)
    else some (bs.drop 8)
  | .struct _, _ => none

def skipAll : List Ty → List Byte → Option (List Byte)
  | [], bs => some bs
  | ty :: tys, bs =>
    match skip ty bs with
    | none => none
    | some rest => skipAll tys rest

end

section Cut
variable (info : TypeInfo)

mutual

/-- The size tags are complete as far as they are read, and so is every pointee whose constructor is
`noexcept`. -/
def NoCut : Ty → List Byte → Prop
  | .arith _, _ => True
  | .string, bs => 8 ≤ bs.length
  | .tuple elems, bs =>
    8 ≤ bs.length ∧ (leVal (bs.take 8) = elems.length → NoCutAll elems (bs.drop 8))
  | .unique pointee, bs =>
    2 ≤ bs.length ∧ (leVal (bs.take 2) ≠ 0 →
      if info.nothrow pointee then (skip pointee (bs.drop 2)).isSome
      else NoCut pointee (bs.drop 2))
  | .shared pointee, bs =>
    8 ≤ bs.length ∧ (leVal (bs.take 8) &&& ptrIdMask ≠ 0 →
      if info.nothrow pointee then (skip pointee (bs.drop 8)).isSome
      else NoCut pointee (bs.drop 8))
  | .struct _, _ => False

def NoCutAll : List Ty → List Byte → Prop
  | [], _ => True
  | ty :: tys, bs => NoCut ty bs ∧ ∀ rest ∈ skip ty bs, NoCutAll tys rest

end

end Cut

/-! ### The outcome of a decoder -/

/-- The decoder ends behind the image if there is one, else an exception leaves it or meets a
`noexcept` function. -/
inductive Agrees {α : Type} : Except Failure (α × StringDeSerialize) → Option (List Byte) → Prop → Prop where
  | value (a : α) (s : StringDeSerialize) {noCut : Prop} : noCut →
      Agrees (.ok (a, s)) (some s.mStr) noCut
  | throws (what : String) {noCut : Prop} : noCut → Agrees (.error (.throws what)) none noCut
  | terminated {noCut : Prop} : ¬ noCut → Agrees (.error .terminated) none noCut

variable {α β : Type}

theorem Agrees.iff {r : Except Failure (α × StringDeSerialize)} {rest : Option (List Byte)}
    {noCut noCut' : Prop} (h : Agrees r rest noCut) (hiff : noCut ↔ noCut') : Agrees r rest noCut' := by
  rwa [← propext hiff]

theorem Agrees.map {r : Except Failure (α × StringDeSerialize)} {rest : Option (List Byte)} {noCut : Prop}
    (h : Agrees r rest noCut) {f : α × StringDeSerialize → β × StringDeSerialize}
    (hf : ∀ x, (f x).2.mStr = x.2.mStr) : Agrees (r >>= fun x => pure (f x)) rest noCut := by
  cases h with
  | value a s hcut =>
    have hsame := hf (a, s)
    rw [← hsame]
    exact .value (f (a, s)).1 (f (a, s)).2 hcut
  | throws what hcut => exact .throws what hcut
  | terminated hcut => exact .terminated hcut

theorem Agrees.at_noexcept {r : Except Failure (α × StringDeSerialize)} {rest : Option (List Byte)}
    {noCut : Prop} (h : Agrees r rest noCut) (spec : Bool) :
    Agrees (noexcept spec r) rest (if spec = true then rest.isSome = true else noCut) := by
  cases spec with
  | false =>
    cases h with
    | value a s hcut => exact .value a s hcut
    | throws what hcut => exact .throws what hcut
    | terminated hcut => exact .terminated hcut
  | true =>
    cases h with
    | value a s hcut => exact .value a s rfl
    | throws what hcut => exact .terminated Bool.false_ne_true
    | terminated hcut => exact .terminated Bool.false_ne_true

theorem sizeTag_short {s : StringDeSerialize} {width : ℕ} (h : s.mStr.length < width) :
    sizeTag s width = .error .terminated := DeSerializer.sizeTag_short _ h

theorem sizeTag_ok {s : StringDeSerialize} {width : ℕ} (h : ¬ s.mStr.length < width) :
    sizeTag s width = .ok (leVal (s.mStr.take width), { s with mStr := s.mStr.drop width }) :=
  DeSerializer.sizeTag_ok _ h

theorem Agrees.tag {s : StringDeSerialize} {width : ℕ}
    {body : ℕ × StringDeSerialize → Except Failure (α × StringDeSerialize)}
    {rest : Option (List Byte)} {noCut : Prop}
    (h : width ≤ s.mStr.length →
      Agrees (body (leVal (s.mStr.take width), { s with mStr := s.mStr.drop width })) rest noCut) :
    Agrees (sizeTag s width >>= body) (if s.mStr.length < width then none else rest)
      (width ≤ s.mStr.length ∧ noCut) := by
  by_cases hshort : s.mStr.length < width
  · rw [sizeTag_short hshort, if_pos hshort]
    exact .terminated fun hcut => absurd hcut.1 (by omega)
  · rw [sizeTag_ok hshort, if_neg hshort]
    exact (h (by omega)).iff ⟨fun hcut => ⟨by omega, hcut⟩, fun hcut => hcut.2⟩

theorem Agrees.pointer {s : StringDeSerialize} {width : ℕ} (cond : ℕ → Prop) [DecidablePred cond]
    {nothrow : Bool} (read : StringDeSerialize → Except Failure (α × StringDeSerialize))
    (null : ℕ × StringDeSerialize → α) {rest : Option (List Byte)} {noCut : Prop}
    (hread : Agrees (read { s with mStr := s.mStr.drop width }) rest noCut) :
    Agrees (noexcept nothrow (sizeTag s width >>= fun id =>
        if cond id.1 then read id.2 else pure (null id, id.2)))
      (if s.mStr.length < width then none
        else if cond (leVal (s.mStr.take width)) then rest else some (s.mStr.drop width))
      (width ≤ s.mStr.length ∧ (cond (leVal (s.mStr.take width)) →
        if nothrow = true then rest.isSome = true else noCut)) := by
  have htag : Agrees (sizeTag s width >>= fun id =>
        if cond id.1 then read id.2 else pure (null id, id.2))
      (if s.mStr.length < width then none
        else if cond (leVal (s.mStr.take width)) then rest else some (s.mStr.drop width))
      (width ≤ s.mStr.length ∧ (cond (leVal (s.mStr.take width)) → noCut)) := by
    apply Agrees.tag
    intro _
    by_cases hcond : cond (leVal (s.mStr.take width))
    · simp only [if_pos hcond]
      exact hread.iff ⟨fun hcut _ => hcut, fun hcut => hcut hcond⟩
    · simp only [if_neg hcond]
      exact .value _ { s with mStr := s.mStr.drop width } fun h => absurd h hcond
  refine (htag.at_noexcept nothrow).iff ?_
  cases nothrow with
  | false => exact Iff.rfl
  | true =>
    by_cases hshort : s.mStr.length < width
    · have hlen : ¬ width ≤ s.mStr.length := by omega
      simp [hshort, hlen]
    · have hlen : width ≤ s.mStr.length := by omega
      by_cases hcond : cond (leVal (s.mStr.take width)) <;> simp [hshort, hlen, hcond]

section Decode
variable (info : TypeInfo) (structs : ℕ → Decoder)

theorem decode_string_agrees (s : StringDeSerialize) :
    Agrees (decode info structs .string s) (skip .string s.mStr) (NoCut info .string s.mStr) := by
  simp only [decode, skip, NoCut]
  refine (Agrees.tag fun hlen => ?_).iff (and_iff_left trivial)
  dsimp only
  by_cases hzero : leVal (s.mStr.take 8) = 0
  · have hnot : ¬ stringMaxSize < 0 := by omega
    simp only [hzero, if_true, hnot, Nat.not_lt_zero, or_self, if_false, List.drop_zero]
    exact .value (Val.string []) { s with mStr := s.mStr.drop 8 } trivial
  · rw [if_neg hzero]
    by_cases hmax : stringMaxSize < leVal (s.mStr.take 8)
    · rw [if_pos (Or.inl hmax), resize, if_pos hmax]
      exact .throws stringLengthError trivial
    · rw [resize, if_neg hmax]
      by_cases hshort : (s.mStr.drop 8).length < leVal (s.mStr.take 8)
      · rw [if_pos (Or.inr hshort)]
        simp only [DeSerializer.input, if_pos hshort]
        exact .throws argsLengthError trivial
      · rw [if_neg (by rw [not_or]; exact ⟨hmax, hshort⟩)]
        simp only [DeSerializer.input, if_neg hshort]
        exact .value (Val.string _) { s with mStr := (s.mStr.drop 8).drop (leVal (s.mStr.take 8)) } trivial

mutual

theorem decode_agrees : ∀ (ty : Ty) (s : StringDeSerialize), plain ty = true →
    Agrees (decode info structs ty s) (skip ty s.mStr) (NoCut info ty s.mStr)
  | .arith width, s, _ => by
    simp only [decode, skip, NoCut, DeSerializer.input]
    split
    · exact .throws argsLengthError trivial
    · exact .value (Val.arith (s.mStr.take width)) { s with mStr := s.mStr.drop width } trivial
  | .string, s, _ => decode_string_agrees info structs s
  | .tuple elems, s, hplain => by
    simp only [decode, skip, NoCut]
    refine Agrees.tag fun hlen => ?_
    dsimp only
    by_cases hcount : leVal (s.mStr.take 8) = elems.length
    · have helems := decodeAll_agrees elems { s with mStr := s.mStr.drop 8 } hplain
      rw [if_neg (not_not.mpr hcount), if_neg (not_not.mpr hcount)]
      exact (helems.map (f := fun r => (Val.tuple r.1, r.2)) fun _ => rfl).iff
        ⟨fun hcut _ => hcut, fun hcut => hcut hcount⟩
    · rw [if_pos hcount, if_pos hcount]
      exact .throws argsSizeError fun h => absurd h hcount
  | .unique pointee, s, hplain => by
    have hpointee := decode_agrees pointee { s with mStr := s.mStr.drop 2 } hplain
    simp only [decode, skip, NoCut]
    exact Agrees.pointer (fun id => id ≠ 0)
      (fun s => decode info structs pointee s >>= fun r => pure (Val.unique r.1, r.2))
      (fun _ => Val.uniqueNull) (hpointee.map fun _ => rfl)
  | .shared pointee, s, hplain => by
    have hpointee := decode_agrees pointee (newObject { s with mStr := s.mStr.drop 8 }).2 hplain
    simp only [decode, skip, NoCut]
    exact Agrees.pointer (fun id => id &&& ptrIdMask ≠ 0)
      (fun s => decode info structs pointee (newObject s).2 >>= fun r =>
        pure (Val.shared (some (newObject s).1), setObject r.2 (newObject s).1 r.1))
      (fun id => Val.shared (getPrt id.2.base id.1)) (hpointee.map fun _ => rfl)
  | .struct name, s, hplain => by cases hplain

theorem decodeAll_agrees : ∀ (tys : List Ty) (s : StringDeSerialize), plainAll tys = true →
    Agrees (decodeAll info structs tys s) (skipAll tys s.mStr) (NoCutAll info tys s.mStr)
  | [], s, _ => .value [] s trivial
  | ty :: tys, s, hplain => by
    have hboth : plain ty = true ∧ plainAll tys = true := by simpa [plainAll] using hplain
    have hfirst := decode_agrees ty s hboth.1
    simp only [decodeAll, skipAll, NoCutAll]
    cases hread : decode info structs ty s with
    | error e =>
      rw [hread] at hfirst
      cases hskip : skip ty s.mStr with
      | some rest =>
        rw [hskip] at hfirst
        cases hfirst
      | none =>
        rw [hskip] at hfirst
        cases hfirst with
        | throws what hcut => exact .throws what ⟨hcut, fun rest hrest => by cases hrest⟩
        | terminated hcut => exact .terminated fun h => hcut h.1
    | ok r =>
      have hlater := decodeAll_agrees tys r.2 hboth.2
      rw [hread] at hfirst
      obtain ⟨v, s'⟩ := r
      cases hskip : skip ty s.mStr with
      | none =>
        rw [hskip] at hfirst
        cases hfirst
      | some rest =>
        rw [hskip] at hfirst
        cases hfirst with
        | value _ _ hcut =>
          refine (hlater.map (f := fun r => (v :: r.1, r.2)) fun _ => rfl).iff ⟨fun h => ?_, fun h => ?_⟩
          · exact ⟨hcut, fun rest hrest => by cases hrest; exact h⟩
          · exact h.2 s'.mStr rfl

end

/-- Whatever the input is, the caller of `operator()` gets a value or an exception exactly when no
exception is raised inside of a `noexcept` function. -/
theorem deserialize_returns_iff (ty : Ty) (hplain : plain ty = true) (inPutStr : List Byte) :
    ((∃ r, deserialize info structs ty inPutStr = .ok r) ∨
      ∃ what, deserialize info structs ty inPutStr = .error (.throws what)) ↔ NoCut info ty inPutStr := by
  have h : Agrees (decode info structs ty { mStr := inPutStr }) (skip ty inPutStr)
      (NoCut info ty inPutStr) := decode_agrees info structs ty { mStr := inPutStr } hplain
  generalize skip ty inPutStr = rest at h
  unfold deserialize
  cases hdecode : decode info structs ty { mStr := inPutStr } with
  | ok r =>
    rw [hdecode] at h
    cases h with
    | value a s hcut => exact ⟨fun _ => hcut, fun _ => Or.inl ⟨_, rfl⟩⟩
  | error e =>
    rw [hdecode] at h
    cases h with
    | throws what hcut => exact ⟨fun _ => hcut, fun _ => Or.inr ⟨what, rfl⟩⟩
    | terminated hcut =>
      constructor
      · rintro (⟨r, hr⟩ | ⟨what, hwhat⟩)
        · cases hr
        · cases hwhat
      · exact fun hok => absurd hok hcut

end Decode

/-- Tuples whose constructor is not `noexcept`, and no struct. -/
def tuplesThrow : TypeInfo := ⟨fun _ => false, fun _ => false⟩

def noStruct : ℕ → Decoder := fun _ _ => .error .terminated

/-- A pair behind a pointer whose second element is cut off. -/
theorem deserialize_returns_pair :
    ((∃ r, deserialize tuplesThrow noStruct (.unique (.tuple [.arith 1, .arith 4]))
        [1, 0, 2, 0, 0, 0, 0, 0, 0, 0, 7, 5] = .ok r) ∨
      ∃ what, deserialize tuplesThrow noStruct (.unique (.tuple [.arith 1, .arith 4]))
        [1, 0, 2, 0, 0, 0, 0, 0, 0, 0, 7, 5] = .error (.throws what)) ↔
      NoCut tuplesThrow (.unique (.tuple [.arith 1, .arith 4])) [1, 0, 2, 0, 0, 0, 0, 0, 0, 0, 7, 5] :=
  deserialize_returns_iff tuplesThrow noStruct _ rfl _

/-- The size of a string is cut off; the characters of a string behind a pointer are. -/
theorem deserialize_terminates :
    deserialize tuplesThrow noStruct .string [1, 2, 3] = .error .terminated ∧
      deserialize tuplesThrow noStruct (.unique .string) [1, 0, 5, 0, 0, 0, 0, 0, 0, 0, 65]
        = .error .terminated :=
  ⟨rfl, rfl⟩

end DeftRpc.Serialize
