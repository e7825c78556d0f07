import DeftRpc.Serialize.Destination

/-!
# The resize of std::string (type/string.h:22-32)

The string is resized to the size that was read, and only Input, after that, compares the size
with what is left of the input. `stringCalls` lists the calls for a value, with what each destination
held and the input after the size.
-/

namespace DeftRpc.Serialize.Destination
open DeftRpc.Foundation

structure StringCall where
  vec : List Byte
  size : ℕ
  input : DeSerializer

def StringCall.read (call : StringCall) : StringRead := readString .string call.vec call.size call.input

/-- The string is not resized to more bytes than remain, and a size above that is refused by Input
with the string as it was. -/
structure StaysInside (call : StringCall) : Prop where
  bounded : ∀ size ∈ call.read.resizedTo, size ≤ call.input.mStr.length
  refused : call.input.mStr.length < call.size →
    call.read.vec = call.vec ∧ call.read.outcome = .error (.throws argsLengthError)

theorem readString_resizedTo (archive : Archive) (vec : List Byte) (size : ℕ) (s : DeSerializer) :
    (readString archive vec size s).resizedTo
      = if size = 0 ∨ stringMaxSize < size then none else some size := by
  unfold readString
  by_cases hzero : size = 0
  · simp [hzero]
  · by_cases hmax : stringMaxSize < size
    · simp [hzero, hmax]
    · simp only [hzero, hmax, or_self, if_false]
      cases input archive s size <;> rfl

/-- A size above the remaining input makes for a resize, or for the exception of the resize itself. -/
theorem staysInside_iff (call : StringCall) :
    StaysInside call ↔ call.size ≤ call.input.mStr.length := by
  obtain ⟨vec, size, s⟩ := call
  have hresized := readString_resizedTo .string vec size s
  constructor
  · intro hlaw
    by_contra hle
    have hshort : s.mStr.length < size := not_le.mp hle
    have hzero : size ≠ 0 := by omega
    by_cases hmax : stringMaxSize < size
    · have hout : (readString .string vec size s).outcome = .error (.throws argsLengthError) :=
        (hlaw.refused hshort).2
      rw [readString, if_neg hzero, if_pos hmax] at hout
      exact absurd (Failure.throws.inj (Except.error.inj hout)) (by decide)
    · rw [if_neg (not_or.mpr ⟨hzero, hmax⟩)] at hresized
      exact hle (hlaw.bounded size hresized)
  · intro hle
    refine ⟨fun n hn => ?_, fun hlt => absurd hle (not_le.mpr hlt)⟩
    have hn' : (readString .string vec size s).resizedTo = some n := hn
    rw [hresized] at hn'
    split at hn'
    · cases hn'
    · cases hn'
      exact hle

/-! ### The calls for a value -/

section Calls
variable (construct : Construct) (structs : ℕ → Val → Decoder)
variable (structCalls : ℕ → Val → DeSerializer → List StringCall)

mutual

/-- In the order of `decodeInto`, up to the exception if there is one. -/
def stringCalls : Ty → Val → DeSerializer → List StringCall
  | .arith _, _, _ => []
  | .string, d, s =>
    match sizeTag .string s 8 with
    | .error _ => []
    | .ok size => [⟨d.chars, size.1, size.2⟩]
  | .vector _, _, _ => []
  | .bools, _, _ => []
  | .tuple elems, d, s =>
    match sizeTag .string s 8 with
    | .error _ => []
    | .ok size => if size.1 ≠ elems.length then [] else stringCallsAll elems d.parts size.2
  | .unique pointee, _, s =>
    match sizeTag .string s 2 with
    | .error _ => []
    | .ok id => if id.1 ≠ 0 then stringCalls pointee (construct.value pointee) id.2 else []
  | .shared pointee, _, s =>
    match sizeTag .string s 8 with
    | .error _ => []
    | .ok id =>
      if id.1 &&& ptrIdMask ≠ 0 then stringCalls pointee (construct.value pointee) (newObject id.2).2
      else []
  | .struct name, d, s => structCalls name d s

def stringCallsAll : List Ty → List Val → DeSerializer → List StringCall
  | [], _, _ => []
  | ty :: tys, ds, s => stringCalls ty (ds.headD .uniqueNull) s ++
    match decodeInto .string construct structs ty (ds.headD .uniqueNull) s with
    | .error _ => []
    | .ok r => stringCallsAll tys ds.tail r.2

end

end Calls

def memberCalls (construct : Construct) (members : ℕ → List Ty) :
    ℕ → ℕ → Val → DeSerializer → List StringCall
  | 0, _, _, _ => []
  | depth + 1, name, d, s =>
    stringCallsAll construct (memberStructs .string construct members depth)
      (memberCalls construct members depth) (members name) d.parts s

def deserializeCalls (construct : Construct) (members : ℕ → List Ty) (depth : ℕ) (ty : Ty) (d : Val)
    (inPutStr : List Byte) : List StringCall :=
  stringCalls construct (memberStructs .string construct members depth)
    (memberCalls construct members depth) ty d { mStr := inPutStr }

/-! ### The sizes in the input -/

section Sizes
variable (structSkip : ℕ → List Byte → Option (List Byte)) (structFit : ℕ → List Byte → Prop)

mutual

/-- No size of a string is above the number of bytes behind it. -/
def SizesFit : Ty → List Byte → Prop
  | .arith _, _ => True
  | .string, bs => 8 ≤ bs.length → leVal (bs.take 8) ≤ (bs.drop 8).length
  | .vector _, _ => True
  | .bools, _ => True
  | .tuple elems, bs => 8 ≤ bs.length → leVal (bs.take 8) = elems.length → SizesFitAll elems (bs.drop 8)
  | .unique pointee, bs => 2 ≤ bs.length → leVal (bs.take 2) ≠ 0 → SizesFit pointee (bs.drop 2)
  | .shared pointee, bs =>
    8 ≤ bs.length → leVal (bs.take 8) &&& ptrIdMask ≠ 0 → SizesFit pointee (bs.drop 8)
  | .struct name, bs => structFit name bs

def SizesFitAll : List Ty → List Byte → Prop
  | [], _ => True
  | ty :: tys, bs => SizesFit ty bs ∧ ∀ rest ∈ skip structSkip ty bs, SizesFitAll tys rest

end

end Sizes

def memberFit (members : ℕ → List Ty) : ℕ → ℕ → List Byte → Prop
  | 0, _, _ => True
  | depth + 1, name, bs =>
    SizesFitAll (memberSkip members depth) (memberFit members depth) (members name) bs

/-! ### Every value -/

def AllInside (calls : List StringCall) : Prop := ∀ call ∈ calls, StaysInside call

theorem allInside_nil : AllInside [] := fun _ h => absurd h List.not_mem_nil

theorem allInside_append {calls more : List StringCall} :
    AllInside (calls ++ more) ↔ AllInside calls ∧ AllInside more := List.forall_mem_append

theorem tag_inside {s : DeSerializer} {width : ℕ} {calls : ℕ × DeSerializer → List StringCall}
    {fit : Prop} (h : ¬ s.mStr.length < width →
      (AllInside (calls (leVal (s.mStr.take width), { s with mStr := s.mStr.drop width })) ↔ fit)) :
    AllInside (match sizeTag .string s width with
      | .error _ => []
      | .ok size => calls size) ↔ (width ≤ s.mStr.length → fit) := by
  by_cases hshort : s.mStr.length < width
  · rw [sizeTag_short hshort]
    exact iff_of_true allInside_nil fun hle => absurd hle (not_le.mpr hshort)
  · rw [sizeTag_ok hshort]
    exact (h hshort).trans (imp_iff_right (not_lt.mp hshort)).symm

theorem branch_inside {cond : Prop} [Decidable cond] {calls : List StringCall} {fit : Prop}
    (h : AllInside calls ↔ fit) : AllInside (if cond then calls else []) ↔ (cond → fit) := by
  by_cases hcond : cond
  · rw [if_pos hcond, h]
    exact (imp_iff_right hcond).symm
  · rw [if_neg hcond]
    exact iff_of_true allInside_nil fun hc => absurd hc hcond

section Calls
variable (construct : Construct) (structs : ℕ → Val → Decoder)
variable (structCalls : ℕ → Val → DeSerializer → List StringCall)
variable {structSkip : ℕ → List Byte → Option (List Byte)} {structFit : ℕ → List Byte → Prop}
variable {structSame : ℕ → Val → Val → List Byte → Prop}

mutual

theorem stringCalls_inside (hstructs : ∀ name d d' s, Twin (structs name d s) (structs name d' s)
      (structSkip name s.mStr) (structSame name d d' s.mStr))
    (hcalls : ∀ name d s, AllInside (structCalls name d s) ↔ structFit name s.mStr) :
    ∀ (ty : Ty) (d : Val) (s : DeSerializer),
      AllInside (stringCalls construct structs structCalls ty d s) ↔ SizesFit structSkip structFit ty s.mStr
  | .arith width, d, s => iff_of_true allInside_nil trivial
  | .string, d, s => by
    simp only [stringCalls, SizesFit]
    refine tag_inside fun hlen => ?_
    exact List.forall_mem_singleton.trans (staysInside_iff _)
  | .vector width, d, s => iff_of_true allInside_nil trivial
  | .bools, d, s => iff_of_true allInside_nil trivial
  | .tuple elems, d, s => by
    have helems := stringCallsAll_inside hstructs hcalls elems d.parts { s with mStr := s.mStr.drop 8 }
    simp only [stringCalls, SizesFit]
    refine tag_inside fun hlen => ?_
    rw [ite_not]
    exact branch_inside helems
  | .unique pointee, d, s => by
    have hpointee := stringCalls_inside hstructs hcalls pointee (construct.value pointee)
      { s with mStr := s.mStr.drop 2 }
    simp only [stringCalls, SizesFit]
    exact tag_inside fun hlen => branch_inside hpointee
  | .shared pointee, d, s => by
    have hpointee := stringCalls_inside hstructs hcalls pointee (construct.value pointee)
      (newObject { s with mStr := s.mStr.drop 8 }).2
    simp only [stringCalls, SizesFit]
    exact tag_inside fun hlen => branch_inside hpointee
  | .struct name, d, s => by
    simp only [stringCalls, SizesFit]
    exact hcalls name d s

theorem stringCallsAll_inside (hstructs : ∀ name d d' s, Twin (structs name d s) (structs name d' s)
      (structSkip name s.mStr) (structSame name d d' s.mStr))
    (hcalls : ∀ name d s, AllInside (structCalls name d s) ↔ structFit name s.mStr) :
    ∀ (tys : List Ty) (ds : List Val) (s : DeSerializer),
      AllInside (stringCallsAll construct structs structCalls tys ds s) ↔
        SizesFitAll structSkip structFit tys s.mStr
  | [], ds, s => iff_of_true allInside_nil trivial
  | ty :: tys, ds, s => by
    have hfirst := stringCalls_inside hstructs hcalls ty (ds.headD .uniqueNull) s
    have htwin := decodeInto_twin .string construct structs hstructs ty (ds.headD .uniqueNull)
      (ds.headD .uniqueNull) s
    simp only [stringCallsAll, SizesFitAll]
    rw [allInside_append, hfirst]
    refine and_congr_right fun _ => ?_
    generalize decodeInto .string construct structs ty (ds.headD .uniqueNull) s = r,
      skip structSkip ty s.mStr = rest at htwin ⊢
    cases htwin with
    | failed failure => exact iff_of_true allInside_nil fun rest hrest => by cases hrest
    | read v v' s1 _ =>
      have hlater := stringCallsAll_inside hstructs hcalls tys ds.tail s1
      simp only [Option.mem_some_iff, forall_eq']
      exact hlater

end

end Calls

theorem memberCalls_inside (construct : Construct) (members : ℕ → List Ty) (depth : ℕ) :
    ∀ name d s, AllInside (memberCalls construct members depth name d s) ↔
      memberFit members depth name s.mStr := by
  induction depth with
  | zero => exact fun name d s => iff_of_true allInside_nil trivial
  | succ depth ih =>
    intro name d s
    exact stringCallsAll_inside construct _ _ (memberStructs_twin .string construct members depth) ih
      (members name) d.parts s

/-- Whatever the bytes and the destination are: every call keeps inside of the input if and only if
no size of a string that is read is above the number of bytes behind it. -/
theorem deserialize_inside_iff (construct : Construct) (members : ℕ → List Ty) (depth : ℕ) (ty : Ty)
    (d : Val) (inPutStr : List Byte) :
    (∀ call ∈ deserializeCalls construct members depth ty d inPutStr, StaysInside call) ↔
      SizesFit (memberSkip members depth) (memberFit members depth) ty inPutStr :=
  stringCalls_inside construct _ _ (memberStructs_twin .string construct members depth)
    (memberCalls_inside construct members depth) ty d { mStr := inPutStr }

/-- Eight bytes that announce a terabyte: the empty string is resized to it. -/
theorem deserialize_outside :
    ∃ call ∈ deserializeCalls constructEmpty (fun _ => []) 0 .string (.string []) (leBytes 8 (2 ^ 40)),
      call.input.mStr = [] ∧ call.read.resizedTo = some (2 ^ 40) ∧ ¬ StaysInside call := by
  have hresized := readString_resizedTo .string [] (2 ^ 40) { mStr := [] }
  rw [if_neg (by decide)] at hresized
  refine ⟨⟨[], 2 ^ 40, { mStr := [] }⟩, List.mem_singleton_self _, rfl, hresized, fun hlaw => ?_⟩
  have hle := hlaw.bounded _ hresized
  exact absurd hle (by decide)

end DeftRpc.Serialize.Destination
