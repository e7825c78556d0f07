import DeftRpc.Foundation.Exec
import DeftRpc.Serialize.StringDeSerialize

/-!
# Deserializing into an object (type/*.h, StringSerializer.h:46-52, BinarySerialize.h:62-67)

The destination and what it holds are part of the input here, and the vectors are there: one of
arithmetic elements, which only BinaryDeSerialize reads, and `std::vector<bool>`. What `new T{}`
holds and whether it may throw are parameters. Memory is never exhausted.
-/

namespace DeftRpc.Serialize.Destination
open DeftRpc.Foundation

/-- StringDeSerialize and BinaryDeSerialize. -/
inductive Archive
  | string
  | binary

inductive Ty where
  | arith (width : ℕ)
  | string
  | vector (width : ℕ)
  | bools
  | tuple (elems : List Ty)
  | unique (pointee : Ty)
  | shared (pointee : Ty)
  | struct (name : ℕ)

/-- A vector of arithmetic elements is the bytes it holds, a `shared_ptr` the address of its object. -/
inductive Val where
  | arith (bytes : List Byte)
  | string (chars : List Byte)
  | vector (bytes : List Byte)
  | bools (elems : List Bool)
  | tuple (elems : List Val)
  | uniqueNull
  | unique (pointee : Val)
  | shared (address : Option ℕ)
  | struct (members : List Val)

namespace Val

def chars : Val → List Byte
  | .string chars => chars
  | _ => []

def bytes : Val → List Byte
  | .vector bytes => bytes
  | _ => []

def flags : Val → List Bool
  | .bools elems => elems
  | _ => []

/-- The elements of a tuple, the members of a struct. -/
def parts : Val → List Val
  | .tuple elems => elems
  | .struct members => members
  | _ => []

end Val

/-! ### The input -/

abbrev DeSerializer := Serialize.DeSerializer Val

/-- BinaryDeSerialize throws the literal `""`. -/
def Archive.lengthError : Archive → String
  | .string => argsLengthError
  | .binary => ""

abbrev input (archive : Archive) (s : DeSerializer) (size : ℕ) : Except Failure (List Byte × DeSerializer) :=
  s.input archive.lengthError size

abbrev sizeTag (archive : Archive) (s : DeSerializer) (width : ℕ) : Except Failure (ℕ × DeSerializer) :=
  s.sizeTag archive.lengthError width

/-- `resize(size)`, which keeps what fits. -/
def resized {α : Type} (fill : α) (size : ℕ) (vec : List α) : List α :=
  vec.take size ++ List.replicate (size - vec.length) fill

/-- What is read goes over the beginning of `vec`. -/
def copied {α : Type} (data vec : List α) : List α := data ++ vec.drop data.length

/-- A `std::string` after its DeSerializeFunc, the size to which it was resized, and how that ended. -/
structure StringRead where
  vec : List Byte
  resizedTo : Option ℕ
  outcome : Except Failure DeSerializer

/-- DeSerializeFunc of `std::string` once the size is read. A resize that throws changes nothing. -/
def readString (archive : Archive) (vec : List Byte) (size : ℕ) (s : DeSerializer) : StringRead :=
  if size = 0 then ⟨vec, none, .ok s⟩
  else if stringMaxSize < size then ⟨vec, none, .error (.throws stringLengthError)⟩
  else
    let vec := resized 0 size vec
    match input archive s size with
    | .error failure => ⟨vec, some size, .error failure⟩
    | .ok r => ⟨copied r.1 vec, some size, .ok r.2⟩

def StringRead.result (r : StringRead) : Except Failure (Val × DeSerializer) :=
  match r.outcome with
  | .error failure => .error failure
  | .ok s => .ok (.string r.vec, s)

/-- What the `std::length_error` of `std::vector` says. -/
def vectorLengthError : String := "vector::_M_default_append"

/-- `max_size` of a vector of elements of `width` bytes. -/
def vectorMaxSize (width : ℕ) : ℕ := (2 ^ 63 - 1) / width

/-- `std::vector<bool>::max_size`. -/
def boolsMaxSize : ℕ := 2 ^ 63 - 64

/-- The loop from `index` on. -/
def readFlags (archive : Archive) : ℕ → ℕ → List Bool → DeSerializer →
    Except Failure (List Bool × DeSerializer)
  | 0, _, vec, s => .ok (vec, s)
  | left + 1, index, vec, s => do
    let temp ← input archive s 1
    readFlags archive left (index + 1) (vec.set index (decide (leVal temp.1 ≠ 0))) temp.2

abbrev Decoder := DeSerializer → Except Failure (Val × DeSerializer)

/-- `new T{}`: what it holds, and whether the constructor is `noexcept`. -/
structure Construct where
  value : Ty → Val
  nothrow : Ty → Bool

section Decode
variable (archive : Archive) (construct : Construct) (structs : ℕ → Val → Decoder)

mutual

/-- `sr(arg)`, where `arg` holds the given value. -/
def decodeInto : Ty → Val → Decoder
  | .arith width, _, s => do
    let r ← input archive s width
    pure (.arith r.1, r.2)
  | .string, d, s => do
    let size ← sizeTag archive s 8
    (readString archive d.chars size.1 size.2).result
  | .vector width, d, s => noexcept true (do
    let size ← sizeTag archive s 8
    if size.1 = 0 then pure (.vector d.bytes, size.2)
    else if vectorMaxSize width < size.1 then .error (.throws vectorLengthError)
    else do
      let vec := resized 0 (size.1 * width) d.bytes
      let r ← input archive size.2 (size.1 * width)
      pure (.vector (copied r.1 vec), r.2))
  | .bools, d, s => noexcept true (do
    let size ← sizeTag archive s 8
    if size.1 = 0 then pure (.bools d.flags, size.2)
    else if boolsMaxSize < size.1 then .error (.throws vectorLengthError)
    else do
      let r ← readFlags archive size.1 0 (resized false size.1 d.flags) size.2
      pure (.bools r.1, r.2))
  | .tuple elems, d, s => do
    let size ← sizeTag archive s 8
    if size.1 ≠ elems.length then .error (.throws argsSizeError)
    else do
      let r ← decodeAllInto elems d.parts size.2
      pure (.tuple r.1, r.2)
  | .unique pointee, _, s => noexcept (construct.nothrow pointee) (do
    let id ← sizeTag archive s 2
    if id.1 ≠ 0 then do
      let r ← decodeInto pointee (construct.value pointee) id.2
      pure (.unique r.1, r.2)
    else pure (.uniqueNull, id.2))
  | .shared pointee, _, s => noexcept (construct.nothrow pointee) (do
    let id ← sizeTag archive s 8
    if id.1 &&& ptrIdMask ≠ 0 then do
      let new := newObject id.2
      let r ← decodeInto pointee (construct.value pointee) new.2
      pure (.shared (some new.1), setObject r.2 new.1 r.1)
    else pure (.shared (getPrt id.2.base id.1), id.2))
  | .struct name, d, s => noexcept true (structs name d s)

/-- `sr(args...)`. -/
def decodeAllInto : List Ty → List Val → DeSerializer → Except Failure (List Val × DeSerializer)
  | [], _, s => pure ([], s)
  | ty :: tys, ds, s => do
    let r ← decodeInto ty (ds.headD .uniqueNull) s
    let rest ← decodeAllInto tys ds.tail r.2
    pure (r.1 :: rest.1, rest.2)

end

end Decode

/-- Structs whose DeSerializeFunc reads the members in the order they are listed; `depth` is how
deep structs are nested in the value. -/
def memberStructs (archive : Archive) (construct : Construct) (members : ℕ → List Ty) :
    ℕ → ℕ → Val → Decoder
  | 0, _, _ => fun _ => .error .terminated
  | depth + 1, name, d => fun s => do
    let r ← decodeAllInto archive construct (memberStructs archive construct members depth)
      (members name) d.parts s
    pure (.struct r.1, r.2)

/-- One value from `inPutStr` into an object that holds `d`. -/
def deserializeInto (archive : Archive) (construct : Construct) (members : ℕ → List Ty) (depth : ℕ)
    (ty : Ty) (d : Val) (inPutStr : List Byte) : Except Failure (Val × DeSerializer) :=
  decodeInto archive construct (memberStructs archive construct members depth) ty d { mStr := inPutStr }

/-! ### What an object that held something keeps -/

theorem length_resized {α : Type} (fill : α) (size : ℕ) (vec : List α) :
    (resized fill size vec).length = size := by
  simp only [resized, List.length_append, List.length_take, List.length_replicate]
  omega

theorem copied_resized {α : Type} (fill : α) (data vec : List α) :
    copied data (resized fill data.length vec) = data := by
  rw [copied, List.drop_eq_nil_of_le (le_of_eq (length_resized fill data.length vec)), List.append_nil]

theorem input_ok {archive : Archive} {s : DeSerializer} {size : ℕ} (h : ¬ s.mStr.length < size) :
    input archive s size = .ok (s.mStr.take size, { s with mStr := s.mStr.drop size }) :=
  DeSerializer.input_ok _ h

theorem input_short {archive : Archive} {s : DeSerializer} {size : ℕ} (h : s.mStr.length < size) :
    input archive s size = .error (.throws archive.lengthError) := DeSerializer.input_short _ h

theorem sizeTag_ok {archive : Archive} {s : DeSerializer} {width : ℕ} (h : ¬ s.mStr.length < width) :
    sizeTag archive s width = .ok (leVal (s.mStr.take width), { s with mStr := s.mStr.drop width }) :=
  DeSerializer.sizeTag_ok _ h

theorem sizeTag_short {archive : Archive} {s : DeSerializer} {width : ℕ} (h : s.mStr.length < width) :
    sizeTag archive s width = .error .terminated := DeSerializer.sizeTag_short _ h

theorem readString_result {archive : Archive} (vec : List Byte) {size : ℕ} (h : size ≠ 0)
    (s : DeSerializer) : (readString archive vec size s).result =
      if stringMaxSize < size then .error (.throws stringLengthError)
      else if s.mStr.length < size then .error (.throws archive.lengthError)
      else .ok (.string (s.mStr.take size), { s with mStr := s.mStr.drop size }) := by
  rw [readString, if_neg h]
  by_cases hmax : stringMaxSize < size
  · rw [if_pos hmax, if_pos hmax]
    rfl
  · rw [if_neg hmax, if_neg hmax]
    by_cases hshort : s.mStr.length < size
    · rw [input_short hshort, if_pos hshort]
      rfl
    · have hlen : (s.mStr.take size).length = size := by
        rw [List.length_take]
        omega
      have hcopied := copied_resized 0 (s.mStr.take size) vec
      rw [hlen] at hcopied
      rw [input_ok hshort, if_neg hshort]
      simp only [StringRead.result, hcopied]

/-- The flags that are read, whatever was at their places. -/
theorem readFlags_eq {archive : Archive} {left : ℕ} {done vec : List Bool} (hlen : vec.length = left)
    (s : DeSerializer) : readFlags archive left done.length (done ++ vec) s =
      if s.mStr.length < left then .error (.throws archive.lengthError)
      else .ok (done ++ (s.mStr.take left).map (fun b => decide (b.val ≠ 0)),
        { s with mStr := s.mStr.drop left }) := by
  induction left generalizing done vec s with
  | zero =>
    rw [List.length_eq_zero_iff.mp hlen]
    simp [readFlags]
  | succ left ih =>
    obtain ⟨x, vec, rfl⟩ := List.exists_cons_of_length_eq_add_one hlen
    cases hstr : s.mStr with
    | nil =>
      have hshort : s.mStr.length < 1 := by simp [hstr]
      rw [readFlags, input_short hshort, Exec.error_bind]
      exact (if_pos (Nat.succ_pos left)).symm
    | cons b rest =>
      have hlong : ¬ s.mStr.length < 1 := by simp [hstr]
      have hstep := @ih (done ++ [decide (b.val ≠ 0)]) vec (by simpa using hlen) { s with mStr := rest }
      simp only [List.length_append, List.length_singleton, List.append_assoc, List.singleton_append] at hstep
      have hset : (done ++ x :: vec).set done.length (decide (b.val ≠ 0))
          = done ++ decide (b.val ≠ 0) :: vec := by simp
      rw [readFlags, input_ok hlong, Exec.ok_bind]
      simp only [hstr, List.take_succ_cons, List.take_zero, List.drop_succ_cons, List.drop_zero, leVal,
        Nat.mul_zero, Nat.add_zero, hset, hstep, List.map_cons, List.length_cons, Nat.add_lt_add_iff_right]

/-! ### The input alone -/

section Skip
variable (structSkip : ℕ → List Byte → Option (List Byte))

mutual

/-- What follows the image of a value of the type. -/
def skip : Ty → List Byte → Option (List Byte)
  | .arith width, bs => if bs.length < width then none else some (bs.drop width)
  | .string, bs =>
    if bs.length < 8 then none
    else if stringMaxSize < leVal (bs.take 8) ∨ (bs.drop 8).length < leVal (bs.take 8) then none
    else some ((bs.drop 8).drop (leVal (bs.take 8)))
  | .vector width, bs =>
    if bs.length < 8 then none
    else if vectorMaxSize width < leVal (bs.take 8) ∨ (bs.drop 8).length < leVal (bs.take 8) * width then
      none
    else some ((bs.drop 8).drop (leVal (bs.take 8) * width))
  | .bools, bs =>
    if bs.length < 8 then none
    else if boolsMaxSize < leVal (bs.take 8) ∨ (bs.drop 8).length < leVal (bs.take 8) then none
    else some ((bs.drop 8).drop (leVal (bs.take 8)))
  | .tuple elems, bs =>
    if bs.length < 8 then none
    else if leVal (bs.take 8) ≠ elems.length then none
    else skipAll elems (bs.drop 8)
  | .unique pointee, bs =>
    if bs.length < 2 then none
    else if leVal (bs.take 2) ≠ 0 then skip pointee (bs.drop 2)
    else some (bs.drop 2)
  | .shared pointee, bs =>
    if bs.length < 8 then none
    else if leVal (bs.take 8) &&& ptrIdMask ≠ 0 then skip pointee (bs.drop 8)
    else some (bs.drop 8)
  | .struct name, bs => structSkip name bs

def skipAll : List Ty → List Byte → Option (List Byte)
  | [], bs => some bs
  | ty :: tys, bs =>
    match skip ty bs with
    | none => none
    | some rest => skipAll tys rest

end

variable (structSame : ℕ → Val → Val → List Byte → Prop)

mutual

/-- Where the input has an empty string or vector, and not behind a pointer, both destinations
hold the same. -/
def SameWhereEmpty : Ty → Val → Val → List Byte → Prop
  | .arith _, _, _, _ => True
  | .string, d, d', bs => leVal (bs.take 8) = 0 → d.chars = d'.chars
  | .vector _, d, d', bs => leVal (bs.take 8) = 0 → d.bytes = d'.bytes
  | .bools, d, d', bs => leVal (bs.take 8) = 0 → d.flags = d'.flags
  | .tuple elems, d, d', bs => SameAllWhereEmpty elems d.parts d'.parts (bs.drop 8)
  | .unique _, _, _, _ => True
  | .shared _, _, _, _ => True
  | .struct name, d, d', bs => structSame name d d' bs

def SameAllWhereEmpty : List Ty → List Val → List Val → List Byte → Prop
  | [], _, _, _ => True
  | ty :: tys, ds, ds', bs => SameWhereEmpty ty (ds.headD .uniqueNull) (ds'.headD .uniqueNull) bs ∧
      ∀ rest ∈ skip structSkip ty bs, SameAllWhereEmpty tys ds.tail ds'.tail rest

end

end Skip

def memberSkip (members : ℕ → List Ty) : ℕ → ℕ → List Byte → Option (List Byte)
  | 0, _, _ => none
  | depth + 1, name, bs => skipAll (memberSkip members depth) (members name) bs

def memberSame (members : ℕ → List Ty) : ℕ → ℕ → Val → Val → List Byte → Prop
  | 0, _, _, _, _ => True
  | depth + 1, name, d, d', bs =>
    SameAllWhereEmpty (memberSkip members depth) (memberSame members depth) (members name) d.parts
      d'.parts bs

/-! ### Two destinations -/

/-- Two runs over the same input fail alike, or both end at `rest`; then they give the same if and
only if `same`. -/
inductive Twin {α : Type} : Except Failure (α × DeSerializer) → Except Failure (α × DeSerializer) →
    Option (List Byte) → Prop → Prop where
  | failed (failure : Failure) {same : Prop} : Twin (.error failure) (.error failure) none same
  | read (a b : α) (s : DeSerializer) {same : Prop} : (a = b ↔ same) →
      Twin (.ok (a, s)) (.ok (b, s)) (some s.mStr) same

section Twin
variable {α β : Type} {r r' : Except Failure (α × DeSerializer)} {rest : Option (List Byte)}
variable {same : Prop}

theorem Twin.at_noexcept (h : Twin r r' rest same) (spec : Bool) :
    Twin (noexcept spec r) (noexcept spec r') rest same := by
  cases h with
  | read a b s hsame => exact .read a b s hsame
  | failed failure =>
    cases failure with
    | throws what =>
      cases spec with
      | false => exact .failed (.throws what)
      | true => exact .failed .terminated
    | terminated => exact .failed .terminated

theorem Twin.map (h : Twin r r' rest same) {f : α → β} (hf : ∀ a b, f a = f b ↔ a = b) :
    Twin (r >>= fun x => pure (f x.1, x.2)) (r' >>= fun x => pure (f x.1, x.2)) rest same := by
  cases h with
  | read a b s hsame => exact .read (f a) (f b) s ((hf a b).trans hsame)
  | failed failure => exact .failed failure

theorem Twin.diagonal (h : Twin r r rest same) {f : α × DeSerializer → β × DeSerializer}
    (hf : ∀ x, (f x).2.mStr = x.2.mStr) {same' : Prop} (hsame : same') :
    Twin (r >>= fun x => pure (f x)) (r >>= fun x => pure (f x)) rest same' := by
  cases h with
  | read a b s _ =>
    have hstr := hf (a, s)
    rw [← hstr]
    exact .read (f (a, s)).1 (f (a, s)).1 (f (a, s)).2 (iff_of_true rfl hsame)
  | failed failure => exact .failed failure

theorem Twin.tag {archive : Archive} {s : DeSerializer} {width : ℕ}
    {body body' : ℕ × DeSerializer → Except Failure (α × DeSerializer)}
    (h : ¬ s.mStr.length < width →
      Twin (body (leVal (s.mStr.take width), { s with mStr := s.mStr.drop width }))
        (body' (leVal (s.mStr.take width), { s with mStr := s.mStr.drop width })) rest same) :
    Twin (sizeTag archive s width >>= body) (sizeTag archive s width >>= body')
      (if s.mStr.length < width then none else rest) same := by
  by_cases hshort : s.mStr.length < width
  · rw [sizeTag_short hshort, if_pos hshort]
    exact .failed .terminated
  · rw [sizeTag_ok hshort, if_neg hshort]
    exact h hshort

end Twin

/-! ### Every type -/

section Decode
variable (archive : Archive) (construct : Construct) (structs : ℕ → Val → Decoder)
variable {structSkip : ℕ → List Byte → Option (List Byte)}
variable {structSame : ℕ → Val → Val → List Byte → Prop}

theorem string_twin (d d' : Val) (s : DeSerializer) :
    Twin (decodeInto archive construct structs .string d s) (decodeInto archive construct structs .string d' s)
      (skip structSkip .string s.mStr) (SameWhereEmpty structSkip structSame .string d d' s.mStr) := by
  simp only [decodeInto, skip, SameWhereEmpty]
  refine Twin.tag fun hlen => ?_
  dsimp only
  by_cases hzero : leVal (s.mStr.take 8) = 0
  · rw [hzero, if_neg (by omega), List.drop_zero]
    refine .read (Val.string d.chars) (Val.string d'.chars) { s with mStr := s.mStr.drop 8 } ?_
    rw [Val.string.injEq]
    exact (imp_iff_right rfl).symm
  · rw [readString_result d.chars hzero, readString_result d'.chars hzero]
    by_cases hmax : stringMaxSize < leVal (s.mStr.take 8)
    · rw [if_pos hmax, if_pos (Or.inl hmax)]
      exact .failed _
    · by_cases hshort : (s.mStr.drop 8).length < leVal (s.mStr.take 8)
      · rw [if_neg hmax, if_pos hshort, if_pos (Or.inr hshort)]
        exact .failed _
      · rw [if_neg hmax, if_neg hshort, if_neg (not_or.mpr ⟨hmax, hshort⟩)]
        exact .read _ _ { s with mStr := (s.mStr.drop 8).drop (leVal (s.mStr.take 8)) }
          (iff_of_true rfl fun h => absurd h hzero)

theorem vector_twin (width : ℕ) (d d' : Val) (s : DeSerializer) :
    Twin (decodeInto archive construct structs (.vector width) d s)
      (decodeInto archive construct structs (.vector width) d' s) (skip structSkip (.vector width) s.mStr)
      (SameWhereEmpty structSkip structSame (.vector width) d d' s.mStr) := by
  simp only [decodeInto, skip, SameWhereEmpty]
  refine (Twin.tag fun hlen => ?_).at_noexcept true
  dsimp only
  obtain ⟨size, hsize⟩ : ∃ size, leVal (s.mStr.take 8) = size := ⟨_, rfl⟩
  rw [hsize]
  by_cases hzero : size = 0
  · rw [if_pos hzero, if_pos hzero, hzero, Nat.zero_mul, if_neg (by omega), List.drop_zero]
    refine .read (Val.vector d.bytes) (Val.vector d'.bytes) { s with mStr := s.mStr.drop 8 } ?_
    rw [Val.vector.injEq]
    exact (imp_iff_right rfl).symm
  · rw [if_neg hzero, if_neg hzero]
    by_cases hmax : vectorMaxSize width < size
    · rw [if_pos hmax, if_pos hmax, if_pos (Or.inl hmax)]
      exact .failed _
    · by_cases hshort : (s.mStr.drop 8).length < size * width
      · rw [if_neg hmax, if_neg hmax, if_pos (Or.inr hshort)]
        simp only [DeSerializer.input, if_pos hshort]
        exact .failed _
      · have hdata : ((s.mStr.drop 8).take (size * width)).length = size * width := by
          rw [List.length_take]
          omega
        have hcopied : ∀ vec : List Byte, copied ((s.mStr.drop 8).take (size * width))
            (resized 0 (size * width) vec) = (s.mStr.drop 8).take (size * width) := by
          intro vec
          have heq := copied_resized 0 ((s.mStr.drop 8).take (size * width)) vec
          rw [hdata] at heq
          exact heq
        rw [if_neg hmax, if_neg hmax, if_neg (not_or.mpr ⟨hmax, hshort⟩)]
        simp only [DeSerializer.input, if_neg hshort, Exec.ok_bind, hcopied]
        exact .read _ _ { s with mStr := (s.mStr.drop 8).drop (size * width) }
          (iff_of_true rfl fun h => absurd h hzero)

theorem bools_twin (d d' : Val) (s : DeSerializer) :
    Twin (decodeInto archive construct structs .bools d s) (decodeInto archive construct structs .bools d' s)
      (skip structSkip .bools s.mStr) (SameWhereEmpty structSkip structSame .bools d d' s.mStr) := by
  simp only [decodeInto, skip, SameWhereEmpty]
  refine (Twin.tag fun hlen => ?_).at_noexcept true
  dsimp only
  obtain ⟨size, hsize⟩ : ∃ size, leVal (s.mStr.take 8) = size := ⟨_, rfl⟩
  rw [hsize]
  by_cases hzero : size = 0
  · rw [if_pos hzero, if_pos hzero, hzero, if_neg (by omega), List.drop_zero]
    refine .read (Val.bools d.flags) (Val.bools d'.flags) { s with mStr := s.mStr.drop 8 } ?_
    rw [Val.bools.injEq]
    exact (imp_iff_right rfl).symm
  · have hread : ∀ vec : List Bool, readFlags archive size 0 (resized false size vec)
        { s with mStr := s.mStr.drop 8 } = _ := fun vec =>
      @readFlags_eq archive size [] _ (length_resized false size vec) { s with mStr := s.mStr.drop 8 }
    rw [if_neg hzero, if_neg hzero, hread, hread]
    by_cases hmax : boolsMaxSize < size
    · rw [if_pos hmax, if_pos (Or.inl hmax)]
      exact .failed _
    · by_cases hshort : (s.mStr.drop 8).length < size
      · rw [if_neg hmax, if_pos (Or.inr hshort), if_pos hshort]
        exact .failed _
      · rw [if_neg hmax, if_neg (not_or.mpr ⟨hmax, hshort⟩), if_neg hshort]
        exact .read _ _ { s with mStr := (s.mStr.drop 8).drop size }
          (iff_of_true rfl fun h => absurd h hzero)

mutual

/-- One case for each type, the elements of a tuple one after the other. -/
theorem decodeInto_twin (hstructs : ∀ name d d' s, Twin (structs name d s) (structs name d' s)
      (structSkip name s.mStr) (structSame name d d' s.mStr)) : ∀ (ty : Ty) (d d' : Val) (s : DeSerializer),
    Twin (decodeInto archive construct structs ty d s) (decodeInto archive construct structs ty d' s)
      (skip structSkip ty s.mStr) (SameWhereEmpty structSkip structSame ty d d' s.mStr)
  | .arith width, d, d', s => by
    simp only [decodeInto, skip, SameWhereEmpty, DeSerializer.input]
    split
    · exact .failed _
    · exact .read _ _ { s with mStr := s.mStr.drop width } (iff_of_true rfl trivial)
  | .string, d, d', s => string_twin archive construct structs d d' s
  | .vector width, d, d', s => vector_twin archive construct structs width d d' s
  | .bools, d, d', s => bools_twin archive construct structs d d' s
  | .tuple elems, d, d', s => by
    simp only [decodeInto, skip, SameWhereEmpty]
    refine Twin.tag fun hlen => ?_
    dsimp only
    by_cases hcount : leVal (s.mStr.take 8) = elems.length
    · have helems := decodeAllInto_twin hstructs elems d.parts d'.parts { s with mStr := s.mStr.drop 8 }
      rw [if_neg (not_not.mpr hcount), if_neg (not_not.mpr hcount), if_neg (not_not.mpr hcount)]
      exact helems.map fun a b => by rw [Val.tuple.injEq]
    · rw [if_pos hcount, if_pos hcount, if_pos hcount]
      exact .failed _
  | .unique pointee, d, d', s => by
    have hpointee := decodeInto_twin hstructs pointee (construct.value pointee) (construct.value pointee)
      { s with mStr := s.mStr.drop 2 }
    simp only [decodeInto, skip, SameWhereEmpty]
    refine (Twin.tag fun hlen => ?_).at_noexcept _
    dsimp only
    by_cases hnull : leVal (s.mStr.take 2) ≠ 0
    · rw [if_pos hnull, if_pos hnull]
      exact hpointee.diagonal (f := fun r => (Val.unique r.1, r.2)) (fun _ => rfl) trivial
    · rw [if_neg hnull, if_neg hnull]
      exact .read _ _ { s with mStr := s.mStr.drop 2 } (iff_of_true rfl trivial)
  | .shared pointee, d, d', s => by
    have hpointee := decodeInto_twin hstructs pointee (construct.value pointee) (construct.value pointee)
      (newObject { s with mStr := s.mStr.drop 8 }).2
    simp only [decodeInto, skip, SameWhereEmpty]
    refine (Twin.tag fun hlen => ?_).at_noexcept _
    dsimp only
    by_cases hnew : leVal (s.mStr.take 8) &&& ptrIdMask ≠ 0
    · rw [if_pos hnew, if_pos hnew]
      exact hpointee.diagonal (f := fun r => (Val.shared (some s.objects.length),
        setObject r.2 s.objects.length r.1)) (fun _ => rfl) trivial
    · rw [if_neg hnew, if_neg hnew]
      exact .read _ _ { s with mStr := s.mStr.drop 8 } (iff_of_true rfl trivial)
  | .struct name, d, d', s => by
    simp only [decodeInto, skip, SameWhereEmpty]
    exact (hstructs name d d' s).at_noexcept true

theorem decodeAllInto_twin (hstructs : ∀ name d d' s, Twin (structs name d s) (structs name d' s)
      (structSkip name s.mStr) (structSame name d d' s.mStr)) :
    ∀ (tys : List Ty) (ds ds' : List Val) (s : DeSerializer),
      Twin (decodeAllInto archive construct structs tys ds s) (decodeAllInto archive construct structs tys ds' s)
        (skipAll structSkip tys s.mStr) (SameAllWhereEmpty structSkip structSame tys ds ds' s.mStr)
  | [], ds, ds', s => .read [] [] s (iff_of_true rfl trivial)
  | ty :: tys, ds, ds', s => by
    have hfirst := decodeInto_twin hstructs ty (ds.headD .uniqueNull) (ds'.headD .uniqueNull) s
    simp only [decodeAllInto, skipAll, SameAllWhereEmpty]
    generalize decodeInto archive construct structs ty (ds.headD .uniqueNull) s = r,
      decodeInto archive construct structs ty (ds'.headD .uniqueNull) s = r',
      skip structSkip ty s.mStr = rest at hfirst ⊢
    cases hfirst with
    | failed failure => exact .failed failure
    | read v v' s1 hsame =>
      have hlater := decodeAllInto_twin hstructs tys ds.tail ds'.tail s1
      simp only [Exec.ok_bind, Option.mem_some_iff, forall_eq']
      generalize decodeAllInto archive construct structs tys ds.tail s1 = r,
        decodeAllInto archive construct structs tys ds'.tail s1 = r',
        skipAll structSkip tys s1.mStr = rest at hlater ⊢
      cases hlater with
      | failed failure => exact .failed failure
      | read vs vs' s2 hsames =>
        refine .read (v :: vs) (v' :: vs') s2 ?_
        rw [List.cons.injEq, hsame, hsames]

end

end Decode

theorem memberStructs_twin (archive : Archive) (construct : Construct) (members : ℕ → List Ty) (depth : ℕ) :
    ∀ name d d' s, Twin (memberStructs archive construct members depth name d s)
      (memberStructs archive construct members depth name d' s) (memberSkip members depth name s.mStr)
      (memberSame members depth name d d' s.mStr) := by
  induction depth with
  | zero => exact fun name d d' s => .failed .terminated
  | succ depth ih =>
    intro name d d' s
    have hmembers := decodeAllInto_twin archive construct _ ih (members name) d.parts d'.parts s
    exact hmembers.map fun a b => by rw [Val.struct.injEq]

/-- Whatever the bytes are, two destinations come to the same if and only if the bytes do not hold a
whole value, or hold an empty string or vector only where both destinations have the same. -/
theorem deserializeInto_same_iff (archive : Archive) (construct : Construct) (members : ℕ → List Ty)
    (depth : ℕ) (ty : Ty) (d d' : Val) (inPutStr : List Byte) :
    deserializeInto archive construct members depth ty d inPutStr
        = deserializeInto archive construct members depth ty d' inPutStr ↔
      skip (memberSkip members depth) ty inPutStr = none ∨
        SameWhereEmpty (memberSkip members depth) (memberSame members depth) ty d d' inPutStr := by
  have h := decodeInto_twin archive construct _ (memberStructs_twin archive construct members depth) ty d d'
    { mStr := inPutStr }
  unfold deserializeInto
  dsimp only at h
  generalize decodeInto archive construct (memberStructs archive construct members depth) ty d
      { mStr := inPutStr } = r,
    decodeInto archive construct (memberStructs archive construct members depth) ty d'
      { mStr := inPutStr } = r',
    skip (memberSkip members depth) ty inPutStr = rest at h ⊢
  cases h with
  | failed failure => exact iff_of_true rfl (Or.inl rfl)
  | read v v' s hsame => simp [hsame]

/-- `new T{}` of types whose default value is empty. -/
def constructEmpty : Construct := ⟨fun _ => .uniqueNull, fun _ => true⟩

/-- The images of an empty string and of empty vectors leave what the destination held. -/
theorem deserializeInto_keeps :
    deserializeInto .string constructEmpty (fun _ => []) 0 .string (.string []) (leBytes 8 0)
        ≠ deserializeInto .string constructEmpty (fun _ => []) 0 .string (.string [65]) (leBytes 8 0) ∧
      deserializeInto .binary constructEmpty (fun _ => []) 0 (.vector 1) (.vector []) (leBytes 8 0)
        ≠ deserializeInto .binary constructEmpty (fun _ => []) 0 (.vector 1) (.vector [7]) (leBytes 8 0) ∧
      deserializeInto .string constructEmpty (fun _ => []) 0 .bools (.bools []) (leBytes 8 0)
        ≠ deserializeInto .string constructEmpty (fun _ => []) 0 .bools (.bools [true]) (leBytes 8 0) := by
  refine ⟨fun h => ?_, fun h => ?_, fun h => ?_⟩
  · cases h
  · cases h
  · cases h

end DeftRpc.Serialize.Destination
