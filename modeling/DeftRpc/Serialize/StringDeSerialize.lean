import DeftRpc.Foundation.Bytes

/-!
# StringDeSerialize (StringSerializer.h, Serializer.h, type/*.h, detail/access.h)

A value comes with its type; the structs are known by number, and what their member
DeSerializeFunc does is a parameter of the decoder. Every destination is freshly
constructed, memory is never exhausted.
-/

namespace DeftRpc.Serialize
open DeftRpc.Foundation

inductive Ty where
  | arith (width : ℕ)
  | string
  | tuple (elems : List Ty)
  | unique (pointee : Ty)
  | shared (pointee : Ty)
  | struct (name : ℕ)

/-- A `shared_ptr` is the address of its object, or null. -/
inductive Val where
  | arith (bytes : List Byte)
  | string (chars : List Byte)
  | tuple (elems : List Val)
  | uniqueNull
  | unique (pointee : Val)
  | shared (address : Option ℕ)
  | struct (members : List Val)

/-! ### Exceptions -/

def argsSizeError : String := "Incorrect number of parameters."

def argsLengthError : String := "Incorrect length of input."

/-- What the `std::length_error` of `std::string` says. -/
def stringLengthError : String := "basic_string::_M_replace_aux"

/-- `terminated` is `std::terminate`. -/
inductive Failure where
  | throws (what : String)
  | terminated
  deriving DecidableEq

/-- A function declared `noexcept(spec)`. -/
def noexcept {α : Type} (spec : Bool) (body : Except Failure α) : Except Failure α :=
  match body with
  | .error (.throws what) => if spec then .error .terminated else .error (.throws what)
  | r => r

/-! ### SerializeBase -/

def ptrIdMask : ℕ := 0x8000000000000000

structure SerializeBase where
  mAddressToId : List (ℕ × ℕ) := []
  mIdToPtr : List (ℕ × ℕ) := []
  mCurIdx : ℕ := 0

def registerPrt (base : SerializeBase) (ptr : Option ℕ) : ℕ × SerializeBase :=
  match ptr with
  | none => (0, base)
  | some address =>
    match base.mAddressToId.lookup address with
    | some id => (id, base)
    | none =>
      let curIdx := (base.mCurIdx + 1) % 2 ^ 64
      (curIdx ||| ptrIdMask,
        ⟨(address, curIdx) :: base.mAddressToId, (curIdx, address) :: base.mIdToPtr, curIdx⟩)

def getPrt (base : SerializeBase) (id : ℕ) : Option ℕ := base.mIdToPtr.lookup id

/-! ### StringDeSerialize -/

/-- What is left of the input of a StringDeSerialize or a BinaryDeSerialize. `objects` are the objects
made by `new`, an address is a place in it. Nothing is there while the object is being read. -/
structure DeSerializer (V : Type) where
  base : SerializeBase := {}
  mStr : List Byte
  objects : List (Option V) := []

namespace DeSerializer
variable {V : Type}

def input (s : DeSerializer V) (lengthError : String) (size : ℕ) :
    Except Failure (List Byte × DeSerializer V) :=
  if s.mStr.length < size then .error (.throws lengthError)
  else .ok (s.mStr.take size, { s with mStr := s.mStr.drop size })

/-- DeSerializeFunc of a SizeTag of `width` bytes. -/
def sizeTag (s : DeSerializer V) (lengthError : String) (width : ℕ) : Except Failure (ℕ × DeSerializer V) :=
  noexcept true (do
    let r ← s.input lengthError width
    pure (leVal r.1, r.2))

variable {s : DeSerializer V} {size : ℕ} (lengthError : String)

theorem input_ok (h : ¬ s.mStr.length < size) :
    s.input lengthError size = .ok (s.mStr.take size, { s with mStr := s.mStr.drop size }) := if_neg h

theorem input_short (h : s.mStr.length < size) :
    s.input lengthError size = .error (.throws lengthError) := if_pos h

theorem sizeTag_ok (h : ¬ s.mStr.length < size) :
    s.sizeTag lengthError size = .ok (leVal (s.mStr.take size), { s with mStr := s.mStr.drop size }) := by
  rw [sizeTag, input_ok lengthError h]
  rfl

theorem sizeTag_short (h : s.mStr.length < size) : s.sizeTag lengthError size = .error .terminated := by
  rw [sizeTag, input_short lengthError h]
  rfl

end DeSerializer

/-- `ptr.reset(access::Construct<T>())` and RegisterPrt. -/
def newObject {V : Type} (s : DeSerializer V) : ℕ × DeSerializer V :=
  (s.objects.length, { s with
    objects := s.objects ++ [none]
    base := (registerPrt s.base (some s.objects.length)).2 })

def setObject {V : Type} (s : DeSerializer V) (address : ℕ) (v : V) : DeSerializer V :=
  { s with objects := s.objects.set address (some v) }

abbrev StringDeSerialize := DeSerializer Val

abbrev input (s : StringDeSerialize) (size : ℕ) : Except Failure (List Byte × StringDeSerialize) :=
  s.input argsLengthError size

abbrev sizeTag (s : StringDeSerialize) (width : ℕ) : Except Failure (ℕ × StringDeSerialize) :=
  s.sizeTag argsLengthError width

/-- `std::string::max_size`: half of what an allocator can hold, less the terminator. -/
def stringMaxSize : ℕ := (2 ^ 63 - 1 - 1) / 2

def resize (size : ℕ) : Except Failure Unit :=
  if stringMaxSize < size then .error (.throws stringLengthError) else .ok ()

/-- `std::is_nothrow_constructible_v<T>`. For a tuple the standard leaves it to the library, for a
struct it depends on its members. -/
structure TypeInfo where
  tupleNothrow : List Ty → Bool
  structNothrow : ℕ → Bool

def TypeInfo.nothrow (info : TypeInfo) : Ty → Bool
  | .tuple elems => info.tupleNothrow elems
  | .struct name => info.structNothrow name
  | _ => true

abbrev Decoder := StringDeSerialize → Except Failure (Val × StringDeSerialize)

section Decode
variable (info : TypeInfo) (structs : ℕ → Decoder)

mutual

/-- `sr(arg)`. -/
def decode : Ty → Decoder
  | .arith width, s => do
    let r ← input s width
    pure (.arith r.1, r.2)
  | .string, s => do
    let size ← sizeTag s 8
    if size.1 = 0 then pure (.string [], size.2)
    else do
      resize size.1
      let r ← input size.2 size.1
      pure (.string r.1, r.2)
  | .tuple elems, s => do
    let size ← sizeTag s 8
    if size.1 ≠ elems.length then .error (.throws argsSizeError)
    else do
      let r ← decodeAll elems size.2
      pure (.tuple r.1, r.2)
  | .unique pointee, s => noexcept (info.nothrow pointee) (do
    let id ← sizeTag s 2
    if id.1 ≠ 0 then do
      let r ← decode pointee id.2
      pure (.unique r.1, r.2)
    else pure (.uniqueNull, id.2))
  | .shared pointee, s => noexcept (info.nothrow pointee) (do
    let id ← sizeTag s 8
    if id.1 &&& ptrIdMask ≠ 0 then do
      let new := newObject id.2
      let r ← decode pointee new.2
      pure (.shared (some new.1), setObject r.2 new.1 r.1)
    else pure (.shared (getPrt id.2.base id.1), id.2))
  | .struct name, s => noexcept true (structs name s)

/-- `sr(args...)`. -/
def decodeAll : List Ty → StringDeSerialize → Except Failure (List Val × StringDeSerialize)
  | [], s => pure ([], s)
  | ty :: tys, s => do
    let r ← decode ty s
    let rest ← decodeAll tys r.2
    pure (r.1 :: rest.1, rest.2)

end

/-- One value from a StringDeSerialize over `inPutStr`. -/
def deserialize (ty : Ty) (inPutStr : List Byte) : Except Failure (Val × StringDeSerialize) :=
  decode info structs ty { mStr := inPutStr }

end Decode

end DeftRpc.Serialize
