import Mathlib.Data.Nat.Bitwise
import DeftRpc.Serialize.BackReferences

/-!
# StringSerialize (StringSerializer.h:17-42, type/*.h)

`heap` are the objects behind shared pointers, an address is a place in it. A struct comes with the
list of its members and with whether its SerializeFunc is const: one that cannot be called on the
argument is passed over (Serializer.h:80-83). An object is only entered when its address is
registered, so a depth of as many objects as there are suffices.
-/

namespace DeftRpc.Serialize
open DeftRpc.Foundation

structure StringSerialize where
  base : SerializeBase := {}
  mStr : List Byte := []

def outPut (s : StringSerialize) (data : List Byte) : StringSerialize :=
  { s with mStr := s.mStr ++ data }

/-- SerializeFunc of a SizeTag of `width` bytes. -/
def outSizeTag (s : StringSerialize) (width size : ℕ) : StringSerialize :=
  outPut s (leBytes width size)

/-- What `Arg` is for `operator()`: `S &`, `const S &` or `S`. -/
inductive Argument where
  | lvalue
  | constant
  | rvalue
  deriving DecidableEq

/-- `has_member_serialize_func_v`: `T &` does not bind to an rvalue, and only a const SerializeFunc is
called on a constant. -/
def hasMemberSerializeFunc (constFunc : Bool) : Argument → Bool
  | .lvalue => true
  | .constant => constFunc
  | .rvalue => false

/-- How the members arrive inside of SerializeFunc. -/
def memberArgument (constFunc : Bool) : Argument := if constFunc then .constant else .lvalue

section Encode
variable (members : ℕ → List Ty) (constFunc : ℕ → Bool)
variable (object : Ty → ℕ → StringSerialize → Option StringSerialize)

mutual

/-- `sr(arg)`; `object` is `sr(*ptr)`. -/
def encode : Argument → Ty → Val → StringSerialize → Option StringSerialize
  | _, .arith _, .arith bytes, s => some (outPut s bytes)
  | _, .string, .string chars, s =>
    let s := outSizeTag s 8 chars.length
    if chars.isEmpty then some s else some (outPut s chars)
  | _, .tuple elems, .tuple vs, s => encodeAll .constant elems vs (outSizeTag s 8 elems.length)
  | _, .unique _, .uniqueNull, s => some (outSizeTag s 2 0)
  | _, .unique pointee, .unique v, s => encode .lvalue pointee v (outSizeTag s 2 1)
  | _, .shared pointee, .shared ptr, s =>
    let id := registerPrt s.base ptr
    let s := outSizeTag { s with base := id.2 } 8 id.1
    if id.1 &&& ptrIdMask ≠ 0 then ptr.bind fun address => object pointee address s
    else some s
  | arg, .struct name, .struct vs, s =>
    if hasMemberSerializeFunc (constFunc name) arg then
      encodeAll (memberArgument (constFunc name)) (members name) vs s
    else some s
  | _, _, _, _ => none

/-- `sr(args...)`, all of them arriving alike. -/
def encodeAll : Argument → List Ty → List Val → StringSerialize → Option StringSerialize
  | _, [], [], s => some s
  | arg, ty :: tys, v :: vs, s => (encode arg ty v s).bind (encodeAll arg tys vs)
  | _, _, _, _ => none

end

end Encode

section Serialize
variable (members : ℕ → List Ty) (constFunc : ℕ → Bool) (heap : List Val)

def encodeObject : ℕ → Ty → ℕ → StringSerialize → Option StringSerialize
  | 0, _, _, _ => none
  | depth + 1, ty, address, s =>
    heap[address]?.bind fun v => encode members constFunc (encodeObject depth) .lvalue ty v s

/-- One value into an empty string. -/
def serialize (arg : Argument) (ty : Ty) (v : Val) : Option StringSerialize :=
  encode members constFunc (encodeObject members constFunc heap heap.length) arg ty v {}

end Serialize

/-! ### The table -/

def SerializeBase.idOf (base : SerializeBase) (address : ℕ) : Option ℕ :=
  base.mAddressToId.lookup address

theorem encode_null (members : ℕ → List Ty) (constFunc : ℕ → Bool)
    (object : Ty → ℕ → StringSerialize → Option StringSerialize) (arg : Argument) (pointee : Ty)
    (s : StringSerialize) :
    encode members constFunc object arg (.shared pointee) (.shared none) s = some (outSizeTag s 8 0) := by
  have hnull : ¬ 0 &&& ptrIdMask ≠ 0 := by decide
  rw [encode]
  exact if_neg hnull

theorem registerPrt_known {base : SerializeBase} {address id : ℕ} (h : base.idOf address = some id) :
    registerPrt base (some address) = (id, base) := by
  unfold SerializeBase.idOf at h
  simp only [registerPrt, h]

theorem registerPrt_new {base : SerializeBase} {address : ℕ} (h : base.idOf address = none) :
    (registerPrt base (some address)).1 = (base.mCurIdx + 1) % 2 ^ 64 ||| ptrIdMask ∧
      (registerPrt base (some address)).2.mCurIdx = (base.mCurIdx + 1) % 2 ^ 64 ∧
      ∀ other, (registerPrt base (some address)).2.idOf other
        = if other = address then some ((base.mCurIdx + 1) % 2 ^ 64) else base.idOf other := by
  unfold SerializeBase.idOf at h
  simp only [registerPrt, h, SerializeBase.idOf, List.lookup_cons, true_and]
  intro other
  by_cases hsame : other = address
  · simp [hsame]
  · have hne : (other == address) = false := by
      rw [beq_eq_false_iff_ne]
      exact hsame
    rw [hne, if_neg hsame]

theorem id_not_masked {id : ℕ} (h : id < 2 ^ 63) : id &&& ptrIdMask = 0 := by
  have hbit : id.testBit 63 = false := Nat.testBit_lt_two_pow h
  rw [show ptrIdMask = 2 ^ 63 from rfl, Nat.and_two_pow, hbit]
  rfl

theorem id_masked (id : ℕ) : (id ||| ptrIdMask) &&& ptrIdMask ≠ 0 := by
  rw [show ptrIdMask = 2 ^ 63 from rfl, Nat.and_two_pow, Nat.testBit_or, Nat.testBit_two_pow_self,
    Bool.or_true]
  decide

theorem id_masked_lt {id : ℕ} (h : id < 2 ^ 63) : (id ||| ptrIdMask) < 2 ^ 64 :=
  Nat.or_lt_two_pow (by omega) (by decide)

/-! ### Serialization comes to an end -/

def unregistered (heap : List Val) (base : SerializeBase) : ℕ :=
  ((List.range heap.length).filter fun address => (base.idOf address).isNone).length

/-- The numbers are those up to the last one, and each belongs to an object. -/
structure Counts (heap : List Val) (base : SerializeBase) : Prop where
  ids : ∀ address id, base.idOf address = some id → id ≤ base.mCurIdx
  count : base.mCurIdx + unregistered heap base ≤ heap.length

theorem Counts.start (heap : List Val) : Counts heap {} := by
  refine ⟨fun address id h => (by cases h), ?_⟩
  have hle := List.length_filter_le (fun address => (SerializeBase.idOf {} address).isNone)
    (List.range heap.length)
  rw [List.length_range] at hle
  show 0 + unregistered heap {} ≤ heap.length
  unfold unregistered
  omega

theorem unregistered_lt {heap : List Val} {base : SerializeBase} {address : ℕ}
    (h : base.idOf address = none) (hlt : address < heap.length) :
    unregistered heap (registerPrt base (some address)).2 < unregistered heap base := by
  have hnew := (registerPrt_new h).2.2
  have hmem : address ∈ (List.range heap.length).filter fun a => (base.idOf a).isNone := by
    rw [List.mem_filter, List.mem_range, h]
    exact ⟨hlt, rfl⟩
  have hsub : ((List.range heap.length).filter fun a =>
      ((registerPrt base (some address)).2.idOf a).isNone) =
      ((List.range heap.length).filter fun a => (base.idOf a).isNone).filter fun a => a ≠ address := by
    rw [List.filter_filter]
    apply List.filter_congr
    intro a _
    rw [hnew]
    by_cases hsame : a = address
    · simp [hsame]
    · simp [hsame]
  unfold unregistered
  rw [hsub]
  apply List.length_filter_lt_length_iff_exists.mpr
  exact ⟨address, hmem, by simp⟩

theorem Counts.register {heap : List Val} {base : SerializeBase} (h : Counts heap base)
    (hsize : heap.length < 2 ^ 63) {address : ℕ} (hnew : base.idOf address = none)
    (hlt : address < heap.length) : Counts heap (registerPrt base (some address)).2 := by
  obtain ⟨-, hidx, hids⟩ := registerPrt_new hnew
  have hless := unregistered_lt hnew hlt
  have hcount := h.count
  have hmod : (base.mCurIdx + 1) % 2 ^ 64 = base.mCurIdx + 1 := Nat.mod_eq_of_lt (by omega)
  rw [hmod] at hidx hids
  refine ⟨fun other id hid => ?_, by omega⟩
  rw [hids] at hid
  split at hid
  · cases hid
    omega
  · have hle := h.ids other id hid
    omega

/-- The objects of shared pointers, each a value of its one type. -/
structure TypedHeap (members : ℕ → List Ty) (types : List Ty) (heap : List Val) : Prop where
  length : heap.length = types.length
  values : ∀ (address : ℕ) (v : Val), heap[address]? = some v →
    ∃ pointee, types[address]? = some pointee ∧ HasType members types pointee v

section Total
variable {members : ℕ → List Ty} {constFunc : ℕ → Bool} {types : List Ty} {heap : List Val} {n : ℕ}
variable {object : Ty → ℕ → StringSerialize → Option StringSerialize}

/-- An object is entered when fewer than `n` have no number. -/
def ObjectsEnd (types : List Ty) (heap : List Val)
    (object : Ty → ℕ → StringSerialize → Option StringSerialize) (n : ℕ) : Prop :=
  ∀ ty address s, types[address]? = some ty → Counts heap s.base → unregistered heap s.base < n →
    ∃ s', object ty address s = some s' ∧ Counts heap s'.base ∧
      unregistered heap s'.base ≤ unregistered heap s.base

theorem encode_shared_ends (hsize : heap.length < 2 ^ 63) (hobject : ObjectsEnd types heap object n)
    (hlength : heap.length = types.length) {address : ℕ} {pointee : Ty}
    (htype : types[address]? = some pointee) (arg : Argument) (s : StringSerialize)
    (hs : Counts heap s.base) (hn : unregistered heap s.base ≤ n) :
    ∃ s', encode members constFunc object arg (.shared pointee) (.shared (some address)) s = some s' ∧
      Counts heap s'.base ∧ unregistered heap s'.base ≤ unregistered heap s.base := by
  obtain ⟨hlt, -⟩ := List.getElem?_eq_some_iff.mp htype
  rw [← hlength] at hlt
  simp only [encode]
  cases hid : s.base.idOf address with
  | some id =>
    have hle := hs.ids address id hid
    have hcount := hs.count
    rw [registerPrt_known hid, if_neg (not_not.mpr (id_not_masked (by omega)))]
    exact ⟨_, rfl, hs, le_refl _⟩
  | none =>
    have hless := unregistered_lt hid hlt
    rw [(registerPrt_new hid).1, if_pos (id_masked _)]
    obtain ⟨s', hs', hcounts, hle⟩ := hobject pointee address
      (outSizeTag { s with base := (registerPrt s.base (some address)).2 } 8
        ((s.base.mCurIdx + 1) % 2 ^ 64 ||| ptrIdMask)) htype (hs.register hsize hid hlt)
      (Nat.lt_of_lt_of_le hless hn)
    exact ⟨s', hs', hcounts, le_trans hle (le_of_lt hless)⟩

mutual

theorem encode_ends (hsize : heap.length < 2 ^ 63) (hobject : ObjectsEnd types heap object n)
    (hlength : heap.length = types.length) :
    ∀ {ty : Ty} {v : Val}, HasType members types ty v → ∀ arg s, Counts heap s.base →
      unregistered heap s.base ≤ n →
      ∃ s', encode members constFunc object arg ty v s = some s' ∧ Counts heap s'.base ∧
        unregistered heap s'.base ≤ unregistered heap s.base
  | _, _, .arith _, arg, s, hs, _ => ⟨outPut s _, by rw [encode], hs, le_refl _⟩
  | _, _, .string _, arg, s, hs, _ => by
    simp only [encode]
    split
    · exact ⟨_, rfl, hs, le_refl _⟩
    · exact ⟨_, rfl, hs, le_refl _⟩
  | _, _, .tuple _ hvs, arg, s, hs, hn => by
    simp only [encode]
    exact encodeAll_ends hsize hobject hlength hvs .constant _ hs hn
  | _, _, .uniqueNull _, arg, s, hs, _ => ⟨outSizeTag s 2 0, by rw [encode], hs, le_refl _⟩
  | _, _, .unique hv, arg, s, hs, hn => by
    simp only [encode]
    exact encode_ends hsize hobject hlength hv .lvalue _ hs hn
  | _, _, .sharedNull pointee, arg, s, hs, _ =>
    ⟨_, encode_null members constFunc object arg pointee s, hs, le_refl _⟩
  | _, _, .shared htype, arg, s, hs, hn => encode_shared_ends hsize hobject hlength htype arg s hs hn
  | _, _, .struct hvs, arg, s, hs, hn => by
    simp only [encode]
    split
    · exact encodeAll_ends hsize hobject hlength hvs _ s hs hn
    · exact ⟨s, rfl, hs, le_refl _⟩

theorem encodeAll_ends (hsize : heap.length < 2 ^ 63) (hobject : ObjectsEnd types heap object n)
    (hlength : heap.length = types.length) :
    ∀ {tys : List Ty} {vs : List Val}, HasTypes members types tys vs → ∀ arg s, Counts heap s.base →
      unregistered heap s.base ≤ n →
      ∃ s', encodeAll members constFunc object arg tys vs s = some s' ∧ Counts heap s'.base ∧
        unregistered heap s'.base ≤ unregistered heap s.base
  | _, _, .nil, arg, s, hs, _ => ⟨s, by rw [encodeAll], hs, le_refl _⟩
  | _, _, .cons hv hvs, arg, s, hs, hn => by
    obtain ⟨s1, hone, hs1, hle⟩ := encode_ends hsize hobject hlength hv arg s hs hn
    obtain ⟨s2, hrest, hs2, hle'⟩ := encodeAll_ends hsize hobject hlength hvs arg s1 hs1
      (le_trans hle hn)
    simp only [encodeAll, hone, Option.bind_some]
    exact ⟨s2, hrest, hs2, le_trans hle' hle⟩

end

theorem encodeObject_ends (hsize : heap.length < 2 ^ 63) (hheap : TypedHeap members types heap)
    (depth : ℕ) : ObjectsEnd types heap (encodeObject members constFunc heap depth) depth := by
  induction depth with
  | zero => exact fun ty address s _ _ h => absurd h (Nat.not_lt_zero _)
  | succ depth ih =>
    intro ty address s htype hs hn
    obtain ⟨hlt, -⟩ := List.getElem?_eq_some_iff.mp htype
    rw [← hheap.length] at hlt
    have hget : heap[address]? = some heap[address] := List.getElem?_eq_getElem hlt
    obtain ⟨pointee, hpointee, hv⟩ := hheap.values address _ hget
    rw [htype] at hpointee
    cases hpointee
    obtain ⟨s', hs', hext⟩ := encode_ends hsize ih hheap.length hv .lvalue s hs (by omega)
    refine ⟨s', ?_, hext⟩
    rw [encodeObject, hget]
    exact hs'

theorem serialize_ends (hsize : heap.length < 2 ^ 63) (hheap : TypedHeap members types heap)
    {ty : Ty} {v : Val} (hv : HasType members types ty v) (arg : Argument) :
    ∃ s, serialize members constFunc heap arg ty v = some s := by
  have hstart := Counts.start heap
  obtain ⟨s, hs, -⟩ := encode_ends hsize (encodeObject_ends hsize hheap heap.length) hheap.length hv
    arg {} hstart (le_trans (Nat.le_add_left _ _) hstart.count)
  exact ⟨s, hs⟩

end Total

end DeftRpc.Serialize
