import DeftRpc.Serialize.Destination
import DeftRpc.Serialize.StringSerialize

/-!
# BinarySerialize and back (BinarySerialize.h:15-67, type/*.h)

What arithmetic values, strings, vectors, tuples, unique pointers and structs of them come to when
they are written to a stream and read into objects that exist. The stream takes every byte.
-/

namespace DeftRpc.Serialize.Destination
open DeftRpc.Foundation

structure BinarySerialize where
  base : SerializeBase := {}
  mOs : List Byte := []

def outPut (s : BinarySerialize) (data : List Byte) : BinarySerialize :=
  { s with mOs := s.mOs ++ data }

/-- SerializeFunc of a SizeTag of `width` bytes. -/
def outSizeTag (s : BinarySerialize) (width size : ℕ) : BinarySerialize :=
  outPut s (leBytes width size)

abbrev Encoder := BinarySerialize → Option BinarySerialize

def outFlags (elems : List Bool) (s : BinarySerialize) : BinarySerialize :=
  elems.foldl (fun s it => outPut s [if it then 1 else 0]) s

section Encode
variable (object : Ty → ℕ → Encoder) (structs : ℕ → Argument → Val → Encoder)

mutual

/-- `sr(arg)` for an argument of the type; `object` is `sr(*ptr)`. -/
def encode : Argument → Ty → Val → Encoder
  | _, .arith _, .arith bytes => fun s => some (outPut s bytes)
  | _, .string, .string chars => fun s =>
    let s := outSizeTag s 8 chars.length
    if chars.isEmpty then some s else some (outPut s chars)
  | _, .vector width, .vector bytes => fun s =>
    let s := outSizeTag s 8 (bytes.length / width)
    if bytes.isEmpty then some s else some (outPut s bytes)
  | _, .bools, .bools elems => fun s => some (outFlags elems (outSizeTag s 8 elems.length))
  | _, .tuple elems, .tuple vs => fun s => encodeAll .constant elems vs (outSizeTag s 8 elems.length)
  | _, .unique _, .uniqueNull => fun s => some (outSizeTag s 2 0)
  | _, .unique pointee, .unique v => fun s => encode .lvalue pointee v (outSizeTag s 2 1)
  | _, .shared pointee, .shared ptr => fun s =>
    let id := registerPrt s.base ptr
    let s := outSizeTag { s with base := id.2 } 8 id.1
    if id.1 &&& ptrIdMask ≠ 0 then ptr.bind fun address => object pointee address s
    else some s
  | arg, .struct name, v => structs name arg v
  | _, _, _ => fun _ => none

/-- `sr(args...)`, all of them arriving alike. -/
def encodeAll : Argument → List Ty → List Val → Encoder
  | _, [], [] => some
  | arg, ty :: tys, v :: vs => fun s => (encode arg ty v s).bind (encodeAll arg tys vs)
  | _, _, _ => fun _ => none

end

end Encode

section Serialize
variable (heap : List Val) (members : ℕ → List Ty) (constFunc : ℕ → Bool)

/-- The objects behind shared pointers and the structs, down to a depth. A struct whose SerializeFunc
cannot be called is passed over. -/
def encodeParts : ℕ → (Ty → ℕ → Encoder) × (ℕ → Argument → Val → Encoder)
  | 0 => (fun _ _ _ => none, fun _ _ _ _ => none)
  | depth + 1 =>
    let parts := encodeParts depth
    (fun pointee address s => heap[address]?.bind fun v => encode parts.1 parts.2 .lvalue pointee v s,
      fun name arg v s =>
        if hasMemberSerializeFunc (constFunc name) arg then
          encodeAll parts.1 parts.2 (memberArgument (constFunc name)) (members name) v.parts s
        else some s)

/-- Values one after the other into an empty stream. -/
def serialize (depth : ℕ) (arg : Argument) (tys : List Ty) (vs : List Val) : Option BinarySerialize :=
  encodeAll (encodeParts heap members constFunc depth).1 (encodeParts heap members constFunc depth).2
    arg tys vs {}

end Serialize

/-! ### Values of a type -/

section Fits
variable (structFits : ℕ → Argument → Val → Prop)

mutual

/-- A value of the type in which nothing is behind a shared pointer. -/
def Fits : Argument → Ty → Val → Prop
  | _, .arith width, v => ∃ bytes, v = .arith bytes ∧ bytes.length = width
  | _, .string, v => ∃ chars, v = .string chars ∧ chars.length ≤ stringMaxSize
  | _, .vector width, v => ∃ bytes size, v = .vector bytes ∧ bytes.length = size * width ∧ 0 < width ∧
      size ≤ vectorMaxSize width
  | _, .bools, v => ∃ elems, v = .bools elems ∧ elems.length ≤ boolsMaxSize
  | _, .tuple elems, v => ∃ vs, v = .tuple vs ∧ elems.length < 2 ^ 64 ∧ FitsAll .constant elems vs
  | _, .unique pointee, v => v = .uniqueNull ∨ ∃ u, v = .unique u ∧ Fits .lvalue pointee u
  | _, .shared _, _ => False
  | arg, .struct name, v => structFits name arg v

def FitsAll : Argument → List Ty → List Val → Prop
  | _, [], vs => vs = []
  | arg, ty :: tys, vs => ∃ u us, vs = u :: us ∧ Fits arg ty u ∧ FitsAll arg tys us

end

end Fits

/-- The SerializeFunc of every struct can be called. -/
def memberFits (members : ℕ → List Ty) (constFunc : ℕ → Bool) : ℕ → ℕ → Argument → Val → Prop
  | 0, _, _, _ => False
  | depth + 1, name, arg, v => hasMemberSerializeFunc (constFunc name) arg = true ∧ ∃ vs,
      v = .struct vs ∧ FitsAll (memberFits members constFunc depth) (memberArgument (constFunc name))
        (members name) vs

/-! ### What the destination becomes -/

section Overlay
variable (construct : Construct) (structOverlay : ℕ → Val → Val → Val)

mutual

/-- The value `v` read into an object that holds `d`: an empty string or vector changes nothing. -/
def overlay : Ty → Val → Val → Val
  | .arith _, v, _ => v
  | .string, v, d => if v.chars = [] then .string d.chars else v
  | .vector _, v, d => if v.bytes = [] then .vector d.bytes else v
  | .bools, v, d => if v.flags = [] then .bools d.flags else v
  | .tuple elems, v, d => .tuple (overlayAll elems v.parts d.parts)
  | .unique pointee, .unique v, _ => .unique (overlay pointee v (construct.value pointee))
  | .unique _, v, _ => v
  | .shared _, v, _ => v
  | .struct name, v, d => structOverlay name v d

def overlayAll : List Ty → List Val → List Val → List Val
  | [], vs, _ => vs
  | ty :: tys, vs, ds =>
    overlay ty (vs.headD .uniqueNull) (ds.headD .uniqueNull) :: overlayAll tys vs.tail ds.tail

end

variable (structRestores : ℕ → Val → Val → Prop)

mutual

/-- Wherever the value has an empty string or vector, the object has one as well; behind a unique
pointer the object is a new one. -/
def Restores : Ty → Val → Val → Prop
  | .arith _, _, _ => True
  | .string, v, d => v.chars = [] → d.chars = []
  | .vector _, v, d => v.bytes = [] → d.bytes = []
  | .bools, v, d => v.flags = [] → d.flags = []
  | .tuple elems, v, d => RestoresAll elems v.parts d.parts
  | .unique pointee, .unique v, _ => Restores pointee v (construct.value pointee)
  | .unique _, _, _ => True
  | .shared _, _, _ => True
  | .struct name, v, d => structRestores name v d

def RestoresAll : List Ty → List Val → List Val → Prop
  | [], _, _ => True
  | ty :: tys, vs, ds => Restores ty (vs.headD .uniqueNull) (ds.headD .uniqueNull) ∧
      RestoresAll tys vs.tail ds.tail

end

end Overlay

def memberOverlay (construct : Construct) (members : ℕ → List Ty) : ℕ → ℕ → Val → Val → Val
  | 0, _, v, _ => v
  | depth + 1, name, v, d =>
    .struct (overlayAll construct (memberOverlay construct members depth) (members name) v.parts d.parts)

def memberRestores (construct : Construct) (members : ℕ → List Ty) : ℕ → ℕ → Val → Val → Prop
  | 0, _, _, _ => True
  | depth + 1, name, v, d =>
    RestoresAll construct (memberRestores construct members depth) (members name) v.parts d.parts

/-! ### Reading back what was written -/

theorem outPut_outPut (s : BinarySerialize) (data more : List Byte) :
    outPut (outPut s data) more = outPut s (data ++ more) := by
  simp only [outPut, List.append_assoc]

theorem outPut_nil (s : BinarySerialize) : outPut s [] = s := by
  simp only [outPut, List.append_nil]

theorem outFlags_eq (elems : List Bool) (s : BinarySerialize) :
    outFlags elems s = outPut s (elems.map fun it => if it then 1 else 0) := by
  induction elems generalizing s with
  | nil => exact (outPut_nil s).symm
  | cons it elems ih =>
    rw [outFlags, List.foldl_cons]
    exact (ih _).trans (outPut_outPut s _ _)

theorem flags_written (elems : List Bool) :
    (elems.map fun it => if it then (1 : Byte) else 0).map (fun b => decide (b.val ≠ 0)) = elems := by
  rw [List.map_map]
  exact (List.map_congr_left fun it _ => by cases it <;> rfl).trans (List.map_id elems)

section Written
variable {archive : Archive} {s : DeSerializer} {rest : List Byte}

theorem input_written {bytes : List Byte} (h : s.mStr = bytes ++ rest) :
    input archive s bytes.length = .ok (bytes, { s with mStr := rest }) := by
  have hlen : ¬ s.mStr.length < bytes.length := by
    rw [h, List.length_append]
    omega
  rw [input_ok hlen, h, List.take_left, List.drop_left]

theorem sizeTag_written {width n : ℕ} (h : s.mStr = leBytes width n ++ rest) (hn : n < 256 ^ width) :
    sizeTag archive s width = .ok (n, { s with mStr := rest }) := by
  have hinput : input archive s (leBytes width n).length = _ := input_written h
  rw [leBytes_length] at hinput
  rw [sizeTag, DeSerializer.sizeTag, show s.input archive.lengthError width = _ from hinput, Exec.ok_bind,
    leVal_leBytes hn]
  rfl

end Written

/-- What the encoder adds to the stream is read back as the given value. -/
def Reads {α : Type} (out : List Byte) (encoder : Encoder)
    (decoder : α → DeSerializer → Except Failure (α × DeSerializer)) (result : α → α) : Prop :=
  (∀ s, encoder s = some (outPut s out)) ∧
    ∀ d t rest, t.mStr = out ++ rest → decoder d t = .ok (result d, { t with mStr := rest })

section Decode
variable {object : Ty → ℕ → Encoder} {structsOut : ℕ → Argument → Val → Encoder}
  {construct : Construct} {structsIn : ℕ → Val → Decoder} {structFits : ℕ → Argument → Val → Prop}
  {structOverlay : ℕ → Val → Val → Val} {arg : Argument}

theorem arith_reads (bytes : List Byte) :
    Reads bytes (encode object structsOut arg (.arith bytes.length) (.arith bytes))
      (decodeInto .binary construct structsIn (.arith bytes.length))
      (overlay construct structOverlay (.arith bytes.length) (.arith bytes)) := by
  refine ⟨fun s => rfl, ?_⟩
  intro d t rest ht
  rw [decodeInto, input_written ht]
  rfl

theorem string_reads {chars : List Byte} (hmax : chars.length ≤ stringMaxSize) :
    Reads (leBytes 8 chars.length ++ chars) (encode object structsOut arg .string (.string chars))
      (decodeInto .binary construct structsIn .string)
      (overlay construct structOverlay .string (.string chars)) := by
  have hlt : chars.length < 256 ^ 8 := lt_of_le_of_lt hmax (by decide)
  refine ⟨fun s => ?_, ?_⟩
  · cases chars with
    | nil => exact congrArg some (by rw [List.append_nil]; rfl)
    | cons c chars => exact congrArg some (outPut_outPut s _ _)
  · intro d t rest ht
    rw [List.append_assoc] at ht
    rw [decodeInto, sizeTag_written ht hlt, Exec.ok_bind]
    cases chars with
    | nil => rfl
    | cons c chars =>
      have hshort : ¬ (c :: chars ++ rest).length < (c :: chars).length := by
        rw [List.length_append]
        omega
      rw [readString_result d.chars (by simp), if_neg (not_lt.mpr hmax), if_neg hshort, List.take_left,
        List.drop_left]
      rfl

theorem vector_reads {width size : ℕ} {bytes : List Byte} (hlen : bytes.length = size * width)
    (hwidth : 0 < width) (hmax : size ≤ vectorMaxSize width) :
    Reads (leBytes 8 size ++ bytes) (encode object structsOut arg (.vector width) (.vector bytes))
      (decodeInto .binary construct structsIn (.vector width))
      (overlay construct structOverlay (.vector width) (.vector bytes)) := by
  have hsize : bytes.length / width = size := by
    rw [hlen]
    exact Nat.mul_div_cancel size hwidth
  have hlt : size < 256 ^ 8 := by
    have hle : vectorMaxSize width ≤ 2 ^ 63 - 1 := Nat.div_le_self _ _
    omega
  have hempty : size = 0 ↔ bytes = [] := by
    rw [← List.length_eq_zero_iff, hlen, Nat.mul_eq_zero]
    exact ⟨Or.inl, fun h => h.resolve_right (by omega)⟩
  refine ⟨fun s => ?_, ?_⟩
  · simp only [encode, hsize]
    by_cases hnil : bytes = []
    · rw [hnil, List.append_nil]
      rfl
    · rw [if_neg (by simpa using hnil)]
      exact congrArg some (outPut_outPut s _ _)
  · intro d t rest ht
    rw [List.append_assoc] at ht
    rw [decodeInto, sizeTag_written ht hlt, Exec.ok_bind, overlay]
    by_cases hzero : size = 0
    · have hnil := hempty.mp hzero
      simp only [hzero, hnil, if_true, Val.bytes, List.nil_append]
      rfl
    · have hinput : input .binary { t with mStr := bytes ++ rest } bytes.length = _ := input_written rfl
      have hcopied := copied_resized 0 bytes d.bytes
      rw [hlen] at hinput hcopied
      have hbytes : (Val.vector bytes).bytes ≠ [] := mt hempty.mpr hzero
      simp only [hzero, if_false, not_lt.mpr hmax, hinput, Exec.ok_bind, hcopied, hbytes]
      rfl

theorem bools_reads {elems : List Bool} (hmax : elems.length ≤ boolsMaxSize) :
    Reads (leBytes 8 elems.length ++ elems.map fun it => if it then 1 else 0)
      (encode object structsOut arg .bools (.bools elems)) (decodeInto .binary construct structsIn .bools)
      (overlay construct structOverlay .bools (.bools elems)) := by
  have hlt : elems.length < 256 ^ 8 := lt_of_le_of_lt hmax (by decide)
  refine ⟨fun s => ?_, ?_⟩
  · simp only [encode, outFlags_eq]
    exact congrArg some (outPut_outPut s _ _)
  · intro d t rest ht
    rw [List.append_assoc] at ht
    rw [decodeInto, sizeTag_written ht hlt, Exec.ok_bind, overlay]
    by_cases hzero : elems.length = 0
    · have hnil := List.length_eq_zero_iff.mp hzero
      simp only [hnil, List.length_nil, if_true, Val.flags, List.map_nil, List.nil_append]
      rfl
    · have hflags : (Val.bools elems).flags ≠ [] := mt List.length_eq_zero_iff.mpr hzero
      have hread := @readFlags_eq .binary elems.length [] _ (length_resized false elems.length d.flags)
        { t with mStr := (elems.map fun it => if it then (1 : Byte) else 0) ++ rest }
      rw [List.nil_append, List.length_nil, if_neg (by simp), List.nil_append,
        List.take_left' (List.length_map _), List.drop_left' (List.length_map _), flags_written] at hread
      simp only [hzero, if_false, not_lt.mpr hmax, hflags, hread]
      rfl

theorem tuple_reads {elems : List Ty} {vs : List Val} {out : List Byte} (hcount : elems.length < 2 ^ 64)
    (h : Reads out (encodeAll object structsOut .constant elems vs) (decodeAllInto .binary construct structsIn elems)
      (overlayAll construct structOverlay elems vs)) :
    Reads (leBytes 8 elems.length ++ out) (encode object structsOut arg (.tuple elems) (.tuple vs))
      (decodeInto .binary construct structsIn (.tuple elems))
      (overlay construct structOverlay (.tuple elems) (.tuple vs)) := by
  have hlt : elems.length < 256 ^ 8 := lt_of_lt_of_eq hcount (by decide)
  refine ⟨fun s => ?_, ?_⟩
  · simp only [encode, h.1]
    exact congrArg some (outPut_outPut s _ _)
  · intro d t rest ht
    rw [List.append_assoc] at ht
    have helems := h.2 d.parts { t with mStr := out ++ rest } rest rfl
    rw [decodeInto, sizeTag_written ht hlt, Exec.ok_bind]
    simp only [ne_eq, not_true_eq_false, if_false, helems]
    rfl

theorem unique_reads {pointee : Ty} {v : Val} {out : List Byte}
    (h : Reads out (encode object structsOut .lvalue pointee v) (decodeInto .binary construct structsIn pointee)
      (overlay construct structOverlay pointee v)) :
    Reads (leBytes 2 1 ++ out) (encode object structsOut arg (.unique pointee) (.unique v))
      (decodeInto .binary construct structsIn (.unique pointee))
      (overlay construct structOverlay (.unique pointee) (.unique v)) := by
  refine ⟨fun s => ?_, ?_⟩
  · simp only [encode, h.1]
    exact congrArg some (outPut_outPut s _ _)
  · intro d t rest ht
    rw [List.append_assoc] at ht
    have hpointee := h.2 (construct.value pointee) { t with mStr := out ++ rest } rest rfl
    rw [decodeInto, sizeTag_written ht (by decide), Exec.ok_bind]
    simp only [ne_eq, one_ne_zero, not_false_eq_true, if_true, hpointee]
    rfl

theorem uniqueNull_reads (pointee : Ty) :
    Reads (leBytes 2 0) (encode object structsOut arg (.unique pointee) .uniqueNull)
      (decodeInto .binary construct structsIn (.unique pointee))
      (overlay construct structOverlay (.unique pointee) .uniqueNull) := by
  refine ⟨fun s => rfl, ?_⟩
  intro d t rest ht
  rw [decodeInto, sizeTag_written ht (by decide), Exec.ok_bind]
  rfl

mutual

/-- One case for each type, the elements of a tuple one after the other. -/
theorem encode_reads (hstructs : ∀ name arg v, structFits name arg v →
      ∃ out, Reads out (structsOut name arg v) (structsIn name) (structOverlay name v)) :
    ∀ arg ty v, Fits structFits arg ty v → ∃ out, Reads out (encode object structsOut arg ty v)
      (decodeInto .binary construct structsIn ty) (overlay construct structOverlay ty v)
  | arg, .arith width, v, h => by
    obtain ⟨bytes, rfl, rfl⟩ := h
    exact ⟨_, arith_reads bytes⟩
  | arg, .string, v, h => by
    obtain ⟨chars, rfl, hmax⟩ := h
    exact ⟨_, string_reads hmax⟩
  | arg, .vector width, v, h => by
    obtain ⟨bytes, size, rfl, hlen, hwidth, hmax⟩ := h
    exact ⟨_, vector_reads hlen hwidth hmax⟩
  | arg, .bools, v, h => by
    obtain ⟨elems, rfl, hmax⟩ := h
    exact ⟨_, bools_reads hmax⟩
  | arg, .tuple elems, v, h => by
    obtain ⟨vs, rfl, hcount, helems⟩ := h
    obtain ⟨out, hout⟩ := encodeAll_reads hstructs .constant elems vs helems
    exact ⟨_, tuple_reads hcount hout⟩
  | arg, .unique pointee, v, h => by
    rcases h with rfl | ⟨u, rfl, hu⟩
    · exact ⟨_, uniqueNull_reads pointee⟩
    · obtain ⟨out, hout⟩ := encode_reads hstructs .lvalue pointee u hu
      exact ⟨_, unique_reads hout⟩
  | _, .shared _, _, h => h.elim
  | arg, .struct name, v, h => by
    obtain ⟨out, hencode, hdecode⟩ := hstructs name arg v h
    refine ⟨out, fun s => ?_, ?_⟩
    · rw [encode]
      exact hencode s
    · intro d t rest ht
      rw [decodeInto, hdecode d t rest ht]
      rfl

theorem encodeAll_reads (hstructs : ∀ name arg v, structFits name arg v →
      ∃ out, Reads out (structsOut name arg v) (structsIn name) (structOverlay name v)) :
    ∀ arg tys vs, FitsAll structFits arg tys vs → ∃ out, Reads out (encodeAll object structsOut arg tys vs)
      (decodeAllInto .binary construct structsIn tys) (overlayAll construct structOverlay tys vs)
  | arg, [], vs, h => by
    cases h
    refine ⟨[], fun s => ?_, ?_⟩
    · rw [encodeAll, outPut_nil]
    · intro ds t rest ht
      rw [List.nil_append] at ht
      rw [decodeAllInto, ← ht]
      rfl
  | arg, ty :: tys, vs, h => by
    obtain ⟨u, us, rfl, hu, hus⟩ := h
    obtain ⟨out, hencode, hdecode⟩ := encode_reads hstructs arg ty u hu
    obtain ⟨outs, hencodes, hdecodes⟩ := encodeAll_reads hstructs arg tys us hus
    refine ⟨out ++ outs, fun s => ?_, ?_⟩
    · simp only [encodeAll, hencode, Option.bind_some, hencodes, outPut_outPut]
    · intro ds t rest ht
      rw [List.append_assoc] at ht
      have hlater := hdecodes ds.tail { t with mStr := outs ++ rest } rest rfl
      simp only [decodeAllInto, hdecode _ t _ ht, Exec.ok_bind, hlater]
      rfl

end

end Decode

theorem encodeParts_reads (heap : List Val) (members : ℕ → List Ty) (constFunc : ℕ → Bool)
    (construct : Construct) (depth : ℕ) :
    ∀ name arg v, memberFits members constFunc depth name arg v →
      ∃ out, Reads out ((encodeParts heap members constFunc depth).2 name arg v)
        (memberStructs .binary construct members depth name) (memberOverlay construct members depth name v) := by
  induction depth with
  | zero => exact fun name arg v h => h.elim
  | succ depth ih =>
    intro name arg v h
    obtain ⟨hcall, vs, rfl, hvs⟩ := h
    have hreads : ∃ out, Reads out
        (encodeAll (encodeParts heap members constFunc depth).1 (encodeParts heap members constFunc depth).2
          (memberArgument (constFunc name)) (members name) vs)
        (decodeAllInto .binary construct (memberStructs .binary construct members depth) (members name))
        (overlayAll construct (memberOverlay construct members depth) (members name) vs) :=
      encodeAll_reads ih _ (members name) vs hvs
    obtain ⟨out, hencode, hdecode⟩ := hreads
    refine ⟨out, fun s => ?_, ?_⟩
    · simp only [encodeParts, if_pos hcall]
      exact hencode s
    · intro d t rest ht
      simp only [memberStructs, hdecode d.parts t rest ht]
      rfl

/-! ### When the value comes back -/

theorem kept_iff {α : Type} {c : List α → Val} (hc : Function.Injective c) {xs ys : List α} :
    (if xs = [] then c ys else c xs) = c xs ↔ (xs = [] → ys = []) := by
  by_cases hnil : xs = []
  · rw [if_pos hnil, hnil, hc.eq_iff]
    exact ⟨fun h _ => h, fun h => h rfl⟩
  · rw [if_neg hnil]
    exact iff_of_true rfl fun h => absurd h hnil

section Restored
variable {construct : Construct} {structFits : ℕ → Argument → Val → Prop}
  {structOverlay : ℕ → Val → Val → Val} {structRestores : ℕ → Val → Val → Prop}

mutual

theorem overlay_eq_iff (hstructs : ∀ name arg v d, structFits name arg v →
      (structOverlay name v d = v ↔ structRestores name v d)) :
    ∀ arg ty v d, Fits structFits arg ty v →
      (overlay construct structOverlay ty v d = v ↔ Restores construct structRestores ty v d)
  | _, .arith _, _, _, _ => iff_of_true rfl trivial
  | _, .string, v, d, h => by
    obtain ⟨chars, rfl, -⟩ := h
    exact kept_iff (c := .string) fun _ _ => Val.string.inj
  | _, .vector _, v, d, h => by
    obtain ⟨bytes, size, rfl, -⟩ := h
    exact kept_iff (c := .vector) fun _ _ => Val.vector.inj
  | _, .bools, v, d, h => by
    obtain ⟨elems, rfl, -⟩ := h
    exact kept_iff (c := .bools) fun _ _ => Val.bools.inj
  | _, .tuple elems, v, d, h => by
    obtain ⟨vs, rfl, -, hvs⟩ := h
    have helems := overlayAll_eq_iff hstructs .constant elems vs d.parts hvs
    rw [overlay, Restores, Val.tuple.injEq]
    exact helems
  | _, .unique pointee, v, d, h => by
    rcases h with rfl | ⟨u, rfl, hu⟩
    · exact iff_of_true rfl trivial
    · rw [overlay, Restores, Val.unique.injEq]
      exact overlay_eq_iff hstructs .lvalue pointee u _ hu
  | _, .shared _, _, _, h => h.elim
  | arg, .struct name, v, d, h => hstructs name arg v d h

theorem overlayAll_eq_iff (hstructs : ∀ name arg v d, structFits name arg v →
      (structOverlay name v d = v ↔ structRestores name v d)) :
    ∀ arg tys vs ds, FitsAll structFits arg tys vs →
      (overlayAll construct structOverlay tys vs ds = vs ↔ RestoresAll construct structRestores tys vs ds)
  | _, [], _, _, _ => iff_of_true rfl trivial
  | arg, ty :: tys, vs, ds, h => by
    obtain ⟨u, us, rfl, hu, hus⟩ := h
    rw [overlayAll, RestoresAll, List.cons.injEq]
    exact and_congr (overlay_eq_iff hstructs arg ty u _ hu) (overlayAll_eq_iff hstructs arg tys us _ hus)

end

end Restored

theorem memberOverlay_eq_iff (construct : Construct) (members : ℕ → List Ty) (constFunc : ℕ → Bool)
    (depth : ℕ) : ∀ name arg v d, memberFits members constFunc depth name arg v →
      (memberOverlay construct members depth name v d = v ↔ memberRestores construct members depth name v d) := by
  induction depth with
  | zero => exact fun name arg v d h => h.elim
  | succ depth ih =>
    intro name arg v d h
    obtain ⟨-, vs, rfl, hvs⟩ := h
    rw [memberOverlay, memberRestores, Val.struct.injEq]
    exact overlayAll_eq_iff ih _ (members name) vs d.parts hvs

/-- Values written one after the other, their structs by a SerializeFunc that can be called, and read
into any objects: each read ends where its value ends, and the values come back if and only if every
empty string or vector meets an empty one. -/
theorem binary_roundTrip (heap : List Val) (members : ℕ → List Ty) (constFunc : ℕ → Bool)
    (construct : Construct) (depth : ℕ) (arg : Argument) (tys : List Ty) (vs : List Val)
    (hfits : FitsAll (memberFits members constFunc depth) arg tys vs) :
    ∃ out, serialize heap members constFunc depth arg tys vs = some { mOs := out } ∧ ∀ ds rest,
      decodeAllInto .binary construct (memberStructs .binary construct members depth) tys ds
          { mStr := out ++ rest } =
        .ok (overlayAll construct (memberOverlay construct members depth) tys vs ds, { mStr := rest }) ∧
      (overlayAll construct (memberOverlay construct members depth) tys vs ds = vs ↔
        RestoresAll construct (memberRestores construct members depth) tys vs ds) := by
  have hreads : ∃ out, Reads out
      (encodeAll (encodeParts heap members constFunc depth).1 (encodeParts heap members constFunc depth).2
        arg tys vs)
      (decodeAllInto .binary construct (memberStructs .binary construct members depth) tys)
      (overlayAll construct (memberOverlay construct members depth) tys vs) :=
    encodeAll_reads (encodeParts_reads heap members constFunc construct depth) arg tys vs hfits
  obtain ⟨out, hencode, hdecode⟩ := hreads
  refine ⟨out, hencode {}, fun ds rest => ⟨hdecode ds _ rest rfl, ?_⟩⟩
  exact overlayAll_eq_iff (memberOverlay_eq_iff construct members constFunc depth) arg tys vs ds hfits

/-- A tuple of two structs with a unique pointer to flags, their SerializeFunc const, behind a vector of
two bytes each. -/
theorem binary_roundTrip_two :
    ∃ out, serialize [] (fun _ => [.unique .bools]) (fun _ => true) 1 .lvalue
        [.vector 2, .tuple [.struct 0, .struct 0]]
        [.vector [1, 0], .tuple [.struct [.unique (.bools [true])], .struct [.uniqueNull]]]
          = some { mOs := out } ∧ ∀ ds rest,
      decodeAllInto .binary constructEmpty (memberStructs .binary constructEmpty (fun _ => [.unique .bools]) 1)
          [.vector 2, .tuple [.struct 0, .struct 0]] ds { mStr := out ++ rest } =
        .ok (overlayAll constructEmpty (memberOverlay constructEmpty (fun _ => [.unique .bools]) 1)
          [.vector 2, .tuple [.struct 0, .struct 0]]
          [.vector [1, 0], .tuple [.struct [.unique (.bools [true])], .struct [.uniqueNull]]] ds,
          { mStr := rest }) ∧
      (overlayAll constructEmpty (memberOverlay constructEmpty (fun _ => [.unique .bools]) 1)
          [.vector 2, .tuple [.struct 0, .struct 0]]
          [.vector [1, 0], .tuple [.struct [.unique (.bools [true])], .struct [.uniqueNull]]] ds =
          [.vector [1, 0], .tuple [.struct [.unique (.bools [true])], .struct [.uniqueNull]]] ↔
        RestoresAll constructEmpty (memberRestores constructEmpty (fun _ => [.unique .bools]) 1)
          [.vector 2, .tuple [.struct 0, .struct 0]]
          [.vector [1, 0], .tuple [.struct [.unique (.bools [true])], .struct [.uniqueNull]]] ds) := by
  refine binary_roundTrip [] (fun _ => [.unique .bools]) (fun _ => true) constructEmpty 1 .lvalue _ _ ?_
  have hflags : Fits (memberFits (fun _ => [.unique .bools]) (fun _ => true) 0) .lvalue .bools
      (.bools [true]) := ⟨_, rfl, by decide⟩
  have hfull : memberFits (fun _ => [.unique .bools]) (fun _ => true) 1 0 .constant
      (.struct [.unique (.bools [true])]) := ⟨rfl, _, rfl, _, _, rfl, Or.inr ⟨_, rfl, hflags⟩, rfl⟩
  have hnull : memberFits (fun _ => [.unique .bools]) (fun _ => true) 1 0 .constant
      (.struct [.uniqueNull]) := ⟨rfl, _, rfl, _, _, rfl, Or.inl rfl, rfl⟩
  exact ⟨_, _, rfl, ⟨_, 1, rfl, rfl, by decide, by decide⟩, _, _, rfl,
    ⟨_, rfl, by decide, _, _, rfl, hfull, _, _, rfl, hnull, rfl⟩, rfl⟩

end DeftRpc.Serialize.Destination
