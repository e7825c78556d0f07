import DeftRpc.Serialize.Destination
import DeftRpc.Serialize.PointerTags

/-!
# A freshly constructed destination

Where the destination is empty, and the vectors are left out, `decodeInto` is the `decode` of a
StringDeSerialize.
-/

namespace DeftRpc.Serialize.Destination
open DeftRpc.Foundation

mutual

def liftTy : Serialize.Ty → Ty
  | .arith width => .arith width
  | .string => .string
  | .tuple elems => .tuple (liftTys elems)
  | .unique pointee => .unique (liftTy pointee)
  | .shared pointee => .shared (liftTy pointee)
  | .struct name => .struct name

def liftTys : List Serialize.Ty → List Ty
  | [] => []
  | ty :: tys => liftTy ty :: liftTys tys

end

mutual

def liftVal : Serialize.Val → Val
  | .arith bytes => .arith bytes
  | .string chars => .string chars
  | .tuple elems => .tuple (liftVals elems)
  | .uniqueNull => .uniqueNull
  | .unique pointee => .unique (liftVal pointee)
  | .shared address => .shared address
  | .struct members => .struct (liftVals members)

def liftVals : List Serialize.Val → List Val
  | [] => []
  | v :: vs => liftVal v :: liftVals vs

end

def liftState (s : StringDeSerialize) : DeSerializer :=
  ⟨s.base, s.mStr, s.objects.map (Option.map liftVal)⟩

/-- The same outcome, with a value and a state of the larger model. -/
def lifted {α β : Type} (f : α → β) (r : Except Failure (α × StringDeSerialize)) :
    Except Failure (β × DeSerializer) :=
  match r with
  | .error failure => .error failure
  | .ok x => .ok (f x.1, liftState x.2)

section Lifted
variable {α β γ δ : Type} {f : α → β} {g : γ → δ}

theorem lifted_bind {r : Except Failure (α × StringDeSerialize)}
    {k : α × StringDeSerialize → Except Failure (γ × StringDeSerialize)}
    {k' : β × DeSerializer → Except Failure (δ × DeSerializer)}
    (h : ∀ x, k' (f x.1, liftState x.2) = lifted g (k x)) : (lifted f r >>= k') = lifted g (r >>= k) := by
  cases r with
  | error failure => rfl
  | ok x => exact h x

theorem lifted_noexcept (spec : Bool) (r : Except Failure (α × StringDeSerialize)) :
    noexcept spec (lifted f r) = lifted f (noexcept spec r) := by
  cases r with
  | ok x => rfl
  | error failure =>
    cases failure with
    | terminated => rfl
    | throws what => cases spec <;> rfl

theorem input_lifted (s : StringDeSerialize) (size : ℕ) :
    input .string (liftState s) size = lifted id (Serialize.input s size) := by
  by_cases hshort : s.mStr.length < size
  · rw [input_short hshort, Serialize.input, DeSerializer.input, if_pos hshort]
    rfl
  · rw [input_ok hshort, Serialize.input, DeSerializer.input, if_neg hshort]
    rfl

theorem sizeTag_lifted (s : StringDeSerialize) (width : ℕ) :
    sizeTag .string (liftState s) width = lifted id (Serialize.sizeTag s width) := by
  rw [Serialize.sizeTag, sizeTag, DeSerializer.sizeTag, DeSerializer.sizeTag, ← lifted_noexcept]
  rw [show (liftState s).input Archive.string.lengthError width = _ from input_lifted s width]
  exact congrArg _ (lifted_bind fun x => rfl)

theorem newObject_lifted (s : StringDeSerialize) : newObject (liftState s) =
    ((newObject s).1, liftState (newObject s).2) := by
  simp [newObject, liftState]

theorem setObject_lifted (s : StringDeSerialize) (address : ℕ) (v : Serialize.Val) :
    setObject (liftState s) address (liftVal v) = liftState (setObject s address v) := by
  simp [setObject, liftState, List.map_set]

theorem length_liftTys (tys : List Serialize.Ty) : (liftTys tys).length = tys.length := by
  induction tys with
  | nil => rfl
  | cons ty tys ih => rw [liftTys, List.length_cons, List.length_cons, ih]

theorem readString_lifted (size : ℕ) (s : StringDeSerialize) :
    (readString .string [] size (liftState s)).result = lifted liftVal
      (if size = 0 then pure (.string [], s)
      else do
        Serialize.resize size
        let r ← Serialize.input s size
        pure (.string r.1, r.2)) := by
  by_cases hzero : size = 0
  · rw [if_pos hzero, hzero]
    rfl
  · have hstr : (liftState s).mStr = s.mStr := rfl
    rw [if_neg hzero, readString_result [] hzero, hstr]
    by_cases hmax : stringMaxSize < size
    · rw [if_pos hmax, Serialize.resize, if_pos hmax]
      rfl
    · rw [if_neg hmax, Serialize.resize, if_neg hmax, Exec.ok_bind]
      by_cases hshort : s.mStr.length < size
      · rw [if_pos hshort, Serialize.input, DeSerializer.input, if_pos hshort]
        rfl
      · rw [if_neg hshort, Serialize.input, DeSerializer.input, if_neg hshort]
        rfl

end Lifted

section Decode
variable {info : TypeInfo} {structs : ℕ → Serialize.Decoder} {construct : Construct}
variable {structs' : ℕ → Val → Decoder}

mutual

theorem decodeInto_fresh (hvalue : ∀ ty, construct.value ty = .uniqueNull)
    (hnothrow : ∀ ty, construct.nothrow (liftTy ty) = info.nothrow ty)
    (hstructs : ∀ name s, structs' name .uniqueNull (liftState s) = lifted liftVal (structs name s)) :
    ∀ (ty : Serialize.Ty) (s : StringDeSerialize),
      decodeInto .string construct structs' (liftTy ty) .uniqueNull (liftState s)
        = lifted liftVal (decode info structs ty s)
  | .arith width, s => by
    simp only [liftTy, decodeInto, decode, input_lifted]
    exact lifted_bind fun x => rfl
  | .string, s => by
    simp only [liftTy, decodeInto, decode, sizeTag_lifted]
    exact lifted_bind fun x => readString_lifted x.1 x.2
  | .tuple elems, s => by
    simp only [liftTy, decodeInto, decode, sizeTag_lifted, length_liftTys]
    refine lifted_bind fun x => ?_
    by_cases hcount : x.1 = elems.length
    · have helems := decodeAllInto_fresh hvalue hnothrow hstructs elems x.2
      simp only [id, hcount, ne_eq, not_true_eq_false, if_false, Val.parts, helems]
      exact lifted_bind fun y => rfl
    · simp only [id, hcount, ne_eq, not_false_eq_true, if_true]
      rfl
  | .unique pointee, s => by
    simp only [liftTy, decodeInto, decode, sizeTag_lifted, hnothrow, hvalue, ← lifted_noexcept]
    refine congrArg _ (lifted_bind fun x => ?_)
    by_cases hnull : x.1 = 0
    · simp only [id, hnull, ne_eq, not_true_eq_false, if_false]
      rfl
    · simp only [id, hnull, ne_eq, not_false_eq_true, if_true,
        decodeInto_fresh hvalue hnothrow hstructs pointee x.2]
      exact lifted_bind fun y => rfl
  | .shared pointee, s => by
    simp only [liftTy, decodeInto, decode, sizeTag_lifted, hnothrow, hvalue, ← lifted_noexcept]
    refine congrArg _ (lifted_bind fun x => ?_)
    by_cases hnew : x.1 &&& ptrIdMask = 0
    · simp only [id, hnew, ne_eq, not_true_eq_false, if_false]
      rfl
    · simp only [id, hnew, ne_eq, not_false_eq_true, if_true, newObject_lifted,
        decodeInto_fresh hvalue hnothrow hstructs pointee _]
      refine lifted_bind fun y => ?_
      rw [setObject_lifted]
      rfl
  | .struct name, s => by
    simp only [liftTy, decodeInto, decode, hstructs, lifted_noexcept]

theorem decodeAllInto_fresh (hvalue : ∀ ty, construct.value ty = .uniqueNull)
    (hnothrow : ∀ ty, construct.nothrow (liftTy ty) = info.nothrow ty)
    (hstructs : ∀ name s, structs' name .uniqueNull (liftState s) = lifted liftVal (structs name s)) :
    ∀ (tys : List Serialize.Ty) (s : StringDeSerialize),
      decodeAllInto .string construct structs' (liftTys tys) [] (liftState s)
        = lifted liftVals (decodeAll info structs tys s)
  | [], s => rfl
  | ty :: tys, s => by
    have hfirst := decodeInto_fresh hvalue hnothrow hstructs ty s
    simp only [liftTys, decodeAllInto, decodeAll, List.headD_nil, List.tail_nil, hfirst]
    refine lifted_bind fun x => ?_
    simp only [decodeAllInto_fresh hvalue hnothrow hstructs tys x.2]
    exact lifted_bind fun y => rfl

end

theorem memberStructs_fresh (hvalue : ∀ ty, construct.value ty = .uniqueNull)
    (hnothrow : ∀ ty, construct.nothrow (liftTy ty) = info.nothrow ty) (members : ℕ → List Serialize.Ty)
    (depth : ℕ) : ∀ name s,
      memberStructs .string construct (fun name => liftTys (members name)) depth name .uniqueNull (liftState s)
        = lifted liftVal (Serialize.memberStructs info members depth name s) := by
  induction depth with
  | zero => exact fun name s => rfl
  | succ depth ih =>
    intro name s
    simp only [memberStructs, Serialize.memberStructs, Val.parts,
      decodeAllInto_fresh hvalue hnothrow ih (members name) s]
    exact lifted_bind fun x => rfl

/-- Into an empty object, `decodeInto` does what `decode` does. -/
theorem deserializeInto_fresh (hvalue : ∀ ty, construct.value ty = .uniqueNull)
    (hnothrow : ∀ ty, construct.nothrow (liftTy ty) = info.nothrow ty) (members : ℕ → List Serialize.Ty)
    (depth : ℕ) (ty : Serialize.Ty) (inPutStr : List Byte) :
    deserializeInto .string construct (fun name => liftTys (members name)) depth (liftTy ty) .uniqueNull
        inPutStr
      = lifted liftVal (deserialize info (Serialize.memberStructs info members depth) ty inPutStr) :=
  decodeInto_fresh hvalue hnothrow (memberStructs_fresh hvalue hnothrow members depth) ty
    { mStr := inPutStr }

end Decode

end DeftRpc.Serialize.Destination
