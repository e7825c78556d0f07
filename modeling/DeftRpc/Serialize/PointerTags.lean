import DeftRpc.Foundation.Exec
import DeftRpc.Serialize.Truncation

/-!
# The tags of shared pointers (type/memory.h:25-37, Serializer.h:27-54)

`tags` lists the id tags in the input with the element types of their pointers, from the bytes
alone. `events` lists what decoding does: an object is made and registered, or an id is looked up.
The k-th object is the one of the k-th tag with the mask.
-/

namespace DeftRpc.Serialize
open DeftRpc.Foundation

/-! ### Structs whose DeSerializeFunc reads the members in the order they are listed -/

/-- `depth` is how deep structs are nested in the value. -/
def memberStructs (info : TypeInfo) (members : ℕ → List Ty) : ℕ → ℕ → Decoder
  | 0, _ => fun _ => .error .terminated
  | depth + 1, name => fun s => do
    let r ← decodeAll info (memberStructs info members depth) (members name) s
    pure (.struct r.1, r.2)

/-! ### The input -/

section Tags
variable (structTags : ℕ → List Byte → List (Ty × ℕ) × Option (List Byte))

mutual

/-- The id tags in the image of a value, as far as it goes, and what follows the image. -/
def tags : Ty → List Byte → List (Ty × ℕ) × Option (List Byte)
  | .arith width, bs => ([], skip (.arith width) bs)
  | .string, bs => ([], skip .string bs)
  | .tuple elems, bs =>
    if bs.length < 8 then ([], none)
    else if leVal (bs.take 8) ≠ elems.length then ([], none)
    else tagsAll elems (bs.drop 8)
  | .unique pointee, bs =>
    if bs.length < 2 then ([], none)
    else if leVal (bs.take 2) ≠ 0 then tags pointee (bs.drop 2)
    else ([], some (bs.drop 2))
  | .shared pointee, bs =>
    if bs.length < 8 then ([], none)
    else if leVal (bs.take 8) &&& ptrIdMask ≠ 0 then
      ((pointee, leVal (bs.take 8)) :: (tags pointee (bs.drop 8)).1, (tags pointee (bs.drop 8)).2)
    else ([(pointee, leVal (bs.take 8))], some (bs.drop 8))
  | .struct name, bs => structTags name bs

def tagsAll : List Ty → List Byte → List (Ty × ℕ) × Option (List Byte)
  | [], bs => ([], some bs)
  | ty :: tys, bs =>
    match (tags ty bs).2 with
    | none => ((tags ty bs).1, none)
    | some rest => ((tags ty bs).1 ++ (tagsAll tys rest).1, (tagsAll tys rest).2)

end

end Tags

def memberTags (members : ℕ → List Ty) : ℕ → ℕ → List Byte → List (Ty × ℕ) × Option (List Byte)
  | 0, _, _ => ([], none)
  | depth + 1, name, bs => tagsAll (memberTags members depth) (members name) bs

/-- An id without the mask that is the number of an earlier tag with the mask stands at the element
type of that tag; `seen` are the element types of the tags with the mask so far. -/
def RefsAgree : List Ty → List (Ty × ℕ) → Prop
  | _, [] => True
  | seen, (pointee, id) :: ts =>
    if id &&& ptrIdMask ≠ 0 then RefsAgree (seen ++ [pointee]) ts
    else (id ≠ 0 → ∀ first ∈ seen[id - 1]?, first = pointee) ∧ RefsAgree seen ts

/-! ### The decoder -/

inductive PtrEvent where
  | constructed (pointee : Ty)
  | resolved (pointee : Ty) (address : Option ℕ)

section Events
variable (info : TypeInfo) (structs : ℕ → Decoder)
variable (structEvents : ℕ → StringDeSerialize → List PtrEvent)

mutual

/-- What `decode` does to the objects and the table, up to the exception if there is one. -/
def events : Ty → StringDeSerialize → List PtrEvent
  | .arith _, _ => []
  | .string, _ => []
  | .tuple elems, s =>
    match sizeTag s 8 with
    | .error _ => []
    | .ok size => if size.1 ≠ elems.length then [] else eventsAll elems size.2
  | .unique pointee, s =>
    match sizeTag s 2 with
    | .error _ => []
    | .ok id => if id.1 ≠ 0 then events pointee id.2 else []
  | .shared pointee, s =>
    match sizeTag s 8 with
    | .error _ => []
    | .ok id =>
      if id.1 &&& ptrIdMask ≠ 0 then .constructed pointee :: events pointee (newObject id.2).2
      else [.resolved pointee (getPrt id.2.base id.1)]
  | .struct name, s => structEvents name s

def eventsAll : List Ty → StringDeSerialize → List PtrEvent
  | [], _ => []
  | ty :: tys, s => events ty s ++
    match decode info structs ty s with
    | .error _ => []
    | .ok r => eventsAll tys r.2

end

end Events

def memberEvents (info : TypeInfo) (members : ℕ → List Ty) :
    ℕ → ℕ → StringDeSerialize → List PtrEvent
  | 0, _, _ => []
  | depth + 1, name, s =>
    eventsAll info (memberStructs info members depth) (memberEvents info members depth)
      (members name) s

/-- The element type with which each object was constructed, by address. -/
def constructedTypes : List PtrEvent → List Ty
  | [] => []
  | .constructed pointee :: es => pointee :: constructedTypes es
  | .resolved _ _ :: es => constructedTypes es

/-- No id resolves to an object constructed with another element type. -/
def RefsTyped : List Ty → List PtrEvent → Prop
  | _, [] => True
  | types, .constructed pointee :: es => RefsTyped (types ++ [pointee]) es
  | types, .resolved pointee address :: es =>
    (∀ a ∈ address, types[a]? = some pointee) ∧ RefsTyped types es

/-! ### Objects are numbered in the order of their tags -/

def toEvents : ℕ → List (Ty × ℕ) → List PtrEvent
  | _, [] => []
  | n, (pointee, id) :: ts =>
    if id &&& ptrIdMask ≠ 0 then .constructed pointee :: toEvents (n + 1) ts
    else .resolved pointee (if 1 ≤ id ∧ id ≤ n then some (id - 1) else none) :: toEvents n ts

@[simp] theorem constructedTypes_append (es es' : List PtrEvent) :
    constructedTypes (es ++ es') = constructedTypes es ++ constructedTypes es' := by
  induction es with
  | nil => rfl
  | cons e es ih =>
    cases e with
    | constructed pointee => rw [List.cons_append, constructedTypes, ih, constructedTypes, List.cons_append]
    | resolved pointee address => rw [List.cons_append, constructedTypes, ih, constructedTypes]

theorem refsTyped_append (types : List Ty) (es es' : List PtrEvent) :
    RefsTyped types (es ++ es') ↔
      RefsTyped types es ∧ RefsTyped (types ++ constructedTypes es) es' := by
  induction es generalizing types with
  | nil => simp [RefsTyped, constructedTypes]
  | cons e es ih =>
    cases e with
    | constructed pointee => simp [RefsTyped, constructedTypes, ih]
    | resolved pointee address => simp [RefsTyped, constructedTypes, ih, and_assoc]

theorem toEvents_append (n : ℕ) (ts ts' : List (Ty × ℕ)) :
    toEvents n (ts ++ ts')
      = toEvents n ts ++ toEvents (n + (constructedTypes (toEvents n ts)).length) ts' := by
  induction ts generalizing n with
  | nil => rfl
  | cons t ts ih =>
    obtain ⟨pointee, id⟩ := t
    rw [List.cons_append, toEvents, toEvents]
    by_cases hmask : id &&& ptrIdMask ≠ 0
    · rw [if_pos hmask, if_pos hmask, ih, constructedTypes, List.length_cons, List.cons_append,
        Nat.add_assoc, Nat.add_comm 1]
    · rw [if_neg hmask, if_neg hmask, ih, constructedTypes, List.cons_append]

/-- The numbering of the bytes and the lookups of the decoder say the same. -/
theorem refsTyped_toEvents (ts : List (Ty × ℕ)) (types : List Ty) :
    RefsTyped types (toEvents types.length ts) ↔ RefsAgree types ts := by
  induction ts generalizing types with
  | nil => exact Iff.rfl
  | cons t ts ih =>
    obtain ⟨pointee, id⟩ := t
    rw [toEvents, RefsAgree]
    by_cases hmask : id &&& ptrIdMask ≠ 0
    · have hlen : (types ++ [pointee]).length = types.length + 1 := by simp
      rw [if_pos hmask, if_pos hmask, RefsTyped, ← hlen, ih]
    · rw [if_neg hmask, if_neg hmask, RefsTyped, ih]
      apply and_congr_left
      intro _
      by_cases hknown : 1 ≤ id ∧ id ≤ types.length
      · have hget : types[id - 1]? = some types[id - 1] := List.getElem?_eq_getElem (by omega)
        have hne : id ≠ 0 := by omega
        simp [hknown, hget, hne]
      · have hnone : id ≠ 0 → types[id - 1]? = none := by
          intro hne
          exact List.getElem?_eq_none (by omega)
        simp only [hknown, if_false, Option.not_mem_none, false_implies, implies_true, true_iff]
        intro hne first hfirst
        rw [hnone hne] at hfirst
        cases hfirst

/-! ### The table of the decoder -/

/-- The objects are in the table under the number of their making, the address is one less. Each object
still to be made takes eight bytes of the input. -/
structure Numbered (s : StringDeSerialize) : Prop where
  curIdx : s.base.mCurIdx = s.objects.length
  unknown : ∀ address, s.objects.length ≤ address → s.base.mAddressToId.lookup address = none
  ids : ∀ id, getPrt s.base id = if 1 ≤ id ∧ id ≤ s.objects.length then some (id - 1) else none
  room : 8 * s.objects.length + s.mStr.length < 2 ^ 64

theorem Numbered.start {inPutStr : List Byte} (h : inPutStr.length < 2 ^ 64) :
    Numbered { mStr := inPutStr } := by
  refine ⟨rfl, fun _ _ => rfl, fun id => ?_, ?_⟩
  · rw [if_neg (by simp only [List.length_nil]; omega)]
    rfl
  · simp only [List.length_nil]
    omega

theorem Numbered.read {s s' : StringDeSerialize} (h : Numbered s) (hbase : s'.base = s.base)
    (hobjects : s'.objects = s.objects) (hle : s'.mStr.length ≤ s.mStr.length) : Numbered s' := by
  have hroom := h.room
  refine ⟨?_, ?_, ?_, ?_⟩
  · rw [hbase, hobjects, h.curIdx]
  · rw [hbase, hobjects]
    exact h.unknown
  · rw [hbase, hobjects]
    exact h.ids
  · rw [hobjects]
    omega

theorem Numbered.drop {s : StringDeSerialize} (h : Numbered s) (n : ℕ) :
    Numbered { s with mStr := s.mStr.drop n } := by
  have hle : (s.mStr.drop n).length ≤ s.mStr.length := by
    rw [List.length_drop]
    omega
  exact h.read rfl rfl hle

theorem Numbered.newObject {s : StringDeSerialize} (h : Numbered s)
    (hroom : 8 * s.objects.length + s.mStr.length + 8 < 2 ^ 64) : Numbered (newObject s).2 := by
  have hidx : (s.base.mCurIdx + 1) % 2 ^ 64 = s.objects.length + 1 := by
    rw [h.curIdx]
    exact Nat.mod_eq_of_lt (by omega)
  have hbase : (Serialize.newObject s).2.base = ⟨(s.objects.length, s.objects.length + 1) :: s.base.mAddressToId,
      (s.objects.length + 1, s.objects.length) :: s.base.mIdToPtr, s.objects.length + 1⟩ := by
    simp only [Serialize.newObject, registerPrt, h.unknown _ (le_refl _), hidx]
  have hlen : (Serialize.newObject s).2.objects.length = s.objects.length + 1 := by
    simp [Serialize.newObject]
  refine ⟨?_, ?_, ?_, ?_⟩
  · rw [hbase, hlen]
  · intro address hle
    rw [hlen] at hle
    have hne : (address == s.objects.length) = false := by
      rw [beq_eq_false_iff_ne]
      omega
    rw [hbase, List.lookup_cons, hne]
    exact h.unknown address (by omega)
  · intro id
    have hold := h.ids id
    rw [hbase, hlen, getPrt, List.lookup_cons]
    by_cases hid : id = s.objects.length + 1
    · rw [hid, if_pos (by omega)]
      simp
    · have hne : (id == s.objects.length + 1) = false := by
        rw [beq_eq_false_iff_ne]
        exact hid
      rw [hne]
      refine hold.trans ?_
      by_cases hknown : 1 ≤ id ∧ id ≤ s.objects.length
      · rw [if_pos hknown, if_pos (by omega)]
      · rw [if_neg hknown, if_neg (by omega)]
  · rw [hlen]
    show 8 * (s.objects.length + 1) + s.mStr.length < 2 ^ 64
    omega

theorem Numbered.setObject {s : StringDeSerialize} (h : Numbered s) (address : ℕ) (v : Val) :
    Numbered (setObject s address v) := by
  have hlen : (Serialize.setObject s address v).objects.length = s.objects.length := List.length_set
  refine ⟨?_, ?_, ?_, ?_⟩
  · rw [hlen]
    exact h.curIdx
  · rw [hlen]
    exact h.unknown
  · rw [hlen]
    exact h.ids
  · rw [hlen]
    exact h.room

/-! ### The decoder follows the tags -/

/-- The events are those of the tags in the input, and the decoder ends behind the image. -/
inductive Follows {α : Type} (s : StringDeSerialize) (es : List PtrEvent)
    (ts : List (Ty × ℕ) × Option (List Byte)) : Except Failure (α × StringDeSerialize) → Prop where
  | value (a : α) (s' : StringDeSerialize) : es = toEvents s.objects.length ts.1 →
      ts.2 = some s'.mStr → Numbered s' →
      s'.objects.length = s.objects.length + (constructedTypes es).length →
      Follows s es ts (.ok (a, s'))
  | failed (e : Failure) : es = toEvents s.objects.length ts.1 → ts.2 = none →
      Follows s es ts (.error e)

variable {α β : Type}

theorem Follows.at_noexcept {s : StringDeSerialize} {es : List PtrEvent}
    {ts : List (Ty × ℕ) × Option (List Byte)} {r : Except Failure (α × StringDeSerialize)}
    (h : Follows s es ts r) (spec : Bool) : Follows s es ts (noexcept spec r) := by
  cases h with
  | value a s' hes hrest hn hlen => exact .value a s' hes hrest hn hlen
  | failed e hes hrest =>
    cases e with
    | throws what =>
      cases spec with
      | true => exact .failed .terminated hes hrest
      | false => exact .failed (.throws what) hes hrest
    | terminated => exact .failed .terminated hes hrest

theorem Follows.map {s : StringDeSerialize} {es : List PtrEvent}
    {ts : List (Ty × ℕ) × Option (List Byte)} {r : Except Failure (α × StringDeSerialize)}
    (h : Follows s es ts r) (f : α → β) :
    Follows s es ts (r >>= fun x => pure (f x.1, x.2)) := by
  cases h with
  | value a s' hes hrest hn hlen => exact .value (f a) s' hes hrest hn hlen
  | failed e hes hrest => exact .failed e hes hrest

theorem Follows.reads {s : StringDeSerialize} {r : Except Failure (α × StringDeSerialize)}
    {rest : Option (List Byte)} {noCut : Prop} (h : Agrees r rest noCut) (hn : Numbered s)
    (honly : ∀ a s', r = .ok (a, s') → s'.base = s.base ∧ s'.objects = s.objects ∧
      s'.mStr.length ≤ s.mStr.length) : Follows s [] ([], rest) r := by
  cases h with
  | value a s' hcut =>
    obtain ⟨hbase, hobjects, hle⟩ := honly a s' rfl
    exact .value a s' rfl rfl (hn.read hbase hobjects hle) (by rw [hobjects]; rfl)
  | throws what hcut => exact .failed _ rfl rfl
  | terminated hcut => exact .failed _ rfl rfl

theorem Follows.after_read {s s1 : StringDeSerialize} {es : List PtrEvent}
    {ts : List (Ty × ℕ) × Option (List Byte)} {r : Except Failure (α × StringDeSerialize)}
    (h : Follows s1 es ts r) (hobjects : s1.objects = s.objects) : Follows s es ts r := by
  cases h with
  | value a s' hes hrest hn hlen =>
    rw [hobjects] at hes hlen
    exact .value a s' hes hrest hn hlen
  | failed e hes hrest =>
    rw [hobjects] at hes
    exact .failed e hes hrest

theorem Follows.construct {s : StringDeSerialize} {pointee : Ty} {id : ℕ} {es : List PtrEvent}
    {ts : List (Ty × ℕ) × Option (List Byte)} {r : Except Failure (Val × StringDeSerialize)}
    (h : Follows (newObject s).2 es ts r) (hmask : id &&& ptrIdMask ≠ 0) :
    Follows s (.constructed pointee :: es) ((pointee, id) :: ts.1, ts.2)
      (r >>= fun r => pure (Val.shared (some (newObject s).1), setObject r.2 (newObject s).1 r.1)) := by
  have hnew : (newObject s).2.objects.length = s.objects.length + 1 := by simp [newObject]
  cases h with
  | value v s' hes hrest hn hlen =>
    rw [hnew] at hes hlen
    refine .value _ _ ?_ hrest (hn.setObject _ _) ?_
    · rw [toEvents, if_pos hmask, ← hes]
    · rw [constructedTypes, List.length_cons]
      refine List.length_set.trans ?_
      rw [hlen]
      omega
  | failed e hes hrest =>
    rw [hnew] at hes
    refine .failed e ?_ hrest
    rw [toEvents, if_pos hmask, ← hes]

theorem Follows.behind {s s1 : StringDeSerialize} {es es' : List PtrEvent} {ts : List (Ty × ℕ)}
    {ts' : List (Ty × ℕ) × Option (List Byte)} {r : Except Failure (α × StringDeSerialize)}
    (h : Follows s1 es' ts' r) (hes : es = toEvents s.objects.length ts)
    (hlen : s1.objects.length = s.objects.length + (constructedTypes es).length) :
    Follows s (es ++ es') (ts ++ ts'.1, ts'.2) r := by
  have hboth : ∀ es', es' = toEvents s1.objects.length ts'.1 →
      es ++ es' = toEvents s.objects.length (ts ++ ts'.1) := by
    intro es' hes'
    rw [toEvents_append, ← hes, ← hlen, hes']
  cases h with
  | value a s' hes' hrest hn hlen' =>
    refine .value a s' (hboth es' hes') hrest hn ?_
    rw [constructedTypes_append, List.length_append]
    omega
  | failed e hes' hrest => exact .failed e (hboth es' hes') hrest

section Decode
variable (info : TypeInfo) (structs : ℕ → Decoder)

theorem decode_string_reads {s s' : StringDeSerialize} {v : Val}
    (h : decode info structs .string s = .ok (v, s')) :
    (∃ chars, v = .string chars ∧ chars.length ≤ stringMaxSize) ∧ s'.base = s.base ∧
      s'.objects = s.objects ∧ s'.mStr.length ≤ s.mStr.length := by
  simp only [decode] at h
  by_cases hshort : s.mStr.length < 8
  · rw [sizeTag_short hshort] at h
    cases h
  · rw [sizeTag_ok hshort, Exec.ok_bind] at h
    dsimp only at h
    split at h
    · cases h
      simp
    · unfold resize at h
      split at h
      · cases h
      · next hmax =>
        rw [Exec.ok_bind] at h
        unfold input DeSerializer.input at h
        split at h
        · cases h
        · cases h
          refine ⟨⟨_, rfl, ?_⟩, rfl, rfl, ?_⟩
          · rw [List.length_take]
            omega
          · simp only [List.length_drop]
            omega

theorem decode_arith_reads {s s' : StringDeSerialize} {width : ℕ} {v : Val}
    (h : decode info structs (.arith width) s = .ok (v, s')) :
    (∃ bytes, v = .arith bytes ∧ bytes.length = width) ∧ s'.base = s.base ∧
      s'.objects = s.objects ∧ s'.mStr.length ≤ s.mStr.length := by
  simp only [decode, input, DeSerializer.input] at h
  split at h
  · cases h
  · next hshort =>
    cases h
    refine ⟨⟨_, rfl, ?_⟩, rfl, rfl, ?_⟩
    · rw [List.length_take]
      omega
    · simp only [List.length_drop]
      omega

variable {structEvents : ℕ → StringDeSerialize → List PtrEvent}
variable {structTags : ℕ → List Byte → List (Ty × ℕ) × Option (List Byte)}

/-- What the member functions have to do. -/
def StructsFollow (structs : ℕ → Decoder) (structEvents : ℕ → StringDeSerialize → List PtrEvent)
    (structTags : ℕ → List Byte → List (Ty × ℕ) × Option (List Byte)) : Prop :=
  ∀ name s, Numbered s →
    Follows s (structEvents name s) (structTags name s.mStr) (structs name s)

mutual

theorem decode_follows (hstructs : StructsFollow structs structEvents structTags) :
    ∀ (ty : Ty) (s : StringDeSerialize), Numbered s →
    Follows s (events info structs structEvents ty s) (tags structTags ty s.mStr)
      (decode info structs ty s)
  | .arith width, s, hn => by
    simp only [events, tags]
    exact Follows.reads (decode_agrees info structs (.arith width) s rfl) hn fun v s' h =>
      (decode_arith_reads info structs h).2
  | .string, s, hn => by
    simp only [events, tags]
    exact Follows.reads (decode_string_agrees info structs s) hn fun v s' h =>
      (decode_string_reads info structs h).2
  | .tuple elems, s, hn => by
    simp only [events, tags, decode]
    by_cases hshort : s.mStr.length < 8
    · rw [sizeTag_short hshort, if_pos hshort, Exec.error_bind]
      exact .failed _ rfl rfl
    · have helems := decodeAll_follows hstructs elems _ (hn.drop 8)
      rw [sizeTag_ok hshort, if_neg hshort, Exec.ok_bind]
      dsimp only
      by_cases hcount : leVal (s.mStr.take 8) ≠ elems.length
      · rw [if_pos hcount, if_pos hcount, if_pos hcount]
        exact .failed _ rfl rfl
      · rw [if_neg hcount, if_neg hcount, if_neg hcount]
        exact (helems.map Val.tuple).after_read rfl
  | .unique pointee, s, hn => by
    simp only [events, tags, decode]
    apply Follows.at_noexcept
    by_cases hshort : s.mStr.length < 2
    · rw [sizeTag_short hshort, if_pos hshort, Exec.error_bind]
      exact .failed _ rfl rfl
    · have hpointee := decode_follows hstructs pointee _ (hn.drop 2)
      rw [sizeTag_ok hshort, if_neg hshort, Exec.ok_bind]
      dsimp only
      by_cases hset : leVal (s.mStr.take 2) ≠ 0
      · rw [if_pos hset, if_pos hset, if_pos hset]
        exact (hpointee.map Val.unique).after_read rfl
      · rw [if_neg hset, if_neg hset, if_neg hset]
        exact .value _ _ rfl rfl (hn.drop 2) rfl
  | .shared pointee, s, hn => by
    simp only [events, tags, decode]
    apply Follows.at_noexcept
    by_cases hshort : s.mStr.length < 8
    · rw [sizeTag_short hshort, if_pos hshort, Exec.error_bind]
      exact .failed _ rfl rfl
    · have hroom := hn.room
      have hnew : Numbered (newObject { s with mStr := s.mStr.drop 8 }).2 := by
        apply (hn.drop 8).newObject
        simp only [List.length_drop]
        omega
      have hpointee := decode_follows hstructs pointee _ hnew
      rw [sizeTag_ok hshort, if_neg hshort, Exec.ok_bind]
      dsimp only
      by_cases hmask : leVal (s.mStr.take 8) &&& ptrIdMask ≠ 0
      · rw [if_pos hmask, if_pos hmask, if_pos hmask]
        exact (hpointee.construct hmask).after_read rfl
      · rw [if_neg hmask, if_neg hmask, if_neg hmask]
        refine .value _ _ ?_ rfl (hn.drop 8) rfl
        rw [toEvents, if_neg hmask, toEvents, ← hn.ids]
  | .struct name, s, hn => by
    simp only [events, tags, decode]
    exact (hstructs name s hn).at_noexcept true

theorem decodeAll_follows (hstructs : StructsFollow structs structEvents structTags) :
    ∀ (tys : List Ty) (s : StringDeSerialize), Numbered s → Follows s (eventsAll info structs structEvents tys s) (tagsAll structTags tys s.mStr)
      (decodeAll info structs tys s)
  | [], s, hn => .value [] s rfl rfl hn rfl
  | ty :: tys, s, hn => by
    have hfirst := decode_follows hstructs ty s hn
    simp only [eventsAll, tagsAll, decodeAll]
    cases hread : decode info structs ty s with
    | error e =>
      rw [hread] at hfirst
      cases hfirst with
      | failed _ hes hrest =>
        rw [hrest]
        exact .failed e (by rw [hes, List.append_nil]) rfl
    | ok r =>
      obtain ⟨v, s1⟩ := r
      have hlater := decodeAll_follows hstructs tys s1
      rw [hread] at hfirst
      cases hfirst with
      | value _ _ hes hrest hn1 hlen =>
        rw [hrest]
        exact ((hlater hn1).behind hes hlen).map (v :: ·)

end

end Decode

theorem memberStructs_follow (info : TypeInfo) (members : ℕ → List Ty) (depth : ℕ) :
    StructsFollow (memberStructs info members depth) (memberEvents info members depth)
      (memberTags members depth) := by
  induction depth with
  | zero => exact fun name s hn => .failed .terminated rfl rfl
  | succ depth ih =>
    intro name s hn
    exact (decodeAll_follows info (memberStructs info members depth) ih (members name) s hn).map
      Val.struct

end DeftRpc.Serialize
