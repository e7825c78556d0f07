import DeftRpc.Serialize.PointerTags

/-!
# Objects behind shared pointers (type/memory.h:25-37)

GetPrt finds an object by its number alone, and static_pointer_cast takes it for a T. `HasType`
says that each shared pointer in a value points to an object that was constructed as its T.
-/

namespace DeftRpc.Serialize
open DeftRpc.Foundation

mutual

inductive HasType (members : ℕ → List Ty) (types : List Ty) : Ty → Val → Prop where
  | arith {width : ℕ} {bytes : List Byte} : bytes.length = width →
      HasType members types (.arith width) (.arith bytes)
  | string {chars : List Byte} : chars.length ≤ stringMaxSize →
      HasType members types .string (.string chars)
  | tuple {elems : List Ty} {vs : List Val} : elems.length < 2 ^ 64 →
      HasTypes members types elems vs → HasType members types (.tuple elems) (.tuple vs)
  | uniqueNull (pointee : Ty) : HasType members types (.unique pointee) .uniqueNull
  | unique {pointee : Ty} {v : Val} :
      HasType members types pointee v → HasType members types (.unique pointee) (.unique v)
  | sharedNull (pointee : Ty) : HasType members types (.shared pointee) (.shared none)
  | shared {pointee : Ty} {address : ℕ} : types[address]? = some pointee →
      HasType members types (.shared pointee) (.shared (some address))
  | struct {name : ℕ} {vs : List Val} :
      HasTypes members types (members name) vs → HasType members types (.struct name) (.struct vs)

inductive HasTypes (members : ℕ → List Ty) (types : List Ty) : List Ty → List Val → Prop where
  | nil : HasTypes members types [] []
  | cons {ty : Ty} {tys : List Ty} {v : Val} {vs : List Val} :
      HasType members types ty v → HasTypes members types tys vs →
        HasTypes members types (ty :: tys) (v :: vs)

end

/-- The objects so far, each of the type with which it was constructed. -/
structure TypedObjects (members : ℕ → List Ty) (types : List Ty) (s : StringDeSerialize) : Prop where
  length : s.objects.length = types.length
  values : ∀ (address : ℕ) (v : Val), s.objects[address]? = some (some v) →
    ∃ pointee, types[address]? = some pointee ∧ HasType members types pointee v

/-- No id resolves to an object of another element type, and each shared pointer in the value and in
the objects points to an object that was constructed as what it points to. -/
structure WellReferenced (info : TypeInfo) (members : ℕ → List Ty) (depth : ℕ) (ty : Ty)
    (inPutStr : List Byte) : Prop where
  refs : RefsTyped [] (events info (memberStructs info members depth)
    (memberEvents info members depth) ty { mStr := inPutStr })
  values : ∀ v s, deserialize info (memberStructs info members depth) ty inPutStr = .ok (v, s) →
    HasType members (constructedTypes (events info (memberStructs info members depth)
      (memberEvents info members depth) ty { mStr := inPutStr })) ty v ∧
    TypedObjects members (constructedTypes (events info (memberStructs info members depth)
      (memberEvents info members depth) ty { mStr := inPutStr })) s

/-! ### More objects -/

theorem getElem?_append_of_some {α : Type} {as : List α} (bs : List α) {i : ℕ} {a : α}
    (h : as[i]? = some a) : (as ++ bs)[i]? = some a := by
  obtain ⟨hlt, -⟩ := List.getElem?_eq_some_iff.mp h
  rw [List.getElem?_append_left hlt]
  exact h

section Weaken
variable {members : ℕ → List Ty} {types : List Ty} (more : List Ty)

mutual

theorem HasType.append : ∀ {ty : Ty} {v : Val}, HasType members types ty v →
    HasType members (types ++ more) ty v
  | _, _, .arith h => .arith h
  | _, _, .string h => .string h
  | _, _, .tuple hsize h => .tuple hsize (HasTypes.append h)
  | _, _, .uniqueNull pointee => .uniqueNull pointee
  | _, _, .unique h => .unique (HasType.append h)
  | _, _, .sharedNull pointee => .sharedNull pointee
  | _, _, .shared h => .shared (getElem?_append_of_some more h)
  | _, _, .struct h => .struct (HasTypes.append h)

theorem HasTypes.append : ∀ {tys : List Ty} {vs : List Val}, HasTypes members types tys vs →
    HasTypes members (types ++ more) tys vs
  | _, _, .nil => .nil
  | _, _, .cons h hs => .cons (HasType.append h) (HasTypes.append hs)

end

end Weaken

variable {members : ℕ → List Ty} {types : List Ty}

theorem TypedObjects.read {s s' : StringDeSerialize} (h : TypedObjects members types s)
    (hobjects : s'.objects = s.objects) : TypedObjects members types s' :=
  ⟨by rw [hobjects]; exact h.length, by rw [hobjects]; exact h.values⟩

theorem TypedObjects.newObject {s : StringDeSerialize} (h : TypedObjects members types s)
    (pointee : Ty) : TypedObjects members (types ++ [pointee]) (newObject s).2 := by
  refine ⟨?_, fun address v hv => ?_⟩
  · simp [Serialize.newObject, h.length]
  · have hget : (s.objects ++ [none])[address]? = some (some v) := hv
    rw [List.getElem?_append] at hget
    split at hget
    · obtain ⟨ty, hty, hval⟩ := h.values address v hget
      exact ⟨ty, getElem?_append_of_some _ hty, hval.append [pointee]⟩
    · rw [List.getElem?_singleton] at hget
      split at hget <;> cases hget

theorem TypedObjects.setObject {s : StringDeSerialize} (h : TypedObjects members types s)
    {address : ℕ} {pointee : Ty} {v : Val} (hty : types[address]? = some pointee)
    (hv : HasType members types pointee v) : TypedObjects members types (setObject s address v) := by
  refine ⟨?_, fun other w hw => ?_⟩
  · exact List.length_set.trans h.length
  · have hget : (s.objects.set address (some v))[other]? = some (some w) := hw
    rw [List.getElem?_set] at hget
    split at hget
    · next hsame =>
      split at hget
      · cases hget
        rw [← hsame]
        exact ⟨pointee, hty, hv⟩
      · cases hget
    · exact h.values other w hget

/-! ### Decoding keeps the types -/

theorem noexcept_eq_ok {α : Type} {spec : Bool} {body : Except Failure α} {r : α}
    (h : noexcept spec body = .ok r) : body = .ok r := by
  cases body with
  | ok a => exact h
  | error e =>
    cases e with
    | throws what => cases spec <;> cases h
    | terminated => cases h

theorem sizeTag_objects {s s' : StringDeSerialize} {width size : ℕ}
    (h : sizeTag s width = .ok (size, s')) : s'.objects = s.objects := by
  by_cases hshort : s.mStr.length < width
  · rw [sizeTag_short hshort] at h
    cases h
  · rw [sizeTag_ok hshort] at h
    cases h
    rfl

theorem sizeTag_lt {s : StringDeSerialize} {size : ℕ × StringDeSerialize}
    (h : sizeTag s 8 = .ok size) : size.1 < 2 ^ 64 := by
  by_cases hshort : s.mStr.length < 8
  · rw [sizeTag_short hshort] at h
    cases h
  · rw [sizeTag_ok hshort] at h
    cases h
    have hlt := leVal_lt (s.mStr.take 8)
    have hlen : (s.mStr.take 8).length = 8 := by
      rw [List.length_take]
      omega
    rw [hlen] at hlt
    exact lt_of_lt_of_eq hlt (by norm_num)

section Decode
variable (info : TypeInfo) (structs : ℕ → Decoder)
variable {structEvents : ℕ → StringDeSerialize → List PtrEvent}

/-- The values that come out and the objects, when no id resolves wrongly. -/
def KeepsTypes {α : Type} (members : ℕ → List Ty) (es : List PtrEvent) (s : StringDeSerialize)
    (r : Except Failure (α × StringDeSerialize)) (typed : List Ty → α → Prop) : Prop :=
  ∀ types, TypedObjects members types s → RefsTyped types es → ∀ a s', r = .ok (a, s') →
    TypedObjects members (types ++ constructedTypes es) s' ∧ typed (types ++ constructedTypes es) a

mutual

theorem decode_keepsTypes (hstructs : ∀ name s, KeepsTypes members (structEvents name s) s
      (structs name s) fun types => HasType members types (.struct name)) :
    ∀ (ty : Ty) (s : StringDeSerialize),
      KeepsTypes members (events info structs structEvents ty s) s (decode info structs ty s)
        fun types => HasType members types ty
  | .arith width, s => by
    intro types hs hrefs v s' h
    obtain ⟨⟨bytes, rfl, hwidth⟩, -, hobjects, -⟩ := decode_arith_reads info structs h
    simp only [events, constructedTypes, List.append_nil]
    exact ⟨hs.read hobjects, .arith hwidth⟩
  | .string, s => by
    intro types hs hrefs v s' h
    obtain ⟨⟨chars, rfl, hmax⟩, -, hobjects, -⟩ := decode_string_reads info structs h
    simp only [events, constructedTypes, List.append_nil]
    exact ⟨hs.read hobjects, .string hmax⟩
  | .tuple elems, s => by
    intro types hs hrefs v s' h
    simp only [decode] at h
    obtain ⟨size, hsize, h⟩ := Exec.bind_eq_ok h
    simp only [events, hsize] at hrefs ⊢
    split at h
    · cases h
    · next hcount =>
      obtain ⟨r, hr, hv⟩ := Exec.bind_eq_ok h
      cases hv
      rw [if_neg hcount] at hrefs ⊢
      have hlt : elems.length < 2 ^ 64 := by
        rw [← not_not.mp hcount]
        exact sizeTag_lt hsize
      obtain ⟨hobjects, hvs⟩ := decodeAll_keepsTypes hstructs elems size.2 types
        (hs.read (sizeTag_objects hsize)) hrefs r.1 r.2 hr
      exact ⟨hobjects, .tuple hlt hvs⟩
  | .unique pointee, s => by
    intro types hs hrefs v s' h
    simp only [decode] at h
    obtain ⟨id, hid, h⟩ := Exec.bind_eq_ok (noexcept_eq_ok h)
    simp only [events, hid] at hrefs ⊢
    have hs1 := hs.read (sizeTag_objects hid)
    split at h
    · next hset =>
      obtain ⟨r, hr, hv⟩ := Exec.bind_eq_ok h
      cases hv
      rw [if_pos hset] at hrefs ⊢
      obtain ⟨hobjects, hval⟩ := decode_keepsTypes hstructs pointee id.2 types hs1 hrefs r.1 r.2 hr
      exact ⟨hobjects, .unique hval⟩
    · next hset =>
      cases h
      rw [if_neg hset, constructedTypes, List.append_nil]
      exact ⟨hs1, .uniqueNull pointee⟩
  | .shared pointee, s => by
    intro types hs hrefs v s' h
    simp only [decode] at h
    obtain ⟨id, hid, h⟩ := Exec.bind_eq_ok (noexcept_eq_ok h)
    simp only [events, hid] at hrefs ⊢
    have hs1 := hs.read (sizeTag_objects hid)
    split at h
    · next hmask =>
      obtain ⟨r, hr, hv⟩ := Exec.bind_eq_ok h
      cases hv
      rw [if_pos hmask, RefsTyped] at hrefs
      rw [if_pos hmask, constructedTypes]
      have hpointee := decode_keepsTypes hstructs pointee (newObject id.2).2 _
        (hs1.newObject pointee) hrefs r.1 r.2 hr
      rw [List.append_assoc, List.singleton_append] at hpointee
      obtain ⟨hobjects, hval⟩ := hpointee
      have hty : (types ++ pointee :: constructedTypes (events info structs structEvents pointee
          (newObject id.2).2))[(newObject id.2).1]? = some pointee := by
        have hlen : (newObject id.2).1 = types.length := hs1.length
        rw [hlen]
        simp
      exact ⟨hobjects.setObject hty hval, .shared hty⟩
    · next hmask =>
      cases h
      rw [if_neg hmask, RefsTyped] at hrefs
      rw [if_neg hmask, constructedTypes, constructedTypes, List.append_nil]
      refine ⟨hs1, ?_⟩
      cases hget : getPrt id.2.base id.1 with
      | none => exact .sharedNull pointee
      | some address => exact .shared (hrefs.1 address hget)
  | .struct name, s => by
    intro types hs hrefs v s' h
    simp only [decode] at h
    simp only [events] at hrefs ⊢
    exact hstructs name s types hs hrefs v s' (noexcept_eq_ok h)

theorem decodeAll_keepsTypes (hstructs : ∀ name s, KeepsTypes members (structEvents name s) s
      (structs name s) fun types => HasType members types (.struct name)) :
    ∀ (tys : List Ty) (s : StringDeSerialize),
      KeepsTypes members (eventsAll info structs structEvents tys s) s
        (decodeAll info structs tys s) fun types => HasTypes members types tys
  | [], s => by
    intro types hs hrefs vs s' h
    simp only [decodeAll] at h
    cases h
    simp only [eventsAll, constructedTypes, List.append_nil]
    exact ⟨hs, .nil⟩
  | ty :: tys, s => by
    intro types hs hrefs vs s' h
    simp only [decodeAll] at h
    obtain ⟨r, hr, h⟩ := Exec.bind_eq_ok h
    obtain ⟨rest, hrest, hv⟩ := Exec.bind_eq_ok h
    cases hv
    simp only [eventsAll, hr, refsTyped_append] at hrefs
    simp only [eventsAll, hr, constructedTypes_append, ← List.append_assoc]
    obtain ⟨hobjects, hval⟩ := decode_keepsTypes hstructs ty s types hs hrefs.1 r.1 r.2 hr
    obtain ⟨hobjects', hvals⟩ := decodeAll_keepsTypes hstructs tys r.2 _ hobjects hrefs.2
      rest.1 rest.2 hrest
    exact ⟨hobjects', .cons (hval.append _) hvals⟩

end

end Decode

theorem memberStructs_keepTypes (info : TypeInfo) (members : ℕ → List Ty) (depth : ℕ) :
    ∀ name s, KeepsTypes members (memberEvents info members depth name s) s
      (memberStructs info members depth name s) fun types => HasType members types (.struct name) := by
  induction depth with
  | zero =>
    intro name s types _ _ v s' h
    cases h
  | succ depth ih =>
    intro name s types hs hrefs v s' h
    obtain ⟨r, hr, hv⟩ := Exec.bind_eq_ok h
    cases hv
    obtain ⟨hobjects, hvs⟩ := decodeAll_keepsTypes info (memberStructs info members depth) ih
      (members name) s types hs hrefs r.1 r.2 hr
    exact ⟨hobjects, .struct hvs⟩

/-! ### Any input -/

end DeftRpc.Serialize
