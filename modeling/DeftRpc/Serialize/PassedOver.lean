import Mathlib.Algebra.Order.BigOperators.Group.List
import DeftRpc.Serialize.RoundTrip

/-!
# How much is written and how much is read

The deserializer reads a fixed number of bytes for a value and for each object that it makes, the
serializer writes no more than that for the value and for each address that gets a number. When
the value comes back, the two sums are equal, so nothing was passed over.
-/

namespace DeftRpc.Serialize
open DeftRpc.Foundation

/-! ### Sizes -/

mutual

/-- The bytes read for a value, those for the objects behind its shared pointers apart. -/
def readSize : Val → ℕ
  | .arith bytes => bytes.length
  | .string chars => 8 + chars.length
  | .tuple elems => 8 + readSizeAll elems
  | .uniqueNull => 2
  | .unique pointee => 2 + readSize pointee
  | .shared _ => 8
  | .struct elems => readSizeAll elems

def readSizeAll : List Val → ℕ
  | [] => 0
  | v :: vs => readSize v + readSizeAll vs

end

section WrittenSize
variable (members : ℕ → List Ty) (constFunc : ℕ → Bool)

mutual

/-- The bytes written for it, again without the objects. -/
def writtenSize : Argument → Ty → Val → ℕ
  | _, .tuple elems, .tuple vs => 8 + writtenSizeAll .constant elems vs
  | _, .unique pointee, .unique v => 2 + writtenSize .lvalue pointee v
  | arg, .struct name, .struct vs =>
    if hasMemberSerializeFunc (constFunc name) arg then
      writtenSizeAll (memberArgument (constFunc name)) (members name) vs
    else 0
  | _, _, v => readSize v

def writtenSizeAll : Argument → List Ty → List Val → ℕ
  | arg, ty :: tys, v :: vs => writtenSize arg ty v + writtenSizeAll arg tys vs
  | _, _, _ => 0

end

end WrittenSize

mutual

theorem readSize_rename (place : ℕ → ℕ) : ∀ v : Val, readSize (v.rename place) = readSize v
  | .arith _ => rfl
  | .string _ => rfl
  | .tuple elems => by
    rw [Val.rename, readSize, readSize, readSizeAll_rename place elems]
  | .uniqueNull => rfl
  | .unique pointee => by
    rw [Val.rename, readSize, readSize, readSize_rename place pointee]
  | .shared _ => rfl
  | .struct elems => by
    rw [Val.rename, readSize, readSize, readSizeAll_rename place elems]

theorem readSizeAll_rename (place : ℕ → ℕ) : ∀ vs : List Val,
    readSizeAll (renameAll place vs) = readSizeAll vs
  | [] => rfl
  | v :: vs => by
    rw [renameAll, readSizeAll, readSizeAll, readSize_rename place v, readSizeAll_rename place vs]

end

mutual

theorem hollow_of_readSize : ∀ v : Val, readSize v = 0 → hollow v = true
  | .arith bytes, h => List.isEmpty_iff.mpr (List.length_eq_zero_iff.mp h)
  | .string _, h => by
    rw [readSize] at h
    omega
  | .tuple _, h => by
    rw [readSize] at h
    omega
  | .unique _, h => by
    rw [readSize] at h
    omega
  | .struct elems, h => by
    rw [readSize] at h
    rw [hollow]
    exact hollowAll_of_readSize elems h

theorem hollowAll_of_readSize : ∀ vs : List Val, readSizeAll vs = 0 → hollowAll vs = true
  | [], _ => rfl
  | v :: vs, h => by
    rw [readSizeAll] at h
    rw [hollowAll, hollow_of_readSize v (by omega), hollowAll_of_readSize vs (by omega)]
    rfl

end

section Compare
variable {members : ℕ → List Ty} {constFunc : ℕ → Bool} {types : List Ty}

mutual

theorem writtenSize_le : ∀ {ty : Ty} {v : Val}, HasType members types ty v → ∀ arg,
    writtenSize members constFunc arg ty v ≤ readSize v ∧
      (readSize v ≤ writtenSize members constFunc arg ty v → intact members constFunc arg ty v = true)
  | _, _, .arith _, arg => by
    simp [writtenSize, intact]
  | _, _, .string _, arg => by
    simp [writtenSize, intact]
  | _, _, .tuple _ hvs, arg => by
    obtain ⟨hle, hintact⟩ := writtenSizeAll_le hvs .constant
    rw [writtenSize, intact, readSize]
    exact ⟨by omega, fun h => hintact (by omega)⟩
  | _, _, .uniqueNull _, arg => by
    simp [writtenSize, intact]
  | _, _, .unique hv, arg => by
    obtain ⟨hle, hintact⟩ := writtenSize_le hv .lvalue
    rw [writtenSize, intact, readSize]
    exact ⟨by omega, fun h => hintact (by omega)⟩
  | _, _, .sharedNull _, arg => by
    simp [writtenSize, intact]
  | _, _, .shared _, arg => by
    simp [writtenSize, intact]
  | _, _, .struct hvs, arg => by
    rw [writtenSize, intact, readSize]
    split
    · exact writtenSizeAll_le hvs _
    · exact ⟨Nat.zero_le _, fun h => hollowAll_of_readSize _ (by omega)⟩

theorem writtenSizeAll_le : ∀ {tys : List Ty} {vs : List Val}, HasTypes members types tys vs → ∀ arg,
    writtenSizeAll members constFunc arg tys vs ≤ readSizeAll vs ∧
      (readSizeAll vs ≤ writtenSizeAll members constFunc arg tys vs →
        intactAll members constFunc arg tys vs = true)
  | _, _, .nil, arg => by
    simp [writtenSizeAll, intactAll]
  | _, _, .cons hv hvs, arg => by
    obtain ⟨hle, hintact⟩ := writtenSize_le hv arg
    obtain ⟨hles, hintacts⟩ := writtenSizeAll_le hvs arg
    rw [writtenSizeAll, intactAll, readSizeAll, Bool.and_eq_true]
    exact ⟨by omega, fun h => ⟨hintact (by omega), hintacts (by omega)⟩⟩

end

end Compare

/-! ### What decoding consumes -/

/-- The object at an address; nothing has been read for one that is not there yet. -/
def objectSize (object : Option Val) : ℕ := (object.map readSize).getD 0

/-- The input that went into a result of `size` bytes and into the objects made. -/
def Consumes (d d' : StringDeSerialize) (size : ℕ) : Prop :=
  ∃ made, d'.objects = d.objects ++ made ∧
    d.mStr.length = d'.mStr.length + size + (made.map objectSize).sum

theorem Consumes.refl (d : StringDeSerialize) : Consumes d d 0 := ⟨[], by simp, by simp⟩

theorem Consumes.trans {d d1 d2 : StringDeSerialize} {size size' : ℕ} (h : Consumes d d1 size)
    (h' : Consumes d1 d2 size') : Consumes d d2 (size + size') := by
  obtain ⟨made, hobjects, hlen⟩ := h
  obtain ⟨made', hobjects', hlen'⟩ := h'
  refine ⟨made ++ made', by rw [hobjects', hobjects, List.append_assoc], ?_⟩
  rw [List.map_append, List.sum_append]
  omega

theorem input_consumes {d d' : StringDeSerialize} {size : ℕ} {bytes : List Byte}
    (h : input d size = .ok (bytes, d')) : bytes.length = size ∧ Consumes d d' size := by
  unfold input DeSerializer.input at h
  split at h
  · cases h
  · next hshort =>
    cases h
    refine ⟨by rw [List.length_take]; omega, [], by simp, ?_⟩
    simp only [List.length_drop, List.map_nil, List.sum_nil]
    omega

theorem sizeTag_consumes {d d' : StringDeSerialize} {width size : ℕ}
    (h : sizeTag d width = .ok (size, d')) : Consumes d d' width := by
  obtain ⟨r, hr, hpure⟩ := Exec.bind_eq_ok (noexcept_eq_ok h)
  cases hpure
  exact (input_consumes hr).2

/-- The pointee is read behind the new object, then it is put there. -/
theorem Consumes.pointee {d d' : StringDeSerialize} {v : Val}
    (h : Consumes (newObject d).2 d' (readSize v)) :
    Consumes d (setObject d' (newObject d).1 v) 0 := by
  obtain ⟨made, hobjects, hlen⟩ := h
  have hnew : d'.objects = d.objects ++ none :: made := by
    rw [hobjects]
    exact List.append_assoc _ _ _
  refine ⟨some v :: made, ?_, ?_⟩
  · show d'.objects.set d.objects.length (some v) = _
    rw [hnew, List.set_append_right _ _ (le_refl _), Nat.sub_self]
    rfl
  · rw [List.map_cons, List.sum_cons]
    have hsize : objectSize (some v) = readSize v := rfl
    have hsame : (newObject d).2.mStr = d.mStr := rfl
    have hlen' : (setObject d' (newObject d).1 v).mStr = d'.mStr := rfl
    rw [hsame] at hlen
    rw [hlen', hsize]
    omega

section Decode
variable (info : TypeInfo) {structs : ℕ → Decoder}

mutual

theorem decode_consumes (hstructs : ∀ name d v d', structs name d = .ok (v, d') →
      Consumes d d' (readSize v)) :
    ∀ (ty : Ty) (d : StringDeSerialize) (v : Val) (d' : StringDeSerialize),
      decode info structs ty d = .ok (v, d') → Consumes d d' (readSize v)
  | .arith width, d, v, d', h => by
    rw [decode] at h
    obtain ⟨r, hr, hv⟩ := Exec.bind_eq_ok h
    cases hv
    obtain ⟨hlen, hconsumes⟩ := input_consumes hr
    rw [readSize, hlen]
    exact hconsumes
  | .string, d, v, d', h => by
    rw [decode] at h
    obtain ⟨size, hsize, h⟩ := Exec.bind_eq_ok h
    have htag := sizeTag_consumes hsize
    split at h
    · cases h
      exact htag
    · obtain ⟨-, -, h⟩ := Exec.bind_eq_ok h
      obtain ⟨r, hr, hv⟩ := Exec.bind_eq_ok h
      cases hv
      obtain ⟨hlen, hconsumes⟩ := input_consumes hr
      rw [readSize, hlen]
      exact htag.trans hconsumes
  | .tuple elems, d, v, d', h => by
    rw [decode] at h
    obtain ⟨size, hsize, h⟩ := Exec.bind_eq_ok h
    split at h
    · cases h
    · obtain ⟨r, hr, hv⟩ := Exec.bind_eq_ok h
      cases hv
      exact (sizeTag_consumes hsize).trans (decodeAll_consumes hstructs elems size.2 r.1 r.2 hr)
  | .unique pointee, d, v, d', h => by
    rw [decode] at h
    obtain ⟨id, hid, h⟩ := Exec.bind_eq_ok (noexcept_eq_ok h)
    have htag := sizeTag_consumes hid
    split at h
    · obtain ⟨r, hr, hv⟩ := Exec.bind_eq_ok h
      cases hv
      exact htag.trans (decode_consumes hstructs pointee id.2 r.1 r.2 hr)
    · cases h
      exact htag
  | .shared pointee, d, v, d', h => by
    rw [decode] at h
    obtain ⟨id, hid, h⟩ := Exec.bind_eq_ok (noexcept_eq_ok h)
    have htag := sizeTag_consumes hid
    split at h
    · obtain ⟨r, hr, hv⟩ := Exec.bind_eq_ok h
      cases hv
      exact htag.trans (decode_consumes hstructs pointee _ r.1 r.2 hr).pointee
    · cases h
      exact htag
  | .struct name, d, v, d', h => by
    rw [decode] at h
    exact hstructs name d v d' (noexcept_eq_ok h)

theorem decodeAll_consumes (hstructs : ∀ name d v d', structs name d = .ok (v, d') →
      Consumes d d' (readSize v)) :
    ∀ (tys : List Ty) (d : StringDeSerialize) (vs : List Val) (d' : StringDeSerialize),
      decodeAll info structs tys d = .ok (vs, d') → Consumes d d' (readSizeAll vs)
  | [], d, vs, d', h => by
    rw [decodeAll] at h
    cases h
    exact .refl d
  | ty :: tys, d, vs, d', h => by
    rw [decodeAll] at h
    obtain ⟨r, hr, h⟩ := Exec.bind_eq_ok h
    obtain ⟨rest, hrest, hv⟩ := Exec.bind_eq_ok h
    cases hv
    exact (decode_consumes hstructs ty d r.1 r.2 hr).trans
      (decodeAll_consumes hstructs tys r.2 rest.1 rest.2 hrest)

end

end Decode

theorem memberStructs_consume (info : TypeInfo) (members : ℕ → List Ty) (depth : ℕ) :
    ∀ name d v d', memberStructs info members depth name d = .ok (v, d') → Consumes d d' (readSize v) := by
  induction depth with
  | zero =>
    intro name d v d' h
    cases h
  | succ depth ih =>
    intro name d v d' h
    obtain ⟨r, hr, hv⟩ := Exec.bind_eq_ok h
    cases hv
    exact decodeAll_consumes info ih (members name) d r.1 r.2 hr

/-! ### What encoding writes -/

/-- The addresses with a number. -/
def registered (base : SerializeBase) : List ℕ := base.mAddressToId.map Prod.fst

theorem idOf_none_iff {base : SerializeBase} {address : ℕ} :
    base.idOf address = none ↔ address ∉ registered base := by
  unfold SerializeBase.idOf registered
  rw [List.lookup_eq_none_iff, List.mem_map]
  constructor
  · intro h hmem
    obtain ⟨p, hp, hfst⟩ := hmem
    have hne := h p hp
    rw [hfst] at hne
    simp at hne
  · intro h p hp
    rw [bne_iff_ne]
    exact fun he => h ⟨p, hp, he.symm⟩

theorem registered_registerPrt {base : SerializeBase} {address : ℕ} (h : base.idOf address = none) :
    registered (registerPrt base (some address)).2 = address :: registered base := by
  unfold SerializeBase.idOf at h
  simp only [registerPrt, h, registered, List.map_cons]

section Writes
variable (members : ℕ → List Ty) (constFunc : ℕ → Bool) (types : List Ty) (heap : List Val)

/-- What is written for an object, once it has its number. -/
def objectWritten (address : ℕ) : ℕ :=
  match types[address]?, heap[address]? with
  | some pointee, some u => writtenSize members constFunc .lvalue pointee u
  | _, _ => 0

/-- `fresh` are the addresses that got a number while `size` bytes were written for values with the
addresses `as`. What is intact is looked at as a whole, so each address in it has a number then. -/
structure Writes (good : ℕ → Prop) (s s' : StringSerialize) (size : ℕ) (as : List ℕ)
    (isIntact : Bool) (fresh : List ℕ) : Prop where
  table : registered s'.base = fresh ++ registered s.base
  length : s'.mStr.length =
    s.mStr.length + size + (fresh.map (objectWritten members constFunc types heap)).sum
  counts : Counts heap s'.base
  nodup : (registered s.base).Nodup → (registered s'.base).Nodup
  good : ∀ a ∈ fresh, good a
  seen : isIntact = true → ∀ a ∈ as, a ∈ registered s'.base
  behind : ∀ a ∈ fresh, ∀ pointee u, types[a]? = some pointee → heap[a]? = some u →
    intact members constFunc .lvalue pointee u = true → ∀ b ∈ addresses u, b ∈ registered s'.base

variable {members constFunc types heap} {good : ℕ → Prop}

theorem Writes.plain {s s' : StringSerialize} (hs : Counts heap s.base) (hbase : s'.base = s.base)
    {size : ℕ} (hlen : s'.mStr.length = s.mStr.length + size) {as : List ℕ} {isIntact : Bool}
    (hseen : isIntact = true → ∀ a ∈ as, a ∈ registered s.base) :
    Writes members constFunc types heap good s s' size as isIntact [] := by
  refine ⟨by rw [hbase]; rfl, hlen, by rw [hbase]; exact hs, by rw [hbase]; exact id,
    fun a ha => absurd ha List.not_mem_nil, by rw [hbase]; exact hseen,
    fun a ha => absurd ha List.not_mem_nil⟩

theorem Writes.tag {s : StringSerialize} (hs : Counts heap s.base) (width n : ℕ) :
    Writes members constFunc types heap good s (outSizeTag s width n) width [] true [] := by
  refine Writes.plain hs (by rfl) ?_ fun _ a ha => absurd ha List.not_mem_nil
  rw [outSizeTag, outPut, List.length_append, leBytes_length]

theorem Writes.trans {s s1 s2 : StringSerialize} {size size' : ℕ} {as as' : List ℕ}
    {isIntact isIntact' : Bool} {fresh fresh' : List ℕ}
    (h : Writes members constFunc types heap good s s1 size as isIntact fresh)
    (h' : Writes members constFunc types heap good s1 s2 size' as' isIntact' fresh') :
    Writes members constFunc types heap good s s2 (size + size') (as ++ as') (isIntact && isIntact')
      (fresh' ++ fresh) := by
  have hgrows : ∀ a ∈ registered s1.base, a ∈ registered s2.base := by
    rw [h'.table]
    exact fun a ha => List.mem_append_right _ ha
  refine ⟨by rw [h'.table, h.table, List.append_assoc], ?_, h'.counts, fun hn => h'.nodup (h.nodup hn),
    ?_, ?_, ?_⟩
  · have hlen := h.length
    have hlen' := h'.length
    rw [List.map_append, List.sum_append]
    omega
  · intro a ha
    exact (List.mem_append.mp ha).elim (h'.good a) (h.good a)
  · intro hintact a ha
    rw [Bool.and_eq_true] at hintact
    exact (List.mem_append.mp ha).elim (fun hm => hgrows a (h.seen hintact.1 a hm))
      (h'.seen hintact.2 a)
  · intro a ha pointee u htype hu hintact b hb
    exact (List.mem_append.mp ha).elim (fun hm => h'.behind a hm pointee u htype hu hintact b hb)
      fun hm => hgrows b (h.behind a hm pointee u htype hu hintact b hb)

/-- A pointer to an object that gets its number now, and the object behind it. -/
theorem Writes.object {s s' : StringSerialize} {address tag : ℕ} {pointee : Ty} {u : Val}
    {fresh : List ℕ} (hnew : s.base.idOf address = none) (htype : types[address]? = some pointee)
    (hu : heap[address]? = some u) (hgood : good address)
    (h : Writes members constFunc types heap good
      (outSizeTag { s with base := (registerPrt s.base (some address)).2 } 8 tag) s'
      (writtenSize members constFunc .lvalue pointee u) (addresses u)
      (intact members constFunc .lvalue pointee u) fresh) :
    Writes members constFunc types heap good s s' 8 [address] true (fresh ++ [address]) := by
  have htable := h.table
  have hregistered := registered_registerPrt hnew
  have hbase : registered (outSizeTag { s with base := (registerPrt s.base (some address)).2 } 8 tag).base
      = address :: registered s.base := hregistered
  rw [hbase] at htable
  have hin : address ∈ registered s'.base := by
    rw [htable]
    exact List.mem_append_right _ List.mem_cons_self
  refine ⟨by rw [htable, List.append_assoc]; rfl, ?_, h.counts, fun hn => h.nodup ?_, ?_, ?_, ?_⟩
  · have hlen := h.length
    have hsize : objectWritten members constFunc types heap address =
        writtenSize members constFunc .lvalue pointee u := by
      rw [objectWritten, htype, hu]
    rw [outSizeTag, outPut, List.length_append, leBytes_length] at hlen
    have hsame : ({ s with base := (registerPrt s.base (some address)).2 } : StringSerialize).mStr = s.mStr :=
      rfl
    rw [hsame] at hlen
    rw [List.map_append, List.sum_append, List.map_singleton, List.sum_singleton, hsize]
    omega
  · rw [hbase]
    exact List.nodup_cons.mpr ⟨idOf_none_iff.mp hnew, hn⟩
  · intro a ha
    rcases List.mem_append.mp ha with ha | ha
    · exact h.good a ha
    · rw [List.mem_singleton.mp ha]
      exact hgood
  · intro _ a ha
    rw [List.mem_singleton.mp ha]
    exact hin
  · intro a ha pointee' u' htype' hu' hintact b hb
    rcases List.mem_append.mp ha with ha | ha
    · exact h.behind a ha pointee' u' htype' hu' hintact b hb
    · rw [List.mem_singleton.mp ha, htype] at htype'
      rw [List.mem_singleton.mp ha, hu] at hu'
      cases htype'
      cases hu'
      exact h.seen hintact b hb

/-- The objects at good addresses. -/
def ObjectsWrite (members : ℕ → List Ty) (constFunc : ℕ → Bool) (types : List Ty) (heap : List Val)
    (good : ℕ → Prop) (object : Ty → ℕ → StringSerialize → Option StringSerialize) : Prop :=
  ∀ pointee address s s', types[address]? = some pointee → good address → Counts heap s.base →
    object pointee address s = some s' →
      ∃ u fresh, heap[address]? = some u ∧ Writes members constFunc types heap good s s'
        (writtenSize members constFunc .lvalue pointee u) (addresses u)
        (intact members constFunc .lvalue pointee u) fresh

section Encode
variable {object : Ty → ℕ → StringSerialize → Option StringSerialize}

theorem encode_shared_writes (hsize : heap.length < 2 ^ 63) (hlength : heap.length = types.length)
    (hobject : ObjectsWrite members constFunc types heap good object) {pointee : Ty} {address : ℕ}
    (htype : types[address]? = some pointee) (hgood : good address) (arg : Argument)
    (s s' : StringSerialize) (hs : Counts heap s.base)
    (h : encode members constFunc object arg (.shared pointee) (.shared (some address)) s = some s') :
    ∃ fresh, Writes members constFunc types heap good s s' 8 [address] true fresh := by
  obtain ⟨hlt, -⟩ := List.getElem?_eq_some_iff.mp htype
  simp only [encode] at h
  cases hid : s.base.idOf address with
  | some id =>
    have hle := hs.ids address id hid
    have hcount := hs.count
    rw [registerPrt_known hid, if_neg (not_not.mpr (id_not_masked (by omega)))] at h
    cases h
    have hin : address ∈ registered s.base := by
      by_contra hout
      rw [idOf_none_iff.mpr hout] at hid
      cases hid
    refine ⟨[], Writes.plain hs (by rfl) ?_ fun _ a ha => by rw [List.mem_singleton.mp ha]; exact hin⟩
    rw [outSizeTag, outPut, List.length_append, leBytes_length]
  | none =>
    rw [(registerPrt_new hid).1, if_pos (id_masked _)] at h
    obtain ⟨u, fresh, hu, hwrites⟩ := hobject pointee address _ s' htype hgood
      (hs.register hsize hid (by omega)) h
    exact ⟨_, hwrites.object hid htype hu hgood⟩

mutual

theorem encode_writes (hsize : heap.length < 2 ^ 63) (hlength : heap.length = types.length)
    (hobject : ObjectsWrite members constFunc types heap good object) :
    ∀ {ty : Ty} {v : Val}, HasType members types ty v → ∀ (arg : Argument) (s s' : StringSerialize),
      Counts heap s.base → (∀ a ∈ addresses v, good a) →
      encode members constFunc object arg ty v s = some s' →
      ∃ fresh, Writes members constFunc types heap good s s' (writtenSize members constFunc arg ty v)
        (addresses v) (intact members constFunc arg ty v) fresh
  | _, .arith bytes, .arith _, arg, s, s', hs, _, h => by
    rw [encode] at h
    cases h
    refine ⟨[], Writes.plain hs (by rfl) ?_ fun _ a ha => absurd ha List.not_mem_nil⟩
    simp [outPut, writtenSize, readSize]
  | _, .string chars, .string _, arg, s, s', hs, _, h => by
    simp only [encode] at h
    have hout : s' = outPut (outSizeTag s 8 chars.length) chars := by
      split at h
      · next hempty =>
        cases h
        rw [List.isEmpty_iff.mp hempty]
        simp [outPut]
      · cases h
        rfl
    subst hout
    refine ⟨[], Writes.plain hs (by rfl) ?_ fun _ a ha => absurd ha List.not_mem_nil⟩
    simp [outPut, outSizeTag, writtenSize, readSize]
  | .tuple elems, _, .tuple _ hvs, arg, s, s', hs, hgood, h => by
    rw [encode] at h
    obtain ⟨fresh, hwrites⟩ := encodeAll_writes hsize hlength hobject hvs .constant
      (outSizeTag s 8 elems.length) s' hs hgood h
    have hboth := (Writes.tag hs 8 elems.length).trans hwrites
    rw [writtenSize, intact]
    exact ⟨_, hboth⟩
  | _, _, .uniqueNull _, arg, s, s', hs, _, h => by
    rw [encode] at h
    cases h
    have htag := @Writes.tag members constFunc types heap good s hs 2 0
    simp only [writtenSize, intact, readSize]
    exact ⟨[], htag⟩
  | _, _, .unique hv, arg, s, s', hs, hgood, h => by
    rw [encode] at h
    obtain ⟨fresh, hwrites⟩ := encode_writes hsize hlength hobject hv .lvalue (outSizeTag s 2 1) s'
      hs hgood h
    have hboth := (Writes.tag hs 2 1).trans hwrites
    rw [writtenSize, intact]
    exact ⟨_, hboth⟩
  | _, _, .sharedNull _, arg, s, s', hs, _, h => by
    rw [encode_null] at h
    cases h
    have htag := @Writes.tag members constFunc types heap good s hs 8 0
    simp only [writtenSize, intact, readSize]
    exact ⟨[], htag⟩
  | _, _, .shared htype, arg, s, s', hs, hgood, h => by
    simp only [writtenSize, intact, readSize]
    exact encode_shared_writes hsize hlength hobject htype (hgood _ List.mem_cons_self) arg s s' hs h
  | _, _, @HasType.struct _ _ name vs hvs, arg, s, s', hs, hgood, h => by
    rw [encode] at h
    rw [writtenSize, intact]
    by_cases hcall : hasMemberSerializeFunc (constFunc name) arg = true
    · rw [if_pos hcall] at h
      rw [if_pos hcall, if_pos hcall]
      exact encodeAll_writes hsize hlength hobject hvs _ s s' hs hgood h
    · rw [if_neg hcall] at h
      rw [if_neg hcall, if_neg hcall]
      cases h
      refine ⟨[], Writes.plain hs rfl rfl fun hintact a ha => ?_⟩
      rw [addresses, hollowAll_addresses hintact] at ha
      exact absurd ha List.not_mem_nil

theorem encodeAll_writes (hsize : heap.length < 2 ^ 63) (hlength : heap.length = types.length)
    (hobject : ObjectsWrite members constFunc types heap good object) :
    ∀ {tys : List Ty} {vs : List Val}, HasTypes members types tys vs →
      ∀ (arg : Argument) (s s' : StringSerialize), Counts heap s.base →
      (∀ a ∈ addressesAll vs, good a) → encodeAll members constFunc object arg tys vs s = some s' →
      ∃ fresh, Writes members constFunc types heap good s s' (writtenSizeAll members constFunc arg tys vs)
        (addressesAll vs) (intactAll members constFunc arg tys vs) fresh
  | _, _, .nil, arg, s, s', hs, _, h => by
    rw [encodeAll] at h
    cases h
    exact ⟨[], Writes.plain hs rfl rfl fun _ a ha => absurd ha List.not_mem_nil⟩
  | _, _, .cons hv hvs, arg, s, s', hs, hgood, h => by
    rw [encodeAll] at h
    obtain ⟨s1, hone, hrest⟩ := Option.bind_eq_some_iff.mp h
    obtain ⟨fresh, hwrites⟩ := encode_writes hsize hlength hobject hv arg s s1 hs
      (fun a ha => hgood a (List.mem_append_left _ ha)) hone
    obtain ⟨fresh', hwrites'⟩ := encodeAll_writes hsize hlength hobject hvs arg s1 s' hwrites.counts
      (fun a ha => hgood a (List.mem_append_right _ ha)) hrest
    exact ⟨_, hwrites.trans hwrites'⟩

end

end Encode

theorem encodeObject_writes (hsize : heap.length < 2 ^ 63) (hheap : TypedHeap members types heap)
    (hgood : ∀ address u, good address → heap[address]? = some u → ∀ a ∈ addresses u, good a)
    (depth : ℕ) : ObjectsWrite members constFunc types heap good
      (encodeObject members constFunc heap depth) := by
  induction depth with
  | zero =>
    intro pointee address s s' _ _ _ h
    cases h
  | succ depth ih =>
    intro pointee address s s' htype haddress hs h
    obtain ⟨u, hu, hencode⟩ := Option.bind_eq_some_iff.mp h
    obtain ⟨pointee', hpointee, hutype⟩ := hheap.values address u hu
    rw [htype] at hpointee
    cases hpointee
    obtain ⟨fresh, hwrites⟩ := encode_writes hsize hheap.length ih hutype .lvalue s s' hs
      (hgood address u haddress hu) hencode
    exact ⟨u, fresh, hu, hwrites⟩

end Writes

/-! ### When the value comes back -/

/-- Places that are different are counted at most once each. -/
theorem sum_le_of_places {sizes as : List ℕ} {place size : ℕ → ℕ} (hnodup : as.Nodup)
    (hplace : ∀ a ∈ as, sizes[place a]? = some (size a))
    (hinj : ∀ a ∈ as, ∀ b ∈ as, place a = place b → a = b) : (as.map size).sum ≤ sizes.sum := by
  have hall : (List.range sizes.length).map (fun i => sizes[i]?.getD 0) = sizes := by
    apply List.ext_getElem
    · simp
    · intro i _ hlt
      simp [hlt]
  have hsizes : as.map size = (as.map place).map fun i => sizes[i]?.getD 0 := by
    rw [List.map_map]
    apply List.map_congr_left
    intro a ha
    rw [Function.comp_apply, hplace a ha]
    rfl
  have hin : as.map place ⊆ List.range sizes.length := by
    intro i hi
    obtain ⟨a, ha, rfl⟩ := List.mem_map.mp hi
    exact List.mem_range.mpr (List.getElem?_eq_some_iff.mp (hplace a ha)).1
  obtain ⟨l, hperm, hsub⟩ := (hnodup.map_on hinj).subperm hin
  calc (as.map size).sum = ((as.map place).map fun i => sizes[i]?.getD 0).sum := by rw [hsizes]
    _ = (l.map fun i => sizes[i]?.getD 0).sum := (hperm.map _).sum_eq.symm
    _ ≤ ((List.range sizes.length).map fun i => sizes[i]?.getD 0).sum :=
      (hsub.map _).sum_le_sum fun _ _ => Nat.zero_le _
    _ = sizes.sum := by rw [hall]

section Back
variable {members : ℕ → List Ty} {constFunc : ℕ → Bool} {types : List Ty} {heap : List Val}
  {arg : Argument} {ty : Ty} {v : Val} {s : StringSerialize} {fresh : List ℕ}

/-- Where all that was written is intact, every object that can be reached got a number. -/
theorem Writes.reaches {good : ℕ → Prop} {size : ℕ}
    (h : Writes members constFunc types heap good {} s size (addresses v) true fresh)
    (hheap : TypedHeap members types heap)
    (hobjects : ∀ a ∈ fresh, ∀ pointee u, types[a]? = some pointee → heap[a]? = some u →
      intact members constFunc .lvalue pointee u = true) {address : ℕ} (hreach : Reaches heap v address) :
    address ∈ fresh := by
  have htable : registered s.base = fresh := h.table.trans (List.append_nil fresh)
  induction hreach with
  | here hmem =>
    rw [← htable]
    exact h.seen rfl _ hmem
  | behind _ hget hmem ih =>
    obtain ⟨pointee, htype, -⟩ := hheap.values _ _ hget
    rw [← htable]
    exact h.behind _ ih pointee _ htype hget (hobjects _ ih pointee _ htype hget) _ hmem

/-- What was read is at least what was written, value by value and object by object, and the whole is
equal. -/
theorem RoundTrips.allIntact {info : TypeInfo} (hsize : heap.length < 2 ^ 63)
    (hheap : TypedHeap members types heap) (hv : HasType members types ty v)
    (hs : serialize members constFunc heap arg ty v = some s)
    (h : RoundTrips info members heap ty v s []) : AllIntact members constFunc types heap arg ty v := by
  obtain ⟨place, d, ⟨least, hdecode⟩, hrest, hobjects, hsharing⟩ := h
  have hobject : ObjectsWrite members constFunc types heap (Reaches heap v)
      (encodeObject members constFunc heap heap.length) :=
    encodeObject_writes hsize hheap (fun a u ha hu b hb => ha.behind hu hb) heap.length
  obtain ⟨fresh, hwrites⟩ := encode_writes hsize hheap.length hobject hv arg {} s (Counts.start heap)
    (fun a ha => .here ha) hs
  have hnodup : fresh.Nodup := by
    have htable : registered s.base = fresh := hwrites.table.trans (List.append_nil fresh)
    rw [← htable]
    exact hwrites.nodup List.nodup_nil
  have hfresh : ∀ a ∈ fresh, ∃ pointee u, types[a]? = some pointee ∧ heap[a]? = some u ∧
      HasType members types pointee u ∧ d.objects[place a]? = some (some (u.rename place)) := by
    intro a ha
    obtain ⟨u, hu, hplace⟩ := hobjects a (hwrites.good a ha)
    obtain ⟨pointee, htype, hutype⟩ := hheap.values a u hu
    exact ⟨pointee, u, htype, hu, hutype, hplace⟩
  -- The objects, read and written.
  have hread : (fresh.map fun a => objectSize heap[a]?).sum ≤ (d.objects.map objectSize).sum := by
    apply sum_le_of_places hnodup
    · intro a ha
      obtain ⟨pointee, u, -, hu, -, hplace⟩ := hfresh a ha
      rw [List.getElem?_map, hplace, hu]
      exact congrArg some (readSize_rename place u)
    · exact fun a ha b hb => (hsharing a b (hwrites.good a ha) (hwrites.good b hb)).mp
  have hwritten : ∀ a ∈ fresh, objectWritten members constFunc types heap a ≤ objectSize heap[a]? := by
    intro a ha
    obtain ⟨pointee, u, htype, hu, hutype, -⟩ := hfresh a ha
    rw [objectWritten, htype, hu]
    exact (writtenSize_le hutype .lvalue).1
  -- The totals.
  obtain ⟨made, hmade, hconsumed⟩ := decode_consumes info (memberStructs_consume info members least) ty
    _ _ _ (hdecode least (le_refl least))
  have hout := hwrites.length
  have hobjectsMade : d.objects = made := hmade
  have hempty : ({} : StringSerialize).mStr.length = 0 := rfl
  have hinput : ({ mStr := s.mStr } : StringDeSerialize).mStr.length = s.mStr.length := rfl
  rw [← hobjectsMade, hrest, readSize_rename, List.append_nil, List.length_nil, hinput] at hconsumed
  rw [hempty] at hout
  obtain ⟨hle, hvalue⟩ := @writtenSize_le members constFunc types ty v hv arg
  have hsum := List.sum_le_sum hwritten
  have hvalueIntact := hvalue (by omega)
  have hobjectsIntact : ∀ a ∈ fresh, ∀ pointee u, types[a]? = some pointee → heap[a]? = some u →
      intact members constFunc .lvalue pointee u = true := by
    intro a ha pointee u htype hu
    obtain ⟨pointee', u', htype', hu', hutype, -⟩ := hfresh a ha
    rw [htype] at htype'
    rw [hu] at hu'
    cases htype'
    cases hu'
    apply (writtenSize_le hutype .lvalue).2
    by_contra hless
    have hstrict := List.sum_lt_sum _ _ hwritten ⟨a, ha, by
      rw [objectWritten, htype, hu]
      exact Nat.lt_of_not_le hless⟩
    omega
  rw [hvalueIntact] at hwrites
  refine ⟨hvalueIntact, fun address pointee u hreach htype hu => ?_⟩
  exact hobjectsIntact address (hwrites.reaches hheap hobjectsIntact hreach) pointee u htype hu

end Back

/-- A number and a pointer to the next node. -/
def nodeMembers : ℕ → List Ty := fun _ => [.arith 1, .shared (.struct 0)]

/-- A node that points to itself. -/
def nodeLoop : List Val := [.struct [.arith [7], .shared (some 0)]]

example : (serialize nodeMembers (fun _ => false) nodeLoop .lvalue
    (.tuple [.shared (.struct 0), .shared (.struct 0), .shared (.struct 0)])
    (.tuple [.shared (some 0), .shared none, .shared (some 0)])).map (fun s => s.mStr) =
      some ([3, 0, 0, 0, 0, 0, 0, 0] ++ [1, 0, 0, 0, 0, 0, 0, 128] ++ [7] ++ [1, 0, 0, 0, 0, 0, 0, 0]
        ++ [0, 0, 0, 0, 0, 0, 0, 0] ++ [1, 0, 0, 0, 0, 0, 0, 0]) := by
  decide

end DeftRpc.Serialize
