import DeftRpc.Serialize.StringSerialize

/-!
# What is serialized comes back

The serializer numbers the addresses in the order in which it meets them, the deserializer its
new objects in the order in which it makes them. The two tables move on in lock step as long as
nothing is passed over that the deserializer reads, so an object goes to the address that its
number says.
-/

namespace DeftRpc.Serialize
open DeftRpc.Foundation

/-! ### Addresses in values -/

section Rename
variable (place : ℕ → ℕ)

mutual

/-- The same value with its objects at other addresses. -/
def Val.rename : Val → Val
  | .arith bytes => .arith bytes
  | .string chars => .string chars
  | .tuple elems => .tuple (renameAll elems)
  | .uniqueNull => .uniqueNull
  | .unique pointee => .unique pointee.rename
  | .shared ptr => .shared (ptr.map place)
  | .struct elems => .struct (renameAll elems)

def renameAll : List Val → List Val
  | [] => []
  | v :: vs => v.rename :: renameAll vs

end

end Rename

mutual

def addresses : Val → List ℕ
  | .arith _ => []
  | .string _ => []
  | .tuple elems => addressesAll elems
  | .uniqueNull => []
  | .unique pointee => addresses pointee
  | .shared ptr => ptr.toList
  | .struct elems => addressesAll elems

def addressesAll : List Val → List ℕ
  | [] => []
  | v :: vs => addresses v ++ addressesAll vs

end

/-- The objects behind the shared pointers of a value, and behind theirs. -/
inductive Reaches (heap : List Val) (v : Val) : ℕ → Prop where
  | here {address : ℕ} : address ∈ addresses v → Reaches heap v address
  | behind {address next : ℕ} {u : Val} : Reaches heap v address → heap[address]? = some u →
      next ∈ addresses u → Reaches heap v next

mutual

theorem rename_congr {place place' : ℕ → ℕ} : ∀ (v : Val),
    (∀ a ∈ addresses v, place a = place' a) → v.rename place = v.rename place'
  | .arith _, _ => rfl
  | .string _, _ => rfl
  | .tuple elems, h => by
    rw [Val.rename, Val.rename, renameAll_congr elems h]
  | .uniqueNull, _ => rfl
  | .unique pointee, h => by
    rw [Val.rename, Val.rename, rename_congr pointee h]
  | .shared none, _ => rfl
  | .shared (some address), h => by
    rw [Val.rename, Val.rename, Option.map_some, Option.map_some, h address List.mem_cons_self]
  | .struct elems, h => by
    rw [Val.rename, Val.rename, renameAll_congr elems h]

theorem renameAll_congr {place place' : ℕ → ℕ} : ∀ (vs : List Val),
    (∀ a ∈ addressesAll vs, place a = place' a) → renameAll place vs = renameAll place' vs
  | [], _ => rfl
  | v :: vs, h => by
    have hv := rename_congr v fun a ha => h a (List.mem_append_left _ ha)
    have hvs := renameAll_congr vs fun a ha => h a (List.mem_append_right _ ha)
    rw [renameAll, renameAll, hv, hvs]

end

/-! ### Structs that are passed over -/

mutual

/-- Nothing is read for the value. -/
def hollow : Val → Bool
  | .arith bytes => bytes.isEmpty
  | .struct elems => hollowAll elems
  | _ => false

def hollowAll : List Val → Bool
  | [] => true
  | v :: vs => hollow v && hollowAll vs

end

mutual

theorem hollow_addresses : ∀ {v : Val}, hollow v = true → addresses v = []
  | .arith _, _ => rfl
  | .struct elems, h => by
    rw [hollow] at h
    rw [addresses, hollowAll_addresses h]

theorem hollowAll_addresses : ∀ {vs : List Val}, hollowAll vs = true → addressesAll vs = []
  | [], _ => rfl
  | v :: vs, h => by
    rw [hollowAll, Bool.and_eq_true] at h
    rw [addressesAll, hollow_addresses h.1, hollowAll_addresses h.2, List.append_nil]

end

section Intact
variable (members : ℕ → List Ty) (constFunc : ℕ → Bool)

mutual

/-- No struct with something to read is passed over, down to the shared pointers. -/
def intact : Argument → Ty → Val → Bool
  | _, .tuple elems, .tuple vs => intactAll .constant elems vs
  | _, .unique pointee, .unique v => intact .lvalue pointee v
  | arg, .struct name, .struct vs =>
    if hasMemberSerializeFunc (constFunc name) arg then
      intactAll (memberArgument (constFunc name)) (members name) vs
    else hollowAll vs
  | _, _, _ => true

def intactAll : Argument → List Ty → List Val → Bool
  | arg, ty :: tys, v :: vs => intact arg ty v && intactAll arg tys vs
  | _, _, _ => true

end

/-- Neither in the value nor in an object that can be reached. -/
structure AllIntact (types : List Ty) (heap : List Val) (arg : Argument) (ty : Ty) (v : Val) : Prop where
  value : intact members constFunc arg ty v = true
  objects : ∀ address pointee u, Reaches heap v address → types[address]? = some pointee →
    heap[address]? = some u → intact members constFunc .lvalue pointee u = true

end Intact

/-! ### The two tables -/

/-- Where the deserializer puts the object of an address: the number, less one. -/
def placeOf (base : SerializeBase) (address : ℕ) : ℕ := (base.idOf address).getD 0 - 1

def Seen (base : SerializeBase) (as : List ℕ) : Prop := ∀ a ∈ as, ∃ id, base.idOf a = some id

/-- The serializer has given out as many numbers as the deserializer has made objects. -/
structure Lockstep (base : SerializeBase) (d : StringDeSerialize) : Prop where
  numbered : Numbered d
  curIdx : base.mCurIdx = d.objects.length
  ids : ∀ address id, base.idOf address = some id → 1 ≤ id ∧ id ≤ d.objects.length
  inj : ∀ address other id, base.idOf address = some id → base.idOf other = some id →
    address = other

/-- What happens to both between two points: numbers and objects stay, and each object that got a
number has been copied to its place. -/
structure Copied (heap : List Val) (base : SerializeBase) (d : StringDeSerialize)
    (base' : SerializeBase) (d' : StringDeSerialize) : Prop where
  known : ∀ address id, base.idOf address = some id → base'.idOf address = some id
  grows : d.objects.length ≤ d'.objects.length
  kept : ∀ place, place < d.objects.length → d'.objects[place]? = d.objects[place]?
  copied : ∀ address id, base'.idOf address = some id → base.idOf address = none →
    ∃ v, heap[address]? = some v ∧ Seen base' (addresses v) ∧
      d'.objects[id - 1]? = some (some (v.rename (placeOf base')))

theorem placeOf_known {base base' : SerializeBase}
    (h : ∀ address id, base.idOf address = some id → base'.idOf address = some id) {address id : ℕ}
    (hid : base.idOf address = some id) : placeOf base' address = placeOf base address := by
  rw [placeOf, placeOf, hid, h address id hid]

theorem Seen.known {base base' : SerializeBase} {as : List ℕ}
    (h : ∀ address id, base.idOf address = some id → base'.idOf address = some id)
    (hseen : Seen base as) : Seen base' as := by
  intro a ha
  obtain ⟨id, hid⟩ := hseen a ha
  exact ⟨id, h a id hid⟩

theorem rename_known {base base' : SerializeBase} {v : Val}
    (h : ∀ address id, base.idOf address = some id → base'.idOf address = some id)
    (hseen : Seen base (addresses v)) :
    v.rename (placeOf base') = v.rename (placeOf base) := by
  apply rename_congr
  intro a ha
  obtain ⟨id, hid⟩ := hseen a ha
  exact placeOf_known h hid

variable {heap : List Val}

theorem Copied.same {base : SerializeBase} {d d' : StringDeSerialize} (h : d'.objects = d.objects) :
    Copied heap base d base d' := by
  refine ⟨fun _ _ hid => hid, by rw [h], fun place _ => by rw [h], fun address id hid hnone => ?_⟩
  rw [hid] at hnone
  cases hnone

theorem Copied.trans {base base1 base2 : SerializeBase} {d d1 d2 : StringDeSerialize}
    (h : Copied heap base d base1 d1) (h1 : Lockstep base1 d1)
    (h' : Copied heap base1 d1 base2 d2) : Copied heap base d base2 d2 := by
  refine ⟨fun address id hid => h'.known address id (h.known address id hid),
    le_trans h.grows h'.grows, ?_, ?_⟩
  · intro place hlt
    have hgrows := h.grows
    rw [h'.kept place (by omega), h.kept place hlt]
  · intro address id hid hnone
    cases hmid : base1.idOf address with
    | none => exact h'.copied address id hid hmid
    | some id1 =>
      have hsame : id1 = id := Option.some.inj ((h'.known address id1 hmid).symm.trans hid)
      rw [hsame] at hmid
      obtain ⟨v, hv, hseen, hobject⟩ := h.copied address id hmid hnone
      obtain ⟨hpos, hmax⟩ := h1.ids address id hmid
      refine ⟨v, hv, hseen.known h'.known, ?_⟩
      rw [h'.kept (id - 1) (by omega), hobject, rename_known h'.known hseen]

theorem Lockstep.read {base : SerializeBase} {d d' : StringDeSerialize} (h : Lockstep base d)
    (hbase : d'.base = d.base) (hobjects : d'.objects = d.objects)
    (hle : d'.mStr.length ≤ d.mStr.length) : Lockstep base d' := by
  refine ⟨h.numbered.read hbase hobjects hle, ?_, ?_, h.inj⟩
  · rw [hobjects]
    exact h.curIdx
  · rw [hobjects]
    exact h.ids

theorem Lockstep.rest {base : SerializeBase} {d : StringDeSerialize} (h : Lockstep base d)
    {out rest : List Byte} (hd : d.mStr = out ++ rest) : Lockstep base { d with mStr := rest } := by
  have hle : rest.length ≤ d.mStr.length := by
    rw [hd, List.length_append]
    exact Nat.le_add_left _ _
  exact h.read rfl rfl hle

theorem Lockstep.setObject {base : SerializeBase} {d : StringDeSerialize} (h : Lockstep base d)
    (address : ℕ) (v : Val) : Lockstep base (setObject d address v) := by
  have hlen : (Serialize.setObject d address v).objects.length = d.objects.length := List.length_set
  refine ⟨h.numbered.setObject address v, ?_, ?_, h.inj⟩
  · rw [hlen]
    exact h.curIdx
  · rw [hlen]
    exact h.ids

theorem Lockstep.small {base : SerializeBase} {d : StringDeSerialize} (h : Lockstep base d) :
    d.objects.length < 2 ^ 61 := by
  have hroom := h.numbered.room
  omega

theorem Lockstep.register {base : SerializeBase} {d : StringDeSerialize} (h : Lockstep base d)
    {address : ℕ} (hnew : base.idOf address = none)
    (hroom : 8 * d.objects.length + d.mStr.length + 8 < 2 ^ 64) :
    Lockstep (registerPrt base (some address)).2 (newObject d).2 ∧
      (registerPrt base (some address)).1 = (d.objects.length + 1) ||| ptrIdMask ∧
      (registerPrt base (some address)).2.idOf address = some (d.objects.length + 1) := by
  obtain ⟨htag, hidx, hids⟩ := registerPrt_new hnew
  have hmod : (base.mCurIdx + 1) % 2 ^ 64 = d.objects.length + 1 := by
    rw [h.curIdx]
    exact Nat.mod_eq_of_lt (by omega)
  have hlen : (newObject d).2.objects.length = d.objects.length + 1 := by simp [newObject]
  rw [hmod] at htag hidx hids
  refine ⟨⟨h.numbered.newObject hroom, ?_, ?_, ?_⟩, htag, ?_⟩
  · rw [hidx, hlen]
  · intro other id hid
    rw [hlen]
    rw [hids] at hid
    split at hid
    · cases hid
      omega
    · obtain ⟨hpos, hmax⟩ := h.ids other id hid
      omega
  · intro a b id ha hb
    rw [hids] at ha hb
    split at ha
    · next hsame =>
      split at hb
      · next hsame' => rw [hsame, hsame']
      · cases ha
        obtain ⟨-, hmax⟩ := h.ids b _ hb
        omega
    · split at hb
      · cases hb
        obtain ⟨-, hmax⟩ := h.ids a _ ha
        omega
      · exact h.inj a b id ha hb
  · rw [hids, if_pos rfl]

/-- The object of a first occurrence, when what is behind it has been read. -/
theorem Copied.new {base base' : SerializeBase} {d d1 : StringDeSerialize} {address : ℕ} {u : Val}
    (hlock : Lockstep base d) (hroom : 8 * d.objects.length + d.mStr.length + 8 < 2 ^ 64)
    (hnew : base.idOf address = none) (hu : heap[address]? = some u)
    (hlock' : Lockstep base' d1) (hseen : Seen base' (addresses u))
    (h : Copied heap (registerPrt base (some address)).2 (newObject d).2 base' d1) :
    Copied heap base d base' (setObject d1 d.objects.length (u.rename (placeOf base'))) := by
  obtain ⟨hlock1, -, hid⟩ := hlock.register hnew hroom
  have hknown := h.known address _ hid
  have hlen : (newObject d).2.objects.length = d.objects.length + 1 := by simp [newObject]
  have hgrows := h.grows
  rw [hlen] at hgrows
  have hother : ∀ other, other ≠ address →
      (registerPrt base (some address)).2.idOf other = base.idOf other := by
    intro other hne
    rw [(registerPrt_new hnew).2.2, if_neg hne]
  refine ⟨fun other id hother' => ?_, ?_, fun place hlt => ?_, fun other id hcopied hnone => ?_⟩
  · apply h.known other id
    rw [hother other (fun hsame => by rw [hsame, hnew] at hother'; cases hother')]
    exact hother'
  · refine le_trans (Nat.le_of_succ_le hgrows) (le_of_eq ?_)
    exact List.length_set.symm
  · have hkept := h.kept place (by omega)
    have hne : d.objects.length ≠ place := by omega
    show (d1.objects.set d.objects.length _)[place]? = _
    rw [List.getElem?_set_ne hne, hkept]
    exact List.getElem?_append_left hlt
  · show ∃ v, heap[other]? = some v ∧ Seen base' (addresses v) ∧
      (d1.objects.set d.objects.length _)[id - 1]? = _
    by_cases hsame : other = address
    · rw [hsame, hknown] at hcopied
      cases hcopied
      refine ⟨u, by rw [hsame]; exact hu, hseen, ?_⟩
      rw [Nat.add_sub_cancel, List.getElem?_set_self (by omega)]
    · obtain ⟨v, hv, hseen', hobject⟩ := h.copied other id hcopied (by rw [hother other hsame, hnone])
      have hne : d.objects.length ≠ id - 1 := by
        intro heq
        obtain ⟨hpos, -⟩ := hlock'.ids other id hcopied
        have hid' : id = d.objects.length + 1 := by omega
        rw [hid'] at hcopied
        exact hsame (hlock'.inj other address _ hcopied hknown)
      refine ⟨v, hv, hseen', ?_⟩
      rw [List.getElem?_set_ne hne]
      exact hobject

/-! ### Reading back what was written -/

theorem sizeTag_written {d : StringDeSerialize} {width n : ℕ} {rest : List Byte}
    (h : d.mStr = leBytes width n ++ rest) (hn : n < 256 ^ width) :
    sizeTag d width = .ok (n, { d with mStr := rest }) := by
  have hlen : ¬ d.mStr.length < width := by
    rw [h, List.length_append, leBytes_length]
    omega
  have htake : d.mStr.take width = leBytes width n := by
    rw [h]
    exact List.take_left' (leBytes_length width n)
  have hdrop : d.mStr.drop width = rest := by
    rw [h]
    exact List.drop_left' (leBytes_length width n)
  rw [sizeTag_ok hlen, htake, hdrop, leVal_leBytes hn]

theorem input_written {d : StringDeSerialize} {bytes rest : List Byte} (h : d.mStr = bytes ++ rest) :
    input d bytes.length = .ok (bytes, { d with mStr := rest }) := by
  have hlen : ¬ d.mStr.length < bytes.length := by
    rw [h, List.length_append]
    omega
  rw [input, DeSerializer.input, if_neg hlen, h, List.take_left, List.drop_left]

section Decode
variable (info : TypeInfo) (members : ℕ → List Ty)

/-- From some nesting depth of the structs on. -/
def DecodesTo (ty : Ty) (d : StringDeSerialize) (v : Val) (d' : StringDeSerialize) : Prop :=
  ∃ least, ∀ depth, least ≤ depth →
    decode info (memberStructs info members depth) ty d = .ok (v, d')

def DecodesAllTo (tys : List Ty) (d : StringDeSerialize) (vs : List Val) (d' : StringDeSerialize) :
    Prop :=
  ∃ least, ∀ depth, least ≤ depth →
    decodeAll info (memberStructs info members depth) tys d = .ok (vs, d')

variable {info members}

theorem decodesTo_arith {d : StringDeSerialize} {bytes rest : List Byte} (h : d.mStr = bytes ++ rest) :
    DecodesTo info members (.arith bytes.length) d (.arith bytes) { d with mStr := rest } := by
  refine ⟨0, fun depth _ => ?_⟩
  rw [decode, input_written h]
  rfl

theorem decodesTo_string {d : StringDeSerialize} {chars rest : List Byte}
    (h : d.mStr = leBytes 8 chars.length ++ (chars ++ rest)) (hmax : chars.length ≤ stringMaxSize) :
    DecodesTo info members .string d (.string chars) { d with mStr := rest } := by
  have hlt : chars.length < 256 ^ 8 := by
    unfold stringMaxSize at hmax
    omega
  refine ⟨0, fun depth _ => ?_⟩
  rw [decode, sizeTag_written h hlt, Exec.ok_bind]
  dsimp only
  by_cases hzero : chars.length = 0
  · have hnil : chars = [] := List.length_eq_zero_iff.mp hzero
    rw [if_pos hzero, hnil, List.nil_append]
    rfl
  · rw [if_neg hzero, resize, if_neg (Nat.not_lt.mpr hmax), Exec.ok_bind, input_written rfl]
    rfl

theorem decodesTo_tuple {d d' : StringDeSerialize} {elems : List Ty} {vs : List Val}
    {rest : List Byte} (h : d.mStr = leBytes 8 elems.length ++ rest) (hsize : elems.length < 2 ^ 64)
    (helems : DecodesAllTo info members elems { d with mStr := rest } vs d') :
    DecodesTo info members (.tuple elems) d (.tuple vs) d' := by
  obtain ⟨least, helems⟩ := helems
  refine ⟨least, fun depth hdepth => ?_⟩
  rw [decode, sizeTag_written h (lt_of_lt_of_eq hsize (by norm_num)), Exec.ok_bind]
  dsimp only
  rw [if_neg (not_not.mpr rfl), helems depth hdepth]
  rfl

theorem decodesTo_uniqueNull {d : StringDeSerialize} {pointee : Ty} {rest : List Byte}
    (h : d.mStr = leBytes 2 0 ++ rest) :
    DecodesTo info members (.unique pointee) d .uniqueNull { d with mStr := rest } := by
  refine ⟨0, fun depth _ => ?_⟩
  rw [decode, sizeTag_written h (by norm_num), Exec.ok_bind]
  rfl

theorem decodesTo_unique {d d' : StringDeSerialize} {pointee : Ty} {v : Val} {rest : List Byte}
    (h : d.mStr = leBytes 2 1 ++ rest)
    (hpointee : DecodesTo info members pointee { d with mStr := rest } v d') :
    DecodesTo info members (.unique pointee) d (.unique v) d' := by
  obtain ⟨least, hpointee⟩ := hpointee
  refine ⟨least, fun depth hdepth => ?_⟩
  rw [decode, sizeTag_written h (by norm_num), Exec.ok_bind]
  dsimp only
  rw [if_pos (by omega), hpointee depth hdepth]
  rfl

theorem decodesTo_known {d : StringDeSerialize} {pointee : Ty} {id : ℕ} {rest : List Byte}
    (h : d.mStr = leBytes 8 id ++ rest) (hid : id < 2 ^ 63) :
    DecodesTo info members (.shared pointee) d (.shared (getPrt d.base id)) { d with mStr := rest } := by
  refine ⟨0, fun depth _ => ?_⟩
  rw [decode, sizeTag_written h (by omega), Exec.ok_bind]
  dsimp only
  rw [if_neg (not_not.mpr (id_not_masked hid))]
  rfl

theorem decodesTo_new {d d' : StringDeSerialize} {pointee : Ty} {id : ℕ} {v : Val}
    {rest : List Byte} (h : d.mStr = leBytes 8 (id ||| ptrIdMask) ++ rest) (hid : id < 2 ^ 63)
    (hpointee : DecodesTo info members pointee (newObject { d with mStr := rest }).2 v d') :
    DecodesTo info members (.shared pointee) d (.shared (some d.objects.length))
      (setObject d' d.objects.length v) := by
  obtain ⟨least, hpointee⟩ := hpointee
  refine ⟨least, fun depth hdepth => ?_⟩
  rw [decode, sizeTag_written h (lt_of_lt_of_eq (id_masked_lt hid) (by norm_num)), Exec.ok_bind]
  dsimp only
  rw [if_pos (id_masked id), hpointee depth hdepth]
  rfl

theorem decodesTo_struct {d d' : StringDeSerialize} {name : ℕ} {vs : List Val}
    (hvs : DecodesAllTo info members (members name) d vs d') :
    DecodesTo info members (.struct name) d (.struct vs) d' := by
  obtain ⟨least, hvs⟩ := hvs
  refine ⟨least + 1, fun depth hdepth => ?_⟩
  obtain ⟨depth, rfl⟩ : ∃ n, depth = n + 1 := ⟨depth - 1, by omega⟩
  rw [decode, memberStructs]
  dsimp only
  rw [hvs depth (by omega)]
  rfl

theorem decodesAllTo_nil (d : StringDeSerialize) : DecodesAllTo info members [] d [] d :=
  ⟨0, fun depth _ => by rw [decodeAll]; rfl⟩

theorem decodesAllTo_cons {d d1 d2 : StringDeSerialize} {ty : Ty} {tys : List Ty} {v : Val}
    {vs : List Val} (hv : DecodesTo info members ty d v d1)
    (hvs : DecodesAllTo info members tys d1 vs d2) :
    DecodesAllTo info members (ty :: tys) d (v :: vs) d2 := by
  obtain ⟨least, hv⟩ := hv
  obtain ⟨least', hvs⟩ := hvs
  refine ⟨max least least', fun depth hdepth => ?_⟩
  rw [decodeAll, hv depth (by omega), Exec.ok_bind]
  dsimp only
  rw [hvs depth (by omega)]
  rfl

end Decode

/-! ### A value and what is read for it -/

section Mirror
variable (info : TypeInfo) (members : ℕ → List Ty) (heap : List Val)

/-- From tables in lock step, the bytes written in between are read back as the same value, and the tables
are in lock step again. -/
def Mirrored (reads : StringDeSerialize → StringDeSerialize → Prop) (as : List ℕ) (out : List Byte)
    (s s' : StringSerialize) : Prop :=
  ∀ (d : StringDeSerialize) (rest : List Byte), d.mStr = out ++ rest → Lockstep s.base d →
    ∃ d', reads d d' ∧ d'.mStr = rest ∧ Lockstep s'.base d' ∧ Copied heap s.base d s'.base d' ∧
      Seen s'.base as

def Mirrors (ty : Ty) (v : Val) (s s' : StringSerialize) : Prop :=
  ∃ out, s'.mStr = s.mStr ++ out ∧
    Mirrored heap (fun d d' => DecodesTo info members ty d (v.rename (placeOf s'.base)) d')
      (addresses v) out s s'

def MirrorsAll (tys : List Ty) (vs : List Val) (s s' : StringSerialize) : Prop :=
  ∃ out, s'.mStr = s.mStr ++ out ∧
    Mirrored heap (fun d d' => DecodesAllTo info members tys d (renameAll (placeOf s'.base) vs) d')
      (addressesAll vs) out s s'

variable {info members heap}

theorem mirrored_read {reads : StringDeSerialize → StringDeSerialize → Prop} {out : List Byte}
    {s s' : StringSerialize} (hbase : s'.base = s.base)
    (h : ∀ (d : StringDeSerialize) rest, d.mStr = out ++ rest → reads d { d with mStr := rest }) :
    Mirrored heap reads [] out s s' := by
  intro d rest hd hlock
  refine ⟨{ d with mStr := rest }, h d rest hd, rfl, ?_, ?_, ?_⟩
  · rw [hbase]
    exact hlock.rest hd
  · rw [hbase]
    exact Copied.same rfl
  · exact fun a ha => absurd ha List.not_mem_nil

theorem mirrored_tag {reads reads' : StringDeSerialize → StringDeSerialize → Prop} {as : List ℕ}
    {tag out : List Byte} {s s1 s' : StringSerialize} (hbase : s1.base = s.base)
    (h : Mirrored heap reads as out s1 s')
    (hreads : ∀ (d : StringDeSerialize) rest d', d.mStr = tag ++ rest →
      reads { d with mStr := rest } d' → reads' d d') :
    Mirrored heap reads' as (tag ++ out) s s' := by
  intro d rest hd hlock
  rw [List.append_assoc] at hd
  have hlock1 : Lockstep s1.base { d with mStr := out ++ rest } := by
    rw [hbase]
    exact hlock.rest hd
  obtain ⟨d', hread, hrest, hlock', hcopied, hseen⟩ := h { d with mStr := out ++ rest } rest rfl hlock1
  rw [hbase] at hcopied
  have hsame : Copied heap s.base d s.base { d with mStr := out ++ rest } := Copied.same rfl
  rw [hbase] at hlock1
  exact ⟨d', hreads d _ d' hd hread, hrest, hlock', hsame.trans hlock1 hcopied, hseen⟩

theorem mirrors_known {s : StringSerialize} {pointee : Ty} {address id : ℕ}
    (hid : s.base.idOf address = some id) :
    Mirrors info members heap (.shared pointee) (.shared (some address)) s (outSizeTag s 8 id) := by
  refine ⟨leBytes 8 id, rfl, fun d rest hd hlock => ?_⟩
  obtain ⟨hpos, hmax⟩ := hlock.ids address id hid
  have hsmall := hlock.small
  have hget : getPrt d.base id = some (placeOf s.base address) := by
    rw [hlock.numbered.ids, if_pos ⟨hpos, hmax⟩, placeOf, hid]
    rfl
  have hread : DecodesTo info members (.shared pointee) d (.shared (getPrt d.base id))
      { d with mStr := rest } := decodesTo_known hd (by omega)
  rw [hget] at hread
  refine ⟨{ d with mStr := rest }, hread, rfl, hlock.rest hd, Copied.same rfl, ?_⟩
  intro a ha
  rw [addresses, Option.toList_some, List.mem_singleton] at ha
  exact ⟨id, by rw [ha]; exact hid⟩

theorem mirrors_null {s : StringSerialize} {pointee : Ty} :
    Mirrors info members heap (.shared pointee) (.shared none) s (outSizeTag s 8 0) := by
  refine ⟨leBytes 8 0, rfl, fun d rest hd hlock => ?_⟩
  have hget : getPrt d.base 0 = none := by
    rw [hlock.numbered.ids, if_neg (by omega)]
  have hread : DecodesTo info members (.shared pointee) d (.shared (getPrt d.base 0))
      { d with mStr := rest } := decodesTo_known hd (by omega)
  rw [hget] at hread
  exact ⟨{ d with mStr := rest }, hread, rfl, hlock.rest hd, Copied.same rfl,
    fun a ha => absurd ha List.not_mem_nil⟩

/-- A pointer to an object that gets its number now, and the object behind it. -/
theorem mirrors_new {s s' : StringSerialize} {pointee : Ty} {address : ℕ} {u : Val}
    (hnew : s.base.idOf address = none) (hu : heap[address]? = some u)
    (h : Mirrors info members heap pointee u (outSizeTag
      { s with base := (registerPrt s.base (some address)).2 } 8
      (registerPrt s.base (some address)).1) s') :
    Mirrors info members heap (.shared pointee) (.shared (some address)) s s' := by
  obtain ⟨out, hstr, hmirrored⟩ := h
  refine ⟨leBytes 8 (registerPrt s.base (some address)).1 ++ out, ?_, fun d rest hd hlock => ?_⟩
  · rw [hstr, ← List.append_assoc]
    rfl
  · rw [List.append_assoc] at hd
    have hlen := congrArg List.length hd
    rw [List.length_append, leBytes_length] at hlen
    have hroom := hlock.numbered.room
    have hsmall := hlock.small
    obtain ⟨hlock1, htag, hid⟩ := (hlock.rest hd).register hnew
      (show 8 * d.objects.length + (out ++ rest).length + 8 < 2 ^ 64 by omega)
    obtain ⟨d1, hread, hrest, hlock', hcopied, hseen⟩ := hmirrored _ rest rfl hlock1
    have hknown := hcopied.known address _ hid
    have hplace : placeOf s'.base address = d.objects.length := by
      rw [placeOf, hknown]
      rfl
    have hroom1 : 8 * d.objects.length + (out ++ rest).length + 8 < 2 ^ 64 := by omega
    have hnewCopied := Copied.new (hlock.rest hd) hroom1 hnew hu hlock' hseen hcopied
    have hsame : Copied heap s.base d s.base { d with mStr := out ++ rest } := Copied.same rfl
    have hlock0 := hlock.rest hd
    rw [htag] at hd
    have hdecodes := decodesTo_new hd (show d.objects.length + 1 < 2 ^ 63 by omega) hread
    refine ⟨setObject d1 d.objects.length (u.rename (placeOf s'.base)), ?_, hrest, ?_, ?_, ?_⟩
    · rw [Val.rename, Option.map_some, hplace]
      exact hdecodes
    · exact hlock'.setObject _ _
    · exact hsame.trans hlock0 hnewCopied
    · intro a ha
      rw [addresses, Option.toList_some, List.mem_singleton] at ha
      exact ⟨_, by rw [ha]; exact hknown⟩

/-- One value behind the other: what the first one has registered stays registered. -/
theorem mirrorsAll_cons {ty : Ty} {tys : List Ty} {v : Val} {vs : List Val}
    {s s1 s2 : StringSerialize} (h : Mirrors info members heap ty v s s1)
    (h' : MirrorsAll info members heap tys vs s1 s2) :
    MirrorsAll info members heap (ty :: tys) (v :: vs) s s2 := by
  obtain ⟨out, hstr, hmirrored⟩ := h
  obtain ⟨out', hstr', hmirrored'⟩ := h'
  refine ⟨out ++ out', by rw [hstr', hstr, List.append_assoc], fun d rest hd hlock => ?_⟩
  rw [List.append_assoc] at hd
  obtain ⟨d1, hread, hrest, hlock1, hcopied, hseen⟩ := hmirrored d _ hd hlock
  obtain ⟨d2, hread', hrest', hlock2, hcopied', hseen'⟩ := hmirrored' d1 rest hrest hlock1
  have hread2 : DecodesTo info members ty d (v.rename (placeOf s2.base)) d1 := by
    rw [rename_known hcopied'.known hseen]
    exact hread
  refine ⟨d2, decodesAllTo_cons hread2 hread', hrest', hlock2, hcopied.trans hlock1 hcopied', ?_⟩
  intro a ha
  rw [addressesAll, List.mem_append] at ha
  rcases ha with ha | ha
  · exact hseen.known hcopied'.known a ha
  · exact hseen' a ha

/-- Nothing written for members of which nothing is read. -/
theorem mirrorsAll_refl {tys : List Ty} {vs : List Val} (s : StringSerialize)
    (hnone : addressesAll vs = [])
    (hread : ∀ d, DecodesAllTo info members tys d (renameAll (placeOf s.base) vs) d) :
    MirrorsAll info members heap tys vs s s := by
  refine ⟨[], (List.append_nil _).symm, ?_⟩
  rw [hnone]
  refine mirrored_read rfl fun d rest hd => ?_
  rw [List.nil_append] at hd
  rw [← hd]
  exact hread d

theorem mirrors_struct {name : ℕ} {vs : List Val} {s s' : StringSerialize}
    (h : MirrorsAll info members heap (members name) vs s s') :
    Mirrors info members heap (.struct name) (.struct vs) s s' := by
  obtain ⟨out, hstr, hmirrored⟩ := h
  refine ⟨out, hstr, fun d rest hd hlock => ?_⟩
  obtain ⟨d', hread, hafter⟩ := hmirrored d rest hd hlock
  exact ⟨d', decodesTo_struct hread, hafter⟩

mutual

theorem hollow_reads {types : List Ty} (place : ℕ → ℕ) : ∀ {ty : Ty} {v : Val},
    HasType members types ty v → hollow v = true → ∀ d, DecodesTo info members ty d (v.rename place) d
  | _, .arith bytes, .arith hwidth, h, d => by
    rw [hollow, List.isEmpty_iff] at h
    subst hwidth h
    exact decodesTo_arith rfl
  | _, _, .struct hvs, h, d => by
    rw [hollow] at h
    exact decodesTo_struct (hollowAll_reads place hvs h d)

theorem hollowAll_reads {types : List Ty} (place : ℕ → ℕ) : ∀ {tys : List Ty} {vs : List Val},
    HasTypes members types tys vs → hollowAll vs = true →
      ∀ d, DecodesAllTo info members tys d (renameAll place vs) d
  | _, _, .nil, _, d => decodesAllTo_nil d
  | _, _, .cons hv hvs, h, d => by
    rw [hollowAll, Bool.and_eq_true] at h
    exact decodesAllTo_cons (hollow_reads place hv h.1 d) (hollowAll_reads place hvs h.2 d)

end

section Encode
variable {types : List Ty} {constFunc : ℕ → Bool} {good : ℕ → Prop}
variable {object : Ty → ℕ → StringSerialize → Option StringSerialize}

/-- The objects at good addresses are written as they are read. -/
def ObjectsMirror (info : TypeInfo) (members : ℕ → List Ty) (types : List Ty) (heap : List Val)
    (good : ℕ → Prop) (object : Ty → ℕ → StringSerialize → Option StringSerialize) : Prop :=
  ∀ pointee address s s', types[address]? = some pointee → good address →
    object pointee address s = some s' →
      ∃ u, heap[address]? = some u ∧ Mirrors info members heap pointee u s s'

theorem encode_shared_mirrors (hobject : ObjectsMirror info members types heap good object)
    {pointee : Ty} {address : ℕ} (htype : types[address]? = some pointee) (hgood : good address)
    (arg : Argument) (s s' : StringSerialize)
    (h : encode members constFunc object arg (.shared pointee) (.shared (some address)) s = some s') :
    Mirrors info members heap (.shared pointee) (.shared (some address)) s s' := by
  simp only [encode] at h
  cases hid : s.base.idOf address with
  | some id =>
    rw [registerPrt_known hid] at h
    by_cases hmask : id &&& ptrIdMask ≠ 0
    · -- A number that large was never given out.
      rw [if_pos hmask, Option.bind_some] at h
      obtain ⟨-, -, out, hstr, -⟩ := hobject pointee address _ s' htype hgood h
      refine ⟨leBytes 8 id ++ out, ?_, fun d rest _ hlock => ?_⟩
      · rw [hstr, ← List.append_assoc]
        rfl
      · obtain ⟨-, hmax⟩ := hlock.ids address id hid
        have hsmall := hlock.small
        exact absurd (id_not_masked (by omega)) hmask
    · rw [if_neg hmask] at h
      cases h
      exact mirrors_known hid
  | none =>
    have hmask : (registerPrt s.base (some address)).1 &&& ptrIdMask ≠ 0 := by
      rw [(registerPrt_new hid).1]
      exact id_masked _
    rw [if_pos hmask, Option.bind_some] at h
    obtain ⟨u, hu, hmirrors⟩ := hobject pointee address _ s' htype hgood h
    exact mirrors_new hid hu hmirrors

mutual

/-- One case for each kind of value, the elements one after the other. -/
theorem encode_mirrors (hobject : ObjectsMirror info members types heap good object) :
    ∀ {ty : Ty} {v : Val}, HasType members types ty v → ∀ (arg : Argument) (s s' : StringSerialize),
      intact members constFunc arg ty v = true → (∀ a ∈ addresses v, good a) →
      encode members constFunc object arg ty v s = some s' → Mirrors info members heap ty v s s'
  | _, .arith bytes, .arith hwidth, arg, s, s', _, _, h => by
    rw [encode] at h
    cases h
    subst hwidth
    exact ⟨bytes, rfl, mirrored_read rfl fun d rest hd => decodesTo_arith hd⟩
  | _, .string chars, .string hmax, arg, s, s', _, _, h => by
    have hout : s' = outPut (outSizeTag s 8 chars.length) chars := by
      simp only [encode] at h
      split at h
      · next hempty =>
        cases h
        rw [List.isEmpty_iff.mp hempty]
        simp [outPut]
      · cases h
        rfl
    refine ⟨leBytes 8 chars.length ++ chars, ?_, ?_⟩
    · rw [hout, ← List.append_assoc]
      rfl
    · refine mirrored_read (by rw [hout]; rfl) fun d rest hd => ?_
      rw [List.append_assoc] at hd
      exact decodesTo_string hd hmax
  | .tuple elems, _, .tuple hsize hvs, arg, s, s', hintact, hgood, h => by
    rw [encode] at h
    rw [intact] at hintact
    obtain ⟨out, hstr, hmirrored⟩ := encodeAll_mirrors hobject hvs .constant _ s' hintact hgood h
    refine ⟨leBytes 8 elems.length ++ out, ?_, ?_⟩
    · rw [hstr, ← List.append_assoc]
      rfl
    · exact mirrored_tag rfl hmirrored fun d rest d' hd hread => decodesTo_tuple hd hsize hread
  | _, _, .uniqueNull pointee, arg, s, s', _, _, h => by
    rw [encode] at h
    cases h
    exact ⟨leBytes 2 0, rfl, mirrored_read rfl fun d rest hd => decodesTo_uniqueNull hd⟩
  | _, _, .unique hv, arg, s, s', hintact, hgood, h => by
    rw [encode] at h
    rw [intact] at hintact
    obtain ⟨out, hstr, hmirrored⟩ := encode_mirrors hobject hv .lvalue _ s' hintact hgood h
    refine ⟨leBytes 2 1 ++ out, ?_, ?_⟩
    · rw [hstr, ← List.append_assoc]
      rfl
    · exact mirrored_tag rfl hmirrored fun d rest d' hd hread => decodesTo_unique hd hread
  | _, _, .sharedNull pointee, arg, s, s', _, _, h => by
    rw [encode_null] at h
    cases h
    exact mirrors_null
  | _, _, .shared htype, arg, s, s', _, hgood, h =>
    encode_shared_mirrors hobject htype (hgood _ List.mem_cons_self) arg s s' h
  | _, _, @HasType.struct _ _ name _ hvs, arg, s, s', hintact, hgood, h => by
    rw [encode] at h
    rw [intact] at hintact
    apply mirrors_struct
    by_cases hcall : hasMemberSerializeFunc (constFunc name) arg = true
    · rw [if_pos hcall] at h hintact
      exact encodeAll_mirrors hobject hvs _ s s' hintact hgood h
    · rw [if_neg hcall] at h hintact
      cases h
      exact mirrorsAll_refl s (hollowAll_addresses hintact) (hollowAll_reads _ hvs hintact)

theorem encodeAll_mirrors (hobject : ObjectsMirror info members types heap good object) :
    ∀ {tys : List Ty} {vs : List Val}, HasTypes members types tys vs →
      ∀ (arg : Argument) (s s' : StringSerialize), intactAll members constFunc arg tys vs = true →
      (∀ a ∈ addressesAll vs, good a) → encodeAll members constFunc object arg tys vs s = some s' →
      MirrorsAll info members heap tys vs s s'
  | _, _, .nil, arg, s, s', _, _, h => by
    rw [encodeAll] at h
    cases h
    exact mirrorsAll_refl s rfl decodesAllTo_nil
  | _, _, .cons hv hvs, arg, s, s', hintact, hgood, h => by
    rw [encodeAll] at h
    rw [intactAll, Bool.and_eq_true] at hintact
    obtain ⟨s1, hone, hrest⟩ := Option.bind_eq_some_iff.mp h
    exact mirrorsAll_cons
      (encode_mirrors hobject hv arg s s1 hintact.1 (fun a ha => hgood a (List.mem_append_left _ ha)) hone)
      (encodeAll_mirrors hobject hvs arg s1 s' hintact.2
        (fun a ha => hgood a (List.mem_append_right _ ha)) hrest)

end

theorem encodeObject_mirrors (hheap : TypedHeap members types heap)
    (hgood : ∀ address pointee u, good address → types[address]? = some pointee →
      heap[address]? = some u →
      intact members constFunc .lvalue pointee u = true ∧ ∀ a ∈ addresses u, good a) (depth : ℕ) :
    ObjectsMirror info members types heap good (encodeObject members constFunc heap depth) := by
  induction depth with
  | zero =>
    intro pointee address s s' _ _ h
    cases h
  | succ depth ih =>
    intro pointee address s s' htype haddress h
    obtain ⟨u, hu, hencode⟩ := Option.bind_eq_some_iff.mp h
    obtain ⟨hintact, hbehind⟩ := hgood address pointee u haddress htype hu
    obtain ⟨pointee', hpointee, hutype⟩ := hheap.values address u hu
    rw [htype] at hpointee
    cases hpointee
    exact ⟨u, hu, encode_mirrors ih hutype .lvalue s s' hintact hbehind hencode⟩

end Encode

end Mirror

/-! ### Any value -/

theorem lockstep_start {inPutStr : List Byte} (h : inPutStr.length < 2 ^ 64) :
    Lockstep {} { mStr := inPutStr } :=
  ⟨Numbered.start h, rfl, fun _ _ hid => (by cases hid), fun _ _ _ hid => (by cases hid)⟩

theorem Reaches.copied {heap : List Val} {v : Val} {base' : SerializeBase}
    {d d' : StringDeSerialize} (hcopied : Copied heap {} d base' d') (hseen : Seen base' (addresses v))
    {address : ℕ} (h : Reaches heap v address) :
    ∃ id u, base'.idOf address = some id ∧ heap[address]? = some u ∧ Seen base' (addresses u) ∧
      d'.objects[id - 1]? = some (some (u.rename (placeOf base'))) := by
  have hlookup : ∀ a id, base'.idOf a = some id → ∃ u, heap[a]? = some u ∧
      Seen base' (addresses u) ∧ d'.objects[id - 1]? = some (some (u.rename (placeOf base'))) :=
    fun a id hid => hcopied.copied a id hid rfl
  induction h with
  | here hmem =>
    obtain ⟨id, hid⟩ := hseen _ hmem
    obtain ⟨u, hu⟩ := hlookup _ id hid
    exact ⟨id, u, hid, hu⟩
  | behind _ hget hmem ih =>
    obtain ⟨id, u, hid, hu, hseen', -⟩ := ih
    rw [hget] at hu
    cases hu
    obtain ⟨id', hid'⟩ := hseen' _ hmem
    obtain ⟨u', hu'⟩ := hlookup _ id' hid'
    exact ⟨id', u', hid', hu'⟩

/-- The value comes back with its objects at other addresses, the same address for the same object,
each object that can be reached is there, and `rest` is left. -/
def RoundTrips (info : TypeInfo) (members : ℕ → List Ty) (heap : List Val) (ty : Ty) (v : Val)
    (s : StringSerialize) (rest : List Byte) : Prop :=
  ∃ place d, (∃ least, ∀ depth, least ≤ depth →
      deserialize info (memberStructs info members depth) ty (s.mStr ++ rest)
        = .ok (v.rename place, d)) ∧
    d.mStr = rest ∧
    (∀ address, Reaches heap v address → ∃ u, heap[address]? = some u ∧
      d.objects[place address]? = some (some (u.rename place))) ∧
    ∀ address other, Reaches heap v address → Reaches heap v other →
      (place address = place other ↔ address = other)

theorem AllIntact.roundTrips {info : TypeInfo} {members : ℕ → List Ty} {constFunc : ℕ → Bool}
    {types : List Ty} {heap : List Val} (hheap : TypedHeap members types heap) {arg : Argument}
    {ty : Ty} {v : Val} (hv : HasType members types ty v)
    (hintact : AllIntact members constFunc types heap arg ty v) {s : StringSerialize}
    (hs : serialize members constFunc heap arg ty v = some s) {rest : List Byte}
    (hlen : (s.mStr ++ rest).length < 2 ^ 64) : RoundTrips info members heap ty v s rest := by
  have hgood : ∀ address pointee u, Reaches heap v address → types[address]? = some pointee →
      heap[address]? = some u →
      intact members constFunc .lvalue pointee u = true ∧ ∀ a ∈ addresses u, Reaches heap v a :=
    fun address pointee u hreach htype hu =>
      ⟨hintact.objects address pointee u hreach htype hu, fun a ha => hreach.behind hu ha⟩
  obtain ⟨out, hstr, hmirrored⟩ := encode_mirrors (encodeObject_mirrors hheap hgood heap.length) hv
    arg {} s hintact.value (fun a ha => .here ha) hs
  have hout : s.mStr = out := hstr
  obtain ⟨d, hread, hrest, hlock, hcopied, hseen⟩ := hmirrored { mStr := s.mStr ++ rest } rest
    (by rw [hout]) (lockstep_start hlen)
  refine ⟨placeOf s.base, d, hread, hrest, fun address hreach => ?_, fun address other ha hb => ?_⟩
  · obtain ⟨id, u, hid, hu, -, hobject⟩ := hreach.copied hcopied hseen
    refine ⟨u, hu, ?_⟩
    rw [placeOf, hid]
    exact hobject
  · obtain ⟨id, -, hid, -⟩ := ha.copied hcopied hseen
    obtain ⟨id', -, hid', -⟩ := hb.copied hcopied hseen
    obtain ⟨hpos, -⟩ := hlock.ids address id hid
    obtain ⟨hpos', -⟩ := hlock.ids other id' hid'
    constructor
    · intro hplace
      rw [placeOf, placeOf, hid, hid', Option.getD_some, Option.getD_some] at hplace
      have hsame : id = id' := by omega
      rw [← hsame] at hid'
      exact hlock.inj address other id hid hid'
    · exact fun hsame => by rw [hsame]

end DeftRpc.Serialize
