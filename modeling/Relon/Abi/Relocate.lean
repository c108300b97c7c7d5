import Relon.Abi.Layout

/-! Pointer relocation (`buffer.rs`).

A child record is written into a buffer of its own and pasted into its parent.
The paste moves every pointer inside it, so the builder keeps a `RelocLayout`:
which slots of a record are pointers and what their targets contain in turn.
`relocatePointers` walks it over the child's bytes, adding the paste base to
each pointer and descending at the pointer's old value. -/
namespace Relon.Abi
open Bytes Relon.Except

attribute [local simp] TypeRepr.weight Schema.weight_eq

/-! ### Alignment of a value's tail -/

/-- Whether the elements of a list are reached through an array of pointers. -/
def listPayloadIsPointerArray : TypeRepr → Bool
  | .string | .schema _ | .list _ | .option _ | .result .. | .enum .. => true
  | .unit | .bool | .int | .float | .closure .. => false

def payloadSlotLayoutRuntime : TypeRepr → Nat × Nat
  | .unit | .bool => (1, 1)
  | .int | .float => (8, 8)
  | .string | .list _ | .schema _ | .option _ | .result .. | .enum .. | .closure .. => (4, 4)

def variantPayloadTypes (ty : TypeRepr) : List TypeRepr := (variantPayloads ty).getD []

theorem typesWeight_variantPayloadTypes (ty : TypeRepr) : typesWeight (variantPayloadTypes ty) < ty.weight := by
  cases h : variantPayloads ty with
  | none =>
    rw [variantPayloadTypes, h]
    exact ty.weight_pos
  | some ps =>
    rw [variantPayloadTypes, h]
    exact typesWeight_variantPayloads h

mutual
/-- The strongest alignment the tail records of a value of type `ty` need. -/
def typeGraphAlign (ty : TypeRepr) : Nat :=
  match ty with
  | .unit | .bool | .int | .float | .string => 1
  | .list element =>
    match element with
    | .int | .float => 8
    | .bool => 1
    | .string => 1
    | other => typeGraphAlign other
  | .schema schema => ((schema.fields.map fun f => typeGraphAlign f.ty).max?).getD 1
  | .closure .. => 1
  | variant => variantRecordAlignRuntime variant
termination_by 3 * ty.weight + 1
decreasing_by
  · simp [TypeRepr.weight]
  · have := field_ty_weight_lt ‹_ ∈ _›
    simp only [TypeRepr.weight, Schema.weight_eq]
    omega
  · omega

def variantRecordAlignRuntime (ty : TypeRepr) : Nat :=
  payloadsAlign (variantPayloadTypes ty) 4
termination_by 3 * ty.weight
decreasing_by
  have := typesWeight_variantPayloadTypes ty
  omega

/-- The loop of `variant_record_align_runtime` over the payload types. -/
def payloadsAlign (payloads : List TypeRepr) (align : Nat) : Nat :=
  match payloads with
  | [] => align
  | payload :: rest =>
    payloadsAlign rest
      (max (max align (payloadSlotLayoutRuntime payload).2) (typeGraphAlign payload))
termination_by 3 * typesWeight payloads + 2
decreasing_by
  all_goals simp only [typesWeight]
  all_goals have := payload.weight_pos; omega
end

/-- The alignment a record is pasted at. -/
def schemaPasteAlign (layout : OffsetTable) (fields : List Field) : Nat :=
  max (max layout.rootAlign (((fields.map fun f => typeGraphAlign f.ty).max?).getD 1)) 1

/-! ### Variant records -/

structure SelectedVariantPayload where
  ty : TypeRepr
  /-- The dict key of a one-field wrapper; `none` when the payload record's own
  fields make up the variant. -/
  key : Option String

structure SelectedVariant where
  name : String
  payload : Option SelectedVariantPayload

def variantPayloadSlotOffset (recordStart : Nat) (payloadTy : TypeRepr) : Option Nat := do
  let align := (payloadSlotLayoutRuntime payloadTy).2
  let raw ← checkedAdd recordStart 1
  if align ≤ 1 then return raw else checkedNextMultipleOf raw align

def variantSelectedPayload (ty : TypeRepr) (tag : UInt8) : Except String SelectedVariant :=
  match ty with
  | .option inner =>
    if tag = 0 then .ok ⟨"None", none⟩
    else if tag = 1 then .ok ⟨"Some", some ⟨inner, some "value"⟩⟩
    else .error "invalid Option tag"
  | .result ok err =>
    if tag = 0 then .ok ⟨"Ok", some ⟨ok, some "value"⟩⟩
    else if tag = 1 then .ok ⟨"Err", some ⟨err, some "error"⟩⟩
    else .error "invalid Result tag"
  | .enum name variants =>
    match variants.find? (fun v => v.tag == tag) with
    | some variant =>
      .ok ⟨variant.name, (variant.payloadSchema name).map fun s => ⟨.schema s, none⟩⟩
    | none => .error "invalid enum tag"
  | _ => .error "expected variant record"

theorem variantSelectedPayload_weight {ty : TypeRepr} {tag : UInt8} {sel : SelectedVariant}
    {p : SelectedVariantPayload} (h : variantSelectedPayload ty tag = .ok sel)
    (hp : sel.payload = some p) : p.ty.weight < ty.weight := by
  unfold variantSelectedPayload at h
  split at h
  · split at h
    · cases h
      cases hp
    · split at h <;> cases h
      cases hp
      simp [TypeRepr.weight]
  · split at h
    · cases h
      cases hp
      simp only [TypeRepr.weight]
      omega
    · split at h <;> cases h
      cases hp
      simp only [TypeRepr.weight]
      omega
  · rename_i name variants
    split at h
    · rename_i v hv
      cases h
      obtain ⟨s, hs, rfl⟩ := Option.map_eq_some_iff.mp hp
      have hle := variant_weight_le (List.mem_of_find?_eq_some hv)
      have := v.payloadSchema_weight hs
      simp only [TypeRepr.weight]
      omega
    · cases h
  · cases h

/-! ### The relocation table -/

mutual
inductive PtrArrayElem where
  | string
  | schema (reloc : RelocLayout)
  | innerList (inner : PtrArrayElem)
  | variant (ty : TypeRepr)

structure RelocSlot where
  offset : Nat
  listElement : Option ListElementKind
  nested : Option RelocLayout
  listElem : Option PtrArrayElem
  variant : Option TypeRepr

structure RelocLayout where
  slots : List RelocSlot
end

/-- The type of a direct variant slot. -/
def variantSlotType : TypeRepr → Option TypeRepr
  | ty@(.option _) => some ty
  | ty@(.result ..) => some ty
  | ty@(.enum ..) => some ty
  | _ => none

mutual
/-- How to relocate the entries of a pointer array of `element`s. -/
def ptrArrayElemFor (element : TypeRepr) : Option PtrArrayElem :=
  match element with
  | .string => some .string
  | .schema schema =>
    (offsetsFor schema).toOption.map fun sub => .schema (RelocLayout.build sub schema.fields)
  | .list inner => (ptrArrayElemFor inner).map .innerList
  | .unit | .bool | .int | .float | .closure .. => none
  | variant => some (.variant variant)
termination_by 2 * element.weight

/-- The relocation table of a direct record field or of a `List<Schema>` field's elements. -/
def nestedReloc (ty : TypeRepr) : Option RelocLayout :=
  match ty with
  | .schema schema => (offsetsFor schema).toOption.map fun sub => RelocLayout.build sub schema.fields
  | .list (.schema schema) =>
    (offsetsFor schema).toOption.map fun sub => RelocLayout.build sub schema.fields
  | _ => none
termination_by 2 * ty.weight

/-- `RelocLayout::build`. -/
def RelocLayout.build (layout : OffsetTable) (fields : List Field) : RelocLayout :=
  { slots := layout.fields.filterMap fun fo =>
      match fo.kind with
      | .inline .. => none
      | .pointerIndirect _ =>
        match _h : fields.find? (fun f => f.name == fo.name) with
        | none => some ⟨fo.offset, fo.listElement, none, none, none⟩
        | some f =>
          some
            { offset := fo.offset
              listElement := fo.listElement
              nested := nestedReloc f.ty
              listElem := listElemReloc f.ty
              variant := variantSlotType f.ty } }
termination_by 2 * fieldsWeight fields + 1
decreasing_by
  all_goals have := field_ty_weight_lt (List.mem_of_find?_eq_some _h); omega

/-- The element descriptor of a list field. -/
def listElemReloc (ty : TypeRepr) : Option PtrArrayElem :=
  match ty with
  | .list element => ptrArrayElemFor element
  | _ => none
termination_by 2 * ty.weight
end

/-! The height of a relocation table bounds the walk over it. -/

def typeHeight : Option TypeRepr → Nat
  | none => 0
  | some ty => ty.weight

mutual
def PtrArrayElem.height : PtrArrayElem → Nat
  | .string => 1
  | .schema r => 1 + r.height
  | .innerList i => 1 + i.height
  | .variant ty => ty.weight

def elemHeight : Option PtrArrayElem → Nat
  | none => 0
  | some e => e.height

def RelocSlot.height : RelocSlot → Nat
  | ⟨_, _, nested, elem, variant⟩ =>
    max (layoutHeight nested) (max (elemHeight elem) (typeHeight variant))

def slotsHeight : List RelocSlot → Nat
  | [] => 0
  | s :: rest => max s.height (slotsHeight rest)

def layoutHeight : Option RelocLayout → Nat
  | none => 0
  | some r => r.height

def RelocLayout.height : RelocLayout → Nat
  | ⟨slots⟩ => 1 + slotsHeight slots
end

theorem slot_height_le {s : RelocSlot} {slots : List RelocSlot} (h : s ∈ slots) :
    s.height ≤ slotsHeight slots := by
  induction slots with
  | nil => cases h
  | cons t rest ih =>
    rw [slotsHeight]
    rcases List.mem_cons.mp h with rfl | h
    · omega
    · have := ih h
      omega

theorem slotsHeight_le {slots : List RelocSlot} {n : Nat} (h : ∀ s ∈ slots, s.height ≤ n) :
    slotsHeight slots ≤ n := by
  induction slots with
  | nil => simp [slotsHeight]
  | cons s rest ih =>
    rw [slotsHeight]
    have := h s (by simp)
    have := ih fun t ht => h t (List.mem_cons_of_mem s ht)
    omega

theorem RelocSlot.height_eq (s : RelocSlot) :
    s.height = max (layoutHeight s.nested) (max (elemHeight s.listElem) (typeHeight s.variant)) := by
  cases s
  simp [RelocSlot.height]

theorem RelocLayout.height_eq (r : RelocLayout) : r.height = 1 + slotsHeight r.slots := by
  cases r
  rw [RelocLayout.height]

theorem variantSlotType_height (ty : TypeRepr) : typeHeight (variantSlotType ty) ≤ ty.weight := by
  cases ty <;> simp [variantSlotType, typeHeight]

mutual
theorem ptrArrayElemFor_height (element : TypeRepr) :
    elemHeight (ptrArrayElemFor element) ≤ element.weight := by
  match element with
  | .string => simp [ptrArrayElemFor, elemHeight, PtrArrayElem.height, TypeRepr.weight]
  | .schema schema =>
    rw [ptrArrayElemFor]
    cases h : (offsetsFor schema).toOption with
    | none => simp [elemHeight]
    | some sub =>
      have := build_height sub schema.fields
      simp only [Option.map_some, elemHeight, PtrArrayElem.height, TypeRepr.weight, Schema.weight_eq]
      omega
  | .list inner =>
    have := ptrArrayElemFor_height inner
    rw [ptrArrayElemFor]
    cases h : ptrArrayElemFor inner with
    | none => simp [elemHeight]
    | some e =>
      rw [h] at this
      simp only [Option.map_some, elemHeight, PtrArrayElem.height, TypeRepr.weight] at this ⊢
      omega
  | .unit | .bool | .int | .float | .closure .. => simp [ptrArrayElemFor, elemHeight]
  | .option _ | .result .. | .enum .. => simp [ptrArrayElemFor, elemHeight, PtrArrayElem.height]
termination_by 2 * element.weight

theorem nestedReloc_height (ty : TypeRepr) : layoutHeight (nestedReloc ty) ≤ ty.weight := by
  match ty with
  | .schema schema | .list (.schema schema) =>
    rw [nestedReloc]
    cases h : (offsetsFor schema).toOption with
    | none => simp [layoutHeight]
    | some sub =>
      have := build_height sub schema.fields
      simp only [Option.map_some, layoutHeight, TypeRepr.weight, Schema.weight_eq]
      omega
  | .unit | .bool | .int | .float | .string | .option _ | .result .. | .enum .. | .closure ..
  | .list .unit | .list .bool | .list .int | .list .float | .list .string | .list (.list _)
  | .list (.option _) | .list (.result ..) | .list (.enum ..) | .list (.closure ..) =>
    simp [nestedReloc, layoutHeight]
termination_by 2 * ty.weight

theorem listElemReloc_height (ty : TypeRepr) : elemHeight (listElemReloc ty) ≤ ty.weight := by
  match ty with
  | .list element =>
    have := ptrArrayElemFor_height element
    rw [listElemReloc, TypeRepr.weight]
    omega
  | .unit | .bool | .int | .float | .string | .option _ | .result .. | .enum .. | .closure ..
  | .schema _ => simp [listElemReloc, elemHeight]
termination_by 2 * ty.weight

theorem build_height (layout : OffsetTable) (fields : List Field) :
    (RelocLayout.build layout fields).height ≤ 1 + fieldsWeight fields := by
  rw [RelocLayout.height_eq]
  apply Nat.add_le_add_left
  apply slotsHeight_le
  intro s hs
  rw [RelocLayout.build] at hs
  obtain ⟨fo, -, hfo⟩ := List.mem_filterMap.mp hs
  split at hfo
  · cases hfo
  · split at hfo
    · cases hfo
      simp [RelocSlot.height, layoutHeight, elemHeight, typeHeight]
    · rename_i f hfind
      cases hfo
      have hw := field_ty_weight_lt (List.mem_of_find?_eq_some hfind)
      have hn := nestedReloc_height f.ty
      have he := listElemReloc_height f.ty
      have hv := variantSlotType_height f.ty
      simp only [RelocSlot.height]
      omega
termination_by 2 * fieldsWeight fields + 1
end

/-! ### The walk -/

def readU32 (bytes : List UInt8) (off : Nat) : Nat := leNat (slice bytes off 4)

def writeU32 (bytes : List UInt8) (off n : Nat) : List UInt8 := patch bytes off (leBytes 4 n)

/-- `off.checked_add(n).map(|end| end > bytes.len()).unwrap_or(true)`. -/
def exceeds (bytes : List UInt8) (off n : Nat) : Bool :=
  match checkedAdd off n with
  | some e => decide (bytes.length < e)
  | none => true

/-- Add `pasteBase` to the `u32` at `slot`. Gives the pointer's old value, which is
where the walk goes on. -/
def rebaseSlot (bytes : List UInt8) (slot pasteBase : Nat) (outOfBounds overflow : String) :
    Except String (List UInt8 × Nat) :=
  if exceeds bytes slot 4 then .error outOfBounds
  else
    let original := readU32 bytes slot
    if original + pasteBase < 2 ^ 32 then .ok (writeU32 bytes slot (original + pasteBase), original)
    else .error overflow

mutual
def relocatePointers (bytes : List UInt8) (reloc : RelocLayout) (recordBase pasteBase : Nat) :
    Except String (List UInt8) :=
  reloc.slots.foldlM (fun bytes slot => do
    let slotAbs ← okOr (checkedAdd recordBase slot.offset) "pointer slot offset overflows usize"
    let (bytes, original) ← rebaseSlot bytes slotAbs pasteBase
      "pointer slot exceeds buffer end" "relocated pointer overflows u32"
    match _hv : slot.variant with
    | some variantTy => relocateVariantRecord bytes original variantTy pasteBase
    | none =>
      match slot.listElement with
      | some (.pointerArray _) => relocateListPointerArray bytes original slot.listElem pasteBase
      | some (.inlineFixed ..) | none =>
        match _hn : slot.nested with
        | some nested => relocatePointers bytes nested original pasteBase
        | none => .ok bytes) bytes
termination_by 2 * reloc.height
decreasing_by
  all_goals have hs := slot_height_le ‹_ ∈ _›
  all_goals rw [RelocSlot.height_eq] at hs
  all_goals rw [reloc.height_eq]
  all_goals try rw [_hv, typeHeight] at hs
  all_goals try rw [_hn, layoutHeight] at hs
  all_goals omega

def relocateListPointerArray (bytes : List UInt8) (recordStart : Nat) (elem : Option PtrArrayElem)
    (pasteBase : Nat) : Except String (List UInt8) := do
  if exceeds bytes recordStart 4 then .error "list length prefix exceeds buffer end"
  else
    let count := readU32 bytes recordStart
    (List.range count).foldlM (fun bytes i => do
      let cursor := recordStart + 4 + 4 * i
      let (bytes, original) ← rebaseSlot bytes cursor pasteBase
        "list pointer array entry exceeds buffer end" "relocated list-entry pointer overflows u32"
      match elem with
      | some (.schema elementReloc) => relocatePointers bytes elementReloc original pasteBase
      | some (.innerList inner) => relocateListPointerArray bytes original (some inner) pasteBase
      | some (.variant ty) => relocateVariantRecord bytes original ty pasteBase
      | some .string | none => .ok bytes) bytes
termination_by 2 * elemHeight elem + 1
decreasing_by all_goals simp [elemHeight, PtrArrayElem.height]; try omega

def relocateVariantRecord (bytes : List UInt8) (recordStart : Nat) (ty : TypeRepr)
    (pasteBase : Nat) : Except String (List UInt8) := do
  if exceeds bytes recordStart 1 then .error "variant tag exceeds buffer end"
  else
    let tag := bytes.getD recordStart 0
    match _hsel : variantSelectedPayload ty tag with
    | .error e => .error e
    | .ok selected =>
      match _hpay : selected.payload with
      | none => .ok bytes
      | some payload =>
        if !listPayloadIsPointerArray payload.ty then .ok bytes
        else
          let slotAbs ← okOr (variantPayloadSlotOffset recordStart payload.ty)
            "variant payload slot offset overflows usize"
          let (bytes, original) ← rebaseSlot bytes slotAbs pasteBase
            "variant payload pointer slot exceeds buffer end"
            "relocated variant payload pointer overflows u32"
          match _hty : payload.ty with
          | .schema schema =>
            match offsetsFor schema with
            | .error _ => .error "variant schema payload is not layoutable"
            | .ok layout =>
              relocatePointers bytes (RelocLayout.build layout schema.fields) original pasteBase
          | .list element =>
            if listPayloadIsPointerArray element then
              relocateListPointerArray bytes original (ptrArrayElemFor element) pasteBase
            else .ok bytes
          | .unit | .bool | .int | .float | .string | .closure .. => .ok bytes
          | variant => relocateVariantRecord bytes original variant pasteBase
termination_by 2 * ty.weight
decreasing_by
  all_goals have hw := variantSelectedPayload_weight _hsel _hpay
  all_goals rw [_hty] at hw
  · have := build_height layout schema.fields
    rw [TypeRepr.weight, Schema.weight_eq] at hw
    omega
  · have := ptrArrayElemFor_height element
    rw [TypeRepr.weight] at hw
    omega
  · omega
end

end Relon.Abi
