import Relon.Abi.Buffer
import Relon.Abi.Relocate

/-! The buffer writer (`BufferBuilder` in `buffer.rs`).

A record is a fixed area followed by a tail. Writing a pointer field appends a
tail record and then patches the field's slot. A nested record is written into a
child builder, relocated to the place where it will stand and appended. The
methods of the source that only touch the byte buffer take and return it. -/
namespace Relon.Abi
open Bytes Relon.Except

attribute [local simp] TypeRepr.weight fieldsWeight Field.weight_eq

structure BufferBuilder where
  layout : OffsetTable
  fieldIndex : List FieldEntry
  bytes : List UInt8
  relocLayout : RelocLayout

namespace BufferBuilder

def new (layout : OffsetTable) (fields : List Field) : BufferBuilder :=
  { layout := layout
    fieldIndex := fieldIndexAt layout fields 0
    bytes := List.replicate layout.rootSize 0
    relocLayout := RelocLayout.build layout fields }

def finish (self : BufferBuilder) : List UInt8 := self.bytes

/-- The bytes with every pointer moved by `arenaBase`. -/
def finishArenaAbsolute (self : BufferBuilder) (arenaBase : Nat) : Except BufferError (List UInt8) :=
  if arenaBase ≠ 0 then
    match relocatePointers self.bytes self.relocLayout 0 arenaBase with
    | .ok bytes => .ok bytes
    | .error reason => .error (.malformedPayload "<input marshal arena rebase>" reason)
  else .ok self.bytes

end BufferBuilder

/-! ### Appending to the tail -/

def padTo (bytes : List UInt8) (align : Nat) : List UInt8 :=
  if align ≤ 1 then bytes
  else match checkedNextMultipleOf bytes.length align with
    | some target => bytes ++ List.replicate (target - bytes.length) 0
    | none => bytes

/-- `[len][payload]`, the prefix at a multiple of `prefixAlignment`. -/
def appendTailRecord (bytes : List UInt8) (prefixAlignment len : Nat) (payload : List UInt8) :
    List UInt8 × Nat :=
  let bytes := padTo bytes prefixAlignment
  (bytes ++ leBytes 4 len ++ payload, bytes.length)

/-- `[len][padding][payload]`, the payload at a multiple of `innerAlignment`. -/
def appendTailRecordWithInnerAlignment (bytes : List UInt8)
    (prefixAlignment innerAlignment len : Nat) (payload : List UInt8) : List UInt8 × Nat :=
  let bytes := padTo bytes prefixAlignment
  let recordOffset := bytes.length
  let bytes := bytes ++ leBytes 4 len
  let bytes := if innerAlignment > 1 then padTo bytes innerAlignment else bytes
  (bytes ++ payload, recordOffset)

/-- `u32::try_from`. -/
def tryU32 (name : String) (n : Nat) : Except BufferError Nat :=
  if n < 2 ^ 32 then .ok n else .error (.valueTooLarge name n)

def writePointerSlot (bytes : List UInt8) (name : String) (slotOffset targetOffset : Nat) :
    Except BufferError (List UInt8) := do
  let ptr ← tryU32 name targetOffset
  return writeU32 bytes slotOffset ptr

/-- Pad the parent to `align`, move the child's pointers there and append it. -/
def pasteChild (bytes : List UInt8) (child : BufferBuilder) (align : Nat)
    (tooLargeName relocName : String) : Except BufferError (List UInt8 × Nat) := do
  let bytes := padTo bytes align
  let entryOffset := bytes.length
  let ptr ← tryU32 tooLargeName entryOffset
  match relocatePointers child.bytes child.relocLayout 0 ptr with
  | .ok childBytes => return (bytes ++ childBytes, entryOffset)
  | .error reason => .error (.malformedPayload relocName reason)

def appendChildRecordPayload (bytes : List UInt8) (name : String) (child : BufferBuilder)
    (requestedAlign : Nat) : Except BufferError (List UInt8 × Nat) :=
  let childTailAlign := ((child.fieldIndex.map fun fe => typeGraphAlign fe.ty).max?).getD 1
  let childAlign := max (max (max child.layout.rootAlign requestedAlign) childTailAlign) 1
  pasteChild bytes child childAlign name name

/-! ### Pointer arrays -/

/-- The name of item `i` in the errors of a list. -/
def nestedListName (i : Nat) : String := s!"<nested list>[{i}]"

/-- Append the items one after the other; the result lists where each one stands. -/
def emitItems (emit : List UInt8 → Nat → Value → Except BufferError (List UInt8 × Nat)) :
    List UInt8 → Nat → List Value → Except BufferError (List UInt8 × List Nat)
  | bytes, _, [] => .ok (bytes, [])
  | bytes, i, item :: rest => do
    let (bytes, off) ← emit bytes i item
    let (bytes, offs) ← emitItems emit bytes (i + 1) rest
    return (bytes, off :: offs)

def writeEntries : List UInt8 → Nat → List Nat → List UInt8
  | bytes, _, [] => bytes
  | bytes, dst, off :: rest => writeEntries (writeU32 bytes dst off) (dst + 4) rest

/-- `[len][off_0]…[off_{n-1}]`, then the items, then the entries patched in. -/
def appendPointerArray (bytes : List UInt8) (items : List Value)
    (emit : List UInt8 → Nat → Value → Except BufferError (List UInt8 × Nat)) :
    Except BufferError (List UInt8 × Nat) := do
  let bytes := padTo bytes 4
  let headerOffset := bytes.length
  let bytes := bytes ++ leBytes 4 items.length
  let entriesStart := bytes.length
  let bytes := bytes ++ List.replicate (items.length * 4) 0
  let (bytes, offsets) ← emitItems emit bytes 0 items
  return (writeEntries bytes entriesStart offsets, headerOffset)

/-! ### Values -/

/-- The bytes of one scalar of type `ty`. An `Int` in a `Float` place is converted. -/
def scalarBytes : TypeRepr → Value → Option (List UInt8)
  | .int, .int v => some (i64Bytes v)
  | .float, .float v => some (f64Bytes v)
  | .float, .int v => some (f64Bytes (f64OfInt v))
  | .bool, .bool v => some [if v then 1 else 0]
  | _, _ => none

/-- The concatenated scalars of an inline list payload. -/
def scalarPayload (element : TypeRepr) : Nat → List Value → Except BufferError (List UInt8)
  | _, [] => .ok []
  | i, it :: rest =>
    match scalarBytes element it with
    | none => .error (.typeMismatch (nestedListName i) "List<scalar>" it.typeName)
    | some bs => do
      let payload ← scalarPayload element (i + 1) rest
      return bs ++ payload

/-- Tag and payload of a value in a variant slot. -/
def variantPayloadForValue (name : String) (ty : TypeRepr) (value : Value) :
    Except BufferError (UInt8 × Option (TypeRepr × Value)) :=
  match value with
  | .dict map brand variantOf =>
    match ty with
    | .option inner =>
      if variantOf = some "Option" ∧ brand = some "None" then .ok (0, none)
      else if variantOf = some "Option" ∧ brand = some "Some" then
        match ValueMap.get map "value" with
        | some payload => .ok (1, some (inner, payload))
        | none => .error (.malformedPayload name "Option.Some is missing `value` payload")
      else .error (.typeMismatch name "Option" value.typeName)
    | .result ok err =>
      if variantOf = some "Result" ∧ brand = some "Ok" then
        match ValueMap.get map "value" with
        | some payload => .ok (0, some (ok, payload))
        | none => .error (.malformedPayload name "Result.Ok is missing `value` payload")
      else if variantOf = some "Result" ∧ brand = some "Err" then
        match ValueMap.get map "error" with
        | some payload => .ok (1, some (err, payload))
        | none => .error (.malformedPayload name "Result.Err is missing `error` payload")
      else .error (.typeMismatch name "Result" value.typeName)
    | .enum enumName variants =>
      match variantOf, brand with
      | some valueEnum, some valueVariant =>
        if valueEnum ≠ enumName then .error (.typeMismatch name "Enum" value.typeName)
        else
          match variants.find? (fun v => v.name == valueVariant) with
          | none => .error (.malformedPayload name "enum value carries an unknown variant")
          | some variant =>
            if variant.fields.isEmpty then
              if !map.isEmpty then
                .error (.malformedPayload name "unit enum variant carries payload fields")
              else .ok (variant.tag, none)
            else
              match variant.payloadSchema enumName with
              | some schema => .ok (variant.tag, some (.schema schema, value))
              | none => .error (.malformedPayload name "enum payload schema is missing")
      | _, _ => .error (.typeMismatch name "Enum" value.typeName)
    | _ => .error (.typeMismatch name (typeLabel ty) value.typeName)
  | _ => .error (.typeMismatch name (typeLabel ty) value.typeName)

theorem variantPayloadForValue_weight {name : String} {ty : TypeRepr} {value : Value} {tag : UInt8}
    {pty : TypeRepr} {pv : Value} (h : variantPayloadForValue name ty value = .ok (tag, some (pty, pv))) :
    pty.weight < ty.weight := by
  unfold variantPayloadForValue at h
  split at h
  · split at h
    · split at h
      · cases h
      · split at h
        · split at h <;> cases h
          simp [TypeRepr.weight]
        · cases h
    · split at h
      · split at h <;> cases h
        simp only [TypeRepr.weight]
        omega
      · split at h
        · split at h <;> cases h
          simp only [TypeRepr.weight]
          omega
        · cases h
    · split at h
      · split at h
        · cases h
        · split at h
          · cases h
          · rename_i v hv
            split at h
            · split at h <;> cases h
            · split at h
              · rename_i s hs
                cases h
                have hle := variant_weight_le (List.mem_of_find?_eq_some hv)
                have := v.payloadSchema_weight hs
                simp only [TypeRepr.weight]
                omega
              · cases h
      · cases h
    · cases h
  · cases h

/-- The error for a value that is not the record or tuple its schema asks for. -/
def recordMismatch (name record tuple : String) (schema : Schema) (value : Value) : BufferError :=
  .typeMismatch name (if schema.isTuple then tuple else record) value.typeName

mutual
def writeValueSlot (bytes : List UInt8) (name : String) (slotOffset : Nat) (ty : TypeRepr)
    (value : Value) : Except BufferError (List UInt8) :=
  match ty, value with
  | .int, .int v => .ok (patch bytes slotOffset (i64Bytes v))
  | .float, .float v => .ok (patch bytes slotOffset (f64Bytes v))
  | .float, .int v => .ok (patch bytes slotOffset (f64Bytes (f64OfInt v)))
  | .bool, .bool v => .ok (patch bytes slotOffset [if v then 1 else 0])
  | .unit, v =>
    -- the slot is zeroed already
    if v.isOptionNone then .ok bytes else .error (.typeMismatch name "Unit" v.typeName)
  | .string, .string s =>
    let (bytes, off) := appendTailRecord bytes 4 (utf8Bytes s).length (utf8Bytes s)
    writePointerSlot bytes name slotOffset off
  | .list element, .list items => do
    let (bytes, off) ← appendListPayload bytes element items
    writePointerSlot bytes name slotOffset off
  | .schema schema, v => do
    let (bytes, off) ← appendSchemaValuePayload bytes name schema v
    writePointerSlot bytes name slotOffset off
  | .option inner, v => do
    let (bytes, off) ← appendVariantRecord bytes name (.option inner) v
    writePointerSlot bytes name slotOffset off
  | .result ok err, v => do
    let (bytes, off) ← appendVariantRecord bytes name (.result ok err) v
    writePointerSlot bytes name slotOffset off
  | .enum enumName variants, v => do
    let (bytes, off) ← appendVariantRecord bytes name (.enum enumName variants) v
    writePointerSlot bytes name slotOffset off
  | ty, other => .error (.typeMismatch name (typeLabel ty) other.typeName)
termination_by 4 * ty.weight + 1

def appendSchemaValuePayload (bytes : List UInt8) (name : String) (schema : Schema) (value : Value) :
    Except BufferError (List UInt8 × Nat) :=
  match offsetsFor schema with
  | .error _ => .error (.malformedPayload name "nested schema field is not layoutable")
  | .ok subLayout => do
    let child ← writeRecord (BufferBuilder.new subLayout schema.fields) schema value
      (recordMismatch name "Schema" "Tuple" schema value)
    let align := schemaPasteAlign subLayout schema.fields
    appendChildRecordPayload bytes name child align
termination_by 4 * schema.weight + 2

def appendVariantRecord (bytes : List UInt8) (name : String) (ty : TypeRepr) (value : Value) :
    Except BufferError (List UInt8 × Nat) :=
  match _h : variantPayloadForValue name ty value with
  | .error e => .error e
  | .ok (tag, payload) =>
    let bytes := padTo bytes (variantRecordAlignRuntime ty)
    let recordOffset := bytes.length
    let bytes := bytes ++ [tag]
    match payload with
    | none => .ok (bytes, recordOffset)
    | some (payloadTy, payloadValue) => do
      let slotSize := (payloadSlotLayoutRuntime payloadTy).1
      let slotOffset ← okOr (variantPayloadSlotOffset recordOffset payloadTy)
        (.malformedPayload name "variant payload slot offset overflows usize")
      let slotEnd ← okOr (checkedAdd slotOffset slotSize)
        (.malformedPayload name "variant payload slot end overflows usize")
      let bytes := bytes ++ List.replicate (slotEnd - bytes.length) 0
      let bytes ← writeValueSlot bytes name slotOffset payloadTy payloadValue
      return (bytes, recordOffset)
termination_by 4 * ty.weight
decreasing_by
  have := variantPayloadForValue_weight _h
  omega

def appendListPayload (bytes : List UInt8) (element : TypeRepr) (items : List Value) :
    Except BufferError (List UInt8 × Nat) :=
  if items.length > 2 ^ 32 - 1 then .error (.valueTooLarge "<nested list>" items.length)
  else
    match element with
    | .int => do
      let payload ← scalarPayload .int 0 items
      return appendTailRecordWithInnerAlignment bytes 4 8 items.length payload
    | .float => do
      let payload ← scalarPayload .float 0 items
      return appendTailRecordWithInnerAlignment bytes 4 8 items.length payload
    | .bool => do
      let payload ← scalarPayload .bool 0 items
      return appendTailRecordWithInnerAlignment bytes 4 4 items.length payload
    | .string =>
      appendPointerArray bytes items fun bytes i item =>
        match item with
        | .string s =>
          if (utf8Bytes s).length > 2 ^ 32 - 1 then
            .error (.valueTooLarge (nestedListName i) (utf8Bytes s).length)
          else do
            let (bytes, off) := appendTailRecord bytes 4 (utf8Bytes s).length (utf8Bytes s)
            return (bytes, ← tryU32 "<nested list>" off)
        | item => .error (.typeMismatch (nestedListName i) "List<String>" item.typeName)
    | .list inner =>
      appendPointerArray bytes items fun bytes i item =>
        match item with
        | .list innerItems => do
          let (bytes, off) ← appendListPayload bytes inner innerItems
          return (bytes, ← tryU32 "<nested list>" off)
        | item => .error (.typeMismatch (nestedListName i) "List<List<…>>" item.typeName)
    | .schema schema =>
      match offsetsFor schema with
      | .error _ =>
        .error (.malformedPayload "<nested list>" "inner List<Schema> element schema is not layoutable")
      | .ok subLayout =>
        let elemAlign := schemaPasteAlign subLayout schema.fields
        appendPointerArray bytes items fun bytes i item => do
          let child ← writeRecord (BufferBuilder.new subLayout schema.fields) schema item
            (recordMismatch (nestedListName i) "List<Schema>" "List<Tuple>" schema item)
          pasteChild bytes child elemAlign "<nested list>" (nestedListName i)
    | .unit | .closure .. =>
      .error (.typeMismatch "<nested list>" (typeLabel element)
        "List<scalar/String/Schema/List/Option/Result>")
    | variant =>
      appendPointerArray bytes items fun bytes i item => do
        let (bytes, off) ← appendVariantRecord bytes (nestedListName i) variant item
        return (bytes, ← tryU32 "<nested list>" off)
termination_by 4 * element.weight + 1

/-- Fill the child of a record slot: a dict for a record schema, a tuple for a tuple
schema, `mismatch` for anything else. -/
def writeRecord (child : BufferBuilder) (schema : Schema) (value : Value) (mismatch : BufferError) :
    Except BufferError BufferBuilder :=
  match value with
  | .dict map _ _ =>
    if !schema.isTuple then writeSchemaRecordIntoBuilder child schema.fields map else .error mismatch
  | .tuple items =>
    if schema.isTuple then
      if items.length ≠ schema.fields.length then
        .error (.malformedPayload schema.name "tuple arity does not match schema")
      else writeTupleRecordIntoBuilder child schema.fields items
    else .error mismatch
  | _ => .error mismatch
termination_by 4 * schema.weight + 1
decreasing_by all_goals rw [Schema.weight_eq]; omega

def writeSchemaRecordIntoBuilder (child : BufferBuilder) (fields : List Field) (map : ValueMap) :
    Except BufferError BufferBuilder :=
  match fields with
  | [] => .ok child
  | field :: rest => do
    let value ← okOr (map.get field.name)
      (.malformedPayload field.name "schema record is missing a declared field")
    let child ← writeValue child field.name field.ty value
    writeSchemaRecordIntoBuilder child rest map
termination_by 4 * fieldsWeight fields + 1

def writeTupleRecordIntoBuilder (child : BufferBuilder) (fields : List Field) (items : List Value) :
    Except BufferError BufferBuilder :=
  match fields, items with
  | field :: rest, value :: values => do
    let child ← writeValue child field.name field.ty value
    writeTupleRecordIntoBuilder child rest values
  | _, _ => .ok child
termination_by 4 * fieldsWeight fields + 1

/-- `BufferBuilder::write_value`. -/
def writeValue (self : BufferBuilder) (fieldName : String) (ty : TypeRepr) (value : Value) :
    Except BufferError BufferBuilder := do
  let entry ← findEntry self.fieldIndex fieldName
  if !typeMatches entry.ty ty then
    .error (.typeMismatch fieldName (typeLabel entry.ty) (typeLabel ty))
  else
    let bytes ← writeValueSlot self.bytes fieldName entry.offset ty value
    return { self with bytes }
termination_by 4 * ty.weight + 2
end

end Relon.Abi
