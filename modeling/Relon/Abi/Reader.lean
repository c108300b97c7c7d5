import Relon.Abi.Buffer
import Relon.Abi.Relocate

/-! The buffer reader (`BufferReader` in `buffer.rs`).

`read_value` finds a field and decodes it at its slot. The decoding itself
(`read_field_at` and the functions it calls) needs nothing of the reader but the
bytes, so these functions take the byte slice. Every offset is checked before it
is followed; a payload's start is recovered from the absolute position of its
header. -/
namespace Relon.Abi
open Bytes Relon.Except

attribute [local simp] TypeRepr.weight fieldsWeight Field.weight_eq

def malformedAt {α : Type} (name reason : String) : Except BufferError α :=
  .error (.malformedPayload name reason)

/-- An empty option is a malformed payload. -/
def orMalformed {α : Type} (name reason : String) (o : Option α) : Except BufferError α :=
  okOr o (.malformedPayload name reason)

/-! ### Primitive reads -/

/-- `read_inline`: the bytes of an inline field. -/
def readInline (bytes : List UInt8) (abs len : Nat) : Except BufferError (List UInt8) := do
  let stop ← orMalformed "<sub-record field>" "inline field span overflows usize" (checkedAdd abs len)
  if stop > bytes.length then
    malformedAt "<sub-record field>" "inline field span exceeds buffer end"
  else return slice bytes abs len

def readSlotPointer (bytes : List UInt8) (slotAbs : Nat) : Except BufferError Nat :=
  if exceeds bytes slotAbs 4 then
    malformedAt "<sub-record field>" "pointer slot exceeds buffer end"
  else .ok (readU32 bytes slotAbs)

/-- The texts a string record's reader reports. -/
structure StringErrors where
  name : String
  prefixOut : String
  overflow : String
  payloadOut : String
  notUtf8 : String

/-- `[len][utf8]` at `recordOff`. -/
def readStringWith (errors : StringErrors) (bytes : List UInt8) (recordOff : Nat) :
    Except BufferError String :=
  if exceeds bytes recordOff 4 then malformedAt errors.name errors.prefixOut
  else do
    let len := readU32 bytes recordOff
    let start := recordOff + 4
    let stop ← orMalformed errors.name errors.overflow (checkedAdd start len)
    if stop > bytes.length then malformedAt errors.name errors.payloadOut
    else orMalformed errors.name errors.notUtf8 (utf8Decode (slice bytes start len))

def fieldStringErrors : StringErrors :=
  { name := "<sub-record field>"
    prefixOut := "string len prefix exceeds buffer end"
    overflow := "string payload end overflows usize"
    payloadOut := "string payload exceeds buffer end"
    notUtf8 := "string payload is not valid utf-8" }

def readStringRecordAt (bytes : List UInt8) (recordOff : Nat) : Except BufferError String :=
  readStringWith fieldStringErrors bytes recordOff

/-! ### Lists -/

def checkPointerEntriesInBounds (bytes : List UInt8) (fieldName : String)
    (entriesStart count : Nat) : Except BufferError Unit :=
  match (checkedMul count 4).bind (checkedAdd entriesStart) with
  | some stop =>
    if stop ≤ bytes.length then .ok ()
    else malformedAt fieldName "list pointer-array entries exceed buffer end"
  | none => malformedAt fieldName "list pointer-array entries exceed buffer end"

/-- Count and first entry of the pointer array at `headerOff`. -/
def readPointerArrayHeader (bytes : List UInt8) (headerOff : Nat) : Except BufferError (Nat × Nat) :=
  if exceeds bytes headerOff 4 then
    malformedAt "<in-place root>" "in-place list header length prefix exceeds buffer end"
  else do
    let count := readU32 bytes headerOff
    let entriesStart := headerOff + 4
    checkPointerEntriesInBounds bytes "<in-place root>" entriesStart count
    return (count, entriesStart)

def readEntryPointer (bytes : List UInt8) (entriesStart i : Nat) : Except BufferError Nat := do
  let cursor ← orMalformed "<in-place root>" "in-place list entry cursor overflows usize"
    (checkedAdd entriesStart (i * 4))
  if cursor + 4 > bytes.length then
    malformedAt "<in-place root>" "in-place list entry pointer exceeds buffer end"
  else return readU32 bytes cursor

def listStringErrors : StringErrors :=
  { name := "<in-place root>"
    prefixOut := "in-place list-string len prefix exceeds buffer end"
    overflow := "in-place list-string payload end overflows usize"
    payloadOut := "in-place list-string payload exceeds buffer end"
    notUtf8 := "in-place list-string payload is not valid utf-8" }

/-- `[len][off_0]…` of strings at `headerOff`. -/
def readListStringAt (bytes : List UInt8) (headerOff : Nat) : Except BufferError (List String) :=
  if exceeds bytes headerOff 4 then
    malformedAt "<in-place root>" "in-place list-string header length prefix exceeds buffer end"
  else do
    let count := readU32 bytes headerOff
    let entriesStart := headerOff + 4
    checkPointerEntriesInBounds bytes "<in-place root>" entriesStart count
    (List.range count).mapM fun i => do
      let cursor ← orMalformed "<in-place root>" "in-place list-string entry cursor overflows usize"
        (checkedAdd entriesStart (i * 4))
      if cursor + 4 > bytes.length then
        malformedAt "<in-place root>" "in-place list-string entry pointer exceeds buffer end"
      else readStringWith listStringErrors bytes (readU32 bytes cursor)

/-- Size and alignment of an inline list element. -/
def inlineElement : TypeRepr → Option (Nat × Nat)
  | .int | .float => some (8, 8)
  | .bool => some (1, 1)
  | _ => none

/-- One scalar of type `ty` at `off`, inside the buffer. -/
def scalarAt (bytes : List UInt8) (ty : TypeRepr) (off : Nat) : Value :=
  match ty with
  | .int => .int (i64OfBytes (slice bytes off 8))
  | .float => .float (f64OfBytes (slice bytes off 8))
  | _ => .bool (bytes.getD off 0 != 0)

def readInlineScalarListAt (bytes : List UInt8) (headerOff : Nat) (element : TypeRepr) :
    Except BufferError (List Value) :=
  if exceeds bytes headerOff 4 then
    malformedAt "<in-place root>" "inline scalar list header length prefix exceeds buffer end"
  else
    let count := readU32 bytes headerOff
    match inlineElement element with
    | none => .error (.typeMismatch "<in-place root>" (typeLabel element) "List<scalar>")
    | some (elemSize, align) => do
      let payloadStart := if align > 1 then alignUp (headerOff + 4) align else headerOff + 4
      let byteLen ← orMalformed "<in-place root>" "inline scalar list byte length overflows usize"
        (checkedMul count elemSize)
      let stop ← orMalformed "<in-place root>" "inline scalar list payload end overflows usize"
        (checkedAdd payloadStart byteLen)
      if stop > bytes.length then
        malformedAt "<in-place root>" "inline scalar list payload exceeds buffer end"
      else return (List.range count).map fun k => scalarAt bytes element (payloadStart + k * elemSize)

/-! ### Values -/

/-- The value of a variant record that stores no payload. -/
def variantWithoutPayload (ty : TypeRepr) (selected : SelectedVariant) : Except BufferError Value :=
  match ty with
  | .option _ => .ok .optionNone
  | .result .. => malformedAt "<variant>" "Result variant has no payload"
  | .enum name _ => .ok (.variantDict [] selected.name name)
  | other => .error (.typeMismatch "<variant>" (typeLabel other) "variant record")

/-- The value of a variant record whose payload decoded to `value`. -/
def variantWithPayload (ty : TypeRepr) (selected : SelectedVariant) (payload : SelectedVariantPayload)
    (value : Value) : Except BufferError Value :=
  match ty with
  | .option _ => .ok (.optionSome value)
  | .result .. => .ok (.variantDict [(payload.key.getD "value", value)] selected.name "Result")
  | .enum name _ =>
    match value with
    | .dict map _ _ => .ok (.variantDict map selected.name name)
    | _ => malformedAt "<variant>" "enum payload did not decode to a record"
  | other => .error (.typeMismatch "<variant>" (typeLabel other) "variant record")

mutual
def readFieldAt (bytes : List UInt8) (slotAbs : Nat) (ty : TypeRepr) : Except BufferError Value :=
  match ty with
  | .int => do return .int (i64OfBytes (← readInline bytes slotAbs 8))
  | .float => do return .float (f64OfBytes (← readInline bytes slotAbs 8))
  | .bool => do return .bool ((← readInline bytes slotAbs 1).headD 0 != 0)
  | .unit => .ok .optionNone
  | .string => do
    let ptr ← readSlotPointer bytes slotAbs
    return .string (← readStringRecordAt bytes ptr)
  | .list element => do
    let header ← readSlotPointer bytes slotAbs
    return .list (← readListValueAt bytes header element)
  | .schema schema =>
    match offsetsFor schema with
    | .error _ => malformedAt "<sub-record field>" "nested schema field is not layoutable"
    | .ok subLayout => do
      let subBase ← readSlotPointer bytes slotAbs
      readRecordAt bytes subBase subLayout schema
  | .closure .. =>
    .error (.typeMismatch "<sub-record field>" "Closure" "scalar/String/List/Schema/Option/Result")
  | variant => do
    let variantBase ← readSlotPointer bytes slotAbs
    readVariantRecordAt bytes variantBase variant
termination_by 3 * ty.weight + 1

def readListValueAt (bytes : List UInt8) (headerOff : Nat) (element : TypeRepr) :
    Except BufferError (List Value) :=
  match element with
  | .int => readInlineScalarListAt bytes headerOff .int
  | .float => readInlineScalarListAt bytes headerOff .float
  | .bool => readInlineScalarListAt bytes headerOff .bool
  | .string => do return (← readListStringAt bytes headerOff).map .string
  | .list inner => do
    let (count, entriesStart) ← readPointerArrayHeader bytes headerOff
    (List.range count).mapM fun i => do
      let entry ← readEntryPointer bytes entriesStart i
      return .list (← readListValueAt bytes entry inner)
  | .schema schema =>
    match offsetsFor schema with
    | .error _ => malformedAt "<in-place root>" "inner List<Schema> element schema is not layoutable"
    | .ok elemLayout => do
      let (count, entriesStart) ← readPointerArrayHeader bytes headerOff
      (List.range count).mapM fun i => do
        let subBase ← readEntryPointer bytes entriesStart i
        let subEnd ← orMalformed "<in-place root>" "in-place sub-record end overflows usize"
          (checkedAdd subBase elemLayout.rootSize)
        if subEnd > bytes.length then
          malformedAt "<in-place root>" "in-place sub-record exceeds buffer end"
        else readRecordAt bytes subBase elemLayout schema
  | .unit | .closure .. =>
    .error (.typeMismatch "<in-place root>" (typeLabel element)
      "List<scalar/String/Schema/List/Option/Result>")
  | variant => do
    let (count, entriesStart) ← readPointerArrayHeader bytes headerOff
    (List.range count).mapM fun i => do
      let variantBase ← readEntryPointer bytes entriesStart i
      readVariantRecordAt bytes variantBase variant
termination_by 3 * element.weight + 1

def readRecordAt (bytes : List UInt8) (recordBase : Nat) (layout : OffsetTable) (schema : Schema) :
    Except BufferError Value :=
  if schema.isTuple then do
    let items ← readRecordFields bytes recordBase layout "tuple field missing from layout"
      "tuple field slot offset overflows usize" schema.fields
    return .tuple (items.map Prod.snd)
  else do
    let items ← readRecordFields bytes recordBase layout "schema field missing from layout"
      "field slot offset overflows usize" schema.fields
    return .brandedDict (items.foldl (fun map (k, v) => ValueMap.insert map k v) []) (some schema.name)
termination_by 3 * schema.weight + 1
decreasing_by all_goals rw [Schema.weight_eq]; omega

/-- The named values of a record's fields, in declaration order. -/
def readRecordFields (bytes : List UInt8) (recordBase : Nat) (layout : OffsetTable)
    (missing overflow : String) (fields : List Field) : Except BufferError (List (String × Value)) :=
  match fields with
  | [] => .ok []
  | field :: rest => do
    let fo ← orMalformed field.name missing (layout.fields.find? fun fo => fo.name == field.name)
    let slotAbs ← orMalformed field.name overflow (checkedAdd recordBase fo.offset)
    let v ← readFieldAt bytes slotAbs field.ty
    let vs ← readRecordFields bytes recordBase layout missing overflow rest
    return (field.name, v) :: vs
termination_by 3 * fieldsWeight fields

def readVariantRecordAt (bytes : List UInt8) (recordOff : Nat) (ty : TypeRepr) :
    Except BufferError Value :=
  if exceeds bytes recordOff 1 then malformedAt "<variant>" "variant tag exceeds buffer end"
  else
    match _hsel : variantSelectedPayload ty (bytes.getD recordOff 0) with
    | .error reason => malformedAt "<variant>" reason
    | .ok selected =>
      match _hpay : selected.payload with
      | none => variantWithoutPayload ty selected
      | some payload => do
        let slot ← orMalformed "<variant>" "variant payload slot offset overflows usize"
          (variantPayloadSlotOffset recordOff payload.ty)
        let value ← readFieldAt bytes slot payload.ty
        variantWithPayload ty selected payload value
termination_by 3 * ty.weight
decreasing_by
  have := variantSelectedPayload_weight _hsel _hpay
  omega
end

structure BufferReader where
  layout : OffsetTable
  fieldIndex : List FieldEntry
  bytes : List UInt8

namespace BufferReader

def new (layout : OffsetTable) (fields : List Field) (bytes : List UInt8) :
    Except BufferError BufferReader :=
  if bytes.length < layout.rootSize then .error (.bufferTooSmall bytes.length layout.rootSize)
  else .ok { layout, fieldIndex := fieldIndexAt layout fields 0, bytes }

/-- A reader of the record at `recordBase` of an arena. -/
def newAtBase (layout : OffsetTable) (fields : List Field) (bytes : List UInt8) (recordBase : Nat) :
    Except BufferError BufferReader :=
  match checkedAdd recordBase layout.rootSize with
  | none => .error (.bufferTooSmall bytes.length (usizeBound - 1))
  | some recordEnd =>
    if recordEnd > bytes.length then .error (.bufferTooSmall bytes.length recordEnd)
    else .ok { layout, fieldIndex := fieldIndexAt layout fields recordBase, bytes }

def readValue (self : BufferReader) (fieldName : String) (ty : TypeRepr) : Except BufferError Value := do
  let entry ← findEntry self.fieldIndex fieldName
  if !typeMatches entry.ty ty then
    .error (.typeMismatch fieldName (typeLabel entry.ty) (typeLabel ty))
  else readFieldAt self.bytes entry.offset ty

end BufferReader

end Relon.Abi
