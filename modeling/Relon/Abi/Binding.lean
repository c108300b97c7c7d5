import Relon.Abi.Arena

/-! Passing arguments to a linked `#main`.

Two marshallers put the arguments of a compiled `#main` into an arena: the
evaluator (`run_main_buffer`) and the binding of a linked object
(`call_buffer_entry`), which works from a table of fields emitted at build time.
Both lay out the arena alike and fill the same record. The evaluator then moves
the pointers of the record to the place it has in the arena, and the compiled
code relies on that; the binding leaves them as they are. -/
namespace Relon.Abi
open Bytes Relon.Except

/-! ### The typed writers of the builder -/

namespace BufferBuilder

def locate (self : BufferBuilder) (fieldName : String) (expected : TypeRepr)
    (requestedLabel : String) : Except BufferError FieldEntry := do
  let entry ← findEntry self.fieldIndex fieldName
  if !typeMatches entry.ty expected then
    .error (.typeMismatch fieldName (typeLabel entry.ty) requestedLabel)
  else return entry

def writeInt (self : BufferBuilder) (fieldName : String) (value : Int64) :
    Except BufferError BufferBuilder := do
  let entry ← self.locate fieldName .int "Int"
  return { self with bytes := patch self.bytes entry.offset (i64Bytes value) }

def writeFloat (self : BufferBuilder) (fieldName : String) (value : UInt64) :
    Except BufferError BufferBuilder := do
  let entry ← self.locate fieldName .float "Float"
  return { self with bytes := patch self.bytes entry.offset (f64Bytes value) }

def writeBool (self : BufferBuilder) (fieldName : String) (value : Bool) :
    Except BufferError BufferBuilder := do
  let entry ← self.locate fieldName .bool "Bool"
  return { self with bytes := patch self.bytes entry.offset [if value then 1 else 0] }

/-- The slot is zeroed already. -/
def writeUnit (self : BufferBuilder) (fieldName : String) : Except BufferError BufferBuilder := do
  let _ ← self.locate fieldName .unit "Unit"
  return self

def writeString (self : BufferBuilder) (fieldName : String) (value : String) :
    Except BufferError BufferBuilder := do
  let entry ← self.locate fieldName .string "String"
  match entry.kind with
  | .pointerIndirect _ =>
    ensure ((utf8Bytes value).length < 2 ^ 32)
      (.valueTooLarge fieldName (utf8Bytes value).length)
    let (bytes, off) := appendTailRecord self.bytes 4 (utf8Bytes value).length (utf8Bytes value)
    let bytes ← writePointerSlot bytes fieldName entry.offset off
    return { self with bytes }
  | .inline .. => .error (.typeMismatch fieldName "String" "String")

def writeListInt (self : BufferBuilder) (fieldName : String) (values : List Int64) :
    Except BufferError BufferBuilder := do
  let entry ← self.locate fieldName (.list .int) "List<Int>"
  match entry.kind with
  | .pointerIndirect tailAlignment =>
    ensure (values.length < 2 ^ 32) (.valueTooLarge fieldName values.length)
    let payload := values.flatMap i64Bytes
    let (bytes, off) := appendTailRecordWithInnerAlignment self.bytes 4 tailAlignment values.length
      payload
    let bytes ← writePointerSlot bytes fieldName entry.offset off
    return { self with bytes }
  | .inline .. => .error (.typeMismatch fieldName "List<Int>" "List<Int>")

end BufferBuilder

/-! ### Tables of fields -/

inductive EmittedFieldType where
  | int
  | float
  | bool
  | unit
  | string
  | listInt
  deriving DecidableEq, Repr

structure EmittedField where
  name : String
  offset : Nat
  ty : EmittedFieldType
  deriving DecidableEq, Repr

inductive ArgValue where
  | int (v : Int64)
  | float (bits : UInt64)
  | bool (v : Bool)
  | unit
  | string (s : String)
  | listInt (vs : List Int64)
  deriving DecidableEq, Repr

/-- The argument as a value of the evaluator. -/
def ArgValue.toValue : ArgValue → Value
  | .int v => .int v
  | .float bits => .float bits
  | .bool v => .bool v
  | .unit => .optionNone
  | .string s => .string s
  | .listInt vs => .list (vs.map .int)

def tyToRepr : EmittedFieldType → TypeRepr
  | .int => .int
  | .float => .float
  | .bool => .bool
  | .unit => .unit
  | .string => .string
  | .listInt => .list .int

def EmittedField.toField (f : EmittedField) : Field := ⟨f.name, tyToRepr f.ty, none⟩

def synthesiseSchema (fields : List EmittedField) (name : String) : Schema where
  name := name
  generics := []
  fields := fields.map EmittedField.toField
  isTuple := false

/-- The slot of an emitted field, as `synthesise_layout` has it. -/
def EmittedField.slot (f : EmittedField) : FieldOffset :=
  match f.ty with
  | .int | .float => ⟨f.name, f.offset, 8, 8, .inline 8 8, none⟩
  | .bool | .unit => ⟨f.name, f.offset, 1, 1, .inline 1 1, none⟩
  | .string => ⟨f.name, f.offset, 4, 4, .pointerIndirect 1, none⟩
  | .listInt => ⟨f.name, f.offset, 4, 4, .pointerIndirect 8, some (.inlineFixed 8 8)⟩

def synthesiseLayout (fields : List EmittedField) (rootSize : Nat) : OffsetTable where
  fields := fields.map EmittedField.slot
  rootSize := rootSize
  rootAlign := 8

/-- The tables a build emits: names are distinct and the offsets are those the
compiler computed for the parameters. -/
structure EmittedTable where
  fields : List EmittedField
  rootSize : Nat
  layout : OffsetTable
  computed : offsetsFor (synthesiseSchema fields "MainParams") = .ok layout
  offsets : layout.fields.map FieldOffset.offset = fields.map EmittedField.offset
  size : layout.rootSize = rootSize
  names : (fields.map EmittedField.name).Nodup

/-! ### The arena

Both marshallers place the input behind the constant data, the output behind the
input and the scratch region last, in 32-bit arithmetic. The arena is a pooled
buffer: it keeps what it held outside the part that is cleared. -/

/-- A 32-bit sum. -/
def checkedU32 {ε : Type} (n : Nat) (overflow : ε) : Except ε Nat :=
  if n < 2 ^ 32 then .ok n else .error overflow

structure ArenaLayout where
  inPtr : Nat
  inLen : Nat
  outPtr : Nat
  outCap : Nat
  scratchBase : Nat
  arenaSize : Nat
  deriving DecidableEq, Repr

def arenaLayout {ε : Type} (overflow : ε) (constDataLen inLen returnRootSize : Nat)
    (returnHasTail : Bool) : Except ε ArenaLayout := do
  let tailCap := if returnHasTail then 65536 else 0
  let outCap ← checkedU32 (alignUp (max returnRootSize 8 + tailCap + 16) 8) overflow
  let inPtr ← checkedU32 (alignUp constDataLen 8) overflow
  let outPtr ← checkedU32 (alignUp (inPtr + inLen) 8) overflow
  let scratchBase ← checkedU32 (alignUp (outPtr + outCap) 8) overflow
  let arenaSize ← checkedU32 (scratchBase + 1048576) overflow
  return { inPtr, inLen, outPtr, outCap, scratchBase, arenaSize }

/-- The live part of the pooled buffer when the compiled code is entered. -/
def dispatchArena (pool constData inBytes : List UInt8) (l : ArenaLayout) : List UInt8 :=
  let arena := pool ++ List.replicate (l.arenaSize - pool.length) 0
  let arena := patch arena constData.length
    (List.replicate (l.outPtr + l.outCap - constData.length) 0)
  let arena := if constData.isEmpty then arena else patch arena 0 constData
  (patch arena l.inPtr inBytes).take l.arenaSize

structure Prepared where
  arena : List UInt8
  layout : ArenaLayout

namespace Prepared

def inputRegion (self : Prepared) : List UInt8 :=
  slice self.arena self.layout.inPtr self.layout.inLen

/-- What the compiled code finds behind the slot of a parameter: a pointer is loaded
as it stands (`emit_load_pointer_indirect_param`) and counts from the arena's start. -/
def parameter (self : Prepared) (f : EmittedField) : Except BufferError Value :=
  readFieldAt self.arena (self.layout.inPtr + f.offset) (tyToRepr f.ty)

end Prepared

/-! ### The binding -/

inductive BufferEntryError where
  | arity (expected actual : Nat)
  | typeMismatch (index : Nat) (expected : EmittedFieldType) (actual : String)
  | buffer (error : BufferError)
  | constDataTooLarge
  | overflow
  deriving DecidableEq, Repr

def argVariantName : ArgValue → String
  | .int _ => "Int"
  | .float _ => "Float"
  | .bool _ => "Bool"
  | .unit => "Unit"
  | .string _ => "String"
  | .listInt _ => "ListInt"

def packArg (builder : BufferBuilder) (index : Nat) (field : EmittedField) (arg : ArgValue) :
    Except BufferEntryError BufferBuilder :=
  match field.ty, arg with
  | .int, .int v => (builder.writeInt field.name v).mapError .buffer
  | .float, .float v => (builder.writeFloat field.name v).mapError .buffer
  | .bool, .bool v => (builder.writeBool field.name v).mapError .buffer
  | .unit, .unit => (builder.writeUnit field.name).mapError .buffer
  | .string, .string s => (builder.writeString field.name s).mapError .buffer
  | .listInt, .listInt vs => (builder.writeListInt field.name vs).mapError .buffer
  | expected, actual => .error (.typeMismatch index expected (argVariantName actual))

def packArgs : BufferBuilder → Nat → List (EmittedField × ArgValue) →
    Except BufferEntryError BufferBuilder
  | builder, _, [] => .ok builder
  | builder, index, (field, arg) :: rest => do
    let builder ← packArg builder index field arg
    packArgs builder (index + 1) rest

/-- `call_buffer_entry` up to the call. -/
def callBufferEntry (pool constData : List UInt8) (mainFields : List EmittedField)
    (mainRootSize returnRootSize : Nat) (returnHasTail : Bool) (args : List ArgValue) :
    Except BufferEntryError Prepared := do
  ensure (args.length = mainFields.length) (.arity mainFields.length args.length)
  let schema := synthesiseSchema mainFields "MainParams"
  let layout := synthesiseLayout mainFields mainRootSize
  let builder ← packArgs (.new layout schema.fields) 0 (mainFields.zip args)
  let inBytes := builder.finish
  let constDataLen ← checkedU32 constData.length .constDataTooLarge
  let l ← arenaLayout .overflow constDataLen inBytes.length returnRootSize returnHasTail
  return ⟨dispatchArena pool constData inBytes l, l⟩

/-! ### The evaluator -/

inductive RuntimeError where
  | missingArg (name : String)
  | argMismatch (name got : String) (expected : TypeRepr)
  | elementMismatch (name : String) (index : Nat) (got want : String)
  | buffer (error : BufferError)
  | constDataTooLarge
  | overflow

def intItems (name : String) : Nat → List Value → Except RuntimeError (List Int64)
  | _, [] => .ok []
  | i, .int v :: rest => do
    let vs ← intItems name (i + 1) rest
    return v :: vs
  | i, other :: _ => .error (.elementMismatch name i other.typeName "Int")

/-- `write_value_into_builder`, for the types an emitted table can hold. -/
def writeValueIntoBuilder (builder : BufferBuilder) (field : EmittedField) (value : Value) :
    Except RuntimeError BufferBuilder :=
  match field.ty, value with
  | .int, .int v => (builder.writeInt field.name v).mapError .buffer
  | .float, .float v => (builder.writeFloat field.name v).mapError .buffer
  | .float, .int v => (builder.writeFloat field.name (f64OfInt v)).mapError .buffer
  | .bool, .bool v => (builder.writeBool field.name v).mapError .buffer
  | .string, .string s => (builder.writeString field.name s).mapError .buffer
  | .listInt, .list items => do
    let vs ← intItems field.name 0 items
    (builder.writeListInt field.name vs).mapError .buffer
  | .unit, v =>
    if v.isOptionNone then (builder.writeUnit field.name).mapError .buffer
    else .error (.argMismatch field.name v.typeName .unit)
  | ty, v => .error (.argMismatch field.name v.typeName (tyToRepr ty))

def writeArgs (args : String → Option Value) : BufferBuilder → List EmittedField →
    Except RuntimeError BufferBuilder
  | builder, [] => .ok builder
  | builder, field :: rest => do
    let value ← okOr (args field.name) (.missingArg field.name)
    let builder ← writeValueIntoBuilder builder field value
    writeArgs args builder rest

/-- The record `run_main_buffer` fills, moved to where it will stand. -/
def evaluatorInput (constDataLen : Nat) (table : EmittedTable) (args : String → Option Value) :
    Except RuntimeError (List UInt8) := do
  let schema := synthesiseSchema table.fields "MainParams"
  let builder ← writeArgs args (.new table.layout schema.fields) table.fields
  let inPtrPre ← checkedU32 (alignUp constDataLen 8) .overflow
  (builder.finishArenaAbsolute inPtrPre).mapError .buffer

/-- `run_main_buffer` up to the call, for the parameters of an emitted table. -/
def runMainBuffer (pool constData : List UInt8) (table : EmittedTable) (returnRootSize : Nat)
    (returnHasTail : Bool) (args : String → Option Value) : Except RuntimeError Prepared := do
  let constDataLen ← checkedU32 constData.length .constDataTooLarge
  let inBytes ← evaluatorInput constDataLen table args
  let l ← arenaLayout .overflow constDataLen inBytes.length returnRootSize returnHasTail
  return ⟨dispatchArena pool constData inBytes l, l⟩

end Relon.Abi
