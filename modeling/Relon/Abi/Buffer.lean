import Mathlib.Control.Monad.Basic
import Relon.Abi.Layout
import Relon.Abi.Value

/-! What the buffer writer and reader share: errors, the field index and the
type check of `buffer.rs`. -/
namespace Relon.Abi
open Relon.Except

inductive BufferError where
  | unknownField (name : String)
  | typeMismatch (name declared requested : String)
  | bufferTooSmall («have» need : Nat)
  | valueTooLarge (name : String) (len : Nat)
  | malformedPayload (name reason : String)
  deriving DecidableEq, Repr

structure FieldEntry where
  name : String
  ty : TypeRepr
  offset : Nat
  size : Nat
  kind : FieldKind
  listElement : Option ListElementKind

/-- The typed fields of a record whose fixed area starts at `recordBase`. A placed
field with no declared type is dropped. -/
def fieldIndexAt (layout : OffsetTable) (fields : List Field) (recordBase : Nat) : List FieldEntry :=
  layout.fields.filterMap fun fo =>
    (fields.find? fun f => f.name == fo.name).map fun f =>
      { name := fo.name
        ty := f.ty
        offset := recordBase + fo.offset
        size := fo.size
        kind := fo.kind
        listElement := fo.listElement }

def findEntry (index : List FieldEntry) (fieldName : String) : Except BufferError FieldEntry :=
  okOr (index.find? fun e => e.name == fieldName) (.unknownField fieldName)

def typeLabel : TypeRepr → String
  | .unit => "Unit"
  | .bool => "Bool"
  | .int => "Int"
  | .float => "Float"
  | .string => "String"
  | .list _ => "List"
  | .option _ => "Option"
  | .result .. => "Result"
  | .enum .. => "Enum"
  | .schema _ => "Schema"
  | .closure .. => "Closure"

/-- Whether the declared type is the one a caller asks for. Records and enums are
compared as a whole; a closure matches nothing. -/
def typeMatches : TypeRepr → TypeRepr → Bool
  | .int, .int => true
  | .float, .float => true
  | .bool, .bool => true
  | .unit, .unit => true
  | .string, .string => true
  | .list d, .list r => typeMatches d r
  | .option d, .option r => typeMatches d r
  | .result dok derr, .result rok rerr => typeMatches dok rok && typeMatches derr rerr
  | .schema d, .schema r => d.beq r
  | .enum dn dv, .enum rn rv => dn == rn && variantsBeq dv rv
  | _, _ => false

end Relon.Abi
