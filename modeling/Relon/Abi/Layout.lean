import Relon.Lib.Bytes
import Relon.Lib.Except
import Relon.Abi.Schema

/-! Buffer layout (`layout.rs`).

`offsetsFor` places the fields of a record in its fixed area: scalars inline,
everything else as a 4-byte pointer slot. `usize` is `Nat` with the overflow
checks the source makes. The functions call each other at one type as well as
at smaller ones, so each has a rank beside the weight of its type. -/
namespace Relon.Abi
open Bytes Relon.Except

attribute [local simp] TypeRepr.weight fieldsWeight Field.weight_eq

/-- `usize` arithmetic is checked against this bound. -/
def usizeBound : Nat := 2 ^ 64

def checkedAdd (a b : Nat) : Option Nat := if a + b < usizeBound then some (a + b) else none

def checkedMul (a b : Nat) : Option Nat := if a * b < usizeBound then some (a * b) else none

/-- `usize::checked_next_multiple_of`. -/
def checkedNextMultipleOf (n a : Nat) : Option Nat :=
  if alignUp n a < usizeBound then some (alignUp n a) else none

inductive FieldKind where
  | inline (size align : Nat)
  | pointerIndirect (tailAlignment : Nat)
  deriving DecidableEq, Repr, Inhabited

inductive ListElementKind where
  | inlineFixed (elemSize elemAlign : Nat)
  | pointerArray (elemAlignment : Nat)
  deriving DecidableEq, Repr

structure FieldOffset where
  name : String
  offset : Nat
  size : Nat
  align : Nat
  kind : FieldKind
  listElement : Option ListElementKind
  deriving DecidableEq, Repr, Inhabited

structure OffsetTable where
  fields : List FieldOffset
  rootSize : Nat
  rootAlign : Nat
  deriving DecidableEq, Repr, Inhabited

inductive LayoutError where
  | unsupportedTypeInLayoutV1 (field kind : String)
  | unsupportedListElement (field inner : String)
  | overflow (field : String) (offset : Nat)
  deriving DecidableEq, Repr

structure FieldLayoutDecision where
  kind : FieldKind
  listElement : Option ListElementKind
  deriving DecidableEq, Repr

/-- The fixed-area slot of a field kind: a pointer slot is always 4 bytes. -/
def FieldKind.slot : FieldKind → Nat × Nat
  | .inline size align => (size, align)
  | .pointerIndirect _ => (4, 4)

/-- The payload types of a variant type. -/
def variantPayloads : TypeRepr → Option (List TypeRepr)
  | .option inner => some [inner]
  | .result ok err => some [ok, err]
  | .enum name variants =>
    some (variants.filterMap fun v => (v.payloadSchema name).map TypeRepr.schema)
  | _ => none

def typesWeight : List TypeRepr → Nat
  | [] => 0
  | t :: ts => t.weight + typesWeight ts

theorem TypeRepr.weight_pos (t : TypeRepr) : 0 < t.weight := by
  cases t <;> simp [TypeRepr.weight]

theorem typesWeight_enum_payloads (n : String) (vs : List EnumVariant) :
    typesWeight (vs.filterMap fun v => (v.payloadSchema n).map TypeRepr.schema) ≤ variantsWeight vs := by
  induction vs with
  | nil => simp [typesWeight]
  | cons v vs ih =>
    rw [List.filterMap_cons, variantsWeight]
    cases h : v.payloadSchema n with
    | none =>
      simp only [Option.map_none]
      omega
    | some s =>
      have := v.payloadSchema_weight h
      simp only [Option.map_some, typesWeight, TypeRepr.weight]
      omega

theorem typesWeight_variantPayloads {ty : TypeRepr} {ps : List TypeRepr}
    (h : variantPayloads ty = some ps) : typesWeight ps < ty.weight := by
  cases ty with
  | option inner =>
    cases h
    simp only [typesWeight, TypeRepr.weight]
    omega
  | result a b =>
    cases h
    simp only [typesWeight, TypeRepr.weight]
    omega
  | enum n vs =>
    cases h
    have := typesWeight_enum_payloads n vs
    simp only [TypeRepr.weight]
    omega
  | _ => cases h

mutual
/-- Layout of one field of type `ty`. -/
def fieldLayoutDecisionFor (fieldName : String) (ty : TypeRepr) :
    Except LayoutError FieldLayoutDecision :=
  match ty with
  | .unit | .bool => .ok ⟨.inline 1 1, none⟩
  | .int | .float => .ok ⟨.inline 8 8, none⟩
  | .string => .ok ⟨.pointerIndirect 1, none⟩
  | .list element => listLayoutDecision fieldName element
  | .schema schema => do
    let sub ← offsetsFor schema
    return ⟨.pointerIndirect sub.rootAlign, none⟩
  | .closure .. => .error (.unsupportedTypeInLayoutV1 fieldName "Closure")
  -- `Option`, `Result`, `Enum`
  | variant => do
    let align ← variantRecordAlignment fieldName variant
    return ⟨.pointerIndirect align, none⟩
termination_by 4 * ty.weight + 1

/-- Layout of a `List<element>` field. -/
def listLayoutDecision (fieldName : String) (element : TypeRepr) :
    Except LayoutError FieldLayoutDecision :=
  match element with
  | .int | .float => .ok ⟨.pointerIndirect 8, some (.inlineFixed 8 8)⟩
  | .bool => .ok ⟨.pointerIndirect 4, some (.inlineFixed 1 1)⟩
  | .string => .ok ⟨.pointerIndirect 4, some (.pointerArray 4)⟩
  | .schema schema => do
    let sub ← offsetsFor schema
    return ⟨.pointerIndirect 4, some (.pointerArray sub.rootAlign)⟩
  | .list inner => do
    let innerAlign ← innerListRecordAlignment fieldName inner
    return ⟨.pointerIndirect 4, some (.pointerArray innerAlign)⟩
  | .unit => .error (.unsupportedListElement fieldName "Unit")
  | .closure .. => .error (.unsupportedListElement fieldName "Closure")
  | variant => do
    let align ← variantRecordAlignment fieldName variant
    return ⟨.pointerIndirect 4, some (.pointerArray align)⟩
termination_by 4 * element.weight + 1

/-- Start alignment of the record an inner `List<inner>` element occupies. -/
def innerListRecordAlignment (fieldName : String) (inner : TypeRepr) : Except LayoutError Nat :=
  match inner with
  | .int | .float => .ok 8
  | .bool => .ok 4
  | .string => .ok 4
  | .schema schema => do
    let _ ← offsetsFor schema
    return 4
  | .list deeper => do
    let _ ← innerListRecordAlignment fieldName deeper
    return 4
  | .unit => .error (.unsupportedListElement fieldName "Unit")
  | .closure .. => .error (.unsupportedListElement fieldName "Closure")
  | variant => do
    let _ ← variantRecordAlignment fieldName variant
    return 4
termination_by 4 * inner.weight + 1

/-- Size and alignment of the payload slot inside a variant record. -/
def variantPayloadSlot (fieldName : String) (ty : TypeRepr) : Except LayoutError (Nat × Nat) :=
  match ty with
  | .unit | .bool => .ok (1, 1)
  | .int | .float => .ok (8, 8)
  | .closure .. => .error (.unsupportedTypeInLayoutV1 fieldName "Closure")
  | ty => do
    ensureTypeLayoutable fieldName ty
    return (4, 4)
termination_by 4 * ty.weight + 2

/-- Deep alignment of the tail records reachable from `ty`. -/
def typeGraphAlignment (fieldName : String) (ty : TypeRepr) : Except LayoutError Nat :=
  match ty with
  | .unit | .bool | .string => .ok 1
  | .int | .float => .ok 8
  | .list element =>
    match element with
    | .int | .float => .ok 8
    | .bool => .ok 1
    | other => typeGraphAlignment fieldName other
  | .schema schema => do
    let sub ← offsetsFor schema
    let tail ← schema.fields.mapM fun f => typeGraphAlignment f.name f.ty
    return max sub.rootAlign (tail.max?.getD 1)
  | .closure .. => .error (.unsupportedTypeInLayoutV1 fieldName "Closure")
  | variant => variantRecordAlignment fieldName variant
termination_by 4 * ty.weight + 1
decreasing_by
  · simp [TypeRepr.weight]
  · simp only [TypeRepr.weight]
    omega
  · have := field_ty_weight_lt ‹_ ∈ _›
    simp only [TypeRepr.weight, Schema.weight_eq]
    omega
  · omega

def ensureTypeLayoutable (fieldName : String) (ty : TypeRepr) : Except LayoutError Unit :=
  match ty with
  | .list element => do
    let _ ← listLayoutDecision fieldName element
    return ()
  | .schema schema => do
    let _ ← offsetsFor schema
    return ()
  | .closure .. => .error (.unsupportedTypeInLayoutV1 fieldName "Closure")
  | .unit | .bool | .int | .float | .string => .ok ()
  | variant => do
    let _ ← variantRecordAlignment fieldName variant
    return ()
termination_by 4 * ty.weight + 1

/-- Start alignment of a variant record. -/
def variantRecordAlignment (fieldName : String) (ty : TypeRepr) : Except LayoutError Nat :=
  match _h : variantPayloads ty with
  | some payloads => payloadsAlignment fieldName payloads 4
  | none =>
    .error (.unsupportedTypeInLayoutV1 fieldName
      (match ty with | .closure .. => "Closure" | _ => "Variant"))
termination_by 4 * ty.weight
decreasing_by
  have := typesWeight_variantPayloads _h
  omega

/-- The loop of `variant_record_alignment` over the payload types. -/
def payloadsAlignment (fieldName : String) (payloads : List TypeRepr) (align : Nat) :
    Except LayoutError Nat :=
  match payloads with
  | [] => .ok align
  | payload :: rest => do
    let (_, slotAlign) ← variantPayloadSlot fieldName payload
    let graphAlign ← typeGraphAlignment fieldName payload
    payloadsAlignment fieldName rest (max (max (max align slotAlign) graphAlign) 1)
termination_by 4 * typesWeight payloads + 3
decreasing_by
  all_goals simp only [typesWeight]
  all_goals have := payload.weight_pos; omega

/-- `SchemaLayout::offsets_for`. -/
def offsetsFor (schema : Schema) : Except LayoutError OffsetTable := do
  let (fields, cursor, maxAlign) ← placeFields schema.fields 0 1
  let rootSize ← okOr
    (if schema.fields.isEmpty then some 0 else checkedNextMultipleOf cursor maxAlign)
    (.overflow "<root padding>" cursor)
  return { fields := fields, rootSize := rootSize, rootAlign := maxAlign }
termination_by 4 * schema.weight
decreasing_by rw [Schema.weight_eq]; omega

/-- The loop of `offsets_for`: the placed fields, the cursor and the largest alignment. -/
def placeFields (fields : List Field) (cursor maxAlign : Nat) :
    Except LayoutError (List FieldOffset × Nat × Nat) :=
  match fields with
  | [] => .ok ([], cursor, maxAlign)
  | field :: rest => do
    let decision ← fieldLayoutDecisionFor field.name field.ty
    let (size, align) := decision.kind.slot
    let offset ← okOr (checkedNextMultipleOf cursor align) (.overflow field.name cursor)
    let next ← okOr (checkedAdd offset size) (.overflow field.name offset)
    let (placed, last, top) ← placeFields rest next (if align > maxAlign then align else maxAlign)
    return ({ name := field.name, offset, size, align, kind := decision.kind,
              listElement := decision.listElement } :: placed, last, top)
termination_by 4 * fieldsWeight fields + 3
end

end Relon.Abi
