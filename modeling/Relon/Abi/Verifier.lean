import Relon.Abi.Relocate

/-! The bounds verifier (`verifier.rs`).

A structural pass over a buffer that checks every span before a reader follows
it: against one region, or against the four regions of an arena. It decodes
nothing. A region's exclusive end is called `stop`. -/
namespace Relon.Abi.Verifier
open Bytes Relon.Except

inductive VerifyError where
  | degenerateRegion (start stop : Nat)
  | bufferShorterThanRegion («have» stop : Nat)
  | fixedSlotOutOfRegion (field : String) (offset size start stop : Nat)
  | outOfRegion (field what : String) (offset len start stop : Nat)
  | spanOverflow (field what : String)
  | unsupportedType (field ty : String)
  | noRegion (field what : String) (offset len : Nat)
  | depthExceeded (field : String) (depth : Nat)
  deriving DecidableEq, Repr

/-! ### Regions -/

structure Region where
  start : Nat
  stop : Nat
  deriving DecidableEq, Repr

namespace Region

def new (start stop : Nat) : Except VerifyError Region :=
  if start > stop then .error (.degenerateRegion start stop) else .ok ⟨start, stop⟩

def containsSpan (self : Region) (off len : Nat) : Bool :=
  match checkedAdd off len with
  | some stop => decide (self.start ≤ off) && decide (stop ≤ self.stop)
  | none => false

end Region

inductive RegionTag where
  | constData
  | inBuf
  | outBuf
  | scratch
  deriving DecidableEq, Repr

/-- The regions of an arena, in absolute coordinates. -/
structure MultiRegion where
  constData : Region
  inBuf : Region
  outBuf : Region
  scratch : Region
  deriving DecidableEq, Repr

namespace MultiRegion

def new (constData inBuf outBuf scratch : Nat × Nat) : Except VerifyError MultiRegion := do
  return {
    constData := ← Region.new constData.1 constData.2
    inBuf := ← Region.new inBuf.1 inBuf.2
    outBuf := ← Region.new outBuf.1 outBuf.2
    scratch := ← Region.new scratch.1 scratch.2 }

def regions (self : MultiRegion) : List (RegionTag × Region) :=
  [(.constData, self.constData), (.inBuf, self.inBuf), (.outBuf, self.outBuf),
    (.scratch, self.scratch)]

def maxEnd (self : MultiRegion) : Nat := ((self.regions.map fun r => r.2.stop).max?).getD 0

/-- The region that contains the whole span. -/
def classifySpan (self : MultiRegion) (off len : Nat) : Option RegionTag :=
  (self.regions.find? fun r => r.2.containsSpan off len).map Prod.fst

end MultiRegion

inductive Bounds where
  | single (region : Region)
  | multi (arena : MultiRegion)

namespace Bounds

def requiredLen : Bounds → Nat
  | .single region => region.stop
  | .multi arena => arena.maxEnd

def requireSpan (self : Bounds) (field what : String) (off len : Nat) : Except VerifyError Unit :=
  match checkedAdd off len with
  | none => .error (.spanOverflow field what)
  | some _ =>
    match self with
    | .single region =>
      if region.containsSpan off len then .ok ()
      else .error (.outOfRegion field what off len region.start region.stop)
    | .multi arena =>
      if (arena.classifySpan off len).isSome then .ok () else .error (.noRegion field what off len)

def requireFixedSlot (self : Bounds) (field : String) (off size : Nat) : Except VerifyError Unit :=
  match self with
  | .single region =>
    if region.containsSpan off size then .ok ()
    else .error (.fixedSlotOutOfRegion field off size region.start region.stop)
  | .multi arena =>
    if (arena.classifySpan off size).isSome then .ok ()
    else .error (.noRegion field "record fixed slot" off size)

end Bounds

def maxDepth : Nat := 64

/-! ### Helpers of the walk -/

/-- `read_u32`: the `u32` at `off`, once its span is known to be in bounds. -/
def readU32 (bytes : List UInt8) (off : Nat) (field what : String) (bounds : Bounds) :
    Except VerifyError Nat := do
  bounds.requireSpan field what off 4
  return Abi.readU32 bytes off

def alignUp (off align : Nat) : Option Nat :=
  if align ≤ 1 then some off else checkedNextMultipleOf off align

def typeLabel : TypeRepr → String
  | .unit => "Unit"
  | .bool => "Bool"
  | .int => "Int"
  | .float => "Float"
  | .string => "String"
  | .list _ => "List"
  | .option _ => "Option"
  | .result .. => "Result"
  | .enum .. => "Enum"
  | .schema _ => "Schema"
  | .closure .. => "Closure"

/-- The payload a tag selects: `none` for a tag the type does not have. -/
def variantPayloadType (ty : TypeRepr) (tag : UInt8) : Option (Option TypeRepr) :=
  match ty with
  | .option inner => if tag = 0 then some none else if tag = 1 then some (some inner) else none
  | .result ok err => if tag = 0 then some (some ok) else if tag = 1 then some (some err) else none
  | .enum name variants =>
    (variants.find? fun v => v.tag == tag).map fun v => (v.payloadSchema name).map TypeRepr.schema
  | _ => none

theorem variantPayloadType_weight {ty pty : TypeRepr} {tag : UInt8}
    (h : variantPayloadType ty tag = some (some pty)) : pty.weight < ty.weight := by
  unfold variantPayloadType at h
  split at h
  · split at h
    · cases h
    · split at h <;> cases h
      simp [TypeRepr.weight]
  · split at h
    · cases h
      simp only [TypeRepr.weight]
      omega
    · split at h <;> cases h
      simp only [TypeRepr.weight]
      omega
  · rename_i name variants
    obtain ⟨v, hv, hs⟩ := Option.map_eq_some_iff.mp h
    obtain ⟨s, hps, rfl⟩ := Option.map_eq_some_iff.mp hs
    have hw := EnumVariant.payloadSchema_weight hps
    have hle := variant_weight_le (List.mem_of_find?_eq_some hv)
    simp only [TypeRepr.weight]
    omega
  · cases h

def variantPayloadSlotLayout : TypeRepr → Nat × Nat
  | .unit | .bool => (1, 1)
  | .int | .float => (8, 8)
  | _ => (4, 4)

/-- The element layout of a list type, from a record with one field of that type. -/
def listKindForListType (ty : TypeRepr) : Option ListElementKind :=
  match ty with
  | .list _ =>
    let probe : Schema :=
      { name := "<probe>", generics := [], fields := [⟨"f", ty, none⟩], isTuple := false }
    match offsetsFor probe with
    | .ok table => table.fields.head?.bind FieldOffset.listElement
    | .error _ => none
  | _ => none

def elementListKind (element : TypeRepr) : Option ListElementKind :=
  match element with
  | .list _ => listKindForListType element
  | _ => none

/-! ### The walk -/

mutual
def verifyRecordInner (bytes : List UInt8) (layout : OffsetTable) (fields : List Field)
    (recordBase : Nat) (bounds : Bounds) (depth : Nat) : Except VerifyError Unit :=
  if depth ≥ maxDepth then .error (.depthExceeded "<record>" maxDepth)
  else do
    bounds.requireFixedSlot "<root>" recordBase layout.rootSize
    layout.fields.forM fun fo => verifyField bytes fields recordBase bounds depth fo
termination_by 3 * fieldsWeight fields + 1

/-- The body of the loop over a record's fields. -/
def verifyField (bytes : List UInt8) (fields : List Field) (recordBase : Nat) (bounds : Bounds)
    (depth : Nat) (fo : FieldOffset) : Except VerifyError Unit := do
  let slotAbs ← okOr (checkedAdd recordBase fo.offset) (.spanOverflow fo.name "fixed slot offset")
  bounds.requireFixedSlot fo.name slotAbs fo.size
  match fo.kind with
  | .inline .. => .ok ()
  | .pointerIndirect _ =>
    match _h : fields.find? fun f => f.name == fo.name with
    | none => .error (.unsupportedType fo.name "<missing schema field>")
    | some f => do
      let ptr ← readU32 bytes slotAbs fo.name "pointer slot" bounds
      verifyPointerTarget bytes fo.name f.ty fo.listElement ptr bounds depth
termination_by 3 * fieldsWeight fields
decreasing_by
  have := field_ty_weight_lt (List.mem_of_find?_eq_some _h)
  omega

def verifyPointerTarget (bytes : List UInt8) (field : String) (ty : TypeRepr)
    (listElement : Option ListElementKind) (ptr : Nat) (bounds : Bounds) (depth : Nat) :
    Except VerifyError Unit :=
  match ty with
  | .string => do
    let len ← readU32 bytes ptr field "length prefix" bounds
    let payload ← okOr (checkedAdd ptr 4) (.spanOverflow field "string payload start")
    bounds.requireSpan field "string payload" payload len
  | .schema schema =>
    match offsetsFor schema with
    | .error _ => .error (.unsupportedType field "Schema (unlayoutable)")
    | .ok subLayout => verifyRecordInner bytes subLayout schema.fields ptr bounds (depth + 1)
  | .list element => verifyListTarget bytes field element listElement ptr bounds depth
  | .unit | .bool | .int | .float | .closure .. => .error (.unsupportedType field (typeLabel ty))
  -- `Option`, `Result`, `Enum`
  | variant => verifyVariantTarget bytes field variant ptr bounds depth
termination_by 3 * ty.weight + 1
decreasing_by
  · simp only [TypeRepr.weight, Schema.weight_eq]
    omega
  · simp only [TypeRepr.weight]
    omega
  · omega

def verifyVariantTarget (bytes : List UInt8) (field : String) (ty : TypeRepr) (ptr : Nat)
    (bounds : Bounds) (depth : Nat) : Except VerifyError Unit :=
  if depth ≥ maxDepth then .error (.depthExceeded field maxDepth)
  else do
    bounds.requireSpan field "variant tag" ptr 1
    match _h : variantPayloadType ty (bytes.getD ptr 0) with
    | none => .error (.unsupportedType field (typeLabel ty))
    | some none => .ok ()
    | some (some payloadTy) => do
      let start ← okOr (checkedAdd ptr 1) (.spanOverflow field "variant payload slot start")
      let slot ← okOr (alignUp start (variantPayloadSlotLayout payloadTy).2)
        (.spanOverflow field "variant payload slot alignment")
      bounds.requireSpan field "variant payload slot" slot (variantPayloadSlotLayout payloadTy).1
      match payloadTy with
      | .unit | .bool | .int | .float => .ok ()
      | .closure .. => .error (.unsupportedType field "Closure")
      | _ => do
        let target ← readU32 bytes slot field "variant payload pointer" bounds
        verifyPointerTarget bytes field payloadTy (listKindForListType payloadTy) target bounds (depth + 1)
termination_by 3 * ty.weight
decreasing_by
  have := variantPayloadType_weight _h
  omega

def verifyListTarget (bytes : List UInt8) (field : String) (element : TypeRepr)
    (listElement : Option ListElementKind) (ptr : Nat) (bounds : Bounds) (depth : Nat) :
    Except VerifyError Unit := do
  let count ← readU32 bytes ptr field "list length prefix" bounds
  let entriesStart ← okOr (checkedAdd ptr 4) (.spanOverflow field "list entries start")
  match listElement with
  | some (.inlineFixed elemSize elemAlign) => do
    let payloadStart ← okOr (alignUp entriesStart elemAlign)
      (.spanOverflow field "inline list payload start")
    let byteLen ← okOr (checkedMul count elemSize) (.spanOverflow field "inline list byte length")
    bounds.requireSpan field "inline list payload" payloadStart byteLen
  | some (.pointerArray _) =>
    (List.range count).forM fun i => do
      let index ← okOr (checkedMul i 4) (.spanOverflow field "list entry index")
      let entryOff ← okOr (checkedAdd entriesStart index) (.spanOverflow field "list entry offset")
      let entryPtr ← readU32 bytes entryOff field "list entry pointer" bounds
      verifyPointerTarget bytes field element (elementListKind element) entryPtr bounds (depth + 1)
  | none => .error (.unsupportedType field "List (missing element layout)")
termination_by 3 * element.weight + 2
end

/-! ### Entry points -/

def verifyRecordWithBounds (bytes : List UInt8) (layout : OffsetTable) (fields : List Field)
    (recordBase : Nat) (bounds : Bounds) : Except VerifyError Unit :=
  if bytes.length < bounds.requiredLen then
    .error (.bufferShorterThanRegion bytes.length bounds.requiredLen)
  else verifyRecordInner bytes layout fields recordBase bounds 0

def verifyRecord (bytes : List UInt8) (layout : OffsetTable) (fields : List Field)
    (recordBase : Nat) (region : Region) : Except VerifyError Unit :=
  verifyRecordWithBounds bytes layout fields recordBase (.single region)

def verifyRecordMulti (bytes : List UInt8) (layout : OffsetTable) (fields : List Field)
    (recordBase : Nat) (multi : MultiRegion) : Except VerifyError Unit :=
  verifyRecordWithBounds bytes layout fields recordBase (.multi multi)

end Relon.Abi.Verifier
