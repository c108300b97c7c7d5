import Relon.Ir.Op

/-! The range builder of the lowering (`lowering/peephole.rs`), as an op stream.

It allocates eight bytes and eight per element, stores the element count at the start of the
block and the elements from the next multiple of eight behind the count. The code of a bound
is given by its effect; the let slots it uses are left out of the numbering. -/
namespace Relon.Ir

open Codegen Control

/-- `emit_let_get_plus_const`. -/
def letGetPlusConst (idx : Nat) (ty : IrType) (off : BitVec 32) : List Op :=
  .letGet idx ty :: if off = 0 then [] else [.constI32 off, .add .i32]

/-- `emit_aligned_payload`. -/
def alignedPayload (baseI payloadI : Nat) : List Op :=
  letGetPlusConst baseI .i32 (4 + 7) ++ [.constI32 (-8), .bitAnd .i32, .letSet payloadI .i32]

/-- The first bound of a range, zero when it has only one. -/
def rangeStart : Option Element → Op
  | some a => .element a
  | none => .constI64 0

/-- The clamped element count, cut to 32 bits. The slots from `k` on are `start`, `span` and
`count`. -/
def rangeCount (k : Nat) (a : Option Element) (b : Element) : Stream :=
  ops [rangeStart a, .letSet k .i64, .element b, .letGet k .i64, .sub .i64, .letSet (k + 1) .i64,
    .letGet (k + 1) .i64, .constI64 0, .cmp .gt .i64] ++
  [.ite (ops [.letGet (k + 1) .i64]) (ops [.constI64 0])] ++ ops [.letSet (k + 2) .i32]

/-- The block, its header and its payload; the slots are `base`, `payload`, `i` and `elem`. -/
def rangeOpen (k : Nat) : List Op :=
  [.constI32 8, .letGet (k + 2) .i32, .constI32 8, .mul .i32, .add .i32, .allocScratchDyn,
    .letSet (k + 3) .i32,
    .letGet (k + 3) .i32, .letGet (k + 2) .i32, .storeI32AtAbsolute 0] ++
  alignedPayload (k + 3) (k + 4) ++
  [.constI32 0, .letSet (k + 5) .i32, .letGet k .i64, .letSet (k + 6) .i64]

/-- The loop over the elements: `value` leaves the element's value on the stack. -/
def rangeFill (k : Nat) (before : List Op) (value : Op) : Stream :=
  [.block [.loop (
    ops [.letGet (k + 5) .i32, .letGet (k + 2) .i32, .cmp .ge .i32] ++ [.brIf 1] ++
    ops (before ++ [.letGet (k + 4) .i32, .letGet (k + 5) .i32, .constI32 8, .mul .i32, .add .i32,
      value, .storeI64AtAbsolute 0,
      .letGet (k + 5) .i32, .constI32 1, .add .i32, .letSet (k + 5) .i32,
      .letGet (k + 6) .i64, .constI64 1, .add .i64, .letSet (k + 6) .i64]) ++ [.br 0])]] ++
  ops [.letGet (k + 3) .i32]

/-- `emit_range_materialize`. -/
def emitRangeMaterialize (k : Nat) (a : Option Element) (b : Element) : Stream :=
  rangeCount k a b ++ ops (rangeOpen k) ++ rangeFill k [] (.letGet (k + 6) .i64)

end Relon.Ir
