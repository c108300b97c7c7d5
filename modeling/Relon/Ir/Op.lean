import Relon.Codegen.Arena
import Relon.Lib.Control

/-! The operations of the intermediate representation (`relon-ir/src/ir.rs`), as the
Cranelift backend executes them.

The backend keeps the operand stack at compile time; at run time every operand is a
machine word of a fixed type, and code that mistypes an operand is refused. So an
operation that meets an operand of another type has no result here. A branch ends with
the operand stack its label was opened with. -/
namespace Relon.Ir

open Codegen Control

inductive IrType where
  | i32 | i64 | f64 | bool | unit | string | listInt | listFloat | listBool | listString
  | listSchema | listList | closure | dict
  deriving DecidableEq, Repr

/-- The machine types. -/
inductive Slot where
  | i32 | i64 | f64
  deriving DecidableEq, Repr

/-- `ir_ty_to_cl`. -/
def IrType.slot : IrType → Slot
  | i64 => .i64
  | f64 => .f64
  | i32 | bool | unit | string | listInt | listFloat | listBool | listString | listSchema
  | listList | closure | dict => .i32

inductive Word where
  | i32 (v : BitVec 32)
  | i64 (v : BitVec 64)
  | f64 (bits : BitVec 64)
  deriving DecidableEq, Repr

namespace Word

def slot : Word → Slot
  | i32 _ => .i32
  | i64 _ => .i64
  | f64 _ => .f64

/-- `coerce_to_cl_ty`: integers are cut or extended by zeros. -/
def coerce : Word → Slot → Option Word
  | i32 v, .i32 => some (i32 v)
  | i32 v, .i64 => some (i64 (v.setWidth 64))
  | i64 v, .i64 => some (i64 v)
  | i64 v, .i32 => some (i32 (v.setWidth 32))
  | f64 b, .f64 => some (f64 b)
  | _, _ => none

end Word

structure State where
  stack : List Word
  lets : Nat → Option Word
  locals : List Word
  machine : Machine

namespace State

def push (s : State) (w : Word) : State := { s with stack := w :: s.stack }

def setLet (s : State) (i : Nat) (w : Word) : State :=
  { s with lets := Function.update s.lets i (some w) }

end State

/-- The lowered code of a source expression, by its effect: it reads the let slots and the
locals, leaves one word, and may allocate and write. It sets only let slots of its own, and
the arena stays where it is. -/
structure Element where
  effect : (Nat → Option Word) → List Word → Machine → Option (Except TrapKind (Word × Machine))
  arenaBase_eq : ∀ {lets locals m w m'}, effect lets locals m = some (.ok (w, m')) →
    m'.arenaBase = m.arenaBase

/-- A bundled function of two `i32` arguments that only reads memory. -/
structure Helper where
  result : BitVec 32 → BitVec 32 → Machine → Except TrapKind (BitVec 32)

/-- The traps of bundled bodies. -/
inductive IrTrapKind where
  | indexOutOfBounds | emptyList | invalidUtf8 | noMatch | numericOverflow
  deriving DecidableEq, Repr

/-- `visit_trap`. -/
def IrTrapKind.mapped : IrTrapKind → TrapKind
  | indexOutOfBounds | emptyList => .boundsViolation
  | invalidUtf8 => .unreachable
  | noMatch => .noMatch
  | numericOverflow => .numericOverflow

/-- The signed integer comparisons. -/
inductive Cmp where
  | eq | ne | lt | le | gt | ge
  deriving DecidableEq, Repr

def Cmp.holds {w : Nat} (a b : BitVec w) : Cmp → Bool
  | eq => a == b
  | ne => a != b
  | lt => a.slt b
  | le => a.sle b
  | gt => b.slt a
  | ge => b.sle a

inductive Op where
  | constI32 (v : BitVec 32)
  | constI64 (v : BitVec 64)
  | localGet (idx : Nat)
  | letGet (idx : Nat) (ty : IrType)
  | letSet (idx : Nat) (ty : IrType)
  | add (ty : IrType)
  | sub (ty : IrType)
  | mul (ty : IrType)
  | bitAnd (ty : IrType)
  | cmp (c : Cmp) (ty : IrType)
  | trap (kind : IrTrapKind)
  | allocScratchDyn
  | loadI32AtAbsolute (offset : BitVec 32)
  | loadI8UAtAbsolute (offset : BitVec 32)
  | loadI64AtAbsolute (offset : BitVec 32)
  | loadF64AtAbsolute (offset : BitVec 32)
  | storeI32AtAbsolute (offset : BitVec 32)
  | storeI64AtAbsolute (offset : BitVec 32)
  | storeF64AtAbsolute (offset : BitVec 32)
  | storeI8AtAbsolute (offset : BitVec 32)
  | memcpyAtAbsolute
  | readStringLen
  | call (helper : Helper)
  | element (e : Element)

namespace Op

/-- An arithmetic operation on 32 bits, which wraps, or on 64, which may overflow. -/
def binary (wrapping : BitVec 32 → BitVec 32 → BitVec 32)
    (checked : BitVec 64 → BitVec 64 → Option (BitVec 64)) (ty : IrType) (s : State) :
    Option (Except TrapKind State) :=
  match ty, s.stack with
  | .i32, .i32 b :: .i32 a :: rest => some (.ok { s with stack := .i32 (wrapping a b) :: rest })
  | .i64, .i64 b :: .i64 a :: rest =>
    match checked a b with
    | some v => some (.ok { s with stack := .i64 v :: rest })
    | none => some (.error .numericOverflow)
  | _, _ => none

/-- A memory operation, and what becomes of the stack. -/
def perform {α : Type} (s : State) (rest : List Word) (code : Emitted α) (push : α → List Word) :
    Option (Except TrapKind State) :=
  match code s.machine with
  | .error kind => some (.error kind)
  | .ok (a, m) => some (.ok { s with stack := push a ++ rest, machine := m })

def step : Op → State → Option (Except TrapKind State)
  | constI32 v, s => some (.ok (s.push (.i32 v)))
  | constI64 v, s => some (.ok (s.push (.i64 v)))
  | localGet idx, s =>
    match s.locals[idx]? with
    | some w => some (.ok (s.push w))
    | none => none
  | letGet idx ty, s =>
    match s.lets idx with
    | some w => if w.slot = ty.slot then some (.ok (s.push w)) else none
    | none => none
  | letSet idx ty, s =>
    match s.stack with
    | [] => none
    | w :: rest =>
      match w.coerce ty.slot with
      | some w' => some (.ok ({ s with stack := rest }.setLet idx w'))
      | none => none
  | add ty, s =>
    binary (· + ·) (fun a b => if BitVec.saddOverflow a b then none else some (a + b)) ty s
  | sub ty, s =>
    binary (· - ·) (fun a b => if BitVec.ssubOverflow a b then none else some (a - b)) ty s
  | mul ty, s =>
    binary (· * ·) (fun a b => if BitVec.smulOverflow a b then none else some (a * b)) ty s
  | bitAnd ty, s => binary (· &&& ·) (fun a b => some (a &&& b)) ty s
  | cmp c ty, s =>
    match ty, s.stack with
    | .i32, .i32 b :: .i32 a :: rest | .bool, .i32 b :: .i32 a :: rest =>
      some (.ok { s with stack := .i32 (if c.holds a b then 1 else 0) :: rest })
    | .i64, .i64 b :: .i64 a :: rest =>
      some (.ok { s with stack := .i32 (if c.holds a b then 1 else 0) :: rest })
    | _, _ => none
  | trap kind, _ => some (.error kind.mapped)
  | allocScratchDyn, s =>
    match s.stack with
    | .i32 size :: rest => perform s rest (allocScratch size) fun base => [.i32 base]
    | _ => none
  | loadI32AtAbsolute offset, s =>
    match s.stack with
    | .i32 base :: rest => perform s rest (Codegen.loadI32AtAbsolute offset base) fun v => [.i32 v]
    | _ => none
  | loadI8UAtAbsolute offset, s =>
    match s.stack with
    | .i32 base :: rest => perform s rest (Codegen.loadI8UAtAbsolute offset base) fun v => [.i32 v]
    | _ => none
  | loadI64AtAbsolute offset, s =>
    match s.stack with
    | .i32 base :: rest => perform s rest (Codegen.loadI64AtAbsolute offset base) fun v => [.i64 v]
    | _ => none
  | loadF64AtAbsolute offset, s =>
    match s.stack with
    | .i32 base :: rest => perform s rest (Codegen.loadI64AtAbsolute offset base) fun v => [.f64 v]
    | _ => none
  | storeI32AtAbsolute offset, s =>
    match s.stack with
    | .i32 v :: .i32 base :: rest =>
      perform s rest (Codegen.storeI32AtAbsolute offset base v) fun _ => []
    | _ => none
  | storeI64AtAbsolute offset, s =>
    match s.stack with
    | .i64 v :: .i32 base :: rest =>
      perform s rest (Codegen.storeI64AtAbsolute offset base v) fun _ => []
    | _ => none
  | storeF64AtAbsolute offset, s =>
    match s.stack with
    | .f64 v :: .i32 base :: rest =>
      perform s rest (Codegen.storeI64AtAbsolute offset base v) fun _ => []
    | _ => none
  | storeI8AtAbsolute offset, s =>
    match s.stack with
    | .i32 v :: .i32 base :: rest =>
      perform s rest (Codegen.storeI8AtAbsolute offset base v) fun _ => []
    | _ => none
  | memcpyAtAbsolute, s =>
    match s.stack with
    | .i32 len :: .i32 src :: .i32 dest :: rest =>
      perform s rest (Codegen.memcpyAtAbsolute dest src len) fun _ => []
    | _ => none
  | readStringLen, s =>
    match s.stack with
    | .i32 ptr :: rest =>
      perform s rest (Codegen.loadI32AtAbsolute 0 ptr) fun len => [.i64 (len.setWidth 64)]
    | _ => none
  | call helper, s =>
    match s.stack with
    | .i32 b :: .i32 a :: rest =>
      match helper.result a b s.machine with
      | .error kind => some (.error kind)
      | .ok v => some (.ok { s with stack := .i32 v :: rest })
    | _ => none
  | element e, s =>
    match e.effect s.lets s.locals s.machine with
    | none => none
    | some (.error kind) => some (.error kind)
    | some (.ok (w, m)) =>
      -- the logs are those of the code around the element
      some (.ok { s with
        stack := w :: s.stack
        machine := { m with accesses := s.machine.accesses, blocks := s.machine.blocks } })

end Op

/-- The condition of a branch is an `i32`. -/
def test (s : State) : Option (Bool × State) :=
  match s.stack with
  | .i32 c :: rest => some (c != 0, { s with stack := rest })
  | _ => none

def lang : Lang Op State TrapKind where
  step := Op.step
  test := test
  leave s s' := { s' with stack := s.stack }

/-- An op stream. -/
abbrev Stream := List (Code Op)

/-- A straight run of operations. -/
def ops (l : List Op) : Stream := l.map .prim

theorem ops_nil : ops [] = [] := rfl

theorem ops_cons (op : Op) (l : List Op) : ops (op :: l) = .prim op :: ops l := rfl

end Relon.Ir
