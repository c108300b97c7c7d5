import Relon.Ir.Op
import Relon.Lib.ControlEnds

/-! How each operation goes on, in a run that ends. -/
namespace Relon.Ir

open Codegen Control

variable {st : List Word} {lets : Nat → Option Word} {locals : List Word} {m : Machine}
  {d : Stream} {Q : Exit TrapKind → State → Prop}

variable {op : Op} {s : State} {i : Nat} {ty : IrType} {a b : BitVec 32} {c : Cmp}

/-- The operation does not trap: its run is that of the code behind it. -/
theorem ends_step {s s₁ : State} (stepped : op.step s = some (.ok s₁)) :
    lang.Ends (.prim op :: d) s Q ↔ lang.Ends d s₁ Q := by
  constructor
  · rintro ⟨x, s', ⟨fuel, ran⟩, holds⟩
    cases fuel with
    | zero => simp [Lang.run] at ran
    | succ fuel =>
      have stepped : lang.step op s = some (.ok s₁) := stepped
      exact ⟨x, s', ⟨fuel, by simpa [Lang.run, stepped] using ran⟩, holds⟩
  · exact Lang.Ends.prim stepped

/-! ### Operands -/

theorem ends_constI32 {v : BitVec 32} :
    lang.Ends (.prim (.constI32 v) :: d) ⟨st, lets, locals, m⟩ Q ↔
      lang.Ends d ⟨.i32 v :: st, lets, locals, m⟩ Q :=
  ends_step rfl

theorem ends_constI64 {v : BitVec 64} :
    lang.Ends (.prim (.constI64 v) :: d) ⟨st, lets, locals, m⟩ Q ↔
      lang.Ends d ⟨.i64 v :: st, lets, locals, m⟩ Q :=
  ends_step rfl

theorem ends_letGet {w : Word} (slot : lets i = some w) (typed : w.slot = ty.slot) :
    lang.Ends (.prim (.letGet i ty) :: d) ⟨st, lets, locals, m⟩ Q ↔
      lang.Ends d ⟨w :: st, lets, locals, m⟩ Q :=
  ends_step (by simp only [Op.step, slot, typed, if_true]; rfl)

theorem ends_letSet {w w' : Word} (typed : w.coerce ty.slot = some w') :
    lang.Ends (.prim (.letSet i ty) :: d) ⟨w :: st, lets, locals, m⟩ Q ↔
      lang.Ends d ⟨st, Function.update lets i (some w'), locals, m⟩ Q :=
  ends_step (by simp only [Op.step, typed]; rfl)

/-! ### Arithmetic -/

theorem ends_add_i32 :
    lang.Ends (.prim (.add .i32) :: d) ⟨.i32 b :: .i32 a :: st, lets, locals, m⟩ Q ↔
      lang.Ends d ⟨.i32 (a + b) :: st, lets, locals, m⟩ Q :=
  ends_step rfl

theorem ends_mul_i32 :
    lang.Ends (.prim (.mul .i32) :: d) ⟨.i32 b :: .i32 a :: st, lets, locals, m⟩ Q ↔
      lang.Ends d ⟨.i32 (a * b) :: st, lets, locals, m⟩ Q :=
  ends_step rfl

theorem ends_bitAnd_i32 :
    lang.Ends (.prim (.bitAnd .i32) :: d) ⟨.i32 b :: .i32 a :: st, lets, locals, m⟩ Q ↔
      lang.Ends d ⟨.i32 (a &&& b) :: st, lets, locals, m⟩ Q :=
  ends_step rfl

theorem ends_cmp_i32 :
    lang.Ends (.prim (.cmp c .i32) :: d) ⟨.i32 b :: .i32 a :: st, lets, locals, m⟩ Q ↔
      lang.Ends d ⟨.i32 (if c.holds a b then 1 else 0) :: st, lets, locals, m⟩ Q :=
  ends_step rfl

theorem ends_cmp_i64 {a b : BitVec 64} :
    lang.Ends (.prim (.cmp c .i64) :: d) ⟨.i64 b :: .i64 a :: st, lets, locals, m⟩ Q ↔
      lang.Ends d ⟨.i32 (if c.holds a b then 1 else 0) :: st, lets, locals, m⟩ Q :=
  ends_step rfl

/-- A checked operation on 64 bits, whose trap ends the run. -/
theorem Ends.binary {op : Op} {wrapping : BitVec 32 → BitVec 32 → BitVec 32}
    {checked : BitVec 64 → BitVec 64 → Option (BitVec 64)} {a b : BitVec 64}
    (does : ∀ s, op.step s = Op.binary wrapping checked .i64 s)
    (behind : ∀ v, checked a b = some v → lang.Ends d ⟨.i64 v :: st, lets, locals, m⟩ Q)
    (traps : checked a b = none →
      Q (.trap .numericOverflow) ⟨.i64 b :: .i64 a :: st, lets, locals, m⟩) :
    lang.Ends (.prim op :: d) ⟨.i64 b :: .i64 a :: st, lets, locals, m⟩ Q := by
  cases computed : checked a b with
  | none =>
    exact Lang.Ends.trap (by rw [show lang.step op = op.step from rfl, does]; simp [Op.binary, computed])
      (traps computed)
  | some v =>
    exact (ends_step (by rw [does]; simp only [Op.binary, computed])).mpr (behind v computed)

/-! ### Branches -/

theorem Ends.ite {c : Bool} {then_ else_ : Stream}
    (taken : c = true → lang.Ends then_ ⟨st, lets, locals, m⟩ (lang.onward d Q fun _ => False))
    (skipped : c = false → lang.Ends else_ ⟨st, lets, locals, m⟩ (lang.onward d Q fun _ => False)) :
    lang.Ends (.ite then_ else_ :: d) ⟨.i32 (if c then 1 else 0) :: st, lets, locals, m⟩ Q := by
  cases c with
  | true => exact Lang.Ends.ite rfl (taken rfl)
  | false => exact Lang.Ends.ite rfl (skipped rfl)

theorem Ends.brIf {c : Bool} {depth : Nat}
    (taken : c = true → Q (.branch depth) ⟨st, lets, locals, m⟩)
    (passed : c = false → lang.Ends d ⟨st, lets, locals, m⟩ Q) :
    lang.Ends (.brIf depth :: d) ⟨.i32 (if c then 1 else 0) :: st, lets, locals, m⟩ Q := by
  cases c with
  | true => exact Lang.Ends.brIf_taken rfl (taken rfl)
  | false => exact Lang.Ends.brIf_passed rfl (passed rfl)

/-! ### Memory -/

/-- A machine operation in front of more code. -/
theorem Ends.perform {α : Type} (rest : List Word) (code : Emitted α) (push : α → List Word)
    (does : op.step s = Op.perform s rest code push)
    (behind : ∀ a m', code s.machine = .ok (a, m') →
      lang.Ends d { s with stack := push a ++ rest, machine := m' } Q)
    (traps : ∀ kind, Q (.trap kind) s) : lang.Ends (.prim op :: d) s Q := by
  cases ran : code s.machine with
  | error kind =>
    exact Lang.Ends.trap (by rw [show lang.step op = op.step from rfl, does, Op.perform, ran])
      (traps kind)
  | ok r => exact (ends_step (by rw [does, Op.perform, ran])).mpr (behind r.1 r.2 ran)

theorem Ends.allocScratchDyn {size : BitVec 32}
    (behind : lang.Ends d ⟨.i32 (m.scratchBase + m.scratchCursor) :: st, lets, locals,
      { m with
        scratchCursor := m.scratchCursor + size
        blocks := m.blocks ++ [(m.scratchBase + m.scratchCursor, size)] }⟩ Q)
    (traps : ∀ kind, Q (.trap kind) ⟨.i32 size :: st, lets, locals, m⟩) :
    lang.Ends (.prim .allocScratchDyn :: d) ⟨.i32 size :: st, lets, locals, m⟩ Q := by
  refine Ends.perform st (allocScratch size) (fun base => [.i32 base]) rfl (fun a m' ran => ?_) traps
  rw [← bind_pure (allocScratch size), allocScratch_bind_eq_ok, pure_apply] at ran
  cases ran.2
  exact behind

/-- The machine after an access. -/
def logged (m : Machine) (mem : Memory) (as : List Access) : Machine :=
  { m with mem := mem, accesses := m.accesses ++ as }

/-- A store, which lands where it was checked. -/
theorem Ends.store (rest : List Word) {width base : BitVec 32} {value : List UInt8}
    (does : op.step s = Op.perform s rest (storeAtAbsolute width 0 base value) fun _ => [])
    (behind : base + width ≤ s.machine.arenaLen → lang.Ends d { s with
      stack := rest
      machine := logged s.machine (s.machine.mem.write (s.machine.arenaBase + base.setWidth 64) value)
        [⟨s.machine.arenaBase + base.setWidth 64, value.length, true⟩] } Q)
    (traps : ∀ kind, Q (.trap kind) s) : lang.Ends (.prim op :: d) s Q := by
  refine Ends.perform rest _ _ does (fun a m' ran => ?_) traps
  simp only [storeAtAbsolute, arenaAddr_bind_eq_ok, store_apply, Machine.touch, add_zero base] at ran
  cases ran.2
  exact behind ran.1

end Relon.Ir
