import Relon.Eval.Eval

/-! The native function `range` (`stdlib.rs`). -/
namespace Relon.Eval

/-- `expect_int`. -/
def expectInt (v : Value) (range : TokenRange) : Prog HostOp RuntimeError Int64 :=
  match v with
  | .int i => pure i
  | other => .fail (.typeMismatch "Int" other.typeName range)

/-- A service's refusal, raised by the function that asked. -/
def HostOp.ask {β : Type} (op : HostOp (Except RuntimeError β)) : Prog HostOp RuntimeError β := do
  let reply ← Prog.send op
  Prog.ofExcept reply

/-- `Range::call` on its bounds: the whole length is charged before any element is
made, and refused when it is over the cap. -/
def rangeBetween (start stop : Int64) (range : TokenRange) : Prog HostOp RuntimeError Value := do
  let requested := (stop.toInt - start.toInt).toNat
  if 0 < requested then HostOp.ask (.tick (rangeTicks requested) range)
  match ← Prog.send .maxValueElements with
  | some limit =>
    if limit < requested then .fail (.valueTooLarge limit requested range)
  | none => pure ()
  pure (.list ((List.range requested).map fun i => .int (Int64.ofInt (start.toInt + i))))

/-- `Range::call`. -/
def rangeNative : Native := fun positional _ range =>
  match positional with
  | [stop] => do
    let stop ← expectInt stop range
    rangeBetween 0 stop range
  | [start, stop] => do
    let start ← expectInt start range
    let stop ← expectInt stop range
    rangeBetween start stop range
  | _ => .fail (.typeMismatch "1 or 2 arguments" (toString positional.length) range)

/-- The registry entry of `range`, which needs no capability. -/
def rangeEntry : NativeEntry := ⟨none, rangeNative⟩

end Relon.Eval
