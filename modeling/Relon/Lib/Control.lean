import Mathlib.Tactic.Common

/-! Structured control flow over an arbitrary machine.

Code is a list of instructions: primitive ones, which the machine executes, and
blocks, loops and conditionals, which open a label. A branch names a label by its
distance; it leaves a block at its end and a loop at its start. `run` executes
code with a budget of steps. `Safe` says what every finished run satisfies, with a
rule for each construct; `frame` is the rule for code whose instructions all keep
a relation. -/
namespace Relon.Control
open List

inductive Code (P : Type) where
  | prim (p : P)
  | block (body : List (Code P))
  | loop (body : List (Code P))
  | ite (then_ else_ : List (Code P))
  | br (depth : Nat)
  | brIf (depth : Nat)
  | ret

/-- How a piece of code is left. -/
inductive Exit (E : Type) where
  | next
  | branch (depth : Nat)
  | ret
  | trap (e : E)
  deriving DecidableEq, Repr

/-- A machine: its instructions, the test a conditional makes, and the state at a label,
from the state in which the label was opened and the one that branches to it. There is no
result where an instruction does not apply. -/
structure Lang (P S E : Type) where
  step : P → S → Option (Except E S)
  test : S → Option (Bool × S)
  leave : S → S → S

variable {P S E : Type} (L : Lang P S E)

namespace Lang

/-- The exit of a body as seen from outside its label. -/
def outward : Exit E → Exit E
  | .branch (d + 1) => .branch d
  | x => x

/-- Continue after a labelled body: behind the label, at the label's target, or outward. -/
def labelled (exit : Option (Exit E × S)) (behind target : S → Option (Exit E × S)) :
    Option (Exit E × S) :=
  match exit with
  | none => none
  | some (.next, s') => behind s'
  | some (.branch 0, s') => target s'
  | some (x, s') => some (outward x, s')

/-- Execute code for at most `fuel` nested steps. A conditional's label cannot be branched to. -/
def run : Nat → List (Code P) → S → Option (Exit E × S)
  | 0, _, _ => none
  | _ + 1, [], s => some (.next, s)
  | fuel + 1, .prim p :: rest, s =>
    match L.step p s with
    | none => none
    | some (.error e) => some (.trap e, s)
    | some (.ok s') => run fuel rest s'
  | fuel + 1, .block body :: rest, s =>
    labelled (run fuel body s) (run fuel rest) fun s' => run fuel rest (L.leave s s')
  | fuel + 1, .loop body :: rest, s =>
    labelled (run fuel body s) (run fuel rest) fun s' => run fuel (.loop body :: rest) (L.leave s s')
  | fuel + 1, .ite then_ else_ :: rest, s =>
    match L.test s with
    | none => none
    | some (b, s₁) =>
      labelled (run fuel (if b then then_ else else_) s₁) (run fuel rest) fun _ => none
  | _ + 1, .br d :: _, s => some (.branch d, s)
  | fuel + 1, .brIf d :: rest, s =>
    match L.test s with
    | none => none
    | some (true, s') => some (.branch d, s')
    | some (false, s') => run fuel rest s'
  | _ + 1, .ret :: _, s => some (.ret, s)

/-- Some budget is enough to finish with this exit and state. -/
def Finishes (c : List (Code P)) (s : S) (x : Exit E) (s' : S) : Prop :=
  ∃ fuel, L.run fuel c s = some (x, s')

/-- Every finished run satisfies `Q`. -/
def Safe (c : List (Code P)) (s : S) (Q : Exit E → S → Prop) : Prop :=
  ∀ x s', L.Finishes c s x s' → Q x s'

variable {L} {c rest body : List (Code P)} {s : S} {Q R : Exit E → S → Prop}

/-! ### Rules for the constructs -/

theorem Safe.nil (done : Q .next s) : L.Safe [] s Q := by
  rintro x s' ⟨fuel, ran⟩
  cases fuel with
  | zero => simp [run] at ran
  | succ fuel =>
    cases ran
    exact done

variable {p : P} {x : Exit E} {s' : S} {d : List (Code P)}

/-- A primitive instruction, by what the machine makes of it. -/
theorem safe_prim : L.Safe (.prim p :: rest) s Q ↔
    match L.step p s with
    | none => True
    | some (.error e) => Q (.trap e) s
    | some (.ok s') => L.Safe rest s' Q := by
  cases stepped : L.step p s with
  | none =>
    refine iff_of_true ?_ trivial
    rintro x s' ⟨fuel, ran⟩
    cases fuel <;> simp [run, stepped] at ran
  | some r =>
    cases r with
    | error e =>
      constructor
      · exact fun safe => safe _ _ ⟨1, by simp [run, stepped]⟩
      · rintro trapped x s' ⟨fuel, ran⟩
        cases fuel with
        | zero => simp [run] at ran
        | succ fuel =>
          obtain ⟨rfl, rfl⟩ : Exit.trap e = x ∧ s = s' := by simpa [run, stepped] using ran
          exact trapped
    | ok s₁ =>
      constructor
      · rintro safe x s' ⟨fuel, ran⟩
        exact safe x s' ⟨fuel + 1, by simpa [run, stepped] using ran⟩
      · rintro safe x s' ⟨fuel, ran⟩
        cases fuel with
        | zero => simp [run] at ran
        | succ fuel => exact safe x s' ⟨fuel, by simpa [run, stepped] using ran⟩

theorem Safe.prim (goesOn : ∀ s', L.step p s = some (.ok s') → L.Safe rest s' Q)
    (traps : ∀ e, L.step p s = some (.error e) → Q (.trap e) s) : L.Safe (.prim p :: rest) s Q := by
  rw [safe_prim]
  split
  · trivial
  · exact traps _ ‹_›
  · exact goesOn _ ‹_›

theorem Safe.ret (left : Q .ret s) : L.Safe (.ret :: rest) s Q := by
  rintro x s' ⟨fuel, ran⟩
  cases fuel with
  | zero => simp [run] at ran
  | succ fuel =>
    cases ran
    exact left

/-! ### Sequences -/

/-- A body followed by more code, when the part that goes on behind it is split. -/
theorem labelled_split {r : Option (Exit E × S)} {f f' g g' : S → Option (Exit E × S)}
    {F : S → Prop} (ran : labelled r f g = some (x, s')) (hf : ∀ s, f s = some (x, s') →
      (∃ s₁, f' s = some (.next, s₁) ∧ F s₁) ∨ x ≠ .next ∧ f' s = some (x, s'))
    (hg : ∀ s, g s = some (x, s') →
      (∃ s₁, g' s = some (.next, s₁) ∧ F s₁) ∨ x ≠ .next ∧ g' s = some (x, s')) :
    (∃ s₁, labelled r f' g' = some (.next, s₁) ∧ F s₁) ∨
      x ≠ .next ∧ labelled r f' g' = some (x, s') := by
  unfold labelled at ran ⊢
  split at ran
  · cases ran
  · exact hf _ ran
  · exact hg _ ran
  · rename_i y s₁ notNext notHere
    cases ran
    refine .inr ⟨?_, rfl⟩
    match y with
    | .next => exact absurd rfl notNext
    | .branch 0 => exact absurd rfl notHere
    | .branch (d + 1) => exact nofun
    | .ret => exact nofun
    | .trap e => exact nofun

/-- A run of two pieces of code is a run of the first and, where that goes on, of the
second. -/
theorem run_append {fuel : Nat} (ran : L.run fuel (c ++ d) s = some (x, s')) :
    (∃ s₁, L.run fuel c s = some (.next, s₁) ∧ L.Finishes d s₁ x s') ∨
      x ≠ .next ∧ L.run fuel c s = some (x, s') := by
  induction fuel generalizing c s with
  | zero => simp [run] at ran
  | succ fuel ih =>
    match c with
    | [] => exact .inl ⟨s, rfl, fuel + 1, ran⟩
    | .prim p :: rest =>
      rw [cons_append, run] at ran
      rw [run]
      cases stepped : L.step p s with
      | none => simp [stepped] at ran
      | some r =>
        cases r with
        | error e =>
          rw [stepped] at ran
          cases ran
          exact .inr ⟨nofun, rfl⟩
        | ok s₁ => simp only [stepped] at ran ⊢; exact ih ran
    | .block body :: rest =>
      rw [cons_append, run] at ran
      rw [run]
      exact labelled_split ran (fun _ => ih) fun _ => ih
    | .loop body :: rest =>
      rw [cons_append, run] at ran
      rw [run]
      exact labelled_split ran (fun _ => ih) fun _ on => ih (c := .loop body :: rest) on
    | .ite then_ else_ :: rest =>
      rw [cons_append, run] at ran
      rw [run]
      cases tested : L.test s with
      | none => simp [tested] at ran
      | some r =>
        simp only [tested] at ran ⊢
        exact labelled_split ran (fun _ => ih) fun _ => nofun
    | .br d :: rest =>
      cases ran
      exact .inr ⟨nofun, rfl⟩
    | .brIf d :: rest =>
      rw [cons_append, run] at ran
      rw [run]
      cases tested : L.test s with
      | none => simp [tested] at ran
      | some r =>
        obtain ⟨b, s₁⟩ := r
        cases b with
        | true =>
          rw [tested] at ran
          cases ran
          exact .inr ⟨nofun, rfl⟩
        | false => simp only [tested] at ran ⊢; exact ih ran
    | .ret :: rest =>
      cases ran
      exact .inr ⟨nofun, rfl⟩

/-- What must hold of the exits of the first of two pieces of code. -/
def andThen (L : Lang P S E) (d : List (Code P)) (Q : Exit E → S → Prop) : Exit E → S → Prop
  | .next, s' => L.Safe d s' Q
  | x, s' => Q x s'

theorem Safe.append (first : L.Safe c s (L.andThen d Q)) : L.Safe (c ++ d) s Q := by
  rintro x s' ⟨fuel, ran⟩
  obtain ⟨s₁, went, on⟩ | ⟨left, went⟩ := run_append ran
  · exact first _ _ ⟨fuel, went⟩ x s' on
  · have := first _ _ ⟨fuel, went⟩
    cases x with
    | next => exact absurd rfl left
    | branch d => exact this
    | ret => exact this
    | trap e => exact this

/-! ### Code that keeps a relation -/

mutual

/-- The primitive instructions of a piece of code. -/
def prims : Code P → List P
  | .prim p => [p]
  | .block body | .loop body => allPrims body
  | .ite then_ else_ => allPrims then_ ++ allPrims else_
  | .br _ | .brIf _ | .ret => []

def allPrims : List (Code P) → List P
  | [] => []
  | i :: rest => prims i ++ allPrims rest

end

mutual

/-- Whether a return occurs. -/
def returns : Code P → Bool
  | .ret => true
  | .block body | .loop body => anyReturns body
  | .ite then_ else_ => anyReturns then_ || anyReturns else_
  | .prim _ | .br _ | .brIf _ => false

def anyReturns : List (Code P) → Bool
  | [] => false
  | i :: rest => returns i || anyReturns rest

end

/-- A relation every instruction keeps, and so do tests and labels. -/
structure Keeps (L : Lang P S E) (good : P → Prop) (K : S → S → Prop) : Prop where
  refl : ∀ s, K s s
  trans : ∀ {s₁ s₂ s₃}, K s₁ s₂ → K s₂ s₃ → K s₁ s₃
  step : ∀ {p s s'}, good p → L.step p s = some (.ok s') → K s s'
  test : ∀ {s s' b}, L.test s = some (b, s') → K s s'
  leave : ∀ {s s'}, K s s' → K s (L.leave s s')

namespace Keeps

variable {good : P → Prop} {K : S → S → Prop} {N : Prop}

theorem labelled (keeps : L.Keeps good K) {r : Option (Exit E × S)} {x : Exit E} {s s' : S}
    {f g : S → Option (Exit E × S)} (ran : Lang.labelled r f g = some (x, s'))
    (hr : ∀ y s₁, r = some (y, s₁) → K s s₁ ∧ (N → y ≠ .ret))
    (hf : ∀ s₁, f s₁ = some (x, s') → K s₁ s' ∧ (N → x ≠ .ret))
    (hg : ∀ s₁, g s₁ = some (x, s') → K (L.leave s s₁) s' ∧ (N → x ≠ .ret)) :
    K s s' ∧ (N → x ≠ .ret) := by
  unfold Lang.labelled at ran
  split at ran
  · cases ran
  · exact (hf _ ran).imp_left (keeps.trans (hr _ _ rfl).1)
  · exact (hg _ ran).imp_left (keeps.trans (keeps.leave (hr _ _ rfl).1))
  · rename_i y s₁ notNext notHere
    cases ran
    refine (hr _ _ rfl).imp_right fun stays n => ?_
    match y with
    | .branch 0 => exact nofun
    | .branch (d + 1) => exact nofun
    | .next => exact nofun
    | .ret => exact absurd rfl (stays n)
    | .trap e => exact nofun

/-- The frame rule. Code without a return, moreover, does not return. -/
theorem run (keeps : L.Keeps good K) {fuel : Nat} {c : List (Code P)} {s s' : S} {x : Exit E}
    (all : ∀ p ∈ allPrims c, good p) (none : N → anyReturns c = false)
    (ran : L.run fuel c s = some (x, s')) : K s s' ∧ (N → x ≠ .ret) := by
  induction fuel generalizing c s s' x with
  | zero => simp [Lang.run] at ran
  | succ fuel ih =>
    match c with
    | [] =>
      cases ran
      exact ⟨keeps.refl s, fun _ => nofun⟩
    | .prim p :: rest =>
      simp only [allPrims, prims, cons_append, nil_append, forall_mem_cons] at all
      rw [Lang.run] at ran
      cases stepped : L.step p s with
      | none => simp [stepped] at ran
      | some r =>
        cases r with
        | error e =>
          rw [stepped] at ran
          cases ran
          exact ⟨keeps.refl s, fun _ => nofun⟩
        | ok s₁ =>
          simp only [stepped] at ran
          exact (ih all.2 none ran).imp_left (keeps.trans (keeps.step all.1 stepped))
    | .block body :: rest =>
      simp only [allPrims, prims, forall_mem_append] at all
      simp only [anyReturns, returns, Bool.or_eq_false_iff, imp_and] at none
      rw [Lang.run] at ran
      exact keeps.labelled ran (fun _ _ => ih all.1 none.1) (fun _ => ih all.2 none.2)
        fun _ => ih all.2 none.2
    | .loop body :: rest =>
      have loops := all
      have quiet := none
      simp only [allPrims, prims, forall_mem_append] at all
      simp only [anyReturns, returns, Bool.or_eq_false_iff, imp_and] at none
      rw [Lang.run] at ran
      exact keeps.labelled ran (fun _ _ => ih all.1 none.1) (fun _ => ih all.2 none.2)
        fun _ => ih loops quiet
    | .ite then_ else_ :: rest =>
      simp only [allPrims, prims, forall_mem_append] at all
      simp only [anyReturns, returns, Bool.or_eq_false_iff, imp_and] at none
      rw [Lang.run] at ran
      cases tested : L.test s with
      | none => simp [tested] at ran
      | some r =>
        obtain ⟨b, s₁⟩ := r
        simp only [tested] at ran
        have inside : ∀ y s₂, L.run fuel (if b then then_ else else_) s₁ = some (y, s₂) →
            K s₁ s₂ ∧ (N → y ≠ .ret) := by
          cases b with
          | true => exact fun _ _ => ih all.1.1 none.1.1
          | false => exact fun _ _ => ih all.1.2 none.1.2
        exact (keeps.labelled ran inside (fun _ => ih all.2 none.2) fun _ => nofun).imp_left
          (keeps.trans (keeps.test tested))
    | .br d :: rest =>
      cases ran
      exact ⟨keeps.refl s, fun _ => nofun⟩
    | .brIf d :: rest =>
      rw [Lang.run] at ran
      cases tested : L.test s with
      | none => simp [tested] at ran
      | some r =>
        obtain ⟨b, s₁⟩ := r
        cases b with
        | true =>
          rw [tested] at ran
          cases ran
          exact ⟨keeps.test tested, fun _ => nofun⟩
        | false =>
          simp only [tested] at ran
          exact (@ih rest _ _ _ all none ran).imp_left (keeps.trans (keeps.test tested))
    | .ret :: rest =>
      cases ran
      exact ⟨keeps.refl s, fun n => absurd (none n) nofun⟩

end Keeps

/-- Code that keeps a relation and does not return, in front of more code. -/
theorem Safe.steady {good : P → Prop} {K : S → S → Prop} {d : List (Code P)}
    (keeps : L.Keeps good K) (all : ∀ p ∈ allPrims c, good p) (noReturn : anyReturns c = false)
    (behind : ∀ s', K s s' → L.Safe d s' Q)
    (leaves : ∀ x s', x ≠ .next → x ≠ .ret → K s s' → Q x s') : L.Safe (c ++ d) s Q := by
  refine Safe.append fun x s' ⟨fuel, ran⟩ => ?_
  obtain ⟨kept, notRet⟩ := keeps.run all (fun _ : True => noReturn) ran
  specialize notRet trivial
  cases x with
  | next => exact behind s' kept
  | branch d => exact leaves _ _ nofun notRet kept
  | ret => exact absurd rfl notRet
  | trap e => exact leaves _ _ nofun notRet kept

end Lang

end Relon.Control
