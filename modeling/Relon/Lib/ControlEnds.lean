import Relon.Lib.Control

/-! Structured code that ends.

`Ends` says that some budget is enough to finish, and what the exit and the state then
satisfy. A run with enough budget does not depend on it, so a finished run is the only
one; the rule for a loop asks for a measure that falls with every round. -/
namespace Relon.Control

namespace Lang

variable {P S E : Type} {L : Lang P S E} {c d rest body : List (Code P)} {s : S}
  {Q R : Exit E → S → Prop}

/-! ### More budget -/

variable {out : Exit E × S} {fuel depth : Nat} {s₁ : S} {p : P}

theorem labelled_mono {r r' : Option (Exit E × S)} {f f' g g' : S → Option (Exit E × S)}
    (ran : labelled r f g = some out) (hr : ∀ o, r = some o → r' = some o)
    (hf : ∀ s, f s = some out → f' s = some out) (hg : ∀ s, g s = some out → g' s = some out) :
    labelled r' f' g' = some out := by
  cases r with
  | none => cases ran
  | some o =>
    rw [hr o rfl]
    unfold labelled at ran ⊢
    split at ran
    · cases ran
    · rename_i s' same
      cases same
      exact hf _ ran
    · rename_i s' same
      cases same
      exact hg _ ran
    · rename_i x s' notNext notHere same
      cases same
      exact ran

theorem run_succ (ran : L.run fuel c s = some out) : L.run (fuel + 1) c s = some out := by
  induction fuel generalizing c s out with
  | zero => simp [run] at ran
  | succ fuel ih =>
    cases c with
    | nil => exact ran
    | cons i rest =>
      cases i with
      | prim p =>
        rw [run] at ran ⊢
        cases stepped : L.step p s with
        | none => simp [stepped] at ran
        | some r =>
          cases r with
          | error e => simpa [stepped] using ran
          | ok s₁ => simp only [stepped] at ran ⊢; exact ih ran
      | block body =>
        rw [run] at ran ⊢
        exact labelled_mono ran (fun _ => ih) (fun _ => ih) fun _ => ih
      | loop body =>
        rw [run] at ran ⊢
        exact labelled_mono ran (fun _ => ih) (fun _ => ih) fun _ => ih
      | ite then_ else_ =>
        rw [run] at ran ⊢
        cases tested : L.test s with
        | none => simp [tested] at ran
        | some r =>
          simp only [tested] at ran ⊢
          exact labelled_mono ran (fun _ => ih) (fun _ => ih) fun _ none => by cases none
      | br d => exact ran
      | brIf d =>
        rw [run] at ran ⊢
        cases tested : L.test s with
        | none => simp [tested] at ran
        | some r =>
          obtain ⟨b, s₁⟩ := r
          cases b with
          | true => simpa [tested] using ran
          | false => simp only [tested] at ran ⊢; exact ih ran
      | ret => exact ran

theorem run_mono {fuel more : Nat} (enough : fuel ≤ more) (ran : L.run fuel c s = some out) :
    L.run more c s = some out := by
  induction enough with
  | refl => exact ran
  | step _ ih => exact run_succ ih

/-- A finished run is the only one. -/
theorem Finishes.unique {x y : Exit E} {s₁ s₂ : S} (first : L.Finishes c s x s₁)
    (second : L.Finishes c s y s₂) : x = y ∧ s₁ = s₂ := by
  obtain ⟨n, ran⟩ := first
  obtain ⟨m, ran'⟩ := second
  have both := (run_mono (Nat.le_max_left n m) ran).symm.trans (run_mono (Nat.le_max_right n m) ran')
  simpa using both

/-! ### Ending -/

/-- Some budget is enough, and the run then satisfies `Q`. -/
def Ends (L : Lang P S E) (c : List (Code P)) (s : S) (Q : Exit E → S → Prop) : Prop :=
  ∃ x s', L.Finishes c s x s' ∧ Q x s'

theorem Ends.mono (ends : L.Ends c s Q) (weaker : ∀ x s', Q x s' → R x s') : L.Ends c s R := by
  obtain ⟨x, s', finished, holds⟩ := ends
  exact ⟨x, s', finished, weaker x s' holds⟩

/-- What one finished run satisfies, every one does. -/
theorem Ends.safe (ends : L.Ends c s Q) : L.Safe c s Q := by
  obtain ⟨x, s', finished, holds⟩ := ends
  intro y s₂ second
  obtain ⟨rfl, rfl⟩ := finished.unique second
  exact holds

theorem Ends.nil (done : Q .next s) : L.Ends [] s Q := ⟨.next, s, ⟨1, rfl⟩, done⟩

theorem Ends.prim (stepped : L.step p s = some (.ok s₁)) (behind : L.Ends rest s₁ Q) :
    L.Ends (.prim p :: rest) s Q := by
  obtain ⟨x, s', ⟨fuel, ran⟩, holds⟩ := behind
  exact ⟨x, s', ⟨fuel + 1, by simpa [run, stepped] using ran⟩, holds⟩

theorem Ends.trap {e : E} (stepped : L.step p s = some (.error e)) (holds : Q (.trap e) s) :
    L.Ends (.prim p :: rest) s Q :=
  ⟨.trap e, s, ⟨1, by simp [run, stepped]⟩, holds⟩

theorem Ends.br (left : Q (.branch depth) s) : L.Ends (.br depth :: rest) s Q :=
  ⟨.branch depth, s, ⟨1, rfl⟩, left⟩

theorem Ends.ret (left : Q .ret s) : L.Ends (.ret :: rest) s Q := ⟨.ret, s, ⟨1, rfl⟩, left⟩

theorem Ends.brIf_taken (tested : L.test s = some (true, s₁)) (left : Q (.branch depth) s₁) :
    L.Ends (.brIf depth :: rest) s Q :=
  ⟨.branch depth, s₁, ⟨1, by simp [run, tested]⟩, left⟩

theorem Ends.brIf_passed (tested : L.test s = some (false, s₁)) (behind : L.Ends rest s₁ Q) :
    L.Ends (.brIf depth :: rest) s Q := by
  obtain ⟨x, s', ⟨fuel, ran⟩, holds⟩ := behind
  exact ⟨x, s', ⟨fuel + 1, by simpa [run, tested] using ran⟩, holds⟩

/-- What must hold of a body's exits for the code around it to end. -/
def onward (L : Lang P S E) (rest : List (Code P)) (Q : Exit E → S → Prop) (target : S → Prop) :
    Exit E → S → Prop
  | .next, s' => L.Ends rest s' Q
  | .branch 0, s' => target s'
  | x, s' => Q (outward x) s'

/-- The code around a labelled body ends: its run is put together from the body's and what
follows it. -/
theorem onward_labelled (at_ : Nat → S → Option (Exit E × S)) {target : S → Prop} {x : Exit E}
    (ran : L.run fuel body s = some (x, s₁)) (left : L.onward rest Q target x s₁)
    (arrives : ∀ s', target s' → ∃ more y s₂, at_ more s' = some (y, s₂) ∧ Q y s₂ ∧
      ∀ n, more ≤ n → at_ n s' = some (y, s₂)) :
    ∃ more y s₂, labelled (L.run more body s) (L.run more rest) (at_ more) = some (y, s₂) ∧ Q y s₂ := by
  match x with
  | .next =>
    obtain ⟨y, s₂, ⟨n, on⟩, holds⟩ := left
    refine ⟨max fuel n, y, s₂, ?_, holds⟩
    rw [run_mono (Nat.le_max_left fuel n) ran]
    exact run_mono (Nat.le_max_right fuel n) on
  | .branch 0 =>
    obtain ⟨more, y, s₂, -, holds, stays⟩ := arrives s₁ left
    refine ⟨max fuel more, y, s₂, ?_, holds⟩
    rw [run_mono (Nat.le_max_left fuel more) ran]
    exact stays _ (Nat.le_max_right fuel more)
  | .branch (depth + 1) => exact ⟨fuel, .branch depth, s₁, by rw [ran]; rfl, left⟩
  | .ret => exact ⟨fuel, .ret, s₁, by rw [ran]; rfl, left⟩
  | .trap e => exact ⟨fuel, .trap e, s₁, by rw [ran]; rfl, left⟩

/-- Code that ends can be reached by a branch. -/
theorem Ends.arrives (ends : L.Ends c s Q) : ∃ more y s₂, L.run more c s = some (y, s₂) ∧ Q y s₂ ∧
      ∀ n, more ≤ n → L.run n c s = some (y, s₂) := by
  obtain ⟨y, s₂, ⟨more, ran⟩, holds⟩ := ends
  exact ⟨more, y, s₂, ran, holds, fun _ enough => run_mono enough ran⟩

theorem Ends.block
    (inside : L.Ends body s (L.onward rest Q fun s' => L.Ends rest (L.leave s s') Q)) :
    L.Ends (.block body :: rest) s Q := by
  obtain ⟨x, s₁, ⟨fuel, ran⟩, left⟩ := inside
  obtain ⟨more, y, s₂, on, holds⟩ := onward_labelled (fun n s' => L.run n rest (L.leave s s'))
    ran left fun s' ends => ends.arrives
  exact ⟨y, s₂, ⟨more + 1, by rw [run]; exact on⟩, holds⟩

theorem Ends.ite {then_ else_ : List (Code P)} {b : Bool} (tested : L.test s = some (b, s₁))
    (inside : L.Ends (if b then then_ else else_) s₁ (L.onward rest Q fun _ => False)) :
    L.Ends (.ite then_ else_ :: rest) s Q := by
  obtain ⟨x, s₂, ⟨fuel, ran⟩, left⟩ := inside
  obtain ⟨more, y, s₃, on, holds⟩ := onward_labelled (fun _ _ => none) ran left
    fun s' never => never.elim
  exact ⟨y, s₃, ⟨more + 1, by rw [run, tested]; exact on⟩, holds⟩

/-- The rule of variants: an invariant holds at the loop's start and whenever the body branches
back there, with a smaller measure. Both may speak of a value the code does not keep. -/
theorem Ends.loop_ghost {A : Type} (I : A → S → Prop) (measure : A → Nat) {a : A} (start : I a s)
    (inside : ∀ a s, I a s → L.Ends body s (L.onward rest Q fun s' =>
      ∃ b, I b (L.leave s s') ∧ measure b < measure a)) : L.Ends (.loop body :: rest) s Q := by
  generalize size : measure a = n
  induction n using Nat.strongRecOn generalizing a s with
  | ind n ih =>
    obtain ⟨x, s₁, ⟨fuel, ran⟩, left⟩ := inside a s start
    obtain ⟨more, y, s₂, on, holds⟩ := onward_labelled
      (fun n s' => L.run n (.loop body :: rest) (L.leave s s')) ran left
      fun s' ⟨b, again, smaller⟩ => (ih _ (size ▸ smaller) again rfl).arrives
    exact ⟨y, s₂, ⟨more + 1, by rw [run]; exact on⟩, holds⟩

theorem Ends.loop (I : S → Prop) (measure : S → Nat) (start : I s)
    (inside : ∀ s, I s → L.Ends body s (L.onward rest Q fun s' =>
      I (L.leave s s') ∧ measure (L.leave s s') < measure s)) :
    L.Ends (.loop body :: rest) s Q := by
  refine Ends.loop_ghost (fun b s => s = b ∧ I s) measure ⟨rfl, start⟩ fun b s here => ?_
  obtain ⟨rfl, holds⟩ := here
  refine (inside s holds).mono fun x s' left => ?_
  match x with
  | .branch 0 => exact ⟨_, ⟨rfl, left.1⟩, left.2⟩
  | .branch (depth + 1) => exact left
  | .next => exact left
  | .ret => exact left
  | .trap e => exact left

end Lang

end Relon.Control
