import Mathlib.Data.Option.Basic

/-! Effectful programs.

A program is a tree of requests: it returns, fails with an error another program
may catch, is cut off, or sends a request and continues with the reply. What a
request does is said once, by a handler over a state, and a fact about every run
follows from the same fact about a single request: code written against this
type needs no invariant proof of its own. A recursive call may be a request too,
answered by a handler for calls one level down. -/
namespace Relon

universe u v

inductive Prog (Op : Type → Type u) (ε α : Type) : Type (max 1 u) where
  | ret (a : α)
  | fail (e : ε)
  /-- No result, and nothing that could be caught. -/
  | cut
  | request {β : Type} (op : Op β) (k : β → Prog Op ε α)

namespace Prog

variable {Op : Type → Type u} {Op' : Type → Type v} {ε α β σ : Type}

protected def bind (x : Prog Op ε α) (f : α → Prog Op ε β) : Prog Op ε β :=
  match x with
  | ret a => f a
  | fail e => fail e
  | cut => cut
  | request op k => request op fun b => (k b).bind f

instance : Monad (Prog Op ε) where
  pure := ret
  bind := Prog.bind

/-- Send one request. -/
def send (op : Op β) : Prog Op ε β := request op ret

/-- The outcome of `x` as a value: Rust code that matches on a `Result` instead
of propagating it. What `x` did before failing stays done. -/
def attempt : Prog Op ε α → Prog Op ε (Except ε α)
  | ret a => ret (.ok a)
  | fail e => ret (.error e)
  | cut => cut
  | request op k => request op fun b => (k b).attempt

/-- Replay a program's requests as programs over another set of requests. -/
def translate (h : ∀ {β : Type}, Op β → Prog Op' ε β) : Prog Op ε α → Prog Op' ε α
  | ret a => ret a
  | fail e => fail e
  | cut => cut
  | request op k => (h op).bind fun b => (k b).translate h

def ofExcept : Except ε α → Prog Op ε α
  | .ok a => ret a
  | .error e => fail e

@[simp] theorem pure_eq_ret (a : α) : (pure a : Prog Op ε α) = ret a := rfl

@[simp] theorem ret_bind (a : α) (f : α → Prog Op ε β) : (ret a >>= f) = f a := rfl

@[simp] theorem fail_bind (e : ε) (f : α → Prog Op ε β) : ((fail e : Prog Op ε α) >>= f) = fail e :=
  rfl

@[simp] theorem cut_bind (f : α → Prog Op ε β) : ((cut : Prog Op ε α) >>= f) = cut := rfl

theorem bind_ret (x : Prog Op ε α) : (x >>= fun a => ret a) = x := by
  induction x with
  | ret a => rfl
  | fail e => rfl
  | cut => rfl
  | request op k ih => exact congrArg (request op) (funext ih)

theorem bind_assoc {γ : Type} (x : Prog Op ε α) (f : α → Prog Op ε β) (g : β → Prog Op ε γ) :
    (x >>= f) >>= g = x >>= fun a => f a >>= g := by
  induction x with
  | ret a => rfl
  | fail e => rfl
  | cut => rfl
  | request op k ih => exact congrArg (request op) (funext ih)

instance : LawfulMonad (Prog Op ε) :=
  LawfulMonad.mk' _ bind_ret (fun _ _ => rfl) bind_assoc

/-! ### Runs -/

/-- What each request replies and leaves behind, if it is answered. -/
abbrev Handler (Op : Type → Type u) (σ : Type) := (β : Type) → Op β → σ → Option (β × σ)

variable (h : Handler Op σ)

def run : Prog Op ε α → σ → Option (Except ε α × σ)
  | ret a, s => some (.ok a, s)
  | fail e, s => some (.error e, s)
  | cut, _ => none
  | request op k, s =>
    match h _ op s with
    | none => none
    | some (b, t) => run (k b) t

@[simp] theorem run_ret (a : α) (s : σ) : run h (ret a : Prog Op ε α) s = some (.ok a, s) := rfl

@[simp] theorem run_fail (e : ε) (s : σ) :
    run h (fail e : Prog Op ε α) s = some (.error e, s) := rfl

@[simp] theorem run_cut (s : σ) : run h (cut : Prog Op ε α) s = none := rfl

theorem run_request {op : Op β} {s t : σ} {b : β} (answer : h _ op s = some (b, t))
    (k : β → Prog Op ε α) : run h (request op k) s = run h (k b) t := by
  rw [run, answer]

theorem run_send (op : Op β) (s : σ) :
    run h (send op : Prog Op ε β) s = (h _ op s).map fun r => (.ok r.1, r.2) := by
  rw [send, run]
  cases h _ op s <;> rfl

/-- Sequencing: the second program runs where the first one stopped, and not at
all when the first one failed. -/
theorem run_bind (x : Prog Op ε α) (f : α → Prog Op ε β) (s : σ) :
    run h (x >>= f) s = (run h x s).bind fun r =>
      match r.1 with
      | .ok a => run h (f a) r.2
      | .error e => some (.error e, r.2) := by
  induction x generalizing s with
  | ret a => rfl
  | fail e => rfl
  | cut => rfl
  | request op k ih =>
    show run h (request op fun b => k b >>= f) s = _
    rw [run, run]
    cases h _ op s with
    | none => rfl
    | some r => exact ih _ _

theorem run_attempt (x : Prog Op ε α) (s : σ) :
    run h x.attempt s = (run h x s).map fun r => (.ok r.1, r.2) := by
  induction x generalizing s with
  | ret a => rfl
  | fail e => rfl
  | cut => rfl
  | request op k ih =>
    rw [attempt, run, run]
    cases h _ op s with
    | none => rfl
    | some r => exact ih _ _

/-- A run that succeeds passes through a success of its first part. -/
theorem run_bind_ok {x : Prog Op ε α} {f : α → Prog Op ε β} {s t : σ} {b : β} :
    run h (x >>= f) s = some (.ok b, t) ↔
      ∃ a m, run h x s = some (.ok a, m) ∧ run h (f a) m = some (.ok b, t) := by
  rw [run_bind]
  cases hx : run h x s with
  | none => simp
  | some r =>
    obtain ⟨r, m⟩ := r
    cases r with
    | error e => simp
    | ok a =>
      simp only [Option.bind_some, Option.some.injEq, Prod.mk.injEq, Except.ok.injEq]
      constructor
      · intro hf
        exact ⟨a, m, ⟨rfl, rfl⟩, hf⟩
      · intro ⟨_, _, ⟨ha, hm⟩, hf⟩
        subst ha hm
        exact hf

variable {h} {h' : Handler Op σ}

/-- Every run stays within a reflexive, transitive relation that each single
request stays within: the induction over runs, done once. -/
theorem run_within {R : σ → σ → Prop} (refl : ∀ s, R s s) (trans : ∀ {s t u}, R s t → R t u → R s u)
    (step : ∀ {β : Type} {op : Op β} {s t : σ} {b : β}, h β op s = some (b, t) → R s t)
    {x : Prog Op ε α} {s t : σ} {r : Except ε α} (run : run h x s = some (r, t)) : R s t := by
  induction x generalizing s with
  | ret a => cases run; exact refl _
  | fail e => cases run; exact refl _
  | cut => cases run
  | request op k ih =>
    rw [Prog.run] at run
    cases answer : h _ op s with
    | none => rw [answer] at run; cases run
    | some r =>
      rw [answer] at run
      exact trans (step answer) (ih _ run)

/-- A handler that answers whatever another one answers, and answers it alike,
finishes every run the other one finishes. -/
theorem run_mono (le : ∀ {β : Type} {op : Op β} {s : σ} {r : β × σ},
      h β op s = some r → h' β op s = some r)
    {x : Prog Op ε α} {s : σ} {r : Except ε α × σ} (run : run h x s = some r) :
    Prog.run h' x s = some r := by
  induction x generalizing s with
  | ret a => exact run
  | fail e => exact run
  | cut => cases run
  | request op k ih =>
    rw [Prog.run] at run ⊢
    cases answer : h _ op s with
    | none => rw [answer] at run; cases run
    | some r =>
      rw [answer] at run
      rw [le answer]
      exact ih _ run

/-! ### Runs under a standing condition -/

/-- `P` holds of every state a run passes through. -/
def Stays (h : Handler Op σ) (P : σ → Prop) : Prog Op ε α → σ → Prop
  | ret _, s => P s
  | fail _, s => P s
  | cut, s => P s
  | request op k, s => P s ∧ ∀ b t, h _ op s = some (b, t) → Stays h P (k b) t

/-- A run that succeeds, passing only through states where `P` holds. -/
structure Yields (h : Handler Op σ) (P : σ → Prop) (x : Prog Op ε α) (s : σ) (a : α) (t : σ) :
    Prop where
  run : run h x s = some (.ok a, t)
  stays : Stays h P x s

variable {P : σ → Prop}

variable {x : Prog Op ε α} {s t : σ} {f : α → Prog Op ε β} {b : β} {a : α}

theorem Stays.start (stays : Stays h P x s) : P s := by
  cases x with
  | request op k => exact stays.1
  | _ => exact stays

theorem Stays.of_bind (stays : Stays h P (x >>= f) s) :
    Stays h P x s ∧ ∀ a t, Prog.run h x s = some (.ok a, t) → Stays h P (f a) t := by
  induction x generalizing s with
  | ret a =>
    refine ⟨stays.start, fun b t run => ?_⟩
    cases run
    exact stays
  | fail e => exact ⟨stays, fun b t run => nomatch run⟩
  | cut => exact ⟨stays, fun b t run => nomatch run⟩
  | request op k ih =>
    refine ⟨⟨stays.1, fun b t reply => (ih b (stays.2 b t reply)).1⟩, fun a t run => ?_⟩
    rw [Prog.run] at run
    cases reply : h _ op s with
    | none => rw [reply] at run; cases run
    | some r =>
      rw [reply] at run
      exact (ih r.1 (stays.2 r.1 r.2 reply)).2 a t run

/-- A success of two programs in sequence is a success of each. -/
theorem Yields.of_bind (y : Yields h P (x >>= f) s b t) :
    ∃ a m, Yields h P x s a m ∧ Yields h P (f a) m b t := by
  obtain ⟨a, m, first, second⟩ := (run_bind_ok h).mp y.run
  obtain ⟨before, after⟩ := y.stays.of_bind
  exact ⟨a, m, ⟨first, before⟩, second, after a m first⟩

theorem Yields.of_ret {a b : α} (y : Yields h P (ret a : Prog Op ε α) s b t) : a = b ∧ s = t := by
  have run := y.run
  cases run
  exact ⟨rfl, rfl⟩

theorem Yields.of_ofExcept {r : Except ε α} (y : Yields h P (ofExcept r : Prog Op ε α) s a t) :
    r = .ok a ∧ s = t := by
  cases r with
  | ok b =>
    obtain ⟨same, ends⟩ := y.of_ret
    exact ⟨congrArg _ same, ends⟩
  | error e => cases y.run

theorem Stays.bind (first : Stays h P x s)
    (next : ∀ a t, Prog.run h x s = some (.ok a, t) → Stays h P (f a) t) :
    Stays h P (x >>= f) s := by
  induction x generalizing s with
  | ret a => exact next a s rfl
  | fail e => exact first
  | cut => exact first
  | request op k ih =>
    refine ⟨first.1, fun b t reply => ih b (first.2 b t reply) fun a u run => next a u ?_⟩
    rw [run_request h reply]
    exact run

theorem Yields.bind {s m t : σ} (first : Yields h P x s a m) (next : Yields h P (f a) m b t) :
    Yields h P (x >>= f) s b t := by
  refine ⟨(run_bind_ok h).mpr ⟨a, m, first.run, next.run⟩, first.stays.bind fun a' t' run => ?_⟩
  rw [first.run] at run
  cases run
  exact next.stays

theorem Yields.ret (holds : P s) (a : α) : Yields h P (ret a : Prog Op ε α) s a s :=
  ⟨rfl, holds⟩

/-- The condition holds where a run ends. -/
theorem Yields.ends (y : Yields h P x s a t) : P t := by
  have stays : Stays h P (x >>= fun a => Prog.ret a) s := by rw [bind_ret]; exact y.stays
  exact stays.of_bind.2 a t y.run

theorem Yields.of_fail {e : ε} (y : Yields h P (fail e : Prog Op ε α) s a t) :
    False := nomatch y.run

end Prog

end Relon
