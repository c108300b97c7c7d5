import Relon.Lib.Prog
import Mathlib.Order.Defs.PartialOrder

/-! Total correctness of programs whose calls are requests.

Handlers come in a tower: a request answered with calls nested so deep is answered
alike when they may nest deeper. A program *ends* when some depth suffices. A
specification speaks of worlds, states with whatever is known of them; it says
which worlds a success leads to, and that the program succeeds when it has to. -/
namespace Relon.Prog

universe u

variable {Op : Type → Type u} {ε α β σ : Type}

structure Tower (Op : Type → Type u) (σ : Type) where
  handler : Nat → Handler Op σ
  mono : ∀ {m n : Nat}, m ≤ n → ∀ {β : Type} {op : Op β} {s : σ} {r : β × σ},
    handler m β op s = some r → handler n β op s = some r

namespace Tower

variable (T : Tower Op σ)

/-- Some depth suffices for this outcome. -/
def Ends (x : Prog Op ε α) (s : σ) (out : Except ε α) (t : σ) : Prop :=
  ∃ n, x.run (T.handler n) s = some (out, t)

variable {T} {x : Prog Op ε α} {s t m : σ} {out : Except ε α}

theorem Ends.from_some (h : T.Ends x s out t) :
    ∃ n, ∀ k, n ≤ k → x.run (T.handler k) s = some (out, t) := by
  obtain ⟨n, run⟩ := h
  exact ⟨n, fun k le => run_mono (T.mono le) run⟩

theorem Ends.ret (a : α) (s : σ) : T.Ends (ret a : Prog Op ε α) s (.ok a) s := ⟨0, rfl⟩

theorem Ends.fail (e : ε) (s : σ) : T.Ends (fail e : Prog Op ε α) s (.error e) s := ⟨0, rfl⟩

theorem Ends.bind {f : α → Prog Op ε β} {a : α} {out : Except ε β} (first : T.Ends x s (.ok a) m)
    (second : T.Ends (f a) m out t) : T.Ends (x >>= f) s out t := by
  obtain ⟨n₁, first⟩ := first.from_some
  obtain ⟨n₂, second⟩ := second.from_some
  refine ⟨max n₁ n₂, ?_⟩
  rw [run_bind, first _ (Nat.le_max_left _ _)]
  exact second _ (Nat.le_max_right _ _)

theorem Ends.bind_error {f : α → Prog Op ε β} {e : ε} (first : T.Ends x s (.error e) t) :
    T.Ends (x >>= f) s (.error e) t := by
  obtain ⟨n, first⟩ := first
  exact ⟨n, by rw [run_bind, first]; rfl⟩

/-! ### Specifications over worlds -/

variable {W : Type} [Preorder W] (state : W → σ) (Blamed : ε → Prop)

/-- From the world `w` the program ends. It succeeds if success is `due`, every
success is at a later world where the postcondition holds, and what it fails with
is to blame. -/
def Meets (T : Tower Op σ) (x : Prog Op ε α) (w : W) (due : Prop) (Q : α → W → Prop) : Prop :=
  ∃ out t, T.Ends x (state w) out t ∧ (due → ∃ a, out = .ok a) ∧
    (∀ a, out = .ok a → ∃ w', w ≤ w' ∧ state w' = t ∧ Q a w') ∧ ∀ e, out = .error e → Blamed e

variable {state Blamed} {w : W} {due : Prop} {Q : α → W → Prop}

theorem Meets.of_ends {a : α} {t : σ} (ends : T.Ends x (state w) (.ok a) t)
    (post : ∃ w', w ≤ w' ∧ state w' = t ∧ Q a w') : T.Meets state Blamed x w due Q := by
  refine ⟨.ok a, t, ends, fun _ => ⟨a, rfl⟩, fun b same => ?_, nofun⟩
  cases same
  exact post

theorem Meets.ret {a : α} (h : Q a w) : T.Meets state Blamed (Prog.ret a : Prog Op ε α) w due Q :=
  .of_ends (Ends.ret a _) ⟨w, le_refl w, rfl, h⟩

theorem Meets.fail {e : ε} (h : ¬ due) (blamed : Blamed e) :
    T.Meets state Blamed (Prog.fail e : Prog Op ε α) w due Q := by
  refine ⟨.error e, state w, Ends.fail e _, fun d => absurd d h, nofun, fun e' same => ?_⟩
  cases same
  exact blamed

theorem Meets.bind {f : α → Prog Op ε β} {due' : Prop} {Q' : β → W → Prop}
    (first : T.Meets state Blamed x w due Q) (need : due' → due)
    (second : ∀ a w', w ≤ w' → Q a w' → T.Meets state Blamed (f a) w' due' Q') :
    T.Meets state Blamed (x >>= f) w due' Q' := by
  obtain ⟨out, m, ends, must, post, blamed⟩ := first
  cases out with
  | error e =>
    refine ⟨.error e, m, ends.bind_error, fun d => ?_, nofun, fun e' same => ?_⟩
    · obtain ⟨a, same⟩ := must (need d)
      cases same
    · cases same
      exact blamed e rfl
  | ok a =>
    obtain ⟨w', le, rfl, q⟩ := post a rfl
    obtain ⟨out, t, ends', must', post', blamed'⟩ := second a w' le q
    refine ⟨out, t, ends.bind ends', must', fun b same => ?_, blamed'⟩
    obtain ⟨w'', le', at_, q'⟩ := post' b same
    exact ⟨w'', le_trans le le', at_, q'⟩

theorem Meets.mono {due' : Prop} {Q' : α → W → Prop} (h : T.Meets state Blamed x w due Q)
    (need : due' → due) (post : ∀ a w', w ≤ w' → Q a w' → Q' a w') :
    T.Meets state Blamed x w due' Q' := by
  obtain ⟨out, t, ends, must, reached, blamed⟩ := h
  refine ⟨out, t, ends, must ∘ need, fun a same => ?_, blamed⟩
  obtain ⟨w', le, at_, q⟩ := reached a same
  exact ⟨w', le, at_, post a w' le q⟩

end Tower

end Relon.Prog
