import Mathlib.Data.Nat.Find

/-! Values known by finite approximations.

A recursive definition that need not terminate gives a value up to each depth, or
none yet; a deeper look never changes an answer. Such families compose like
partial values, and they can be compared by how deep one has to look: a value
found before another one cannot depend on it. -/
namespace Relon
open Option

structure Approx (α : Type) where
  upTo : Nat → Option α
  mono : ∀ {m n : Nat} {a : α}, m ≤ n → upTo m = some a → upTo n = some a

namespace Approx

variable {α β ι : Type} {a : Approx α} {x y : α}

@[ext] theorem ext {a b : Approx α} (h : ∀ n, a.upTo n = b.upTo n) : a = b := by
  cases a
  cases b
  congr
  exact funext h

/-- The value found at some depth. -/
def Has (a : Approx α) (x : α) : Prop := ∃ n, a.upTo n = some x

theorem Has.unique (hx : a.Has x) (hy : a.Has y) : x = y := by
  obtain ⟨m, hx⟩ := hx
  obtain ⟨n, hy⟩ := hy
  have h := a.mono (Nat.le_max_left m n) hx
  rw [a.mono (Nat.le_max_right m n) hy] at h
  exact (Option.some.inj h).symm

/-- A value known without looking, if there is one. -/
def known (o : Option α) : Approx α := ⟨fun _ => o, fun _ h => h⟩

@[simp] theorem has_known {o : Option α} : (known o).Has x ↔ o = some x :=
  ⟨fun ⟨_, h⟩ => h, fun h => ⟨0, h⟩⟩

protected def bind (a : Approx α) (f : α → Approx β) : Approx β where
  upTo n := (a.upTo n).bind fun x => (f x).upTo n
  mono le h := by
    obtain ⟨x, hx, hy⟩ := bind_eq_some_iff.mp h
    exact bind_eq_some_iff.mpr ⟨x, a.mono le hx, (f x).mono le hy⟩

theorem has_bind {f : α → Approx β} {z : β} : (a.bind f).Has z ↔ ∃ x, a.Has x ∧ (f x).Has z := by
  constructor
  · rintro ⟨n, h⟩
    obtain ⟨x, hx, hz⟩ := bind_eq_some_iff.mp h
    exact ⟨x, ⟨n, hx⟩, n, hz⟩
  · rintro ⟨x, ⟨m, hx⟩, n, hz⟩
    exact ⟨max m n, bind_eq_some_iff.mpr
      ⟨x, a.mono (Nat.le_max_left m n) hx, (f x).mono (Nat.le_max_right m n) hz⟩⟩

/-- The same value, one level deeper. -/
def deeper (a : Approx α) : Approx α where
  upTo
    | 0 => none
    | n + 1 => a.upTo n
  mono {m n} _ le h := by
    cases m with
    | zero => cases h
    | succ m =>
      cases n with
      | zero => cases le
      | succ n => exact a.mono (Nat.le_of_succ_le_succ le) h

@[simp] theorem has_deeper : a.deeper.Has x ↔ a.Has x := by
  constructor
  · rintro ⟨_ | n, h⟩
    · cases h
    · exact ⟨n, h⟩
  · rintro ⟨n, h⟩
    exact ⟨n + 1, h⟩

/-- What is made of itself alone is never found. -/
theorem not_has_of_deeper {f : α → Approx α} (made : a = (a.bind f).deeper) : ¬ a.Has x := by
  rintro ⟨n, h⟩
  induction n generalizing x with
  | zero => rw [made] at h; cases h
  | succ n ih =>
    rw [made] at h
    obtain ⟨y, hy, -⟩ := bind_eq_some_iff.mp h
    exact ih hy

/-! ### What is found first -/

/-- A value is found at a depth where none of the others is. -/
def Before (a : Approx α) (others : ι → Approx β) (late : List ι) : Prop :=
  ∃ n, (a.upTo n).isSome ∧ ∀ i ∈ late, (others i).upTo n = none

variable {others : ι → Approx β} {late : List ι}

theorem Has.before_nil (h : a.Has x) : a.Before others [] := by
  obtain ⟨n, h⟩ := h
  exact ⟨n, isSome_of_eq_some h, fun _ none => absurd none List.not_mem_nil⟩

theorem Before.has (h : a.Before others late) : ∃ x, a.Has x := by
  obtain ⟨n, found, _⟩ := h
  obtain ⟨x, hx⟩ := isSome_iff_exists.mp found
  exact ⟨x, n, hx⟩

theorem Before.not_late {i : ι} (h : (others i).Before others late) : i ∉ late := by
  obtain ⟨n, found, none⟩ := h
  intro hi
  rw [none i hi] at found
  cases found

theorem Before.fst {γ : Type} {f : α → Approx γ} (h : (a.bind f).Before others late) : a.Before others late := by
  obtain ⟨n, found, none⟩ := h
  exact ⟨n, isSome_of_isSome_bind found, none⟩

theorem Before.snd {γ : Type} {f : α → Approx γ} (h : (a.bind f).Before others late)
    (hx : a.Has x) : (f x).Before others late := by
  obtain ⟨n, found, none⟩ := h
  obtain ⟨z, hz⟩ := isSome_iff_exists.mp found
  obtain ⟨y, hy, hz⟩ := bind_eq_some_iff.mp hz
  cases hx.unique ⟨n, hy⟩
  exact ⟨n, isSome_of_eq_some hz, none⟩

/-- At the depth where a value first appears, what it is made of is already found and
the value itself is not. -/
theorem Before.enter {a : Approx β} {i : ι} (made : others i = a.deeper)
    (h : (others i).Before others late) : a.Before others (i :: late) := by
  classical
  obtain ⟨n, found, none⟩ := h
  rw [made] at found
  have appears : ∃ n, (a.deeper.upTo n).isSome := ⟨n, found⟩
  have reached : Nat.find appears ≤ n := Nat.find_min' appears found
  have here := Nat.find_spec appears
  cases least : Nat.find appears with
  | zero =>
    rw [least] at here
    cases here
  | succ m =>
    rw [least] at here reached
    refine ⟨m, here, fun j hj => ?_⟩
    cases List.mem_cons.mp hj with
    | inl same =>
      rw [same, made]
      exact not_isSome_iff_eq_none.mp (Nat.find_min appears (by omega))
    | inr before =>
      cases early : (others j).upTo m with
      | none => rfl
      | some b =>
        have later := (others j).mono (Nat.le_of_succ_le reached) early
        rw [none j before] at later
        cases later

end Approx

end Relon
