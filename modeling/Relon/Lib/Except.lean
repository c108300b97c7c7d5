import Mathlib.Data.List.Forall2

/-! Successful runs of `Except` code: what each combinator's success says about
its parts. Proofs peel a computation apart with these and never unfold the
monad. -/
namespace Relon.Except
open List

variable {ε α β σ : Type}

/-- Rust's `Option::ok_or`. -/
def okOr (o : Option α) (e : ε) : Except ε α :=
  match o with
  | some a => .ok a
  | none => .error e

variable {a : α} {e : ε} {x : Except ε α} {f : α → Except ε β} {b : β} {l : List α} {r : List β}

@[simp] theorem okOr_some : okOr (some a) e = .ok a := rfl

@[simp] theorem okOr_none : okOr (none : Option α) e = .error e := rfl

@[simp] theorem okOr_eq_ok {o : Option α} : okOr o e = .ok a ↔ o = some a := by
  cases o <;> simp [okOr]

/-- A check that fails with `e`. -/
def ensure (p : Prop) [Decidable p] (e : ε) : Except ε Unit := if p then .ok () else .error e

@[simp] theorem ensure_eq_ok {p : Prop} [Decidable p] {u : Unit} : ensure p e = .ok u ↔ p := by
  by_cases h : p <;> simp [ensure, h]

theorem bind_eq_ok : (x >>= f) = .ok b ↔ ∃ a, x = .ok a ∧ f a = .ok b := by
  cases x with
  | error e => simp [bind, Except.bind]
  | ok a => simp [bind, Except.bind]

@[simp] theorem ok_bind : ((.ok a : Except ε α) >>= f) = f a := rfl

@[simp] theorem error_bind : ((.error e : Except ε α) >>= f) = .error e := rfl

@[simp] theorem pure_eq_ok : (pure a : Except ε α) = .ok a := rfl

theorem pure_eq_iff {b : α} : (pure a : Except ε α) = .ok b ↔ a = b := by
  rw [pure_eq_ok, Except.ok.injEq]

theorem map_eq_ok {f : α → β} : x.map f = .ok b ↔ ∃ a, x = .ok a ∧ f a = b := by
  cases x <;> simp [Except.map]

theorem mapError_eq_ok {ε' : Type} {f : ε → ε'} : x.mapError f = .ok a ↔ x = .ok a := by
  cases x <;> simp [Except.mapError]

/-- A mapped computation succeeds exactly when it does on every item. -/
theorem mapM_eq_ok : l.mapM f = .ok r ↔ List.Forall₂ (fun a b => f a = .ok b) l r := by
  induction l generalizing r with
  | nil =>
    rw [mapM_nil, pure_eq_iff]
    exact ⟨fun h => h ▸ .nil, fun h => by cases h; rfl⟩
  | cons a l ih =>
    simp only [mapM_cons, bind_eq_ok, pure_eq_iff]
    constructor
    · rintro ⟨b, hb, bs, hbs, rfl⟩
      exact .cons hb (ih.mp hbs)
    · intro h
      cases h with
      | cons hb hbs => exact ⟨_, hb, _, ih.mpr hbs, rfl⟩

theorem forM_eq_ok {f : α → Except ε Unit} : l.forM f = .ok () ↔ ∀ a ∈ l, f a = .ok () := by
  induction l with
  | nil => simp [List.forM]
  | cons a l ih =>
    rw [List.forM, bind_eq_ok, forall_mem_cons]
    exact ⟨fun ⟨_, ha, hl⟩ => ⟨ha, ih.mp hl⟩, fun ⟨ha, hl⟩ => ⟨(), ha, ih.mpr hl⟩⟩

theorem mapM_congr {f g : α → Except ε β} (h : ∀ a ∈ l, f a = g a) : l.mapM f = l.mapM g := by
  induction l with
  | nil => rfl
  | cons a l ih =>
    rw [mapM_cons, mapM_cons, h a (by simp), ih fun b hb => h b (mem_cons_of_mem a hb)]

/-- Mapping the results of a mapped computation maps each of them. -/
theorem mapM_map_results {γ : Type} {g : β → γ} :
    (l.mapM f >>= fun r => .ok (r.map g)) = l.mapM fun a => f a >>= fun b => .ok (g b) := by
  induction l with
  | nil => rfl
  | cons a l ih =>
    rw [mapM_cons, mapM_cons, ← ih]
    cases f a with
    | error e => rfl
    | ok b => cases l.mapM f <;> rfl

/-- Two relations to the same results relate each item to a common one. -/
theorem forall₂_common {R S : α → β → Prop} (h : List.Forall₂ R l r) (h' : List.Forall₂ S l r)
    (ha : a ∈ l) : ∃ b, R a b ∧ S a b := by
  induction h with
  | nil => cases ha
  | cons hab _ ih =>
    cases h' with
    | cons hab' hrest =>
      rcases mem_cons.mp ha with rfl | ha
      · exact ⟨_, hab, hab'⟩
      · exact ih hrest ha

/-- A fold that succeeds keeps what every successful step keeps. -/
theorem foldlM_inv {f : σ → α → Except ε σ} {P : σ → Prop} {s s' : σ} (h : l.foldlM f s = .ok s')
    (hs : P s) (step : ∀ a ∈ l, ∀ s s', P s → f s a = .ok s' → P s') : P s' := by
  induction l generalizing s with
  | nil =>
    cases h
    exact hs
  | cons a rest ih =>
    rw [foldlM_cons, bind_eq_ok] at h
    obtain ⟨s₁, hfirst, hrest⟩ := h
    exact ih hrest (step a (by simp) s s₁ hs hfirst) fun b hb => step b (mem_cons_of_mem a hb)

end Relon.Except
