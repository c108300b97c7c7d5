import Mathlib.Algebra.BigOperators.Group.List.Basic
import Mathlib.Algebra.GroupWithZero.Nat
import Relon.Eval.Run
import Relon.Eval.Stdlib

/-! The step budget.

Every charge of a run adds to one 64-bit counter before it is compared with the
limit. As long as the sum of all that was charged fits in the counter, the
granted part of it stays within the limit and the first refusal is final. The sum
need not fit: a refused `range` has already added its length, which may take the
counter back below the limit, and a type pattern drops the refusal. -/
namespace Relon.Eval

/-- A charge with the counter value it found. -/
abbrev Charged := Charge × UInt64

/-- All that was charged, granted or not. -/
def requested (h : List Charged) : Nat := (h.map fun e => e.1.amount.toNat).sum

def isGranted (limit : UInt64) (e : Charged) : Bool := e.1.granted limit e.2

/-- What was granted. -/
def grantedTotal (limit : UInt64) (h : List Charged) : Nat :=
  requested (h.filter (isGranted limit))

@[simp] theorem requested_nil : requested [] = 0 := rfl

@[simp] theorem requested_cons (e : Charged) (h : List Charged) :
    requested (e :: h) = e.1.amount.toNat + requested h := by simp [requested]

@[simp] theorem requested_append (h h' : List Charged) :
    requested (h ++ h') = requested h + requested h' := by simp [requested]

theorem grantedTotal_cons (limit : UInt64) (e : Charged) (h : List Charged) :
    grantedTotal limit (e :: h) =
      (if isGranted limit e then e.1.amount.toNat else 0) + grantedTotal limit h := by
  by_cases he : isGranted limit e <;> simp [grantedTotal, he]

/-! ### The log of a run -/

/-- Each entry found the counter at the sum of what was charged before it, up to
wrap-around. -/
def Counted : Nat → List Charged → Prop
  | _, [] => True
  | n, (c, prev) :: rest => prev = UInt64.ofNat n ∧ Counted (n + c.amount.toNat) rest

variable {n : Nat} {h : List Charged} {e : Charged} {limit : UInt64}

theorem Counted.snoc (hh : Counted n h) (he : e.2 = UInt64.ofNat (n + requested h)) :
    Counted n (h ++ [e]) := by
  induction h generalizing n with
  | nil => exact ⟨by simpa using he, trivial⟩
  | cons x h ih =>
    refine ⟨hh.1, ih hh.2 ?_⟩
    rw [he, requested_cons, Nat.add_assoc]

/-- The counter and the log agree. -/
structure Metered (σ : Store) : Prop where
  counter : σ.stepCounter = UInt64.ofNat (requested σ.history)
  log : Counted 0 σ.history

theorem Metered.charge {σ : Store} (h : Metered σ) (c : Charge) :
    Metered (σ.perform (.charge c)).2 where
  counter := by
    show σ.stepCounter + c.amount = UInt64.ofNat (requested (σ.history ++ [(c, σ.stepCounter)]))
    rw [h.counter, requested_append, requested_cons, requested_nil, Nat.add_zero, UInt64.ofNat_add,
      UInt64.ofNat_toNat]
  log := by
    show Counted 0 (σ.history ++ [(c, σ.stepCounter)])
    exact h.log.snoc (by rw [h.counter, Nat.zero_add])

/-- Nothing but a charge touches the counter or the log. -/
theorem metered_transition : Transition fun σ τ => Metered σ → Metered τ where
  refl _ h := h
  trans hst htu h := htu (hst h)
  op o σ h := by
    cases o with
    | charge c => exact h.charge c
    | _ => exact ⟨h.counter, h.log⟩
  marked hm h := ⟨(hm ⟨h.counter, h.log⟩).counter, (hm ⟨h.counter, h.log⟩).log⟩
  loading hm h := ⟨(hm ⟨h.counter, h.log⟩).counter, (hm ⟨h.counter, h.log⟩).log⟩
  noted _ _ _ _ hm h := ⟨(hm h).counter, (hm h).log⟩
  slot hm h := ⟨(hm h).counter, (hm h).log⟩

theorem topLevelRun_metered {ctx : Context} {fuel : Nat} {entry : Entry} {scope : OpenScope}
    {σ τ : Store} {out : Except RuntimeError Value}
    (run : topLevelRun ctx fuel entry scope σ = some (out, τ)) : Metered τ :=
  metered_transition.topLevelRun run ⟨rfl, trivial⟩

/-! ### While the counter does not wrap -/

theorem isGranted_iff (limit : UInt64) {c : Charge} (fits : n + c.amount.toNat < 2 ^ 64) :
    isGranted limit (c, UInt64.ofNat n) = true ↔ n + c.amount.toNat ≤ limit.toNat := by
  have found : (UInt64.ofNat n).toNat = n :=
    UInt64.toNat_ofNat_of_lt' (Nat.lt_of_le_of_lt (Nat.le_add_right _ _) fits)
  cases c with
  | node =>
    have one : Charge.node.amount.toNat = 1 := rfl
    simp only [isGranted, Charge.granted, decide_eq_true_eq, UInt64.lt_iff_toNat_lt, found, one]
    omega
  | tick k =>
    simp only [Charge.amount] at fits ⊢
    have sum : (Charge.saturatingAdd (UInt64.ofNat n) k).toNat = n + k.toNat := by
      rw [Charge.saturatingAdd, found, if_pos fits, UInt64.toNat_add, found, Nat.mod_eq_of_lt fits]
    simp only [isGranted, Charge.granted, decide_eq_true_eq, UInt64.le_iff_toNat_le, sum]

section
variable (hh : Counted n h) (fits : n + requested h < 2 ^ 64)
include hh fits

/-- Past the limit nothing is granted. -/
theorem Counted.refused (past : limit.toNat < n) (he : e ∈ h) : isGranted limit e = false := by
  induction h generalizing n with
  | nil => cases he
  | cons x h ih =>
    obtain ⟨c, prev⟩ := x
    rw [requested_cons, ← Nat.add_assoc] at fits
    cases List.mem_cons.mp he with
    | inl here =>
      rw [here, hh.1, ← Bool.not_eq_true,
        isGranted_iff limit (Nat.lt_of_le_of_lt (Nat.le_add_right _ _) fits)]
      omega
    | inr later => exact ih hh.2 fits (by omega) later

theorem Counted.refused_total (past : limit.toNat < n) : grantedTotal limit h = 0 := by
  have none : h.filter (isGranted limit) = [] :=
    List.filter_eq_nil_iff.mpr fun e he => by rw [hh.refused fits past he]; exact Bool.false_ne_true
  rw [grantedTotal, none, requested_nil]

/-- What a log grants from a counter within the limit stays within it. -/
theorem Counted.granted_le (within : n ≤ limit.toNat) : n + grantedTotal limit h ≤ limit.toNat := by
  induction h generalizing n with
  | nil => exact within
  | cons x h ih =>
    obtain ⟨c, prev⟩ := x
    rw [requested_cons, ← Nat.add_assoc] at fits
    have head := isGranted_iff limit (Nat.lt_of_le_of_lt (Nat.le_add_right _ _) fits)
    rw [grantedTotal_cons, hh.1]
    by_cases covered : n + c.amount.toNat ≤ limit.toNat
    · rw [if_pos (head.mpr covered), ← Nat.add_assoc]
      exact ih hh.2 fits covered
    · rw [if_neg (fun g => covered (head.mp g)), hh.2.refused_total fits (by omega)]
      exact within

/-- A refusal is final. -/
theorem Counted.refusal_final :
    h.Pairwise fun e later => isGranted limit e = false → isGranted limit later = false := by
  induction h generalizing n with
  | nil => exact List.Pairwise.nil
  | cons x h ih =>
    obtain ⟨c, prev⟩ := x
    rw [requested_cons, ← Nat.add_assoc] at fits
    refine List.Pairwise.cons (fun later hlater refused => ?_) (ih hh.2 fits)
    rw [hh.1, ← Bool.not_eq_true, isGranted_iff limit (Nat.lt_of_le_of_lt (Nat.le_add_right _ _) fits)]
      at refused
    exact hh.2.refused fits (Nat.lt_of_not_le refused) hlater

end

/-! ### The evaluator's own check -/

/-- The two checks of the evaluator, by the charge they make. -/
def Charge.check (ctx : Context) (range : TokenRange) : Charge → M Unit
  | .node => Eval.chargeNode ctx range
  | .tick n => Eval.tick ctx n range

/-- A check logs its charge and fails exactly when that entry is not granted. -/
theorem Charge.check_run {ctx : Context} (hlimit : ctx.maxSteps = some limit) (fuel : Nat)
    (c : Charge) (range : TokenRange) (σ : Store) : (c.check ctx range).run (handle ctx fuel) σ =
      some (if isGranted limit (c, σ.stepCounter) then .ok ()
        else .error (.stepLimitExceeded (some limit) range), (σ.perform (.charge c)).2) := by
  have checked : c.check ctx range = send (.charge c) >>= fun prev =>
      if Charge.granted limit prev c then pure ()
      else .fail (.stepLimitExceeded (some limit) range) := by
    cases c with
    | node => simp only [Charge.check, Eval.chargeNode, hlimit]
    | tick n => simp only [Charge.check, Eval.tick, hlimit]
  have logged : handle ctx fuel _ (.op (.charge c)) σ =
      some (σ.stepCounter, (σ.perform (.charge c)).2) := by
    cases fuel <;> rfl
  rw [checked, Prog.run_bind, send, Prog.run_send, logged, isGranted]
  simp only [Option.map_some, Option.bind_some]
  split <;> rfl

/-! ### Whole runs -/

/-- In a run that charges less than the counter can hold, what is granted stays
within the limit and a refusal anywhere is final; the evaluator fails at an entry
exactly when it is refused. -/
theorem budget_kept (ctx : Context) (fuel : Nat) (entry : Entry) (scope : OpenScope) (σ τ : Store)
    (out : Except RuntimeError Value) (limit : UInt64) (hlimit : ctx.maxSteps = some limit)
    (run : topLevelRun ctx fuel entry scope σ = some (out, τ))
    (fits : requested τ.history < 2 ^ 64) : grantedTotal limit τ.history ≤ limit.toNat ∧
      (τ.history.Pairwise fun e later =>
        isGranted limit e = false → isGranted limit later = false) ∧
      ∀ c range σ', (Charge.check ctx range c).run (handle ctx fuel) σ' =
        some (if isGranted limit (c, σ'.stepCounter) then .ok ()
          else .error (.stepLimitExceeded (some limit) range), (σ'.perform (.charge c)).2) := by
  have log := (topLevelRun_metered run).log
  rw [← Nat.zero_add (requested _)] at fits
  refine ⟨?_, log.refusal_final fits, Charge.check_run hlimit fuel⟩
  rw [← Nat.zero_add (grantedTotal _ _)]
  exact log.granted_le fits (Nat.zero_le _)

/-- The list `[7, 7]`, under a limit of two steps. -/
def twoStepHost : Context :=
  { Context.bare (.bare 1 (.list [.bare 2 (.int 7), .bare 3 (.int 7)])) with maxSteps := some 2 }

/-- The list and its first element are granted, the second element is refused. -/
theorem budget_kept_twoSteps :
    ∃ out τ, topLevelRun twoStepHost 20 .evalRoot emptyScope emptyStore = some (out, τ) ∧
      τ.history.map (isGranted 2) = [true, true, false] ∧ grantedTotal 2 τ.history ≤ 2 ∧
      τ.history.Pairwise fun e later => isGranted 2 e = false → isGranted 2 later = false := by
  have ends : (topLevelRun twoStepHost 20 .evalRoot emptyScope emptyStore).map
      (fun r => (r.2.history.map (isGranted 2), requested r.2.history)) =
        some ([true, true, false], 3) := by decide +kernel
  obtain ⟨⟨out, τ⟩, run, charged⟩ := Option.map_eq_some_iff.mp ends
  obtain ⟨answers, sum⟩ := Prod.mk.inj charged
  obtain ⟨within, final, -⟩ := budget_kept twoStepHost 20 .evalRoot emptyScope emptyStore τ out 2 rfl
    run (by rw [sum]; decide)
  exact ⟨out, τ, run, answers, within, final⟩

/-! ### A refusal that refills the budget -/

/-- `{ r: range(0), range: range(-9223372036854775807, 9223372036854775807) }`: the
callee of the first call is looked up among the fields first. -/
def refillDocument : Node :=
  .bare 1 (.dict [
    (.plain "r", .bare 2 (.fnCall [.plain "range"] [(none, .bare 3 (.int 0))])),
    (.plain "range", .bare 4 (.fnCall [.plain "range"]
      [(none, .bare 5 (.unary .sub (.bare 6 (.int 9223372036854775807)))),
        (none, .bare 7 (.int 9223372036854775807))]))])

def refillHost : Context :=
  { Context.bare refillDocument with
    functions := fun name => if name = "range" then some rangeEntry else none
    maxSteps := some 10 }

/-- Under a limit of ten, eleven steps are granted, four of them after a refusal:
forcing the field `range` charges `2 ^ 64 - 2`, which is refused but takes the
counter from seven to five, and the refusal is dropped with the failed lookup. -/
theorem budget_refilled :
    (topLevelRun refillHost 20 .evalRoot emptyScope emptyStore).map (fun r =>
      (grantedTotal 10 r.2.history, r.2.history.map (isGranted 10))) =
    some (11, List.replicate 7 true ++ [false] ++ List.replicate 4 true ++ [false]) := by
  decide +kernel

end Relon.Eval
