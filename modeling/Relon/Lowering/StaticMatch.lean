import Relon.Ir.Op
import Relon.Eval.Run

/-! Matches decided at compile time (`lowering/enum_match.rs`).

The table decides a pattern from the type and the brand of the scrutinee. It takes for
granted that a schema never accepts a scalar. The evaluator's type check disagrees: it
applies a record schema to dicts only and lets every other value pass, it lets every
value pass as a bare `Option`, and a unit is the dict branded `None`. -/
namespace Relon.Lowering

open Eval Ir List Prog

/-! ### The table -/

inductive StaticArmDecision where
  | matches_ | never | undecidable
  deriving DecidableEq, Repr

/-- `is_definite_scalar`. -/
def isDefiniteScalar : IrType → Bool
  | .i64 | .f64 | .bool | .string | .unit => true
  | _ => false

/-- `static_type_pattern_decision`. -/
def staticTypePatternDecision (ty : IrType) (brand : Option String) (t : TypeNode) :
    StaticArmDecision :=
  match t.isOptional, t.path, t.generics with
  | false, [name], [] =>
    match brand with
    | some b =>
      if name = b then .matches_
      else if isBuiltinTypeName name then .undecidable
      else .never
    | none =>
      if isBuiltinTypeName name then
        match name, ty with
        | "Int", .i64 => .matches_
        | "Float", .f64 => .matches_
        | "Bool", .bool => .matches_
        | "String", .string => .matches_
        | "Int", ty | "Float", ty | "Bool", ty | "String", ty =>
          if isDefiniteScalar ty then .never else .undecidable
        | _, _ => .undecidable
      else if isDefiniteScalar ty then .never
      else .undecidable
  | _, _, _ => .undecidable

/-- `static_arm_decision`. -/
def staticArmDecision (ty : IrType) (brand : Option String) (pattern : Expr) : StaticArmDecision :=
  match pattern with
  | .wildcard => .matches_
  | .type t => staticTypePatternDecision ty brand t
  | _ => .undecidable

/-- The arm `lower_match` emits, from position `idx` on: none where it emits the no-match trap,
and no answer where it refuses the expression. -/
def selectedArm (ty : IrType) (brand : Option String) : Nat → List (Node × Node) → Option (Option Nat)
  | _, [] => some none
  | idx, (pattern, _) :: rest =>
    match staticArmDecision ty brand pattern.expr with
    | .matches_ => some (some idx)
    | .never => selectedArm ty brand (idx + 1) rest
    | .undecidable => none

/-! ### The evaluator -/

/-- The values of a type. With a static brand they are the dicts of that brand. -/
def OfType (v : Value) : IrType → Option String → Prop
  | _, some b => ∃ map owner, v = .dict map (some b) owner
  | .i64, none => ∃ i, v = .int i
  | .f64, none => ∃ bits, v = .float bits
  | .bool, none => ∃ b, v = .bool b
  | .string, none => ∃ s, v = .string s
  | .unit, none => v = .optionNone
  | _, none => True

section
variable (ctx : Context)

/-- The position of the arm whose body `evalArms` goes on with, among type and wildcard
patterns. -/
def armIndex (value : Value) (scope : Scope) : Nat → List (Node × Node) → M (Option Nat)
  | _, [] => pure none
  | idx, (pattern, _) :: rest =>
    match pattern.expr with
    | .wildcard => pure (some idx)
    | .type t => do
      if ← typePatternTakes ctx value t scope pattern.range then pure (some idx)
      else armIndex value scope (idx + 1) rest
    | _ => armIndex value scope (idx + 1) rest

/-- Patterns of types and wildcards. -/
def isTypePattern (pattern : Node) : Bool :=
  match pattern.expr with
  | .wildcard | .type _ => true
  | _ => false

theorem evalArms_eq_armIndex (v : Value) (s : Scope) (range : TokenRange)
    (before : List (Node × Node)) {arms : List (Node × Node)} (typed : ∀ a ∈ arms, isTypePattern a.1 = true) :
    evalArms ctx v s range arms = (do
      match ← armIndex ctx v s before.length arms with
      | some k =>
        match (before ++ arms)[k]? with
        | some a => evalNode a.2 s false
        | none => .fail (.typeMismatch "a matching arm" ("value " ++ v.display ctx) range)
      | none => .fail (.typeMismatch "a matching arm" ("value " ++ v.display ctx) range)) := by
  induction arms generalizing before with
  | nil => rfl
  | cons a rest ih =>
    have others := ih (before ++ [a]) fun b hb => typed b (mem_cons_of_mem _ hb)
    have here := typed a mem_cons_self
    rw [length_append, length_singleton, append_assoc, singleton_append] at others
    have found : (before ++ a :: rest)[before.length]? = some a := by simp
    obtain ⟨pattern, body⟩ := a
    rw [isTypePattern] at here
    rw [evalArms, armIndex]
    cases e : pattern.expr with
    | wildcard => simp only [pure_eq_ret, ret_bind, found]
    | type t =>
      rw [bind_assoc]
      refine congrArg (typePatternTakes ctx v t s pattern.range >>= ·) (funext fun taken => ?_)
      cases taken with
      | false => exact others
      | true => simp only [if_true, pure_eq_ret, ret_bind, found]
    | _ => simp [e] at here

/-- Whether the name of a type stands for a record schema. -/
def namesRecord (scope : Scope) (σ : Store) (name : String) : Bool :=
  match (σ.getLocal scope name).or (ctx.schemas.lookup name) with
  | some (.schema _ _ none) => true
  | _ => false

/-- The patterns the table passes over and the type check accepts: of an unbranded scalar the bare
`Option` and every record schema, of a unit its own brand. -/
def overlooked (scope : Scope) (σ : Store) (ty : IrType) (brand : Option String) (pattern : Expr) :
    Bool :=
  match pattern, brand, ty with
  | .type t, none, .unit => t.path == ["None"]
  | .type t, none, _ => t.path == ["Option"] ||
      (!isBuiltinTypeName (t.path.headD "") && namesRecord ctx scope σ (t.path.headD ""))
  | _, _, _ => false

end

section
variable {ctx : Context} {fuel : Nat} {scope : Scope} {σ : Store} {v : Value} {ty : IrType}
  {brand : Option String}

/-- The values of the unbranded scalar types but the unit. -/
def isScalar : Value → Bool
  | .int _ | .float _ | .bool _ | .string _ => true
  | _ => false

/-- A type written as one name, as the table asks. -/
structure Plain (t : TypeNode) (name : String) : Prop where
  required : t.isOptional = false
  path : t.path = [name]
  generics : t.generics = []

variable {t : TypeNode} {name : String}

theorem Plain.typeName (plain : Plain t name) : t.typeName = name := by
  rw [TypeNode.typeName, plain.path]
  rfl

theorem Plain.optionalInner (plain : Plain t name) (other : name ≠ "Option") :
    t.optionalInner = none := by
  rw [TypeNode.optionalInner, plain.required, if_neg nofun, if_neg]
  rw [plain.path]
  exact fun same => other (List.cons.inj same).1

theorem checkType_option (scalar : isScalar v = true) (plain : Plain t "Option")
    (range : TokenRange) : checkType ctx v t scope range = .ret (.optionSome v) := by
  have inner : t.optionalInner = some (.named "Any" t.range) := by
    rw [TypeNode.optionalInner, plain.required, if_neg nofun, if_pos plain.path, plain.generics]
    rfl
  have passed : checkTypeInternal ctx scope range 100 v (0, 0) (.named "Any" t.range) ⟨[], 1⟩ =
      .ret (v, ⟨[], 1⟩) := by
    rw [checkTypeInternal]
    rfl
  show (checkStep ctx _ _ _ _ _ _ _ >>= _) = _
  rw [checkStep, inner]
  cases v <;> first
    | cases scalar; done
    | (show ((checkTypeInternal ctx scope range 100 _ (0, 0) (.named "Any" t.range) ⟨[], 1⟩ >>= _) >>= _) = _
       rw [passed]
       rfl)

/-- The outcome of a check as a pattern's answer. -/
theorem run_outcome {x : M Value} {r : Except RuntimeError Value}
    (ran : x.run (handle ctx fuel) σ = some (r, σ)) :
    (do let outcome ← x.attempt; pure outcome.isOk : M Bool).run (handle ctx fuel) σ =
      some (.ok r.isOk, σ) := by
  rw [run_bind, run_attempt, ran]
  rfl

theorem run_checkType_named (scalar : isScalar v = true) (plain : Plain t name)
    (user : isBuiltinTypeName name = false) (other : name ≠ "Option") (range : TokenRange) :
    ∃ r, (checkType ctx v t scope range).run (handle ctx fuel) σ = some (r, σ) ∧
      r.isOk = namesRecord ctx scope σ name := by
  have step : checkType ctx v t scope range = (read >>= fun σ =>
      ofExcept (findSchema ctx scope range σ t) >>= fun schema =>
        checkAgainst ctx (checkTypeInternal ctx scope range 100) schema v (0, 0) t range ⟨[], 1⟩ >>=
          fun r => pure r.1) := by
    show (checkStep ctx _ _ _ _ _ _ _ >>= _) = _
    rw [checkStep, plain.optionalInner other, plain.typeName, user]
    simp only [Bool.false_eq_true, if_false, bind_assoc]
  rw [step, run_read_bind, namesRecord, findSchema, plain.path]
  simp only [headD_cons, tail_cons]
  cases (σ.getLocal scope name).or (ctx.schemas.lookup name) with
  | none => exact ⟨_, rfl, rfl⟩
  | some found =>
    cases found with
    | schema generics fields elements =>
      cases elements with
      | none => cases v <;> first | (cases scalar; done) | exact ⟨_, rfl, rfl⟩
      | some elements => cases v <;> first | (cases scalar; done) | exact ⟨_, rfl, rfl⟩
    | enumSchema name generics variants =>
      cases v <;> first | (cases scalar; done) | exact ⟨_, rfl, rfl⟩
    | _ => exact ⟨_, rfl, rfl⟩

/-- A built-in scalar name accepts the values of its type. -/
def builtinAccepts : String → Value → Bool
  | "Int", .int _ | "Float", .float _ | "Bool", .bool _ | "String", .string _ => true
  | _, _ => false

theorem run_checkType_builtin (plain : Plain t name)
    (known : name ∈ ["Int", "Float", "Bool", "String"]) (range : TokenRange) :
    ∃ r, (checkType ctx v t scope range).run (handle ctx fuel) σ = some (r, σ) ∧
      r.isOk = builtinAccepts name v := by
  have builtin : isBuiltinTypeName name = true := by
    simp only [mem_cons, not_mem_nil, or_false] at known
    rcases known with rfl | rfl | rfl | rfl <;> rfl
  have other : name ≠ "Option" := by
    rintro rfl
    cases builtin
  have step : checkType ctx v t scope range =
      (checkBuiltin (checkTypeInternal ctx scope range 100) v t range ⟨[], 1⟩ >>= fun r => pure r.1) := by
    show (checkStep ctx _ _ _ _ _ _ _ >>= _) = _
    rw [checkStep, plain.optionalInner other, plain.typeName, builtin]
    rfl
  rw [step]
  unfold checkBuiltin
  rw [plain.typeName]
  simp only [mem_cons, not_mem_nil, or_false] at known
  rcases known with rfl | rfl | rfl | rfl <;> cases v <;> exact ⟨_, rfl, rfl⟩

/-- The table's reading of a pattern. -/
theorem staticTypePatternDecision_plain
    (decided : staticTypePatternDecision ty brand t ≠ .undecidable) : ∃ name, Plain t name := by
  unfold staticTypePatternDecision at decided
  split at decided
  · exact ⟨_, ‹_›, ‹_›, ‹_›⟩
  · exact absurd rfl decided

/-- The built-in name of a scalar type. -/
def scalarName : IrType → Option String
  | .i64 => some "Int"
  | .f64 => some "Float"
  | .bool => some "Bool"
  | .string => some "String"
  | _ => none

theorem staticTypePatternDecision_unbranded (plain : Plain t name)
    (decided : staticTypePatternDecision ty none t ≠ .undecidable) : isDefiniteScalar ty = true ∧
      (isBuiltinTypeName name = true → name ∈ ["Int", "Float", "Bool", "String"]) ∧
      staticTypePatternDecision ty none t =
        if scalarName ty = some name then .matches_ else .never := by
  unfold staticTypePatternDecision at decided ⊢
  rw [plain.required, plain.path, plain.generics] at decided ⊢
  dsimp only at decided ⊢
  by_cases known : name ∈ ["Int", "Float", "Bool", "String"]
  · refine (fun h => ⟨h.1, fun _ => known, h.2⟩ : _ ∧ _ → _) ?_
    simp only [mem_cons, not_mem_nil, or_false] at known
    rcases known with rfl | rfl | rfl | rfl <;> cases ty <;>
      first | exact absurd rfl decided | exact ⟨rfl, rfl⟩
  · have foreign : scalarName ty ≠ some name := by
      rintro own
      cases ty <;> first | (cases own; done) | (cases own; simp at known)
    simp only [mem_cons, not_mem_nil, or_false, not_or] at known
    obtain ⟨a, b, c, d⟩ := known
    cases builtin : isBuiltinTypeName name with
    | true =>
      rw [builtin, if_pos rfl] at decided
      split at decided <;> simp_all
    | false =>
      rw [builtin] at decided
      rw [if_neg foreign]
      cases definite : isDefiniteScalar ty with
      | true => exact ⟨rfl, nofun, rfl⟩
      | false => simp [definite] at decided

theorem builtinAccepts_user (user : isBuiltinTypeName name = false) :
    builtinAccepts name v = false := by
  unfold builtinAccepts
  split <;> first | cases user | rfl

/-- The evaluator on a pattern for a scalar. -/
theorem run_takes_scalar (scalar : isScalar v = true) (plain : Plain t name) (range : TokenRange)
    (decided : isBuiltinTypeName name = true → name ∈ ["Int", "Float", "Bool", "String"]) :
    (typePatternTakes ctx v t scope range).run (handle ctx fuel) σ =
      some (.ok (name == "Option" || builtinAccepts name v ||
        (!isBuiltinTypeName name && namesRecord ctx scope σ name)), σ) := by
  have asked : typePatternTakes ctx v t scope range =
      (do let outcome ← (checkType ctx v t scope range).attempt; pure outcome.isOk : M Bool) := by
    cases v <;> first | (cases scalar; done) | rfl
  rw [asked]
  by_cases option : name = "Option"
  · subst option
    rw [run_outcome (r := .ok (.optionSome v)) (by rw [checkType_option scalar plain]; rfl)]
    rfl
  · have noOption : (name == "Option") = false := by simpa using option
    cases builtin : isBuiltinTypeName name with
    | true =>
      obtain ⟨r, ran, ok⟩ := run_checkType_builtin plain (decided builtin) range
      rw [run_outcome ran, ok, noOption]
      simp
    | false =>
      obtain ⟨r, ran, ok⟩ := run_checkType_named scalar plain builtin option range
      rw [run_outcome ran, ok, noOption, builtinAccepts_user builtin]
      simp

/-- The values of a scalar type, and the built-in name that accepts them. -/
theorem OfType.scalar (typed : OfType v ty none) (definite : isDefiniteScalar ty = true)
    (noUnit : ty ≠ .unit) : isScalar v = true ∧ ∀ name, name ∈ ["Int", "Float", "Bool", "String"] →
      builtinAccepts name v = decide (scalarName ty = some name) := by
  cases ty <;> first
    | (cases definite; done)
    | exact absurd rfl noUnit
    | (obtain ⟨_, rfl⟩ := typed
       refine ⟨rfl, fun name known => ?_⟩
       simp only [mem_cons, not_mem_nil, or_false] at known
       rcases known with rfl | rfl | rfl | rfl <;> rfl)

/-- The evaluator on a pattern for a unit, which is the dict branded `None`. -/
theorem run_takes_unit (plain : Plain t name) (range : TokenRange)
    (decided : isBuiltinTypeName name = true → name ∈ ["Int", "Float", "Bool", "String"]) :
    (typePatternTakes ctx .optionNone t scope range).run (handle ctx fuel) σ =
      some (.ok (name == "None"), σ) := by
  unfold typePatternTakes
  simp only [Value.optionNone, Value.variantDict, plain.path, headD_cons]
  by_cases own : name = "None"
  · subst own
    rfl
  · have other : [name] ≠ ["None"] := by simpa using own
    have noBrand : (name == "None") = false := by simpa using own
    rw [if_neg other, noBrand]
    cases builtin : isBuiltinTypeName name with
    | false => rfl
    | true =>
      obtain ⟨r, ran, ok⟩ := run_checkType_builtin plain (decided builtin) range
      have rejected : builtinAccepts name (.dict [] (some "None") (some "Option")) = false := by
        unfold builtinAccepts
        split <;> simp_all
      exact (run_outcome ran).trans (by rw [ok, rejected])

/-- What the table says of a pattern, and what the evaluator does with it. -/
theorem run_takes_decided (typed : OfType v ty brand) (range : TokenRange) :
    (staticTypePatternDecision ty brand t = .matches_ →
      (typePatternTakes ctx v t scope range).run (handle ctx fuel) σ = some (.ok true, σ)) ∧
    (staticTypePatternDecision ty brand t = .never →
      (typePatternTakes ctx v t scope range).run (handle ctx fuel) σ =
        some (.ok (overlooked ctx scope σ ty brand (.type t)), σ)) := by
  by_cases decided : staticTypePatternDecision ty brand t = .undecidable
  · rw [decided]
    exact ⟨nofun, nofun⟩
  obtain ⟨name, plain⟩ := staticTypePatternDecision_plain decided
  cases brand with
  | some b =>
    obtain ⟨map, owner, rfl⟩ := typed
    unfold staticTypePatternDecision typePatternTakes overlooked
    rw [plain.required, plain.path, plain.generics]
    by_cases same : name = b
    · simp only [same, if_true]
      exact ⟨fun _ => rfl, nofun⟩
    · have other : [name] ≠ [b] := by simpa using same
      cases builtin : isBuiltinTypeName name with
      | true => simp [same, builtin]
      | false =>
        simp only [same, if_false, builtin, other, headD_cons]
        exact ⟨nofun, fun _ => rfl⟩
  | none =>
    obtain ⟨definite, known, decision⟩ := staticTypePatternDecision_unbranded plain decided
    rw [decision]
    by_cases unit : ty = .unit
    · subst unit
      obtain rfl : v = .optionNone := typed
      rw [run_takes_unit plain range known]
      have path : overlooked ctx scope σ .unit none (.type t) = (name == "None") := by
        simp [overlooked, plain.path]
      rw [path]
      exact ⟨nofun, fun _ => rfl⟩
    · obtain ⟨scalar, accepts⟩ := typed.scalar definite unit
      rw [run_takes_scalar scalar plain range known]
      have path : overlooked ctx scope σ ty none (.type t) = (name == "Option" ||
          (!isBuiltinTypeName name && namesRecord ctx scope σ name)) := by
        cases ty <;> first | exact absurd rfl unit | simp [overlooked, plain.path]
      have own : builtinAccepts name v = decide (scalarName ty = some name) := by
        cases builtin : isBuiltinTypeName name with
        | true => exact accepts name (known builtin)
        | false =>
          rw [builtinAccepts_user builtin, eq_comm, decide_eq_false_iff_not]
          intro same
          cases ty <;> cases same <;> cases builtin
      rw [path, own]
      by_cases same : scalarName ty = some name
      · rw [if_pos same, decide_eq_true same]
        exact ⟨fun _ => by simp, nofun⟩
      · rw [if_neg same, decide_eq_false same, Bool.or_false]
        exact ⟨nofun, fun _ => rfl⟩

theorem le_selectedArm {arms : List (Node × Node)} {idx j : Nat}
    (resolved : selectedArm ty brand idx arms = some (some j)) : idx ≤ j := by
  induction arms generalizing idx with
  | nil => cases resolved
  | cons a rest ih =>
    rw [selectedArm] at resolved
    split at resolved
    · cases resolved
      exact Nat.le_refl _
    · have := ih resolved
      omega
    · cases resolved

variable (ctx scope σ ty brand) in
/-- The table overlooks none of these arms in front of the chosen one. -/
def SeesAll (idx : Nat) (chosen : Option Nat) (arms : List (Node × Node)) : Prop :=
  ∀ k a, arms[k]? = some a → (∀ j, chosen = some j → idx + k < j) →
    overlooked ctx scope σ ty brand a.1.expr = false

theorem seesAll_cons {a : Node × Node} {arms : List (Node × Node)} {idx : Nat} {chosen : Option Nat}
    (later : ∀ j, chosen = some j → idx < j) : SeesAll ctx scope σ ty brand idx chosen (a :: arms) ↔
      overlooked ctx scope σ ty brand a.1.expr = false ∧
        SeesAll ctx scope σ ty brand (idx + 1) chosen arms := by
  constructor
  · intro all
    refine ⟨all 0 a rfl (fun j same => later j same), fun k b found low => ?_⟩
    exact all (k + 1) b found fun j same => by have := low j same; omega
  · rintro ⟨first, others⟩ k b found low
    cases k with
    | zero =>
      cases found
      exact first
    | succ k => exact others k b found fun j same => by have := low j same; omega

/-- The arm the evaluator goes on with where the table has decided the match. -/
theorem run_armIndex (typed : OfType v ty brand) {arms : List (Node × Node)} {idx : Nat}
    {chosen : Option Nat} (resolved : selectedArm ty brand idx arms = some chosen) :
    ∃ taken, (armIndex ctx v scope idx arms).run (handle ctx fuel) σ = some (.ok taken, σ) ∧
      (taken = chosen ↔ SeesAll ctx scope σ ty brand idx chosen arms) := by
  induction arms generalizing idx with
  | nil =>
    obtain rfl : none = chosen := Option.some.inj resolved
    exact ⟨none, rfl, iff_of_true rfl fun k a found => nomatch found⟩
  | cons a rest ih =>
    obtain ⟨pattern, body⟩ := a
    -- an arm that is taken and chosen ends both searches
    have both : ∀ {x : M (Option Nat)}, x.run (handle ctx fuel) σ = some (.ok (some idx), σ) →
        some idx = chosen → ∃ taken, x.run (handle ctx fuel) σ = some (.ok taken, σ) ∧
          (taken = chosen ↔ SeesAll ctx scope σ ty brand idx chosen ((pattern, body) :: rest)) := by
      rintro x ran rfl
      refine ⟨some idx, ran, iff_of_true rfl fun k a _ low => ?_⟩
      have := low idx rfl
      omega
    rw [selectedArm] at resolved
    rw [armIndex]
    cases e : pattern.expr with
    | wildcard => exact both rfl (by simpa [e, staticArmDecision] using resolved)
    | type t =>
      have asked : ∀ {b : Bool}, (typePatternTakes ctx v t scope pattern.range).run (handle ctx fuel) σ =
          some (.ok b, σ) → (do
            if ← typePatternTakes ctx v t scope pattern.range then pure (some idx)
            else armIndex ctx v scope (idx + 1) rest : M (Option Nat)).run (handle ctx fuel) σ =
          if b then some (.ok (some idx), σ)
          else (armIndex ctx v scope (idx + 1) rest).run (handle ctx fuel) σ := by
        intro b ran
        rw [run_bind, ran]
        cases b <;> rfl
      have decided : (staticTypePatternDecision ty brand t = .matches_ →
            (typePatternTakes ctx v t scope pattern.range).run (handle ctx fuel) σ =
              some (.ok true, σ)) ∧
          (staticTypePatternDecision ty brand t = .never →
            (typePatternTakes ctx v t scope pattern.range).run (handle ctx fuel) σ =
              some (.ok (overlooked ctx scope σ ty brand (.type t)), σ)) :=
        run_takes_decided typed pattern.range
      rw [e, staticArmDecision] at resolved
      cases decision : staticTypePatternDecision ty brand t with
      | matches_ =>
        rw [decision] at resolved
        exact both (asked (decided.1 decision)) (Option.some.inj resolved)
      | never =>
        rw [decision] at resolved
        have later : ∀ j, chosen = some j → idx < j := fun j same => le_selectedArm (same ▸ resolved)
        have ran := asked (decided.2 decision)
        cases missed : overlooked ctx scope σ ty brand (.type t) with
        | true =>
          rw [missed] at ran
          refine ⟨some idx, ran, iff_of_false (fun same => ?_) fun all => ?_⟩
          · exact Nat.lt_irrefl _ (later idx same.symm)
          · rw [seesAll_cons later, e, missed] at all
            cases all.1
        | false =>
          rw [missed] at ran
          obtain ⟨taken, went, same⟩ := ih resolved
          refine ⟨taken, ran.trans went, same.trans ?_⟩
          rw [seesAll_cons later, e, missed]
          simp
      | undecidable => simp [decision] at resolved
    | _ => simp [e, staticArmDecision] at resolved

/-- Where the table decides a match, the evaluator goes on with the arm the table chose, or reports
that there is none, exactly when the table has overlooked no arm before it. -/
theorem static_match_iff {arms : List (Node × Node)} {chosen : Option Nat}
    (resolved : selectedArm ty brand 0 arms = some chosen) (typed : OfType v ty brand) :
    (armIndex ctx v scope 0 arms).run (handle ctx fuel) σ = some (.ok chosen, σ) ↔
      SeesAll ctx scope σ ty brand 0 chosen arms := by
  obtain ⟨taken, ran, same⟩ :
      ∃ taken, (armIndex ctx v scope 0 arms).run (handle ctx fuel) σ = some (.ok taken, σ) ∧
        (taken = chosen ↔ SeesAll ctx scope σ ty brand 0 chosen arms) := run_armIndex typed resolved
  rw [ran, ← same]
  simp

end

/-- A host that knows `#schema Point { Int x }`. -/
def pointHost : Context :=
  { Context.bare (.bare 0 .missing) with
    schemas := [("Point", .schema [] [("x", .mk (.named "Int" default) [] none none)] none)] }

/-- The arms `name: 1` and `_: 2`. -/
def namedArms (name : String) : List (Node × Node) :=
  [(.bare 1 (.type (.named name default)), .bare 2 (.int 1)), (.bare 3 .wildcard, .bare 4 (.int 2))]

/-- An integer passes over the name of another scalar in both. -/
theorem scalar_arm_agrees :
    (armIndex pointHost (.int 5) emptyScope.1 0 (namedArms "Float")).run (handle pointHost 0) emptyStore =
      some (.ok (some 1), emptyStore) := by
  have resolved : selectedArm .i64 none 0 (namedArms "Float") = some (some 1) := by decide
  refine (static_match_iff resolved ⟨5, rfl⟩).mpr fun k a found low => ?_
  have first : k = 0 := by
    have := low 1 rfl
    omega
  subst first
  obtain rfl : (.bare 1 (.type (.named "Float" default)), .bare 2 (.int 1)) = a := Option.some.inj found
  rfl

/-- The table passes over the name of a record schema, and over `Option`; the evaluator goes on
with that arm. -/
theorem schema_arm_overlooked : selectedArm .i64 none 0 (namedArms "Point") = some (some 1) ∧
    (armIndex pointHost (.int 5) emptyScope.1 0 (namedArms "Point")).run (handle pointHost 0)
      emptyStore = some (.ok (some 0), emptyStore) ∧
    selectedArm .i64 none 0 (namedArms "Option") = some (some 1) ∧
    (armIndex pointHost (.int 5) emptyScope.1 0 (namedArms "Option")).run (handle pointHost 0)
      emptyStore = some (.ok (some 0), emptyStore) :=
  ⟨by decide, rfl, by decide, rfl⟩

end Relon.Lowering
