import Relon.Analyzer.Infer
import Relon.Eval.LoopVariable
import Relon.Eval.Conform

/-! Exhaustive matches.

The analyzer guesses the enum a scrutinee belongs to and counts the variants its arms
name. The evaluator compares brands, and for a qualified pattern the enum's name as
well, which the analyzer does not look at: an arm for the variant of another enum is
counted, and passes every value on. -/
namespace Relon.Analyzer
open Eval List

/-! ### The check -/

/-- What the check of a match reports. -/
inductive MatchDiagnostic where
  | unknownVariant (enumName variantName : String) (suggestion : Option String) (range : TokenRange)
  | duplicateMatchArm (enumName variantName : String) (range : TokenRange)
  | nonExhaustiveMatch (enumName : String) (missingVariants : List String) (range : TokenRange)
  deriving DecidableEq

/-- The reports that say an arm is wrong or missing. -/
def MatchDiagnostic.rejects : MatchDiagnostic → Bool
  | unknownVariant .. => true
  | nonExhaustiveMatch .. => true
  | duplicateMatchArm .. => false

/-- What the walk over the program has at hand. -/
structure Walker where
  /-- `enum_index`: the variants of each enum. -/
  enumIndex : Assoc (List String)
  /-- The node the resolver found for a reference. -/
  target : Node → Option Node
  scope : TypeScope
  /-- `closest_variant`. -/
  closestVariant : String → List String → Option String

def isWildcard (pattern : Node) : Bool :=
  match pattern.expr with
  | .wildcard => true
  | _ => false

namespace Walker

variable (w : Walker)

def isEnum (name : String) : Bool := (w.enumIndex.lookup name).isSome

/-- `enum_name_from_type_node`. -/
def enumNameFromTypeNode (t : TypeNode) : Option String :=
  if t.isOptional then some "Option"
  else match t.path with
    | [name] => if w.isEnum name then some name else none
    | _ => none

/-- The enum of the node a reference resolves to: by its type hint, or as a constructor. -/
def enumOfTarget (target : Node) : Option String :=
  (target.typeHint.bind w.enumNameFromTypeNode).or <|
    match target.expr with
    | .variantCtor (head :: _) _ _ => if w.isEnum head then some head else none
    | _ => none

/-- `infer_enum_type`. -/
def inferEnumType (node : Node) : Option String :=
  ((w.target node).bind w.enumOfTarget).or <|
    ((inferType node w.scope).bind InferredType.enumName).filter w.isEnum

/-- The reports on single arms, and the variants seen. -/
def checkArms (enumName : String) (variants : List String) :
    List (Node × Node) → List String → List MatchDiagnostic × List String
  | [], seen => ([], seen)
  | (pattern, _) :: rest, seen =>
    match patternVariantName pattern with
    | none => checkArms enumName variants rest seen
    | some name =>
      if !variants.contains name then
        let (more, seen) := checkArms enumName variants rest seen
        (.unknownVariant enumName name (w.closestVariant name variants) pattern.range :: more, seen)
      else if seen.contains name then
        let (more, seen) := checkArms enumName variants rest seen
        (.duplicateMatchArm enumName name pattern.range :: more, seen)
      else checkArms enumName variants rest (name :: seen)

/-- `check_match_exhaustiveness`. -/
def checkMatchExhaustiveness (matchRange : TokenRange) (expr : Node) (arms : List (Node × Node)) :
    List MatchDiagnostic :=
  match w.inferEnumType expr with
  | none => []
  | some enumName =>
    match w.enumIndex.lookup enumName with
    | none => []
    | some variants =>
      let (diags, seen) := w.checkArms enumName variants arms []
      let missing := variants.filter fun v => !seen.contains v
      if arms.any (fun a => isWildcard a.1) || missing.isEmpty then diags
      else diags ++ [.nonExhaustiveMatch enumName missing matchRange]

variable {w} {enumName : String} {variants : List String} {arms : List (Node × Node)}

/-- Arms without a report name variants, and every name seen is one of theirs. -/
theorem checkArms_spec {seen : List String}
    (clean : ∀ d ∈ (w.checkArms enumName variants arms seen).1, d.rejects = false) :
    (∀ a ∈ arms, ∀ name, patternVariantName a.1 = some name → name ∈ variants) ∧
      ∀ name ∈ (w.checkArms enumName variants arms seen).2,
        name ∈ seen ∨ ∃ a ∈ arms, patternVariantName a.1 = some name := by
  induction arms generalizing seen with
  | nil => exact ⟨by simp, fun name h => .inl h⟩
  | cons a rest ih =>
    obtain ⟨pattern, body⟩ := a
    have later : ∀ {seen' : List String} {name : String},
        (name ∈ seen' ∨ ∃ a ∈ rest, patternVariantName a.1 = some name) →
        (name ∈ seen' → name ∈ seen ∨ patternVariantName pattern = some name) →
        name ∈ seen ∨ ∃ a ∈ (pattern, body) :: rest, patternVariantName a.1 = some name := by
      rintro seen' name (old | ⟨a, mem, named⟩) step
      · rcases step old with old | here
        · exact .inl old
        · exact .inr ⟨_, mem_cons_self, here⟩
      · exact .inr ⟨a, mem_cons_of_mem _ mem, named⟩
    unfold checkArms at clean ⊢
    cases named : patternVariantName pattern with
    | none =>
      rw [named] at clean
      obtain ⟨known, names⟩ := ih clean
      refine ⟨fun a ha name is => ?_, fun name h => later (names name h) .inl⟩
      cases mem_cons.mp ha with
      | inl here =>
        subst here
        rw [named] at is
        cases is
      | inr there => exact known a there name is
    | some own =>
      rw [named] at clean
      dsimp only at clean ⊢
      by_cases member : own ∈ variants
      · rw [if_neg (by simpa using member)] at clean ⊢
        have all : (∀ a ∈ rest, ∀ name, patternVariantName a.1 = some name → name ∈ variants) →
            ∀ a ∈ (pattern, body) :: rest, ∀ name, patternVariantName a.1 = some name →
              name ∈ variants := by
          intro known a ha name is
          cases mem_cons.mp ha with
          | inl here =>
            subst here
            rw [named] at is
            cases is
            exact member
          | inr there => exact known a there name is
        by_cases again : seen.contains own = true
        · rw [if_pos again] at clean ⊢
          obtain ⟨known, names⟩ := ih fun d hd => clean d (mem_cons_of_mem _ hd)
          exact ⟨all known, fun name h => later (names name h) .inl⟩
        · rw [if_neg again] at clean ⊢
          obtain ⟨known, names⟩ := ih clean
          refine ⟨all known, fun name h => later (names name h) fun old => ?_⟩
          rcases mem_cons.mp old with rfl | old
          · exact .inr named
          · exact .inl old
      · rw [if_pos (by simpa using member)] at clean
        cases clean _ mem_cons_self

theorem accepted_spec {matchRange : TokenRange} {expr : Node}
    (attributed : w.inferEnumType expr = some enumName)
    (listed : w.enumIndex.lookup enumName = some variants)
    (accepted : ∀ d ∈ w.checkMatchExhaustiveness matchRange expr arms, d.rejects = false) :
    (∀ a ∈ arms, ∀ name, patternVariantName a.1 = some name → name ∈ variants) ∧
      ((∃ a ∈ arms, isWildcard a.1 = true) ∨
        ∀ name ∈ variants, ∃ a ∈ arms, patternVariantName a.1 = some name) := by
  simp only [checkMatchExhaustiveness, attributed, listed] at accepted
  split at accepted
  · rename_i enough
    obtain ⟨known, names⟩ := checkArms_spec accepted
    refine ⟨known, ?_⟩
    rcases Bool.or_eq_true_iff.mp enough with wild | none
    · exact .inl (by simpa using wild)
    · refine .inr fun name member => (names name ?_).resolve_left not_mem_nil
      by_contra unseen
      have missing : name ∈ variants.filter fun v =>
          !(w.checkArms enumName variants arms []).2.contains v := by simp [member, unseen]
      rw [List.isEmpty_iff.mp none] at missing
      cases missing
  · cases accepted _ (mem_append_right _ mem_cons_self)

end Walker

/-! ### The selection -/

section
variable (ctx : Context)

/-- The arm a match goes on with, and the scope of its body. -/
def selectArm (value : Value) (scope : Scope) : List (Node × Node) → M (Option (Node × Scope))
  | [] => pure none
  | (pattern, result) :: rest =>
    match pattern.expr with
    | .wildcard => pure (some (result, scope))
    | .type t => do
      if ← typePatternTakes ctx value t scope pattern.range then pure (some (result, scope))
      else selectArm value scope rest
    | .variantPattern enumPath variant bindings => do
      match ← matchVariantPatternScope value enumPath variant bindings scope pattern.range with
      | some arm => pure (some (result, arm))
      | none => selectArm value scope rest
    | _ => selectArm value scope rest

theorem evalArms_eq_select (v : Value) (s : Scope) (range : TokenRange) (arms : List (Node × Node)) :
    evalArms ctx v s range arms = (do
      match ← selectArm ctx v s arms with
      | some (body, arm) => evalNode body arm false
      | none => .fail (.typeMismatch "a matching arm" ("value " ++ v.display ctx) range)) := by
  induction arms with
  | nil => rfl
  | cons a rest ih =>
    obtain ⟨pattern, result⟩ := a
    rw [evalArms, selectArm]
    generalize pattern.expr = e
    cases e with
    | wildcard => rfl
    | type t =>
      rw [Prog.bind_assoc]
      refine congrArg (typePatternTakes ctx v t s pattern.range >>= ·) (funext fun taken => ?_)
      cases taken
      · exact ih
      · rfl
    | variantPattern path variant bindings =>
      rw [Prog.bind_assoc]
      refine congrArg (matchVariantPatternScope v path variant bindings s pattern.range >>= ·)
        (funext fun arm => ?_)
      cases arm
      · exact ih
      · rfl
    | _ => exact ih

end

section
variable {ctx : Context} {fuel : Nat} {s : Scope} {σ : Store} {map : Assoc Value}
  {variant : String} {owner : Option String}

/-- A pattern qualified with another name than that of the value's enum. -/
def isForeign (owner : Option String) (pattern : Node) : Bool :=
  match pattern.expr with
  | .variantPattern path _ _ => !path.isEmpty && owner != some (".".intercalate path)
  | _ => false

/-- A pattern that takes a value of a variant. -/
def takes (variant : String) (owner : Option String) (pattern : Node) : Bool :=
  isWildcard pattern ||
    (patternVariantName pattern == some variant && !isForeign owner pattern)

/-- Patterns that are not decided by the type check: no type among them starts with a built-in
name. -/
def isNominal (pattern : Node) : Bool :=
  match pattern.expr with
  | .type t => !isBuiltinTypeName (t.path.headD "")
  | _ => true

/-- A destructuring pattern of the variant only binds what the payload has. -/
def Binds (map : Assoc Value) (variant : String) (owner : Option String) (pattern : Node) : Prop :=
  ∀ path bindings, pattern.expr = .variantPattern path variant bindings →
    ∃ locals, patternLocals map (some variant) owner variant pattern.range 0 bindings [] = .ret locals

/-- An arm whose pattern does not take the value passes it on. -/
theorem selectArm_passed {a : Node × Node} (nominal : isNominal a.1 = true)
    (passed : takes variant owner a.1 = false) (rest : List (Node × Node)) :
    selectArm ctx (.dict map (some variant) owner) s (a :: rest) =
      selectArm ctx (.dict map (some variant) owner) s rest := by
  obtain ⟨pattern, result⟩ := a
  simp only [takes, isWildcard, isForeign, isNominal, patternVariantName] at passed nominal
  rw [selectArm]
  generalize pattern.expr = e at passed nominal
  cases e with
  | wildcard => simp at passed
  | type t =>
    have other : t.path ≠ [variant] := by
      intro same
      simp [same] at passed
    simp only [typePatternTakes, if_neg other]
    simp only [if_pos nominal]
    rfl
  | variantPattern path name bindings =>
    simp only [matchVariantPatternScope]
    by_cases same : name = variant
    · subst same
      have foreign : path ≠ [] ∧ owner ≠ some (".".intercalate path) := by simpa using passed
      rw [if_neg (by simp), if_pos foreign]
      rfl
    · rw [if_pos (by simpa using Ne.symm same)]
      rfl
  | _ => rfl

/-- An arm whose pattern takes the value is selected. -/
theorem selectArm_taken {a : Node × Node} (taken : takes variant owner a.1 = true)
    (binds : Binds map variant owner a.1) (rest : List (Node × Node)) :
    ∃ arm τ, (selectArm ctx (.dict map (some variant) owner) s (a :: rest)).run (handle ctx fuel) σ =
      some (.ok (some (a.2, arm)), τ) := by
  obtain ⟨pattern, result⟩ := a
  simp only [takes, isWildcard, isForeign, patternVariantName, Binds] at taken binds
  rw [selectArm]
  generalize pattern.expr = e at taken binds
  cases e with
  | wildcard => exact ⟨s, σ, rfl⟩
  | type t =>
    have same : t.path = [variant] := by
      dsimp only at taken
      split at taken <;> simp_all
    simp only [typePatternTakes, if_pos same]
    exact ⟨s, σ, rfl⟩
  | variantPattern path name bindings =>
    obtain ⟨rfl, own⟩ : name = variant ∧ (path = [] ∨ owner = some (".".intercalate path)) := by
      simpa using taken
    obtain ⟨locals, bound⟩ := binds path bindings rfl
    simp only [matchVariantPatternScope]
    rw [if_neg (by simp), if_neg (by simpa [imp_iff_not_or] using own)]
    split
    · exact ⟨s, σ, rfl⟩
    · rw [bound]
      refine ⟨(σ.perform (.bindingsScope s.childShape locals)).1,
        (σ.perform (.bindingsScope s.childShape locals)).2, ?_⟩
      show Prog.run _ ((send _ >>= _) >>= _) _ = _
      rw [Prog.bind_assoc, run_send_bind]
      rfl
  | _ => simp at taken

variable (ctx fuel s σ) in
/-- The match goes on with one of its arms. -/
def Selects (v : Value) (arms : List (Node × Node)) : Prop :=
  ∃ body arm τ, (selectArm ctx v s arms).run (handle ctx fuel) σ = some (.ok (some (body, arm)), τ)

theorem selects_iff {arms : List (Node × Node)} (nominal : ∀ a ∈ arms, isNominal a.1 = true)
    (binds : ∀ a ∈ arms, Binds map variant owner a.1) :
    Selects ctx fuel s σ (.dict map (some variant) owner) arms ↔
      ∃ a ∈ arms, takes variant owner a.1 = true := by
  induction arms with
  | nil =>
    refine ⟨fun ⟨_, _, _, ran⟩ => ?_, fun ⟨_, mem, _⟩ => nomatch mem⟩
    cases ran
  | cons a rest ih =>
    have others := ih (fun a ha => nominal a (mem_cons_of_mem _ ha)) fun a ha =>
      binds a (mem_cons_of_mem _ ha)
    cases taken : takes variant owner a.1 with
    | true =>
      refine ⟨fun _ => ⟨a, mem_cons_self, taken⟩, fun _ => ?_⟩
      obtain ⟨arm, τ, ran⟩ := selectArm_taken taken (binds a mem_cons_self) rest
      exact ⟨_, _, _, ran⟩
    | false =>
      rw [Selects, selectArm_passed (nominal a mem_cons_self) taken]
      refine others.trans ⟨fun ⟨b, mem, h⟩ => ⟨b, mem_cons_of_mem _ mem, h⟩, ?_⟩
      rintro ⟨b, mem, h⟩
      cases mem_cons.mp mem with
      | inl here =>
        rw [here, taken] at h
        cases h
      | inr later => exact ⟨b, later, h⟩

end

/-! ### Values of an enum -/

/-- The enum a type stands for. -/
def enumOf (env : TypeNode → Option Value) (t : TypeNode) : Option String :=
  if t.optionalInner.isSome then some "Option"
  else if isBuiltinTypeName t.typeName then none
  else match env t with
    | some (.enumSchema declared _ _) => some (enumName declared t)
    | _ => none

/-- A value of an enum carries the enum's name and one of its variants. -/
theorem conforms_variant {env : TypeNode → Option Value} {holds : Value → Value → Prop} {v : Value}
    {t : TypeNode} {owner : String} (h : Conforms env holds v t) (enum : enumOf env t = some owner) :
    ∃ map variant, v = .dict map (some variant) (some owner) := by
  obtain ⟨form, -, -⟩ := h
  unfold enumOf at enum
  unfold parts at form
  cases inner : t.optionalInner with
  | some u =>
    rw [inner] at enum form
    cases enum
    dsimp only [optionParts] at form
    split at form
    · rename_i none_
      cases v with
      | dict map brand variantOf =>
        obtain ⟨rfl, rfl⟩ : variantOf = some "Option" ∧ brand = some "None" := by
          simpa [Value.isOptionNone] using none_
        exact ⟨map, "None", rfl⟩
      | _ => cases none_
    · split at form
      · exact ⟨_, "Some", rfl⟩
      · cases form
  | none =>
    rw [inner] at enum form
    dsimp only at enum form
    rw [if_neg (by simp)] at enum
    split at enum
    · cases enum
    · rename_i user
      rw [if_neg user] at form
      unfold userParts at form
      split at enum
      · rename_i schema
        rw [schema] at form
        cases enum
        obtain ⟨map, brand, fields, rfl, table, -⟩ := variantParts_some form
        cases brand with
        | none => cases table
        | some variant => exact ⟨map, variant, rfl⟩
      · cases enum

/-- `#enum Color { Red, Green }` and `#enum Other { Red }`, and a parameter `Color c`. -/
def colorWalker : Walker where
  enumIndex := [("Color", ["Red", "Green"]), ("Other", ["Red"])]
  target := fun _ => none
  scope := ⟨[[("c", .schema "Color")]], fun _ => none, none, [], fun _ _ => none, fun _ => [],
    fun _ => none, fun _ => none, fun _ _ => none, fun _ => none, fun _ _ => none⟩
  closestVariant := fun _ _ => none

def colorEnv (t : TypeNode) : Option Value :=
  if t.path = ["Color"] then some (.enumSchema "Color" [] [("Red", []), ("Green", [])]) else none

/-- `Color.Red`. -/
def colorRed : Value := .dict [] (some "Red") (some "Color")

/-- The scrutinee `c`. -/
def colorVariable : Node := .bare 0 (.variable [.plain "c"])

theorem colorRed_conforms (holds : Value → Value → Prop) :
    Conforms colorEnv holds colorRed (.named "Color" default) :=
  .mk (show parts colorEnv colorRed _ = some [] from rfl) nofun fun _ => nofun

/-- The arms `Red: 1` or `path.Red {}: 1`, and `Green: 2`. -/
def colorArms (red : Expr) : List (Node × Node) :=
  [(.bare 1 red, .bare 2 (.int 1)),
    (.bare 3 (.type (.named "Green" default)), .bare 4 (.int 2))]

end Relon.Analyzer
