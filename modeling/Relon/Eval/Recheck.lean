import Relon.Eval.TypeCheck

/-! A second check of an accepted value.

A check brands records, wraps bare values for optional types and fills in defaults.
What it has looked at it takes a second time as it is. A default it inserts without
looking at it, so that the second check is the first one to see it, and may reject
or rewrite it. `checkType_again_iff` says when it does not: when what is filled in for
the missing fields of the value that came in is finished already (`Lasting`). -/
namespace Relon.Eval
open List Value
open Prog (Yields)

/-! ### Finished values -/

section
variable (env : TypeNode → Option Value) (asks : Value → Value → Prop)

/-- A field nothing has to be done about: its value satisfies the predicates, or it is missing
and may be. -/
inductive FieldFinished (map : Assoc Value) (e : String × SchemaField) : Prop where
  | there {x : Value} (there : map.lookup e.1 = some x)
    (answers : ∀ p ∈ e.2.predicates, p.isClosure → asks p x)
  | absent (missing : map.lookup e.1 = none) (default : e.2.defaultValue = none)
    (optional : e.2.mayBeAbsent)

/-- A value with nothing to wrap, brand or fill in at the top. -/
inductive Finished (t : TypeNode) : Value → Prop where
  | absent {v : Value} {inner : TypeNode} (opt : t.optionalInner = some inner)
    (none : v.isOptionNone) : Finished t v
  | payload {map : Assoc Value} {x : Value} {inner : TypeNode} (opt : t.optionalInner = some inner)
    (there : map.lookup "value" = some x) : Finished t (.dict map (some "Some") (some "Option"))
  | builtin {v : Value} {ps : List (Value × TypeNode)} (opt : t.optionalInner = none)
    (builtin : isBuiltinTypeName t.typeName) (form : builtinParts t v = some ps) : Finished t v
  | tuple {generics : List String} {fields : Assoc SchemaField} {elements : List TypeNode}
    {items : List Value} (user : t.IsUser)
    (known : env t = some (.schema generics fields (some elements)))
    (arity : items.length = elements.length) : Finished t (.tuple items)
  | record {generics : List String} {fields : Assoc SchemaField} {map : Assoc Value}
    {brand variantOf : Option String} (user : t.IsUser)
    (known : env t = some (.schema generics fields none)) (branded : brand.or t.path.head? = brand)
    (each : ∀ e ∈ fieldsFor generics t fields, FieldFinished asks map e) :
    Finished t (.dict map brand variantOf)
  | other {v : Value} {generics : List String} {fields : Assoc SchemaField} (user : t.IsUser)
    (known : env t = some (.schema generics fields none))
    (notDict : ∀ map brand variantOf, v ≠ .dict map brand variantOf) : Finished t v
  | variant {declared variant : String} {generics : List String}
    {variants : Assoc (Assoc SchemaField)} {fields : Assoc SchemaField} {map : Assoc Value}
    {variantOf : Option String} (user : t.IsUser)
    (known : env t = some (.enumSchema declared generics variants))
    (found : variants.lookup variant = some fields)
    (each : ∀ e ∈ fieldsFor generics t fields, FieldFinished asks map e) :
    Finished t (.dict map (some variant) variantOf)

/-- A finished value with finished components, down to a depth. -/
def Fixed : Nat → Value → TypeNode → Prop
  | 0, _, _ => False
  | depth + 1, v, t => Finished env asks t v ∧ ∀ p ∈ looked env v t, Fixed depth p.1 p.2

/-- What is filled in for the missing fields of a value, and those inside it, is fixed. -/
def Lasting (ctx : Context) : Nat → Value → TypeNode → Prop
  | 0, _, _ => True
  | depth + 1, v, t =>
    (t.IsUser → ∀ map fields, Declares env v t map fields → ∀ e ∈ fields, map.lookup e.1 = none →
      ∀ d, e.2.defaultValue = some d → ∀ r, Fills ctx d r →
        Fixed env asks depth r e.2.typeHint ∧ ∀ p ∈ e.2.predicates, p.isClosure → asks p r) ∧
      ∀ p ∈ looked env v t, Lasting ctx depth p.1 p.2

end

/-! ### Checks that change nothing -/

section
variable (ctx : Context) (fuel : Nat) (P : Store → Prop)

/-- A part of the check that returns `a`, whatever was checked before. -/
def Keeps {α : Type} (x : Visits → M (α × Visits)) (a : α) : Prop :=
  ∀ vs σ, P σ → ∃ vs' τ, Yields (handle ctx fuel) P (x vs) σ (a, vs') τ

/-- The check takes a value for a `t` as it is. -/
def Accepts (check : Check) (x : Value) (t : TypeNode) : Prop :=
  ∀ slot, Keeps ctx fuel P (check x slot t) x

/-- A predicate that accepts a value whenever it is asked. -/
def StillHolds (range : TokenRange) (p x : Value) : Prop :=
  ∀ σ, P σ → ∃ r τ,
    Yields (handle ctx fuel) P (callFunctionByValue p [(none, x)] range) σ r τ ∧
      r.isTruthy ctx = true

variable {ctx fuel P} {check : Check} {range : TokenRange}

theorem Keeps.ret {α : Type} (a : α) : Keeps ctx fuel P (fun vs => .ret (a, vs)) a :=
  fun vs σ standing => ⟨vs, σ, .ret standing _⟩

theorem Keeps.bind {α β : Type} {x : Visits → M (α × Visits)} {f : α × Visits → M (β × Visits)}
    {a : α} {b : β} (first : Keeps ctx fuel P x a)
    (next : Keeps ctx fuel P (fun vs => f (a, vs)) b) :
    Keeps ctx fuel P (fun vs => x vs >>= f) b := by
  intro vs σ standing
  obtain ⟨vs₁, σ₁, y⟩ := first vs σ standing
  obtain ⟨vs₂, σ₂, y'⟩ := next vs₁ σ₁ y.ends
  exact ⟨vs₂, σ₂, y.bind y'⟩

theorem Keeps.unlessSeen {inner : Visits → M (Value × Visits)} {v : Value}
    (keeps : Keeps ctx fuel P inner v) (name : String) (slot : Nat × Nat) :
    Keeps ctx fuel P (fun vs => Eval.unlessSeen name slot v vs inner) v := by
  intro vs σ standing
  show ∃ vs' τ, Yields (handle ctx fuel) P (Eval.unlessSeen name slot v vs inner) σ (v, vs') τ
  unfold Eval.unlessSeen
  split
  · exact ⟨vs, σ, .ret standing _⟩
  · exact keeps _ σ standing

theorem checkSlots_keeps {items : List (Value × TypeNode)}
    (accepts : ∀ p ∈ items, Accepts ctx fuel P check p.1 p.2) (block i : Nat) :
    Keeps ctx fuel P (checkSlots check block i items) (items.map Prod.fst) := by
  induction items generalizing i with
  | nil => exact .ret _
  | cons item rest ih =>
    obtain ⟨v, t⟩ := item
    refine Keeps.bind (accepts _ mem_cons_self (block, i)) ?_
    refine Keeps.bind (ih (fun p hp => accepts p (mem_cons_of_mem _ hp)) (i + 1)) ?_
    exact .ret _

theorem checkItems_keeps {items : List (Value × TypeNode)}
    (accepts : ∀ p ∈ items, Accepts ctx fuel P check p.1 p.2) :
    Keeps ctx fuel P (checkItems check items) (items.map Prod.fst) :=
  fun vs σ standing => checkSlots_keeps accepts vs.next 0 vs.block.2 σ standing

theorem checkZip_keeps {items : List Value} {types : List TypeNode}
    (arity : items.length = types.length)
    (accepts : ∀ p ∈ items.zip types, Accepts ctx fuel P check p.1 p.2) :
    Keeps ctx fuel P (checkItems check (items.zip types)) items := by
  have keeps := checkItems_keeps accepts
  rwa [map_fst_zip (Nat.le_of_eq arity)] at keeps

theorem checkBuiltin_keeps {v : Value} {t : TypeNode} {ps : List (Value × TypeNode)}
    (form : builtinParts t v = some ps) (accepts : ∀ p ∈ ps, Accepts ctx fuel P check p.1 p.2) :
    Keeps ctx fuel P (fun vs => checkBuiltin check v t range vs) v := by
  unfold builtinParts at form
  split at form
  case h_1 name | h_2 name | h_3 name | h_4 name | h_5 name | h_6 name | h_7 name =>
    simp only [checkBuiltin, name]
    exact .ret _
  case h_8 items name =>
    split at form
    · rename_i item hitem
      cases form
      have keeps := checkItems_keeps accepts
      have ids : (items.map fun v => (v, item)).map Prod.fst = items := by
        rw [map_map]
        exact map_id'' (fun _ => rfl) items
      rw [ids] at keeps
      simp only [checkBuiltin, name, hitem]
      exact keeps.bind (.ret (list items))
    · rename_i hitem
      simp only [checkBuiltin, name, hitem]
      exact .ret _
  case h_9 map brand variantOf name =>
    split at form
    · rename_i key entry generics
      cases form
      have keeps := checkItems_keeps accepts
      rw [map_map] at keeps
      simp only [checkBuiltin, name, generics]
      refine keeps.bind ?_
      have same : (map.map Prod.fst).zip (map.map (Prod.fst ∘ fun e => (e.2, entry))) = map := by
        rw [zip_map']
        exact map_id'' (fun _ => rfl) map
      show Keeps ctx fuel P (fun vs => .ret (dict ((map.map Prod.fst).zip
        (map.map (Prod.fst ∘ fun e => (e.2, entry)))) brand variantOf, vs)) _
      rw [same]
      exact .ret _
    · rename_i other
      intro vs σ standing
      refine ⟨vs, σ, ?_⟩
      rcases generics : t.generics with _ | ⟨key, _ | ⟨entry, _ | more⟩⟩
      case cons.cons.nil => exact (other _ _ generics).elim
      all_goals
        simp only [checkBuiltin, name, generics]
        exact .ret standing _
  case h_10 items name =>
    simp only [checkBuiltin, name]
    split at form
    · rename_i arity
      cases form
      simp only [ne_eq, arity, not_true_eq_false, if_false]
      exact (checkZip_keeps arity accepts).bind (.ret (tuple items))
    · cases form
  case h_11 => cases form

theorem applyTupleSchema_keeps {elements : List TypeNode} {items : List Value}
    (arity : items.length = elements.length)
    (accepts : ∀ p ∈ items.zip elements, Accepts ctx fuel P check p.1 p.2) :
    Keeps ctx fuel P (fun vs => applyTupleSchema check elements (.tuple items) range vs)
      (.tuple items) := by
  simp only [applyTupleSchema, ne_eq, arity, not_true_eq_false, if_false]
  exact (checkZip_keeps arity accepts).bind (.ret (tuple items))

theorem checkPredicates_keeps (name : String) (field : SchemaField) {x : Value}
    {predicates : List Value}
    (answers : ∀ p ∈ predicates, p.isClosure → StillHolds ctx fuel P range p x) {σ : Store}
    (standing : P σ) :
    ∃ τ, Yields (handle ctx fuel) P (checkPredicates ctx name field x range predicates) σ () τ := by
  induction predicates generalizing σ with
  | nil => exact ⟨σ, .ret standing _⟩
  | cons q rest ih =>
    have later : ∀ p ∈ rest, p.isClosure → StillHolds ctx fuel P range p x :=
      fun p hp => answers p (mem_cons_of_mem _ hp)
    unfold checkPredicates
    split
    · rename_i closure
      obtain ⟨r, σ₁, called, truthy⟩ := answers q mem_cons_self closure σ standing
      obtain ⟨τ, y⟩ := ih later called.ends
      exact ⟨τ, called.bind (by rw [if_pos truthy]; exact y)⟩
    · exact ih later standing

variable (ctx fuel P check range) in
/-- A field that a further check leaves as it is. -/
inductive FieldKept (map : Assoc Value) (e : String × SchemaField) : Prop where
  | there {x : Value} (there : map.lookup e.1 = some x)
    (accepts : Accepts ctx fuel P check x e.2.typeHint)
    (answers : ∀ p ∈ e.2.predicates, p.isClosure → StillHolds ctx fuel P range p x)
  | absent (default : e.2.defaultValue = none) (optional : e.2.mayBeAbsent)
    (missing : map.lookup e.1 = none)

variable {map : Assoc Value} {σ : Store}

theorem FieldFinished.kept {e : String × SchemaField}
    (finished : FieldFinished (StillHolds ctx fuel P range) map e)
    (accepts : ∀ x, map.lookup e.1 = some x → Accepts ctx fuel P check x e.2.typeHint) :
    FieldKept ctx fuel P check range map e := by
  cases finished with
  | there there answers => exact .there there (accepts _ there) answers
  | absent missing default optional => exact .absent default optional missing

theorem applyField_keeps {e : String × SchemaField} {block : Nat}
    (kept : FieldKept ctx fuel P check range map e) (vs : Visits) (standing : P σ) :
    ∃ vs' τ, Yields (handle ctx fuel) P
      (applyField ctx check block range ⟨map, [], vs⟩ e.1 e.2) σ ⟨map, [], vs'⟩ τ := by
  cases kept with
  | there there accepts answers =>
    obtain ⟨vs₁, σ₁, checked⟩ := accepts (block, map.rank e.1) vs σ standing
    obtain ⟨τ, predicates⟩ := checkPredicates_keeps e.1 e.2 answers checked.ends
    refine ⟨vs₁, τ, ?_⟩
    simp only [applyField, there]
    refine checked.bind (predicates.bind ?_)
    rw [Assoc.put_self there]
    exact .ret predicates.ends _
  | absent default optional missing =>
    refine ⟨vs, σ, ?_⟩
    have optional : (e.2.typeHint.isOptional || e.2.typeHint.path == ["Option"]) = true := optional
    simp only [applyField, missing, default, optional, if_true]
    exact .ret standing _

theorem applyFields_keeps {fields : List (String × SchemaField)} (block : Nat)
    (kept : ∀ e ∈ fields, FieldKept ctx fuel P check range map e) (vs : Visits) (standing : P σ) :
    ∃ vs' τ, Yields (handle ctx fuel) P
      (applyFields ctx check block range fields ⟨map, [], vs⟩) σ ⟨map, [], vs'⟩ τ := by
  induction fields generalizing vs σ with
  | nil => exact ⟨vs, σ, .ret standing _⟩
  | cons e rest ih =>
    obtain ⟨vs₁, σ₁, first⟩ := applyField_keeps (kept e mem_cons_self) vs standing
    obtain ⟨vs', τ, others⟩ :=
      ih (fun e' he' => kept e' (mem_cons_of_mem _ he')) vs₁ first.ends
    exact ⟨vs', τ, first.bind others⟩

theorem applySchema_keeps {brand variantOf : Option String} {fields : Assoc SchemaField}
    (kept : ∀ e ∈ fields.entries, FieldKept ctx fuel P check range map e) :
    Keeps ctx fuel P (fun vs => applySchema ctx check fields (.dict map brand variantOf) range vs)
      (.dict map brand variantOf) := by
  intro vs σ standing
  obtain ⟨vs', τ, y⟩ := applyFields_keeps vs.next kept vs.block.2 standing
  exact ⟨vs', τ, y.bind (Yields.bind (.ret y.ends _) (.ret y.ends _))⟩

theorem checkOptional_keeps {x : Value} {slot : Nat × Nat} {t inner : TypeNode}
    (there : map.lookup "value" = some x) (accepts : Accepts ctx fuel P check x inner) :
    Keeps ctx fuel P
      (fun vs => checkOptional check (.dict map (some "Some") (some "Option")) slot t inner range
        vs) (.dict map (some "Some") (some "Option")) := by
  intro vs σ standing
  obtain ⟨vs', τ, y⟩ := accepts (vs.next, map.rank "value") vs.block.2 σ standing
  refine ⟨vs', τ, ?_⟩
  have some_ : (dict map (some "Some") (some "Option")).isOptionNone = false := rfl
  simp only [checkOptional, some_, there, Bool.false_eq_true, if_false]
  refine y.bind ?_
  rw [Assoc.put_self there]
  exact .ret y.ends _

/-! ### One level -/

variable {env : TypeNode → Option Value} {scope : Scope} {t : TypeNode} {old x : Value}

theorem checkStep_optional {inner : TypeNode} (opt : t.optionalInner = some inner)
    (slot : Nat × Nat) (vs : Visits) :
    checkStep ctx check x slot t scope range vs = checkOptional check x slot t inner range vs := by
  simp only [checkStep, opt]

theorem checkStep_builtin (opt : t.optionalInner = none) (builtin : isBuiltinTypeName t.typeName)
    (slot : Nat × Nat) (vs : Visits) :
    checkStep ctx check x slot t scope range vs = checkBuiltin check x t range vs := by
  simp only [checkStep, opt, builtin, if_true]

theorem checkStep_user {schema : Value}
    (known : ∀ σ, P σ → ∀ u, (findSchema ctx scope range σ u).toOption = env u) (user : t.IsUser)
    (schemaOf : env t = some schema) {slot : Nat × Nat} (keeps : Keeps ctx fuel P
      (fun vs => checkAgainst ctx check schema x slot t range vs) x) :
    Keeps ctx fuel P (fun vs => checkStep ctx check x slot t scope range vs) x := by
  intro vs σ standing
  obtain ⟨vs', τ, y⟩ := keeps vs σ standing
  refine ⟨vs', τ, ?_⟩
  have found : findSchema ctx scope range σ t = .ok schema := by
    have named := (known σ standing t).trans schemaOf
    cases lookup : findSchema ctx scope range σ t with
    | error e => rw [lookup] at named; cases named
    | ok s => rw [lookup] at named; cases named; rfl
  simp only [checkStep, user.1, user.2, Bool.false_eq_true, if_false]
  refine yields_of_read standing ?_
  rw [found]
  exact Yields.bind (.ret standing _) y

variable {map map' : Assoc Value} {brand brand' variantOf : Option String}
  {fields : List (String × SchemaField)}

/-- A finished value is taken as it is when its components are. -/
theorem Finished.accepts (finished : Finished env (StillHolds ctx fuel P range) t x)
    (known : ∀ σ, P σ → ∀ u, (findSchema ctx scope range σ u).toOption = env u)
    (below : ∀ p ∈ looked env x t, Accepts ctx fuel P check p.1 p.2) :
    Accepts ctx fuel P (fun v slot t vs => checkStep ctx check v slot t scope range vs) x t := by
  intro slot
  cases finished with
  | absent opt none =>
    simp only [checkStep_optional opt, checkOptional, none, if_true]
    exact .ret _
  | payload opt there =>
    simp only [checkStep_optional opt]
    rw [looked_payload opt there] at below
    exact checkOptional_keeps there (below _ (mem_singleton_self _))
  | builtin opt builtin form =>
    simp only [checkStep_builtin opt builtin]
    rw [looked_builtin opt builtin form] at below
    exact checkBuiltin_keeps form below
  | @tuple generics fields elements items user schemaOf arity =>
    refine checkStep_user known user schemaOf ?_
    simp only [checkAgainst, checkRecord]
    rw [looked_tuple user schemaOf arity] at below
    exact (applyTupleSchema_keeps (by rw [length_map, arity]) below).unlessSeen _ _
  | @record generics fields map brand variantOf user schemaOf branded each =>
    refine checkStep_user known user schemaOf ?_
    simp only [checkAgainst, checkRecord]
    refine Keeps.unlessSeen ?_ _ _
    refine (applySchema_keeps fun e he => (each e he).kept fun y there => ?_).bind ?_
    · exact below (y, _) ((mem_looked_fields user (tableOf_record schemaOf _)).mpr ⟨e, he, there, rfl⟩)
    · simp only [withBrandIfNone_dict, branded]
      exact .ret _
  | other user schemaOf notDict =>
    refine checkStep_user known user schemaOf ?_
    simp only [checkAgainst, checkRecord]
    refine Keeps.unlessSeen ?_ _ _
    cases x with
    | dict map brand variantOf => exact absurd rfl (notDict map brand variantOf)
    | _ => exact .ret _
  | @variant declared name generics variants fields map variantOf user schemaOf found each =>
    refine checkStep_user known user schemaOf ?_
    simp only [checkAgainst, checkEnum, found]
    refine (applySchema_keeps fun e he => (each e he).kept fun y there => ?_).unlessSeen _ _
    exact below (y, _)
      ((mem_looked_fields user (tableOf_variant schemaOf found)).mpr ⟨e, he, there, rfl⟩)

/-! ### What one level leaves -/

variable (ctx fuel P range env) in
/-- A predicate of a schema that accepted a value accepts it again. -/
def Constant : Prop :=
  ∀ w u fields, tableOf env w u = some fields → ∀ e ∈ fields, ∀ p ∈ e.2.predicates, ∀ x,
    Answered ctx fuel P p x → StillHolds ctx fuel P range p x

theorem FieldRan.finished {e : String × SchemaField} (constant : Constant ctx fuel P range env)
    (table : tableOf env old t = some fields) (he : e ∈ fields)
    (ran : FieldRan ctx fuel P check map map' e)
    (defaults : map.lookup e.1 = none → ∀ d, e.2.defaultValue = some d → ∀ r, Fills ctx d r →
      ∀ p ∈ e.2.predicates, p.isClosure → StillHolds ctx fuel P range p r) :
    FieldFinished (StillHolds ctx fuel P range) map' e := by
  cases ran with
  | checked before there ran accepted =>
    refine .there there fun p hp closure => ?_
    exact constant _ _ _ table e he p hp _ (accepted p hp closure)
  | filled before default fills there =>
    exact .there there (defaults before _ default _ fills)
  | absent before default optional missing => exact .absent missing default optional

section
variable {good : Value → TypeNode → Prop} (constant : Constant ctx fuel P range env)
  (below : ∀ o ∈ looked env old t, ∀ y, Ran ctx fuel P check o.1 y o.2 → good y o.2)
include constant below

theorem FieldsRan.finished (ran : FieldsRan ctx fuel P check fields map map') (user : t.IsUser)
    (declares : Declares env old t map fields) (apart : Apart map fields)
    (table : tableOf env (.dict map' brand' variantOf) t = some fields)
    (defaults : ∀ e ∈ fields, map.lookup e.1 = none → ∀ d, e.2.defaultValue = some d →
      ∀ r, Fills ctx d r → good r e.2.typeHint ∧
        ∀ p ∈ e.2.predicates, p.isClosure → StillHolds ctx fuel P range p r) :
    (∀ e ∈ fields, FieldFinished (StillHolds ctx fuel P range) map' e) ∧
      ∀ p ∈ looked env (.dict map' brand' variantOf) t, good p.1 p.2 := by
  have ran := ran.ran apart
  obtain ⟨before, brand, owner, rfl⟩ := declares
  refine ⟨fun e he => (ran e he).finished constant before he fun missing d default r fills =>
    (defaults e he missing d default r fills).2, fun p hp => ?_⟩
  obtain ⟨e, he, there, type⟩ := (mem_looked_fields user table).mp hp
  rw [type]
  cases ran e he with
  | @checked o y old_ there' ran _ =>
    rw [there] at there'
    cases there'
    exact below (o, e.2.typeHint) ((mem_looked_fields user before).mpr ⟨e, he, old_, rfl⟩) _ ran
  | filled missing default fills there' =>
    rw [there] at there'
    cases there'
    exact (defaults e he missing _ default _ fills).1
  | absent _ _ _ missing =>
    rw [there] at missing
    cases missing

/-- What one level returns is finished, and its components are good when what it filled in is. -/
theorem StepRan.finished (step : StepRan ctx fuel P check env t old x)
    (apart : t.IsUser → ∀ map fields, Declares env old t map fields → Apart map fields)
    (defaults : t.IsUser → ∀ map fields, Declares env old t map fields → ∀ e ∈ fields,
      map.lookup e.1 = none → ∀ d, e.2.defaultValue = some d → ∀ r, Fills ctx d r →
        good r e.2.typeHint ∧ ∀ p ∈ e.2.predicates, p.isClosure → StillHolds ctx fuel P range p r) :
    Finished env (StillHolds ctx fuel P range) t x ∧ ∀ p ∈ looked env x t, good p.1 p.2 := by
  cases step with
  | absent opt none =>
    refine ⟨.absent opt none, fun p hp => ?_⟩
    simp only [looked, opt, none, if_true] at hp
    exact absurd hp not_mem_nil
  | @payload map p x inner opt there ran =>
    have there' : (map.put "value" x).lookup "value" = some x := by
      rw [Assoc.lookup_put, if_pos rfl]
    rw [looked_payload opt there] at below
    rw [looked_payload opt there']
    exact ⟨.payload opt there', forall_mem_singleton.mpr (below _ (mem_singleton_self _) x ran)⟩
  | @wrapped _ x inner opt present bare ran =>
    rw [looked_bare opt present bare] at below
    have there : [("value", x)].lookup "value" = some x := rfl
    refine ⟨.payload opt there, ?_⟩
    rw [Value.optionSome, Value.variantDict, looked_payload opt there]
    exact forall_mem_singleton.mpr (below _ (mem_singleton_self _) x ran)
  | builtin opt builtin before form renewed =>
    rw [looked_builtin opt builtin before] at below
    rw [looked_builtin opt builtin form]
    refine ⟨.builtin opt builtin form, fun p hp => ?_⟩
    obtain ⟨o, ho, type, ran⟩ := renewed.source hp
    exact type ▸ below o ho p.1 (type ▸ ran)
  | tuple user schemaOf before arity renewed =>
    rw [looked_tuple user schemaOf before] at below
    rw [looked_tuple user schemaOf arity]
    refine ⟨.tuple user schemaOf arity, fun p hp => ?_⟩
    obtain ⟨o, ho, type, ran⟩ := renewed.source hp
    exact type ▸ below o ho p.1 (type ▸ ran)
  | @record generics fields map map' brand variantOf user schemaOf ran =>
    have declares : Declares env (.dict map brand variantOf) t map (fieldsFor generics t fields) :=
      ⟨tableOf_record schemaOf _, brand, variantOf, rfl⟩
    obtain ⟨each, components⟩ := ran.finished constant below user declares
      (apart user _ _ declares) (tableOf_record schemaOf _) (defaults user _ _ declares)
    exact ⟨.record user schemaOf (by rw [Option.or_assoc, Option.or_self]) each, components⟩
  | other user schemaOf notDict =>
    refine ⟨.other user schemaOf notDict, fun p hp => ?_⟩
    rw [looked_other user schemaOf notDict] at hp
    exact absurd hp not_mem_nil
  | @variant declared name generics variants fields map map' variantOf user schemaOf found ran =>
    have declares : Declares env (.dict map (some name) variantOf) t map
        (fieldsFor generics t fields) :=
      ⟨tableOf_variant schemaOf found, some name, variantOf, rfl⟩
    obtain ⟨each, components⟩ := ran.finished constant below user declares
      (apart user _ _ declares) (tableOf_variant schemaOf found) (defaults user _ _ declares)
    exact ⟨.variant user schemaOf found each, components⟩

end

theorem Finished.declared {asks : Value → Value → Prop} (finished : Finished env asks t x)
    (user : t.IsUser) (declares : Declares env x t map fields) :
    ∀ e ∈ fields, FieldFinished asks map e := by
  obtain ⟨table, brand, variantOf, same⟩ := declares
  cases finished with
  | absent opt _ | payload opt _ =>
    exact absurd opt user.not_optional
  | builtin opt builtin _ =>
    exact absurd builtin user.not_builtin
  | tuple _ schemaOf _ => cases same
  | record _ schemaOf _ each =>
    cases same
    rw [tableOf_record schemaOf] at table
    cases table
    exact each
  | other _ schemaOf notDict => exact absurd same (notDict _ _ _)
  | variant _ schemaOf found each =>
    cases same
    rw [tableOf_variant schemaOf found] at table
    cases table
    exact each

/-! ### What a second check that changes nothing has seen -/

theorem filledIn_self {fields : List (String × SchemaField)}
    (none_ : ∀ e ∈ fields, map.lookup e.1 = none → ∀ d, e.2.defaultValue = some d → d.isClosure) :
    filledIn map fields = map := by
  induction fields with
  | nil => rfl
  | cons e rest ih =>
    have rest_ := ih fun e' he' => none_ e' (mem_cons_of_mem _ he')
    rw [filledIn]
    split
    · rename_i d missing default
      rw [if_pos (none_ e mem_cons_self missing d default), rest_]
    · exact rest_

theorem FieldsRan.apart (ran : FieldsRan ctx fuel P check fields map map)
    (names : (fields.map Prod.fst).Nodup) : Apart map fields := by
  -- a default that is a value would be in the map, so nothing was moved
  have none_ : ∀ e ∈ fields, map.lookup e.1 = none → ∀ d, e.2.defaultValue = some d →
      d.isClosure := by
    intro e he missing d default
    by_contra static
    have there := ran.filled e he missing d default static
    rw [missing] at there
    cases there
  intro front e mid e' back split x x' name there there' _ _ same
  rw [split] at none_ names
  rw [placeBehind, placeBehind, filledIn_self fun e₀ he₀ => none_ e₀ (mem_append_left _ he₀),
    filledIn_self fun e₀ he₀ => none_ e₀ (by
      rw [mem_append, mem_cons] at he₀ ⊢
      exact he₀.imp_right (Or.imp_right (mem_append_left _)))] at same
  have equal := Assoc.rank_inj there there' same
  rw [map_append, map_cons, map_append, map_cons] at names
  have distinct := (nodup_cons.mp (nodup_append.mp names).2.1).1
  exact distinct (equal ▸ mem_append_right _ mem_cons_self)

theorem Renewed.self {ps : List (Value × TypeNode)} (h : Renewed ctx fuel P check ps ps)
    {p : Value × TypeNode} (mem : p ∈ ps) : Ran ctx fuel P check p.1 p.1 p.2 := by
  obtain ⟨i, hi, rfl⟩ := mem_iff_getElem.mp mem
  exact (forall₂_iff_get.mp h).2 i hi hi |>.2

theorem FieldsRan.unchanged (constant : Constant ctx fuel P range env) (user : t.IsUser)
    (table : tableOf env (.dict map brand variantOf) t = some fields)
    (names : (fields.map Prod.fst).Nodup) (ran : FieldsRan ctx fuel P check fields map map) :
    (∀ e ∈ fields, FieldFinished (StillHolds ctx fuel P range) map e) ∧
      ∀ p ∈ looked env (.dict map brand variantOf) t, Ran ctx fuel P check p.1 p.1 p.2 := by
  have ran := ran.ran (ran.apart names)
  refine ⟨fun e he => ?_, fun p hp => ?_⟩
  · refine (ran e he).finished constant table he fun missing => ?_
    cases ran e he with
    | checked before _ _ _ => rw [missing] at before; cases before
    | filled _ _ _ there => rw [missing] at there; cases there
    | absent _ default _ _ =>
      intro d default'
      rw [default] at default'
      cases default'
  · obtain ⟨e, he, there, type⟩ := (mem_looked_fields user table).mp hp
    rw [type]
    cases ran e he with
    | checked before there' ran _ =>
      rw [there] at before there'
      cases before
      cases there'
      exact ran
    | filled missing _ _ _ | absent missing _ _ _ =>
      rw [there] at missing
      cases missing

theorem StepRan.unchanged (constant : Constant ctx fuel P range env)
    (step : StepRan ctx fuel P check env t old x) (same : old = x) :
    Finished env (StillHolds ctx fuel P range) t x ∧
      ∀ p ∈ looked env x t, Ran ctx fuel P check p.1 p.1 p.2 := by
  cases step with
  | absent opt none =>
    refine ⟨.absent opt none, fun p hp => ?_⟩
    simp only [looked, opt, none, if_true] at hp
    exact absurd hp not_mem_nil
  | @payload map p x inner opt there ran =>
    have put : (map.put "value" x).lookup "value" = some x := by
      rw [Assoc.lookup_put, if_pos rfl]
    rw [looked_payload opt put]
    refine ⟨.payload opt put, forall_mem_singleton.mpr ?_⟩
    rw [← (dict.inj same).1, there] at put
    cases put
    exact ran
  | @wrapped _ x inner opt present bare ran => exact absurd same (bare [("value", x)])
  | builtin opt builtin before form renewed =>
    rw [same, form] at before
    cases before
    rw [looked_builtin opt builtin form]
    exact ⟨.builtin opt builtin form, fun p hp => renewed.self hp⟩
  | tuple user schemaOf before arity renewed =>
    cases same
    rw [looked_tuple user schemaOf arity]
    exact ⟨.tuple user schemaOf arity, fun p hp => renewed.self hp⟩
  | @record generics fields map map' brand variantOf user schemaOf ran =>
    rw [(dict.inj same).1] at ran
    obtain ⟨each, components⟩ := ran.unchanged constant user (tableOf_record schemaOf _)
      (Assoc.entries_nodup _)
    exact ⟨.record user schemaOf (by rw [Option.or_assoc, Option.or_self]) each, components⟩
  | other user schemaOf notDict =>
    refine ⟨.other user schemaOf notDict, fun p hp => ?_⟩
    rw [looked_other user schemaOf notDict] at hp
    exact absurd hp not_mem_nil
  | variant user schemaOf found ran =>
    rw [(dict.inj same).1] at ran
    obtain ⟨each, components⟩ := ran.unchanged constant user (tableOf_variant schemaOf found)
      (Assoc.entries_nodup _)
    exact ⟨.variant user schemaOf found each, components⟩

end

/-! ### The whole check -/

section
variable {ctx : Context} {fuel : Nat} {P : Store → Prop} {scope : Scope} {range : TokenRange}
  {env : TypeNode → Option Value} {depth : Nat} {old x : Value} {t : TypeNode}
  (known : ∀ σ, P σ → ∀ u, (findSchema ctx scope range σ u).toOption = env u)
include known

theorem Fixed.accepts (fixed : Fixed env (StillHolds ctx fuel P range) depth x t) :
    Accepts ctx fuel P (checkTypeInternal ctx scope range depth) x t := by
  induction depth generalizing x t with
  | zero => exact fixed.elim
  | succ depth ih => exact fixed.1.accepts known fun p hp => ih (fixed.2 p hp)

variable (constant : Constant ctx fuel P range env)
include constant

theorem Fixed.of_unchanged (ran : Ran ctx fuel P (checkTypeInternal ctx scope range depth) x x t) :
    Fixed env (StillHolds ctx fuel P range) depth x t := by
  induction depth generalizing x t with
  | zero =>
    obtain ⟨_, _, _, _, _, y, _⟩ := ran
    exact y.of_fail.elim
  | succ depth ih =>
    obtain ⟨finished, components⟩ :=
      (checkStep_ran known (checkTypeInternal_marks depth) ran).unchanged constant rfl
    exact ⟨finished, fun p hp => ih (components p hp)⟩

theorem Lasting.fixed (ran : Ran ctx fuel P (checkTypeInternal ctx scope range depth) old x t)
    (lasting : Lasting env (StillHolds ctx fuel P range) ctx depth old t)
    (apart : ∀ w u, Sees env old t w u → u.IsUser → ∀ map fields, Declares env w u map fields →
      Apart map fields) : Fixed env (StillHolds ctx fuel P range) depth x t := by
  induction depth generalizing old x t with
  | zero =>
    obtain ⟨_, _, _, _, _, y, _⟩ := ran
    exact y.of_fail.elim
  | succ depth ih =>
    refine (checkStep_ran known (checkTypeInternal_marks depth) ran).finished constant
      (fun o ho y ran => ?_) (apart old t .here) lasting.1
    exact ih ran (lasting.2 o ho) fun w u pos => apart w u (.inside ho pos)

omit constant in
theorem Lasting.of_fixed (ran : Ran ctx fuel P (checkTypeInternal ctx scope range depth) old x t)
    (plain : ∀ w u, Sees env old t w u → u.IsUser → Direct env w u)
    (fixed : Fixed env (StillHolds ctx fuel P range) depth x t) :
    Lasting env (StillHolds ctx fuel P range) ctx depth old t := by
  induction depth generalizing old x t with
  | zero => exact trivial
  | succ depth ih =>
    have step := checkStep_ran known (checkTypeInternal_marks depth) ran
    refine ⟨fun user map fields declares e he missing d default r fills => ?_, fun o ho => ?_⟩
    · have plainHere := plain old t .here user
      have static := plainHere.static _ _ declares e he missing d default
      obtain ⟨map', declares', ran⟩ := step.declared user declares
      have there := ran.filled e he missing d default static
      cases fills with
      | computed closure _ => exact absurd closure static
      | static =>
        refine ⟨fixed.2 (d, e.2.typeHint) ?_, ?_⟩
        · obtain ⟨table, _, _, rfl⟩ := declares'
          exact (mem_looked_fields user table).mpr ⟨e, he, there, rfl⟩
        · cases fixed.1.declared user declares' e he with
          | there there' answers =>
            rw [there] at there'
            cases there'
            exact answers
          | absent missing' _ _ =>
            rw [there] at missing'
            cases missing'
    · obtain ⟨y, after, ran⟩ :=
        step.components (fun user => (plain old t .here user).apart) o ho
      exact ih ran (fun w u pos => plain w u (.inside ho pos)) (fixed.2 _ after)

end

/-- The only schema of the host is `Point`, whose fields have no predicates. -/
theorem pointHost_predicates {w : Value} {u : TypeNode} {fields : List (String × SchemaField)}
    (table : tableOf (typesIn pointHost emptyScope.1 default emptyStore) w u = some fields) :
    ∀ e ∈ fields, e.2.predicates = [] := by
  have schema : ∀ s, typesIn pointHost emptyScope.1 default emptyStore u = some s →
      s = .schema [] [("x", .mk (.named "Int" default) [] none none),
        ("y", .mk (.named "Int" default) [] none (some (.int 0)))] none := by
    intro s found
    have none_ : ∀ name, emptyStore.getLocal emptyScope.1 name = none := fun _ => rfl
    simp only [typesIn, findSchema, none_, Option.none_or, pointHost, lookup_cons, lookup_nil] at found
    split at found
    · rename_i there
      split at there
      · cases there
        cases tail : u.path.tail with
        | nil =>
          rw [tail] at found
          cases found
          rfl
        | cons part rest =>
          rw [tail] at found
          cases found
      · cases there
    · cases found
  unfold tableOf at table
  split at table
  · rename_i known
    cases schema _ known
    cases table
    intro e he
    rcases mem_cons.mp he with rfl | he
    · rfl
    · cases mem_singleton.mp he
      rfl
  · rename_i known
    cases schema _ known
  · cases table

/-- The default of `#default 5 Option<Int> x: *` is no value of an optional type until the second
check wraps it. -/
def wrappingHost : Context :=
  { pointHost with
    schemas := [("Padded", .schema []
      [("x", .mk { TypeNode.named "Option" default with generics := [.named "Int" default] } [] none
        (some (.int 5)))]
      none)] }

example : (checkType wrappingHost (.dict [] none none) (.named "Padded" default) emptyScope.1
    default).run (handle wrappingHost 0) emptyStore =
      some (.ok (.dict [("x", .int 5)] (some "Padded") none), emptyStore) ∧
    (checkType wrappingHost (.dict [("x", .int 5)] (some "Padded") none) (.named "Padded" default)
      emptyScope.1 default).run (handle wrappingHost 0) emptyStore =
      some (.ok (.dict [("x", .optionSome (.int 5))] (some "Padded") none), emptyStore) :=
  ⟨rfl, rfl⟩

end Relon.Eval
