import Relon.Eval.Run

/-! What the runtime type check establishes.

`Conforms` says when a value is of a type. A value the check accepts is of its type
at every position where the check did look, and this module says where it does not:
it takes any value that is not a dict for a record, never looks at a default it
fills in, and does not ask which enum a variant belongs to. All of these are
conditions on the value before the check and on the schemas (`Honest`). -/
namespace Relon.Eval

/-! ### Conformance -/

def SchemaField.mayBeAbsent (f : SchemaField) : Bool :=
  f.typeHint.isOptional || f.typeHint.path == ["Option"]

/-- A type whose name the program defines. -/
def TypeNode.IsUser (t : TypeNode) : Prop :=
  t.optionalInner = none ∧ isBuiltinTypeName t.typeName = false

theorem TypeNode.IsUser.not_optional {t inner : TypeNode} (user : t.IsUser) :
    t.optionalInner ≠ some inner := by
  rw [user.1]
  nofun

theorem TypeNode.IsUser.not_builtin {t : TypeNode} (user : t.IsUser) :
    ¬ isBuiltinTypeName t.typeName = true := by
  simp [user.2]

section
variable (env : TypeNode → Option Value) (holds : Value → Value → Prop)

/-- `None`, or `Some` with a payload. -/
def optionParts (inner : TypeNode) (v : Value) : Option (List (Value × TypeNode)) :=
  if v.isOptionNone then some []
  else match v with
    | .dict map (some "Some") (some "Option") => (map.lookup "value").map fun p => [(p, inner)]
    | _ => none

/-- The built-in types: the tag, and the elements of a container. -/
def builtinParts (t : TypeNode) (v : Value) : Option (List (Value × TypeNode)) :=
  match t.typeName, v with
  | "Any", _ => some []
  | "Int", .int _ => some []
  | "Float", .float _ => some []
  | "Number", .int _ => some []
  | "Number", .float _ => some []
  | "String", .string _ => some []
  | "Bool", .bool _ => some []
  | "List", .list items =>
    match t.generics.head? with
    | some item => some (items.map fun v => (v, item))
    | none => some []
  | "Dict", .dict map _ _ =>
    match t.generics with
    | [_, entry] => some (map.map fun e => (e.2, entry))
    | _ => some []
  | "Tuple", .tuple items =>
    if items.length = t.generics.length then some (items.zip t.generics) else none
  | _, _ => none

def tupleParts (elements : List TypeNode) (v : Value) : Option (List (Value × TypeNode)) :=
  match v with
  | .tuple items => if items.length = elements.length then some (items.zip elements) else none
  | _ => none

/-- The declared fields of a map, when none is missing that has to be there. -/
def fieldParts (fields : List (String × SchemaField)) (map : Assoc Value) :
    Option (List (Value × TypeNode)) :=
  if fields.all fun e => (map.lookup e.1).isSome || e.2.mayBeAbsent then
    some (fields.filterMap fun e => (map.lookup e.1).map fun x => (x, e.2.typeHint))
  else none

def enumName (declared : String) (t : TypeNode) : String :=
  if declared.isEmpty then t.typeName else declared

/-- A schema's fields with the type arguments in place. -/
def fieldsFor (generics : List String) (t : TypeNode) (fields : Assoc SchemaField) :
    List (String × SchemaField) :=
  (substituteFields (substMap generics t.generics) fields).entries

/-- The fields of the variant a value is branded with. -/
def variantTable (generics : List String) (variants : Assoc (Assoc SchemaField)) (t : TypeNode)
    (v : Value) : Option (List (String × SchemaField)) :=
  match v with
  | .dict _ (some variant) _ => (variants.lookup variant).map (fieldsFor generics t)
  | _ => none

/-- The fields a user type declares for a value: a record's or a variant's. -/
def tableOf (v : Value) (t : TypeNode) : Option (List (String × SchemaField)) :=
  match env t with
  | some (.schema generics fields none) => some (fieldsFor generics t fields)
  | some (.enumSchema _ generics variants) => variantTable generics variants t v
  | _ => none

def recordParts (fields : List (String × SchemaField)) (v : Value) :
    Option (List (Value × TypeNode)) :=
  match v with
  | .dict map _ _ => fieldParts fields map
  | _ => none

/-- A value of an enum is a dict that carries the enum's name and one of its variants. -/
def variantParts (name : String) (table : Option (List (String × SchemaField))) (v : Value) :
    Option (List (Value × TypeNode)) :=
  match v with
  | .dict map _ (some owner) =>
    if owner = name then table.bind fun fields => fieldParts fields map else none
  | _ => none

def userParts (t : TypeNode) (v : Value) : Option (List (Value × TypeNode)) :=
  match env t with
  | some (.schema generics _ (some elements)) =>
    tupleParts (elements.map (TypeNode.substitute (substMap generics t.generics))) v
  | some (.schema generics fields none) => recordParts (fieldsFor generics t fields) v
  | some (.enumSchema declared generics variants) =>
    variantParts (enumName declared t) (variantTable generics variants t v) v
  | _ => none

/-- The components of a value seen as a `t`, with their types; none when the value has
not the form of a `t`. -/
def parts (v : Value) (t : TypeNode) : Option (List (Value × TypeNode)) :=
  match t.optionalInner with
  | some inner => optionParts inner v
  | none => if isBuiltinTypeName t.typeName then builtinParts t v else userParts env t v

/-- The predicates on the fields of a value, each with what it is asked of. -/
def guards (v : Value) (t : TypeNode) : List (Value × Value) :=
  match tableOf env v t, v with
  | some fields, .dict map _ _ => fields.flatMap fun e =>
    match map.lookup e.1 with
    | some x => (e.2.predicates.filter Value.isClosure).map fun p => (p, x)
    | none => []
  | _, _ => []

/-- A value is of a type: it has its form, its components are of their types, and the
predicates on its fields hold. -/
inductive Conforms : Value → TypeNode → Prop where
  | mk {v : Value} {t : TypeNode} {ps : List (Value × TypeNode)} (form : parts env v t = some ps)
    (below : ∀ p ∈ ps, Conforms p.1 p.2)
    (guarded : t.IsUser → ∀ g ∈ guards env v t, holds g.1 g.2) : Conforms v t

/-- The components of a value the check looks at, with the types it holds them against. -/
def looked (v : Value) (t : TypeNode) : List (Value × TypeNode) :=
  match t.optionalInner with
  | some inner =>
    if v.isOptionNone then []
    else match v with
      | .dict map (some "Some") (some "Option") => ((map.lookup "value").map fun p => (p, inner)).toList
      | bare => [(bare, inner)]
  | none =>
    if isBuiltinTypeName t.typeName then (builtinParts t v).getD []
    else match tableOf env v t, v with
      | some fields, .dict map _ _ =>
        fields.filterMap fun e => (map.lookup e.1).map fun x => (x, e.2.typeHint)
      | _, _ => (userParts env t v).getD []

/-- The positions of a value the check reaches. -/
inductive Sees : Value → TypeNode → Value → TypeNode → Prop where
  | here {v : Value} {t : TypeNode} : Sees v t v t
  | inside {v w : Value} {t u : TypeNode} {p : Value × TypeNode} (mem : p ∈ looked env v t)
    (rest : Sees p.1 p.2 w u) : Sees v t w u

end

/-! ### Places -/

/-- A check of `v` against `t` is entered in the `visited` set under this type's name: that of
the type, or of what an optional type wraps when the value is bare. -/
inductive Marked (v : Value) : TypeNode → String → Prop where
  | user {t : TypeNode} (user : t.IsUser) : Marked v t t.typeName
  | bare {t inner : TypeNode} {name : String} (opt : t.optionalInner = some inner)
    (present : v.isOptionNone = false) (bare : ∀ map, v ≠ .dict map (some "Some") (some "Option"))
    (rest : Marked v inner name) : Marked v t name

/-- The map when these fields are through: the defaults of the missing ones are in it. -/
def filledIn (map : Assoc Value) : List (String × SchemaField) → Assoc Value
  | [] => map
  | e :: rest =>
    match map.lookup e.1, e.2.defaultValue with
    | none, some d =>
      if d.isClosure then filledIn map rest else filledIn (map.insertSorted e.1 d) rest
    | _, _ => filledIn map rest

/-- Where a field stands in the map when it is checked, behind these fields. -/
def placeBehind (map : Assoc Value) (before : List (String × SchemaField)) (name : String) : Nat :=
  (filledIn map before).rank name

/-- No field is checked where another was under the same name of a type: the address is not
new then, and the check is skipped. -/
def Apart (map : Assoc Value) (fields : List (String × SchemaField)) : Prop :=
  ∀ front e mid e' back, fields = front ++ e :: (mid ++ e' :: back) →
    ∀ x x' name, map.lookup e.1 = some x → map.lookup e'.1 = some x' →
      Marked x e.2.typeHint name → Marked x' e'.2.typeHint name →
      placeBehind map front e.1 ≠ placeBehind map (front ++ e :: mid) e'.1

/-- What a default puts in its place: itself, or what it returns when it is called. -/
inductive Fills (ctx : Context) (d : Value) : Value → Prop where
  | static (static : ¬ d.isClosure) : Fills ctx d d
  | computed {r snapshot : Value} {range : TokenRange} {fuel : Nat} {σ τ : Store}
    (closure : d.isClosure) (called : (callFunctionByValue d [(none, snapshot)] range).run
      (handle ctx fuel) σ = some (.ok r, τ)) : Fills ctx d r

section
variable (env : TypeNode → Option Value) (holds : Value → Value → Prop)

/-- A dict and the fields its type declares for it. -/
def Declares (v : Value) (t : TypeNode) (map : Assoc Value) (fields : List (String × SchemaField)) :
    Prop :=
  tableOf env v t = some fields ∧ ∃ brand variantOf, v = .dict map brand variantOf

/-- Where the trust of the check is justified, on a value before the check. -/
structure Honest (ctx : Context) (v : Value) (t : TypeNode) : Prop where
  /-- A record is a dict. -/
  dict : ∀ generics fields, env t = some (.schema generics fields none) →
    ∃ map brand variantOf, v = .dict map brand variantOf
  /-- A variant is one of this enum. -/
  owned : ∀ declared generics variants, env t = some (.enumSchema declared generics variants) →
    ∃ map brand, v = .dict map brand (some (enumName declared t))
  /-- What is filled in for a missing field is of its type and satisfies its predicates. -/
  defaults : ∀ map fields, Declares env v t map fields → ∀ e ∈ fields, map.lookup e.1 = none →
    ∀ d, e.2.defaultValue = some d → ∀ r, Fills ctx d r →
      Conforms env holds r e.2.typeHint ∧ ∀ p ∈ e.2.predicates, p.isClosure → holds p r
  /-- No field is skipped. -/
  apart : ∀ map fields, Declares env v t map fields → Apart map fields

/-- No computed default is filled in, and no field is skipped. -/
structure Direct (v : Value) (t : TypeNode) : Prop where
  static : ∀ map fields, Declares env v t map fields → ∀ e ∈ fields, map.lookup e.1 = none →
    ∀ d, e.2.defaultValue = some d → ¬ d.isClosure
  apart : ∀ map fields, Declares env v t map fields → Apart map fields

variable {env holds} {v w : Value} {t u : TypeNode}

variable {fields : List (String × SchemaField)} {map : Assoc Value} {ps : List (Value × TypeNode)}
  {x : Value} {inner : TypeNode}

theorem mem_fieldParts (form : fieldParts fields map = some ps) {e : String × SchemaField}
    (he : e ∈ fields) (hx : map.lookup e.1 = some x) : (x, e.2.typeHint) ∈ ps := by
  unfold fieldParts at form
  split at form
  · cases form
    exact List.mem_filterMap.mpr ⟨e, he, by rw [hx]; rfl⟩
  · cases form

theorem parts_user (user : t.IsUser) : parts env v t = userParts env t v := by
  rw [parts, user.1]
  simp [user.2]

theorem parts_optional (opt : t.optionalInner = some inner) :
    parts env v t = optionParts inner v := by
  rw [parts, opt]

theorem parts_builtin (opt : t.optionalInner = none) (builtin : isBuiltinTypeName t.typeName) :
    parts env v t = builtinParts t v := by
  rw [parts, opt]
  simp [builtin]

theorem optionParts_some (there : map.lookup "value" = some x) :
    optionParts inner (.dict map (some "Some") (some "Option")) = some [(x, inner)] := by
  simp only [optionParts, Value.isOptionNone, there, Option.map_some]
  rfl

theorem recordParts_some (form : recordParts fields v = some ps) :
    ∃ map brand variantOf, v = .dict map brand variantOf ∧ fieldParts fields map = some ps := by
  cases v with
  | dict map brand variantOf => exact ⟨map, brand, variantOf, rfl, form⟩
  | _ => cases form

theorem variantParts_some {name : String} {table : Option (List (String × SchemaField))}
    (form : variantParts name table v = some ps) :
    ∃ map brand fields, v = .dict map brand (some name) ∧ table = some fields ∧
      fieldParts fields map = some ps := by
  unfold variantParts at form
  split at form
  · split at form
    · rename_i map brand owner same
      obtain ⟨fields, table, form⟩ := Option.bind_eq_some_iff.mp form
      exact ⟨map, brand, fields, by rw [same], table, form⟩
    · cases form
  · cases form

theorem userParts_table (table : tableOf env v t = some fields) (form : userParts env t v = some ps) :
    ∃ map brand variantOf, v = .dict map brand variantOf ∧ fieldParts fields map = some ps := by
  unfold tableOf at table
  unfold userParts at form
  split at table
  · rename_i schema
    rw [schema] at form
    cases table
    exact recordParts_some form
  · rename_i schema
    rw [schema] at form
    obtain ⟨map, brand, fields', same, table', form⟩ := variantParts_some form
    rw [table] at table'
    cases table'
    exact ⟨map, brand, _, same, form⟩
  · cases table

theorem mem_looked_fields {brand variantOf : Option String} (user : t.IsUser)
    (table : tableOf env (.dict map brand variantOf) t = some fields) {p : Value × TypeNode} :
    p ∈ looked env (.dict map brand variantOf) t ↔
      ∃ e ∈ fields, map.lookup e.1 = some p.1 ∧ p.2 = e.2.typeHint := by
  simp only [looked, user.1, if_neg user.not_builtin, table, List.mem_filterMap, Option.map_eq_some_iff]
  refine exists_congr fun e => and_congr_right fun _ => ?_
  constructor
  · rintro ⟨x, there, rfl⟩
    exact ⟨there, rfl⟩
  · rintro ⟨there, type⟩
    exact ⟨p.1, there, Prod.ext rfl type.symm⟩

theorem userParts_tuple {generics : List String} {schemaFields : Assoc SchemaField}
    {elements : List TypeNode} {items : List Value}
    (known : env t = some (.schema generics schemaFields (some elements)))
    (arity : items.length = elements.length) : userParts env t (.tuple items) =
      some (items.zip (elements.map (TypeNode.substitute (substMap generics t.generics)))) := by
  simp [userParts, known, tupleParts, arity]

theorem looked_tuple {generics : List String} {schemaFields : Assoc SchemaField}
    {elements : List TypeNode} {items : List Value} (user : t.IsUser)
    (known : env t = some (.schema generics schemaFields (some elements)))
    (arity : items.length = elements.length) : looked env (.tuple items) t =
      items.zip (elements.map (TypeNode.substitute (substMap generics t.generics))) := by
  have table : tableOf env (.tuple items) t = none := by simp only [tableOf, known]
  simp only [looked, user.1, if_neg user.not_builtin, table, userParts_tuple known arity, Option.getD_some]

theorem looked_other {generics : List String} {schemaFields : Assoc SchemaField} (user : t.IsUser)
    (known : env t = some (.schema generics schemaFields none))
    (notDict : ∀ map brand variantOf, v ≠ .dict map brand variantOf) : looked env v t = [] := by
  have parts : userParts env t v = none := by
    simp only [userParts, known]
    cases v with
    | dict map brand variantOf => exact absurd rfl (notDict map brand variantOf)
    | _ => rfl
  simp only [looked, user.1, if_neg user.not_builtin]
  split
  · exact absurd rfl (notDict _ _ _)
  · rw [parts, Option.getD_none]

theorem tableOf_record {generics : List String} {schemaFields : Assoc SchemaField}
    (known : env t = some (.schema generics schemaFields none)) (v : Value) :
    tableOf env v t = some (fieldsFor generics t schemaFields) := by
  simp only [tableOf, known]

theorem tableOf_variant {declared variant : String} {generics : List String}
    {variants : Assoc (Assoc SchemaField)} {variantFields : Assoc SchemaField}
    {variantOf : Option String} (known : env t = some (.enumSchema declared generics variants))
    (found : variants.lookup variant = some variantFields) :
    tableOf env (.dict map (some variant) variantOf) t = some (fieldsFor generics t variantFields) := by
  simp only [tableOf, known, variantTable, found, Option.map_some]

theorem looked_builtin (opt : t.optionalInner = none) (builtin : isBuiltinTypeName t.typeName)
    (form : builtinParts t v = some ps) : looked env v t = ps := by
  simp only [looked, opt, builtin, if_true, form, Option.getD_some]

theorem looked_payload (opt : t.optionalInner = some inner) (there : map.lookup "value" = some x) :
    looked env (.dict map (some "Some") (some "Option")) t = [(x, inner)] := by
  have present : (Value.dict map (some "Some") (some "Option")).isOptionNone = false := rfl
  simp only [looked, opt, present, Bool.false_eq_true, if_false, there, Option.map_some,
    Option.toList_some]

theorem looked_bare (opt : t.optionalInner = some inner) (present : v.isOptionNone = false)
    (bare : ∀ map, v ≠ .dict map (some "Some") (some "Option")) : looked env v t = [(v, inner)] := by
  simp only [looked, opt, present, Bool.false_eq_true, if_false]

theorem mem_guards {brand variantOf : Option String} {g : Value × Value}
    (table : tableOf env (.dict map brand variantOf) t = some fields) :
    g ∈ guards env (.dict map brand variantOf) t ↔
      ∃ e ∈ fields, map.lookup e.1 = some g.2 ∧ g.1 ∈ e.2.predicates ∧ g.1.isClosure := by
  simp only [guards, table, List.mem_flatMap]
  refine exists_congr fun e => and_congr_right fun _ => ?_
  cases map.lookup e.1 with
  | none => simp
  | some x =>
    obtain ⟨p, y⟩ := g
    simp only [List.mem_map, List.mem_filter, Option.some.injEq, Prod.mk.injEq]
    constructor
    · intro ⟨q, hq, same, value⟩
      exact ⟨value, same ▸ hq.1, same ▸ hq.2⟩
    · intro ⟨value, hp, closure⟩
      exact ⟨p, ⟨hp, closure⟩, rfl, value⟩

theorem mem_of_looked (form : parts env v t = some ps) {p : Value × TypeNode}
    (mem : p ∈ looked env v t) : p ∈ ps := by
  cases opt : t.optionalInner with
  | some inner =>
    rw [parts_optional opt] at form
    simp only [optionParts] at form
    simp only [looked, opt] at mem
    split at form
    · rename_i none
      simp only [none, if_true] at mem
      exact absurd mem List.not_mem_nil
    · rename_i present
      simp only [present] at mem
      split at form
      · obtain ⟨x, there, rfl⟩ := Option.map_eq_some_iff.mp form
        simpa [there] using mem
      · cases form
  | none =>
    by_cases builtin : isBuiltinTypeName t.typeName
    · rw [parts_builtin opt builtin] at form
      rwa [looked_builtin opt builtin form] at mem
    · have user : t.IsUser := ⟨opt, by simpa using builtin⟩
      rw [parts_user user] at form
      cases table : tableOf env v t with
      | none => simpa [looked, opt, builtin, table, form] using mem
      | some fields =>
        obtain ⟨map, brand, variantOf, rfl, all⟩ := userParts_table table form
        obtain ⟨e, he, there, type⟩ := (mem_looked_fields user table).mp mem
        rw [show p = (p.1, e.2.typeHint) from Prod.ext rfl type]
        exact mem_fieldParts all he there

/-! ### Values of a type -/

theorem Conforms.looked (conforms : Conforms env holds v t) {p : Value × TypeNode}
    (mem : p ∈ looked env v t) : Conforms env holds p.1 p.2 := by
  obtain ⟨form, below, -⟩ := conforms
  exact below p (mem_of_looked form mem)

theorem Conforms.dict (conforms : Conforms env holds v t) (user : t.IsUser) {generics : List String}
    {schemaFields : Assoc SchemaField} (known : env t = some (.schema generics schemaFields none)) :
    ∃ map brand variantOf, v = .dict map brand variantOf := by
  obtain ⟨form, -, -⟩ := conforms
  rw [parts_user user] at form
  simp only [userParts, known] at form
  obtain ⟨map, brand, variantOf, same, -⟩ := recordParts_some form
  exact ⟨map, brand, variantOf, same⟩

theorem Conforms.owned (conforms : Conforms env holds v t) (user : t.IsUser) {declared : String}
    {generics : List String} {variants : Assoc (Assoc SchemaField)}
    (known : env t = some (.enumSchema declared generics variants)) :
    ∃ map brand, v = .dict map brand (some (enumName declared t)) := by
  obtain ⟨form, -, -⟩ := conforms
  rw [parts_user user] at form
  simp only [userParts, known] at form
  obtain ⟨map, brand, _, same, -⟩ := variantParts_some form
  exact ⟨map, brand, same⟩

/-- The declared fields of a value of its type. -/
theorem Conforms.declared (conforms : Conforms env holds v t) (user : t.IsUser)
    (declares : Declares env v t map fields) : ∀ e ∈ fields, ∀ y, map.lookup e.1 = some y →
      Conforms env holds y e.2.typeHint ∧ ∀ p ∈ e.2.predicates, p.isClosure → holds p y := by
  intro e he y there
  obtain ⟨table, brand, variantOf, rfl⟩ := declares
  refine ⟨conforms.looked ((mem_looked_fields (p := (y, e.2.typeHint)) user table).mpr
    ⟨e, he, there, rfl⟩), fun p hp closure => ?_⟩
  obtain ⟨form, below, guarded⟩ := conforms
  exact guarded user (p, y) ((mem_guards table).mpr ⟨e, he, there, hp, closure⟩)

end

end Relon.Eval
