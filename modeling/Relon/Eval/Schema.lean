import Relon.Eval.Call

/-! Runtime type checking and schema values (`schema.rs`).

`check_type` mutates the checked value in place and remembers which value it has
already checked against which type by address. Here it returns the new value.
An address is a storage block and a slot in it: every container the checker
enters has a block of its own, a list's slots are its positions and a map's slots
the ranks of its keys. An insertion into a map moves the entries behind it, so
that a value may come to lie where another one was checked. The blocks of a
`BTreeMap` with more than one node are not told apart. -/
namespace Relon.Eval

/-- The `visited` set and the next unused storage block. -/
structure Visits where
  seen : List (String × Nat × Nat)
  next : Nat

namespace Visits

/-- A block for a container that is entered. -/
def block (v : Visits) : Nat × Visits := (v.next, { v with next := v.next + 1 })

def mark (v : Visits) (typeName : String) (slot : Nat × Nat) : Visits :=
  { v with seen := (typeName, slot) :: v.seen }

end Visits

/-- `check_type_internal` at the next depth: a value in its slot against a type. -/
abbrev Check := Value → Nat × Nat → TypeNode → Visits → M (Value × Visits)

/-- `T` of an optional type: `T?`, `Option<T>`, and `Any` for a bare `Option`. -/
def TypeNode.optionalInner (t : TypeNode) : Option TypeNode :=
  if t.isOptional then some { t with isOptional := false }
  else if t.path = ["Option"] then some (t.generics.headD (.named "Any" t.range))
  else none

def TypeNode.typeName (t : TypeNode) : String := ".".intercalate t.path

section
variable (check : Check)

/-- Check values in consecutive slots of a block, each against its type. -/
def checkSlots (block : Nat) : Nat → List (Value × TypeNode) → Visits → M (List Value × Visits)
  | _, [], visits => pure ([], visits)
  | slot, (v, t) :: rest, visits => do
    let (v, visits) ← check v (block, slot) t visits
    let (vs, visits) ← checkSlots block (slot + 1) rest visits
    pure (v :: vs, visits)

/-- Check a container's items, entering a new block. -/
def checkItems (items : List (Value × TypeNode)) (visits : Visits) : M (List Value × Visits) :=
  let (block, visits) := visits.block
  checkSlots check block 0 items visits

/-- The optional case: `None` passes, a `Some` payload is checked, and a bare value is
checked and wrapped. -/
def checkOptional (value : Value) (slot : Nat × Nat) (t inner : TypeNode) (range : TokenRange)
    (visits : Visits) : M (Value × Visits) :=
  if value.isOptionNone then pure (value, visits)
  else match value with
    | .dict map (some "Some") (some "Option") =>
      match map.lookup "value" with
      | none => .fail (.typeMismatch t.format value.typeName range)
      | some payload => do
        let (block, visits) := visits.block
        let (payload, visits) ← check payload (block, Assoc.rank map "value") inner visits
        pure (.dict (Assoc.put map "value" payload) (some "Some") (some "Option"), visits)
    | _ => do
      let (value, visits) ← check value slot inner visits
      pure (.optionSome value, visits)

/-- The built-in names. -/
def checkBuiltin (value : Value) (t : TypeNode) (range : TokenRange) (visits : Visits) :
    M (Value × Visits) :=
  match t.typeName, value with
  | "Any", v => pure (v, visits)
  | "Int", .int i => pure (.int i, visits)
  | "Float", .float f => pure (.float f, visits)
  | "Number", .int i => pure (.int i, visits)
  | "Number", .float f => pure (.float f, visits)
  | "String", .string s => pure (.string s, visits)
  | "Bool", .bool b => pure (.bool b, visits)
  | "List", .list items =>
    match t.generics.head? with
    | some item => do
      let (items, visits) ← checkItems check (items.map fun v => (v, item)) visits
      pure (.list items, visits)
    | none => pure (.list items, visits)
  | "Dict", .dict map brand variantOf =>
    match t.generics with
    | [_, entry] => do
      let (vs, visits) ← checkItems check (map.map fun e => (e.2, entry)) visits
      pure (.dict ((map.map Prod.fst).zip vs) brand variantOf, visits)
    | _ => pure (.dict map brand variantOf, visits)
  | "Tuple", .tuple items =>
    if items.length ≠ t.generics.length then
      .fail (.typeMismatch t.format ("Tuple of length " ++ toString items.length) range)
    else do
      let (items, visits) ← checkItems check (items.zip t.generics) visits
      pure (.tuple items, visits)
  | expected, found => .fail (.typeMismatch expected found.typeName range)

/-- `apply_tuple_schema`. -/
def applyTupleSchema (elements : List TypeNode) (value : Value) (range : TokenRange)
    (visits : Visits) : M (Value × Visits) :=
  match value with
  | .tuple items =>
    if items.length ≠ elements.length then
      .fail (.typeMismatch ("Tuple of length " ++ toString elements.length)
        ("Tuple of length " ++ toString items.length) range)
    else do
      let (items, visits) ← checkItems check (items.zip elements) visits
      pure (.tuple items, visits)
  | other => .fail (.typeMismatch "Tuple" other.typeName range)

end

section
variable (ctx : Context)

/-- The predicates of a field, on its checked value; only closures count. -/
def checkPredicates (name : String) (field : SchemaField) (value : Value) (range : TokenRange) :
    List Value → M Unit
  | [] => pure ()
  | predicate :: rest =>
    if predicate.isClosure then do
      let result ← callFunctionByValue predicate [(none, value)] range
      if result.isTruthy ctx then checkPredicates name field value range rest
      else .fail (.typeMismatch
        (field.customError.getD ("predicate constraint for '" ++ name ++ "'")) (value.display ctx) range)
    else checkPredicates name field value range rest

/-- A map under a schema, with the defaults still to be computed from it. -/
structure Filling where
  map : Assoc Value
  deferred : Assoc Value
  visits : Visits

/-- One field of `apply_schema`. -/
def applyField (check : Check) (block : Nat) (range : TokenRange) (state : Filling)
    (name : String) (field : SchemaField) : M Filling :=
  match state.map.lookup name with
  | some old => do
    let (value, visits) ← check old (block, Assoc.rank state.map name) field.typeHint state.visits
    checkPredicates ctx name field value range field.predicates
    pure { state with map := Assoc.put state.map name value, visits := visits }
  | none =>
    match field.defaultValue with
    | some default =>
      if default.isClosure then pure { state with deferred := state.deferred ++ [(name, default)] }
      else pure { state with map := Assoc.insertSorted state.map name default }
    | none =>
      if field.typeHint.isOptional || field.typeHint.path == ["Option"] then pure state
      else .fail (.typeMismatch ("field '" ++ name ++ "'") "missing" range)

def applyFields (check : Check) (block : Nat) (range : TokenRange) :
    List (String × SchemaField) → Filling → M Filling
  | [], state => pure state
  | (name, field) :: rest, state => do
    let state ← applyField ctx check block range state name field
    applyFields check block range rest state

/-- Computed defaults, each called on the dict as it was before the first of them. -/
def fillDeferred (snapshot : Value) (range : TokenRange) :
    Assoc Value → Assoc Value → M (Assoc Value)
  | [], map => pure map
  | (name, default) :: rest, map => do
    let computed ← callFunctionByValue default [(none, snapshot)] range
    fillDeferred snapshot range rest (Assoc.insertSorted map name computed)

/-- `apply_schema`. A value that is not a dict is left as it is. -/
def applySchema (check : Check) (fields : Assoc SchemaField) (value : Value) (range : TokenRange)
    (visits : Visits) : M (Value × Visits) :=
  match value with
  | .dict map brand variantOf => do
    let (block, visits) := visits.block
    let filled ← applyFields ctx check block range fields.entries ⟨map, [], visits⟩
    let map ← fillDeferred (.dict filled.map brand variantOf) range filled.deferred filled.map
    pure (.dict map brand variantOf, filled.visits)
  | other => pure (other, visits)

/-- The types given for a schema's generic parameters. -/
def substMap (generics : List String) (types : List TypeNode) : Assoc TypeNode :=
  (generics.zip types).foldl (fun acc e => Assoc.put acc e.1 e.2) []

/-- `substitute_generics_in_schema`. -/
def substituteFields (subst : Assoc TypeNode) (fields : Assoc SchemaField) : Assoc SchemaField :=
  fields.map fun e => (e.1, .mk (e.2.typeHint.substitute subst) e.2.predicates e.2.customError
    e.2.defaultValue)

/-- A type's path below its first segment, through nested dicts. -/
def walkTypePath (typeName : String) (range : TokenRange) :
    Value → List String → Except RuntimeError Value
  | v, [] => .ok v
  | .dict map _ _, part :: rest =>
    match map.lookup part with
    | some next => walkTypePath typeName range next rest
    | none => .error (.variableNotFound typeName range)
  | _, _ :: _ => .error (.variableNotFound typeName range)

/-- The value a type's name stands for, looked up in scope and then among the
context's schemas. -/
def findSchema (scope : Scope) (range : TokenRange) (σ : Store) (t : TypeNode) :
    Except RuntimeError Value :=
  let head := t.path.headD ""
  match (σ.getLocal scope head).or (ctx.schemas.lookup head) with
  | some found => walkTypePath t.typeName range found t.path.tail
  | none => .error (.variableNotFound head range)

/-- A record schema names an unbranded dict after itself. -/
def Value.withBrandIfNone (v : Value) (name : Option String) : Value :=
  match v with
  | .dict map none variantOf => .dict map name variantOf
  | other => other

/-- Run a check unless this value has been checked against this type before. -/
def unlessSeen (typeName : String) (slot : Nat × Nat) (value : Value) (visits : Visits)
    (check : Visits → M (Value × Visits)) : M (Value × Visits) :=
  if (typeName, slot) ∈ visits.seen then pure (value, visits)
  else check (visits.mark typeName slot)

/-- A value against a record or tuple schema. -/
def checkRecord (check : Check) (generics : List String) (fields : Assoc SchemaField)
    (elements : Option (List TypeNode)) (value : Value) (slot : Nat × Nat) (t : TypeNode)
    (range : TokenRange) (visits : Visits) : M (Value × Visits) :=
  let subst := substMap generics t.generics
  unlessSeen t.typeName slot value visits fun visits =>
    match elements with
    | some elements =>
      applyTupleSchema check (elements.map (TypeNode.substitute subst)) value range visits
    | none => do
      let (value, visits) ←
        applySchema ctx check (substituteFields subst fields) value range visits
      pure (value.withBrandIfNone t.path.head?, visits)

/-- A value against an enum: the dict's brand picks the variant. -/
def checkEnum (check : Check) (generics : List String) (variants : Assoc (Assoc SchemaField))
    (value : Value) (slot : Nat × Nat) (t : TypeNode) (range : TokenRange) (visits : Visits) :
    M (Value × Visits) :=
  match value with
  | .dict _ none _ =>
    .fail (.typeMismatch ("branded variant of " ++ t.typeName) "plain dict" range)
  | .dict _ (some variant) _ =>
    match variants.lookup variant with
    | none => .fail (.typeMismatch ("valid variant of " ++ t.typeName) variant range)
    | some fields =>
      unlessSeen t.typeName slot value visits fun visits =>
        applySchema ctx check (substituteFields (substMap generics t.generics) fields) value
          range visits
  | other => .fail (.typeMismatch ("a variant of enum " ++ t.typeName) other.typeName range)

/-- A value against whatever its type's name stands for. -/
def checkAgainst (check : Check) (schema value : Value) (slot : Nat × Nat) (t : TypeNode)
    (range : TokenRange) (visits : Visits) : M (Value × Visits) :=
  match schema with
  | .schema generics fields elements =>
    checkRecord ctx check generics fields elements value slot t range visits
  | .enumSchema _ generics variants =>
    checkEnum ctx check generics variants value slot t range visits
  | other => .fail (.typeMismatch "Schema" other.typeName range)

/-- `check_type_internal`. -/
def checkStep (check : Check) (value : Value) (slot : Nat × Nat) (t : TypeNode) (scope : Scope)
    (range : TokenRange) (visits : Visits) : M (Value × Visits) :=
  match t.optionalInner with
  | some inner => checkOptional check value slot t inner range visits
  | none =>
    if isBuiltinTypeName t.typeName then checkBuiltin check value t range visits
    else do
      let σ ← read
      let schema ← Prog.ofExcept (findSchema ctx scope range σ t)
      checkAgainst ctx check schema value slot t range visits

/-- `check_type_internal`, with the depths still allowed below `MAX_TYPE_CHECK_DEPTH`. -/
def checkTypeInternal (scope : Scope) (range : TokenRange) : Nat → Check
  | 0 => fun _ _ _ _ => .fail (.recursionLimitExceeded 100 range)
  | depth + 1 => fun value slot t visits =>
    checkStep ctx (checkTypeInternal scope range depth) value slot t scope range visits

/-- `check_type`: the value as the check leaves it. -/
def checkType (value : Value) (t : TypeNode) (scope : Scope) (range : TokenRange) : M Value := do
  let (value, _) ← checkTypeInternal ctx scope range 101 value (0, 0) t ⟨[], 1⟩
  pure value

end

end Relon.Eval
