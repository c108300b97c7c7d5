import Relon.Eval.Operators

/-! Preparing a dict's frame (`prepare_dict_scope`, `register_dict_thunks`): a thunk
for every key, and eagerly the schemas and closures the dict declares. -/
namespace Relon.Eval

/-- `is_valid_identifier`. -/
def isValidIdentifier (s : String) : Bool :=
  match s.toList with
  | [] => false
  | c :: rest => (c.isAlpha || c == '_') && rest.all fun c => c.isAlphanum || c == '_' || c == '.'

/-- A computed dict key: a string, an integer, or a type's first name. -/
def dictKeyOf (expected : String) (range : TokenRange) : Value → M String
  | .string s => pure s
  | .int i => pure (toString i.toInt)
  | .type t => pure (t.path.headD "")
  | other => .fail (.typeMismatch expected other.typeName range)

/-- A computed path segment: a string or an integer. -/
def pathKeyOf (range : TokenRange) : Value → M String
  | .string s => pure s
  | .int i => pure (toString i.toInt)
  | other => .fail (.typeMismatch "String or Int for dynamic key" other.typeName range)

/-- A `#schema` on a dict field that makes the field a schema. -/
def isFieldSchema (node : Node) : Bool :=
  node.directives.any (fun d => d.name == "schema" && match d.body with
    | .bare => true
    | _ => false) &&
  match node.expr with
  | .dict _ => true
  | .type t => t.path == ["__RelonEnum"]
  | _ => false

def Expr.isDict : Expr → Bool
  | .dict _ => true
  | _ => false

section
variable (ctx : Context)

/-- The key of a dict entry that is not a spread. -/
def entryKey (expected : String) (scope : Scope) : TokenKey → M String
  | .dynamic expr _ => do
    let v ← evalNode expr scope false
    dictKeyOf expected expr.range v
  | key => pure key.name

/-- The keys of all entries but spreads, computed before any thunk is made. -/
def entryKeys (scope : Scope) : List (TokenKey × Node) → M (List (String × Node))
  | [] => pure []
  | (.spread _, _) :: rest => entryKeys scope rest
  | (key, node) :: rest => do
    let k ← entryKey "String or Int for key" scope key
    let more ← entryKeys scope rest
    pure ((k, node) :: more)

/-- One thunk for each entry, in a frame of its own below the dict's. -/
def insertThunks (scope : OpenScope) : List (String × Node) → M Unit
  | [] => pure ()
  | (key, node) :: rest => do
    let item ← scope.1.withPath key
    let path := item.1.fullPath
    let thunk ← send (.newThunk ⟨node, item, path, item.1.pathCacheKey path, none⟩)
    send (.bindThunk scope key thunk)
    insertThunks scope rest

/-- `register_dict_thunks`. -/
def registerDictThunks (pairs : List (TokenKey × Node)) (scope : OpenScope) : M Unit := do
  let entries ← entryKeys scope.1 pairs
  insertThunks scope entries

/-- The `#schema` and `#enum` declarations stacked above a dict. -/
def schemaBodies (node : Node) : List (String × List String × Node) :=
  node.directives.filterMap fun d =>
    if d.name == "schema" || d.name == "enum" then
      match d.body with
      | .nameBody name generics body => some (name, generics, body)
      | _ => none
    else none

/-- Bind each declared name not bound yet to an empty schema; the names so bound. -/
def seedSchemaNames (scope : OpenScope) : List (String × List String × Node) → M (List String)
  | [] => pure []
  | (name, generics, _) :: rest => do
    let σ ← read
    if ((σ.locals scope.1).lookup name).isSome then seedSchemaNames scope rest
    else do
      Scope.insertLocal scope name (.schema generics [] none)
      let seeded ← seedSchemaNames scope rest
      pure (name :: seeded)

/-- Replace the seeded names by their schemas. -/
def bindSchemas (scope : OpenScope) (seeded : List String) :
    List (String × List String × Node) → M Unit
  | [] => pure ()
  | (name, generics, body) :: rest =>
    if name ∈ seeded then do
      let v ← lowerSchemaBinding ctx name generics body scope.1
      Scope.insertLocal scope name v
      bindSchemas scope seeded rest
    else bindSchemas scope seeded rest

/-- Generic parameters written on a field-form schema's key. -/
def keyGenerics : TokenKey → List String
  | .dynamic expr _ =>
    match expr.expr with
    | .type t => t.generics.filterMap fun g => g.path.head?
    | _ => []
  | _ => []

/-- Evaluate the dict's closures and field-form schemas into its locals. -/
def bindDefinitions (scope : OpenScope) : List (TokenKey × Node) → M Unit
  | [] => pure ()
  | (.spread _, _) :: rest => bindDefinitions scope rest
  | (key, node) :: rest =>
    if node.expr.isClosure || isFieldSchema node then do
      let name ← entryKey "String or Int for key" scope.1 key
      if isValidIdentifier name then do
        if isFieldSchema node && node.expr.isDict then
          Scope.insertLocal scope name (.schema (keyGenerics key) [] none)
        let v ← evalNode node scope.1 false
        Scope.insertLocal scope name v
        bindDefinitions scope rest
      else .fail (.invalidIdentifier name node.range)
    else bindDefinitions scope rest

/-- `prepare_dict_scope`. -/
def prepareDictScope (node : Node) (scope : OpenScope) : M Unit :=
  match node.expr with
  | .dict pairs => do
    registerDictThunks pairs scope
    let seeded ← seedSchemaNames scope (schemaBodies node)
    bindSchemas ctx scope seeded (schemaBodies node)
    bindDefinitions scope pairs
  | _ => pure ()

end

end Relon.Eval
