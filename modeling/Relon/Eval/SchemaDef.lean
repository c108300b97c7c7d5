import Relon.Eval.Schema

/-! Schema values built from declarations (`schema.rs`, `eval.rs`). -/
namespace Relon.Eval

/-- The built-in decorator plugins; the last two act on schema fields only. -/
inductive Plugin where
  | value
  | message
  | default
  deriving DecidableEq

/-- The decorator registry of `builtin_decorators::register_to`. -/
def plugin? (name : String) : Option Plugin :=
  match name with
  | "value" => some .value
  | "expect" => some .message
  | "msg" => some .message
  | "error" => some .message
  | "default" => some .default
  | _ => none

section
variable (ctx : Context)

/-- `schema_field_meta`. -/
def Plugin.fieldMeta (plugin : Plugin) (field : SchemaField) (args : List EvaluatedArg) :
    SchemaField :=
  match plugin, args with
  | .message, (_, v) :: _ =>
    .mk field.typeHint field.predicates (some (v.display ctx)) field.defaultValue
  | .default, (_, v) :: _ => .mk field.typeHint field.predicates field.customError (some v)
  | _, _ => field

/-- `evaluate_directive_meta_args`. -/
def evaluateDirectiveMetaArgs (body : DirectiveBody) (scope : Scope) : M (List EvaluatedArg) :=
  match body with
  | .value node => do
    let v ← evalNode node scope false
    pure [(none, v)]
  | _ => pure []

/-- The `#default`, `#expect`, `#msg` and `#error` of a declared field. -/
def applyMetaDirectives (scope : Scope) : List Directive → SchemaField → M SchemaField
  | [], field => pure field
  | dir :: rest, field =>
    match plugin? dir.name with
    | none => applyMetaDirectives scope rest field
    | some plugin => do
      let args ← evaluateDirectiveMetaArgs dir.body scope
      applyMetaDirectives scope rest (plugin.fieldMeta ctx field args)

/-- Decorators on an entry of a dict that refines a schema. -/
def applyMetaDecorators (scope : Scope) : List Decorator → SchemaField → M SchemaField
  | [], field => pure field
  | dec :: rest, field =>
    match plugin? (dotted dec.path) with
    | none => applyMetaDecorators scope rest field
    | some plugin => do
      let args ← evaluateCallArgs scope dec.args
      applyMetaDecorators scope rest (plugin.fieldMeta ctx field args)

/-- `extract_field_type_and_predicate`. -/
def extractFieldTypeAndPredicate (node : Node) (scope : Scope) : M (TypeNode × Value) :=
  match node.typeHint with
  | some t => do
    let predicate ← evalNode node scope true
    pure (t, predicate)
  | none =>
    match node.expr with
    | .variable path => pure (⟨path.map TokenKey.name, [], false, node.range⟩, .wildcard)
    | _ => do
      match ← evalNode node scope true with
      | .type t => pure (t, .wildcard)
      | other => .fail (.typeMismatch "Type or Type Prefix" other.typeName node.range)

/-- A plain entry gives the field its default, under the type `Any` if it is new. -/
def setDefault (fields : Assoc SchemaField) (name : String) (v : Value) (range : TokenRange) :
    Assoc SchemaField :=
  match fields.lookup name with
  | some (.mk t p e _) => Assoc.put fields name (.mk t p e (some v))
  | none => Assoc.put fields name (.mk (.named "Any" range) [.wildcard] none (some v))

def Expr.isClosure : Expr → Bool
  | .closure .. => true
  | _ => false

/-- Expressions that declare a field's type rather than its default. -/
def Expr.isFieldShape : Expr → Bool
  | .closure .. | .type _ | .variable _ => true
  | _ => false

/-- `apply_field_def`. -/
def applyFieldDef (scope : Scope) (fields : Assoc SchemaField) (d : SchemaFieldDef) :
    M (Assoc SchemaField) :=
  if d.typeHint.isSome || d.valueNode.expr.isFieldShape then do
    let (t, predicate) ← match d.typeHint, d.valueNode.expr with
      | some t, .wildcard => pure (t, Value.wildcard)
      | _, _ => extractFieldTypeAndPredicate d.valueNode scope
    let field ← applyMetaDirectives ctx scope d.metaDirectives
      (.mk (d.typeHint.getD t) [predicate] none none)
    pure (mergeSchemaFields fields [(d.name, field)])
  else do
    let v ← evalNode d.valueNode scope false
    pure (setDefault fields d.name v d.valueNode.range)

def applyFieldDefs (scope : Scope) : List SchemaFieldDef → Assoc SchemaField → M (Assoc SchemaField)
  | [], fields => pure fields
  | d :: rest, fields => do
    let fields ← applyFieldDef ctx scope fields d
    applyFieldDefs scope rest fields

/-- The fields of the schemas a declaration extends. -/
def mergeBases (scope : Scope) : List Node → Assoc SchemaField → M (Assoc SchemaField)
  | [], fields => pure fields
  | base :: rest, fields => do
    match ← evalNode base scope false with
    | .schema _ baseFields _ => mergeBases scope rest (mergeSchemaFields fields baseFields)
    | other => .fail (.typeMismatch "Schema" other.typeName base.range)

/-- `build_schema_from_def`. -/
def buildSchemaFromDef (d : SchemaDef) (scope : Scope) : M (Assoc SchemaField) := do
  let fields ← mergeBases scope d.bases []
  applyFieldDefs ctx scope d.fields fields

/-- `build_root_enum_schema`. -/
def buildRootEnumSchema (d : SchemaDef) : Value :=
  .enumSchema (d.name.getD "") d.generics (d.variants.map fun v =>
    (v.name, v.fields.map fun f =>
      (f.name, .mk (f.typeHint.getD (.named "Any" f.valueRange)) [.wildcard] none none)))

/-- A declaration as a schema value, the form `#schema` directives share. -/
def schemaValue (d : SchemaDef) (scope : Scope) : M Value :=
  if d.variants.isEmpty then do
    let fields ← buildSchemaFromDef ctx d scope
    pure (.schema d.generics fields d.tupleElements)
  else pure (buildRootEnumSchema d)

/-- `build_schema_value_from_def`: a tuple schema has no fields. -/
def buildSchemaValueFromDef (d : SchemaDef) (scope : Scope) : M Value :=
  if d.variants.isEmpty && d.tupleElements.isSome then
    pure (.schema d.generics [] d.tupleElements)
  else schemaValue ctx d scope

/-- `lower_schema_binding`. -/
def lowerSchemaBinding (name : String) (generics : List String) (body : Node) (scope : Scope) :
    M Value :=
  match (ctx.analyzed.bind fun tree => tree.schema body.id).or
      (ctx.lowerSchemaPure (some name) generics body) with
  | some d => schemaValue ctx d scope
  | none =>
    .fail (.typeMismatch "schema body (Dict, Tuple, or #enum body)" body.expr.kind body.range)

/-- `seed_root_schemas`: every declared name is bound to an empty schema first, so
that a recursive body finds it. -/
def seedRootSchemas (scope : OpenScope) : List RootSchemaDecl → M Unit
  | [] => pure ()
  | decl :: rest => do
    Scope.insertLocal scope decl.name (.schema decl.generics [] none)
    match ctx.lowerSchemaPure (some decl.name) decl.generics decl.schemaNode with
    | none =>
      .fail (.typeMismatch "schema body (Dict, Tuple, or #enum body)" decl.schemaNode.expr.kind
        decl.directiveRange)
    | some d => do
      let v ← buildSchemaValueFromDef ctx d scope.1
      Scope.insertLocal scope decl.name v
      seedRootSchemas scope rest

/-- Entries of a dict that refines a schema: `merge_schema_with_dict_pairs`. -/
def mergeSchemaWithDictPairs (scope : Scope) :
    List (TokenKey × Node) → Assoc SchemaField → M (Assoc SchemaField)
  | [], fields => pure fields
  | (.string name _ _, node) :: rest, fields =>
    if node.typeHint.isSome || node.expr.isClosure then do
      let (t, predicate) ← extractFieldTypeAndPredicate node scope
      let field ← applyMetaDecorators ctx scope node.decorators (.mk t [predicate] none none)
      mergeSchemaWithDictPairs scope rest (mergeSchemaFields fields [(name, field)])
    else do
      let v ← evalNode node scope false
      mergeSchemaWithDictPairs scope rest (setDefault fields name v node.range)
  | _ :: rest, fields => mergeSchemaWithDictPairs scope rest fields

end

end Relon.Eval
