import Relon.Eval.Reference

/-! Function calls, enum constructors and patterns (`eval.rs`). -/
namespace Relon.Eval

/-- `native_function_name`: a path of plain names. -/
def nativeFunctionName (path : List TokenKey) : Option String :=
  let names := path.filterMap fun
    | .string s _ _ => some s
    | _ => none
  if names.length = path.length then some (".".intercalate names) else none

/-- `is_type_variable`. -/
def isTypeVariable (t : TypeNode) (generics : List String) : Bool :=
  match t.path, t.generics with
  | [name], [] => generics.contains name
  | _, _ => false

section
variable (ctx : Context)

/-- A name in scope, then among the context's schemas. -/
def lookupHead (σ : Store) (scope : Scope) (head : String) : Option Value :=
  (σ.getLocal scope head).or (ctx.schemas.lookup head)

/-! ### Enum constructors -/

/-- Check a payload field unless its type is one of the enum's own parameters. -/
def checkPayload (generics : List String) (field : SchemaField) (v : Value) (scope : Scope)
    (range : TokenRange) : M Value :=
  if isTypeVariable field.typeHint generics then pure v
  else checkType ctx v field.typeHint scope range

/-- The payload of `Enum.Variant { ... }` against the variant's fields. -/
def fillVariant (variant : String) (generics : List String) (scope : Scope) (range : TokenRange) :
    Assoc SchemaField → Assoc Value → M (Assoc Value)
  | [], map => pure map
  | (name, field) :: rest, map =>
    match map.lookup name with
    | some v => do
      let v ← checkPayload ctx generics field v scope range
      fillVariant variant generics scope range rest (Assoc.insertSorted map name v)
    | none =>
      if field.typeHint.isOptional then fillVariant variant generics scope range rest map
      else match field.defaultValue with
        | some d => fillVariant variant generics scope range rest (Assoc.insertSorted map name d)
        | none =>
          .fail (.typeMismatch ("field `" ++ name ++ "` for variant `" ++ variant ++ "`") "missing"
            range)

/-- The remaining segments of an enum's path. -/
def walkEnumPath (head : String) (range : TokenRange) : Value → List String → M Value
  | v, [] => pure v
  | .dict map _ _, seg :: rest =>
    match map.lookup seg with
    | some next => walkEnumPath head range next rest
    | none => .fail (.variableNotFound (head ++ "." ++ seg) range)
  | other, _ :: _ => .fail (.typeMismatch "Dict or EnumSchema" other.typeName range)

/-- `eval_variant_ctor`. -/
def evalVariantCtor (enumPath : List String) (variant : String) (body : Node) (scope : Scope)
    (range : TokenRange) : M Value := do
  match enumPath with
  | [] => .fail (.unsupportedOperator "variant constructor without enum" range)
  | head :: segments => do
    let σ ← read
    let found ← okOr (lookupHead ctx σ scope head) (.variableNotFound head range)
    let enumName := ".".intercalate enumPath
    match ← walkEnumPath head range found segments with
    | .enumSchema declared generics variants =>
      let name := if declared.isEmpty then enumName else declared
      match variants.lookup variant with
      | none =>
        .fail (.typeMismatch ("a variant of `" ++ name ++ "`") ("`" ++ variant ++ "`") range)
      | some fields => do
        match ← evalNode body scope false with
        | .dict map _ _ => do
          let map ← fillVariant ctx variant generics scope range fields map
          pure (.variantDict map variant name)
        | _ => .fail (.typeMismatch "Dict variant body" "non-Dict" range)
    | other =>
      .fail (.typeMismatch ("EnumSchema `" ++ enumName ++ "`") other.typeName range)

/-- The enum a dotted path names, if it names one. -/
def enumAt (σ : Store) (scope : Scope) : List String → Option Value
  | [] => none
  | head :: segments => (lookupHead ctx σ scope head).bind fun v =>
    segments.foldlM (fun v seg => match v with
      | .dict map _ _ => map.lookup seg
      | _ => none) v

/-- A variant whose fields are named `0`, `1`, …: its fields in order. -/
def tupleFields (fields : Assoc SchemaField) : Option (List (String × SchemaField)) :=
  (fields.mapM fun e => (parseUsize e.1).map fun i => (i, e)).bind fun indexed =>
    let sorted := indexed.mergeSort fun a b => a.1 ≤ b.1
    if sorted.map Prod.fst = List.range sorted.length then some (sorted.map Prod.snd) else none

/-- Check positional payloads in order. -/
def checkTuplePayload (generics : List String) (scope : Scope) (range : TokenRange) :
    List ((String × SchemaField) × Value) → Assoc Value → M (Assoc Value)
  | [], map => pure map
  | ((name, field), v) :: rest, map => do
    let v ← checkPayload ctx generics field v scope range
    checkTuplePayload generics scope range rest (Assoc.insertSorted map name v)

/-- `try_call_enum_tuple_variant`. -/
def tryCallEnumTupleVariant (path : List TokenKey) (args : List EvaluatedArg) (scope : Scope)
    (range : TokenRange) : M (Option Value) := do
  let σ ← read
  let segments := path.filterMap fun
    | .string s _ _ => some s
    | _ => none
  if path.length < 2 ∨ segments.length ≠ path.length then pure none
  else
    let variant := segments.getLastD ""
    let enumPath := segments.dropLast
    match enumAt ctx σ scope enumPath with
    | some (.enumSchema declared generics variants) =>
      let enumName := if declared.isEmpty then ".".intercalate enumPath else declared
      match variants.lookup variant with
      | none =>
        .fail (.typeMismatch ("a variant of `" ++ enumName ++ "`") ("`" ++ variant ++ "`") range)
      | some fields =>
        if fields.isEmpty then
          .fail (.typeMismatch ("unit enum variant `" ++ variant ++ "` without `(...)`")
            (toString args.length ++ " positional argument(s)") range)
        else match tupleFields fields with
          | none => pure none
          | some ordered =>
            if args.any fun a => a.1.isSome then
              .fail (.typeMismatch "positional enum variant arguments" "named argument" range)
            else if args.length ≠ ordered.length then
              .fail (.typeMismatch (toString ordered.length ++ " positional argument(s)")
                (toString args.length ++ " positional argument(s)") range)
            else do
              let map ← checkTuplePayload ctx generics scope range
                (ordered.zip (args.map Prod.snd)) []
              pure (some (.variantDict map variant enumName))
    | _ => pure none

/-- The constructors of the prelude's `Option` and `Result`. -/
def preludeCtor? : List TokenKey → Option (Value → Value)
  | [.string "Some" _ _] => some .optionSome
  | [.string "Option" _ _, .string "Some" _ _] => some .optionSome
  | [.string "Ok" _ _] => some .resultOk
  | [.string "Result" _ _, .string "Ok" _ _] => some .resultOk
  | [.string "Err" _ _] => some .resultErr
  | [.string "Result" _ _, .string "Err" _ _] => some .resultErr
  | _ => none

/-- A name bound by a local or a thunk in scope. -/
def isShadowed (σ : Store) (scope : Scope) (name : String) : Bool :=
  (σ.getLocal scope name).isSome || (σ.getThunk scope name).isSome

/-- `try_call_prelude_variant`. -/
def tryCallPreludeVariant (path : List TokenKey) (args : List EvaluatedArg) (scope : Scope)
    (range : TokenRange) : M (Option Value) := do
  let σ ← read
  match preludeCtor? path, path with
  | some ctor, head :: _ =>
    if isShadowed σ scope head.name then pure none
    else match args with
      | [(none, v)] => pure (some (ctor v))
      | _ =>
        .fail (.typeMismatch "one positional argument" (toString args.length ++ " argument(s)") range)
  | _, _ => pure none

/-! ### Methods -/

/-- `try_static_schema_method`: `Schema.method(...)`. -/
def tryStaticSchemaMethod (path : List TokenKey) (method : String) (args : List EvaluatedArg)
    (scope : Scope) (range : TokenRange) : M (Option Value) :=
  match path with
  | [.string head _ _, _] =>
    match ctx.method? head method with
    | none => pure none
    | some m => do
      let native ← if m.isNative then tryCallNativeMethod ctx head method none args range
        else pure none
      match native, m.body with
      | some v, _ => pure (some v)
      | none, some body => do
        let v ← invokeMethodBody body none m.params args scope
        pure (some v)
      | none, none => pure none
  | _ => pure none

/-- The receiver of `<expr>.method(...)`: an error in an expression receiver is
raised, an unresolved name is not a method call. -/
def methodReceiver (path : List TokenKey) (scope : Scope) (range : TokenRange) : M (Option Value) :=
  match path with
  | [.dynamic inner _, _] => do
    let v ← evalNode inner scope false
    pure (some v)
  | _ => do
    match ← (resolveVariable ctx path.dropLast scope range).attempt with
    | .ok v => pure (some v)
    | .error _ => pure none

/-- `try_receiver_method`. -/
def tryReceiverMethod (path : List TokenKey) (method : String) (args : List EvaluatedArg)
    (scope : Scope) (range : TokenRange) : M (Option Value) := do
  match ← methodReceiver ctx path scope range with
  | none => pure none
  | some receiver =>
    match receiver.schemaTag with
    | none => pure none
    | some schema => do
      match ← tryCallNativeMethod ctx schema method (some receiver) args range with
      | some v => pure (some v)
      | none =>
        match (ctx.method? schema method).bind fun m => m.body.map fun b => (m, b) with
        | none => pure none
        | some (m, body) => do
          let v ← invokeMethodBody body (some receiver) m.params args scope
          pure (some v)

/-- `try_call_schema_method`. -/
def tryCallSchemaMethod (path : List TokenKey) (args : List EvaluatedArg) (scope : Scope)
    (range : TokenRange) : M (Option Value) :=
  match path.getLast? with
  | some (.string method _ _) =>
    if path.length < 2 || ctx.analyzed.isNone then pure none
    else do
      match ← tryStaticSchemaMethod ctx path method args scope range with
      | some v => pure (some v)
      | none => tryReceiverMethod ctx path method args scope range
  | _ => pure none

/-! ### Calls -/

/-- A closure the path resolves to; any failure to resolve it is dropped. -/
def resolveClosure (path : List TokenKey) (scope : Scope) (range : TokenRange) :
    M (Option (List String × Node × Scope)) := do
  match ← (resolveVariable ctx path scope range).attempt with
  | .ok (.closure params body env) => pure (some (params, body, env))
  | _ => pure none

/-- The first of several ways to answer a call that applies. -/
def firstAnswer (notFound : RuntimeError) : List (M (Option Value)) → M Value
  | [] => .fail notFound
  | way :: rest => do
    match ← way with
    | some v => pure v
    | none => firstAnswer notFound rest

/-- `call_function`. -/
def callFunction (path : List TokenKey) (args : List EvaluatedArg) (scope : Scope)
    (range : TokenRange) : M Value := do
  match ← resolveClosure ctx path scope range with
  | some (params, body, env) => evalClosure params body args env range
  | none =>
    match (nativeFunctionName path).bind fun name => (ctx.functions name).map fun e => (name, e) with
    | some (name, entry) => do
      checkNativeFnCapability name entry range
      let v ← callNative ctx entry (positionalArgs args) (insertNamed [] args) range
      checkValueSize ctx v range
      pure v
    | none =>
      firstAnswer (.functionNotFound (dotted path) range)
        [tryCallSchemaMethod ctx path args scope range,
          tryCallEnumTupleVariant ctx path args scope range,
          tryCallPreludeVariant path args scope range]

/-- `fallback_decorator`: a user function or a native one, given the decorated value
first. -/
def fallbackDecorator (path : List TokenKey) (value : Value) (args : List EvaluatedArg)
    (scope : Scope) (range : TokenRange) : M Value := do
  match ← resolveClosure ctx path scope range with
  | some (params, body, env) => evalClosure params body ((none, value) :: args) env range
  | none =>
    match (nativeFunctionName path).bind fun name => (ctx.functions name).map fun e => (name, e) with
    | some (name, entry) => do
      checkNativeFnCapability name entry range
      callNative ctx entry (value :: positionalArgs args) (insertNamed [] args) range
    | none => .fail (.unsupportedOperator ("Decorator @" ++ dotted path ++ " not found") range)

/-! ### Patterns -/

/-- `pattern_payload_field_name`. -/
def patternPayloadFieldName (brand variantOf : Option String) (b : PatternBinding) (idx : Nat) :
    String :=
  match b.field with
  | some field => field
  | none =>
    match variantOf, brand with
    | some "Option", some "Some" => "value"
    | some "Result", some "Ok" => "value"
    | some "Result", some "Err" => "error"
    | _, _ => toString idx

/-- The names a variant pattern binds. -/
def patternLocals (map : Assoc Value) (brand variantOf : Option String) (variant : String)
    (range : TokenRange) : Nat → List PatternBinding → Assoc Value → M (Assoc Value)
  | _, [], locals => pure locals
  | idx, b :: rest, locals =>
    match b.binding with
    | none => patternLocals map brand variantOf variant range (idx + 1) rest locals
    | some name =>
      let field := patternPayloadFieldName brand variantOf b idx
      match map.lookup field with
      | none =>
        .fail (.typeMismatch ("payload field `" ++ field ++ "` for variant `" ++ variant ++ "`")
          "missing" range)
      | some payload =>
        if (locals.lookup name).isSome then
          .fail (.typeMismatch ("unique binding name in pattern `" ++ variant ++ "`")
            ("duplicate `" ++ name ++ "`") range)
        else patternLocals map brand variantOf variant range (idx + 1) rest
          (Assoc.put locals name payload)

/-- `match_variant_pattern_scope`: the arm's scope when the pattern fits. -/
def matchVariantPatternScope (value : Value) (enumPath : List String) (variant : String)
    (bindings : List PatternBinding) (scope : Scope) (range : TokenRange) : M (Option Scope) :=
  match value with
  | .dict map brand variantOf =>
    if brand ≠ some variant then pure none
    else if enumPath ≠ [] ∧ variantOf ≠ some (".".intercalate enumPath) then pure none
    else if bindings.isEmpty then pure (some scope)
    else do
      let locals ← patternLocals map brand variantOf variant range 0 bindings []
      let arm ← scope.withLocals locals
      pure (some arm)
  | _ => pure none

end

end Relon.Eval
