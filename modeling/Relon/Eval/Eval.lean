import Relon.Eval.Functions

/-! The evaluator (`eval.rs`): `eval_internal`, modules and the two entry points.

`evalInternal` is one level of the recursion: what it evaluates in turn it asks for.
`answer` says how a request is answered when the calls made for it are answered by
a given handler, and `handle` closes the loop with fuel. -/
namespace Relon.Eval

/-- `brand_string_for`. -/
def brandStringFor (t : TypeNode) : Option String :=
  match t.path, t.generics, t.isOptional with
  | [name], [], false => if isBuiltinTypeName name then none else some name
  | _, _, _ => some t.format

/-- What a directive does before its node is evaluated. -/
inductive PreOutcome where
  | keep
  | rescope (s : OpenScope)
  | override (v : Value)

/-- `snapshot_iter_bindings`: the loop variables visible from `base`, the innermost
of each name. -/
def iterSnapshot (σ : Store) (base : Scope) : Assoc Value :=
  base.chain.foldl (fun acc f => match σ.currentIterBinding f with
    | some (name, v) => if (acc.lookup name).isSome then acc else acc.put name v
    | none => acc) []

/-- `snapshot_iter_bindings`. -/
def snapshotIterBindings (base : Scope) : M Scope := do
  let σ ← read
  let locals := iterSnapshot σ base
  if locals.isEmpty then pure base else base.withLocals locals

/-- `materialize_iterable`. -/
def materializeIterable (value : Value) (range : TokenRange) : M (List Value) :=
  match value with
  | .list items => pure items
  | .dict map (some "Iter") _ =>
    match map.lookup "_kind" with
    | some (.string kind) =>
      match map.lookup "_source" with
      | none => .fail (.typeMismatch "Iter with `_source` field" "Iter without `_source`" range)
      | some source =>
        match kind, source with
        | "list", .list items => pure items
        | "list", other =>
          .fail (.typeMismatch "List source for Iter(kind=list)" other.typeName range)
        | "string", .string s => pure (s.toList.map fun c => .string (String.singleton c))
        | "string", other =>
          .fail (.typeMismatch "String source for Iter(kind=string)" other.typeName range)
        | "dict_entries", .dict entries _ _ =>
          pure (entries.map fun e => .tuple [.string e.1, e.2])
        | "dict_entries", other =>
          .fail (.typeMismatch "Dict source for Iter(kind=dict_entries)" other.typeName range)
        | other, _ => .fail (.typeMismatch "Iter._kind in \x7blist, string, dict_entries\x7d" other range)
    | _ => .fail (.typeMismatch "Iter with `_kind` String field" "Iter without `_kind`" range)
  | other => .fail (.typeMismatch "List or Iter" other.typeName range)

section
variable (ctx : Context)

/-! ### Modules -/

/-- Root schemas of a module, added to its dict under names it does not have. -/
def addRootSchemas (scope : Scope) : List RootSchemaDecl → Assoc Value → M (Assoc Value)
  | [], map => pure map
  | decl :: rest, map =>
    if (map.lookup decl.name).isSome then addRootSchemas scope rest map
    else match ctx.lowerSchemaPure (some decl.name) decl.generics decl.schemaNode with
      | none => addRootSchemas scope rest map
      | some d => do
        let v ← buildSchemaValueFromDef ctx d scope
        addRootSchemas scope rest (Assoc.insertSorted map decl.name v)

/-- The parsed module the workspace has for an id. -/
def Context.workspaceNode (id : String) : Option (List UInt8 × Node) :=
  ctx.workspace.bind fun ws => ws.nodes id

/-- The root node of a module: the workspace's, or else the one parsed now. -/
def Context.moduleNode (source : ModuleSource) (range : TokenRange) : Except RuntimeError Node :=
  match ctx.workspaceNode source.canonicalId with
  | some (_, node) => .ok node
  | none => ctx.parseModule source range

/-- The bytes that node was parsed from. -/
def Context.moduleOrigin (source : ModuleSource) : List UInt8 :=
  match ctx.workspaceNode source.canonicalId with
  | some (bytes, _) => bytes
  | none => source.source

/-- The body of `evaluate_module_source` once the module is marked as loading. -/
def evaluateModuleBody (source : ModuleSource) (range : TokenRange) : M Value := do
  let node ← Prog.ofExcept (ctx.moduleNode source range)
  let root ← send (.newRoot ⟨node, none, none⟩)
  let scope ← send (.openScope ⟨none, none, source.currentDir, source.canonicalId, some root,
    none⟩ ⟨[], []⟩)
  let v ← evalNode node scope.1 false
  match v with
  | .dict map brand variantOf => do
    let schemas := (ctx.workspace.map fun ws => ws.rootSchemas source.canonicalId).getD []
    let map ← addRootSchemas ctx scope.1 schemas map
    pure (.dict map brand variantOf)
  | other => pure other

/-- `evaluate_module_source`: the cache is asked first. -/
def evaluateModuleSource (calls : Prog.Handler Req Store) (source : ModuleSource)
    (range : TokenRange) (σ : Store) : Option (Except RuntimeError Value × Store) :=
  match σ.moduleCache.lookup source.canonicalId with
  | some v => some (.ok v, σ)
  | none =>
    if source.canonicalId ∈ σ.loadingModules then
      some (.error (.circularImport σ.loadingModules range), σ)
    else ((evaluateModuleBody ctx source range).run calls (σ.markModule source.canonicalId)).map
      fun r => (r.1, (r.2.unmarkModule source.canonicalId).cacheModule source.canonicalId
        (ctx.moduleOrigin source) r.1)

def HashAlgorithm.name : HashAlgorithm → String
  | .sha256 => "sha256"

def HashAlgorithm.hexLen : HashAlgorithm → Nat
  | .sha256 => 64

/-- `compute_module_digest`. -/
def HashAlgorithm.digest : HashAlgorithm → List UInt8 → String
  | .sha256, bytes => ctx.sha256 bytes

def isHexDigit (c : Char) : Bool :=
  c.isDigit || ('a' ≤ c && c ≤ 'f') || ('A' ≤ c && c ≤ 'F')

/-- `to_ascii_lowercase`. -/
def asciiLower (s : String) : String := .ofList (s.toList.map Char.toLower)

/-- `verify_module_integrity`. -/
def verifyModuleIntegrity (path : String) (pin : IntegrityHash) (body : List UInt8)
    (range : TokenRange) : Except RuntimeError Unit :=
  match pin.algorithm with
  | none => .error (.importHashUnknownAlgorithm path pin.algorithmText range)
  | some algo =>
    if pin.hex.utf8ByteSize ≠ algo.hexLen ∨ !pin.hex.toList.all isHexDigit then
      .error (.importHashInvalidHex path algo.name algo.hexLen pin.hex.utf8ByteSize range)
    else if asciiLower pin.hex ≠ asciiLower (algo.digest ctx body) then
      .error (.importHashMismatch path algo.name (asciiLower pin.hex) (algo.digest ctx body) range)
    else .ok ()

/-- `load_module`: the resolvers are asked on every import, and a pin is checked against what
they return, before the cache is asked. -/
def loadModule (calls : Prog.Handler Req Store) (path : String) (integrity : Option IntegrityHash)
    (dir : String) (range : TokenRange) (σ : Store) : Option (Except RuntimeError Value × Store) :=
  match ctx.resolveModule σ.resolutions path dir range with
  | .error e => some (.error e, σ.resolved)
  | .ok source =>
    match (integrity.map fun pin => verifyModuleIntegrity ctx path pin source.source range).getD (.ok ()) with
    | .error e => some (.error e, σ.resolved)
    | .ok () => (evaluateModuleSource ctx calls source range σ.resolved).map fun r =>
        (r.1, r.2.noteImport integrity source r.1)

/-- The names an import binds. -/
def importLocals (spec : ImportSpec) (path : String) (module : Value) (range : TokenRange) :
    M (Assoc Value) :=
  match spec, module with
  | .alias name, v => pure [(name, v)]
  | .spread, .dict map _ _ => pure map
  | .destructure entries, .dict map _ _ =>
    entries.foldlM (fun acc e => match map.lookup e.1 with
      | some v => pure (Assoc.put acc (e.2.getD e.1) v)
      | none => .fail (.variableNotFound ("`" ++ e.1 ++ "` not exported by `" ++ path ++ "`") range))
      []
  | _, other => .fail (.typeMismatch "Dict" other.typeName range)

/-! ### Directives and decorators -/

/-- `apply_directive_pre`. -/
def applyDirectivePre (dir : Directive) (node : Node) (scope : Scope) : M PreOutcome :=
  match dir.name, dir.body with
  | "import", .import_ spec path integrity => do
    let module ← call (.load path integrity scope.currentDir dir.range)
    let locals ← importLocals spec path module dir.range
    let s ← scope.withImports locals
    pure (.rescope s)
  | "schema", .bare | "enum", .bare =>
    match (ctx.analyzed.bind fun tree => tree.schema node.id).or
        (ctx.lowerSchemaPure none [] node) with
    | some d => do
      let v ← schemaValue ctx d scope
      pure (.override v)
    | none => pure .keep
  | _, _ => pure .keep

/-- The directives of a node in source order: the scope to go on in, or the value
that replaces the node's. -/
def applyDirectivesPre (node : Node) : List Directive → Scope → M (Except Value Scope)
  | [], scope => pure (.ok scope)
  | dir :: rest, scope => do
    match ← applyDirectivePre ctx dir node scope with
    | .keep => applyDirectivesPre node rest scope
    | .rescope s => applyDirectivesPre node rest s.1
    | .override v => pure (.error v)

/-- `#brand X`. -/
def applyBrand (dir : Directive) (node : Node) (value : Value) (scope : Scope) : M Value :=
  match dir.name, dir.body with
  | "brand", .value body =>
    if node.typeHint.isSome then
      .fail (.unsupportedOperator
        "#brand cannot be combined with a field-level type hint on the same value; pick one"
        dir.range)
    else match typeNodeFromBrandArg body.expr dir.range with
      | none => .fail (.unsupportedOperator
          ("#brand body must be a type name (bareword, string, dotted path, " ++
            "or generic type)") dir.range)
      | some t =>
        if value.isWildcard then pure value
        else do
          match ← checkType ctx value t scope dir.range with
          | .dict map _ variantOf => pure (.dict map (brandStringFor t) variantOf)
          | other => pure other
  | _, _ => pure value

/-- `apply_directive_post`, over directives from the last to the first. -/
def applyDirectivesPost (node : Node) (scope : Scope) : List Directive → Value → M Value
  | [], value => pure value
  | dir :: rest, value => do
    let value ← applyBrand ctx dir node value scope
    applyDirectivesPost node scope rest value

/-- Decorators, from the last to the first: a plugin's `wrap`, or a function in scope. -/
def applyDecorators (scope : Scope) : List Decorator → Value → M Value
  | [], value => pure value
  | dec :: rest, value => do
    let args ← evaluateCallArgs scope dec.args
    let value ← match plugin? (dotted dec.path), args with
      | some .value, (_, v) :: _ => pure v
      | some _, _ => pure value
      | none, args => fallbackDecorator ctx dec.path value args scope dec.range
    applyDecorators scope rest value

/-- The node's type hint: a check, and a brand for a dict that is not a variant. -/
def applyTypeHint (hint : Option TypeNode) (value : Value) (scope : Scope) (range : TokenRange) :
    M Value :=
  match hint with
  | none => pure value
  | some t =>
    if value.isWildcard then pure value
    else do
      match ← checkType ctx value t scope range with
      | .dict map _ none => pure (.dict map (brandStringFor t) none)
      | other => pure other

/-! ### Containers -/

/-- Force the elements of a list literal in order, each in its own list context;
`thunks` lists all of them. -/
def evalListElements (scope : Scope) (thunks : List Nat) : Nat → List (Nat × Node) → M (List Value)
  | _, [] => pure []
  | i, (id, node) :: rest => do
    let item ← scope.withListContext i thunks
    let v ← forceThunkWithScope id item.1
    let here ← match node.expr, v with
      | .spread _, .list items => pure items
      | .spread _, other => .fail (.typeMismatch "List" other.typeName node.range)
      | _, v => pure [v]
    let more ← evalListElements scope thunks (i + 1) rest
    pure (here ++ more)

def evalList (elements : List Node) (scope : Scope) (range : TokenRange) : M Value := do
  let thunks ← elementThunks scope 0 elements
  let values ← evalListElements scope thunks 0 (thunks.zip elements)
  checkValueSize ctx (.list values) range
  pure (.list values)

def evalTupleElements (scope : Scope) : Nat → List Node → M (List Value)
  | _, [] => pure []
  | i, el :: rest => do
    let item ← scope.withPath (toString i)
    let v ← evalNode el item.1 false
    let more ← evalTupleElements scope (i + 1) rest
    pure (v :: more)

/-- The frame of a dict literal. The dict that is the current root gets a second
frame, whose anchor points back at the first. -/
def dictScope (node : Node) (scope : Scope) : M OpenScope := do
  let σ ← read
  let shape : Shape := { scope.childShape with pathNode := none }
  let first ← send (.openScope shape ⟨[], []⟩)
  match σ.rootRef? scope with
  | none => pure first
  | some root =>
    if root.node.id = node.id then do
      let anchor ← send (.newRoot { root with scope := some first })
      send (.openScope { shape with root := some anchor } ⟨[], []⟩)
    else pure first

/-- A spread's entries, into the dict and into its frame. -/
def spreadEntries (scope : OpenScope) : List (String × Value) → Assoc Value → M (Assoc Value)
  | [], map => pure map
  | (k, v) :: rest, map => do
    Scope.insertLocal scope k v
    spreadEntries scope rest (Assoc.insertSorted map k v)

/-- The value of a dict entry, through its thunk. -/
def entryValue (scope : OpenScope) (key : String) (node : Node) : M Value := do
  let σ ← read
  match σ.getOwnThunk scope.1 key with
  | some id => forceThunk id
  | none => do
    let item ← scope.1.withPath key
    evalNode node item.1 false

/-- The entries of a dict literal in order; `#internal` ones stay in the frame only. -/
def evalEntries (scope : OpenScope) : List (TokenKey × Node) → Assoc Value → M (Assoc Value)
  | [], map => pure map
  | (.spread _, node) :: rest, map => do
    match ← evalNode node scope.1 false with
    | .dict entries _ _ => do
      let map ← spreadEntries scope entries map
      evalEntries scope rest map
    | other => .fail (.typeMismatch "Dict" other.typeName node.range)
  | (key, node) :: rest, map => do
    let k ← entryKey "String or Int" scope.1 key
    let v ← entryValue scope k node
    Scope.insertLocal scope k v
    evalEntries scope rest (if isPrivateField node then map else Assoc.insertSorted map k v)

def evalDict (node : Node) (pairs : List (TokenKey × Node)) (scope : Scope) : M Value := do
  let frame ← dictScope node scope
  prepareDictScope ctx node frame
  let map ← evalEntries frame pairs []
  checkValueSize ctx (.dict map none none) node.range
  pure (.dict map none none)

def evalComprehension (element : Node) (id : String) (iterable : Node) (condition : Option Node)
    (scope : Scope) (range : TokenRange) : M Value := do
  let source ← evalNode iterable scope false
  let items ← materializeIterable source iterable.range
  let values ← call (.iterate element id condition scope items)
  checkValueSize ctx (.list values) range
  pure (.list values)

/-! ### Match, f-strings, pipes -/

/-- Whether a type pattern takes the value: a branded dict by its brand, and
otherwise whatever the type check accepts, its errors dropped. -/
def typePatternTakes (value : Value) (t : TypeNode) (scope : Scope) (range : TokenRange) : M Bool :=
  match value with
  | .dict _ (some brand) _ =>
    if t.path = [brand] then pure true
    else if !isBuiltinTypeName (t.path.headD "") then pure false
    else do
      let outcome ← (checkType ctx value t scope range).attempt
      pure outcome.isOk
  | _ => do
    let outcome ← (checkType ctx value t scope range).attempt
    pure outcome.isOk

/-- The arms of a match in order. -/
def evalArms (value : Value) (scope : Scope) (range : TokenRange) : List (Node × Node) → M Value
  | [] =>
    .fail (.typeMismatch "a matching arm" ("value " ++ value.display ctx) range)
  | (pattern, result) :: rest =>
    match pattern.expr with
    | .wildcard => evalNode result scope false
    | .type t => do
      if ← typePatternTakes ctx value t scope pattern.range then evalNode result scope false
      else evalArms value scope range rest
    | .variantPattern enumPath variant bindings => do
      match ← matchVariantPatternScope value enumPath variant bindings scope pattern.range with
      | some arm => evalNode result arm false
      | none => evalArms value scope range rest
    | _ => evalArms value scope range rest

def evalFString (scope : Scope) : List FStringPart → M String
  | [] => pure ""
  | .literal s :: rest => do
    let more ← evalFString scope rest
    pure (s ++ more)
  | .interpolation node :: rest => do
    let v ← evalNode node scope false
    let more ← evalFString scope rest
    pure (v.display ctx ++ more)

/-- `left | right`. -/
def evalPipe (left right : Node) (scope : Scope) : M Value := do
  let l ← evalNode left scope false
  match right.expr with
  | .fnCall path args => do
    let args ← evaluateCallArgs scope args
    callFunction ctx path ((none, l) :: args) scope right.range
  | _ => do
    match ← evalNode right scope false with
    | .closure params body env => evalClosure params body [(none, l)] env right.range
    | _ =>
      .fail (.unsupportedOperator "Pipe requires a function or closure on the right" right.range)

/-- `expr where { ... }`. -/
def evalWhere (expr bindings : Node) (scope : Scope) : M Value := do
  match ← evalNode bindings scope false with
  | .dict map _ _ => do
    let local_ ← scope.withLocals map
    evalNode expr local_ false
  | other => .fail (.typeMismatch "Dict" other.typeName bindings.range)

/-- The frame a closure stands in, without the frame opened for the field or element
it is the value of. -/
def closureBase (scope : Scope) : Scope :=
  if scope.pathNode.isSome then scope.parent.getD scope else scope

/-- A closure value: over its frame, the loop variables of the moment. -/
def makeClosure (params : List String) (body : Node) (scope : Scope) : M Value := do
  let env ← snapshotIterBindings (closureBase scope)
  pure (.closure params body env)

/-! ### Fused calls -/

/-- `match_range_sum`: the bounds of `list.sum(range(...))`. -/
def matchRangeSum (e : Expr) : Option (Option Node × Node) :=
  match e with
  | .fnCall [.string "list" _ _, .string "sum" _ _] [(none, arg)] =>
    match arg.expr with
    | .fnCall [.string "range" _ _] [(none, stop)] => some (none, stop)
    | .fnCall [.string "range" _ _] [(none, start), (none, stop)] => some (some start, stop)
    | _ => none
  | _ => none

/-- `is_canonical_std_list`. -/
def isCanonicalStdList (scope : Scope) (range : TokenRange) : M Bool := do
  let σ ← read
  match σ.getLocal scope "list" with
  | some (.dict bound _ _) =>
    match bound.lookup "sum" with
    | none => pure false
    | some boundSum => do
      match ← (call (.load "std/list" none scope.currentDir range)).attempt with
      | .ok (.dict canonical _ _) =>
        match canonical.lookup "sum" with
        | some s => pure (s.eq ctx boundSum)
        | none => pure false
      | _ => pure false
  | _ => pure false

/-- `expect_int_value`. -/
def expectIntValue (node : Node) (scope : Scope) : M Int64 := do
  match ← evalNode node scope false with
  | .int i => pure i
  | other => .fail (.typeMismatch "Int" other.typeName node.range)

/-- The ticks a range of this many elements is charged. -/
def rangeTicks (requested : Nat) : UInt64 :=
  if requested < 2 ^ 64 then UInt64.ofNat requested else UInt64.ofNat (2 ^ 64 - 1)

/-- The sum of `start, start + 1, …` over `n` terms, refused at the first overflow. -/
def sumFrom (start acc : Int) : Nat → Option Int
  | 0 => some acc
  | n + 1 =>
    match checkedInt (acc + start) with
    | some _ => sumFrom (start + 1) (acc + start) n
    | none => none

/-- `try_eval_fused`. -/
def tryEvalFused (node : Node) (scope : Scope) : M (Option Value) :=
  if !ctx.highLevelFusion then pure none
  else match matchRangeSum node.expr with
    | none => pure none
    | some (start, stop) => do
      let σ ← read
      if isShadowed σ scope "range" || (ctx.functions "range").isNone then pure none
      else if ← isCanonicalStdList ctx scope node.range then do
        let lo ← match start with
          | some n => expectIntValue n scope
          | none => pure 0
        let hi ← expectIntValue stop scope
        let requested := (hi.toInt - lo.toInt).toNat
        if 0 < requested then tick ctx (rangeTicks requested) node.range
        match ctx.maxValueElements with
        | some limit =>
          if limit < requested then .fail (.valueTooLarge limit requested node.range)
        | none => pure ()
        let sum ← okOr (sumFrom lo.toInt 0 requested) (.numericOverflow node.range)
        pure (some (.int (Int64.ofInt sum)))
      else pure none

/-! ### The dispatcher -/

/-- The expression forms. `scope` is the scope the node was given and `current` the
one its directives leave; only a closure looks at the first. -/
def evalExpr (node : Node) (scope current : Scope) : M Value :=
  match node.expr with
  | .missing => .fail (.validationError
      "`null` is not a Relon value; use None with an Option<T> target type" node.range)
  | .bool b => pure (.bool b)
  | .int i => pure (.int i)
  | .float f => pure (.float f)
  | .string s => pure (.string s)
  | .list elements => evalList ctx elements current node.range
  | .tuple elements => do
    let values ← evalTupleElements current 0 elements
    checkValueSize ctx (.tuple values) node.range
    pure (.tuple values)
  | .dict pairs => evalDict ctx node pairs current
  | .spread inner => evalNode inner current false
  | .comprehension element id iterable condition =>
    evalComprehension ctx element id iterable condition current node.range
  | .variable path => resolveVariable ctx path current node.range
  | .reference base path => resolveReference ctx base path current node.range
  | .binary .pipe left right => evalPipe ctx left right current
  | .binary .and left right => do
    let l ← evalNode left current false
    if l.isTruthy ctx then evalNode right current false else pure l
  | .binary .or left right => do
    let l ← evalNode left current false
    if l.isTruthy ctx then pure l else evalNode right current false
  | .binary op left right => evalBinary ctx op node.range left right current
  | .unary op inner => evalUnary ctx op node.range inner current
  | .ternary cond then_ els => do
    let c ← evalNode cond current false
    if c.isTruthy ctx then evalNode then_ current false else evalNode els current false
  | .fnCall path args => do
    match ← tryEvalFused ctx node current with
    | some v => pure v
    | none => do
      let args ← evaluateCallArgs current args
      callFunction ctx path args current node.range
  | .fString parts => do
    let s ← evalFString ctx current parts
    pure (.string s)
  | .type t => pure (.type t)
  | .wildcard => pure .wildcard
  | .where_ expr bindings => evalWhere expr bindings current
  | .match_ expr arms => do
    let v ← evalNode expr current false
    evalArms ctx v current node.range arms
  | .variantPattern .. => .fail (.unsupportedOperator
      "match pattern cannot be evaluated as an expression" node.range)
  | .closure params body => makeClosure params body scope
  | .variantCtor enumPath variant body =>
    evalVariantCtor ctx enumPath variant body current node.range

/-- What follows the expression itself, unless it is read as a schema predicate. -/
def applyPost (node : Node) (value : Value) (scope : Scope) : M Value := do
  let value ← applyDirectivesPost ctx node scope node.directives.reverse value
  let value ← applyDecorators ctx scope node.decorators.reverse value
  applyTypeHint ctx node.typeHint value scope node.range

/-- `eval_internal`. -/
def evalInternal (node : Node) (scope : Scope) (isSchemaPred : Bool) : M Value := do
  chargeNode ctx node.range
  match ← applyDirectivesPre ctx node node.directives scope with
  | .error v => pure v
  | .ok current => do
    let v ← evalExpr ctx node scope current
    if isSchemaPred then pure v else applyPost ctx node v current

/-! ### Answering calls -/

/-- What the loop of a comprehension may ask for: it alone writes its slot. -/
inductive LoopReq : Type → Type 1 where
  | req {β : Type} (r : Req β) : LoopReq β
  | setIterBinding (name : String) (v : Value) (index : Nat) : LoopReq Unit

abbrev LoopM := Prog LoopReq RuntimeError

/-- The evaluator's computations inside a loop. -/
def LoopM.lift {α : Type} (x : M α) : LoopM α := x.translate fun r => Prog.send (.req r)

/-- The iterations of a comprehension: one frame and one slot for all of them. -/
def comprehensionLoop (element : Node) (id : String) (condition : Option Node) (frame : Scope) :
    Nat → List Value → LoopM (List Value)
  | _, [] => pure []
  | i, item :: rest => do
    Prog.send (.setIterBinding id item i)
    let include_ ← match condition with
      | some cond => do
        let c ← LoopM.lift (evalNode cond frame false)
        pure (c.isTruthy ctx)
      | none => pure true
    if include_ then do
      let v ← LoopM.lift (evalNode element frame false)
      let more ← comprehensionLoop element id condition frame (i + 1) rest
      pure (v :: more)
    else comprehensionLoop element id condition frame (i + 1) rest

/-- The requests of a loop over the slot of a list context, its calls answered by
`calls`. -/
def answerLoop (calls : Prog.Handler Req Store) (slot : Nat) : Prog.Handler LoopReq Store :=
  fun _ r σ =>
    match r with
    | .req r => calls _ r σ
    | .setIterBinding name v index => some ((), σ.setIterBinding slot name v index)

/-- How a request is answered when the calls made for it are answered by `calls`. -/
def answer (calls : Prog.Handler Req Store) : Prog.Handler Req Store := fun _ r σ =>
  match r with
  | .op o => some (σ.perform o)
  | .eval node scope isSchemaPred => (evalInternal ctx node scope isSchemaPred).run calls σ
  | .evalMarked key node scope =>
    ((evalInternal ctx node scope false).run calls (σ.markPath key)).map fun r =>
      (r.1, r.2.unmarkPath key)
  | .iterate element id condition scope items =>
    (comprehensionLoop ctx element id condition (σ.withIterLoop scope).1.1 0 items).run
      (answerLoop calls σ.lists.length) (σ.withIterLoop scope).2
  | .load path integrity dir range => loadModule ctx calls path integrity dir range σ

end

section
variable (ctx : Context)

/-- Requests with at most `fuel` calls inside one another; deeper ones go unanswered. -/
def handle : Nat → Prog.Handler Req Store
  | 0 => fun _ r σ =>
    match r with
    | .op o => some (σ.perform o)
    | _ => none
  | fuel + 1 => answer ctx (handle fuel)

/-! ### Entry points -/

/-- `prepare_root_scope`: a copy of the host's frame anchored at the root. -/
def prepareRootScope (scope : OpenScope) (root : Node) : M OpenScope := do
  let σ ← read
  match σ.rootRef? scope.1 with
  | some _ => pure scope
  | none => do
    let anchor ← send (.newRoot ⟨root, none, none⟩)
    send (.openScope ⟨scope.1.parent, scope.1.pathNode, scope.1.currentDir,
      scope.1.cacheNamespace, some anchor, scope.1.listContext⟩ (σ.cell scope.1))

def rootNode : M Node :=
  okOr ctx.rootNode (.variableNotFound
    "Context has no root node — call `Context::with_root` first" default)

def seedAnalyzedSchemas (scope : OpenScope) : M Unit :=
  match ctx.analyzed with
  | some tree => seedRootSchemas ctx scope tree.rootSchemas
  | none => pure ()

/-- `eval_root` after its resets. -/
def evalRootBody (scope : OpenScope) : M Value := do
  let root ← rootNode ctx
  let scope ← prepareRootScope scope root
  seedAnalyzedSchemas ctx scope
  prepareDictScope ctx root scope
  evalNode root scope.1 false

/-- The root's directives before the arguments are checked. -/
def applyRootDirectives (root : Node) : List Directive → OpenScope → M (Except Value OpenScope)
  | [], scope => pure (.ok scope)
  | dir :: rest, scope => do
    match ← applyDirectivePre ctx dir root scope.1 with
    | .keep => applyRootDirectives root rest scope
    | .rescope s => applyRootDirectives root rest s
    | .override v => pure (.error v)

/-- Replace a type mismatch by an error that names the entry point. -/
def remapMismatch {α : Type} (f : String → String → RuntimeError) (x : M α) : M α := do
  match ← x.attempt with
  | .ok a => pure a
  | .error (.typeMismatch expected found _) => .fail (f expected found)
  | .error e => .fail e

/-- Check and bind the `#main` parameters; what is left of the arguments. -/
def bindMainArgs (scope : OpenScope) : List MainParam → Assoc Value → M (Assoc Value)
  | [], args => pure args
  | p :: rest, args =>
    match args.lookup p.name with
    | none => .fail (.missingMainArg p.name p.range)
    | some v => do
      let v ← remapMismatch (fun expected found => .mainArgTypeMismatch p.name expected found p.range)
        (checkType ctx v p.typeNode scope.1 p.range)
      Scope.insertLocal scope p.name v
      bindMainArgs scope rest (args.filter fun a => a.1 != p.name)

/-- `run_main` after its resets. -/
def runMainBody (scope : OpenScope) (args : Assoc Value) : M Value := do
  let root ← rootNode ctx
  let signature ← okOr (ctx.analyzed.bind AnalyzedTree.mainSignature) (.noMainSignature root.range)
  let scope ← prepareRootScope scope root
  match ← applyRootDirectives ctx root root.directives scope with
  | .error v => pure v
  | .ok scope => do
    seedAnalyzedSchemas ctx scope
    prepareDictScope ctx root scope
    match ← bindMainArgs ctx scope signature.params args with
    | (extra, _) :: _ => .fail (.unexpectedMainArg extra signature.range)
    | [] => do
      let result ← evalNode root scope.1 false
      match signature.returnType with
      | none => pure result
      | some t =>
        remapMismatch (fun expected found => .mainReturnTypeMismatch expected found signature.range)
          (checkType ctx result t scope.1 signature.range)

/-- How a host starts a run: a static document, or an entry program with arguments. -/
inductive Entry where
  | evalRoot
  | runMain (args : Assoc Value)

def Entry.body (scope : OpenScope) : Entry → M Value
  | .evalRoot => evalRootBody ctx scope
  | .runMain args => runMainBody ctx scope args

/-- A top-level run: the outcome and the store it leaves, or nothing when the fuel
does not suffice. -/
def topLevelRun (fuel : Nat) (entry : Entry) (scope : OpenScope) (σ : Store) :
    Option (Except RuntimeError Value × Store) :=
  (entry.body ctx scope).run (handle ctx fuel) σ.beginRun

end

/-- The empty frame an evaluator starts a run from (`empty_scope`), and the store
that holds it. -/
def emptyScope : OpenScope := ⟨⟨.opened, 0, none, none, "", "", none, none⟩, rfl⟩

def emptyStore : Store := { Store.empty with cells := [⟨[], []⟩] }

/-- The value a static document evaluates to on a host, if it does within the fuel. -/
def evaluate (ctx : Context) (fuel : Nat) : Option (Except RuntimeError Value) :=
  (topLevelRun ctx fuel .evalRoot emptyScope emptyStore).map Prod.fst

/-- The integers listed under a key of the document's value. -/
def evaluatedInts (ctx : Context) (fuel : Nat) (key : String) : Option (List Int) :=
  (evaluate ctx fuel).bind fun out => out.toOption.bind fun v => (v.field key).bind Value.ints

end Relon.Eval
