import Relon.Eval.Dict

/-! Variables and references (`reference.rs`).

A Rust panic ends the run with no result: it is a `cut`, as running out of fuel
is. -/
namespace Relon.Eval

/-- `usize::from_str`. -/
def parseUsize (s : String) : Option Nat :=
  let digits := match s.toList with
    | '+' :: rest => rest
    | chars => chars
  if digits ≠ [] ∧ digits.all Char.isDigit then
    let n := digits.foldl (fun n c => 10 * n + (c.toNat - '0'.toNat)) 0
    if n < 2 ^ 64 then some n else none
  else none

/-- `prelude_unit_variant`. -/
def preludeUnitVariant : List TokenKey → Option Value
  | [.string "None" _ _] => some .optionNone
  | [.string "Option" _ _, .string "None" _ _] => some .optionNone
  | _ => none

/-- `child_owning_depth`. -/
def childOwningDepth : Option Nat → Option Nat
  | some (n + 1) => some n
  | _ => none

/-- Where an optional segment or a miss leaves a walk. -/
inductive ValueStep where
  | found (v : Value)
  | optionalNone

/-- How a malformed list index is reported. -/
inductive ListIndexErrorKind where
  | typeMismatchIndex
  | variableNotFound

/-- `step_into_value` on a list's or a tuple's items. -/
def stepIntoItems (items : List Value) (key display : String) (isOptional : Bool)
    (range : TokenRange) (kind : ListIndexErrorKind) : M ValueStep :=
  match parseUsize key with
  | none =>
    match kind with
    | .typeMismatchIndex => .fail (.typeMismatch "Index" "String" range)
    | .variableNotFound => .fail (.variableNotFound display range)
  | some i =>
    match items[i]? with
    | some v => pure (.found v)
    | none => if isOptional then pure .optionalNone else .fail (.variableNotFound display range)

/-- `step_into_value`. -/
def stepIntoValue (current : Value) (key display : String) (isOptional : Bool) (range : TokenRange)
    (kind : ListIndexErrorKind) : M ValueStep :=
  match current with
  | .dict map _ _ =>
    match map.lookup key with
    | some v => pure (.found v)
    | none => if isOptional then pure .optionalNone else .fail (.variableNotFound display range)
  | .list items => stepIntoItems items key display isOptional range kind
  | .tuple items => stepIntoItems items key display isOptional range kind
  | other =>
    if isOptional then pure .optionalNone
    else .fail (.typeMismatch "Dict/List/Tuple" other.typeName range)

/-- `unwrap_optional_for_index`. -/
def unwrapOptionalForIndex (raw : Value) (isOptional : Bool) (display : String)
    (range : TokenRange) : M Value :=
  match raw with
  | .dict map (some "Some") (some "Option") => pure ((map.lookup "value").getD .optionNone)
  | .dict _ (some "None") (some "Option") =>
    if isOptional then pure .optionNone else .fail (.variableNotFound display range)
  | other => pure other

section
variable (ctx : Context)

/-! ### Thunks -/

/-- Evaluate and keep the value: the part both ways of forcing share. -/
def settleThunk (id : Nat) (node : Node) (scope : Scope) : M Value := do
  let v ← evalNode node scope false
  send (.setThunk id v)
  pure v

/-- `force_thunk`. -/
def forceThunk (id : Nat) : M Value := do
  let σ ← read
  match σ.thunks[id]? with
  | none => .cut
  | some thunk =>
    match thunk.value with
    | some v => pure v
    | none =>
      if thunk.cacheKey ∈ σ.evaluatingPaths then
        .fail (.circularReference thunk.path thunk.node.range)
      else do
        let v ← call (.evalMarked thunk.cacheKey thunk.node thunk.scope.1)
        send (.setThunk id v)
        pure v

/-- `force_thunk_with_scope`. -/
def forceThunkWithScope (id : Nat) (scope : Scope) : M Value := do
  let σ ← read
  match σ.thunks[id]? with
  | none => .cut
  | some thunk =>
    match thunk.value with
    | some v => pure v
    | none => settleThunk id thunk.node scope

/-! ### `index` methods -/

/-- `try_index_method`. -/
def tryIndexMethod (receiver key : Value) (isOptional : Bool) (display : String) (scope : Scope)
    (range : TokenRange) : M (Option Value) :=
  match receiver.schemaTag with
  | none => pure none
  | some schema =>
    if ctx.analyzed.isNone then pure none
    else if (ctx.nativeMethods schema "index").isSome then do
      match ← tryCallNativeMethod ctx schema "index" (some receiver) [(none, key)] range with
      | none => .cut
      | some raw => do
        let v ← unwrapOptionalForIndex raw isOptional display range
        pure (some v)
    else
      match (ctx.method? schema "index").bind fun m => m.body.map fun b => (m, b) with
      | none => pure none
      | some (m, body) => do
        let raw ← invokeMethodBody body (some receiver) m.params [(none, key)] scope
        let v ← unwrapOptionalForIndex raw isOptional display range
        pure (some v)

/-! ### Variables -/

/-- A unit variant named through its enum. -/
def unitVariant (name : String) (variants : Assoc (Assoc SchemaField)) (key display : String)
    (isLast : Bool) (range : TokenRange) : M Value :=
  match variants.lookup key with
  | none => .fail (.typeMismatch ("a variant of `" ++ name ++ "`") ("`" ++ key ++ "`") range)
  | some fields =>
    if !fields.isEmpty then
      .fail (.typeMismatch ("payload for variant `" ++ key ++ "`") "unit variant path" range)
    else if !isLast then
      .fail (.typeMismatch "unit enum variant path to end here" display range)
    else pure (.variantDict [] key name)

/-- The segments of a variable after the first. -/
def walkVariable (scope : Scope) (range : TokenRange) :
    List TokenKey → List String → Value → M Value
  | [], _, current => pure current
  | .dynamic expr isOptional :: rest, parts, current => do
    let key ← evalNode expr scope false
    let display := ".".intercalate (parts ++ ["<dynamic>"])
    match ← tryIndexMethod ctx current key isOptional display scope range with
    | some v => walkVariable scope range rest (parts ++ ["<dynamic>"]) v
    | none => do
      let key ← pathKeyOf expr.range key
      let parts := parts ++ [key]
      match ← stepIntoValue current key (".".intercalate parts) isOptional range
          .typeMismatchIndex with
      | .found v => walkVariable scope range rest parts v
      | .optionalNone => pure .optionNone
  | part :: rest, parts, current => do
    let parts := parts ++ [part.name]
    let display := ".".intercalate parts
    match current with
    | .enumSchema name _ variants => do
      let v ← unitVariant name variants part.name display rest.isEmpty range
      walkVariable scope range rest parts v
    | current => do
      match ← stepIntoValue current part.name display part.isOptional range .typeMismatchIndex with
      | .found v => walkVariable scope range rest parts v
      | .optionalNone => pure .optionNone

/-- `resolve_variable`. -/
def resolveVariable (path : List TokenKey) (scope : Scope) (range : TokenRange) : M Value :=
  match path with
  | [] => .fail (.variableNotFound "Empty path" range)
  | .dynamic receiver _ :: rest => do
    let v ← evalNode receiver scope false
    walkVariable ctx scope range rest ["<value>"] v
  | first :: rest => do
    let σ ← read
    match σ.getLocal scope first.name with
    | some v => walkVariable ctx scope range rest [first.name] v
    | none =>
      match σ.getThunk scope first.name with
      | some thunk => do
        let v ← forceThunk thunk
        walkVariable ctx scope range rest [first.name] v
      | none =>
        match preludeUnitVariant path with
        | some v => pure v
        | none => .fail (.variableNotFound first.name range)

/-! ### Reference paths -/

/-- `lookup_value_path` of a reference. -/
def lookupValuePath (display : String) (scope : Scope) (range : TokenRange) :
    List TokenKey → Value → M Value
  | [], current => pure current
  | .dynamic expr isOptional :: rest, current => do
    let key ← evalNode expr scope false
    match ← tryIndexMethod ctx current key isOptional display scope range with
    | some v =>
      if v.isOptionNone && isOptional then pure .optionNone
      else lookupValuePath display scope range rest v
    | none => do
      let key ← pathKeyOf expr.range key
      match ← stepIntoValue current key display isOptional range .variableNotFound with
      | .found v =>
        if v.isOptionNone && isOptional then pure .optionNone
        else lookupValuePath display scope range rest v
      | .optionalNone => pure .optionNone
  | part :: rest, current => do
    match ← stepIntoValue current part.name display part.isOptional range .variableNotFound with
    | .found v =>
      if v.isOptionNone && part.isOptional then pure .optionNone
      else lookupValuePath display scope range rest v
    | .optionalNone => pure .optionNone

/-- `eval_node_with_path_cache`. -/
def evalNodeWithPathCache (node : Node) (scope : Scope) : M Value := do
  let path := scope.fullPath
  let key := scope.pathCacheKey path
  let σ ← read
  if key ∈ σ.evaluatingPaths then .fail (.circularReference path node.range)
  else match σ.pathCache.lookup key with
    | some v => pure v
    | none => do
      let v ← call (.evalMarked key node scope)
      send (.cachePath key v)
      pure v

/-- What a dict has under a name, seen from a reference. -/
inductive DictStep where
  | thunk (id : Nat)
  | value (v : Value)
  | privateBlocked
  | notFound

/-- The key of an entry as `resolve_dict_reference_step` compares it; an entry whose
computed key is neither string nor integer is passed over. -/
def referenceKey (scope : Scope) : TokenKey → M (Option String)
  | .dynamic expr _ => do
    match ← evalNode expr scope false with
    | .string s => pure (some s)
    | .int i => pure (some (toString i.toInt))
    | _ => pure none
  | key => pure (some key.name)

/-- `resolve_dict_reference_step`, over the entries from the last to the first. -/
def resolveDictReferenceStep (part : String) (scope : Scope) (blockPrivate : Bool) :
    List (TokenKey × Node) → M DictStep
  | [] => pure .notFound
  | (.spread _, node) :: rest => do
    match ← evalNode node scope false with
    | .dict map _ _ =>
      match map.lookup part with
      | some v => pure (.value v)
      | none => resolveDictReferenceStep part scope blockPrivate rest
    | _ => resolveDictReferenceStep part scope blockPrivate rest
  | (key, node) :: rest => do
    let k ← referenceKey scope key
    if k = some part then
      if blockPrivate && isPrivateField node then pure .privateBlocked
      else do
        let σ ← read
        match σ.getOwnThunk scope part with
        | some thunk => pure (.thunk thunk)
        | none => resolveDictReferenceStep part scope blockPrivate rest
    else resolveDictReferenceStep part scope blockPrivate rest

def Expr.isContainer : Expr → Bool
  | .dict _ | .list _ => true
  | _ => false

/-- A segment of a reference path. -/
def segmentKey (scope : Scope) : TokenKey → M String
  | .dynamic expr _ => do
    let v ← evalNode expr scope false
    pathKeyOf expr.range v
  | part => pure part.name

/-- A miss: `None` for an optional segment. -/
def missing (isOptional : Bool) (display : String) (range : TokenRange) : M Value :=
  if isOptional then pure .optionNone else .fail (.variableNotFound display range)

/-- A thunk for every element of a list, each in its own frame. -/
def elementThunks (scope : Scope) : Nat → List Node → M (List Nat)
  | _, [] => pure []
  | i, el :: rest => do
    let item ← scope.withPath (toString i)
    let thunk ← send (.newThunk ⟨el, item, [], "", none⟩)
    let more ← elementThunks scope (i + 1) rest
    pure (thunk :: more)

/-- `eval_reference_path_from`. -/
def evalReferencePathFrom (display : String) (range : TokenRange) :
    List TokenKey → Node → OpenScope → Option Nat → M Value
  | [], node, scope, _ => evalNodeWithPathCache node scope.1
  | part :: rest, node, scope, owningDepth =>
    match node.expr with
    | .dict pairs => do
      prepareDictScope ctx node scope
      let key ← segmentKey scope.1 part
      match ← resolveDictReferenceStep key scope.1 (owningDepth ≠ some 0) pairs.reverse with
      | .thunk id =>
        if rest.isEmpty then forceThunk id
        else do
          let σ ← read
          match σ.thunks[id]? with
          | none => .cut
          | some thunk =>
            if thunk.node.expr.isContainer then
              evalReferencePathFrom display range rest thunk.node thunk.scope
                (childOwningDepth owningDepth)
            else do
              let v ← forceThunk id
              lookupValuePath ctx display thunk.scope.1 range rest v
      | .value v => lookupValuePath ctx display scope.1 range rest v
      | .privateBlocked => missing part.isOptional display range
      | .notFound => do
        let σ ← read
        match σ.getLocal scope.1 key with
        | some v => lookupValuePath ctx display scope.1 range rest v
        | none => missing part.isOptional display range
    | .list elements => do
      let key ← segmentKey scope.1 part
      match parseUsize key with
      | none => .fail (.variableNotFound display range)
      | some index => do
        let thunks ← elementThunks scope.1 0 elements
        let item ← scope.1.withListContext index thunks
        match elements[index]? with
        | some el => evalReferencePathFrom display range rest el item (childOwningDepth owningDepth)
        | none => missing part.isOptional display range
    | _ =>
      if part.isOptional then pure .optionNone
      else do
        let v ← evalNodeWithPathCache node scope.1
        lookupValuePath ctx display scope.1 range (part :: rest) v

/-- The frame a reference to `root` starts from: the one pinned for it by an
enclosing dict, or a new one over the anchor's fallback. -/
def referenceRootScope (root : Node) (scope : Scope) : M OpenScope := do
  let σ ← read
  let pinned := scope.chain.findSome? fun f =>
    (σ.rootRef? f).bind fun r => if r.node.id = root.id then r.scope else none
  match pinned with
  | some s => pure s
  | none =>
    send (.openScope ⟨(σ.rootRef? scope).bind RootRef.parentFallback, none, scope.currentDir,
      scope.cacheNamespace, scope.root, none⟩ ⟨[], []⟩)

/-- `eval_reference_path`. -/
def evalReferencePath (root : Node) (path : List TokenKey) (scope : Scope) (display : String)
    (range : TokenRange) (owningDepth : Option Nat) : M Value := do
  let rootScope ← referenceRootScope root scope
  evalReferencePathFrom ctx display range path root rootScope owningDepth

/-- The node `&root` and `&this` start from. -/
def referenceRoot (σ : Store) (scope : Scope) : Option Node :=
  ((σ.rootRef? scope).map RootRef.node).or ctx.rootNode

/-- The path of the dict that owns the reference, and how many steps lead to it. -/
def anchorPath (base : RefBase) (scope : Scope) (range : TokenRange) : List TokenKey × Option Nat :=
  match base with
  | .sibling =>
    let p := scope.fullPath.dropLast
    (p.map fun s => .string s range false, some p.length)
  | .uncle =>
    let p := scope.fullPath.dropLast.dropLast
    (p.map fun s => .string s range false, some p.length)
  | _ => ([], none)

/-- The path-cache key of a reference whose segments are all static. -/
def referenceCacheKey (scope : Scope) (target : List TokenKey) (owningDepth : Option Nat) :
    Option String :=
  if target.isEmpty || target.any TokenKey.isDynamic then none
  else
    let tag := match owningDepth with
      | none => "x"
      | some n => "o" ++ toString n
    some (tag ++ "|" ++ scope.pathCacheKey (target.map TokenKey.name))

/-- `&root`, `&sibling` and `&uncle`. -/
def resolveAnchored (base : RefBase) (path : List TokenKey) (scope : Scope) (range : TokenRange) :
    M Value := do
  let σ ← read
  match referenceRoot ctx σ scope with
  | none => .fail (.variableNotFound "No root" range)
  | some root =>
    let (anchor, owningDepth) := anchorPath base scope range
    let target := anchor ++ path
    let cacheKey := referenceCacheKey scope target owningDepth
    match cacheKey.bind fun k => σ.pathCache.lookup k with
    | some v => pure v
    | none => do
      let v ← evalReferencePath ctx root target scope (dotted target) range owningDepth
      match cacheKey with
      | some key => send (.cachePath key v)
      | none => pure ()
      pure v

/-- `list_element_scope`: the element's frame again, seen from another position. -/
def listElementScope (base : OpenScope) (c : ListContext) (index : Nat) : M OpenScope := do
  let ctx ← send (.newListContext ⟨index, c.elements, none⟩)
  let σ ← read
  send (.openScope ⟨base.1.parent, base.1.pathNode, base.1.currentDir, base.1.cacheNamespace,
    base.1.root, some ctx⟩ (σ.cell base.1))

/-- The neighbour at `index` of the current element. A comprehension's context has
no elements, and asking it for a neighbour panics. -/
def neighbour (c : ListContext) (index : Nat) (path : List TokenKey) (display : String)
    (scope : Scope) (range : TokenRange) : M Value := do
  let σ ← read
  match c.elements[index]?.bind fun id => (σ.thunks[id]?).map fun t => (id, t) with
  | none => .cut
  | some (id, thunk) => do
    let target ← listElementScope thunk.scope c index
    let v ← forceThunkWithScope id target.1
    lookupValuePath ctx display scope range path v

/-- `resolve_reference`. -/
def resolveReference (base : RefBase) (path : List TokenKey) (scope : Scope) (range : TokenRange) :
    M Value := do
  let σ ← read
  match base with
  | .index =>
    match σ.listContext? scope with
    | none => .fail (.variableNotFound "&index can only be used inside a list" range)
    | some c => pure (.int (Int64.ofNat c.index))
  | .prev =>
    match σ.listContext? scope with
    | none => .fail (.variableNotFound "&prev can only be used inside a list" range)
    | some c =>
      if c.index = 0 then pure .optionNone
      else neighbour ctx c (c.index - 1) path "&prev" scope range
  | .next =>
    match σ.listContext? scope with
    | none => .fail (.variableNotFound "&next can only be used inside a list" range)
    | some c =>
      if c.elements.length ≤ c.index + 1 then pure .optionNone
      else neighbour ctx c (c.index + 1) path "&next" scope range
  | .this =>
    match referenceRoot ctx σ scope with
    | none => .fail (.variableNotFound "No root for &this" range)
    | some root =>
      let display := if path.isEmpty then "&this" else dotted path
      evalReferencePath ctx root path scope display range none
  | base => resolveAnchored ctx base path scope range

end

end Relon.Eval
