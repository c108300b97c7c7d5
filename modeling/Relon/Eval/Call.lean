import Relon.Eval.Context

/-! Calling closures, methods and native functions (`eval.rs`).

What is evaluated in turn is asked for (`evalNode`); the calls are answered in
`Relon.Eval.Eval`. -/
namespace Relon.Eval

section
variable (ctx : Context)

/-- `EvaluatorCaps::tick`. -/
def tick (n : UInt64) (range : TokenRange) : M Unit :=
  match ctx.maxSteps with
  | none => pure ()
  | some limit => do
    let prev ← send (.charge (.tick n))
    if Charge.granted limit prev (.tick n) then pure ()
    else .fail (.stepLimitExceeded (some limit) range)

/-- The step check at the head of `eval_internal`. -/
def chargeNode (range : TokenRange) : M Unit :=
  match ctx.maxSteps with
  | none => pure ()
  | some limit => do
    let prev ← send (.charge .node)
    if Charge.granted limit prev .node then pure ()
    else .fail (.stepLimitExceeded (some limit) range)

/-- `check_value_size`. -/
def checkValueSize (value : Value) (range : TokenRange) : M Unit :=
  match ctx.maxValueElements, value.elementCount with
  | some limit, some actual =>
    if limit < actual then .fail (.valueTooLarge limit actual range) else pure ()
  | _, _ => pure ()

/-- `check_native_fn_capability`. -/
def checkNativeFnCapability (name : String) (entry : NativeEntry) (range : TokenRange) : M Unit :=
  match entry.denied with
  | none => pure ()
  | some (bit, message) =>
    .fail (.capabilityDenied (some bit) ("native function `" ++ name ++ "`: " ++ message) range)

end

/-! ### Closures -/

/-- Positional arguments fill the parameters in order. -/
def bindPositional (params : List String) (range : TokenRange) :
    List EvaluatedArg → List String → Assoc Value → Except RuntimeError (Assoc Value)
  | [], _, bound => .ok bound
  | (some _, _) :: rest, open_, bound => bindPositional params range rest open_ bound
  | (none, v) :: rest, p :: open_, bound => bindPositional params range rest open_ (bound.put p v)
  | (none, _) :: _, [], _ =>
    .error (.typeMismatch ("at most " ++ toString params.length) "more" range)

/-- Named arguments, each for a parameter no positional one has filled. -/
def bindNamed (params : List String) (range : TokenRange) :
    List EvaluatedArg → Assoc Value → Except RuntimeError (Assoc Value)
  | [], bound => .ok bound
  | (none, _) :: rest, bound => bindNamed params range rest bound
  | (some name, v) :: rest, bound =>
    if !params.contains name then .error (.variableNotFound name range)
    else if (bound.lookup name).isSome then .error (.unsupportedOperator ("Duplicate " ++ name) range)
    else bindNamed params range rest (bound.put name v)

/-- The parameter bindings of a call. -/
def closureBindings (params : List String) (args : List EvaluatedArg) (range : TokenRange) :
    Except RuntimeError (Assoc Value) := do
  let positional ← bindPositional params range args params []
  let bound ← bindNamed params range args positional
  if bound.length < params.length then
    .error (.typeMismatch (toString params.length) (toString bound.length) range)
  else .ok bound

/-- The frames of one closure call: the parameters, and over them the frame the body
runs in, whose `&root` is the body itself. -/
def closureScope (body : Node) (bound : Assoc Value) (env : Scope) : M OpenScope := do
  let callId ← send .nextCallId
  let namespace_ :=
    if env.cacheNamespace.isEmpty then "closure#" ++ toString callId
    else env.cacheNamespace ++ "#call" ++ toString callId
  let bindingsScope ← send (.openScope
    ⟨some env, none, env.currentDir, namespace_, env.root, none⟩ ⟨bound, []⟩)
  let root ← send (.newRoot ⟨body, none, some bindingsScope.1⟩)
  send (.openScope
    ⟨some bindingsScope.1, none, env.currentDir, namespace_, some root, none⟩ ⟨[], []⟩)

section
variable (ctx : Context)

/-- `eval_closure`. -/
def evalClosure (params : List String) (body : Node) (args : List EvaluatedArg) (env : Scope)
    (range : TokenRange) : M Value := do
  let bound ← Prog.ofExcept (closureBindings params args range)
  let bodyScope ← closureScope body bound env
  evalNode body bodyScope.1 false

/-- `call_function_by_value`. -/
def callFunctionByValue (func : Value) (args : List EvaluatedArg) (range : TokenRange) : M Value :=
  match func with
  | .closure params body env => evalClosure params body args env range
  | other => .fail (.typeMismatch "Closure" other.typeName range)

/-! ### Methods -/

def positionalArgs (args : List EvaluatedArg) : List Value :=
  args.filterMap fun a => if a.1.isNone then some a.2 else none

/-- Named arguments inserted over `base`, a later one of the same name winning. -/
def insertNamed (base : Assoc Value) (args : List EvaluatedArg) : Assoc Value :=
  args.foldl (fun acc a => match a.1 with
    | some name => Assoc.put acc name a.2
    | none => acc) base

/-- The frame of a method call: `self`, positional arguments, then named ones over
them; surplus positional arguments are dropped. -/
def methodBindings (receiver : Option Value) (params : List String) (args : List EvaluatedArg) :
    Assoc Value :=
  let self := match receiver with
    | some v => [("self", v)]
    | none => []
  let bound := (params.zip (positionalArgs args)).foldl (fun acc e => Assoc.put acc e.1 e.2) self
  insertNamed bound args

/-- `invoke_method_body`. -/
def invokeMethodBody (body : Node) (receiver : Option Value) (params : List String)
    (args : List EvaluatedArg) (scope : Scope) : M Value := do
  let methodScope ← scope.withLocals (methodBindings receiver params args)
  evalNode body methodScope false

/-! ### Native functions -/

/-- What the evaluator does for a native function's requests. -/
def hostOp {β : Type} : HostOp β → M β
  | .callRelon func args range =>
    (callFunctionByValue func (args.map fun v => (none, v)) range).attempt
  | .maxValueElements => pure ctx.maxValueElements
  | .nextIterId => send .nextIterId
  | .iterCursor id len => send (.iterCursor id len)
  | .tick n range => (tick ctx n range).attempt

/-- Run a native function on already split arguments. -/
def callNative (entry : NativeEntry) (positional : List Value) (named : Assoc Value)
    (range : TokenRange) : M Value :=
  (entry.call positional named range).translate (hostOp ctx)

/-- `try_call_native_method`. -/
def tryCallNativeMethod (schema method : String) (receiver : Option Value)
    (args : List EvaluatedArg) (range : TokenRange) : M (Option Value) :=
  match ctx.nativeMethods schema method with
  | none => pure none
  | some entry => do
    checkNativeFnCapability (schema ++ "." ++ method) entry range
    let result ← callNative ctx entry (receiver.toList ++ positionalArgs args)
      (insertNamed [] args) range
    checkValueSize ctx result range
    pure (some result)

/-- `evaluate_call_args`. -/
def evaluateCallArgs (scope : Scope) : List (Option String × Node) → M (List EvaluatedArg)
  | [] => pure []
  | (name, node) :: rest => do
    let value ← evalNode node scope false
    let more ← evaluateCallArgs scope rest
    pure ((name, value) :: more)

end

end Relon.Eval
