import Relon.Eval.Store

/-! What a run is given (`relon_eval_api::context`): the document, the host's
native functions and schemas, the analyzer's tables and the capability limits.

These are parameters of the model, so that what is proved holds for every host.
A native function is a program over the services `NativeFnCaps` offers it.
Floating-point arithmetic, the derived `Debug` text of containers and the derived
equality of syntax trees are given as functions too. Decorator plugins are the
built-in ones. -/
namespace Relon.Eval

/-- IEEE double operations on bit patterns. -/
structure Floats where
  add : UInt64 → UInt64 → UInt64
  sub : UInt64 → UInt64 → UInt64
  mul : UInt64 → UInt64 → UInt64
  div : UInt64 → UInt64 → UInt64
  rem : UInt64 → UInt64 → UInt64
  neg : UInt64 → UInt64
  ofInt : Int64 → UInt64
  lt : UInt64 → UInt64 → Bool
  le : UInt64 → UInt64 → Bool
  /-- `OrderedFloat` equality: every NaN equals every NaN. -/
  eq : UInt64 → UInt64 → Bool
  isZero : UInt64 → Bool
  display : UInt64 → String

/-- An argument with its keyword, if it was passed as `name=value`. -/
abbrev EvaluatedArg := Option String × Value

/-- The services of `NativeFnCaps`. A callback or a tick may be refused, and the
native function sees the refusal. -/
inductive HostOp : Type → Type where
  | callRelon (func : Value) (args : List Value) (range : TokenRange) :
      HostOp (Except RuntimeError Value)
  | maxValueElements : HostOp (Option Nat)
  | nextIterId : HostOp UInt64
  | iterCursor (id : UInt64) (len : Nat) : HostOp (Option Nat)
  | tick (n : UInt64) (range : TokenRange) : HostOp (Except RuntimeError Unit)

/-- A native function, given its positional and named arguments. -/
abbrev Native := List Value → Assoc Value → TokenRange → Prog HostOp RuntimeError Value

structure NativeEntry where
  /-- The verdict of `check_gate` under the run's capabilities: the first missing
  bit and its message. -/
  denied : Option (Nat × String)
  call : Native

structure SchemaFieldDef where
  name : String
  typeHint : Option TypeNode
  valueRange : TokenRange
  valueNode : Node
  /-- The `#default`, `#expect`, `#msg` and `#error` directives of the field. -/
  metaDirectives : List Directive

structure EnumVariant where
  name : String
  fields : List SchemaFieldDef

structure SchemaDef where
  name : Option String
  generics : List String
  fields : List SchemaFieldDef
  tupleElements : Option (List TypeNode)
  bases : List Node
  variants : List EnumVariant

structure SchemaMethod where
  name : String
  params : List String
  body : Option Node
  isNative : Bool

structure MainParam where
  name : String
  typeNode : TypeNode
  range : TokenRange

structure MainSignature where
  params : List MainParam
  returnType : Option TypeNode
  range : TokenRange

/-- What the evaluator reads from an `AnalyzedTree`. -/
structure AnalyzedTree where
  schema : Nat → Option SchemaDef
  schemaMethods : Assoc (List SchemaMethod)
  mainSignature : Option MainSignature
  rootSchemas : List RootSchemaDecl

/-- What the evaluator reads from a `WorkspaceTree`: the parsed modules, each with the bytes it
was parsed from, and their root schemas. -/
structure Workspace where
  nodes : String → Option (List UInt8 × Node)
  rootSchemas : String → List RootSchemaDecl

structure Context where
  rootNode : Option Node
  functions : String → Option NativeEntry
  nativeMethods : String → String → Option NativeEntry
  schemas : Assoc Value
  analyzed : Option AnalyzedTree
  lowerSchemaPure : Option String → List String → Node → Option SchemaDef
  /-- What the resolver chain returns for a path seen from a directory, when it is asked for
  the `n`-th time. -/
  resolveModule : Nat → String → String → TokenRange → Except RuntimeError ModuleSource
  /-- `fallback_parse_analyze`. -/
  parseModule : ModuleSource → TokenRange → Except RuntimeError Node
  /-- The SHA-256 digest of a module's bytes in lower-case hex, which the `sha2` and `hex` crates
  compute. -/
  sha256 : List UInt8 → String
  workspace : Option Workspace
  maxSteps : Option UInt64
  maxValueElements : Option Nat
  highLevelFusion : Bool
  floats : Floats
  nodeEq : Node → Node → Bool
  debug : Value → String

/-- Stands in where a document computes with no floats. -/
def Floats.unused : Floats :=
  ⟨fun a _ => a, fun a _ => a, fun a _ => a, fun a _ => a, fun a _ => a, fun a => a, fun _ => 0,
    fun _ _ => false, fun _ _ => false, fun a b => a == b, fun _ => false, fun _ => ""⟩

namespace Context

/-- A host that registers nothing and sets no limit. -/
def bare (root : Node) : Context where
  rootNode := some root
  functions := fun _ => none
  nativeMethods := fun _ _ => none
  schemas := []
  analyzed := none
  lowerSchemaPure := fun _ _ _ => none
  resolveModule := fun _ path _ range => .error (.host path range)
  parseModule := fun source range => .error (.host source.canonicalId range)
  sha256 := fun _ => ""
  workspace := none
  maxSteps := none
  maxValueElements := none
  highLevelFusion := false
  floats := .unused
  nodeEq := fun _ _ => false
  debug := fun _ => ""

variable (ctx : Context)

/-- The host with another document: `with_root`. -/
def withRoot (node : Node) : Context := { ctx with rootNode := some node }

/-- The methods `schema_methods` lists under a schema name. -/
def methods? (schema : String) : Option (List SchemaMethod) :=
  ctx.analyzed.bind fun tree => tree.schemaMethods.lookup schema

def method? (schema name : String) : Option SchemaMethod :=
  (ctx.methods? schema).bind fun ms => ms.find? fun m => m.name == name

end Context

namespace Value

variable (ctx : Context)

mutual

/-- `PartialEq for Value`: schemas never compare equal, closures by parameters,
body and captured frame. -/
def eq : Value → Value → Bool
  | .bool a, .bool b => a == b
  | .int a, .int b => a == b
  | .float a, .float b => ctx.floats.eq a b
  | .string a, .string b => a == b
  | .list a, .list b => eqAll a b
  | .tuple a, .tuple b => eqAll a b
  | .dict a brand variantOf, .dict b brand' variantOf' =>
    eqEntries a b && brand == brand' && variantOf == variantOf'
  | .type a, .type b => a.beq b
  | .wildcard, .wildcard => true
  | .closure params body env, .closure params' body' env' =>
    params == params' && ctx.nodeEq body body' && env.kind == env'.kind && env.id == env'.id
  | _, _ => false

def eqAll : List Value → List Value → Bool
  | [], [] => true
  | a :: as, b :: bs => eq a b && eqAll as bs
  | _, _ => false

def eqEntries : List (String × Value) → List (String × Value) → Bool
  | [], [] => true
  | (k, a) :: as, (k', b) :: bs => k == k' && eq a b && eqEntries as bs
  | _, _ => false

end

/-- `Value::is_truthy`. -/
def isTruthy : Value → Bool
  | .bool b => b
  | .int i => i != 0
  | .float f => !ctx.floats.isZero f
  | .string s => !s.isEmpty
  | .list l => !l.isEmpty
  | .tuple l => !l.isEmpty
  | .dict m _ _ => !m.isEmpty
  | _ => true

mutual

/-- `Display for Value`. -/
def display : Value → String
  | .bool b => toString b
  | .int i => toString i.toInt
  | .float f => ctx.floats.display f
  | .string s => s
  | .list items => ctx.debug (.list items)
  | .tuple items => "(" ++ ", ".intercalate (displayAll items) ++
      (if items.length = 1 then "," else "") ++ ")"
  | .dict map brand variantOf => ctx.debug (.dict map brand variantOf)
  | .closure .. => "<closure>"
  | .schema .. => "<schema>"
  | .enumSchema name _ _ => "<enum " ++ name ++ ">"
  | .type t => "Type<" ++ t.format ++ ">"
  | .wildcard => "*"

def displayAll : List Value → List String
  | [] => []
  | v :: rest => display v :: displayAll rest

end

end Value

end Relon.Eval
