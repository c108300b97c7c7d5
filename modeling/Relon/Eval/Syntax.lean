import Mathlib.Data.List.Basic

/-! Syntax trees as the evaluator reads them (`relon_parser::token`).

A range keeps its two byte offsets. Documentation comments, line and column
numbers, the declared types of closures and what only the analyzer looks at
(method lists, the payloads of enum alternatives) are left out: nothing below
reads them. -/
namespace Relon.Eval

structure TokenRange where
  start : Nat
  stop : Nat
  deriving DecidableEq, Inhabited

structure TypeNode where
  path : List String
  generics : List TypeNode
  isOptional : Bool
  range : TokenRange
  deriving Inhabited

/-- A type written as one bare name. -/
def TypeNode.named (name : String) (range : TokenRange) : TypeNode :=
  ⟨[name], [], false, range⟩

inductive RefBase where
  | root | sibling | uncle | prev | next | index | this
  deriving DecidableEq

inductive Operator where
  | add | sub | mul | div | mod | eq | ne | lt | gt | le | ge | and | or | not | pipe | concat
  deriving DecidableEq

structure PatternBinding where
  field : Option String
  binding : Option String
  deriving DecidableEq

inductive HashAlgorithm where
  | sha256
  deriving DecidableEq

/-- The pin of an `#import`: an algorithm, as it is written, and a digest in hex. -/
structure IntegrityHash where
  algorithm : Option HashAlgorithm
  algorithmText : String
  hex : String
  deriving DecidableEq

inductive ImportSpec where
  | alias (name : String)
  | spread
  | destructure (entries : List (String × Option String))
  deriving DecidableEq

mutual

inductive Node where
  | mk (id : Nat) (expr : Expr) (decorators : List Decorator) (directives : List Directive)
      (typeHint : Option TypeNode) (range : TokenRange)

inductive Expr where
  | missing
  | bool (b : Bool)
  | int (i : Int64)
  | float (bits : UInt64)
  | string (s : String)
  | list (elements : List Node)
  | tuple (elements : List Node)
  | dict (pairs : List (TokenKey × Node))
  | spread (inner : Node)
  | comprehension (element : Node) (id : String) (iterable : Node) (condition : Option Node)
  | variable (path : List TokenKey)
  | reference (base : RefBase) (path : List TokenKey)
  | binary (op : Operator) (left right : Node)
  | unary (op : Operator) (inner : Node)
  | ternary (cond then_ els : Node)
  | fnCall (path : List TokenKey) (args : List (Option String × Node))
  | fString (parts : List FStringPart)
  | type (t : TypeNode)
  | wildcard
  | where_ (expr bindings : Node)
  | match_ (expr : Node) (arms : List (Node × Node))
  | variantPattern (enumPath : List String) (variant : String) (bindings : List PatternBinding)
  | closure (params : List String) (body : Node)
  | variantCtor (enumPath : List String) (variant : String) (body : Node)

inductive TokenKey where
  | dummy
  | index (i : Nat) (optional : Bool)
  | string (s : String) (range : TokenRange) (optional : Bool)
  | dynamic (expr : Node) (optional : Bool)
  | spread (range : TokenRange)

inductive FStringPart where
  | literal (s : String)
  | interpolation (node : Node)

inductive Decorator where
  | mk (path : List TokenKey) (args : List (Option String × Node)) (range : TokenRange)

inductive Directive where
  | mk (name : String) (body : DirectiveBody) (range : TokenRange)

inductive DirectiveBody where
  | bare
  | value (body : Node)
  | nameBody (name : String) (generics : List String) (body : Node)
  | import_ (spec : ImportSpec) (path : String) (integrity : Option IntegrityHash)
  | main

end

namespace Node

/-- A node with nothing stacked above it. -/
def bare (id : Nat) (expr : Expr) : Node := mk id expr [] [] none default

def id : Node → Nat | mk id _ _ _ _ _ => id
def expr : Node → Expr | mk _ e _ _ _ _ => e
def decorators : Node → List Decorator | mk _ _ d _ _ _ => d
def directives : Node → List Directive | mk _ _ _ d _ _ => d
def typeHint : Node → Option TypeNode | mk _ _ _ _ t _ => t
def range : Node → TokenRange | mk _ _ _ _ _ r => r

end Node

namespace Decorator

def path : Decorator → List TokenKey | mk p _ _ => p
def args : Decorator → List (Option String × Node) | mk _ a _ => a
def range : Decorator → TokenRange | mk _ _ r => r

end Decorator

namespace Directive

def name : Directive → String | mk n _ _ => n
def body : Directive → DirectiveBody | mk _ b _ => b
def range : Directive → TokenRange | mk _ _ r => r

end Directive

namespace TokenKey

def name : TokenKey → String
  | dummy => "_"
  | index i _ => toString i
  | string s _ _ => s
  | dynamic _ _ => "<dynamic>"
  | spread _ => "..."

def isOptional : TokenKey → Bool
  | index _ opt => opt
  | string _ _ opt => opt
  | dynamic _ opt => opt
  | _ => false

def isDynamic : TokenKey → Bool
  | dynamic _ _ => true
  | _ => false

/-- A plain, non-optional name segment. -/
def plain (s : String) : TokenKey := string s default false

end TokenKey

/-- The dotted spelling of a path, as the diagnostics print it. -/
def dotted (path : List TokenKey) : String := ".".intercalate (path.map TokenKey.name)

/-- `Expr::kind`. -/
def Expr.kind : Expr → String
  | .missing => "Missing"
  | .bool _ => "Bool"
  | .int _ => "Int"
  | .float _ => "Float"
  | .string _ => "String"
  | .list _ => "List"
  | .tuple _ => "Tuple"
  | .dict _ => "Dict"
  | .spread _ => "Spread"
  | .comprehension .. => "Comprehension"
  | .variable _ => "Variable"
  | .reference .. => "Reference"
  | .binary .. => "Binary"
  | .unary .. => "Unary"
  | .ternary .. => "Ternary"
  | .fnCall .. => "FnCall"
  | .fString _ => "FString"
  | .type _ => "Type"
  | .wildcard => "Wildcard"
  | .where_ .. => "Where"
  | .match_ .. => "Match"
  | .variantPattern .. => "VariantPattern"
  | .closure .. => "Closure"
  | .variantCtor .. => "VariantCtor"

/-- `is_builtin_type_name`. -/
def isBuiltinTypeName (name : String) : Bool :=
  ["Int", "Float", "Number", "String", "Bool", "Any", "List", "Dict", "Closure", "Fn",
    "Tuple"].contains name

/-- `#internal`: kept out of the dict value. -/
def isPrivateField (node : Node) : Bool := node.directives.any fun d => d.name == "internal"

namespace TypeNode

mutual

/-- `format_type`. -/
def format : TypeNode → String
  | ⟨path, generics, optional, _⟩ =>
    let suffix := if optional then "?" else ""
    let head := ".".intercalate path
    if generics.isEmpty then head ++ suffix
    else head ++ "<" ++ ", ".intercalate (formatAll generics) ++ ">" ++ suffix

def formatAll : List TypeNode → List String
  | [] => []
  | t :: rest => t.format :: formatAll rest

end

/-- The type put in for a generic parameter, if `t` is one of `subst`. -/
def replacement (subst : List (String × TypeNode)) (t : TypeNode) : Option TypeNode :=
  match t.path, t.generics with
  | [name], [] => (subst.lookup name).map fun r => { r with isOptional := r.isOptional || t.isOptional }
  | _, _ => none

mutual

/-- `substitute_generics_in_typenode`. -/
def substitute (subst : List (String × TypeNode)) : TypeNode → TypeNode
  | ⟨path, generics, optional, range⟩ =>
    match replacement subst ⟨path, generics, optional, range⟩ with
    | some r => r
    | none => ⟨path, substituteAll subst generics, optional, range⟩

def substituteAll (subst : List (String × TypeNode)) : List TypeNode → List TypeNode
  | [] => []
  | t :: rest => substitute subst t :: substituteAll subst rest

end

mutual

/-- Derived equality, source range included. -/
def beq : TypeNode → TypeNode → Bool
  | ⟨p, g, o, r⟩, ⟨p', g', o', r'⟩ => p == p' && beqAll g g' && o == o' && r == r'

def beqAll : List TypeNode → List TypeNode → Bool
  | [], [] => true
  | t :: rest, t' :: rest' => beq t t' && beqAll rest rest'
  | _, _ => false

end

end TypeNode

/-- `str::split('.')`. -/
def splitDots (s : String) : List String := (s.toList.splitOn '.').map String.ofList

/-- `type_node_from_brand_arg`: the type a `#brand` body names. -/
def typeNodeFromBrandArg (e : Expr) (range : TokenRange) : Option TypeNode :=
  match e with
  | .type t => some t
  | .variable path =>
    let segments := path.filterMap fun
      | .string s _ false => some s
      | _ => none
    if segments.length = path.length ∧ segments ≠ [] then some ⟨segments, [], false, range⟩ else none
  | .string s =>
    let segments := splitDots s
    if s ≠ "" ∧ segments.all (· ≠ "") then some ⟨segments, [], false, range⟩ else none
  | _ => none

end Relon.Eval
