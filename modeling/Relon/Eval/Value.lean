import Relon.Lib.Assoc
import Relon.Eval.Syntax

/-! Runtime values, scope frames and errors (`relon_eval_api::{value, scope, error}`).

A frame's immutable part is the `Scope` value itself, parents included; its
mutable tables live in the store under `id`, so that two scopes are the same
`Arc<Scope>` exactly when they have the same kind and id. The shared, mutable
`ListContext` and the `&root` anchor are named by their place in the store. -/
namespace Relon.Eval

/-- How a frame came to be, and so whether anything writes to its locals later.
`bindings` frames are made by `with_locals` for a `where` block, a match arm, a
method call or a closure's snapshot; every other frame is `opened`. -/
inductive FrameKind where
  | opened
  | bindings
  deriving DecidableEq

structure Scope where
  kind : FrameKind
  id : Nat
  parent : Option Scope
  pathNode : Option String
  currentDir : String
  cacheNamespace : String
  root : Option Nat
  listContext : Option Nat

/-- A frame whose tables may be written: all that `locals_for_write` and
`thunks_for_write` are ever called on. -/
def OpenScope := { s : Scope // s.kind = .opened }

mutual

inductive Value where
  | bool (b : Bool)
  | int (i : Int64)
  | float (bits : UInt64)
  | string (s : String)
  | list (items : List Value)
  | tuple (items : List Value)
  | dict (map : List (String × Value)) (brand variantOf : Option String)
  | closure (params : List String) (body : Node) (capturedEnv : Scope)
  | schema (generics : List String) (fields : List (String × SchemaField))
      (tupleElements : Option (List TypeNode))
  | enumSchema (name : String) (generics : List String)
      (variants : List (String × List (String × SchemaField)))
  | type (t : TypeNode)
  | wildcard

inductive SchemaField where
  | mk (typeHint : TypeNode) (predicates : List Value) (customError : Option String)
      (defaultValue : Option Value)

end

instance : Inhabited Value := ⟨.wildcard⟩

namespace SchemaField

def typeHint : SchemaField → TypeNode | mk t _ _ _ => t
def predicates : SchemaField → List Value | mk _ p _ _ => p
def customError : SchemaField → Option String | mk _ _ e _ => e
def defaultValue : SchemaField → Option Value | mk _ _ _ d => d

end SchemaField

/-- `RuntimeError`, the variants the modelled code raises; `host` stands for the
errors only native functions and module resolvers make. -/
inductive RuntimeError where
  | variableNotFound (name : String) (range : TokenRange)
  | functionNotFound (name : String) (range : TokenRange)
  | typeMismatch (expected found : String) (range : TokenRange)
  | divisionByZero (range : TokenRange)
  | numericOverflow (range : TokenRange)
  | unsupportedOperator (message : String) (range : TokenRange)
  | validationError (message : String) (range : TokenRange)
  | circularReference (cycle : List String) (range : TokenRange)
  | circularImport (chain : List String) (range : TokenRange)
  | importHashUnknownAlgorithm (path algorithm : String) (range : TokenRange)
  | importHashInvalidHex (path algorithm : String) (expectedLen gotLen : Nat) (range : TokenRange)
  | importHashMismatch (path algorithm expected got : String) (range : TokenRange)
  | invalidIdentifier (name : String) (range : TokenRange)
  | stepLimitExceeded (limit : Option UInt64) (range : TokenRange)
  | recursionLimitExceeded (limit : Nat) (range : TokenRange)
  | valueTooLarge (limit actual : Nat) (range : TokenRange)
  | capabilityDenied (bit : Option Nat) (reason : String) (range : TokenRange)
  | noMainSignature (range : TokenRange)
  | missingMainArg (name : String) (range : TokenRange)
  | unexpectedMainArg (name : String) (range : TokenRange)
  | mainArgTypeMismatch (name expected found : String) (range : TokenRange)
  | mainReturnTypeMismatch (expected found : String) (range : TokenRange)
  | host (message : String) (range : TokenRange)
  deriving DecidableEq

namespace Value

def variantDict (map : Assoc Value) (variant enumName : String) : Value :=
  .dict map (some variant) (some enumName)

def optionSome (v : Value) : Value := variantDict [("value", v)] "Some" "Option"
def optionNone : Value := variantDict [] "None" "Option"
def resultOk (v : Value) : Value := variantDict [("value", v)] "Ok" "Result"
def resultErr (e : Value) : Value := variantDict [("error", e)] "Err" "Result"

def isOptionNone : Value → Bool
  | .dict _ brand variantOf => variantOf == some "Option" && brand == some "None"
  | _ => false

/-- The entry of a dict. -/
def field (key : String) : Value → Option Value
  | .dict map _ _ => map.lookup key
  | _ => none

/-- The number an integer is. -/
def int? : Value → Option Int
  | .int i => some i.toInt
  | _ => none

/-- The numbers of a list of integers. -/
def ints : Value → Option (List Int)
  | .list items => items.mapM fun
    | .int i => some i.toInt
    | _ => none
  | _ => none

def isClosure : Value → Bool
  | .closure .. => true
  | _ => false

def isWildcard : Value → Bool
  | .wildcard => true
  | _ => false

def typeName : Value → String
  | .bool _ => "Bool"
  | .int _ => "Int"
  | .float _ => "Float"
  | .string _ => "String"
  | .list _ => "List"
  | .tuple _ => "Tuple"
  | .dict .. => "Dict"
  | .closure .. => "Closure"
  | .schema .. => "Schema"
  | .enumSchema .. => "EnumSchema"
  | .type _ => "Type"
  | .wildcard => "Wildcard"

/-- `value_schema_tag`. -/
def schemaTag : Value → Option String
  | .dict _ brand _ => some (brand.getD "Dict")
  | .bool _ => some "Bool"
  | .int _ => some "Int"
  | .float _ => some "Float"
  | .string _ => some "String"
  | .list _ => some "List"
  | .tuple _ => some "Tuple"
  | _ => none

/-- The element count `check_value_size` compares with the cap. -/
def elementCount : Value → Option Nat
  | .list items => some items.length
  | .tuple items => some items.length
  | .dict map _ _ => some map.length
  | _ => none

end Value

/-- `merge_schema_fields` for one field: the later type wins, predicates add up. -/
def SchemaField.merge (base patch : SchemaField) : SchemaField :=
  .mk patch.typeHint (base.predicates ++ patch.predicates.filter fun p => !p.isWildcard)
    (patch.customError.or base.customError) (patch.defaultValue.or base.defaultValue)

/-- `merge_schema_fields`. -/
def mergeSchemaFields (base patch : Assoc SchemaField) : Assoc SchemaField :=
  patch.foldl (fun acc e =>
    match acc.lookup e.1 with
    | some existing => Assoc.put acc e.1 (existing.merge e.2)
    | none => Assoc.put acc e.1 e.2) base

namespace Value

mutual

/-- `Value::deep_merge`. -/
def deepMerge (base : Value) : Value → Value
  | .dict patch brand variantOf =>
    match base with
    | .dict map brand' variantOf' => .dict (mergeEntries map patch) brand' variantOf'
    | .schema generics fields elements => .schema generics (patchDefaults fields patch) elements
    | _ => .dict patch brand variantOf
  | .schema generics patch elements =>
    match base with
    | .schema generics' fields elements' =>
      .schema generics' (mergeSchemaFields fields patch) elements'
    | _ => .schema generics patch elements
  | patch => patch

def mergeEntries (map : Assoc Value) : List (String × Value) → Assoc Value
  | [] => map
  | (k, v) :: rest =>
    match map.lookup k with
    | some old => mergeEntries (Assoc.insertSorted map k (deepMerge old v)) rest
    | none => mergeEntries (Assoc.insertSorted map k v) rest

def patchDefaults (fields : Assoc SchemaField) : List (String × Value) → Assoc SchemaField
  | [] => fields
  | (k, v) :: rest =>
    match fields.lookup k with
    | some (.mk t p e _) => patchDefaults (Assoc.put fields k (.mk t p e (some v))) rest
    | none => patchDefaults fields rest

end

end Value

end Relon.Eval
