import Relon.Lib.Assoc
import Relon.Eval.Syntax

/-! The types the analyzer infers (`infer/mod.rs`): equality, the join of two
branches, the lift of a declared type, and the table of operators. -/
namespace Relon.Analyzer
open Eval

inductive InferredType where
  | any
  | never
  | bool
  | int
  | float
  | number
  | string
  | list (item : InferredType)
  | dict (value : InferredType)
  | schema (name : String)
  | variant (enumName variant : String)
  | variantPayload (enumName variant : String) (fields : Assoc TypeNode)
  | optional (inner : InferredType)
  | fn (params : List InferredType) (result : InferredType)
  | tuple (items : List InferredType)
  deriving Inhabited

namespace InferredType

/-- Equality of two field tables, as maps. -/
def sameFields (f g : Assoc TypeNode) : Bool :=
  f.length == g.length && f.all fun e => (g.lookup e.1).any fun t => TypeNode.beq e.2 t

mutual

/-- Derived equality. -/
def beq : InferredType → InferredType → Bool
  | any, any => true
  | never, never => true
  | bool, bool => true
  | int, int => true
  | float, float => true
  | number, number => true
  | string, string => true
  | list a, list b => beq a b
  | dict a, dict b => beq a b
  | schema a, schema b => a == b
  | variant e v, variant e' v' => e == e' && v == v'
  | variantPayload e v f, variantPayload e' v' f' => e == e' && v == v' && sameFields f f'
  | optional a, optional b => beq a b
  | fn ps r, fn ps' r' => beqAll ps ps' && beq r r'
  | tuple as, tuple bs => beqAll as bs
  | _, _ => false

def beqAll : List InferredType → List InferredType → Bool
  | [], [] => true
  | a :: as, b :: bs => beq a b && beqAll as bs
  | _, _ => false

end

def isAny : InferredType → Bool
  | any => true
  | _ => false

def isString : InferredType → Bool
  | string => true
  | _ => false

def isBool : InferredType → Bool
  | bool => true
  | _ => false

def isNumeric : InferredType → Bool
  | int => true
  | float => true
  | number => true
  | _ => false

mutual

/-- `InferredType::join`. An unknown branch is left out of account. -/
def join : InferredType → InferredType → InferredType
  | a, b =>
    if beq a b then a
    else match a, b with
      | never, b => b
      | a, never => a
      | any, b => b
      | a, any => a
      | int, float => number
      | float, int => number
      | int, number => number
      | number, int => number
      | float, number => number
      | number, float => number
      | list a, list b => list (join a b)
      | tuple as, tuple bs => if as.length = bs.length then tuple (joinAll as bs) else any
      | dict a, dict b => dict (join a b)
      | variant e _, variant e' _ => if e = e' then schema e else any
      | variantPayload e _ _, variantPayload e' _ _ => if e = e' then schema e else any
      | variant e _, variantPayload e' _ _ => if e = e' then schema e else any
      | variantPayload e _ _, variant e' _ => if e = e' then schema e else any
      | _, _ => any

def joinAll : List InferredType → List InferredType → List InferredType
  | a :: as, b :: bs => join a b :: joinAll as bs
  | _, _ => []

end

/-- The join of a list of types; `none` when there is none. -/
def joined : List InferredType → Option InferredType
  | [] => none
  | t :: rest => some (rest.foldl join t)

end InferredType

/-! ### Declared types -/

/-- The schemas other modules export, by the alias they are imported under. -/
abbrev Aliases := Assoc (List String)

/-- `cross_module_schema`. -/
def crossModuleSchema (aliases : Aliases) (head tail : String) : Option String :=
  if ((aliases.lookup head).getD []).contains tail then some (head ++ "." ++ tail) else none

/-- The type a name stands for, its type arguments lifted already. -/
def namedType (name : String) (generics : List InferredType) : InferredType :=
  match name with
  | "Any" => .any
  | "Bool" => .bool
  | "Int" => .int
  | "Float" => .float
  | "Number" => .number
  | "String" => .string
  | "List" => .list (generics.head?.getD .any)
  | "Dict" => .dict ((generics[1]?).getD .any)
  | "Tuple" => .tuple generics
  | "Closure" | "Fn" =>
    match generics.getLast? with
    | some result => .fn generics.dropLast result
    | none => .any
  | other => .schema other

mutual

/-- `infer_from_type_node_with_imports`. -/
def inferFromTypeNode (aliases : Aliases) : TypeNode → InferredType
  | ⟨path, generics, optional, _⟩ =>
    let base := match path with
      | [name] => namedType name (inferFromTypeNodes aliases generics)
      | [head, tail] =>
        match crossModuleSchema aliases head tail with
        | some name => .schema name
        | none => .any
      | _ => .any
    if optional then .optional base else base

def inferFromTypeNodes (aliases : Aliases) : List TypeNode → List InferredType
  | [] => []
  | t :: rest => inferFromTypeNode aliases t :: inferFromTypeNodes aliases rest

end

/-! ### Operators -/

/-- `binary_known_invalid`. -/
def binaryKnownInvalid (op : Operator) (lt rt : InferredType) : Bool :=
  if lt.isAny || rt.isAny then false
  else match op with
    | .add =>
      match lt, rt with
      | .list _, .list _ => false
      | .dict _, .dict _ => false
      | _, _ => !(lt.isNumeric && rt.isNumeric) && !(lt.isString || rt.isString)
    | .sub | .mul | .div | .mod => !(lt.isNumeric && rt.isNumeric)
    | .and | .or => !(lt.isBool && rt.isBool)
    | _ => false

/-- The result of an arithmetic operator on operands not known to be invalid. -/
def arithmeticType (op : Operator) (lt rt : InferredType) : InferredType :=
  match lt, rt with
  | .int, .int => .int
  | .float, .int => .float
  | .int, .float => .float
  | .float, .float => .float
  | lt, rt =>
    if lt.isNumeric && rt.isNumeric then .number
    else if op = .add then
      if lt.isString || rt.isString then .string
      else match lt, rt with
        | .list a, .list b => .list (a.join b)
        | .dict a, .dict b => .dict (a.join b)
        | _, _ => .any
    else .any

/-- `infer_binary`. -/
def inferBinary (op : Operator) (lt rt : InferredType) : Option InferredType :=
  if binaryKnownInvalid op lt rt then none
  else match op with
    | .add | .sub | .mul | .div | .mod => some (arithmeticType op lt rt)
    | .and | .or => some .bool
    | .eq | .ne | .lt | .gt | .le | .ge => some .bool
    | _ => none

/-- The result of a unary operator. -/
def inferUnary (op : Operator) (t : InferredType) : Option InferredType :=
  match op with
  | .not => if t.isBool then some .bool else none
  | .sub => if t.isNumeric then some t else none
  | _ => none

/-- The type of a conditional: an integer branch and a float branch make a float. -/
def ternaryType (tt et : InferredType) : Option InferredType :=
  let joined := match tt, et with
    | .int, .float => .float
    | .float, .int => .float
    | _, _ => tt.join et
  if joined.isAny && !tt.isAny && !et.isAny then none else some joined

end Relon.Analyzer
