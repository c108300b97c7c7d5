import Mathlib.Algebra.Group.Int.Defs
import Relon.Eval.SchemaDef

/-! Binary and unary operators (`arithmetic.rs`). -/
namespace Relon.Eval

/-! ### Numbers -/

/-- An `i64` result, or nothing when it does not fit. -/
def checkedInt (i : Int) : Option Int64 :=
  if -(2 ^ 63) ≤ i ∧ i < 2 ^ 63 then some (Int64.ofInt i) else none

/-- `debug` spelling of an operator. -/
def Operator.name : Operator → String
  | .add => "Add" | .sub => "Sub" | .mul => "Mul" | .div => "Div" | .mod => "Mod"
  | .eq => "Eq" | .ne => "Ne" | .lt => "Lt" | .gt => "Gt" | .le => "Le" | .ge => "Ge"
  | .and => "And" | .or => "Or" | .not => "Not" | .pipe => "Pipe" | .concat => "Concat"

inductive NumericValue where
  | int (i : Int64)
  | float (bits : UInt64)

def NumericValue.asF64 (ctx : Context) : NumericValue → UInt64
  | .int i => ctx.floats.ofInt i
  | .float f => f

def expectNumber (v : Value) (range : TokenRange) : M NumericValue :=
  match v with
  | .int i => pure (.int i)
  | .float f => pure (.float f)
  | other => .fail (.typeMismatch "Number" other.typeName range)

section
variable (ctx : Context)

/-- `eval_numeric_arithmetic`: `+`, `-` and `*`, with integers checked. -/
def evalNumericArithmetic (ints : Int → Int → Int) (floats : UInt64 → UInt64 → UInt64)
    (range : TokenRange) (l : Value) (lRange : TokenRange) (r : Value) (rRange : TokenRange) :
    M Value := do
  match ← expectNumber l lRange, ← expectNumber r rRange with
  | .int a, .int b => okOr ((checkedInt (ints a.toInt b.toInt)).map .int) (.numericOverflow range)
  | a, b => pure (.float (floats (a.asF64 ctx) (b.asF64 ctx)))

/-- `eval_numeric_division`: `/` and `%`, truncating on integers. -/
def evalNumericDivision (ints : Int → Int → Int) (floats : UInt64 → UInt64 → UInt64)
    (range : TokenRange) (l : Value) (lRange : TokenRange) (r : Value) (rRange : TokenRange) :
    M Value := do
  let a ← expectNumber l lRange
  let b ← expectNumber r rRange
  if ctx.floats.isZero (b.asF64 ctx) then .fail (.divisionByZero rRange)
  else match a, b with
    | .int a, .int b =>
      -- `checked_div` and `checked_rem` refuse a zero divisor and `i64::MIN / -1`, whose
      -- quotient does not fit
      if b = 0 ∨ (checkedInt (Int.tdiv a.toInt b.toInt)).isNone then .fail (.numericOverflow range)
      else okOr ((checkedInt (ints a.toInt b.toInt)).map .int) (.numericOverflow range)
    | a, b => pure (.float (floats (a.asF64 ctx) (b.asF64 ctx)))

/-- `eval_numeric_comparison`: integers too are compared as floats. -/
def evalNumericComparison (test : UInt64 → UInt64 → Bool) (l : Value) (lRange : TokenRange)
    (r : Value) (rRange : TokenRange) : M Value := do
  let a ← expectNumber l lRange
  let b ← expectNumber r rRange
  pure (.bool (test (a.asF64 ctx) (b.asF64 ctx)))

end

/-! ### Operators through methods -/

section
variable (ctx : Context)

/-- `try_branded_binary_method`: a method of the left operand's schema, by its body
or by the host. -/
def tryBrandedBinaryMethod (receiver other : Value) (method : String) (scope : Scope)
    (range : TokenRange) : M (Option Value) :=
  match receiver with
  | .dict _ (some brand) _ =>
    match ctx.method? brand method with
    | none => pure none
    | some m =>
      match m.body with
      | some body => do
        let v ← invokeMethodBody body (some receiver) m.params [(none, other)] scope
        pure (some v)
      | none =>
        match ctx.nativeMethods brand method with
        | none => pure none
        | some entry => do
          checkNativeFnCapability (brand ++ "." ++ method) entry range
          let v ← callNative ctx entry [receiver, other] [] range
          pure (some v)
  | _ => pure none

/-- The method's answer, or `fallback` when there is no method. -/
def orElseMethod (receiver other : Value) (method : String) (scope : Scope) (range : TokenRange)
    (onHit : Value → Value) (fallback : M Value) : M Value := do
  match ← tryBrandedBinaryMethod ctx receiver other method scope range with
  | some v => pure (onHit v)
  | none => fallback

def invertBool : Value → Value
  | .bool b => .bool (!b)
  | other => other

/-- `try_le_ge_lowering`: `lt` decides, `eq` or structural equality closes the boundary. -/
def tryLeGeLowering (a b : Value) (scope : Scope) (range : TokenRange) (swapLt : Bool) :
    M (Option Value) := do
  let lt ← if swapLt then tryBrandedBinaryMethod ctx b a "lt" scope range
    else tryBrandedBinaryMethod ctx a b "lt" scope range
  match lt with
  | none => pure none
  | some ltVal => do
    let eqVal ← tryBrandedBinaryMethod ctx a b "eq" scope range
    let eqBool := match eqVal with
      | some (.bool b) => b
      | some _ => false
      | none => a.eq ctx b
    let ltBool := match ltVal with
      | .bool b => b
      | _ => false
    pure (some (.bool (ltBool || eqBool)))

/-- `dict + dict` without an `add` method: a deep merge, checked again when the brand
names a record schema in scope. -/
def mergeDicts (l r : Value) (scope : Scope) (lRange : TokenRange) : M Value := do
  let merged := l.deepMerge r
  checkValueSize ctx merged lRange
  match merged with
  | .dict _ (some brand) _ => do
    let σ ← read
    match σ.getLocal scope brand with
    | some (.schema ..) => checkType ctx merged (.named brand lRange) scope lRange
    | _ => pure merged
  | _ => pure merged

/-- The operators on evaluated operands. -/
def applyBinary (op : Operator) (range : TokenRange) (l : Value) (lRange : TokenRange) (r : Value)
    (rRange : TokenRange) (scope : Scope) : M Value :=
  match op, l, r with
  | .add, .dict .., .dict .. =>
    orElseMethod ctx l r "add" scope range id (mergeDicts ctx l r scope lRange)
  | .add, .schema .., .schema .. => pure (l.deepMerge r)
  | .add, .string a, .string b => pure (.string (a ++ b))
  | .add, .string a, b => pure (.string (a ++ b.display ctx))
  | .add, a, .string b => pure (.string (a.display ctx ++ b))
  | .add, _, _ => orElseMethod ctx l r "add" scope range id
      (evalNumericArithmetic ctx (· + ·) ctx.floats.add range l lRange r rRange)
  | .sub, _, _ => orElseMethod ctx l r "sub" scope range id
      (evalNumericArithmetic ctx (· - ·) ctx.floats.sub range l lRange r rRange)
  | .mul, _, _ => orElseMethod ctx l r "mul" scope range id
      (evalNumericArithmetic ctx (· * ·) ctx.floats.mul range l lRange r rRange)
  | .div, _, _ => orElseMethod ctx l r "div" scope range id
      (evalNumericDivision ctx Int.tdiv ctx.floats.div range l lRange r rRange)
  | .mod, _, _ => orElseMethod ctx l r "rem" scope range id
      (evalNumericDivision ctx Int.tmod ctx.floats.rem range l lRange r rRange)
  | .eq, _, _ => orElseMethod ctx l r "eq" scope range id (pure (.bool (l.eq ctx r)))
  | .ne, _, _ => orElseMethod ctx l r "eq" scope range invertBool (pure (.bool (!l.eq ctx r)))
  | .lt, _, _ => orElseMethod ctx l r "lt" scope range id
      (evalNumericComparison ctx ctx.floats.lt l lRange r rRange)
  | .gt, _, _ => orElseMethod ctx r l "lt" scope range id
      (evalNumericComparison ctx (fun a b => ctx.floats.lt b a) l lRange r rRange)
  | .le, _, _ => do
    match ← tryLeGeLowering ctx l r scope range false with
    | some v => pure v
    | none => evalNumericComparison ctx ctx.floats.le l lRange r rRange
  | .ge, _, _ => do
    match ← tryLeGeLowering ctx l r scope range true with
    | some v => pure v
    | none => evalNumericComparison ctx (fun a b => ctx.floats.le b a) l lRange r rRange
  | _, _, _ => .fail (.unsupportedOperator op.name lRange)

/-! ### `eval_binary` and `eval_unary` -/

def Expr.isDictOrAdd : Expr → Bool
  | .dict _ => true
  | .binary .add _ _ => true
  | _ => false

/-- `Schema + { ... }`: the right side is read as a schema body. -/
def refineSchema (fields : Assoc SchemaField) (right : Node) (scope : Scope) : M Value :=
  match right.expr with
  | .dict pairs => do
    let merged ← mergeSchemaWithDictPairs ctx scope pairs fields
    pure (.schema [] merged none)
  | _ =>
    match ctx.lowerSchemaPure none [] right with
    | none => .fail (.typeMismatch "Schema or Dict" "non-schema expression" right.range)
    | some d => do
      let extra ← buildSchemaFromDef ctx d scope
      pure (.schema [] (mergeSchemaFields fields extra) none)

/-- The leaves of a left-leaning `+` chain, in source order. -/
def addChain : Node → List Node → List Node
  | .mk _ (.binary .add l r) _ _ _ _, rest => addChain l (r :: rest)
  | node, rest => node :: rest
termination_by structural node => node

def Expr.isStringLiteral : Expr → Bool
  | .string _ | .fString _ => true
  | _ => false

def evalAll (scope : Scope) : List Node → M (List Value)
  | [] => pure []
  | node :: rest => do
    let v ← evalNode node scope false
    let vs ← evalAll scope rest
    pure (v :: vs)

def Value.asString? : Value → Option String
  | .string s => some s
  | _ => none

/-- `try_eval_string_concat_chain`, for a chain whose first leaf is a string
literal: the leaves are evaluated in order, and a non-string leaf makes the caller
start over. -/
def tryEvalStringConcatChain (leaves : List Node) (scope : Scope) : M (Option Value) :=
  match leaves with
  | first :: _ =>
    if first.expr.isStringLiteral then do
      let values ← evalAll scope leaves
      let strings := values.filterMap Value.asString?
      if strings.length = values.length then pure (some (.string (String.join strings)))
      else pure none
    else pure none
  | [] => pure none

def Expr.isAdd : Expr → Bool
  | .binary .add _ _ => true
  | _ => false

/-- `eval_binary` past the string-chain shortcut. -/
def evalBinaryPlain (op : Operator) (range : TokenRange) (left right : Node) (scope : Scope) :
    M Value := do
  let l ← evalNode left scope false
  match op, l with
  | .add, .schema _ fields _ =>
    if right.expr.isDictOrAdd then refineSchema ctx fields right scope
    else do
      let r ← evalNode right scope false
      applyBinary ctx op range l left.range r right.range scope
  | _, _ => do
    let r ← evalNode right scope false
    applyBinary ctx op range l left.range r right.range scope

/-- `eval_binary`. -/
def evalBinary (op : Operator) (range : TokenRange) (left right : Node) (scope : Scope) : M Value :=
  if op = .add ∧ left.expr.isAdd then do
    match ← tryEvalStringConcatChain (addChain left [right]) scope with
    | some v => pure v
    | none => evalBinaryPlain ctx op range left right scope
  else evalBinaryPlain ctx op range left right scope

/-- `eval_unary`. -/
def evalUnary (op : Operator) (range : TokenRange) (node : Node) (scope : Scope) : M Value := do
  let v ← evalNode node scope false
  match op, v with
  | .not, v => pure (.bool (!v.isTruthy ctx))
  | .sub, .int i => okOr ((checkedInt (-i.toInt)).map .int) (.numericOverflow range)
  | .sub, .float f => pure (.float (ctx.floats.neg f))
  | .sub, v => .fail (.typeMismatch "Number" v.typeName node.range)
  | op, _ => .fail (.unsupportedOperator op.name node.range)

end

end Relon.Eval
