import Relon.Eval.Meaning

/-! What goes wrong in a plain document, cycles apart.

A fault is a term without a value although all it is computed from has one: a name
nothing binds, a path that leads nowhere, an operator that has no value for its
operands. Only what is evaluated counts, so that a fault in a branch not taken is
none. -/
namespace Relon.Eval

/-- The right operand is evaluated when the left one has this value. -/
def Operator.needsRight (ctx : Context) (op : Operator) (left : Value) : Bool :=
  match op with
  | .and => left.isTruthy ctx
  | .or => !left.isTruthy ctx
  | _ => true

theorem Operator.needsRight_strict {ctx : Context} (op : Operator) (notAnd : op ≠ .and)
    (notOr : op ≠ .or) (v : Value) : op.needsRight ctx v = true := by
  cases op with
  | and => exact absurd rfl notAnd
  | or => exact absurd rfl notOr
  | _ => rfl

section
variable (ctx : Context) (doc : Node)

/-- A reference's path leads nowhere from the dict at `q`. -/
def Astray (q : List String) : List String → Prop
  | [] => False
  | key :: rest =>
    match doc.atPath (q ++ [key]) with
    | none => True
    | some n =>
      if n.expr.isDict then Astray (q ++ [key]) rest
      else ∃ v, (field ctx doc (q ++ [key])).Has v ∧ v.stepAll rest = none

/-- A term at the field path `p` has a fault in it. -/
inductive Fault (p : List String) : Node → Prop where
  | unbound {id first rest range} (free : binder doc p first.name = none) :
      Fault p (.mk id (.variable (first :: rest)) [] [] none range)
  | step {id first rest range q v} (bound : binder doc p first.name = some q)
      (has : (field ctx doc q).Has v) (stuck : v.stepAll (rest.map TokenKey.name) = none) :
      Fault p (.mk id (.variable (first :: rest)) [] [] none range)
  | astray {id base path range} (lost : Astray ctx doc [] (anchor base p ++ path.map TokenKey.name)) :
      Fault p (.mk id (.reference base path) [] [] none range)
  | operand {id op n range} (fault : Fault p n) : Fault p (.mk id (.unary op n) [] [] none range)
  | unary {id op n range v} (has : (term ctx doc p n).Has v) (stuck : unaryValue ctx op v = none) :
      Fault p (.mk id (.unary op n) [] [] none range)
  | left {id op l r range} (fault : Fault p l) : Fault p (.mk id (.binary op l r) [] [] none range)
  | right {id op l r range v} (has : (term ctx doc p l).Has v) (needed : op.needsRight ctx v = true)
      (fault : Fault p r) : Fault p (.mk id (.binary op l r) [] [] none range)
  | binary {id op l r range v w} (notAnd : op ≠ .and) (notOr : op ≠ .or)
      (has : (term ctx doc p l).Has v) (has' : (term ctx doc p r).Has w)
      (stuck : binaryValue ctx op v w = none) : Fault p (.mk id (.binary op l r) [] [] none range)
  | cond {id c t e range} (fault : Fault p c) : Fault p (.mk id (.ternary c t e) [] [] none range)
  | then_ {id c t e range v} (has : (term ctx doc p c).Has v) (taken : v.isTruthy ctx = true)
      (fault : Fault p t) : Fault p (.mk id (.ternary c t e) [] [] none range)
  | els {id c t e range v} (has : (term ctx doc p c).Has v) (taken : v.isTruthy ctx = false)
      (fault : Fault p e) : Fault p (.mk id (.ternary c t e) [] [] none range)

/-- Some field of the document has a fault in it. -/
def Faulty : Prop := ∃ p n, doc.atPath p = some n ∧ Fault ctx doc p n

end

/-- The error a cycle is reported with. -/
def RuntimeError.IsCircular (e : RuntimeError) : Prop :=
  ∃ cycle range, e = .circularReference cycle range

/-- What the evaluation of the document may fail with. -/
def Blamed (ctx : Context) (doc : Node) (e : RuntimeError) : Prop :=
  e.IsCircular ∨ Faulty ctx doc

section
variable {ctx : Context} {doc : Node}

variable {q rest : List String} {key : String} {n : Node}

theorem astray_missing (none : doc.atPath (q ++ [key]) = none) :
    Astray ctx doc q (key :: rest) := by
  rw [Astray, none]
  trivial

theorem astray_dict (at_ : doc.atPath (q ++ [key]) = some n) (isDict : n.expr.isDict = true) :
    Astray ctx doc q (key :: rest) ↔ Astray ctx doc (q ++ [key]) rest := by
  simp only [Astray, at_, if_pos isDict]

theorem astray_term (at_ : doc.atPath (q ++ [key]) = some n) (isTerm : n.expr.isDict = false) :
    Astray ctx doc q (key :: rest) ↔
      ∃ v, (field ctx doc (q ++ [key])).Has v ∧ v.stepAll rest = none := by
  simp only [Astray, at_, isTerm, Bool.false_eq_true, if_false]

end

end Relon.Eval
