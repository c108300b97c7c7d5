import Relon.Lib.Approx
import Relon.Eval.Data

/-! Plain documents and what they mean.

A plain document is a tree of dict literals whose leaves are literals, names,
references and operators, with nothing stacked above any node. Its meaning is
lexical: a field denotes what its node computes from the fields it names, whatever
the order of the entries and whatever has been evaluated before. The definitions
below say so without frames, thunks or caches. -/
namespace Relon.Eval
open Option

/-! ### Fields -/

namespace Node

/-- The entry of a dict literal under a static key. -/
def child (n : Node) (key : String) : Option Node :=
  match n.expr with
  | .dict pairs => (pairs.find? fun e => e.1.name == key).map Prod.snd
  | _ => none

/-- The node at a path of keys through dict literals. -/
def atPath (n : Node) : List String → Option Node
  | [] => some n
  | key :: rest => (n.child key).bind fun c => c.atPath rest

theorem atPath_append (n : Node) (p q : List String) :
    n.atPath (p ++ q) = (n.atPath p).bind fun c => c.atPath q := by
  induction p generalizing n with
  | nil => rfl
  | cons key rest ih =>
    simp only [List.cons_append, atPath, ih, Option.bind_assoc]

theorem atPath_concat (n : Node) (p : List String) (key : String) :
    n.atPath (p ++ [key]) = (n.atPath p).bind fun c => c.child key := by
  rw [atPath_append]
  congr
  funext c
  exact bind_fun_some (c.child key)

end Node

/-- Expressions without containers, calls or blocks, and nothing stacked above them. -/
inductive Term : Node → Prop where
  | bool {id b range} : Term (.mk id (.bool b) [] [] none range)
  | int {id i range} : Term (.mk id (.int i) [] [] none range)
  | float {id bits range} : Term (.mk id (.float bits) [] [] none range)
  | string {id s range} : Term (.mk id (.string s) [] [] none range)
  /-- A name, not one of the prelude, and static segments after it. -/
  | name {id first rest range} (static : ∀ k ∈ first :: rest, k.IsStatic)
      (own : first.name ≠ "None" ∧ first.name ≠ "Option") :
      Term (.mk id (.variable (first :: rest)) [] [] none range)
  | reference {id base path range} (anchored : base = .root ∨ base = .sibling ∨ base = .uncle)
      (nonempty : path ≠ []) (static : ∀ k ∈ path, k.IsStatic) :
      Term (.mk id (.reference base path) [] [] none range)
  | unary {id op n range} (operand : Term n) : Term (.mk id (.unary op n) [] [] none range)
  /-- A chain of `+` that starts with a text literal is evaluated in a way of its own. -/
  | binary {id op l r range} (piped : op ≠ .pipe)
      (unchained : op = .add → l.expr.isAdd →
        (addChain l [r]).head?.all fun n => !n.expr.isStringLiteral)
      (left : Term l) (right : Term r) : Term (.mk id (.binary op l r) [] [] none range)
  | ternary {id c t e range} (cond : Term c) (then_ : Term t) (els : Term e) :
      Term (.mk id (.ternary c t e) [] [] none range)

/-- A term, or a dict literal of plain entries under distinct static keys. -/
inductive Plain : Node → Prop where
  | term {n} (h : Term n) : Plain n
  | dict {id pairs range} (static : ∀ e ∈ pairs, e.1.IsStatic)
      (distinct : (pairs.map fun e => e.1.name).Nodup) (fields : ∀ e ∈ pairs, Plain e.2) :
      Plain (.mk id (.dict pairs) [] [] none range)

/-- A document the rest of this development is about: a plain dict, no key of which
is a key of a dict around it. Node ids are the parser's and name one node each. -/
structure Document (doc : Node) : Prop where
  plain : Plain doc
  isDict : doc.expr.isDict
  ids : ∀ p n, p ≠ [] → doc.atPath p = some n → n.id ≠ doc.id
  unshadowed : ∀ q r x, r ≠ [] → (doc.atPath (q ++ [x])).isSome →
    doc.atPath (q ++ r ++ [x]) = none

/-! ### Meaning -/

section
variable (ctx : Context) (doc : Node)

/-- The field a name stands for at a path: the innermost one around it. -/
def binder (p : List String) (x : String) : Option (List String) :=
  (p.inits.reverse.find? fun q => (doc.atPath (q ++ [x])).isSome).map fun q => q ++ [x]

/-- The dict a reference starts from. -/
def anchor (base : RefBase) (p : List String) : List String :=
  match base with
  | .sibling => p.dropLast
  | .uncle => p.dropLast.dropLast
  | _ => []

/-- A reference's path from the dict at `q`: through dict literals field by field,
and then through the value of the field it has come to. -/
def follow (field : List String → Option Value) (q : List String) : List String → Option Value
  | [] => field q
  | key :: rest =>
    match doc.atPath (q ++ [key]) with
    | none => none
    | some n =>
      if n.expr.isDict then follow field (q ++ [key]) rest
      else (field (q ++ [key])).bind fun v => v.stepAll rest

/-- The value of a term at the field path `p`, from the values of the fields. -/
def termValue (field : List String → Option Value) (p : List String) : Node → Option Value
  | .mk _ (.bool b) _ _ _ _ => some (.bool b)
  | .mk _ (.int i) _ _ _ _ => some (.int i)
  | .mk _ (.float bits) _ _ _ _ => some (.float bits)
  | .mk _ (.string s) _ _ _ _ => some (.string s)
  | .mk _ (.variable (first :: rest)) _ _ _ _ =>
    ((binder doc p first.name).bind field).bind fun v => v.stepAll (rest.map TokenKey.name)
  | .mk _ (.reference base path) _ _ _ _ =>
    follow doc field [] (anchor base p ++ path.map TokenKey.name)
  | .mk _ (.unary op n) _ _ _ _ => (termValue field p n).bind fun v => unaryValue ctx op v
  | .mk _ (.binary .and l r) _ _ _ _ => (termValue field p l).bind fun v =>
    if v.isTruthy ctx then termValue field p r else some v
  | .mk _ (.binary .or l r) _ _ _ _ => (termValue field p l).bind fun v =>
    if v.isTruthy ctx then some v else termValue field p r
  | .mk _ (.binary op l r) _ _ _ _ => (termValue field p l).bind fun v =>
    (termValue field p r).bind fun w => binaryValue ctx op v w
  | .mk _ (.ternary c t e) _ _ _ _ => (termValue field p c).bind fun v =>
    if v.isTruthy ctx then termValue field p t else termValue field p e
  | _ => none
termination_by structural n => n

/-- The entries of a dict with their values, sorted by key. -/
def collect (field : String → Option Value) :
    List (TokenKey × Node) → Assoc Value → Option (Assoc Value)
  | [], map => some map
  | (key, _) :: rest, map => (field key.name).bind fun v =>
    collect field rest (map.insertSorted key.name v)

/-- The value of the node at the field path `p`. -/
def nodeValue (field : List String → Option Value) (p : List String) (n : Node) : Option Value :=
  match n.expr with
  | .dict pairs =>
    (collect (fun key => field (p ++ [key])) pairs []).map fun map => .dict map none none
  | _ => termValue ctx doc field p n

/-- The value of the field at a path, looking at most so deep. -/
def fieldValue : Nat → List String → Option Value
  | 0, _ => none
  | depth + 1, p => (doc.atPath p).bind fun n => nodeValue ctx doc (fieldValue depth) p n

/-! ### Looking deeper -/

/-- Whatever the first assignment of values knows, the second one knows too. -/
def Knows (f g : List String → Option Value) : Prop := ∀ q v, f q = some v → g q = some v

variable {ctx doc} {f g : List String → Option Value}

theorem bind_mono {α β : Type} {a a' : Option α} {k k' : α → Option β} {y : β}
    (ha : ∀ x, a = some x → a' = some x) (hk : ∀ x, k x = some y → k' x = some y)
    (h : a.bind k = some y) : a'.bind k' = some y := by
  obtain ⟨x, hx, hy⟩ := bind_eq_some_iff.mp h
  exact bind_eq_some_iff.mpr ⟨x, ha x hx, hk x hy⟩

theorem follow_mono (le : Knows f g) {q path : List String} {v : Value}
    (h : follow doc f q path = some v) : follow doc g q path = some v := by
  induction path generalizing q with
  | nil => exact le q v h
  | cons key rest ih =>
    rw [follow] at h ⊢
    cases at_ : doc.atPath (q ++ [key]) with
    | none => rw [at_] at h; cases h
    | some n =>
      simp only [at_] at h ⊢
      split_ifs at h ⊢ with isDict
      · exact ih h
      · exact bind_mono (le _) (fun _ h => h) h

theorem termValue_mono (le : Knows f g) {p : List String} {n : Node} {v : Value}
    (h : termValue ctx doc f p n = some v) : termValue ctx doc g p n = some v := by
  fun_induction termValue ctx doc f p n generalizing v with
  | case1 => exact h
  | case2 => exact h
  | case3 => exact h
  | case4 => exact h
  | case5 =>
    rw [termValue]
    exact bind_mono (fun _ => bind_mono (fun _ h => h) fun q => le q _) (fun _ h => h) h
  | case6 =>
    rw [termValue]
    exact follow_mono le h
  | case7 _ _ _ _ _ _ _ ih =>
    rw [termValue]
    exact bind_mono (fun _ => ih) (fun _ h => h) h
  | case8 _ _ _ _ _ _ _ ihl ihr =>
    rw [termValue]
    refine bind_mono (fun _ => ihl) (fun v hv => ?_) h
    split_ifs at hv ⊢
    · exact ihr hv
    · exact hv
  | case9 _ _ _ _ _ _ _ ihl ihr =>
    rw [termValue]
    refine bind_mono (fun _ => ihl) (fun v hv => ?_) h
    split_ifs at hv ⊢
    · exact hv
    · exact ihr hv
  | case10 _ _ _ _ _ _ _ _ notAnd notOr ihl ihr =>
    rw [termValue]
    · exact bind_mono (fun _ => ihl) (fun _ => bind_mono (fun _ => ihr) fun _ h => h) h
    · exact notAnd
    · exact notOr
  | case11 _ _ _ _ _ _ _ _ ihc iht ihe =>
    rw [termValue]
    refine bind_mono (fun _ => ihc) (fun v hv => ?_) h
    split_ifs at hv ⊢
    · exact iht hv
    · exact ihe hv
  | case12 => cases h

theorem collect_mono {f g : String → Option Value} (le : ∀ k v, f k = some v → g k = some v)
    {pairs : List (TokenKey × Node)} {map out : Assoc Value} (h : collect f pairs map = some out) :
    collect g pairs map = some out := by
  induction pairs generalizing map with
  | nil => exact h
  | cons e rest ih => exact bind_mono (le _) (fun _ => ih) h

theorem nodeValue_mono (le : Knows f g) {p : List String} {n : Node} {v : Value}
    (h : nodeValue ctx doc f p n = some v) : nodeValue ctx doc g p n = some v := by
  unfold nodeValue at h ⊢
  split at h
  · obtain ⟨map, hm, hv⟩ := map_eq_some_iff.mp h
    exact map_eq_some_iff.mpr ⟨map, collect_mono (fun k => le _) hm, hv⟩
  · exact termValue_mono le h

theorem fieldValue_succ {depth : Nat} :
    Knows (fieldValue ctx doc depth) (fieldValue ctx doc (depth + 1)) := by
  induction depth with
  | zero => exact fun _ _ h => nomatch h
  | succ depth ih => exact fun q v h => bind_mono (fun _ h => h) (fun _ => nodeValue_mono ih) h

theorem fieldValue_mono {m n : Nat} (le : m ≤ n) :
    Knows (fieldValue ctx doc m) (fieldValue ctx doc n) := by
  induction le with
  | refl => exact fun _ _ h => h
  | step _ ih => exact fun q v h => fieldValue_succ q v (ih q v h)

variable (ctx doc)

/-- The value of the field at a path. -/
def field (p : List String) : Approx Value :=
  ⟨fun k => fieldValue ctx doc k p, fun le => fieldValue_mono le _ _⟩

/-- The value of a node standing at a path. -/
def content (p : List String) (n : Node) : Approx Value :=
  ⟨fun k => nodeValue ctx doc (fieldValue ctx doc k) p n,
    fun le => nodeValue_mono (fieldValue_mono le)⟩

/-- The value of a term standing at a path. -/
def term (p : List String) (n : Node) : Approx Value :=
  ⟨fun k => termValue ctx doc (fieldValue ctx doc k) p n,
    fun le => termValue_mono (fieldValue_mono le)⟩

/-- What a reference's path leads to from the dict at `q`. -/
def target (q path : List String) : Approx Value :=
  ⟨fun k => follow doc (fieldValue ctx doc k) q path, fun le => follow_mono (fieldValue_mono le)⟩

variable {ctx doc}

theorem field_deeper {p : List String} {n : Node} (at_ : doc.atPath p = some n) :
    field ctx doc p = (content ctx doc p n).deeper := by
  refine Approx.ext fun k => ?_
  cases k with
  | zero => rfl
  | succ k =>
    show (doc.atPath p).bind _ = _
    rw [at_]
    rfl

theorem field_has_at {p : List String} {v : Value} (h : (field ctx doc p).Has v) :
    (doc.atPath p).isSome := by
  obtain ⟨_ | k, h⟩ := h
  · cases h
  · obtain ⟨n, at_, -⟩ := bind_eq_some_iff.mp h
    exact isSome_of_eq_some at_

end

end Relon.Eval
