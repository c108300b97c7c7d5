import Relon.Eval.SortBy
import Relon.Ir.Op

/-! The four orders on integers: the comparison operators of the evaluator, the keys of a
sort and the choice of `list.max` and `list.min` (`stdlib.rs`), and the comparisons of
compiled code.

The operators convert their operands to doubles first. All others compare the integers,
so the orders differ where two integers are rounded to one double. -/
namespace Relon.Eval
open Double
open SortBy (compareSortKeys)

/-! ### `list.max` and `list.min` -/

def expectList (v : Value) (range : TokenRange) : Prog HostOp RuntimeError (List Value) :=
  match v with
  | .list items => pure items
  | other => .fail (.typeMismatch "List" other.typeName range)

/-- Keep the better of an integer and each of the rest. -/
def bestInt (better : Int64 → Int64 → Bool) (range : TokenRange) :
    Int64 → List Value → Prog HostOp RuntimeError Value
  | acc, [] => pure (.int acc)
  | acc, v :: rest => do
    let x ← expectInt v range
    bestInt better range (if better x acc then x else acc) rest

def bestFloat (better : UInt64 → UInt64 → Bool) (range : TokenRange) :
    UInt64 → List Value → Prog HostOp RuntimeError Value
  | acc, [] => pure (.float acc)
  | acc, .float x :: rest => bestFloat better range (if better x acc then x else acc) rest
  | _, other :: _ => .fail (.typeMismatch "List<Float>" other.typeName range)

/-- The common body of `ListMax::call` and `ListMin::call`. -/
def listBest (ints : Int64 → Int64 → Bool) (floats : UInt64 → UInt64 → Bool) : Native :=
  fun positional _ range =>
    match positional with
    | [arg] => do
      match ← expectList arg range with
      | [] => .fail (.typeMismatch "non-empty list" "empty list" range)
      | .int seed :: rest => bestInt ints range seed rest
      | .float seed :: rest => bestFloat floats range seed rest
      | other :: _ => .fail (.typeMismatch "List<Int> or List<Float>" other.typeName range)
    | _ => .fail (.typeMismatch "1 argument(s)" (toString positional.length) range)

/-- `ListMax::call`. -/
def listMax (f : Floats) : Native := listBest (fun x acc => acc < x) (fun x acc => f.lt acc x)

/-- `ListMin::call`. -/
def listMin (f : Floats) : Native := listBest (fun x acc => x < acc) (fun x acc => f.lt x acc)

/-! ### The operators on integers -/

/-- The operator answers `p` on two integers, wherever they stand. -/
def Answers (ctx : Context) (op : Operator) (a b : Int64) (p : Bool) : Prop :=
  ∀ range lRange rRange scope,
    applyBinary ctx op range (.int a) lRange (.int b) rRange scope = pure (.bool p)

/-- The floats are doubles. -/
structure Floats.Doubles (f : Floats) : Prop where
  ofInt : f.ofInt = Double.ofInt
  lt : f.lt = Double.lt
  le : f.le = Double.le

theorem Answers.unique {ctx : Context} {op : Operator} {a b : Int64} {p q : Bool}
    (one : Answers ctx op a b p) (other : Answers ctx op a b q) : p = q := by
  let scope : Scope := ⟨.opened, 0, none, none, "", "", none, none⟩
  have same := (one default default default scope).symm.trans (other default default default scope)
  exact Value.bool.inj (Prog.ret.inj same)

section
variable {ctx : Context} (a b : Int64)

theorem answers_eq : Answers ctx .eq a b (a = b) := fun _ _ _ _ => rfl

variable (doubles : ctx.floats.Doubles)
include doubles

theorem answers_lt : Answers ctx .lt a b
    (decide (Double.key (Double.ofInt a) < Double.key (Double.ofInt b))) := by
  intro range lRange rRange scope
  show (pure (.bool (ctx.floats.lt (ctx.floats.ofInt a) (ctx.floats.ofInt b))) : M Value) = _
  rw [doubles.ofInt, doubles.lt, lt_ofInt]

theorem answers_le : Answers ctx .le a b
    (decide (Double.key (Double.ofInt a) ≤ Double.key (Double.ofInt b))) := by
  intro range lRange rRange scope
  show (pure (.bool (ctx.floats.le (ctx.floats.ofInt a) (ctx.floats.ofInt b))) : M Value) = _
  rw [doubles.ofInt, doubles.le, le_ofInt]

theorem answers_gt : Answers ctx .gt a b
    (decide (Double.key (Double.ofInt b) < Double.key (Double.ofInt a))) := by
  intro range lRange rRange scope
  show (pure (.bool (ctx.floats.lt (ctx.floats.ofInt b) (ctx.floats.ofInt a))) : M Value) = _
  rw [doubles.ofInt, doubles.lt, lt_ofInt]

theorem answers_ge : Answers ctx .ge a b
    (decide (Double.key (Double.ofInt b) ≤ Double.key (Double.ofInt a))) := by
  intro range lRange rRange scope
  show (pure (.bool (ctx.floats.le (ctx.floats.ofInt b) (ctx.floats.ofInt a))) : M Value) = _
  rw [doubles.ofInt, doubles.le, le_ofInt]

end

/-- All orders on the two integers are the integer order. -/
structure IntegerOrder (ctx : Context) (a b : Int64) : Prop where
  lt : Answers ctx .lt a b (a.toInt < b.toInt)
  le : Answers ctx .le a b (a.toInt ≤ b.toInt)
  gt : Answers ctx .gt a b (b.toInt < a.toInt)
  ge : Answers ctx .ge a b (b.toInt ≤ a.toInt)
  /-- Exactly one of `<`, `==` and `>` answers true. -/
  one : ∃! op, op ∈ [Operator.lt, .eq, .gt] ∧ Answers ctx op a b true
  sorting : ∀ range o, compareSortKeys (.int a) (.int b) range = .ok o →
    Answers ctx .lt a b (o = .lt) ∧ Answers ctx .le a b (o ≠ .gt) ∧
      Answers ctx .gt a b (o = .gt) ∧ Answers ctx .ge a b (o ≠ .lt)
  /-- `list.max` leaves the first for the second when the first is less. -/
  max : ∀ range m, listMax ctx.floats [.list [.int a, .int b]] [] range = pure (.int m) →
    Answers ctx .lt a b (m ≠ a) ∧ Answers ctx .ge a b (m = a)
  min : ∀ range m, listMin ctx.floats [.list [.int a, .int b]] [] range = pure (.int m) →
    Answers ctx .gt a b (m ≠ a) ∧ Answers ctx .le a b (m = a)
  compiled : ∀ op c, (op, c) ∈ [(Operator.lt, Ir.Cmp.lt), (.le, .le), (.gt, .gt), (.ge, .ge)] →
    Answers ctx op a b (c.holds a.toBitVec b.toBitVec)

section
variable {ctx : Context} {a b : Int64}

theorem listMax_pair (range : TokenRange) :
    listMax ctx.floats [.list [.int a, .int b]] [] range = pure (.int (if a < b then b else a)) := by
  show (pure (.int (if decide (a < b) then b else a)) : Prog HostOp RuntimeError Value) = _
  simp

theorem listMin_pair (range : TokenRange) :
    listMin ctx.floats [.list [.int a, .int b]] [] range = pure (.int (if b < a then b else a)) := by
  show (pure (.int (if decide (b < a) then b else a)) : Prog HostOp RuntimeError Value) = _
  simp

theorem Answers.of_iff {op : Operator} {p q : Prop} [Decidable p] [Decidable q]
    (answers : Answers ctx op a b (decide p)) (same : q ↔ p) : Answers ctx op a b (decide q) := by
  rwa [decide_eq_decide.mpr same]

theorem Answers.true_iff {op : Operator} {p : Prop} [Decidable p]
    (answers : Answers ctx op a b (decide p)) : Answers ctx op a b true ↔ p :=
  ⟨fun yes => of_decide_eq_true (answers.unique yes), fun h => by rwa [decide_eq_true h] at answers⟩

/-- Exactly one of `<`, `==` and `>` answers true where `<` and `>` are exact. -/
theorem one_answers (lt : Answers ctx .lt a b (a.toInt < b.toInt))
    (gt : Answers ctx .gt a b (b.toInt < a.toInt)) :
    ∃! op, op ∈ [Operator.lt, .eq, .gt] ∧ Answers ctx op a b true := by
  have eq : Answers ctx .eq a b true ↔ a.toInt = b.toInt :=
    (answers_eq a b).true_iff.trans Int64.toInt_inj.symm
  have only : ∀ op, op ∈ [Operator.lt, .eq, .gt] ∧ Answers ctx op a b true ↔
      op = .lt ∧ a.toInt < b.toInt ∨ op = .eq ∧ a.toInt = b.toInt ∨ op = .gt ∧ b.toInt < a.toInt := by
    intro op
    rw [← lt.true_iff, ← eq, ← gt.true_iff]
    simp only [List.mem_cons, List.not_mem_nil, or_false]
    constructor
    · rintro ⟨rfl | rfl | rfl, yes⟩ <;> simp [yes]
    · rintro (⟨rfl, yes⟩ | ⟨rfl, yes⟩ | ⟨rfl, yes⟩) <;> simp [yes]
  simp only [only]
  obtain less | same | greater := lt_trichotomy a.toInt b.toInt
  · refine ⟨.lt, .inl ⟨rfl, less⟩, ?_⟩
    rintro op (⟨rfl, _⟩ | ⟨rfl, _⟩ | ⟨rfl, _⟩) <;> first | rfl | omega
  · refine ⟨.eq, .inr (.inl ⟨rfl, same⟩), ?_⟩
    rintro op (⟨rfl, _⟩ | ⟨rfl, _⟩ | ⟨rfl, _⟩) <;> first | rfl | omega
  · refine ⟨.gt, .inr (.inr ⟨rfl, greater⟩), ?_⟩
    rintro op (⟨rfl, _⟩ | ⟨rfl, _⟩ | ⟨rfl, _⟩) <;> first | rfl | omega

theorem larger_eq_first : (if a < b then b else a) = a ↔ b.toInt ≤ a.toInt := by
  rw [← Int64.le_iff_toInt_le, ← Int64.not_lt]
  split
  · next h => exact iff_of_false (Int64.ne_of_lt h).symm (not_not_intro h)
  · next h => exact iff_of_true rfl h

theorem smaller_eq_first : (if b < a then b else a) = a ↔ a.toInt ≤ b.toInt := by
  rw [← Int64.le_iff_toInt_le, ← Int64.not_lt]
  split
  · next h => exact iff_of_false (Int64.ne_of_lt h) (not_not_intro h)
  · next h => exact iff_of_true rfl h

/-- Everything follows from the answers of the four operators. -/
theorem integerOrder_of_answers (lt : Answers ctx .lt a b (a.toInt < b.toInt))
    (le : Answers ctx .le a b (a.toInt ≤ b.toInt)) (gt : Answers ctx .gt a b (b.toInt < a.toInt))
    (ge : Answers ctx .ge a b (b.toInt ≤ a.toInt)) : IntegerOrder ctx a b where
  lt := lt
  le := le
  gt := gt
  ge := ge
  one := one_answers lt gt
  sorting range o compared := by
    cases compared
    change Answers ctx .lt a b (compare a.toInt b.toInt = .lt) ∧
      Answers ctx .le a b (compare a.toInt b.toInt ≠ .gt) ∧
      Answers ctx .gt a b (compare a.toInt b.toInt = .gt) ∧
      Answers ctx .ge a b (compare a.toInt b.toInt ≠ .lt)
    exact ⟨lt.of_iff compare_lt_iff_lt, le.of_iff compare_le_iff_le, gt.of_iff compare_gt_iff_gt,
      ge.of_iff compare_ge_iff_ge⟩
  max range m picked := by
    rw [listMax_pair] at picked
    obtain rfl := Value.int.inj (Prog.ret.inj picked)
    exact ⟨lt.of_iff (by rw [ne_eq, larger_eq_first, not_le]), ge.of_iff larger_eq_first⟩
  min range m picked := by
    rw [listMin_pair] at picked
    obtain rfl := Value.int.inj (Prog.ret.inj picked)
    exact ⟨gt.of_iff (by rw [ne_eq, smaller_eq_first, not_le]), le.of_iff smaller_eq_first⟩
  compiled op c listed := by
    simp only [List.mem_cons, List.not_mem_nil, or_false, Prod.mk.injEq] at listed
    obtain ⟨rfl, rfl⟩ | ⟨rfl, rfl⟩ | ⟨rfl, rfl⟩ | ⟨rfl, rfl⟩ := listed
    · exact lt
    · exact le
    · exact gt
    · exact ge

/-- The comparisons of two integers are exact, and agree with every other order, exactly when
the integers are the same or are not rounded to the same double. -/
theorem integerOrder_iff (doubles : ctx.floats.Doubles) :
    IntegerOrder ctx a b ↔ a = b ∨ Double.ofInt a ≠ Double.ofInt b := by
  refine ⟨fun order => ?_, fun apart => ?_⟩
  · refine or_iff_not_imp_left.mpr fun different same => ?_
    have lt := (answers_lt a b doubles).unique order.lt
    have gt := (answers_gt a b doubles).unique order.gt
    rw [same, decide_eq_decide] at lt gt
    exact different (Int64.toInt_inj.mp (by omega))
  · have apart' : b = a ∨ ofInt b ≠ ofInt a := apart.imp Eq.symm Ne.symm
    have below := key_ofInt_lt_iff apart
    have above := key_ofInt_lt_iff apart'
    exact integerOrder_of_answers ((answers_lt a b doubles).of_iff below.symm)
      ((answers_le a b doubles).of_iff (by omega)) ((answers_gt a b doubles).of_iff above.symm)
      ((answers_ge a b doubles).of_iff (by omega))

end

/-- A host with doubles. -/
def doublesContext : Context :=
  { Context.bare (.bare 0 .missing) with
    floats := { Floats.unused with ofInt := Double.ofInt, lt := Double.lt, le := Double.le } }

theorem doublesContext_doubles : doublesContext.floats.Doubles := ⟨rfl, rfl, rfl⟩

/-- 2^53 and its successor are rounded to one double: neither is less, they are not equal, and
sorting and compiled code put them in order. -/
theorem rounded_integers_unordered :
    Answers doublesContext .lt 9007199254740992 9007199254740993 false ∧
      Answers doublesContext .eq 9007199254740992 9007199254740993 false ∧
      Answers doublesContext .gt 9007199254740992 9007199254740993 false ∧
      Answers doublesContext .ge 9007199254740992 9007199254740993 true ∧
      compareSortKeys (.int 9007199254740992) (.int 9007199254740993) default = .ok .lt ∧
      Ir.Cmp.lt.holds (9007199254740992 : BitVec 64) 9007199254740993 = true := by
  have lt := answers_lt 9007199254740992 9007199254740993 doublesContext_doubles
  have gt := answers_gt 9007199254740992 9007199254740993 doublesContext_doubles
  have ge := answers_ge 9007199254740992 9007199254740993 doublesContext_doubles
  have rounded : ofInt 9007199254740992 = ofInt 9007199254740993 := by decide +kernel
  rw [rounded] at lt gt ge
  refine ⟨lt.of_iff (q := False) ?_, answers_eq _ _, gt.of_iff (q := False) ?_,
    ge.of_iff (q := True) ?_, rfl, by decide⟩
  all_goals simp

/-- Integers of at most 53 bits are ordered alike everywhere, 2^53 and its predecessor for one. -/
theorem small_integers_ordered : IntegerOrder doublesContext 9007199254740991 9007199254740992 :=
  (integerOrder_iff doublesContext_doubles).mpr
    (.inr (Double.ofInt_ne (by decide) (by decide +kernel) (by decide +kernel)))

end Relon.Eval
