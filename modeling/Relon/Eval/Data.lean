import Relon.Eval.Eval

/-! Plain data, and what the evaluator computes on it.

On values without brands, functions or schemas the operators ask for nothing: no
method can be tried and no name is looked up. What they give depends on the
operands alone, and the source ranges only show up in errors. -/
namespace Relon.Eval
open List

/-- Numbers, booleans, texts, and unbranded dicts of them. -/
inductive Data : Value → Prop where
  | bool (b : Bool) : Data (.bool b)
  | int (i : Int64) : Data (.int i)
  | float (bits : UInt64) : Data (.float bits)
  | string (s : String) : Data (.string s)
  | dict {map : Assoc Value} (entries : ∀ e ∈ map, Data e.2) : Data (.dict map none none)

namespace Data

theorem insertSorted {map : Assoc Value} {k : String} {v : Value} (hm : ∀ e ∈ map, Data e.2)
    (hv : Data v) : ∀ e ∈ map.insertSorted k v, Data e.2 := by
  intro e he
  cases Assoc.mem_insertSorted he with
  | inl new => rw [new]; exact hv
  | inr old => exact hm e old

/-- A merge of entries whose values merge well. -/
theorem mergeEntries {map patch : Assoc Value} (hm : ∀ e ∈ map, Data e.2)
    (hp : ∀ e ∈ patch, Data e.2) (merges : ∀ e ∈ patch, ∀ {a}, Data a → Data (a.deepMerge e.2)) :
    ∀ e ∈ Value.mergeEntries map patch, Data e.2 := by
  induction patch generalizing map with
  | nil => rwa [Value.mergeEntries]
  | cons e rest ih =>
    obtain ⟨k, v⟩ := e
    have later := fun {map' : Assoc Value} (hm' : ∀ e ∈ map', Data e.2) => ih hm'
      (fun e he => hp e (mem_cons_of_mem _ he)) fun e he => merges e (mem_cons_of_mem _ he)
    rw [Value.mergeEntries]
    cases old : map.lookup k with
    | none => exact later (insertSorted hm (hp _ mem_cons_self))
    | some v' =>
      exact later (insertSorted hm (merges _ mem_cons_self (hm _ (Assoc.mem_of_lookup old))))

theorem deepMerge {a b : Value} (ha : Data a) (hb : Data b) : Data (a.deepMerge b) := by
  induction hb generalizing a with
  | bool b => simpa only [Value.deepMerge] using .bool b
  | int i => simpa only [Value.deepMerge] using .int i
  | float f => simpa only [Value.deepMerge] using .float f
  | string s => simpa only [Value.deepMerge] using .string s
  | dict patch ih =>
    cases ha with
    | dict entries => simpa only [Value.deepMerge] using .dict (mergeEntries entries patch ih)
    | _ => simpa only [Value.deepMerge] using .dict patch

end Data

/-! ### Operators -/

/-- Two computations on data that ask for nothing and give the same value, or both
fail. -/
inductive Alike : M Value → M Value → Prop where
  | value {v : Value} (data : Data v) : Alike (.ret v) (.ret v)
  | failure (e e' : RuntimeError) : Alike (.fail e) (.fail e')

section
variable (ctx : Context) {l r : Value}

theorem eqEntries_data {root : Option Node} {a b : Assoc Value}
    (same : ∀ e ∈ a, ∀ w, e.2.eq { ctx with rootNode := root } w = e.2.eq ctx w) :
    Value.eqEntries { ctx with rootNode := root } a b = Value.eqEntries ctx a b := by
  induction a generalizing b with
  | nil => cases b <;> simp only [Value.eqEntries]
  | cons e rest ih =>
    obtain ⟨k, v⟩ := e
    cases b with
    | nil => simp only [Value.eqEntries]
    | cons e' rest' =>
      simp only [Value.eqEntries]
      rw [same _ mem_cons_self, ih fun e he => same e (mem_cons_of_mem _ he)]

/-- Whether data are equal does not depend on the document. -/
theorem eq_data (hl : Data l) (root : Option Node) (r : Value) :
    l.eq { ctx with rootNode := root } r = l.eq ctx r := by
  induction hl generalizing r with
  | dict entries ih =>
    cases r with
    | dict map brand variantOf => simp only [Value.eq, eqEntries_data ctx ih]
    | _ => simp only [Value.eq]
  | _ => cases r <;> simp only [Value.eq]

theorem display_data (hl : Data l) (root : Option Node) :
    l.display { ctx with rootNode := root } = l.display ctx := by
  cases hl <;> simp only [Value.display]

theorem tryBrandedBinaryMethod_data (hl : Data l) (method : String) (scope : Scope)
    (range : TokenRange) : tryBrandedBinaryMethod ctx l r method scope range = .ret none := by
  cases hl <;> rfl

theorem orElseMethod_data (hl : Data l) (method : String) (scope : Scope) (range : TokenRange)
    (onHit : Value → Value) (fallback : M Value) :
    orElseMethod ctx l r method scope range onHit fallback = fallback := by
  rw [orElseMethod, tryBrandedBinaryMethod_data ctx hl]
  rfl

theorem okOr_alike {o : Option Value} (h : ∀ v, o = some v → Data v) (e e' : RuntimeError) :
    Alike (okOr o e) (okOr o e') := by
  cases o with
  | none => exact .failure e e'
  | some v => exact .value (h v rfl)

theorem int_data {o : Option Int64} (v : Value) (h : o.map Value.int = some v) : Data v := by
  obtain ⟨i, -, rfl⟩ := Option.map_eq_some_iff.mp h
  exact .int i

variable (root : Option Node) (range range' lRange lRange' rRange rRange' : TokenRange)

theorem evalNumericArithmetic_alike (hl : Data l) (hr : Data r) (ints : Int → Int → Int)
    (floats : UInt64 → UInt64 → UInt64) :
    Alike (evalNumericArithmetic ctx ints floats range l lRange r rRange)
      (evalNumericArithmetic { ctx with rootNode := root } ints floats range' l lRange' r rRange') := by
  cases hl with
  | int a =>
    cases hr with
    | int b => exact okOr_alike int_data _ _
    | float b => exact .value (.float _)
    | _ => exact .failure _ _
  | float a =>
    cases hr with
    | int b => exact .value (.float _)
    | float b => exact .value (.float _)
    | _ => exact .failure _ _
  | _ => exact .failure _ _

theorem evalNumericDivision_alike (hl : Data l) (hr : Data r) (ints : Int → Int → Int)
    (floats : UInt64 → UInt64 → UInt64) :
    Alike (evalNumericDivision ctx ints floats range l lRange r rRange)
      (evalNumericDivision { ctx with rootNode := root } ints floats range' l lRange' r rRange') := by
  -- a divisor that is zero as a float is refused before anything else
  have divided : ∀ (zero : Bool) (e e' : RuntimeError) {x y : M Value}, Alike x y →
      Alike (if zero then .fail e else x) (if zero then .fail e' else y) := by
    intro zero e e' x y alike
    cases zero with
    | true => exact .failure e e'
    | false => exact alike
  cases hl with
  | int a =>
    cases hr with
    | int b =>
      refine divided _ _ _ ?_
      by_cases refused : b = 0 ∨ (checkedInt (Int.tdiv a.toInt b.toInt)).isNone
      · simp only [if_pos refused]
        exact .failure _ _
      · simp only [if_neg refused]
        exact okOr_alike int_data _ _
    | float b => exact divided _ _ _ (.value (.float _))
    | _ => exact .failure _ _
  | float a =>
    cases hr with
    | int b => exact divided _ _ _ (.value (.float _))
    | float b => exact divided _ _ _ (.value (.float _))
    | _ => exact .failure _ _
  | _ => exact .failure _ _

theorem evalNumericComparison_alike (hl : Data l) (hr : Data r) (test : UInt64 → UInt64 → Bool) :
    Alike (evalNumericComparison ctx test l lRange r rRange)
      (evalNumericComparison { ctx with rootNode := root } test l lRange' r rRange') := by
  cases hl with
  | int a =>
    cases hr with
    | int b => exact .value (.bool _)
    | float b => exact .value (.bool _)
    | _ => exact .failure _ _
  | float a =>
    cases hr with
    | int b => exact .value (.bool _)
    | float b => exact .value (.bool _)
    | _ => exact .failure _ _
  | _ => exact .failure _ _

variable {ctx} (scope scope' : Scope)

theorem tryLeGeLowering_data (hl : Data l) (hr : Data r) (swap : Bool) :
    tryLeGeLowering ctx l r scope range swap = .ret none := by
  cases swap with
  | true =>
    rw [tryLeGeLowering, if_pos rfl, tryBrandedBinaryMethod_data ctx hr]
    rfl
  | false =>
    rw [tryLeGeLowering, if_neg Bool.false_ne_true, tryBrandedBinaryMethod_data ctx hl]
    rfl

theorem mergeDicts_data (uncapped : ctx.maxValueElements = none) (hl : Data l) (hr : Data r)
    (dict : l.typeName = "Dict") : mergeDicts ctx l r scope lRange = .ret (l.deepMerge r) := by
  cases hl with
  | dict entries =>
    cases hr with
    | dict patch => simp [mergeDicts, checkValueSize, uncapped, Value.deepMerge]
    | _ => simp [mergeDicts, checkValueSize, uncapped, Value.deepMerge]
  | _ => exact absurd dict (by simp [Value.typeName])

/-- What `+` makes of data: dicts are merged, texts joined, numbers added. -/
theorem applyAdd_alike (uncapped : ctx.maxValueElements = none) (hl : Data l) (hr : Data r) :
    Alike (applyBinary ctx .add range l lRange r rRange scope)
      (applyBinary { ctx with rootNode := root } .add range' l lRange' r rRange' scope') := by
  have numbers : ∀ {a b : Value}, Data a → Data b →
      Alike (orElseMethod ctx a b "add" scope range id
          (evalNumericArithmetic ctx (· + ·) ctx.floats.add range a lRange b rRange))
        (orElseMethod { ctx with rootNode := root } a b "add" scope' range' id
          (evalNumericArithmetic { ctx with rootNode := root } (· + ·) ctx.floats.add range' a lRange' b
            rRange')) := by
    intro a b ha hb
    rw [orElseMethod_data _ ha, orElseMethod_data _ ha]
    exact evalNumericArithmetic_alike ctx _ _ _ _ _ _ _ ha hb _ _
  have joined : ∀ {a : Value} (b : String), Data a →
      Alike (.ret (.string (a.display ctx ++ b)))
        (.ret (.string (a.display { ctx with rootNode := root } ++ b))) := by
    intro a b ha
    rw [display_data ctx ha root]
    exact .value (.string _)
  have hl' := hl
  have hr' := hr
  cases hl with
  | string a =>
    cases hr with
    | string b => exact .value (.string _)
    | _ =>
      show Alike (.ret (.string (a ++ Value.display ctx _))) (.ret (.string (a ++ Value.display _ _)))
      rw [display_data ctx hr' root]
      exact .value (.string _)
  | dict entries =>
    cases hr with
    | string b => exact joined b hl'
    | dict patch =>
      have uncapped' : ({ ctx with rootNode := root } : Context).maxValueElements = none := uncapped
      simp only [applyBinary]
      rw [orElseMethod_data _ hl', orElseMethod_data _ hl',
        mergeDicts_data _ _ uncapped hl' hr' rfl, mergeDicts_data _ _ uncapped' hl' hr' rfl]
      exact .value (hl'.deepMerge hr')
    | _ => exact numbers hl' hr'
  | _ =>
    cases hr with
    | string b => exact joined b hl'
    | _ => exact numbers hl' hr'

/-- The operators do not depend on the document, on the frame or on ranges. -/
theorem applyBinary_alike (uncapped : ctx.maxValueElements = none) (op : Operator) (hl : Data l)
    (hr : Data r) : Alike (applyBinary ctx op range l lRange r rRange scope)
      (applyBinary { ctx with rootNode := root } op range' l lRange' r rRange' scope') := by
  cases op with
  | add => exact applyAdd_alike _ _ _ _ _ _ _ _ _ uncapped hl hr
  | sub | mul =>
    simp only [applyBinary, orElseMethod_data _ hl]
    exact evalNumericArithmetic_alike ctx _ _ _ _ _ _ _ hl hr _ _
  | div | mod =>
    simp only [applyBinary, orElseMethod_data _ hl]
    exact evalNumericDivision_alike ctx _ _ _ _ _ _ _ hl hr _ _
  | eq | ne =>
    simp only [applyBinary, orElseMethod_data _ hl, eq_data ctx hl root]
    exact .value (.bool _)
  | lt =>
    simp only [applyBinary, orElseMethod_data _ hl]
    exact evalNumericComparison_alike ctx _ _ _ _ _ hl hr _
  | gt =>
    simp only [applyBinary, orElseMethod_data _ hr]
    exact evalNumericComparison_alike ctx _ _ _ _ _ hl hr _
  | le | ge =>
    simp only [applyBinary, tryLeGeLowering_data _ _ hl hr, Prog.ret_bind]
    exact evalNumericComparison_alike ctx _ _ _ _ _ hl hr _
  | _ =>
    simp only [applyBinary]
    exact .failure _ _

end

/-! ### The operators as functions on data -/

/-- What a computation returns if it asks for nothing. -/
def answered : M Value → Option Value
  | .ret v => some v
  | _ => none

section
variable (ctx : Context)

/-- A binary operator on evaluated operands. -/
def binaryValue (op : Operator) (l r : Value) : Option Value :=
  answered (applyBinary ctx op default l default r default emptyScope.1)

/-- A unary operator on its evaluated operand. -/
def unaryValue (op : Operator) (v : Value) : Option Value :=
  match op, v with
  | .not, v => some (.bool (!v.isTruthy ctx))
  | .sub, .int i => (checkedInt (-i.toInt)).map .int
  | .sub, .float f => some (.float (ctx.floats.neg f))
  | _, _ => none

/-- A computation that asks for nothing gives the data `o`, or fails when there is
none. -/
def Gives (x : M Value) (o : Option Value) : Prop :=
  (∃ v, Data v ∧ x = .ret v ∧ o = some v) ∨ (∃ e, x = .fail e ∧ o = none)

theorem Alike.gives {x y : M Value} (h : Alike x y) : Gives x (answered y) := by
  cases h with
  | value data => exact .inl ⟨_, data, rfl, rfl⟩
  | failure e e' => exact .inr ⟨e, rfl, rfl⟩

theorem Gives.data {x : M Value} {o : Option Value} {v : Value} (h : Gives x o) (hv : o = some v) :
    Data v := by
  cases h with
  | inl value =>
    obtain ⟨w, data, -, hw⟩ := value
    cases hw.symm.trans hv
    exact data
  | inr failure =>
    obtain ⟨-, -, none⟩ := failure
    cases none.symm.trans hv

theorem applyBinary_gives {ctx : Context} (uncapped : ctx.maxValueElements = none) (op : Operator)
    {l r : Value} (hl : Data l) (hr : Data r) (range lRange rRange : TokenRange) (scope : Scope) :
    Gives (applyBinary ctx op range l lRange r rRange scope) (binaryValue ctx op l r) :=
  (applyBinary_alike ctx.rootNode _ _ _ _ _ _ _ _ uncapped op hl hr).gives

theorem Alike.answered_eq {x y : M Value} (h : Alike x y) : answered x = answered y := by
  cases h <;> rfl

theorem binaryValue_root {ctx : Context} (uncapped : ctx.maxValueElements = none) (op : Operator)
    {l r : Value} (hl : Data l) (hr : Data r) (root : Option Node) :
    binaryValue { ctx with rootNode := root } op l r = binaryValue ctx op l r :=
  (applyBinary_alike root _ _ _ _ _ _ _ _ uncapped op hl hr).answered_eq.symm

theorem isTruthy_root {ctx : Context} (root : Option Node) (v : Value) :
    v.isTruthy { ctx with rootNode := root } = v.isTruthy ctx := by
  cases v <;> rfl

theorem unaryValue_root {ctx : Context} (root : Option Node) (op : Operator) (v : Value) :
    unaryValue { ctx with rootNode := root } op v = unaryValue ctx op v := by
  unfold unaryValue
  simp only [isTruthy_root]

theorem binaryValue_data {ctx : Context} (uncapped : ctx.maxValueElements = none) {op : Operator}
    {l r v : Value} (hl : Data l) (hr : Data r) (h : binaryValue ctx op l r = some v) : Data v :=
  (applyBinary_gives uncapped op hl hr default default default emptyScope.1).data h

theorem unaryValue_data {op : Operator} {v w : Value} (h : unaryValue ctx op v = some w) :
    Data w := by
  unfold unaryValue at h
  split at h
  · cases h; exact .bool _
  · exact int_data _ h
  · cases h; exact .float _
  · cases h

end

/-! ### Stepping into a value -/

namespace Value

/-- One static segment of a path: an entry of a dict, an element of a list or tuple. -/
def step (v : Value) (key : String) : Option Value :=
  match v with
  | .dict map _ _ => map.lookup key
  | .list items => (parseUsize key).bind fun i => items[i]?
  | .tuple items => (parseUsize key).bind fun i => items[i]?
  | _ => none

def stepAll (v : Value) : List String → Option Value
  | [] => some v
  | key :: rest => (v.step key).bind fun w => w.stepAll rest

end Value

theorem Data.step {v w : Value} {key : String} (hv : Data v) (h : v.step key = some w) : Data w := by
  cases hv with
  | dict entries => exact entries _ (Assoc.mem_of_lookup h)
  | _ => cases h

theorem Data.stepAll {v w : Value} {path : List String} (hv : Data v)
    (h : v.stepAll path = some w) : Data w := by
  induction path generalizing v with
  | nil =>
    cases h
    exact hv
  | cons key rest ih =>
    obtain ⟨u, first, later⟩ := Option.bind_eq_some_iff.mp h
    exact ih (hv.step first) later

/-- A key that is written out and not optional. -/
def TokenKey.IsStatic : TokenKey → Prop
  | .string _ _ isOptional => isOptional = false
  | _ => False

instance : DecidablePred TokenKey.IsStatic := fun key => by
  cases key <;> unfold TokenKey.IsStatic <;> infer_instance

theorem TokenKey.IsStatic.spelled {key : TokenKey} (h : key.IsStatic) :
    ∃ s range, key = .string s range false := by
  cases key with
  | string s range isOptional =>
    have opt : isOptional = false := h
    exact ⟨s, range, by rw [opt]⟩
  | _ => exact False.elim h

/-- Stepping into data: an entry, or an error. -/
theorem stepIntoValue_data {v : Value} (hv : Data v) (key display : String) (range : TokenRange)
    (kind : ListIndexErrorKind) :
    (∃ w, v.step key = some w ∧ stepIntoValue v key display false range kind = .ret (.found w)) ∨
      (v.step key = none ∧ ∃ e, stepIntoValue v key display false range kind = .fail e) := by
  cases hv with
  | dict entries =>
    rename_i map
    cases found : List.lookup key map with
    | some w => exact .inl ⟨w, found, by simp [stepIntoValue, found]⟩
    | none => exact .inr ⟨found, _, by simp only [stepIntoValue, found]; rfl⟩
  | _ => exact .inr ⟨rfl, _, rfl⟩

theorem lookupValuePath_gives (ctx : Context) (display : String) (scope : Scope)
    (range : TokenRange) {path : List TokenKey} {v : Value} (static : ∀ k ∈ path, k.IsStatic)
    (hv : Data v) :
    Gives (lookupValuePath ctx display scope range path v) (v.stepAll (path.map TokenKey.name)) := by
  induction path generalizing v with
  | nil => exact .inl ⟨v, hv, rfl, rfl⟩
  | cons key rest ih =>
    obtain ⟨s, r, rfl⟩ := (static _ mem_cons_self).spelled
    cases stepIntoValue_data hv s display range .variableNotFound with
    | inl found =>
      obtain ⟨w, step, run⟩ := found
      have later := ih (fun k hk => static k (mem_cons_of_mem _ hk)) (hv.step step)
      simpa [lookupValuePath, Value.stepAll, TokenKey.name, TokenKey.isOptional, step, run] using later
    | inr missing =>
      obtain ⟨step, e, run⟩ := missing
      exact .inr ⟨e, by simp [lookupValuePath, TokenKey.name, TokenKey.isOptional, run],
        by simp [Value.stepAll, TokenKey.name, step]⟩

theorem walkVariable_string (ctx : Context) (scope : Scope) (range r : TokenRange) (s : String)
    (rest : List TokenKey) (parts : List String) {v : Value} (hv : Data v) :
    walkVariable ctx scope range (.string s r false :: rest) parts v = (do
      match ← stepIntoValue v s (".".intercalate (parts ++ [s])) false range .typeMismatchIndex with
      | .found w => walkVariable ctx scope range rest (parts ++ [s]) w
      | .optionalNone => pure .optionNone) := by
  cases hv <;> rfl

theorem walkVariable_gives (ctx : Context) (scope : Scope) (range : TokenRange)
    {path : List TokenKey} {parts : List String} {v : Value} (static : ∀ k ∈ path, k.IsStatic)
    (hv : Data v) :
    Gives (walkVariable ctx scope range path parts v) (v.stepAll (path.map TokenKey.name)) := by
  induction path generalizing v parts with
  | nil => exact .inl ⟨v, hv, by rw [walkVariable]; rfl, rfl⟩
  | cons key rest ih =>
    obtain ⟨s, r, rfl⟩ := (static _ mem_cons_self).spelled
    rw [walkVariable_string _ _ _ _ _ _ _ hv]
    cases stepIntoValue_data hv s (".".intercalate (parts ++ [s])) range .typeMismatchIndex with
    | inl found =>
      obtain ⟨w, step, run⟩ := found
      have later := @ih (parts ++ [s]) w (fun k hk => static k (mem_cons_of_mem _ hk))
        (hv.step step)
      simpa [Value.stepAll, TokenKey.name, step, run] using later
    | inr missing =>
      obtain ⟨step, e, run⟩ := missing
      exact .inr ⟨e, by simp [run], by simp [Value.stepAll, TokenKey.name, step]⟩

/-! ### Dict literals

A dict whose keys are written out and whose fields declare nothing: preparing its
frame only makes the thunks, and every field ends up in the value. -/

/-- A field that is no closure, schema or private field. -/
structure Inert (n : Node) : Prop where
  directives : n.directives = []
  not_closure : n.expr.isClosure = false

namespace Inert

theorem not_private {n : Node} (h : Inert n) : isPrivateField n = false := by
  rw [isPrivateField, h.directives]
  rfl

theorem not_schema {n : Node} (h : Inert n) : isFieldSchema n = false := by
  rw [isFieldSchema, h.directives]
  rfl

end Inert

/-- The entries of a dict literal with static keys. -/
def namedEntries (pairs : List (TokenKey × Node)) : List (String × Node) :=
  pairs.map fun e => (e.1.name, e.2)

theorem entryKeys_static {pairs : List (TokenKey × Node)} (static : ∀ e ∈ pairs, e.1.IsStatic)
    (s : Scope) : entryKeys s pairs = .ret (namedEntries pairs) := by
  induction pairs with
  | nil => rfl
  | cons e rest ih =>
    obtain ⟨key, n⟩ := e
    obtain ⟨name, range, rfl⟩ := (static _ mem_cons_self).spelled
    have later := ih fun e he => static e (mem_cons_of_mem _ he)
    simp [entryKeys, entryKey, later, namedEntries]

theorem bindDefinitions_inert {pairs : List (TokenKey × Node)}
    (static : ∀ e ∈ pairs, e.1.IsStatic) (fields : ∀ e ∈ pairs, Inert e.2) (s : OpenScope) :
    bindDefinitions s pairs = .ret () := by
  induction pairs with
  | nil => rfl
  | cons e rest ih =>
    obtain ⟨key, n⟩ := e
    obtain ⟨name, range, rfl⟩ := (static _ mem_cons_self).spelled
    have inert := fields _ mem_cons_self
    have later := ih (fun e he => static e (mem_cons_of_mem _ he)) fun e he =>
      fields e (mem_cons_of_mem _ he)
    simp only [bindDefinitions, inert.not_closure, inert.not_schema]
    exact later

theorem prepareDictScope_inert (ctx : Context) {id : Nat} {pairs : List (TokenKey × Node)}
    {range : TokenRange} (static : ∀ e ∈ pairs, e.1.IsStatic) (fields : ∀ e ∈ pairs, Inert e.2)
    (s : OpenScope) : prepareDictScope ctx (.mk id (.dict pairs) [] [] none range) s =
      insertThunks s (namedEntries pairs) := by
  show (registerDictThunks pairs s >>= fun _ => seedSchemaNames s [] >>= fun seeded =>
    bindSchemas ctx s seeded [] >>= fun _ => bindDefinitions s pairs) = _
  rw [bindDefinitions_inert static fields, registerDictThunks, entryKeys_static static]
  exact Prog.bind_ret _

theorem evalEntries_cons {f : OpenScope} {key : TokenKey} {n : Node} {rest : List (TokenKey × Node)}
    {map : Assoc Value} (static : key.IsStatic) (inert : Inert n) :
    evalEntries f ((key, n) :: rest) map = (do
      let v ← entryValue f key.name n
      Scope.insertLocal f key.name v
      evalEntries f rest (map.insertSorted key.name v)) := by
  obtain ⟨name, range, rfl⟩ := static.spelled
  simp only [evalEntries, entryKey, inert.not_private, TokenKey.name]
  rfl

end Relon.Eval
