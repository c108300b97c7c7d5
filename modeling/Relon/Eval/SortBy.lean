import Mathlib.Data.List.Lex
import Mathlib.Data.List.Pairwise
import Mathlib.Order.WithBot
import Relon.Lib.Double
import Relon.Lib.MergeRuns
import Relon.Eval.Stdlib

/-! Sorting by key: `_list_sort_by` and `_list_sort_by_desc` (`stdlib.rs`).

The key closure is called once per element, the positions of the elements are sorted by
their keys with a bottom-up merge sort that goes back and forth between two buffers, and the
elements are put in the order of the positions. -/
namespace Relon.Eval.SortBy

open MergeRuns Double
open List hiding merge

/-! ### Keys -/

/-- `Ord::cmp`. -/
def cmp {α : Type} [LinearOrder α] (a b : α) : Ordering := compareOfLessAndEq a b

/-- `compare_sort_floats`, on the bits. A comparison of doubles that are not NaN is one of
their signs and magnitudes, and the two zeros have the same. -/
def compareSortFloats (x y : UInt64) : Ordering :=
  let xn := if Double.key x = 0 then 0 else x
  let yn := if Double.key y = 0 then 0 else y
  match Double.isNaN xn, Double.isNaN yn with
  | true, true => .eq
  | true, false => .gt
  | false, true => .lt
  | false, false => cmp (Double.key xn) (Double.key yn)

/-- The bytes `str::cmp` compares. -/
def utf8 (s : String) : List Nat := s.toUTF8.data.toList.map UInt8.toNat

def sortKeyExpected : String :=
  "sort key must be a homogeneous orderable scalar (Int, Float, String, or Bool)"

/-- `compare_sort_keys`. -/
def compareSortKeys (a b : Value) (range : TokenRange) : Except RuntimeError Ordering :=
  match a, b with
  | .int x, .int y => .ok (cmp x.toInt y.toInt)
  | .bool x, .bool y => .ok (cmp x y)
  | .string x, .string y => .ok (cmp (utf8 x) (utf8 y))
  | .float x, .float y => .ok (compareSortFloats x y)
  | a, b => .error (.typeMismatch sortKeyExpected (a.typeName ++ " vs " ++ b.typeName) range)

inductive SortDir
  | asc
  | desc
  deriving DecidableEq

/-- Whether the head of the left run goes first. -/
def SortDir.takeLeft : SortDir → Ordering → Bool
  | .asc, ord => ord != .gt
  | .desc, ord => ord != .lt

/-- The comparison inside `merge_sort_runs`, on positions. -/
def takeLeft (keys : List Value) (dir : SortDir) (range : TokenRange) (i j : Nat) :
    Except RuntimeError Bool :=
  (compareSortKeys (keys.getD i default) (keys.getD j default) range).map dir.takeLeft

/-! ### The merge sort -/

section
variable (test : Nat → Nat → Except RuntimeError Bool)

/-- `while a < stop { dst[k] = src[a]; … }`, with the `k` it ends at. -/
def copyRun (src dst : List Nat) (a k stop : Nat) : List Nat × Nat :=
  if a < stop then copyRun src (dst.set k (src.getD a 0)) (a + 1) (k + 1) stop else (dst, k)
termination_by stop - a

/-- `merge_sort_runs`, from the positions its three loops have reached. -/
def mergeLoop (src dst : List Nat) (a b k mid right : Nat) : Except RuntimeError (List Nat) :=
  if a < mid ∧ b < right then
    match test (src.getD a 0) (src.getD b 0) with
    | .error e => .error e
    | .ok true => mergeLoop src (dst.set k (src.getD a 0)) (a + 1) b (k + 1) mid right
    | .ok false => mergeLoop src (dst.set k (src.getD b 0)) a (b + 1) (k + 1) mid right
  else
    let (dst, k) := copyRun src dst a k mid
    .ok (copyRun src dst b k right).1
termination_by (mid - a) + (right - b)

/-- `merge_sort_runs`. -/
def mergeSortRuns (src dst : List Nat) (left mid right : Nat) : Except RuntimeError (List Nat) :=
  mergeLoop test src dst left mid left mid right

/-- The inner loop of `stable_merge_sort_indices`, from `i` on. -/
def passLoop (idx buf : List Nat) (width n i : Nat) (pos : 0 < width) :
    Except RuntimeError (List Nat) :=
  if i < n then do
    let buf ← mergeSortRuns test idx buf i (min (i + width) n) (min (i + 2 * width) n)
    passLoop idx buf width n (i + 2 * width) pos
  else .ok buf
termination_by n - i

/-- The outer loop: the buffers are swapped after each pass. -/
def widthLoop (idx buf : List Nat) (width n : Nat) (pos : 0 < width) :
    Except RuntimeError (List Nat) :=
  if width < n then do
    let buf ← passLoop test idx buf width n 0 pos
    widthLoop buf idx (width * 2) n (Nat.mul_pos pos Nat.two_pos)
  else .ok idx
termination_by n - width

/-- `stable_merge_sort_indices`. -/
def stableMergeSortIndices (n : Nat) : Except RuntimeError (List Nat) :=
  if n ≤ 1 then .ok (List.range n)
  else widthLoop test (List.range n) (List.replicate n 0) 1 n Nat.one_pos

end

/-- The first loop of `list_sort_by_impl`: one tick and one call for each element. -/
def sortKeys (key : Value) (range : TokenRange) : List Value → Prog HostOp RuntimeError (List Value)
  | [] => pure []
  | item :: items => do
    HostOp.ask (.tick 1 range)
    let k ← HostOp.ask (.callRelon key [item] range)
    let ks ← sortKeys key range items
    pure (k :: ks)

/-- `list_sort_by_impl`. -/
def listSortByImpl (dir : SortDir) : Native := fun positional _ range =>
  match positional with
  | [.list items, key] => do
    let keys ← sortKeys key range items
    let perm ← Prog.ofExcept (stableMergeSortIndices (takeLeft keys dir range) keys.length)
    pure (.list (perm.map fun i => items.getD i default))
  | [other, _] => .fail (.typeMismatch "List" other.typeName range)
  | args => .fail (.typeMismatch "2 argument(s)" (toString args.length) range)

/-- `ListSortBy::call`. -/
def listSortBy : Native := listSortByImpl .asc

/-- `ListSortByDesc::call`. -/
def listSortByDesc : Native := listSortByImpl .desc

/-! ### The loops merge runs -/

/-- The positions from `a` up to `stop`. -/
def slice (src : List Nat) (a stop : Nat) : List Nat := (src.drop a).take (stop - a)

/-- The list with `zs` written over it from `k` on. -/
def overwrite (dst : List Nat) (k : Nat) (zs : List Nat) : List Nat :=
  dst.take k ++ zs ++ dst.drop (k + zs.length)

variable {zs buf dst idx src : List Nat} {a k n stop width : Nat} {pos : 0 < width}
  {test : Nat → Nat → Except RuntimeError Bool} {α : Type}

theorem slice_cons (more : a < stop) (within : stop ≤ src.length) :
    slice src a stop = src.getD a 0 :: slice src (a + 1) stop := by
  have here : a < src.length := by omega
  have count : stop - a = stop - (a + 1) + 1 := by omega
  rw [slice, drop_eq_getElem_cons here, count, take_succ_cons, slice]
  simp [here]

theorem slice_length (within : stop ≤ src.length) : (slice src a stop).length = stop - a := by
  simp only [slice, length_take, length_drop]
  omega

@[simp] theorem overwrite_nil (dst : List Nat) (k : Nat) : overwrite dst k [] = dst := by
  simp [overwrite]

theorem overwrite_set (within : k < dst.length) (z : Nat) (zs : List Nat) :
    overwrite (dst.set k z) (k + 1) zs = overwrite dst k (z :: zs) := by
  have front : (dst.set k z).take (k + 1) = dst.take k ++ [z] := by
    rw [take_add_one, take_set_of_le (Nat.le_refl k)]
    simp [within]
  have back : (dst.set k z).drop (k + 1 + zs.length) = dst.drop (k + 1 + zs.length) :=
    drop_set_of_lt (by omega)
  rw [overwrite, front, back, overwrite, length_cons]
  simp only [append_assoc, nil_append, Nat.add_assoc, Nat.add_comm 1, cons_append]

theorem overwrite_length (within : k + zs.length ≤ dst.length) :
    (overwrite dst k zs).length = dst.length := by
  simp only [overwrite, length_append, length_take, length_drop]
  omega

theorem overwrite_append {xs ys : List Nat} (within : k + xs.length ≤ dst.length) :
    overwrite (overwrite dst k xs) (k + xs.length) ys = overwrite dst k (xs ++ ys) := by
  have start : (dst.take k ++ xs).length = k + xs.length := by
    simp only [length_append, length_take]
    omega
  have front : (overwrite dst k xs).take (k + xs.length) = dst.take k ++ xs := by
    rw [overwrite, ← start, take_left]
  have back : (overwrite dst k xs).drop (k + xs.length + ys.length) =
      dst.drop (k + (xs ++ ys).length) := by
    rw [overwrite, ← start, ← drop_drop, drop_left, drop_drop, start, length_append, Nat.add_assoc]
  rw [overwrite, front, back, overwrite, append_assoc (dst.take k)]

theorem copyRun_eq (readable : stop ≤ src.length) (writable : k + (stop - a) ≤ dst.length) :
    copyRun src dst a k stop = (overwrite dst k (slice src a stop), k + (stop - a)) := by
  fun_induction copyRun src dst a k stop with
  | case1 dst a k more ih =>
    rw [ih (by rw [length_set]; omega), overwrite_set (by omega), ← slice_cons more readable]
    congr 1
    omega
  | case2 dst a k done =>
    have empty : stop - a = 0 := by omega
    simp [slice, empty]

/-- The loops of `merge_sort_runs` write the merge of the two runs. -/
theorem mergeLoop_eq (test : Nat → Nat → Except RuntimeError Bool) {a b k mid right : Nat}
    (middle : mid ≤ src.length) (readable : right ≤ src.length)
    (writable : k + (mid - a) + (right - b) ≤ dst.length) : mergeLoop test src dst a b k mid right =
      (merge test (slice src a mid) (slice src b right)).map (overwrite dst k) := by
  fun_induction mergeLoop test src dst a b k mid right with
  | case1 dst a b k both e failed =>
    rw [slice_cons both.1 middle, slice_cons both.2 readable, merge, failed]
    rfl
  | case2 dst a b k both left ih =>
    rw [ih (by rw [length_set]; omega), slice_cons both.1 middle, slice_cons both.2 readable,
      merge, left]
    cases merge test (slice src (a + 1) mid) (src.getD b 0 :: slice src (b + 1) right) with
    | error e => rfl
    | ok zs => exact congrArg Except.ok (overwrite_set (by omega) _ _)
  | case3 dst a b k both right' ih =>
    rw [ih (by rw [length_set]; omega), slice_cons both.1 middle, slice_cons both.2 readable,
      merge, right']
    cases merge test (src.getD a 0 :: slice src (a + 1) mid) (slice src (b + 1) right) with
    | error e => rfl
    | ok zs => exact congrArg Except.ok (overwrite_set (by omega) _ _)
  | case4 dst a b k spent dst' k' copied =>
    rw [copyRun_eq middle (by omega)] at copied
    obtain ⟨rfl, rfl⟩ := Prod.mk.inj copied
    have written := slice_length (a := a) middle
    rw [copyRun_eq readable (by rw [overwrite_length (by omega)]; omega), ← written,
      overwrite_append (by omega)]
    -- one of the runs is used up, and merging the other with nothing leaves it as it is
    by_cases first : a < mid
    · have empty : slice src b right = [] := by
        rw [← length_eq_zero_iff, slice_length readable]
        omega
      simp [empty, Except.map]
    · have empty : slice src a mid = [] := by
        rw [← length_eq_zero_iff, written]
        omega
      simp [empty, Except.map]

theorem overwrite_take {k m : Nat} (within : k + zs.length ≤ dst.length)
    (end_ : m = k + zs.length ∨ k + zs.length = dst.length ∧ dst.length ≤ m) :
    (overwrite dst k zs).take m = dst.take k ++ zs := by
  have start : (dst.take k ++ zs).length = k + zs.length := by
    simp only [length_append, length_take]
    omega
  obtain rfl | ⟨whole, beyond⟩ := end_
  · rw [overwrite, ← start, take_left]
  · rw [overwrite, whole, drop_length, append_nil, take_of_length_le (by omega)]

/-- The inner loop is a pass over the runs. -/
theorem passLoop_eq (test : Nat → Nat → Except RuntimeError Bool) {width n i : Nat}
    {pos : 0 < width} (source : idx.length = n) (target : buf.length = n) :
    passLoop test idx buf width n i pos =
      (pass test width pos (idx.drop i)).map (buf.take i ++ ·) := by
  fun_induction passLoop test idx buf width n i pos with
  | case1 buf i more ih =>
    have left : slice idx i (min (i + width) n) = (idx.drop i).take width := by
      rw [slice, take_eq_take_iff, length_drop]
      omega
    have right : slice idx (min (i + width) n) (min (i + 2 * width) n) =
        ((idx.drop i).drop width).take width := by
      by_cases inside : i + width ≤ n
      · rw [slice, drop_drop, Nat.min_eq_left inside, take_eq_take_iff, length_drop]
        omega
      · rw [slice, drop_drop, drop_eq_nil_of_le (by omega),
          drop_eq_nil_of_le (by omega), take_nil, take_nil]
    have some_ : idx.drop i ≠ [] := by
      rw [Ne, drop_eq_nil_iff]
      omega
    rw [mergeSortRuns, mergeLoop_eq test (by omega) (by omega) (by omega), left, right, MergeRuns.pass,
      if_neg some_]
    cases merged : merge test ((idx.drop i).take width) (((idx.drop i).drop width).take width) with
    | error e => rfl
    | ok run =>
      have size := merge_length merged
      simp only [length_take, length_drop] at size
      show passLoop test idx (overwrite buf i run) width n (i + 2 * width) pos = _
      rw [ih (overwrite buf i run) ((overwrite_length (by omega)).trans target),
        overwrite_take (by omega) (by omega), drop_drop]
      cases pass test width pos (idx.drop (i + 2 * width)) with
      | error e => rfl
      | ok rest => exact congrArg Except.ok (append_assoc _ _ _)
  | case2 buf i done =>
    rw [drop_eq_nil_of_le (by omega), MergeRuns.pass, if_pos rfl]
    exact congrArg Except.ok (by simp [take_of_length_le (show buf.length ≤ i by omega)])

/-- The outer loop: what each pass keeps at twice the width holds at the end, at a width
that takes in everything. -/
theorem widthLoop_ok {idx buf out : List Nat} {I : Nat → List Nat → Prop}
    (keeps : ∀ w pos xs ys, xs.length = n → I w xs → pass test w pos xs = .ok ys → I (2 * w) ys)
    (source : idx.length = n) (target : buf.length = n) (start : I width idx)
    (done : widthLoop test idx buf width n pos = .ok out) : ∃ w, n ≤ w ∧ I w out := by
  fun_induction widthLoop test idx buf width n pos with
  | case1 idx buf width pos more ih =>
    obtain ⟨ys, looped, rest⟩ := Except.bind_eq_ok.mp done
    rw [passLoop_eq test source target, drop_zero] at looped
    obtain ⟨zs, passed, eq⟩ := Except.map_eq_ok.mp looped
    cases eq
    have length := (pass_run passed).1
    exact ih zs (length.trans source) source
      (Nat.mul_comm 2 width ▸ keeps width pos idx zs source start passed) rest
  | case2 idx buf width pos enough =>
    exact ⟨width, by omega, Except.ok.inj done ▸ start⟩

theorem widthLoop_total (source : idx.length = n) (target : buf.length = n)
    (answers : ∀ a ∈ idx, ∀ b ∈ idx, ∃ r, test a b = .ok r) :
    ∃ out, widthLoop test idx buf width n pos = .ok out := by
  fun_induction widthLoop test idx buf width n pos with
  | case1 idx buf width pos more ih =>
    obtain ⟨ys, passed⟩ : ∃ ys, pass test width pos idx = .ok ys := pass_total answers
    have same := pass_perm passed
    have loop : passLoop test idx buf width n 0 pos = .ok ys := by
      rw [passLoop_eq test source target, drop_zero, passed]
      rfl
    rw [loop]
    exact ih ys (same.length_eq.trans source) source fun a ha b hb =>
      answers a (same.mem_iff.mp ha) b (same.mem_iff.mp hb)
  | case2 idx buf width pos enough => exact ⟨idx, rfl⟩

/-! ### The order of the keys -/

/-- The place of a double among the keys: NaN is above everything else. -/
def floatRank (x : UInt64) : WithTop Int := if Double.isNaN x then ⊤ else (Double.key x : Int)

theorem isNaN_eq_false_of_key {x : UInt64} (zero : Double.key x = 0) : Double.isNaN x = false := by
  simp [isNaN, zero]

theorem compareSortFloats_eq (x y : UInt64) :
    compareSortFloats x y = cmp (floatRank x) (floatRank y) := by
  have fold (z : UInt64) : floatRank (if key z = 0 then 0 else z) = floatRank z := by
    split
    next zero => 
      simp [floatRank, isNaN_eq_false_of_key zero, zero]
      decide
    next => rfl
  rw [← fold x, ← fold y]
  simp only [compareSortFloats]
  generalize (if key x = 0 then 0 else x) = xn
  generalize (if key y = 0 then 0 else y) = yn
  cases nx : isNaN xn <;> cases ny : isNaN yn <;>
    simp [floatRank, nx, ny, cmp, compareOfLessAndEq]

/-- The scalars that can be sorted by. -/
inductive Kind
  | int
  | bool
  | string
  | float
  deriving DecidableEq

def kind : Value → Option Kind
  | .int _ => some .int
  | .bool _ => some .bool
  | .string _ => some .string
  | .float _ => some .float
  | _ => none

/-- All keys are of one orderable scalar kind. -/
def Homogeneous (keys : List Value) : Prop := ∃ k, ∀ key ∈ keys, kind key = some k

/-- Comparing along a chain, in a linear order. -/
theorem cmp_chain [LinearOrder α] (a b c : α) : (cmp a b = .eq → cmp a c = cmp b c) ∧
      (cmp b c = .eq → cmp a c = cmp a b) ∧ (cmp a b = cmp b c → cmp a c = cmp a b) := by
  unfold cmp compareOfLessAndEq
  obtain first | rfl | first := lt_trichotomy a b
  · obtain second | rfl | second := lt_trichotomy b c
    · simp [first, second, first.trans second]
    · simp [first]
    · simp [first, second.not_gt, second.ne']
  · simp [eq_comm]
  · obtain second | rfl | second := lt_trichotomy b c
    · simp [first.not_gt, first.ne', second]
    · simp [first.not_gt, first.ne']
    · simp [first.not_gt, first.ne', second.not_gt, second.ne', (second.trans first).not_gt,
        (second.trans first).ne']

theorem cmp_swap [LinearOrder α] (a b : α) : cmp b a = (cmp a b).swap := by
  unfold cmp compareOfLessAndEq
  obtain less | rfl | more := lt_trichotomy a b
  · simp [less, less.not_gt, less.ne']
  · simp
  · simp [more, more.not_gt, more.ne']

section
variable {range : TokenRange} {a b c : Value}

/-- Two keys can be compared when they are of one kind. -/
theorem compareSortKeys_ok_iff :
    (∃ ord, compareSortKeys a b range = .ok ord) ↔ ∃ k, kind a = some k ∧ kind b = some k := by
  cases a <;> cases b <;> simp [compareSortKeys, kind]

theorem compareSortKeys_swap {ord : Ordering} (compared : compareSortKeys a b range = .ok ord) :
    compareSortKeys b a range = .ok ord.swap := by
  cases a <;> cases b <;>
    simp only [compareSortKeys, compareSortFloats_eq, reduceCtorEq, Except.ok.injEq] at compared ⊢
  all_goals
    subst compared
    exact cmp_swap _ _

theorem compareSortKeys_chain {p q : Ordering} (first : compareSortKeys a b range = .ok p)
    (second : compareSortKeys b c range = .ok q) : ∃ r, compareSortKeys a c range = .ok r ∧
      (p = .eq → r = q) ∧ (q = .eq → r = p) ∧ (p = q → r = p) := by
  cases a <;> cases b <;>
    simp only [compareSortKeys, compareSortFloats_eq, reduceCtorEq, Except.ok.injEq] at first
  all_goals
    cases c <;>
      simp only [compareSortKeys, compareSortFloats_eq, reduceCtorEq, Except.ok.injEq] at second ⊢
    subst first second
    exact ⟨_, rfl, cmp_chain _ _ _⟩

end

/-! ### Sorted positions -/

/-- What comes first in this direction. -/
def SortDir.strict : SortDir → Ordering
  | .asc => .lt
  | .desc => .gt

section
variable (keys : List Value) (dir : SortDir) (range : TokenRange)

/-- The element at `i` belongs before the one at `j`: by its key, or by its position when the
keys are equal. -/
def Precedes (i j : Nat) : Prop :=
  ∃ ord, compareSortKeys (keys.getD i default) (keys.getD j default) range = .ok ord ∧
    (ord = dir.strict ∨ ord = .eq ∧ i < j)

variable {keys dir range}

variable {i j k n w : Nat} {perm : List Nat}

theorem Precedes.trans (first : Precedes keys dir range i j) (second : Precedes keys dir range j k) :
    Precedes keys dir range i k := by
  obtain ⟨p, compared, first⟩ := first
  obtain ⟨q, compared', second⟩ := second
  obtain ⟨r, whole, eqLeft, eqRight, same⟩ := compareSortKeys_chain compared compared'
  refine ⟨r, whole, ?_⟩
  obtain rfl | ⟨rfl, before⟩ := first
  · obtain rfl | ⟨rfl, -⟩ := second
    · exact .inl (same rfl)
    · exact .inl (eqRight rfl)
  · rw [eqLeft rfl]
    exact second.imp id fun ⟨eq, before'⟩ => ⟨eq, before.trans before'⟩

theorem Precedes.antisymm (first : Precedes keys dir range i j)
    (second : Precedes keys dir range j i) : i = j := by
  obtain ⟨p, compared, first⟩ := first
  obtain ⟨q, compared', second⟩ := second
  cases (compareSortKeys_swap compared).symm.trans compared'
  cases dir <;> cases p <;> simp_all [SortDir.strict] <;> omega

theorem precedes_of_takeLeft {left : Bool} (before : i < j)
    (tested : takeLeft keys dir range i j = .ok left) :
    if left then Precedes keys dir range i j else Precedes keys dir range j i := by
  obtain ⟨ord, compared, rfl⟩ := Except.map_eq_ok.mp tested
  have swapped := compareSortKeys_swap compared
  cases dir <;> cases ord <;> simp only [SortDir.takeLeft]
  · exact ⟨_, compared, .inl rfl⟩
  · exact ⟨_, compared, .inr ⟨rfl, before⟩⟩
  · exact ⟨_, swapped, .inl rfl⟩
  · exact ⟨_, swapped, .inl rfl⟩
  · exact ⟨_, compared, .inr ⟨rfl, before⟩⟩
  · exact ⟨_, compared, .inl rfl⟩

/-- What a pass keeps: every run has its own positions, in order. -/
def RunsSorted (keys : List Value) (dir : SortDir) (range : TokenRange) (n w : Nat)
    (xs : List Nat) : Prop :=
  ∀ k, (chunk w k xs).Perm (chunk w k (List.range n)) ∧
    (chunk w k xs).Pairwise (Precedes keys dir range)

theorem chunk_lt (first : i ∈ chunk w (2 * k) (List.range n))
    (second : j ∈ chunk w (2 * k + 1) (List.range n)) : i < j := by
  have ascending : (chunk (2 * w) k (List.range n)).Pairwise (· < ·) :=
    List.Pairwise.sublist ((take_sublist _ _).trans (drop_sublist _ _)) pairwise_lt_range
  rw [chunk_double, pairwise_append] at ascending
  exact ascending.2.2 i first j second

theorem RunsSorted.pass {pos : 0 < w} {xs ys : List Nat} (sorted : RunsSorted keys dir range n w xs)
    (passed : pass (takeLeft keys dir range) w pos xs = .ok ys) :
    RunsSorted keys dir range n (2 * w) ys := by
  intro k
  have merged := (pass_run passed).2 k
  obtain ⟨samePositions, inOrder⟩ := sorted (2 * k)
  obtain ⟨samePositions', inOrder'⟩ := sorted (2 * k + 1)
  constructor
  · rw [chunk_double w k (List.range n)]
    exact (merge_perm merged).trans (samePositions.append samePositions')
  · have before {i j : Nat} (mem : i ∈ chunk w (2 * k) xs) (mem' : j ∈ chunk w (2 * k + 1) xs) :
        i < j := chunk_lt (samePositions.mem_iff.mp mem) (samePositions'.mem_iff.mp mem')
    exact merge_pairwise Precedes.trans
      (fun i mem j mem' tested => by simpa using precedes_of_takeLeft (before mem mem') tested)
      (fun i mem j mem' tested => by simpa using precedes_of_takeLeft (before mem mem') tested)
      inOrder inOrder' merged

theorem runsSorted_one (n : Nat) : RunsSorted keys dir range n 1 (List.range n) := by
  intro k
  refine ⟨.refl _, ?_⟩
  have short : (chunk 1 k (List.range n)).length ≤ 1 := by simp [chunk]
  cases piece : chunk 1 k (List.range n) with
  | nil => exact .nil
  | cons i rest =>
    rw [piece, length_cons] at short
    obtain rfl : rest = [] := eq_nil_of_length_eq_zero (by omega)
    exact pairwise_singleton _ _

/-- The sort, where it succeeds. -/
theorem stableMergeSortIndices_ok
    (done : stableMergeSortIndices (takeLeft keys dir range) n = .ok perm) :
    perm.Perm (List.range n) ∧ perm.Pairwise (Precedes keys dir range) := by
  unfold stableMergeSortIndices at done
  split at done
  next few =>
    cases done
    refine ⟨.refl _, ?_⟩
    match n, few with
    | 0, _ => exact .nil
    | 1, _ => exact pairwise_singleton _ _
  next many =>
    obtain ⟨w, wide, length, sorted⟩ := widthLoop_ok
      (I := fun w xs => xs.length = n ∧ RunsSorted keys dir range n w xs)
      (fun w pos xs ys length sorted passed =>
        ⟨(pass_run passed).1.trans length, sorted.2.pass passed⟩)
      length_range length_replicate ⟨length_range, runsSorted_one n⟩ done
    -- a run of this width is the whole list
    have whole {xs : List Nat} (size : xs.length = n) : chunk w 0 xs = xs := by
      rw [chunk, Nat.zero_mul, drop_zero, take_of_length_le (by omega)]
    have result := sorted 0
    rw [whole length, whole length_range] at result
    exact result

/-- Keys that are all comparable with each other are of one kind. -/
theorem homogeneous_of_pairwise (many : 1 < keys.length)
    (positions : perm.Perm (List.range keys.length))
    (inOrder : perm.Pairwise (Precedes keys dir range)) : Homogeneous keys := by
  have alike {i j : Nat} (apart : i ≠ j) (hi : i < keys.length) (hj : j < keys.length) :
      ∃ k, kind (keys.getD i default) = some k ∧ kind (keys.getD j default) = some k := by
    have mem {m : Nat} (hm : m < keys.length) : m ∈ perm :=
      positions.mem_iff.mpr (mem_range.mpr hm)
    have symmetric : Std.Symm fun i j => ∃ k, kind (keys.getD i default) = some k ∧
        kind (keys.getD j default) = some k := ⟨fun _ _ ⟨k, left, right⟩ => ⟨k, right, left⟩⟩
    have pairs := inOrder.imp fun ⟨ord, compared, _⟩ => compareSortKeys_ok_iff.mp ⟨ord, compared⟩
    exact pairs.forall (mem hi) (mem hj) apart
  obtain ⟨k, zero, -⟩ := alike Nat.zero_ne_one (by omega) many
  refine ⟨k, fun key mem => ?_⟩
  obtain ⟨i, hi, rfl⟩ := getElem_of_mem mem
  by_cases first : i = 0
  · subst first
    simpa [hi] using zero
  · obtain ⟨k', here, zero'⟩ := alike first hi (by omega)
    obtain rfl : k' = k := Option.some.inj (zero'.symm.trans zero)
    simpa [hi] using here

/-- When the sort succeeds. -/
theorem stableMergeSortIndices_ok_iff :
    (∃ perm, stableMergeSortIndices (takeLeft keys dir range) keys.length = .ok perm) ↔
      keys.length ≤ 1 ∨ Homogeneous keys := by
  constructor
  · rintro ⟨perm, done⟩
    obtain ⟨positions, inOrder⟩ := stableMergeSortIndices_ok done
    by_cases few : keys.length ≤ 1
    · exact .inl few
    · exact .inr (homogeneous_of_pairwise (by omega) positions inOrder)
  · intro sortable
    unfold stableMergeSortIndices
    split
    next few => exact ⟨_, rfl⟩
    next many =>
      obtain few | ⟨k, kinds⟩ := sortable
      · exact absurd few many
      · apply widthLoop_total length_range length_replicate
        intro i hi j hj
        have ofKind {m : Nat} (mem : m ∈ List.range keys.length) :
            kind (keys.getD m default) = some k := by
          have within := mem_range.mp mem
          simpa [within] using kinds _ (getElem_mem within)
        obtain ⟨ord, compared⟩ := compareSortKeys_ok_iff.mpr ⟨k, ofKind hi, ofKind hj⟩
        exact ⟨dir.takeLeft ord, by rw [takeLeft, compared]; rfl⟩

end

/-! ### Sorting a list -/

section
variable {σ : Type} {h : Prog.Handler HostOp σ} {key : Value} {range : TokenRange}

theorem callRelon_ok {item k : Value} {s t : σ}
    (asked : (HostOp.ask (.callRelon key [item] range)).run h s = some (.ok k, t)) :
    h _ (.callRelon key [item] range) s = some (.ok k, t) := by
  obtain ⟨reply, m, sent, accepted⟩ := (Prog.run_bind_ok h).mp asked
  rw [Prog.run_send, Option.map_eq_some_iff] at sent
  obtain ⟨⟨reply', m'⟩, answer, same⟩ := sent
  cases same
  cases reply' with
  | error e => cases accepted
  | ok v =>
    cases accepted
    exact answer

/-- The keys are the closure's answers, one for each element. -/
theorem sortKeys_called {items keys : List Value} {s t : σ}
    (decorated : (sortKeys key range items).run h s = some (.ok keys, t)) :
    Forall₂ (fun item k => ∃ s t, h _ (.callRelon key [item] range) s = some (.ok k, t)) items
      keys := by
  induction items generalizing keys s with
  | nil =>
    cases decorated
    exact .nil
  | cons item items ih =>
    obtain ⟨_, _, -, called⟩ := (Prog.run_bind_ok h).mp decorated
    obtain ⟨k, _, asked, more⟩ := (Prog.run_bind_ok h).mp called
    obtain ⟨ks, _, rest, last⟩ := (Prog.run_bind_ok h).mp more
    cases last
    exact .cons ⟨_, _, callRelon_ok asked⟩ (ih rest)

/-- With the keys at hand, `list_sort_by_impl` is the sort of the positions. -/
theorem listSortByImpl_run {dir : SortDir} {items keys : List Value} {named : Assoc Value}
    {s t : σ} (decorated : (sortKeys key range items).run h s = some (.ok keys, t)) :
    (listSortByImpl dir [.list items, key] named range).run h s =
      some ((stableMergeSortIndices (takeLeft keys dir range) keys.length).map fun perm =>
        .list (perm.map fun i => items.getD i default), t) := by
  rw [listSortByImpl, Prog.run_bind, decorated]
  show (Prog.run h (Prog.ofExcept _ >>= _) t) = _
  cases stableMergeSortIndices (takeLeft keys dir range) keys.length with
  | error e => rfl
  | ok perm => rfl

theorem map_range_getD {items : List Value} :
    (List.range items.length).map (fun i => items.getD i default) = items := by
  apply ext_getElem
  · simp
  · intro i inside inside'
    simp [inside']

end

/-- A host whose key closure returns its argument. -/
def identityKeys : Prog.Handler HostOp Unit := fun _ op s =>
  match op with
  | .tick _ _ => some (.ok (), s)
  | .callRelon _ [v] _ => some (.ok v, s)
  | _ => none

end Relon.Eval.SortBy
