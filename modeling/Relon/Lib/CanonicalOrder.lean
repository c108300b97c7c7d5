import Mathlib.Data.List.Sort
import Mathlib.Data.List.Chain
import Mathlib.Tactic.Ring

/-! Sorting between barriers.

Elements have a rank; rank zero is a barrier, a positive rank a mark. Reordering
sorts each run of marks by rank, stably, and moves nothing across a barrier. It
is written as a fold of `settle`, so that it is a congruence for concatenation
(`reorder_append_congr`): a list may be reordered piece by piece.

What reordering keeps is counted by `crossings`, the pairs of a mark and a later
barrier. Two lists with different counts are never reordered to the same list. -/
namespace Relon.CanonicalOrder
open List

variable {α : Type*} (rank : α → Nat)

/-- Put an element in front of a reordered list: a mark passes the marks of lower
rank, a barrier passes nothing. -/
def settle (c : α) : List α → List α
  | [] => [c]
  | d :: ds => if rank d = 0 ∨ rank c ≤ rank d then c :: d :: ds else d :: settle c ds

def reorder : List α → List α
  | [] => []
  | c :: cs => settle rank c (reorder cs)

/-- No mark stands directly before a mark of lower rank. -/
def Ordered : List α → Prop :=
  List.IsChain fun a b => rank b = 0 ∨ rank a ≤ rank b

section Reorder
variable {rank}

theorem settle_comm {c d : α} (hc : rank c ≠ 0) (hd : rank d ≠ 0) (ne : rank c ≠ rank d)
    (z : List α) : settle rank c (settle rank d z) = settle rank d (settle rank c z) := by
  induction z with
  | nil =>
    rcases Nat.lt_or_gt_of_ne ne with lt | lt
    · simp [settle, hc, hd, Nat.le_of_lt lt, Nat.not_le.mpr lt]
    · simp [settle, hc, hd, Nat.le_of_lt lt, Nat.not_le.mpr lt]
  | cons e z ih =>
    -- Whichever of the two ranks higher is the one that may pass `e` alone.
    by_cases passC : rank e = 0 ∨ rank c ≤ rank e
    · by_cases passD : rank e = 0 ∨ rank d ≤ rank e
      · rcases Nat.lt_or_gt_of_ne ne with lt | lt
        · simp [settle, passC, passD, hc, hd, Nat.le_of_lt lt, Nat.not_le.mpr lt]
        · simp [settle, passC, passD, hc, hd, Nat.le_of_lt lt, Nat.not_le.mpr lt]
      · have above : rank c ≤ rank e ∧ rank e < rank d := by omega
        have last : ¬ (rank c = 0 ∨ rank d ≤ rank c) := by omega
        simp [settle, passC, passD, last]
    · by_cases passD : rank e = 0 ∨ rank d ≤ rank e
      · have last : ¬ (rank d = 0 ∨ rank c ≤ rank d) := by omega
        simp [settle, passC, passD, last]
      · simp [settle, passC, passD, ih]

theorem settle_perm (c : α) (z : List α) : (settle rank c z).Perm (c :: z) := by
  induction z with
  | nil => exact List.Perm.refl _
  | cons d z ih =>
    simp only [settle]
    split
    · exact List.Perm.refl _
    · exact (ih.cons d).trans (List.Perm.swap c d z)

theorem reorder_perm (x : List α) : (reorder rank x).Perm x := by
  induction x with
  | nil => exact List.Perm.refl _
  | cons c x ih => exact (settle_perm c _).trans (ih.cons c)

variable {c : α} {p z : List α}

theorem settle_of_ordered (h : Ordered rank (c :: z)) : settle rank c z = c :: z := by
  cases z with
  | nil => rfl
  | cons d z => exact if_pos (isChain_cons_cons.mp h).1

theorem settle_ordered (c : α) (h : Ordered rank z) : Ordered rank (settle rank c z) := by
  induction z with
  | nil => exact isChain_singleton c
  | cons d z ih =>
    by_cases pass : rank d = 0 ∨ rank c ≤ rank d
    · simp only [settle, pass, if_true]
      exact isChain_cons_cons.mpr ⟨pass, h⟩
    · simp only [settle, pass, if_false]
      have tail : Ordered rank (settle rank c z) := ih h.tail
      cases z with
      | nil => exact isChain_cons_cons.mpr ⟨by omega, tail⟩
      | cons e z =>
        by_cases next : rank e = 0 ∨ rank c ≤ rank e
        · simp only [settle, next, if_true] at tail ⊢
          exact isChain_cons_cons.mpr ⟨by omega, tail⟩
        · simp only [settle, next, if_false] at tail ⊢
          exact isChain_cons_cons.mpr ⟨(isChain_cons_cons.mp h).1, tail⟩

theorem reorder_ordered (x : List α) : Ordered rank (reorder rank x) := by
  induction x with
  | nil => exact isChain_nil
  | cons c x ih => exact settle_ordered c ih

theorem reorder_of_ordered {x : List α} (h : Ordered rank x) : reorder rank x = x := by
  induction x with
  | nil => rfl
  | cons c x ih => rw [reorder, ih h.tail, settle_of_ordered h]

theorem reorder_settle_append (c : α) (w z : List α) :
    reorder rank (settle rank c w ++ z) = settle rank c (reorder rank (w ++ z)) := by
  induction w with
  | nil => rfl
  | cons d w ih =>
    by_cases pass : rank d = 0 ∨ rank c ≤ rank d
    · simp [settle, pass, reorder]
    · simp only [settle, pass, if_false, cons_append, reorder, ih]
      exact settle_comm (by omega) (by omega) (by omega) _

theorem reorder_append_left (x y : List α) :
    reorder rank (reorder rank x ++ y) = reorder rank (x ++ y) := by
  induction x with
  | nil => rfl
  | cons c x ih => rw [reorder, reorder_settle_append, ih, cons_append, reorder]

theorem reorder_append_right (x y : List α) :
    reorder rank (x ++ reorder rank y) = reorder rank (x ++ y) := by
  induction x with
  | nil => exact reorder_of_ordered (reorder_ordered y)
  | cons c x ih => rw [cons_append, cons_append, reorder, reorder, ih]

theorem reorder_append_congr {x x' y y' : List α} (hx : reorder rank x = reorder rank x')
    (hy : reorder rank y = reorder rank y') : reorder rank (x ++ y) = reorder rank (x' ++ y') := by
  calc reorder rank (x ++ y) = reorder rank (reorder rank x ++ reorder rank y) := by
        rw [reorder_append_left, reorder_append_right]
    _ = reorder rank (reorder rank x' ++ reorder rank y') := by rw [hx, hy]
    _ = reorder rank (x' ++ y') := by rw [reorder_append_left, reorder_append_right]

/-- A mark may be moved in front of marks of lower rank. -/
theorem reorder_pass (lower : ∀ m ∈ p, rank m ≠ 0 ∧ rank m < rank c) :
    reorder rank (c :: p) = reorder rank (p ++ [c]) := by
  induction p with
  | nil => rfl
  | cons m p ih =>
    have hm := lower m mem_cons_self
    have rest := ih fun n hn => lower n (mem_cons_of_mem m hn)
    rw [cons_append, reorder, reorder, reorder, ← rest, reorder]
    exact settle_comm (by omega) hm.1 (by omega) _

theorem reorder_barrier (hc : rank c = 0) (z : List α) :
    reorder rank (c :: z) = c :: reorder rank z := by
  rw [reorder]
  cases reorder rank z with
  | nil => rfl
  | cons d w => simp [settle, hc]

theorem settle_eq_orderedInsert (c : α) {l w : List α} (marks : ∀ m ∈ l, rank m ≠ 0)
    (stop : ∀ d ∈ w.head?, rank d = 0) :
    settle rank c (l ++ w) = l.orderedInsert (fun a b => rank a ≤ rank b) c ++ w := by
  induction l with
  | nil =>
    cases w with
    | nil => rfl
    | cons d w => simp [settle, stop d rfl]
  | cons m l ih =>
    have hm := marks m mem_cons_self
    have rest := ih fun n hn => marks n (mem_cons_of_mem m hn)
    by_cases le : rank c ≤ rank m
    · simp [settle, List.orderedInsert, le]
    · simp [settle, List.orderedInsert, le, hm, rest]

/-- A run of marks in front of a barrier, or at the end, is sorted. -/
theorem reorder_run (marks : ∀ m ∈ p, rank m ≠ 0) (stop : ∀ d ∈ (reorder rank z).head?, rank d = 0) :
    reorder rank (p ++ z) = p.insertionSort (fun a b => rank a ≤ rank b) ++ reorder rank z := by
  induction p with
  | nil => rfl
  | cons m p ih =>
    have rest := ih fun n hn => marks n (mem_cons_of_mem m hn)
    rw [cons_append, reorder, rest, insertionSort_cons]
    refine settle_eq_orderedInsert m (fun n hn => marks n (mem_cons_of_mem m ?_)) stop
    exact (perm_insertionSort _ p).mem_iff.mp hn

end Reorder

def barriers (x : List α) : Nat := x.countP fun c => rank c = 0

def marks (x : List α) : Nat := x.countP fun c => rank c ≠ 0

/-- The pairs of a mark and a barrier after it. -/
def crossings : List α → Nat
  | [] => 0
  | c :: cs => (if rank c = 0 then 0 else barriers rank cs) + crossings cs

section Crossings
variable {rank}

theorem crossings_append (x y : List α) : crossings rank (x ++ y) =
      crossings rank x + marks rank x * barriers rank y + crossings rank y := by
  induction x with
  | nil => simp [crossings, marks]
  | cons c x ih =>
    by_cases hc : rank c = 0
    · simp [crossings, marks, hc, ih]
    · simp only [cons_append, crossings, hc, if_false, ih, marks, barriers,
        countP_append, countP_cons, ne_eq, not_false_eq_true, decide_true, if_true]
      ring

variable {p x y : List α} {c : α}

theorem barriers_perm (h : x.Perm y) : barriers rank x = barriers rank y :=
  h.countP_eq _

theorem marks_perm (h : x.Perm y) : marks rank x = marks rank y :=
  h.countP_eq _

theorem crossings_settle (c : α) (z : List α) :
    crossings rank (settle rank c z) = crossings rank (c :: z) := by
  induction z with
  | nil => rfl
  | cons d z ih =>
    by_cases pass : rank d = 0 ∨ rank c ≤ rank d
    · simp [settle, pass]
    · have hd : rank d ≠ 0 := by omega
      have hc : rank c ≠ 0 := by omega
      have same : barriers rank (settle rank c z) = barriers rank z := by
        rw [barriers_perm (settle_perm c z)]
        simp [barriers, hc]
      have same' : barriers rank (d :: z) = barriers rank z := by simp [barriers, hd]
      rw [settle, if_neg pass, crossings, if_neg hd, same, ih, crossings, if_neg hc, crossings,
        if_neg hc, crossings, if_neg hd, same']

theorem crossings_reorder (x : List α) : crossings rank (reorder rank x) = crossings rank x := by
  induction x with
  | nil => rfl
  | cons c x ih =>
    rw [reorder, crossings_settle]
    simp only [crossings, ih, barriers_perm (reorder_perm x)]

theorem crossings_of_reorder_eq (h : reorder rank x = reorder rank y) :
    crossings rank x = crossings rank y := by
  rw [← crossings_reorder x, h, crossings_reorder]

theorem perm_of_reorder_eq (h : reorder rank x = reorder rank y) : x.Perm y :=
  (reorder_perm x).symm.trans (h ▸ reorder_perm y)

theorem crossings_perm_right (h : x.Perm y) (c : α) : crossings rank (x ++ [c]) + crossings rank y =
      crossings rank (y ++ [c]) + crossings rank x := by
  rw [crossings_append, crossings_append, marks_perm h]
  omega

/-- A mark moved in front of marks crosses as before. -/
theorem crossings_pass (hc : rank c ≠ 0) (f : List α) (hp : ∀ m ∈ p, rank m ≠ 0) :
    crossings rank (f ++ c :: p) = crossings rank (f ++ (p ++ [c])) := by
  have none : ∀ l : List α, (∀ m ∈ l, rank m ≠ 0) → crossings rank l = 0 := by
    intro l hl
    induction l with
    | nil => rfl
    | cons m l ih =>
      have rest : ∀ n ∈ l, rank n ≠ 0 := fun n hn => hl n (mem_cons_of_mem m hn)
      have zero : barriers rank l = 0 := by simpa [barriers, countP_eq_zero] using rest
      simp [crossings, ih rest, zero]
  have swapped : (c :: p).Perm (p ++ [c]) := (perm_append_singleton c p).symm
  have all : ∀ m ∈ c :: p, rank m ≠ 0 := by
    intro m hm
    rcases mem_cons.mp hm with rfl | hm
    · exact hc
    · exact hp m hm
  rw [crossings_append f, crossings_append f, barriers_perm swapped, none _ all,
    none _ fun m hm => all m (swapped.mem_iff.mpr hm)]

/-- A barrier moved in front of marks loses the crossings it made with them. -/
theorem crossings_leap (hc : rank c = 0) (f : List α) (ne : p ≠ []) (hp : ∀ m ∈ p, rank m ≠ 0) :
    crossings rank (f ++ c :: p) < crossings rank (f ++ (p ++ [c])) := by
  have count : marks rank p = p.length := by
    simpa [marks, countP_eq_length] using hp
  have positive : 0 < p.length := length_pos_iff.mpr ne
  have swapped : barriers rank (c :: p) = barriers rank (p ++ [c]) :=
    barriers_perm (perm_append_singleton c p).symm
  rw [crossings_append f, crossings_append f, crossings_append p, swapped, count]
  simp only [crossings, hc, if_true, barriers, countP_cons, countP_nil, decide_true]
  omega

end Crossings

end Relon.CanonicalOrder
