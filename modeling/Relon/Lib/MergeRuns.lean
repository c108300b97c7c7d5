import Mathlib.Data.List.Perm.Basic
import Mathlib.Data.List.TakeDrop
import Relon.Lib.Except

/-! Merging sorted runs with a test that may fail.

`merge` asks its test which of two heads goes first and gives up when the test does. `pass`
merges the runs of a list two by two, runs being of one width, the last one perhaps
shorter. `pass_run` says what the runs are after it. -/
namespace Relon.MergeRuns
open List

variable {α ε : Type}

/-- The merge of two runs; the test says whether the head of the left one goes first. -/
def merge (test : α → α → Except ε Bool) : List α → List α → Except ε (List α)
  | [], ys => .ok ys
  | x :: xs, [] => .ok (x :: xs)
  | x :: xs, y :: ys =>
    match test x y with
    | .error e => .error e
    | .ok true => (merge test xs (y :: ys)).map (x :: ·)
    | .ok false => (merge test (x :: xs) ys).map (y :: ·)
termination_by xs ys => xs.length + ys.length

section merge
variable {test : α → α → Except ε Bool} {xs ys zs : List α}

@[simp] theorem merge_nil_left : merge test [] ys = .ok ys := by rw [merge]

@[simp] theorem merge_nil_right : merge test xs [] = .ok xs := by
  cases xs with
  | nil => rw [merge]
  | cons x xs => rw [merge]

theorem merge_perm (done : merge test xs ys = .ok zs) : zs.Perm (xs ++ ys) := by
  fun_induction merge test xs ys generalizing zs with
  | case1 ys => exact Except.ok.inj done ▸ .refl _
  | case2 x xs =>
    rw [append_nil]
    exact Except.ok.inj done ▸ .refl _
  | case3 x xs y ys e failed => cases done
  | case4 x xs y ys left ih =>
    obtain ⟨rest, merged, rfl⟩ := Except.map_eq_ok.mp done
    exact (ih merged).cons x
  | case5 x xs y ys right ih =>
    obtain ⟨rest, merged, rfl⟩ := Except.map_eq_ok.mp done
    exact ((ih merged).cons y).trans perm_middle.symm

theorem merge_length (done : merge test xs ys = .ok zs) : zs.length = xs.length + ys.length := by
  rw [(merge_perm done).length_eq, length_append]

/-- Runs in order stay in order, if the test puts the right head first. -/
theorem merge_pairwise {R : α → α → Prop} (trans : ∀ {a b c}, R a b → R b c → R a c)
    (left : ∀ a ∈ xs, ∀ b ∈ ys, test a b = .ok true → R a b)
    (right : ∀ a ∈ xs, ∀ b ∈ ys, test a b = .ok false → R b a)
    (first : xs.Pairwise R) (second : ys.Pairwise R) (done : merge test xs ys = .ok zs) :
    zs.Pairwise R := by
  fun_induction merge test xs ys generalizing zs with
  | case1 ys => exact Except.ok.inj done ▸ second
  | case2 x xs => exact Except.ok.inj done ▸ first
  | case3 x xs y ys e failed => cases done
  | case4 x xs y ys chosen ih =>
    obtain ⟨rest, merged, rfl⟩ := Except.map_eq_ok.mp done
    obtain ⟨head, tail⟩ := pairwise_cons.mp first
    have ahead : R x y := left x (by simp) y (by simp) chosen
    have sorted := ih (fun a mem => left a (mem_cons_of_mem _ mem))
      (fun a mem => right a (mem_cons_of_mem _ mem)) tail second merged
    refine pairwise_cons.mpr ⟨fun z mem => ?_, sorted⟩
    obtain here | here := mem_append.mp ((merge_perm merged).mem_iff.mp mem)
    · exact head z here
    · obtain rfl | here := mem_cons.mp here
      · exact ahead
      · exact trans ahead ((pairwise_cons.mp second).1 z here)
  | case5 x xs y ys chosen ih =>
    obtain ⟨rest, merged, rfl⟩ := Except.map_eq_ok.mp done
    obtain ⟨head, tail⟩ := pairwise_cons.mp second
    have ahead : R y x := right x (by simp) y (by simp) chosen
    have sorted := ih (fun a ha b mem => left a ha b (mem_cons_of_mem _ mem))
      (fun a ha b mem => right a ha b (mem_cons_of_mem _ mem)) first tail merged
    refine pairwise_cons.mpr ⟨fun z mem => ?_, sorted⟩
    obtain here | here := mem_append.mp ((merge_perm merged).mem_iff.mp mem)
    · obtain rfl | here := mem_cons.mp here
      · exact ahead
      · exact trans ahead ((pairwise_cons.mp first).1 z here)
    · exact head z here

/-- A test that answers on every pair lets the merge go through. -/
theorem merge_total (answers : ∀ a ∈ xs, ∀ b ∈ ys, ∃ r, test a b = .ok r) :
    ∃ zs, merge test xs ys = .ok zs := by
  fun_induction merge test xs ys with
  | case1 ys => exact ⟨ys, rfl⟩
  | case2 x xs => exact ⟨x :: xs, rfl⟩
  | case3 x xs y ys e failed =>
    obtain ⟨r, answer⟩ := answers x (by simp) y (by simp)
    cases failed.symm.trans answer
  | case4 x xs y ys left ih =>
    obtain ⟨rest, done⟩ := ih fun a ha => answers a (mem_cons_of_mem _ ha)
    exact ⟨x :: rest, by simp [done, Except.map]⟩
  | case5 x xs y ys right ih =>
    obtain ⟨rest, done⟩ := ih fun a ha b hb => answers a ha b (mem_cons_of_mem _ hb)
    exact ⟨y :: rest, by simp [done, Except.map]⟩

end merge

/-- The run of the given number, in a list of runs of width `w`. -/
def chunk (w k : Nat) (xs : List α) : List α := (xs.drop (k * w)).take w

/-- One pass: the runs of width `w`, two by two. -/
def pass (test : α → α → Except ε Bool) (w : Nat) (pos : 0 < w) (xs : List α) : Except ε (List α) :=
  if xs = [] then .ok []
  else do
    let run ← merge test (xs.take w) ((xs.drop w).take w)
    let rest ← pass test w pos (xs.drop (2 * w))
    .ok (run ++ rest)
termination_by xs.length
decreasing_by
  have := length_pos_iff.mpr ‹_›
  simp only [length_drop]
  omega

section pass
variable {test : α → α → Except ε Bool} {w : Nat} {pos : 0 < w} {xs ys : List α}

theorem chunk_drop (w k : Nat) (xs : List α) (m : Nat) :
    chunk w (m + k) xs = chunk w k (xs.drop (m * w)) := by
  simp only [chunk, drop_drop, Nat.add_mul]

theorem chunk_double (w k : Nat) (xs : List α) :
    chunk (2 * w) k xs = chunk w (2 * k) xs ++ chunk w (2 * k + 1) xs := by
  have same : k * (w + w) = 2 * k * w := by simp only [Nat.mul_add, Nat.two_mul, Nat.add_mul]
  simp only [chunk, Nat.two_mul w, same, take_add, drop_drop, Nat.add_mul, Nat.one_mul]

/-- A pass makes of each two neighbouring runs their merge. -/
theorem pass_run (done : pass test w pos xs = .ok ys) : ys.length = xs.length ∧
      ∀ k, merge test (chunk w (2 * k) xs) (chunk w (2 * k + 1) xs) = .ok (chunk (2 * w) k ys) := by
  fun_induction pass test w pos xs generalizing ys with
  | case1 =>
    cases done
    simp [chunk]
  | case2 xs some_ ih =>
    obtain ⟨run, merged, more⟩ := Except.bind_eq_ok.mp done
    obtain ⟨rest, passed, eq⟩ := Except.bind_eq_ok.mp more
    cases eq
    obtain ⟨lengths, runs⟩ := ih passed
    have size := merge_length merged
    simp only [length_take, length_drop] at size lengths
    -- the first merge is of full width, or there is nothing after it
    have full : run.length = 2 * w ∨ run.length ≤ 2 * w ∧ rest = [] := by
      rw [← length_eq_zero_iff]
      omega
    constructor
    · simp only [length_append]
      omega
    · intro k
      cases k with
      | zero =>
        have first : chunk (2 * w) 0 (run ++ rest) = run := by
          obtain exact_ | ⟨short, rfl⟩ := full
          · simp [chunk, ← exact_]
          · simpa [chunk] using short
        rw [first]
        simpa [chunk] using merged
      | succ k =>
        have later : chunk (2 * w) (k + 1) (run ++ rest) = chunk (2 * w) k rest := by
          rw [Nat.add_comm, chunk_drop, Nat.one_mul]
          obtain exact_ | ⟨short, rfl⟩ := full
          · rw [← exact_, drop_left]
          · rw [append_nil, drop_eq_nil_of_le short]
        have even : 2 * (k + 1) = 2 + 2 * k := by omega
        rw [later, even, Nat.add_assoc, chunk_drop, chunk_drop]
        exact runs k
theorem pass_perm (done : pass test w pos xs = .ok ys) : ys.Perm xs := by
  fun_induction pass test w pos xs generalizing ys with
  | case1 => exact Except.ok.inj done ▸ .refl _
  | case2 xs some_ ih =>
    obtain ⟨run, merged, more⟩ := Except.bind_eq_ok.mp done
    obtain ⟨rest, passed, eq⟩ := Except.bind_eq_ok.mp more
    cases eq
    have parts : xs = (xs.take w ++ (xs.drop w).take w) ++ xs.drop (2 * w) := by
      rw [Nat.two_mul, ← drop_drop, append_assoc, take_append_drop, take_append_drop]
    rw [parts]
    exact (merge_perm merged).append (ih passed)

theorem pass_total (answers : ∀ a ∈ xs, ∀ b ∈ xs, ∃ r, test a b = .ok r) :
    ∃ ys, pass test w pos xs = .ok ys := by
  fun_induction pass test w pos xs with
  | case1 => exact ⟨[], rfl⟩
  | case2 xs some_ ih =>
    obtain ⟨run, merged⟩ : ∃ run, merge test (xs.take w) ((xs.drop w).take w) = .ok run :=
      merge_total fun a ha b hb =>
        answers a (mem_of_mem_take ha) b (mem_of_mem_drop (mem_of_mem_take hb))
    obtain ⟨rest, passed⟩ := ih fun a ha b hb =>
      answers a (mem_of_mem_drop ha) b (mem_of_mem_drop hb)
    exact ⟨run ++ rest, by rw [merged, passed]; rfl⟩

end pass

end Relon.MergeRuns
