import Mathlib.Data.List.Infix

/-! Replacing the occurrences of a word.

From left to right, an occurrence of `old` gives `new` and the search goes on behind it. The
recursion is on the word searched; the elements of an occurrence that are still to be passed
over are counted. -/
namespace Relon.Splice
open List

variable {α : Type} [DecidableEq α] {old new pre rest : List α} {b : α}

/-- The elements of `old` ahead are passed over first. -/
def go (old new : List α) : Nat → List α → List α
  | _, [] => []
  | skip + 1, _ :: rest => go old new skip rest
  | 0, b :: rest =>
    if old <+: b :: rest then new ++ go old new (old.length - 1) rest else b :: go old new 0 rest

def replaced (old new : List α) (word : List α) : List α := go old new 0 word

theorem go_drop (skip : Nat) (word : List α) :
    go old new skip word = replaced old new (word.drop skip) := by
  induction skip generalizing word with
  | zero => rfl
  | succ skip ih =>
    cases word with
    | nil => rfl
    | cons b rest => exact ih rest

theorem replaced_nil : replaced old new [] = [] := rfl

theorem replaced_match (some_ : old ≠ []) :
    replaced old new (old ++ rest) = new ++ replaced old new rest := by
  cases old with
  | nil => exact absurd rfl some_
  | cons b tail =>
    have starts : b :: tail <+: b :: (tail ++ rest) := prefix_append (b :: tail) rest
    rw [replaced, cons_append, go, if_pos starts, go_drop]
    simp

theorem replaced_other (other : ¬ old <+: b :: rest) :
    replaced old new (b :: rest) = b :: replaced old new rest := by
  rw [replaced, go, if_neg other, replaced]

/-- Where no occurrence starts, nothing changes. -/
theorem replaced_append (clear : ∀ k < pre.length, ¬ old <+: pre.drop k ++ rest) :
    replaced old new (pre ++ rest) = pre ++ replaced old new rest := by
  induction pre with
  | nil => rfl
  | cons b pre ih =>
    have here : ¬ old <+: b :: (pre ++ rest) := clear 0 (by simp)
    rw [cons_append, replaced_other here, cons_append]
    refine congrArg (b :: ·) (ih fun k small => ?_)
    exact clear (k + 1) (by simpa using small)

/-! ### Cutting a word -/

/-- The piece up to the first occurrence of `sep`, and those behind it. -/
def cutGo (sep : List α) : Nat → List α → List α × List (List α)
  | _, [] => ([], [])
  | skip + 1, _ :: rest => cutGo sep skip rest
  | 0, b :: rest =>
    if sep <+: b :: rest then
      let r := cutGo sep (sep.length - 1) rest
      ([], r.1 :: r.2)
    else
      let r := cutGo sep 0 rest
      (b :: r.1, r.2)

def cut (sep word : List α) : List α × List (List α) := cutGo sep 0 word

/-- The word at every occurrence of `sep`, from left to right. -/
def pieces (sep word : List α) : List (List α) := (cut sep word).1 :: (cut sep word).2

theorem cutGo_drop (sep : List α) (skip : Nat) (word : List α) :
    cutGo sep skip word = cut sep (word.drop skip) := by
  induction skip generalizing word with
  | zero => rfl
  | succ skip ih =>
    cases word with
    | nil => rfl
    | cons b rest => exact ih rest

theorem cut_nil : cut old [] = ([], []) := rfl

theorem cut_match (some_ : old ≠ []) : cut old (old ++ rest) = ([], pieces old rest) := by
  cases old with
  | nil => exact absurd rfl some_
  | cons b tail =>
    have starts : b :: tail <+: b :: (tail ++ rest) := prefix_append (b :: tail) rest
    rw [cut, cons_append, cutGo, if_pos starts, cutGo_drop]
    simp [pieces]

theorem cut_other (other : ¬ old <+: b :: rest) :
    cut old (b :: rest) = (b :: (cut old rest).1, (cut old rest).2) := by
  rw [cut, cutGo, if_neg other, cut]

theorem cut_append (clear : ∀ k < pre.length, ¬ old <+: pre.drop k ++ rest) :
    cut old (pre ++ rest) = (pre ++ (cut old rest).1, (cut old rest).2) := by
  induction pre with
  | nil => rfl
  | cons b pre ih =>
    have here : ¬ old <+: b :: (pre ++ rest) := clear 0 (by simp)
    have behind := ih fun k small => clear (k + 1) (by simpa using small)
    rw [cons_append, cut_other here, behind, cons_append]

/-- Joining the pieces gives the word back. -/
theorem intercalate_pieces (some_ : old ≠ []) (word : List α) :
    old.intercalate (pieces old word) = word := by
  generalize size : word.length = n
  induction n using Nat.strongRecOn generalizing word with
  | ind n ih =>
    by_cases starts : old <+: word
    · obtain ⟨rest, rfl⟩ := starts
      have shorter : rest.length < n := by
        have := length_pos_iff.mpr some_
        rw [← size, length_append]
        omega
      have behind := ih _ shorter rest rfl
      rw [pieces, cut_match some_]
      rw [pieces] at behind ⊢
      simpa [List.intercalate] using behind
    · cases word with
      | nil => rfl
      | cons b rest =>
        have behind := ih rest.length (by rw [← size]; simp) rest rfl
        rw [pieces] at behind ⊢
        rw [cut_other starts]
        cases tail : (cut old rest).2 with
        | nil => simpa [List.intercalate, tail] using behind
        | cons x xs => simpa [List.intercalate, tail] using behind

end Relon.Splice
