import Relon.Eval.Reference

/-! Path cache keys name one path each.

A key spells every segment after its length in bytes, so that no segment, whatever
characters it has, is taken for two or for part of another. -/
namespace Relon.Eval
open List

namespace PathKey

/-- A segment as a key spells it. -/
def segment (p : String) : String := toString p.utf8ByteSize ++ ":" ++ p

theorem toList_toString (n : Nat) : (toString n).toList = Nat.toDigits 10 n := by
  rw [Nat.toString_eq_ofList_toDigits, String.toList_ofList]

/-- A number ends at the first character that is no digit. -/
theorem takeWhile_toDigits {c : Char} (hc : c.isDigit = false) (n : Nat) (rest : List Char) :
    (Nat.toDigits 10 n ++ c :: rest).takeWhile Char.isDigit = Nat.toDigits 10 n := by
  rw [takeWhile_append_of_pos fun _ digit => Nat.isDigit_of_mem_toDigits (by decide) (by decide) digit,
    takeWhile_cons_of_neg (by simp [hc]), append_nil]

theorem toDigits_append_inj {c d : Char} {m n : Nat} {r s : List Char} (hc : c.isDigit = false)
    (hd : d.isDigit = false) (h : Nat.toDigits 10 m ++ c :: r = Nat.toDigits 10 n ++ d :: s) :
    m = n ∧ c :: r = d :: s := by
  have digits := congrArg (List.takeWhile Char.isDigit) h
  rw [takeWhile_toDigits hc, takeWhile_toDigits hd] at digits
  rw [digits] at h
  refine ⟨?_, append_cancel_left h⟩
  calc
    m = Nat.ofDigitChars 10 (Nat.toDigits 10 m) 0 := Nat.ofDigitChars_ten_toDigits.symm
    _ = n := by rw [digits, Nat.ofDigitChars_ten_toDigits]

/-- Two texts that begin alike have the same beginning of each size. -/
theorem append_inj_of_size {p q : String} {r s : List Char} (h : p.toList ++ r = q.toList ++ s)
    (size : p.utf8ByteSize = q.utf8ByteSize) : p = q ∧ r = s := by
  have within : ∀ {p q : String} {more : List Char}, p.utf8ByteSize = q.utf8ByteSize →
      p.toList = q.toList ++ more → p = q ∧ more = [] := by
    intro p q more size h
    have split : p = q ++ String.ofList more := by
      rw [← String.toList_inj, String.toList_append, String.toList_ofList, h]
    rw [split, String.utf8ByteSize_append] at size
    have empty : (String.ofList more) = "" := String.utf8ByteSize_eq_zero_iff.mp (by omega)
    rw [empty, String.append_empty] at split
    exact ⟨split, by simpa using congrArg String.toList empty⟩
  cases append_eq_append_iff.mp h with
  | inl longer =>
    obtain ⟨more, hq, hr⟩ := longer
    obtain ⟨same, rfl⟩ := within size.symm hq
    exact ⟨same.symm, hr⟩
  | inr longer =>
    obtain ⟨more, hp, hs⟩ := longer
    obtain ⟨same, rfl⟩ := within size hp
    exact ⟨same, hs.symm⟩

theorem segment_append_inj {p q : String} {r s : List Char}
    (h : (segment p).toList ++ r = (segment q).toList ++ s) : p = q ∧ r = s := by
  simp only [segment, String.toList_append, append_assoc, toList_toString] at h
  obtain ⟨size, rest⟩ := toDigits_append_inj rfl rfl h
  exact append_inj_of_size (List.cons.inj rest).2 size

/-- The segments of a path with `/` between them. -/
def joined (path : List String) : String := "/".intercalate (path.map segment)

/-- What follows the first segment. -/
def rest : List String → List Char
  | [] => []
  | p :: ps => '/' :: (joined (p :: ps)).toList

theorem joined_cons (p : String) (ps : List String) :
    (joined (p :: ps)).toList = (segment p).toList ++ rest ps := by
  cases ps with
  | nil => simp [joined, rest]
  | cons q qs =>
    simp only [joined, rest, map_cons, String.intercalate_cons_cons, String.toList_append,
      append_assoc]
    rfl

theorem joined_cons_ne_nil (p : String) (ps : List String) : (joined (p :: ps)).toList ≠ [] := by
  rw [joined_cons, segment]
  simp

theorem joined_inj {ps qs : List String} (h : (joined ps).toList = (joined qs).toList) :
    ps = qs := by
  induction ps generalizing qs with
  | nil =>
    cases qs with
    | nil => rfl
    | cons q qs => exact absurd h.symm (joined_cons_ne_nil q qs)
  | cons p ps ih =>
    cases qs with
    | nil => exact absurd h (joined_cons_ne_nil p ps)
    | cons q qs =>
      rw [joined_cons, joined_cons] at h
      obtain ⟨same, tails⟩ := segment_append_inj h
      rw [same]
      cases ps with
      | nil =>
        cases qs with
        | nil => rfl
        | cons _ _ => cases tails
      | cons _ _ =>
        cases qs with
        | nil => cases tails
        | cons _ _ => rw [ih (List.cons.inj tails).2]

end PathKey

open PathKey

namespace Scope

theorem pathCacheKey_inj {s : Scope} {p q : List String} (h : s.pathCacheKey p = s.pathCacheKey q) :
    p = q := by
  have keys := congrArg String.toList h
  simp only [pathCacheKey, String.toList_append] at keys
  exact joined_inj (append_cancel_left keys)

end Scope

/-- The marker of a reference key, before its bar. -/
def ownerTag : Option Nat → List Char
  | none => ['x']
  | some n => 'o' :: Nat.toDigits 10 n

theorem takeWhile_ownerTag (depth : Option Nat) (more : List Char) :
    (ownerTag depth ++ '|' :: more).takeWhile (· != '|') = ownerTag depth := by
  have plain : ∀ c ∈ ownerTag depth, (c != '|') = true := by
    intro c hc
    cases depth with
    | none =>
      rw [mem_singleton.mp hc]
      decide
    | some n =>
      cases mem_cons.mp hc with
      | inl first => rw [first]; decide
      | inr digit =>
        have isDigit := Nat.isDigit_of_mem_toDigits (by decide) (by decide) digit
        rw [bne_iff_ne]
        rintro rfl
        exact absurd isDigit (by decide)
  rw [takeWhile_append_of_pos plain, takeWhile_cons_of_neg (by decide), append_nil]

theorem referenceCacheKey_toList {scope : Scope} {target : List TokenKey} {depth : Option Nat}
    {key : String} (h : referenceCacheKey scope target depth = some key) : key.toList =
      ownerTag depth ++ '|' :: (scope.pathCacheKey (target.map TokenKey.name)).toList := by
  unfold referenceCacheKey at h
  split at h
  · cases h
  · cases h
    cases depth <;> simp [String.toList_append, ownerTag]

/-- Two references kept under one key have the same target. -/
theorem referenceCacheKey_inj {scope : Scope} {p q : List TokenKey} {m n : Option Nat} {key : String}
    (hp : referenceCacheKey scope p m = some key) (hq : referenceCacheKey scope q n = some key) :
    p.map TokenKey.name = q.map TokenKey.name := by
  have h := (referenceCacheKey_toList hp).symm.trans (referenceCacheKey_toList hq)
  have tags := congrArg (List.takeWhile (· != '|')) h
  rw [takeWhile_ownerTag, takeWhile_ownerTag] at tags
  rw [tags] at h
  exact Scope.pathCacheKey_inj (String.toList_inj.mp (List.cons.inj (append_cancel_left h)).2)

end Relon.Eval
