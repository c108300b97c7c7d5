import Mathlib.Data.List.Basic
import Mathlib.Algebra.Order.Group.Nat

/-! Flat buffers: alignment, slices, in-place writes, little-endian words.

A buffer is a list of cells. `slice` reads a window, `patch` overwrites one in
place (Rust's `buf[a..b].copy_from_slice(src)`), and `Holds l p xs` says that
`xs` stands at position `p` of `l`. The three are over any cell type: the same
lemmas serve byte buffers and the symbolic images of `Relon.Lib.Image`. -/
namespace Relon.Bytes
open List

/-! ### Alignment -/

/-- Rust's `next_multiple_of`: the least multiple of `a` at or above `n`. -/
def alignUp (n a : Nat) : Nat :=
  if n % a = 0 then n else n + (a - n % a)

theorem alignUp_one (n : Nat) : alignUp n 1 = n := by
  simp [alignUp, Nat.mod_one]

theorem le_alignUp (n a : Nat) : n ≤ alignUp n a := by
  unfold alignUp
  split <;> omega

theorem alignUp_lt {n a : Nat} (h : 0 < a) : alignUp n a < n + a := by
  unfold alignUp
  have := Nat.mod_lt n h
  split <;> omega

theorem dvd_alignUp {n a : Nat} (h : 0 < a) : a ∣ alignUp n a := by
  unfold alignUp
  split
  · exact Nat.dvd_of_mod_eq_zero ‹_›
  · have hlt := Nat.mod_lt n h
    have hdiv := Nat.div_add_mod n a
    refine ⟨n / a + 1, ?_⟩
    rw [Nat.mul_add, Nat.mul_one]
    omega

/-- Alignment commutes with a shift by a multiple of the alignment. -/
theorem alignUp_add_of_dvd {a q : Nat} (n : Nat) (h : a ∣ q) : alignUp (n + q) a = alignUp n a + q := by
  have hmod : (n + q) % a = n % a := by
    obtain ⟨c, rfl⟩ := h
    exact Nat.add_mul_mod_self_left n a c
  unfold alignUp
  rw [hmod]
  split <;> omega

theorem alignUp_of_dvd {n a : Nat} (h : a ∣ n) : alignUp n a = n := by
  simp [alignUp, Nat.mod_eq_zero_of_dvd h]

/-! ### Windows -/

section Windows
variable {α : Type*}

/-- The `n` cells from `off` on. -/
def slice (l : List α) (off n : Nat) : List α := (l.drop off).take n

/-- Overwrite the cells from `off` on by `src`. -/
def patch (l : List α) (off : Nat) (src : List α) : List α :=
  l.take off ++ src ++ l.drop (off + src.length)

/-- `xs` stands at `p` in `l`. -/
def Holds (l : List α) (p : Nat) (xs : List α) : Prop :=
  ∀ k x, xs[k]? = some x → l[p + k]? = some x

variable {l m : List α} {p q : Nat} {xs ys : List α}

@[simp] theorem holds_nil : Holds l p [] := by
  intro k x h
  simp at h

theorem holds_cons {x : α} : Holds l p (x :: xs) ↔ l[p]? = some x ∧ Holds l (p + 1) xs := by
  constructor
  · intro h
    refine ⟨h 0 x rfl, fun k y hy => ?_⟩
    have := h (k + 1) y (by simpa using hy)
    rwa [show p + 1 + k = p + (k + 1) by omega]
  · rintro ⟨h0, hs⟩ k y hy
    cases k with
    | zero => simpa [← (show x = y by simpa using hy)] using h0
    | succ k =>
      have := hs k y (by simpa using hy)
      rwa [show p + (k + 1) = p + 1 + k by omega]

theorem holds_append : Holds l p (xs ++ ys) ↔ Holds l p xs ∧ Holds l (p + xs.length) ys := by
  induction xs generalizing p with
  | nil => simp
  | cons x xs ih =>
    rw [cons_append, holds_cons, holds_cons, ih, length_cons,
      show p + 1 + xs.length = p + (xs.length + 1) by omega, and_assoc]

/-- A nonempty window that holds is inside the buffer. -/
theorem Holds.le_length (h : Holds l p xs) (hne : xs ≠ []) : p + xs.length ≤ l.length := by
  obtain ⟨x, hx⟩ : ∃ x, xs[xs.length - 1]? = some x := by
    have := length_pos_iff.mpr hne
    exact ⟨xs[xs.length - 1], List.getElem?_eq_getElem (by omega)⟩
  obtain ⟨hlt, -⟩ := List.getElem?_eq_some_iff.mp (h _ _ hx)
  have := length_pos_iff.mpr hne
  omega

theorem slice_of_holds (h : Holds l p xs) : slice l p xs.length = xs := by
  apply ext_getElem?
  intro k
  by_cases hk : k < xs.length
  · obtain ⟨x, hx⟩ : ∃ x, xs[k]? = some x := ⟨_, List.getElem?_eq_getElem hk⟩
    rw [hx, slice, List.getElem?_take_of_lt hk, List.getElem?_drop]
    exact h k x hx
  · rw [slice, List.getElem?_take_eq_none (by omega), List.getElem?_eq_none (by omega)]

theorem getElem?_slice {n k : Nat} (hk : k < n) : (slice l p n)[k]? = l[p + k]? := by
  rw [slice, List.getElem?_take_of_lt hk, List.getElem?_drop]

/-- Two buffers that agree on a window have the same slice there. -/
theorem slice_congr {n : Nat} (h : ∀ k < n, l[p + k]? = m[p + k]?) : slice l p n = slice m p n := by
  apply ext_getElem?
  intro k
  by_cases hk : k < n
  · rw [getElem?_slice hk, getElem?_slice hk, h k hk]
  · rw [slice, slice, List.getElem?_take_eq_none (by omega), List.getElem?_take_eq_none (by omega)]

theorem length_patch (h : p + xs.length ≤ l.length) : (patch l p xs).length = l.length := by
  simp only [patch, length_append, length_take, length_drop]
  omega

theorem le_length_patch (l : List α) (p : Nat) (xs : List α) : l.length ≤ (patch l p xs).length := by
  simp only [patch, length_append, length_take, length_drop]
  omega

theorem getElem?_patch_lt {i : Nat} (hp : p ≤ l.length) (h : i < p) : (patch l p xs)[i]? = l[i]? := by
  rw [patch, append_assoc, List.getElem?_append_left (by rw [length_take]; omega),
    List.getElem?_take_of_lt h]

theorem getElem?_patch_ge {i : Nat} (hp : p + xs.length ≤ l.length) (h : p + xs.length ≤ i) :
    (patch l p xs)[i]? = l[i]? := by
  rw [patch, List.getElem?_append_right (by simp only [length_append, length_take]; omega),
    List.getElem?_drop]
  congr 1
  simp only [length_append, length_take]
  omega

theorem getElem?_patch_in {k : Nat} (hp : p ≤ l.length) (h : k < xs.length) :
    (patch l p xs)[p + k]? = xs[k]? := by
  have htake : (l.take p).length = p := by rw [length_take]; omega
  rw [patch, append_assoc, List.getElem?_append_right (by omega), htake,
    Nat.add_sub_cancel_left, List.getElem?_append_left h]

/-- A write is readable where it was made. -/
theorem holds_patch (hp : p ≤ l.length) : Holds (patch l p xs) p xs := by
  intro k x hx
  have hk : k < xs.length := (List.getElem?_eq_some_iff.mp hx).1
  rw [getElem?_patch_in hp hk, hx]

/-- A write leaves every other cell alone. -/
theorem getElem?_patch_of_disjoint {i : Nat} (hp : p + xs.length ≤ l.length)
    (h : i < p ∨ p + xs.length ≤ i) : (patch l p xs)[i]? = l[i]? := by
  rcases h with h | h
  · exact getElem?_patch_lt (by omega) h
  · exact getElem?_patch_ge hp h

theorem holds_append_right (a b : List α) : Holds (a ++ b) a.length b := by
  intro k x hx
  rw [List.getElem?_append_right (by omega), Nat.add_sub_cancel_left, hx]

theorem Holds.append_right (h : Holds l p xs) (pre : List α) : Holds (pre ++ l) (p + pre.length) xs := by
  intro k x hx
  rw [show p + pre.length + k = pre.length + (p + k) by omega, List.getElem?_append_right (by omega),
    Nat.add_sub_cancel_left]
  exact h k x hx

theorem Holds.append_left (h : Holds l p xs) (post : List α) : Holds (l ++ post) p xs := by
  intro k x hx
  have := h k x hx
  rw [List.getElem?_append_left (List.getElem?_eq_some_iff.mp this).1, this]

theorem Holds.congr (h : Holds l p xs) (hs : ∀ i, p ≤ i → i < p + xs.length → m[i]? = l[i]?) :
    Holds m p xs := by
  intro k x hx
  have hk := (List.getElem?_eq_some_iff.mp hx).1
  rw [hs (p + k) (by omega) (by omega)]
  exact h k x hx

theorem Holds.map {β : Type*} (f : α → β) (h : Holds l p xs) : Holds (l.map f) p (xs.map f) := by
  intro k y hy
  rw [List.getElem?_map, Option.map_eq_some_iff] at hy ⊢
  obtain ⟨x, hx, rfl⟩ := hy
  exact ⟨x, h k x hx, rfl⟩

end Windows

/-! ### Little-endian words -/

/-- Byte `k` of `n`, least significant first. -/
def leByte (n k : Nat) : UInt8 := UInt8.ofNat (n / 256 ^ k)

/-- The `w` low bytes of `n`, least significant first. -/
def leBytes : Nat → Nat → List UInt8
  | 0, _ => []
  | w + 1, n => UInt8.ofNat n :: leBytes w (n / 256)

/-- The number a little-endian byte string spells. -/
def leNat : List UInt8 → Nat
  | [] => 0
  | b :: bs => b.toNat + 256 * leNat bs

@[simp] theorem length_leBytes (w n : Nat) : (leBytes w n).length = w := by
  induction w generalizing n with
  | zero => rfl
  | succ w ih => simp [leBytes, ih]

theorem leNat_leBytes {w n : Nat} (h : n < 256 ^ w) : leNat (leBytes w n) = n := by
  induction w generalizing n with
  | zero => simp at h; simp [leBytes, leNat, h]
  | succ w ih =>
    have hdiv : n / 256 < 256 ^ w := by
      rw [Nat.pow_succ] at h
      exact Nat.div_lt_of_lt_mul (by omega)
    rw [leBytes, leNat, ih hdiv, UInt8.toNat_ofNat']
    omega

theorem leNat_lt (bs : List UInt8) : leNat bs < 256 ^ bs.length := by
  induction bs with
  | nil => simp [leNat]
  | cons b bs ih =>
    have := b.toNat_lt
    rw [leNat, length_cons, Nat.pow_succ]
    omega

end Relon.Bytes
