import Mathlib.Data.BitVec
import Relon.Lib.Bytes

/-! Byte memory of a 64-bit machine, and rounding of machine words.

`Memory` maps every address to a byte. A region is looked at from its base: `view`
reads the byte at an offset, and two offsets that fit in 64 bits never meet, so that
writes through one leave the other alone. -/
namespace Relon

open Bytes BitVec

/-! ### Rounding by masks -/

namespace Words

variable {w : Nat}

theorem toNat_mask (x : BitVec w) (k : Nat) :
    (x &&& BitVec.allOnes w <<< k).toNat = x.toNat / 2 ^ k * 2 ^ k := by
  have bound : x.toNat / 2 ^ k * 2 ^ k < 2 ^ w :=
    Nat.lt_of_le_of_lt (Nat.div_mul_le_self _ _) x.isLt
  rw [← shiftLeft_ushiftRight, toNat_shiftLeft, toNat_ushiftRight,
    Nat.shiftRight_eq_div_pow, Nat.shiftLeft_eq, Nat.mod_eq_of_lt bound]

theorem alignUp_eq_div (n : Nat) {a : Nat} (unit : 0 < a) :
    alignUp n a = (n + (a - 1)) / a * a := by
  obtain ⟨q, r, low, rfl⟩ : ∃ q r, r < a ∧ n = a * q + r :=
    ⟨n / a, n % a, Nat.mod_lt n unit, (Nat.div_add_mod n a).symm⟩
  rw [alignUp, Nat.mul_add_mod, Nat.mod_eq_of_lt low, Nat.add_assoc (a * q) r (a - 1),
    Nat.mul_add_div unit, Nat.add_mul, Nat.mul_comm q a]
  by_cases whole : r = 0
  · rw [if_pos whole, whole, Nat.zero_add, Nat.div_eq_of_lt (by omega)]
    omega
  · have carry : (r + (a - 1)) / a = 1 := Nat.div_eq_of_lt_le (by omega) (by omega)
    rw [if_neg whole, carry, Nat.one_mul]
    omega

/-- Rounding up by adding one less than the unit and clearing the low bits. -/
theorem toNat_alignUp (x : BitVec w) (k : Nat) (fits : x.toNat + (2 ^ k - 1) < 2 ^ w) :
    ((x + BitVec.ofNat w (2 ^ k - 1)) &&& BitVec.allOnes w <<< k).toNat =
      alignUp x.toNat (2 ^ k) := by
  have small : 2 ^ k - 1 < 2 ^ w := by omega
  rw [toNat_mask, toNat_add, toNat_ofNat, Nat.mod_eq_of_lt small,
    Nat.mod_eq_of_lt fits, alignUp_eq_div _ (Nat.two_pow_pos k)]

end Words

/-! ### Memory -/

/-- A byte at every address. -/
def Memory := BitVec 64 → UInt8

namespace Memory

variable (m : Memory)

/-- The `n` bytes from address `a` on. -/
def read (a : BitVec 64) (n : Nat) : List UInt8 :=
  (List.range n).map fun i => m (a + BitVec.ofNat 64 i)

/-- Overwrite the bytes from address `a` on by `bs`. -/
def write (a : BitVec 64) (bs : List UInt8) : Memory := fun x =>
  (bs[(x - a).toNat]?).getD (m x)

/-- The byte at an offset from `base`. -/
def view (base : BitVec 64) (off : Nat) : UInt8 := m (base + BitVec.ofNat 64 off)

/-- The `n` bytes at an offset from `base`. -/
def window (base : BitVec 64) (off n : Nat) : List UInt8 :=
  (List.range n).map fun i => m.view base (off + i)

@[simp] theorem length_read (a : BitVec 64) (n : Nat) : (m.read a n).length = n := by
  simp [read]

@[simp] theorem length_window (base : BitVec 64) (off n : Nat) :
    (m.window base off n).length = n := by
  simp [window]

theorem read_eq_window (base : BitVec 64) (off n : Nat) :
    m.read (base + BitVec.ofNat 64 off) n = m.window base off n := by
  refine List.map_congr_left fun i _ => ?_
  rw [view, BitVec.add_assoc, ← ofNat_add]

/-- The distance between two offsets of one region. -/
theorem toNat_offset_sub (base : BitVec 64) {p q : Nat} (hp : p < 2 ^ 64) (hq : q < 2 ^ 64) :
    (base + BitVec.ofNat 64 q - (base + BitVec.ofNat 64 p)).toNat = (q + 2 ^ 64 - p) % 2 ^ 64 := by
  have same : base + BitVec.ofNat 64 q - (base + BitVec.ofNat 64 p) =
      BitVec.ofNat 64 q - BitVec.ofNat 64 p := by
    rw [BitVec.add_comm base (BitVec.ofNat 64 q), BitVec.add_comm base (BitVec.ofNat 64 p),
      add_sub_add_right_eq_sub]
  rw [same, toNat_sub, toNat_ofNat, toNat_ofNat, Nat.mod_eq_of_lt hp, Nat.mod_eq_of_lt hq]
  congr 1
  omega

variable {m} {base : BitVec 64} {p q : Nat} {bs : List UInt8}

/-- Inside what was written, the bytes written. -/
theorem view_write_in (hp : p + bs.length < 2 ^ 63) (lo : p ≤ q) (hi : q < p + bs.length) :
    (m.write (base + BitVec.ofNat 64 p) bs).view base q = (bs[q - p]?).getD 0 := by
  have dist : (base + BitVec.ofNat 64 q - (base + BitVec.ofNat 64 p)).toNat = q - p := by
    rw [toNat_offset_sub base (by omega) (by omega)]
    omega
  have inside : q - p < bs.length := by omega
  rw [view, write, dist, List.getElem?_eq_getElem inside, Option.getD_some, Option.getD_some]

/-- Outside of what was written, nothing changes. -/
theorem view_write_out (hp : p + bs.length < 2 ^ 63) (hq : q < 2 ^ 63)
    (apart : q < p ∨ p + bs.length ≤ q) :
    (m.write (base + BitVec.ofNat 64 p) bs).view base q = m.view base q := by
  have past : bs.length ≤ (base + BitVec.ofNat 64 q - (base + BitVec.ofNat 64 p)).toNat := by
    rw [toNat_offset_sub base (by omega) (by omega)]
    omega
  rw [view, write, List.getElem?_eq_none past, Option.getD_none, view]

/-- What was written is read back. -/
theorem window_write_same {n : Nat} (len : bs.length = n) (hp : p + n < 2 ^ 63) :
    (m.write (base + BitVec.ofNat 64 p) bs).window base p n = bs := by
  refine List.ext_getElem (by simp [len]) fun i hi hi' => ?_
  have inside : i < bs.length := hi'
  simp only [window, List.getElem_map, List.getElem_range]
  rw [view_write_in (by omega) (Nat.le_add_right p i) (by omega), Nat.add_sub_cancel_left,
    List.getElem?_eq_getElem inside, Option.getD_some]

/-- A window clear of a write is unchanged. -/
theorem window_write_apart {n : Nat} (hp : p + bs.length < 2 ^ 63) (hq : q + n < 2 ^ 63)
    (apart : q + n ≤ p ∨ p + bs.length ≤ q) :
    (m.write (base + BitVec.ofNat 64 p) bs).window base q n = m.window base q n := by
  refine List.map_congr_left fun i hi => ?_
  have := List.mem_range.mp hi
  exact view_write_out hp (by omega) (by omega)

end Memory

end Relon
