import Mathlib.Algebra.Group.Int.Defs
import Mathlib.Algebra.Group.Nat.Defs
import Mathlib.Order.Basic

/-! Double-precision numbers by their bits, as far as integers and comparisons go.

An integer is converted to the nearest double, and to the one with an even significand
when two are equally near. Doubles that are not NaN are ordered by their bits as
sign and magnitude, with one zero. -/
namespace Relon.Double

/-! ### Integers -/

/-- `n / 2 ^ k`, to the nearest, ties to even. -/
def roundShift (n k : Nat) : Nat :=
  if 2 * (n % 2 ^ k) < 2 ^ k ∨ 2 * (n % 2 ^ k) = 2 ^ k ∧ n / 2 ^ k % 2 = 0 then n / 2 ^ k
  else n / 2 ^ k + 1

/-- The 53 bits of the significand, the leading one among them. Rounding may carry into
the next power of two. -/
def significand (n : Nat) : Nat :=
  if n.log2 ≤ 52 then n * 2 ^ (52 - n.log2) else roundShift n (n.log2 - 52)

/-- The bits of a natural number: the biased exponent over the significand without its
leading one. -/
def ofNat (n : Nat) : Nat :=
  if n = 0 then 0 else (1023 + n.log2) * 2 ^ 52 + significand n - 2 ^ 52

/-- `i64 as f64`. -/
def ofInt (i : Int64) : UInt64 :=
  .ofNat ((if i < 0 then 2 ^ 63 else 0) + ofNat i.toInt.natAbs)

/-! ### Order -/

/-- The bits as sign and magnitude. -/
def key (b : UInt64) : Int :=
  if b.toNat < 2 ^ 63 then b.toNat else 2 ^ 63 - b.toNat

def isNaN (b : UInt64) : Bool := 2047 * 2 ^ 52 < (key b).natAbs

def lt (a b : UInt64) : Bool := !isNaN a && !isNaN b && key a < key b

def le (a b : UInt64) : Bool := !isNaN a && !isNaN b && key a ≤ key b

/-! ### Rounding is monotone -/

variable {m n : Nat} {a b : Int64}

theorem roundShift_mono (k : Nat) (h : m ≤ n) : roundShift m k ≤ roundShift n k := by
  have quotients : m / 2 ^ k ≤ n / 2 ^ k := Nat.div_le_div_right h
  have splitM := Nat.div_add_mod m (2 ^ k)
  have splitN := Nat.div_add_mod n (2 ^ k)
  obtain below | same := Nat.lt_or_eq_of_le quotients
  · unfold roundShift
    split <;> split <;> omega
  · have remainders : m % 2 ^ k ≤ n % 2 ^ k := by
      rw [same] at splitM
      omega
    unfold roundShift
    rw [same]
    split <;> split <;> omega

theorem roundShift_bounds {n k a b : Nat} (low : a * 2 ^ k ≤ n) (high : n < b * 2 ^ k) :
    a ≤ roundShift n k ∧ roundShift n k ≤ b := by
  have from_ : a ≤ n / 2 ^ k := (Nat.le_div_iff_mul_le (Nat.two_pow_pos k)).mpr low
  have below : n / 2 ^ k < b := (Nat.div_lt_iff_lt_mul (Nat.two_pow_pos k)).mpr high
  unfold roundShift
  split <;> omega

/-- The significand of a number below 2^53 is the number, moved up. -/
theorem significand_small (pos : n ≠ 0) (small : n.log2 ≤ 52) :
    2 ^ 52 ≤ significand n ∧ significand n < 2 ^ 53 := by
  have scaled : 2 ^ 52 = 2 ^ n.log2 * 2 ^ (52 - n.log2) := by
    rw [← Nat.pow_add, Nat.add_sub_cancel' small]
  have doubled : 2 ^ 53 = 2 ^ (n.log2 + 1) * 2 ^ (52 - n.log2) := by
    rw [← Nat.pow_add, show n.log2 + 1 + (52 - n.log2) = 53 by omega]
  rw [significand, if_pos small, scaled, doubled]
  exact ⟨Nat.mul_le_mul_right _ (Nat.log2_self_le pos),
    Nat.mul_lt_mul_of_pos_right Nat.lt_log2_self (Nat.two_pow_pos _)⟩

theorem significand_bounds (pos : n ≠ 0) : 2 ^ 52 ≤ significand n ∧ significand n ≤ 2 ^ 53 := by
  by_cases small : n.log2 ≤ 52
  · exact (significand_small pos small).imp_right Nat.le_of_lt
  · rw [significand, if_neg small]
    refine roundShift_bounds ?_ ?_
    · rw [← Nat.pow_add, Nat.add_sub_cancel' (by omega)]
      exact Nat.log2_self_le pos
    · rw [← Nat.pow_add, show 53 + (n.log2 - 52) = n.log2 + 1 by omega]
      exact Nat.lt_log2_self

theorem log2_mono (pos : m ≠ 0) (h : m ≤ n) : m.log2 ≤ n.log2 := by
  rw [Nat.le_log2 (by omega)]
  exact Nat.le_trans (Nat.log2_self_le pos) h

theorem ofNat_mono (h : m ≤ n) : ofNat m ≤ ofNat n := by
  by_cases zero : m = 0
  · simp [ofNat, zero]
  have nonzero : n ≠ 0 := by omega
  have boundsM := significand_bounds zero
  have boundsN := significand_bounds nonzero
  rw [ofNat, ofNat, if_neg zero, if_neg nonzero]
  obtain below | same := Nat.lt_or_eq_of_le (log2_mono zero h)
  · omega
  · have rounded : significand m ≤ significand n := by
      unfold significand
      rw [same]
      split
      · exact Nat.mul_le_mul_right _ h
      · exact roundShift_mono _ h
    omega

theorem ofNat_pos (pos : n ≠ 0) : 0 < ofNat n := by
  rw [ofNat, if_neg pos]
  omega

/-- A natural number of at most 64 bits is neither infinite nor NaN. -/
theorem ofNat_lt (fits : n < 2 ^ 64) : ofNat n < 2047 * 2 ^ 52 := by
  unfold ofNat
  split
  · decide
  next pos =>
    have high := (significand_bounds pos).2
    have log : n.log2 < 64 := (Nat.log2_lt pos).mpr fits
    omega

/-- Up to 2^53 no bit is lost. -/
theorem ofNat_lt_ofNat (h : m < n) (small : n ≤ 2 ^ 53) : ofNat m < ofNat n := by
  have nonzero : n ≠ 0 := by omega
  by_cases zero : m = 0
  · rw [zero]
    exact ofNat_pos nonzero
  have logM : m.log2 ≤ 52 := Nat.le_of_lt_succ ((Nat.log2_lt zero).mpr (by omega))
  have boundsM := significand_small zero logM
  have boundsN := significand_bounds nonzero
  rw [ofNat, ofNat, if_neg zero, if_neg nonzero]
  obtain below | same := Nat.lt_or_eq_of_le (log2_mono zero (Nat.le_of_lt h))
  · omega
  · have moved : significand m < significand n := by
      rw [significand, significand, if_pos logM, if_pos (same ▸ logM), same]
      exact Nat.mul_lt_mul_of_pos_right h (Nat.two_pow_pos _)
    omega

/-! ### Comparing converted integers -/

theorem natAbs_lt (i : Int64) : i.toInt.natAbs < 2 ^ 64 := by
  have low := i.le_toInt
  have high := i.toInt_lt
  omega

theorem neg_iff (i : Int64) : i < 0 ↔ i.toInt < 0 := Int64.lt_iff_toInt_lt

theorem key_ofInt (i : Int64) :
    key (ofInt i) = if i < 0 then -(ofNat i.toInt.natAbs : Int) else ofNat i.toInt.natAbs := by
  have finite := ofNat_lt (natAbs_lt i)
  by_cases negative : i < 0
  · have pos := ofNat_pos (n := i.toInt.natAbs) (by rw [neg_iff] at negative; omega)
    rw [key, ofInt, if_pos negative, if_pos negative, UInt64.toNat_ofNat', Nat.mod_eq_of_lt (by omega)]
    omega
  · rw [key, ofInt, if_neg negative, if_neg negative, UInt64.toNat_ofNat', Nat.mod_eq_of_lt (by omega)]
    omega

theorem isNaN_ofInt (i : Int64) : isNaN (ofInt i) = false := by
  have finite := ofNat_lt (natAbs_lt i)
  rw [isNaN, key_ofInt, decide_eq_false_iff_not]
  split <;> omega

theorem lt_ofInt (a b : Int64) : lt (ofInt a) (ofInt b) = decide (key (ofInt a) < key (ofInt b)) := by
  simp [lt, isNaN_ofInt]

theorem le_ofInt (a b : Int64) : le (ofInt a) (ofInt b) = decide (key (ofInt a) ≤ key (ofInt b)) := by
  simp [le, isNaN_ofInt]

theorem key_ofInt_mono (h : a ≤ b) : key (ofInt a) ≤ key (ofInt b) := by
  rw [Int64.le_iff_toInt_le] at h
  rw [key_ofInt, key_ofInt]
  simp only [neg_iff]
  split <;> split
  · have := ofNat_mono (show b.toInt.natAbs ≤ a.toInt.natAbs by omega)
    omega
  · omega
  · omega
  · have := ofNat_mono (show a.toInt.natAbs ≤ b.toInt.natAbs by omega)
    omega

theorem key_ofInt_eq_iff : key (ofInt a) = key (ofInt b) ↔
    (a < 0 ↔ b < 0) ∧ ofNat a.toInt.natAbs = ofNat b.toInt.natAbs := by
  have posA : a < 0 → 0 < ofNat a.toInt.natAbs := fun n => ofNat_pos (by rw [neg_iff] at n; omega)
  have posB : b < 0 → 0 < ofNat b.toInt.natAbs := fun n => ofNat_pos (by rw [neg_iff] at n; omega)
  rw [key_ofInt, key_ofInt]
  by_cases negA : a < 0
  · by_cases negB : b < 0
    · rw [if_pos negA, if_pos negB, iff_true_intro (iff_of_true negA negB), true_and]
      omega
    · have := posA negA
      rw [if_pos negA, if_neg negB]
      exact iff_of_false (by omega) fun h => negB (h.1.mp negA)
  · by_cases negB : b < 0
    · have := posB negB
      rw [if_neg negA, if_pos negB]
      exact iff_of_false (by omega) fun h => negA (h.1.mpr negB)
    · rw [if_neg negA, if_neg negB, iff_true_intro (iff_of_false negA negB), true_and]
      omega

/-- Converted integers of the same key are the same double. -/
theorem ofInt_eq_of_key (h : key (ofInt a) = key (ofInt b)) : ofInt a = ofInt b := by
  obtain ⟨sign, magnitude⟩ := key_ofInt_eq_iff.mp h
  simp only [ofInt, sign, magnitude]

/-- Integers of at most 53 bits keep apart. -/
theorem ofInt_ne (h : a ≠ b) (smallA : a.toInt.natAbs ≤ 2 ^ 53) (smallB : b.toInt.natAbs ≤ 2 ^ 53) :
    ofInt a ≠ ofInt b := by
  intro same
  obtain ⟨sign, magnitude⟩ := key_ofInt_eq_iff.mp (congrArg key same)
  rw [neg_iff, neg_iff] at sign
  have apart : a.toInt ≠ b.toInt := fun e => h (Int64.toInt_inj.mp e)
  obtain below | above : a.toInt.natAbs < b.toInt.natAbs ∨ b.toInt.natAbs < a.toInt.natAbs := by omega
  · have := ofNat_lt_ofNat below smallB
    omega
  · have := ofNat_lt_ofNat above smallA
    omega

/-- Where rounding keeps two integers apart, it keeps their order. -/
theorem key_ofInt_lt_iff (apart : a = b ∨ ofInt a ≠ ofInt b) :
    key (ofInt a) < key (ofInt b) ↔ a.toInt < b.toInt := by
  refine ⟨fun less => Int.not_le.mp fun above => ?_, fun less => ?_⟩
  · have := key_ofInt_mono (Int64.le_iff_toInt_le.mpr above)
    omega
  · have order := key_ofInt_mono (Int64.le_iff_toInt_le.mpr (Int.le_of_lt less))
    refine Int.lt_iff_le_and_ne.mpr ⟨order, fun same => ?_⟩
    obtain rfl | apart := apart
    · omega
    · exact apart (ofInt_eq_of_key same)

end Relon.Double
