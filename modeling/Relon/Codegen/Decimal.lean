import Relon.Codegen.Strings

/-! The text `emit_int_to_str` leaves.

Both loops go by the decimal digits of the magnitude: the first counts them, the second
writes them from the last to the first, downwards from where the count says they end. What a
run of stores leaves is said by `Wrote`: some bytes at a place, everything else as it was, and
no access outside of that place. Two such runs at neighbouring places are one run. -/
namespace Relon.Codegen

open Bytes List

/-! ### Decimal text -/

/-- The decimal digits of a number, in ASCII. -/
def decimal (n : Nat) : List UInt8 := (Nat.toDigits 10 n).flatMap String.utf8EncodeChar

/-- The canonical decimal text of an integer. -/
def decimalText (v : Int) : List UInt8 := (toString v).toList.flatMap String.utf8EncodeChar

theorem encode_digitChar :
    ∀ d < 10, String.utf8EncodeChar (Nat.digitChar d) = [UInt8.ofNat (48 + d)] := by
  decide

/-- The last digit comes off the end, as in both loops. -/
theorem decimal_eq (n : Nat) :
    decimal n = (if n < 10 then [] else decimal (n / 10)) ++ [UInt8.ofNat (48 + n % 10)] := by
  unfold decimal
  rw [Nat.toDigits_eq_if (by decide)]
  split
  · rename_i small
    simp [encode_digitChar n small, Nat.mod_eq_of_lt small]
  · simp [encode_digitChar (n % 10) (Nat.mod_lt n (by decide))]

theorem decimal_length_pos (n : Nat) : 0 < (decimal n).length := by
  rw [decimal_eq]
  simp

theorem decimal_length_le {n k : Nat} (small : n < 10 ^ (k + 1)) : (decimal n).length ≤ k + 1 := by
  induction k generalizing n with
  | zero =>
    rw [decimal_eq, if_pos (by omega)]
    simp
  | succ k ih =>
    rw [decimal_eq]
    split
    · simp
    · have := ih (n := n / 10) (by rw [Nat.pow_succ] at small; omega)
      rw [length_append, length_singleton]
      omega

theorem decimalText_eq (v : Int) :
    decimalText v = (if v < 0 then [45] else []) ++ decimal v.natAbs := by
  rw [decimalText, Int.toString_eq_repr]
  cases v with
  | ofNat n =>
    have nonneg : ¬ Int.ofNat n < 0 := Int.not_lt.mpr (Int.natCast_nonneg n)
    rw [if_neg nonneg, nil_append]
    show (Nat.repr n).toList.flatMap _ = decimal n
    rw [Nat.repr_eq_ofList_toDigits, String.toList_ofList]
    rfl
  | negSucc n =>
    rw [if_pos (Int.negSucc_lt_zero n)]
    show ("-" ++ Nat.repr (n + 1)).toList.flatMap _ = [45] ++ decimal (n + 1)
    rw [Nat.repr_eq_ofList_toDigits, String.toList_append, String.toList_ofList,
      String.toList_ofList]
    rfl

/-- The first loop counts the digits after the first. -/
theorem countDigits_eq (t : BitVec 64) (count : BitVec 32) :
    countDigits t count = count + BitVec.ofNat 32 ((decimal t.toNat).length - 1) := by
  fun_induction countDigits t count with
  | case1 t count more ih =>
    have tenth : (t / 10).toNat = t.toNat / 10 := BitVec.toNat_udiv
    have := decimal_length_pos (t.toNat / 10)
    rw [ih, tenth, decimal_eq t.toNat, if_neg (by omega), length_append, length_singleton,
      Nat.add_sub_cancel, BitVec.add_assoc]
    congr 1
    rw [show (1 : BitVec 32) = BitVec.ofNat 32 1 from rfl, ← BitVec.ofNat_add]
    congr 1
    omega
  | case2 t count last =>
    rw [decimal_eq, if_pos (by omega)]
    simp

/-! ### Runs of stores -/

/-- Between the two machines `bs` was written at `lo`, and nothing else was touched. -/
structure Wrote (m m' : Machine) (lo : Nat) (bs : List UInt8) : Prop where
  frame : m'.arenaBase = m.arenaBase ∧ m'.arenaLen = m.arenaLen ∧ m'.blocks = m.blocks
  here : m'.bytes lo bs.length = bs
  apart : ∀ off n, off + n < 2 ^ 33 → off + n ≤ lo ∨ lo + bs.length ≤ off →
    m'.bytes off n = m.bytes off n
  log : ∃ as, m'.accesses = m.accesses ++ as ∧ ∀ a ∈ as, ∃ off : Nat,
    a.addr = m.arenaBase + BitVec.ofNat 64 off ∧ lo ≤ off ∧ off + a.len ≤ lo + bs.length

section
variable {m m₁ m₂ : Machine} {lo : Nat} {as bs : List UInt8}

theorem Wrote.refl : Wrote m m lo [] :=
  ⟨⟨rfl, rfl, rfl⟩, rfl, fun _ _ _ _ => rfl, [], (append_nil _).symm, nofun⟩

/-- Two runs at disjoint places log both. -/
theorem Wrote.log_append {lo' hi : Nat} (first : Wrote m m₁ lo as) (second : Wrote m₁ m₂ lo' bs)
    {start : Nat} (low : start ≤ lo ∧ start ≤ lo')
    (high : lo + as.length ≤ hi ∧ lo' + bs.length ≤ hi) :
    ∃ log, m₂.accesses = m.accesses ++ log ∧ ∀ a ∈ log, ∃ off : Nat,
      a.addr = m.arenaBase + BitVec.ofNat 64 off ∧ start ≤ off ∧ off + a.len ≤ hi := by
  obtain ⟨log, logged, within⟩ := first.log
  obtain ⟨log', logged', within'⟩ := second.log
  refine ⟨log ++ log', by rw [logged', logged, append_assoc], fun a mem => ?_⟩
  rcases mem_append.mp mem with mem | mem
  · obtain ⟨off, addr, above, below⟩ := within a mem
    exact ⟨off, addr, by omega, by omega⟩
  · obtain ⟨off, addr, above, below⟩ := within' a mem
    exact ⟨off, first.frame.1 ▸ addr, by omega, by omega⟩

/-- The bytes in front of those written last. -/
theorem Wrote.before (small : lo + as.length + bs.length < 2 ^ 33)
    (second : Wrote m m₁ (lo + as.length) bs) (first : Wrote m₁ m₂ lo as) :
    Wrote m m₂ lo (as ++ bs) where
  frame := ⟨first.frame.1.trans second.frame.1, first.frame.2.1.trans second.frame.2.1,
    first.frame.2.2.trans second.frame.2.2⟩
  here := by
    rw [length_append, bytes_add, first.here,
      first.apart _ _ (by omega) (.inr (Nat.le_refl _)), second.here]
  apart off n low clear := by
    rw [length_append] at clear
    rw [first.apart off n low (by omega), second.apart off n low (by omega)]
  log := by
    rw [length_append]
    exact second.log_append first (by omega) (by omega)

/-- The bytes behind those written last. -/
theorem Wrote.behind (small : lo + as.length + bs.length < 2 ^ 33)
    (first : Wrote m m₁ lo as) (second : Wrote m₁ m₂ (lo + as.length) bs) :
    Wrote m m₂ lo (as ++ bs) where
  frame := ⟨second.frame.1.trans first.frame.1, second.frame.2.1.trans first.frame.2.1,
    second.frame.2.2.trans first.frame.2.2⟩
  here := by
    rw [length_append, bytes_add, second.here,
      second.apart _ _ (by omega) (.inl (Nat.le_refl _)), first.here]
  apart off n low clear := by
    rw [length_append] at clear
    rw [second.apart off n low (by omega), first.apart off n low (by omega)]
  log := by
    rw [length_append]
    exact first.log_append second (by omega) (by omega)

/-- A store whose slot lies in the arena. -/
theorem store_writes {α : Type} {off slot : BitVec 32} (whole : bs.length = slot.toNat)
    (fits : off.toNat + slot.toNat ≤ m.arenaLen.toNat) (f : Unit → Emitted α) :
    ∃ m', Wrote m m' off.toNat bs ∧
      (arenaAddr off slot >>= fun abs => store abs bs >>= f) m = f () m' := by
  have ends : off + slot ≤ m.arenaLen := by
    rw [BitVec.le_def, BitVec.toNat_add]
    omega
  have passed : condTrap (m.arenaLen < off + slot) .boundsViolation = pure () := by
    rw [condTrap, decide_eq_false (BitVec.not_lt.mpr ends)]
    rfl
  have wide : off.setWidth 64 = BitVec.ofNat 64 off.toNat := (BitVec.ofNat_toNat ..).symm
  refine ⟨{ m with mem := m.mem.write (m.arenaBase + BitVec.ofNat 64 off.toNat) bs }.touch
    (m.arenaBase + BitVec.ofNat 64 off.toNat) bs.length true, ⟨⟨rfl, rfl, rfl⟩, ?_, ?_, ?_⟩, ?_⟩
  · exact Memory.window_write_same rfl (by omega)
  · intro q n low clear
    exact Memory.window_write_apart (by omega) (by omega) clear
  · exact ⟨[_], rfl, forall_mem_singleton.mpr ⟨off.toNat, rfl, Nat.le_refl _, Nat.le_refl _⟩⟩
  · rw [arenaAddr, bind_assoc, get_bind, passed, ← wide]
    rfl

/-- The second loop leaves the digits in front of its cursor. -/
theorem writeDigits_writes (mag : BitVec 64) (cursor : BitVec 32)
    (ends : cursor.toNat = lo + (decimal mag.toNat).length)
    (fits : cursor.toNat ≤ m.arenaLen.toNat) :
    ∃ m', writeDigits mag cursor m = .ok ((), m') ∧ Wrote m m' lo (decimal mag.toNat) := by
  fun_induction writeDigits mag cursor generalizing m with
  | case1 mag cursor ih =>
    have some_ := decimal_length_pos mag.toNat
    have bound := cursor.isLt
    have last : (cursor - 1).toNat = cursor.toNat - 1 := by
      rw [BitVec.toNat_sub, show (1 : BitVec 32).toNat = 1 from rfl]
      omega
    have tenth : (mag / 10).toNat = mag.toNat / 10 := BitVec.toNat_udiv
    have digit : (mag % 10).toNat = mag.toNat % 10 := BitVec.toNat_umod
    have inside : (cursor - 1).toNat + (1 : BitVec 32).toNat ≤ m.arenaLen.toNat := by
      rw [last, show (1 : BitVec 32).toNat = 1 from rfl]
      omega
    obtain ⟨m₁, stored, ran⟩ := @store_writes m [UInt8.ofNat (48 + (mag % 10).toNat)] _ _ _ rfl inside
      fun _ => if mag / 10 = 0 then pure () else writeDigits (mag / 10) (cursor - 1)
    rw [ran]
    rw [last, digit] at stored
    have text := decimal_eq mag.toNat
    by_cases done : mag / 10 = 0
    · have small : mag.toNat / 10 = 0 := by rw [← tenth, done]; rfl
      rw [if_pos done]
      rw [if_pos (by omega), nil_append] at text
      rw [text, length_singleton] at ends
      refine ⟨m₁, rfl, ?_⟩
      rw [text, show lo = cursor.toNat - 1 by omega]
      exact stored
    · have large : mag.toNat / 10 ≠ 0 := fun zero =>
        done (BitVec.eq_of_toNat_eq (by rw [tenth, zero]; rfl))
      rw [if_neg done]
      rw [if_neg (by omega)] at text
      rw [text, length_append, length_singleton] at ends
      obtain ⟨m₂, rest, before⟩ := ih done (m := m₁) (by rw [last, tenth]; omega)
        (by rw [last, stored.frame.2.1]; omega)
      rw [tenth] at before
      refine ⟨m₂, rest, ?_⟩
      rw [text]
      rw [show cursor.toNat - 1 = lo + (decimal (mag.toNat / 10)).length by omega] at stored
      exact Wrote.before (by rw [length_singleton]; omega) stored before

end

/-! ### The record -/

theorem slt_zero_iff (v : BitVec 64) : v.slt 0 = true ↔ v.toInt < 0 := by
  rw [BitVec.slt_iff_toInt_lt]
  rfl

/-- The magnitude is taken by a negation that wraps; that of the least integer is exact. -/
theorem magnitude_toNat (v : BitVec 64) :
    (if v.slt 0 then 0 - v else v).toNat = v.toInt.natAbs := by
  have value := BitVec.toInt_eq_toNat_cond v
  by_cases negative : v.toInt < 0
  · rw [if_pos ((slt_zero_iff v).mpr negative), BitVec.toNat_sub, show (0 : BitVec 64).toNat = 0 from rfl]
    split at value <;> omega
  · rw [if_neg (mt (slt_zero_iff v).mp negative)]
    split at value <;> omega

/-- The sign goes in front of the digits, where there is one. -/
theorem sign_writes {m : Machine} (v : BitVec 64) (base payload : BitVec 32)
    (fits : payload.toNat + 1 ≤ m.arenaLen.toNat) :
    ∃ m', Wrote m m' payload.toNat (if v.toInt < 0 then [45] else []) ∧
      (if v.slt 0 = true then do
        let minus ← arenaAddr payload 1
        store minus [45]
        pure base
      else pure base) m = .ok (base, m') := by
  by_cases negative : v.toInt < 0
  · rw [if_pos negative, if_pos ((slt_zero_iff v).mpr negative)]
    obtain ⟨m', wrote, ran⟩ := @store_writes m [45] _ payload 1 rfl fits fun _ => pure base
    exact ⟨m', wrote, ran⟩
  · rw [if_neg negative, if_neg (mt (slt_zero_iff v).mp negative)]
    exact ⟨m, .refl, rfl⟩

/-- Header, digits and sign, in the order they are stored. -/
theorem record_writes {m : Machine} (v magnitude : BitVec 64) {signLen digitCount base : BitVec 32}
    (mag : magnitude.toNat = v.toInt.natAbs)
    (count : digitCount.toNat = (decimal v.toInt.natAbs).length)
    (sign : signLen.toNat = (if v.toInt < 0 then [(45 : UInt8)] else []).length)
    (fits : base.toNat + 4 + (decimalText v.toInt).length ≤ m.arenaLen.toNat) :
    ∃ m', Wrote m m' base.toNat (leBytes 4 (digitCount + signLen).toNat ++ decimalText v.toInt) ∧
      (do
        let abs ← arenaAddr base 4
        store abs (leBytes 4 (digitCount + signLen).toNat)
        writeDigits magnitude (base + 4 + signLen + digitCount)
        if v.slt 0 = true then do
          let minus ← arenaAddr (base + 4) 1
          store minus [45]
          pure base
        else pure base) m = .ok (base, m') := by
  have some_ := decimal_length_pos v.toInt.natAbs
  have text := decimalText_eq v.toInt
  have four : (4 : BitVec 32).toNat = 4 := rfl
  rw [text, length_append] at fits
  have payload : (base + 4).toNat = base.toNat + 4 := by rw [BitVec.toNat_add]; omega
  have ends : (base + 4 + signLen + digitCount).toNat =
      base.toNat + 4 + signLen.toNat + digitCount.toNat := by
    rw [BitVec.toNat_add, BitVec.toNat_add]
    omega
  obtain ⟨m₁, header, ran⟩ := @store_writes m (leBytes 4 (digitCount + signLen).toNat) _ base 4
    (length_leBytes ..) (by omega) fun _ => do
      writeDigits magnitude (base + 4 + signLen + digitCount)
      if v.slt 0 = true then do
        let minus ← arenaAddr (base + 4) 1
        store minus [45]
        pure base
      else pure base
  obtain ⟨m₂, wrote, digits⟩ := @writeDigits_writes m₁ (base.toNat + 4 + signLen.toNat) magnitude
    (base + 4 + signLen + digitCount) (by rw [ends, mag, count]) (by rw [ends, header.frame.2.1]; omega)
  obtain ⟨m₃, minus, signed⟩ := @sign_writes m₂ v base (base + 4) (by
    rw [payload, digits.frame.2.1, header.frame.2.1]
    omega)
  rw [payload] at minus
  rw [mag, sign] at digits
  have rest : Wrote m₁ m₃ (base.toNat + 4) (decimalText v.toInt) :=
    text ▸ Wrote.before (by omega) digits minus
  refine ⟨m₃, Wrote.behind (by rw [length_leBytes, text, length_append]; omega) header (by
    rwa [length_leBytes]), ?_⟩
  exact ran.trans (bind_eq_ok.mpr ⟨(), m₂, wrote, signed⟩)

/-- Where the record fits, the code does not trap: the record at the scratch cursor is the
decimal text of the integer with its length in front, and every store is inside the block that
was allocated for it. -/
theorem intToStr_renders (v : BitVec 64) (m : Machine)
    (room : m.scratchBase.toNat + m.scratchCursor.toNat +
      alignUp ((decimalText v.toInt).length + 4) 4 ≤ m.arenaLen.toNat) :
    ∃ m' size, intToStr v m = .ok (m.scratchTop, m') ∧
      m'.blocks = m.blocks ++ [(m.scratchTop, size)] ∧
      m'.stringAt m.scratchTop.toNat = ((decimalText v.toInt).length, decimalText v.toInt) ∧
      ∃ as, m'.accesses = m.accesses ++ as ∧ ∀ a ∈ as, ∃ off : Nat,
        a.addr = m.arenaBase + BitVec.ofNat 64 off ∧ m.scratchTop.toNat ≤ off ∧
          off + a.len ≤ m.scratchTop.toNat + size.toNat := by
  have mag := magnitude_toNat v
  have text := decimalText_eq v.toInt
  have digits := decimal_length_le (n := v.toInt.natAbs) (k := 19) (by
    have := BitVec.le_toInt v
    have := BitVec.toInt_lt (x := v)
    omega)
  have some_ := decimal_length_pos v.toInt.natAbs
  have padded := le_alignUp ((decimalText v.toInt).length + 4) 4
  have slack := alignUp_lt (n := (decimalText v.toInt).length + 4) (a := 4) (by decide)
  have top : m.scratchTop.toNat = m.scratchBase.toNat + m.scratchCursor.toNat := by
    rw [Machine.scratchTop, BitVec.toNat_add, Nat.mod_eq_of_lt (by omega)]
  have sign : (if v.slt 0 then 1 else 0 : BitVec 32).toNat =
      (if v.toInt < 0 then [(45 : UInt8)] else []).length := by
    simp only [slt_zero_iff]
    split <;> rfl
  rw [intToStr]
  generalize (if v.slt 0 then 0 - v else v) = magnitude at mag ⊢
  generalize (if v.slt 0 then 1 else 0 : BitVec 32) = signLen at sign ⊢
  have count : (countDigits magnitude 1).toNat = (decimal v.toInt.natAbs).length := by
    rw [countDigits_eq, mag, BitVec.toNat_add, BitVec.toNat_ofNat,
      show (1 : BitVec 32).toNat = 1 from rfl]
    omega
  generalize countDigits magnitude 1 = digitCount at count ⊢
  have length : (decimalText v.toInt).length = signLen.toNat + digitCount.toNat := by
    rw [text, length_append, sign, count]
  have single : signLen.toNat ≤ 1 := by
    rw [sign]
    split <;> decide
  have total : (digitCount + signLen).toNat = (decimalText v.toInt).length := by
    rw [BitVec.toNat_add]
    omega
  have size : (alignMask (digitCount + signLen + 4) 4).toNat =
      alignUp ((decimalText v.toInt).length + 4) 4 := by
    rw [← total]
    exact toNat_alignUpI32 (x := digitCount + signLen) (by rw [total]; show _ + 4 + 3 < _; omega)
  generalize alignMask (digitCount + signLen + 4) 4 = recordSize at size ⊢
  have allocated : m.scratchTop + recordSize ≤ m.arenaLen := by
    rw [BitVec.le_def, BitVec.toNat_add]
    omega
  obtain ⟨m', wrote, ran⟩ := @record_writes
    { m with
      scratchCursor := m.scratchCursor + recordSize
      blocks := m.blocks ++ [(m.scratchTop, recordSize)] }
    v magnitude signLen digitCount m.scratchTop mag count sign (by show _ ≤ m.arenaLen.toNat; omega)
  have filled := wrote.here
  rw [length_append, bytes_add] at filled
  obtain ⟨header, payload⟩ := append_inj filled (by simp [Machine.bytes])
  rw [length_leBytes] at header payload
  have len : m'.stringLen m.scratchTop.toNat = (decimalText v.toInt).length := by
    rw [Machine.stringLen, header, leNat_leBytes (by omega), total]
  obtain ⟨as, logged, within⟩ := wrote.log
  refine ⟨m', recordSize, allocScratch_bind_eq_ok.mpr ⟨allocated, ran⟩, wrote.frame.2.2,
    Prod.ext len (by rw [Machine.stringAt, len, payload]), as, logged, fun a mem => ?_⟩
  obtain ⟨off, addr, low, high⟩ := within a mem
  rw [length_append, length_leBytes] at high
  exact ⟨off, addr, low, by omega⟩

/-- An arena with nothing in it. -/
def emptyArena (arenaLen scratchBase : BitVec 32) : Machine :=
  ⟨0, arenaLen, scratchBase, 0, 0, 0, 0, fun _ => 0, [], []⟩

/-- The least integer, at the start of a scratch region of 56 bytes. -/
theorem least_integer_rendered :
    ∃ m' size, intToStr (BitVec.intMin 64) (emptyArena 64 8) = .ok (8, m') ∧
      m'.blocks = [(8, size)] ∧
      m'.stringAt 8 = (20, [45, 57, 50, 50, 51, 51, 55, 50, 48, 51, 54, 56, 53, 52, 55, 55, 53, 56,
        48, 56]) ∧ ∃ as, m'.accesses = [] ++ as ∧ ∀ a ∈ as, ∃ off : Nat,
        a.addr = 0 + BitVec.ofNat 64 off ∧ 8 ≤ off ∧ off + a.len ≤ 8 + size.toNat :=
  have text : decimalText (BitVec.intMin 64).toInt = [45, 57, 50, 50, 51, 51, 55, 50, 48, 51, 54, 56,
    53, 52, 55, 55, 53, 56, 48, 56] := by decide +kernel
  text ▸ intToStr_renders (BitVec.intMin 64) (emptyArena 64 8) (by rw [text]; decide)

/-- With no room for its record the rendering of `7` traps. -/
theorem no_room_traps : intToStr 7 (emptyArena 23 16) = .error .boundsViolation := by
  have mag : (if (7 : BitVec 64).slt 0 then 0 - 7 else 7) = (7 : BitVec 64) := by decide
  have count : countDigits 7 1 = 1 := by rw [countDigits]; rfl
  rw [intToStr, mag, count]
  rfl

end Relon.Codegen
