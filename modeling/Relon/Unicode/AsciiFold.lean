import Relon.Lib.Bytes

/-! The ASCII fast path of case folding (`relon-unicode/src/ascii_fold_simd.rs`).

The scan for the first non-ASCII byte and the upper and lower folds exist in two
widths, chosen when the crate is compiled: words of eight bytes with a scalar
fold, or vectors of sixteen lanes. Both widths are modelled chunk by chunk, with
the tail loop behind them, and both are shown to be the byte-by-byte functions
`scanTail` and `foldByte`. -/
namespace Relon.Unicode
open Bytes List

/-- `target_feature = "simd128"` on `wasm32`, or any other target. -/
inductive Width where
  | words
  | lanes
  deriving DecidableEq, Repr

inductive AsciiFoldMode where
  | upper
  | lower
  | title
  deriving DecidableEq, Repr

structure AsciiFastResult where
  consumed : Nat
  atWordStart : Bool
  deriving DecidableEq, Repr

/-- `trailing_zeros` of a word of `w` bits. -/
def trailingZeros : Nat → Nat → Nat
  | 0, _ => 0
  | w + 1, n => if n % 2 = 1 then 0 else trailingZeros w (n / 2) + 1

def highBits : Nat := 0x8080808080808080

/-- The first byte of eight with its high bit set. -/
def wordHit (chunk : List UInt8) : Option Nat :=
  let hits := leNat chunk &&& highBits
  if hits ≠ 0 then some (trailingZeros 64 hits / 8) else none

/-- `i8x16_bitmask`: the high bit of each lane. -/
def bitmask : List UInt8 → Nat
  | [] => 0
  | b :: bs => (if b ≥ 0x80 then 1 else 0) + 2 * bitmask bs

def laneHit (chunk : List UInt8) : Option Nat :=
  let mask := bitmask chunk
  if mask ≠ 0 then some (trailingZeros 16 mask) else none

/-- The tail loop of the scan. -/
def scanTail : List UInt8 → Nat
  | [] => 0
  | b :: bs => if b ≥ 0x80 then 0 else scanTail bs + 1

/-- The scan, with the number of whole chunks of `w` bytes left. -/
def scanChunks (w : Nat) (hit : List UInt8 → Option Nat) : Nat → List UInt8 → Nat
  | 0, bytes => scanTail bytes
  | n + 1, bytes =>
    match hit (bytes.take w) with
    | some k => k
    | none => w + scanChunks w hit n (bytes.drop w)

def scanAsciiPrefix : Width → List UInt8 → Nat
  | .words, bytes => scanChunks 8 wordHit (bytes.length / 8) bytes
  | .lanes, bytes => scanChunks 16 laneHit (bytes.length / 16) bytes

def isAsciiLowercase (b : UInt8) : Bool := 0x61 ≤ b ∧ b ≤ 0x7A

def isAsciiUppercase (b : UInt8) : Bool := 0x41 ≤ b ∧ b ≤ 0x5A

/-- The branch-free fold of one byte: `wrapping_sub` leaves the range from `base` below 26. -/
def flipInRange (base b : UInt8) : UInt8 := b ^^^ if b - base < 26 then 0x20 else 0x00

/-- One lane: the two comparisons give masks of all ones or all zeros. -/
def laneFold (upper : Bool) (b : UInt8) : UInt8 :=
  let lo : UInt8 := if upper then 0x61 else 0x41
  let hi : UInt8 := if upper then 0x7A else 0x5A
  let geLo : UInt8 := if b ≥ lo then 0xFF else 0x00
  let leHi : UInt8 := if b ≤ hi then 0xFF else 0x00
  b ^^^ (geLo &&& leHi &&& 0x20)

/-- The tail behind the lanes. -/
def laneTail (upper : Bool) (b : UInt8) : UInt8 :=
  if upper then if isAsciiLowercase b then b ^^^ 0x20 else b
  else if isAsciiUppercase b then b ^^^ 0x20 else b

/-- The vector fold, with the number of whole vectors left. -/
def foldLanes (upper : Bool) : Nat → List UInt8 → List UInt8
  | 0, bytes => bytes.map (laneTail upper)
  | n + 1, bytes => (bytes.take 16).map (laneFold upper) ++ foldLanes upper n (bytes.drop 16)

/-- The bytes `fold_ascii_prefix_upper_lower` appends. -/
def foldAsciiUpperLower : Width → Bool → List UInt8 → List UInt8
  | .words, upper, bytes => bytes.map (flipInRange (if upper then 0x61 else 0x41))
  | .lanes, upper, bytes => foldLanes upper (bytes.length / 16) bytes

/-- The bytes the title fold appends, and the word-start flag it ends with. -/
def foldAsciiPrefixTitle : Bool → List UInt8 → List UInt8 × Bool
  | atWordStart, [] => ([], atWordStart)
  | atWordStart, b :: bs =>
    if b ∈ [0x20, 0x09, 0x0A, 0x0B, 0x0C, 0x0D] then
      let (rest, last) := foldAsciiPrefixTitle true bs
      (b :: rest, last)
    else
      let folded := if atWordStart then if isAsciiLowercase b then b &&& 0xDF else b
        else if isAsciiUppercase b then b ||| 0x20 else b
      let (rest, last) := foldAsciiPrefixTitle false bs
      (folded :: rest, last)

/-- `case_fold_ascii_fast`: the appended bytes and the result, for bytes known to be ASCII. -/
def caseFoldAsciiFast (width : Width) (bytes : List UInt8) (mode : AsciiFoldMode)
    (atWordStart : Bool) : List UInt8 × AsciiFastResult :=
  if bytes.isEmpty then ([], ⟨0, atWordStart⟩)
  else match mode with
    | .upper => (foldAsciiUpperLower width true bytes, ⟨bytes.length, atWordStart⟩)
    | .lower => (foldAsciiUpperLower width false bytes, ⟨bytes.length, atWordStart⟩)
    | .title =>
      let (out, last) := foldAsciiPrefixTitle atWordStart bytes
      (out, ⟨bytes.length, last⟩)

/-- `fold_ascii_prefix`: the same over the ASCII bytes in front. -/
def foldAsciiPrefix (width : Width) (bytes : List UInt8) (mode : AsciiFoldMode)
    (atWordStart : Bool) : List UInt8 × AsciiFastResult :=
  let prefixLen := scanAsciiPrefix width bytes
  if prefixLen = 0 then ([], ⟨0, atWordStart⟩)
  else
    let front := bytes.take prefixLen
    match mode with
    | .upper => (foldAsciiUpperLower width true front, ⟨prefixLen, atWordStart⟩)
    | .lower => (foldAsciiUpperLower width false front, ⟨prefixLen, atWordStart⟩)
    | .title =>
      let (out, last) := foldAsciiPrefixTitle atWordStart front
      (out, ⟨prefixLen, last⟩)

/-- `fold_ascii_prefix_into_string`; none is its assertion that only ASCII was appended. -/
def foldAsciiPrefixIntoString (width : Width) (bytes : List UInt8) (mode : AsciiFoldMode)
    (atWordStart : Bool) : Option (List UInt8 × AsciiFastResult) :=
  let (out, result) := foldAsciiPrefix width bytes mode atWordStart
  if (out.take result.consumed).all (· < 0x80) then some (out, result) else none

/-! ### The scan -/

section Scan

theorem scanTail_cons (b : UInt8) (bs : List UInt8) :
    scanTail (b :: bs) = if b < 0x80 then scanTail bs + 1 else 0 := by
  by_cases low : b < 0x80
  · simp [scanTail, low, UInt8.not_le.mpr low]
  · simp [scanTail, low, UInt8.not_lt.mp low]

theorem scanTail_append (front bytes : List UInt8) : scanTail (front ++ bytes) =
      if scanTail front < front.length then scanTail front else front.length + scanTail bytes := by
  induction front with
  | nil => simp [scanTail]
  | cons b bs ih =>
    rw [cons_append, scanTail_cons, scanTail_cons, ih, length_cons]
    by_cases low : b < 0x80
    · rw [if_pos low, if_pos low]
      by_cases hit : scanTail bs < bs.length
      · rw [if_pos hit, if_pos (by omega)]
      · rw [if_neg hit, if_neg (by omega)]
        omega
    · simp [low]

/-- What a chunk test owes: the first non-ASCII byte of the chunk, or that there is none. -/
def Finds (hit : List UInt8 → Option Nat) (w : Nat) : Prop :=
  ∀ chunk : List UInt8, chunk.length = w →
    hit chunk = if scanTail chunk < w then some (scanTail chunk) else none

theorem scanChunks_eq {w : Nat} {hit : List UInt8 → Option Nat} (finds : Finds hit w) (n : Nat)
    (bytes : List UInt8) (enough : n * w ≤ bytes.length) :
    scanChunks w hit n bytes = scanTail bytes := by
  induction n generalizing bytes with
  | zero => rfl
  | succ n ih =>
    rw [Nat.succ_mul] at enough
    have chunk : (bytes.take w).length = w := by rw [length_take]; omega
    have rest := ih (bytes.drop w) (by rw [length_drop]; omega)
    have whole := scanTail_append (bytes.take w) (bytes.drop w)
    rw [take_append_drop, chunk] at whole
    rw [scanChunks, finds _ chunk, whole, ← rest]
    by_cases found : scanTail (bytes.take w) < w
    · simp [found]
    · simp [found]

/-- The mask of the high bits of `n` bytes. -/
def highMask : Nat → Nat
  | 0 => 0
  | n + 1 => 0x80 + 256 * highMask n

/-- A statement about bytes that holds of all 256 of them. -/
theorem forall_byte {p : UInt8 → Prop} (h : ∀ n : Fin 256, p (UInt8.ofFin n)) (b : UInt8) : p b :=
  h b.toFin

theorem and_highMask_cons (b : UInt8) (w m : Nat) : (b.toNat + 256 * w) &&& (0x80 + 256 * m) =
      (if b ≥ 0x80 then 0x80 else 0) + 256 * (w &&& m) := by
  have small := b.toNat_lt
  have top : b.toNat &&& 0x80 = if b ≥ 0x80 then 0x80 else 0 := by
    apply forall_byte (p := fun b => b.toNat &&& 0x80 = if b ≥ 0x80 then 0x80 else 0)
    decide +kernel
  have low : ((b.toNat + 256 * w) &&& (0x80 + 256 * m)) % 2 ^ 8 = b.toNat &&& 0x80 := by
    rw [Nat.and_mod_two_pow]
    congr 1 <;> omega
  have high : ((b.toNat + 256 * w) &&& (0x80 + 256 * m)) / 2 ^ 8 = w &&& m := by
    rw [Nat.and_div_two_pow]
    congr 1 <;> omega
  rw [← top, ← low, ← high]
  omega

theorem trailingZeros_double (w n : Nat) :
    trailingZeros (w + 1) (2 * n) = trailingZeros w n + 1 := by
  simp [trailingZeros]

theorem trailingZeros_byte (w r : Nat) :
    trailingZeros (8 + w) (256 * r) = 8 + trailingZeros w r := by
  have split : 256 * r = 2 * (2 * (2 * (2 * (2 * (2 * (2 * (2 * r))))))) := by omega
  rw [split, Nat.add_comm 8 w]
  simp only [trailingZeros_double]
  omega

theorem trailingZeros_high (w r : Nat) : trailingZeros (8 + w) (0x80 + 256 * r) = 7 := by
  have split : 0x80 + 256 * r = 2 * (2 * (2 * (2 * (2 * (2 * (2 * (1 + 2 * r))))))) := by omega
  have odd : (1 + 2 * r) % 2 = 1 := by omega
  rw [split, Nat.add_comm 8 w]
  simp only [trailingZeros_double]
  simp [trailingZeros, odd]

theorem trailingZeros_word (chunk : List UInt8) :
    trailingZeros (8 * chunk.length) (leNat chunk &&& highMask chunk.length) / 8 =
      scanTail chunk := by
  induction chunk with
  | nil => rfl
  | cons b bs ih =>
    rw [length_cons, leNat, highMask, and_highMask_cons, scanTail_cons,
      Nat.mul_succ, Nat.add_comm _ 8]
    by_cases low : b < 0x80
    · rw [if_neg (UInt8.not_le.mpr low), if_pos low, Nat.zero_add, trailingZeros_byte, ← ih]
      omega
    · rw [if_pos (UInt8.not_lt.mp low), if_neg low, trailingZeros_high]

theorem word_ne_zero (chunk : List UInt8) :
    leNat chunk &&& highMask chunk.length ≠ 0 ↔ scanTail chunk < chunk.length := by
  induction chunk with
  | nil => simp [leNat, highMask]
  | cons b bs ih =>
    rw [length_cons, leNat, highMask, and_highMask_cons, scanTail_cons]
    by_cases low : b < 0x80
    · rw [if_neg (UInt8.not_le.mpr low), if_pos low]
      omega
    · rw [if_pos (UInt8.not_lt.mp low), if_neg low]
      omega

theorem wordHit_finds : Finds wordHit 8 := by
  intro chunk len
  have zeros := trailingZeros_word chunk
  have some_iff := word_ne_zero chunk
  rw [len] at zeros some_iff
  have mask : highMask 8 = highBits := rfl
  rw [mask] at zeros some_iff
  simp only [wordHit, some_iff]
  split
  · rw [← zeros]
  · rfl

theorem trailingZeros_bitmask (chunk : List UInt8) :
    trailingZeros chunk.length (bitmask chunk) = scanTail chunk := by
  induction chunk with
  | nil => rfl
  | cons b bs ih =>
    rw [length_cons, bitmask, scanTail_cons]
    by_cases low : b < 0x80
    · rw [if_neg (UInt8.not_le.mpr low), if_pos low, Nat.zero_add, trailingZeros_double, ih]
    · have odd : (1 + 2 * bitmask bs) % 2 = 1 := by omega
      rw [if_pos (UInt8.not_lt.mp low), if_neg low, trailingZeros, if_pos odd]

theorem bitmask_ne_zero (chunk : List UInt8) :
    bitmask chunk ≠ 0 ↔ scanTail chunk < chunk.length := by
  induction chunk with
  | nil => simp [bitmask]
  | cons b bs ih =>
    rw [length_cons, bitmask, scanTail_cons]
    by_cases low : b < 0x80
    · rw [if_neg (UInt8.not_le.mpr low), if_pos low]
      omega
    · rw [if_pos (UInt8.not_lt.mp low), if_neg low]
      omega

theorem laneHit_finds : Finds laneHit 16 := by
  intro chunk len
  have zeros := trailingZeros_bitmask chunk
  have some_iff := bitmask_ne_zero chunk
  rw [len] at zeros some_iff
  simp only [laneHit, some_iff]
  split
  · rw [← zeros]
  · rfl

/-- Either width finds the first non-ASCII byte. -/
theorem scanAsciiPrefix_eq (width : Width) (bytes : List UInt8) :
    scanAsciiPrefix width bytes = scanTail bytes := by
  cases width with
  | words => exact scanChunks_eq wordHit_finds _ bytes (Nat.div_mul_le_self _ _)
  | lanes => exact scanChunks_eq laneHit_finds _ bytes (Nat.div_mul_le_self _ _)

end Scan

/-! ### The folds -/

section Fold

/-- Upper or lower case of one byte. -/
def foldByte (upper : Bool) (b : UInt8) : UInt8 :=
  if upper then if isAsciiLowercase b then b - 0x20 else b
  else if isAsciiUppercase b then b + 0x20 else b

theorem flipInRange_eq (upper : Bool) (b : UInt8) :
    flipInRange (if upper then 0x61 else 0x41) b = foldByte upper b := by
  revert b
  apply forall_byte
  cases upper <;> decide +kernel

theorem laneFold_eq (upper : Bool) (b : UInt8) : laneFold upper b = foldByte upper b := by
  revert b
  apply forall_byte
  cases upper <;> decide +kernel

theorem laneTail_eq (upper : Bool) (b : UInt8) : laneTail upper b = foldByte upper b := by
  revert b
  apply forall_byte
  cases upper <;> decide +kernel

theorem titleByte_eq (atWordStart : Bool) (b : UInt8) :
    (if atWordStart then if isAsciiLowercase b then b &&& 0xDF else b
      else if isAsciiUppercase b then b ||| 0x20 else b) = foldByte atWordStart b := by
  revert b
  apply forall_byte
  cases atWordStart <;> decide +kernel

theorem foldLanes_eq (upper : Bool) (n : Nat) (bytes : List UInt8) :
    foldLanes upper n bytes = bytes.map (foldByte upper) := by
  induction n generalizing bytes with
  | zero => exact map_congr_left fun b _ => laneTail_eq upper b
  | succ n ih =>
    have lanes : laneFold upper = foldByte upper := funext (laneFold_eq upper)
    rw [foldLanes, ih, lanes, ← map_append, take_append_drop]

/-- Either width folds byte by byte. -/
theorem foldAsciiUpperLower_eq (width : Width) (upper : Bool) (bytes : List UInt8) :
    foldAsciiUpperLower width upper bytes = bytes.map (foldByte upper) := by
  cases width with
  | words => exact map_congr_left fun b _ => flipInRange_eq upper b
  | lanes => exact foldLanes_eq upper _ bytes

/-- The fold of ASCII bytes, whatever the width, and the word-start flag behind them. -/
def asciiFold : AsciiFoldMode → Bool → List UInt8 → List UInt8 × Bool
  | .upper, atWordStart, bytes => (bytes.map (foldByte true), atWordStart)
  | .lower, atWordStart, bytes => (bytes.map (foldByte false), atWordStart)
  | .title, atWordStart, bytes => foldAsciiPrefixTitle atWordStart bytes

@[simp] theorem asciiFold_nil (mode : AsciiFoldMode) (atWordStart : Bool) :
    asciiFold mode atWordStart [] = ([], atWordStart) := by
  cases mode <;> rfl

theorem caseFoldAsciiFast_eq (width : Width) (bytes : List UInt8) (mode : AsciiFoldMode)
    (atWordStart : Bool) : caseFoldAsciiFast width bytes mode atWordStart =
      ((asciiFold mode atWordStart bytes).1,
        ⟨bytes.length, (asciiFold mode atWordStart bytes).2⟩) := by
  cases bytes with
  | nil => simp [caseFoldAsciiFast]
  | cons b bs => cases mode <;> simp [caseFoldAsciiFast, asciiFold, foldAsciiUpperLower_eq]

theorem foldAsciiPrefix_eq (width : Width) (bytes : List UInt8) (mode : AsciiFoldMode)
    (atWordStart : Bool) : foldAsciiPrefix width bytes mode atWordStart =
      ((asciiFold mode atWordStart (bytes.take (scanTail bytes))).1,
        ⟨scanTail bytes, (asciiFold mode atWordStart (bytes.take (scanTail bytes))).2⟩) := by
  simp only [foldAsciiPrefix, scanAsciiPrefix_eq]
  by_cases none : scanTail bytes = 0
  · simp [none]
  · cases mode <;> simp [none, asciiFold, foldAsciiUpperLower_eq]

theorem foldByte_ascii {upper : Bool} {b : UInt8} (h : b < 0x80) : foldByte upper b < 0x80 := by
  revert h b
  apply forall_byte (p := fun b => b < 0x80 → foldByte upper b < 0x80)
  cases upper <;> decide +kernel

theorem foldAsciiPrefixTitle_cons (atWordStart : Bool) (b : UInt8) (bs : List UInt8) :
    foldAsciiPrefixTitle atWordStart (b :: bs) = if b ∈ [0x20, 0x09, 0x0A, 0x0B, 0x0C, 0x0D] then
        (b :: (foldAsciiPrefixTitle true bs).1, (foldAsciiPrefixTitle true bs).2)
      else (foldByte atWordStart b :: (foldAsciiPrefixTitle false bs).1,
        (foldAsciiPrefixTitle false bs).2) := by
  rw [foldAsciiPrefixTitle, titleByte_eq]

theorem asciiFold_ascii {mode : AsciiFoldMode} {atWordStart : Bool} {bytes : List UInt8}
    (h : ∀ b ∈ bytes, b < 0x80) : ∀ b ∈ (asciiFold mode atWordStart bytes).1, b < 0x80 := by
  have mapped : ∀ upper, ∀ b ∈ bytes.map (foldByte upper), b < 0x80 := by
    intro upper b hb
    obtain ⟨a, ha, rfl⟩ := mem_map.mp hb
    exact foldByte_ascii (h a ha)
  cases mode with
  | upper => exact mapped true
  | lower => exact mapped false
  | title =>
    clear mapped
    simp only [asciiFold]
    induction bytes generalizing atWordStart with
    | nil => simp [foldAsciiPrefixTitle]
    | cons a as ih =>
      have first := h a mem_cons_self
      have rest : ∀ w, ∀ b ∈ (foldAsciiPrefixTitle w as).1, b < 0x80 :=
        fun w => ih fun b hb => h b (mem_cons_of_mem a hb)
      rw [foldAsciiPrefixTitle_cons]
      split
      · simpa [first] using rest true
      · simpa [foldByte_ascii first] using rest false

theorem take_scanTail_ascii (bytes : List UInt8) : ∀ b ∈ bytes.take (scanTail bytes), b < 0x80 := by
  induction bytes with
  | nil => simp
  | cons a as ih =>
    rw [scanTail_cons]
    split
    · next low => simpa [low] using ih
    · simp

/-- The assertion that only ASCII was appended holds. -/
theorem foldAsciiPrefixIntoString_eq (width : Width) (bytes : List UInt8) (mode : AsciiFoldMode)
    (atWordStart : Bool) : foldAsciiPrefixIntoString width bytes mode atWordStart =
      some ((asciiFold mode atWordStart (bytes.take (scanTail bytes))).1,
        ⟨scanTail bytes, (asciiFold mode atWordStart (bytes.take (scanTail bytes))).2⟩) := by
  have ascii : ∀ b ∈ (asciiFold mode atWordStart (bytes.take (scanTail bytes))).1, b < 0x80 :=
    asciiFold_ascii (take_scanTail_ascii bytes)
  simp only [foldAsciiPrefixIntoString, foldAsciiPrefix_eq]
  rw [if_pos]
  rw [all_eq_true]
  intro b hb
  exact decide_eq_true (ascii b (mem_of_mem_take hb))

end Fold

end Relon.Unicode
