import Relon.Unicode.AsciiFold
import Relon.Unicode.Normalization

/-! Case folding of strings (`upper`, `lower` and `title` in `relon-evaluator/src/stdlib.rs`).

A fold takes one of four routes: short ASCII text is folded straight into the
inline slot, a text hinted to be ASCII goes through the byte fold, the ASCII
bytes in front of any other text go through it too, and what remains is folded
code point by code point. `plainFold` folds every code point by itself, with no
route and no running flag; all four routes compute it, except that the inline
title fold takes a vertical tab for a letter
(`foldStringToSmolWithHint_eq_plain_iff`). -/
namespace Relon.Unicode
open Bytes List

inductive CaseFoldMode where
  | upper
  | lower
  | title
  deriving DecidableEq, Repr

inductive AsciiHint where
  | unknown
  | allAscii
  | knownNonAscii
  deriving DecidableEq, Repr

/-- The case tables and the `char` methods the fold consults; entries are cut to their length. -/
structure Casing where
  isCombiningMark : Nat → Bool
  isCased : Nat → Bool
  isCaseIgnorable : Nat → Bool
  fullUpperEntry : Nat → Option (List Nat)
  fullLowerEntry : Nat → Option (List Nat)
  turkishUpperEntry : Nat → Option (List Nat)
  turkishLowerEntry : Nat → Option (List Nat)
  isWhitespace : Char → Bool
  toUppercase : Char → List Char
  toLowercase : Char → List Char

/-- What the byte folds rely on: the tables hold no ASCII code point, and the `char` methods are
the ASCII ones on ASCII. -/
structure AsciiCasing extends Casing where
  no_mark : ∀ c : Char, c.toNat < 128 → isCombiningMark c.toNat = false
  no_upper_entry : ∀ c : Char, c.toNat < 128 → fullUpperEntry c.toNat = none
  no_lower_entry : ∀ c : Char, c.toNat < 128 → fullLowerEntry c.toNat = none
  whitespace : ∀ c : Char, c.toNat < 128 →
    isWhitespace c = decide (c.toNat ∈ [0x20, 0x09, 0x0A, 0x0B, 0x0C, 0x0D])
  uppercase : ∀ c : Char, c.toNat < 128 → toUppercase c = [c.toUpper]
  lowercase : ∀ c : Char, c.toNat < 128 → toLowercase c = [c.toLower]

/-- The payload of a string. -/
def utf8 (s : List Char) : List UInt8 := s.flatMap String.utf8EncodeChar

section Code
variable (t : Casing)

/-- From the anchor to the left: a cased code point with only ignorable ones before it. -/
def casedBefore : List Char → Bool
  | [] => false
  | c :: rest =>
    if t.isCased c.toNat then true
    else if !t.isCaseIgnorable c.toNat then false else casedBefore rest

/-- From the anchor to the right: no cased code point behind ignorable ones. -/
def uncasedAfter : List Char → Bool
  | [] => true
  | c :: rest =>
    if t.isCased c.toNat then false
    else if !t.isCaseIgnorable c.toNat then true else uncasedAfter rest

def isFinalSigmaContext (cps : List Char) (anchor : Nat) : Bool :=
  if !casedBefore t (cps.take anchor).reverse then false
  else uncasedAfter t (cps.drop (anchor + 1))

/-- The code points written for `c`, at position `i`, in its effective mode. -/
def foldCodePoint (localeTurkish upper : Bool) (cps : List Char) (i : Nat) (c : Char) : List Char :=
  if !upper && c.toNat == 0x03A3 then
    encode [if isFinalSigmaContext t cps i then 0x03C2 else 0x03C3]
  else
    let override := if localeTurkish then
        if upper then t.turkishUpperEntry c.toNat else t.turkishLowerEntry c.toNat
      else none
    match override with
    | some slots => encode slots
    | none =>
      match if upper then t.fullUpperEntry c.toNat else t.fullLowerEntry c.toNat with
      | some slots => encode slots
      | none => if upper then t.toUppercase c else t.toLowercase c

/-- The effective mode is upper case. -/
def CaseFoldMode.effectiveUpper : CaseFoldMode → Bool → Bool
  | .upper, _ => true
  | .lower, _ => false
  | .title, atWordStart => atWordStart

/-- The loop over the code points from position `i` on. -/
def foldSlow (mode : CaseFoldMode) (localeTurkish : Bool) (cps : List Char) :
    Nat → Bool → List Char → List Char
  | _, _, [] => []
  | i, atWordStart, c :: rest =>
    if t.isCombiningMark c.toNat then
      c :: foldSlow mode localeTurkish cps (i + 1) atWordStart rest
    else if mode == .title && t.isWhitespace c then
      c :: foldSlow mode localeTurkish cps (i + 1) true rest
    else
      foldCodePoint t localeTurkish (mode.effectiveUpper atWordStart) cps i c ++
        foldSlow mode localeTurkish cps (i + 1) false rest

def CaseFoldMode.ascii : CaseFoldMode → AsciiFoldMode
  | .upper => .upper
  | .lower => .lower
  | .title => .title

/-- The route in front of the loop: the bytes it appends and how far it came. -/
def foldFast (width : Width) (s : List Char) (mode : CaseFoldMode) (localeTurkish : Bool)
    (hint : AsciiHint) : Option (List UInt8 × AsciiFastResult) :=
  if localeTurkish then some ([], ⟨0, true⟩)
  else match hint with
    | .allAscii => some (caseFoldAsciiFast width (utf8 s) mode.ascii true)
    | .knownNonAscii => some ([], ⟨0, true⟩)
    | .unknown => foldAsciiPrefixIntoString width (utf8 s) mode.ascii true

/-- `fold_string_with_ascii_hint`; none is a failed assertion. -/
def foldStringWithAsciiHint (width : Width) (s : List Char) (mode : CaseFoldMode)
    (localeTurkish : Bool) (hint : AsciiHint) : Option (List UInt8) := do
  let (out, fast) ← foldFast width s mode localeTurkish hint
  if fast.consumed = (utf8 s).length then return out
  return out ++
    utf8 (foldSlow t mode localeTurkish s fast.consumed fast.atWordStart (s.drop fast.consumed))

def smolStrInlineCap : Nat := 22

/-- `u8::is_ascii_whitespace`. -/
def isAsciiWhitespace (b : UInt8) : Bool := b ∈ [0x20, 0x09, 0x0A, 0x0C, 0x0D]

/-- The inline title fold. -/
def foldInlineTitle : Bool → List UInt8 → List UInt8
  | _, [] => []
  | atWordStart, b :: bs =>
    if isAsciiWhitespace b then b :: foldInlineTitle true bs
    else flipInRange (if atWordStart then 0x61 else 0x41) b :: foldInlineTitle false bs

/-- `fold_string_to_smol_ascii_fast`: the inline payload, if the text is short and ASCII. -/
def foldStringToSmolAsciiFast (s : List Char) (mode : CaseFoldMode) (hint : AsciiHint) :
    Option (List UInt8) :=
  let bytes := utf8 s
  if bytes.length > smolStrInlineCap then none
  else if hint = .knownNonAscii then none
  else if hint = .unknown ∧ ¬ bytes.all (· < 0x80) then none
  else match mode with
    | .upper => some (bytes.map (flipInRange 0x61))
    | .lower => some (bytes.map (flipInRange 0x41))
    | .title => some (foldInlineTitle true bytes)

/-- `fold_string_to_smol_with_hint`: the payload of the folded string. -/
def foldStringToSmolWithHint (width : Width) (s : List Char) (mode : CaseFoldMode)
    (localeTurkish : Bool) (hint : AsciiHint) : Option (List UInt8) :=
  match if localeTurkish then none else foldStringToSmolAsciiFast s mode hint with
  | some smol => some smol
  | none => foldStringWithAsciiHint t width s mode localeTurkish hint

end Code

/-! ### The plain definition -/

section Plain
variable (t : Casing)

/-- The code point behind `before` starts a word: what it follows, marks aside, is white space or
the start. -/
def startsWord (before : List Char) : Bool :=
  match before.reverse.find? fun c => !t.isCombiningMark c.toNat with
  | none => true
  | some c => t.isWhitespace c

/-- One code point between what stands before and after it. -/
def plainAt (mode : CaseFoldMode) (localeTurkish : Bool) (before : List Char) (c : Char)
    (after : List Char) : List Char :=
  let cased upper := foldCodePoint t localeTurkish upper (before ++ c :: after) before.length c
  if t.isCombiningMark c.toNat then [c]
  else match mode with
    | .upper => cased true
    | .lower => cased false
    | .title => if t.isWhitespace c then [c] else cased (startsWord t before)

def plainFrom (mode : CaseFoldMode) (localeTurkish : Bool) : List Char → List Char → List Char
  | _, [] => []
  | before, c :: after =>
    plainAt t mode localeTurkish before c after ++
      plainFrom mode localeTurkish (before ++ [c]) after

def plainFold (mode : CaseFoldMode) (localeTurkish : Bool) (s : List Char) : List Char :=
  plainFrom t mode localeTurkish [] s

end Plain

/-! ### The loop -/

section Loop
variable (t : Casing)

theorem startsWord_mark {before : List Char} {c : Char} (mark : t.isCombiningMark c.toNat = true) :
    startsWord t (before ++ [c]) = startsWord t before := by
  simp [startsWord, mark]

theorem startsWord_other {before : List Char} {c : Char}
    (other : t.isCombiningMark c.toNat = false) :
    startsWord t (before ++ [c]) = t.isWhitespace c := by
  simp [startsWord, other]

theorem foldSlow_eq (mode : CaseFoldMode) (localeTurkish : Bool) (before rest : List Char)
    {atWordStart : Bool} (flag : mode = .title → atWordStart = startsWord t before) :
    foldSlow t mode localeTurkish (before ++ rest) before.length atWordStart rest =
      plainFrom t mode localeTurkish before rest := by
  induction rest generalizing before atWordStart with
  | nil => rfl
  | cons c rest ih =>
    have next : ∀ {w}, (mode = .title → w = startsWord t (before ++ [c])) →
        foldSlow t mode localeTurkish (before ++ c :: rest) (before.length + 1) w rest =
          plainFrom t mode localeTurkish (before ++ [c]) rest := by
      intro w flag
      simpa using ih (before ++ [c]) flag
    rw [foldSlow, plainFrom]
    unfold plainAt
    cases mark : t.isCombiningMark c.toNat with
    | true =>
      have here := next (w := atWordStart) (by rwa [startsWord_mark t mark])
      simp [here]
    | false =>
      have other : startsWord t (before ++ [c]) = t.isWhitespace c := startsWord_other t mark
      cases mode with
      | upper => simp [CaseFoldMode.effectiveUpper, next (w := false) (by simp)]
      | lower => simp [CaseFoldMode.effectiveUpper, next (w := false) (by simp)]
      | title =>
        cases space : t.isWhitespace c with
        | true => simp [next (w := true) (by rw [other, space]; simp)]
        | false =>
          have here := next (w := false) (by rw [other, space]; simp)
          simp [CaseFoldMode.effectiveUpper, flag rfl, here]

end Loop

/-! ### ASCII text -/

section Ascii

/-- A statement about ASCII code points that holds of all 128 of them. -/
theorem forall_ascii {p : Char → Prop} (h : ∀ n : Fin 128, p (Char.ofNat n)) (c : Char)
    (ascii : c.toNat < 128) : p c := by
  have here := h ⟨c.toNat, ascii⟩
  rwa [Char.ofNat_toNat] at here

def byteOf (c : Char) : UInt8 := UInt8.ofNat c.toNat

theorem utf8_cons (c : Char) (s : List Char) : utf8 (c :: s) = String.utf8EncodeChar c ++ utf8 s :=
  flatMap_cons

theorem utf8_append (a b : List Char) : utf8 (a ++ b) = utf8 a ++ utf8 b :=
  flatMap_append

variable {c : Char} {s : List Char}

theorem encodeChar_ascii (ascii : c.toNat < 128) : String.utf8EncodeChar c = [byteOf c] := by
  have small : c.val.toNat ≤ 127 := by
    have : c.toNat = c.val.toNat := rfl
    omega
  rw [String.utf8EncodeChar]
  simp only [small, if_true]
  rfl

/-- The first byte of any other code point is not ASCII. -/
theorem encodeChar_other (other : ¬ c.toNat < 128) :
    ∃ b bs, String.utf8EncodeChar c = b :: bs ∧ ¬ b < 0x80 := by
  have big : ¬ c.val.toNat ≤ 127 := by
    have : c.toNat = c.val.toNat := rfl
    omega
  have lead : ∀ m k : Nat, 0 < k → m < k → 128 ≤ 256 - 2 * k →
      ¬ UInt8.ofNat (m + (256 - 2 * k)) < 0x80 := by
    intro m k positive small high
    rw [UInt8.lt_iff_toNat_lt, UInt8.toNat_ofNat_of_lt' (by change _ < 256; omega)]
    change ¬ _ < 128
    omega
  rw [String.utf8EncodeChar]
  simp only [big, if_false]
  split
  · exact ⟨_, _, rfl, lead _ 32 (by omega) (Nat.mod_lt _ (by omega)) (by omega)⟩
  · split
    · exact ⟨_, _, rfl, lead _ 16 (by omega) (Nat.mod_lt _ (by omega)) (by omega)⟩
    · exact ⟨_, _, rfl, lead _ 8 (by omega) (Nat.mod_lt _ (by omega)) (by omega)⟩

theorem byteOf_lt (ascii : c.toNat < 128) : byteOf c < 0x80 := by
  revert ascii c
  apply forall_ascii
  decide +kernel

theorem utf8_ascii_cons (ascii : c.toNat < 128) (s : List Char) :
    utf8 (c :: s) = byteOf c :: utf8 s := by
  rw [utf8_cons, encodeChar_ascii ascii, singleton_append]

theorem utf8_length_ascii (ascii : ∀ c ∈ s, c.toNat < 128) : (utf8 s).length = s.length := by
  induction s with
  | nil => rfl
  | cons c s ih =>
    rw [utf8_ascii_cons (ascii c mem_cons_self), length_cons, length_cons,
      ih fun d hd => ascii d (mem_cons_of_mem c hd)]

theorem utf8_all_ascii : (∀ b ∈ utf8 s, b < 0x80) ↔ ∀ c ∈ s, c.toNat < 128 := by
  constructor
  · intro h c hc
    by_contra other
    obtain ⟨b, bs, code, high⟩ := encodeChar_other other
    exact high (h b (mem_flatMap.mpr ⟨c, hc, by simp [code]⟩))
  · intro h b hb
    obtain ⟨c, hc, inside⟩ := mem_flatMap.mp hb
    rw [encodeChar_ascii (h c hc), mem_singleton] at inside
    subst inside
    exact byteOf_lt (h c hc)

theorem scanTail_utf8 {front rest : List Char} (ascii : ∀ c ∈ front, c.toNat < 128)
    (stop : ∀ c ∈ rest.head?, ¬ c.toNat < 128) :
    scanTail (utf8 (front ++ rest)) = front.length := by
  induction front with
  | nil =>
    cases rest with
    | nil => rfl
    | cons c rest =>
      obtain ⟨b, bs, code, high⟩ := encodeChar_other (stop c rfl)
      rw [nil_append, utf8_cons, code, cons_append, scanTail_cons, if_neg high]
      rfl
  | cons c front ih =>
    have first := ascii c mem_cons_self
    rw [cons_append, utf8_ascii_cons first, scanTail_cons, if_pos (byteOf_lt first),
      ih fun d hd => ascii d (mem_cons_of_mem c hd), length_cons]

/-- A text is the ASCII code points in front and what stands behind them. -/
theorem ascii_split (s : List Char) :
    ∃ front rest, s = front ++ rest ∧ (∀ c ∈ front, c.toNat < 128) ∧
      ∀ c ∈ rest.head?, ¬ c.toNat < 128 := by
  induction s with
  | nil => exact ⟨[], [], rfl, by simp, by simp⟩
  | cons c s ih =>
    by_cases first : c.toNat < 128
    · obtain ⟨front, rest, rfl, ascii, stop⟩ := ih
      refine ⟨c :: front, rest, rfl, ?_, stop⟩
      intro d hd
      rcases mem_cons.mp hd with rfl | hd
      · exact first
      · exact ascii d hd
    · exact ⟨[], c :: s, rfl, by simp, by simpa using first⟩

theorem utf8_toUpper (ascii : c.toNat < 128) : utf8 [c.toUpper] = [foldByte true (byteOf c)] := by
  revert ascii c
  apply forall_ascii
  decide +kernel

theorem utf8_toLower (ascii : c.toNat < 128) : utf8 [c.toLower] = [foldByte false (byteOf c)] := by
  revert ascii c
  apply forall_ascii
  decide +kernel

theorem space_byte (ascii : c.toNat < 128) : c.toNat ∈ [0x20, 0x09, 0x0A, 0x0B, 0x0C, 0x0D] ↔
      byteOf c ∈ [0x20, 0x09, 0x0A, 0x0B, 0x0C, 0x0D] := by
  revert ascii c
  apply forall_ascii
  decide +kernel

variable (t : AsciiCasing)

theorem foldCodePoint_ascii (upper : Bool) (cps : List Char) (i : Nat) {c : Char}
    (ascii : c.toNat < 128) :
    utf8 (foldCodePoint t.toCasing false upper cps i c) = [foldByte upper (byteOf c)] := by
  have sigma : (c.toNat == 0x03A3) = false := by simp; omega
  cases upper with
  | true =>
    rw [← utf8_toUpper ascii, ← t.uppercase c ascii]
    simp [foldCodePoint, t.no_upper_entry c ascii]
  | false =>
    rw [← utf8_toLower ascii, ← t.lowercase c ascii]
    simp [foldCodePoint, sigma, t.no_lower_entry c ascii]

/-- The byte fold of ASCII text is the plain fold, in any surroundings. -/
theorem plainFrom_ascii (mode : CaseFoldMode) (before front rest : List Char) {w : Bool}
    (ascii : ∀ c ∈ front, c.toNat < 128) (flag : mode = .title → w = startsWord t.toCasing before) :
    utf8 (plainFrom t.toCasing mode false before (front ++ rest)) =
        (asciiFold mode.ascii w (utf8 front)).1 ++
          utf8 (plainFrom t.toCasing mode false (before ++ front) rest) ∧
      (mode = .title → (asciiFold mode.ascii w (utf8 front)).2 =
        startsWord t.toCasing (before ++ front)) := by
  induction front generalizing before w with
  | nil => simpa [utf8] using flag
  | cons c front ih =>
    have first := ascii c mem_cons_self
    have unmarked := t.no_mark c first
    have after : startsWord t.toCasing (before ++ [c]) = t.isWhitespace c :=
      startsWord_other t.toCasing unmarked
    have behind : ∀ d ∈ front, d.toNat < 128 := fun d hd => ascii d (mem_cons_of_mem c hd)
    rw [cons_append, plainFrom, utf8_append, utf8_ascii_cons first]
    unfold plainAt
    cases mode with
    | upper =>
      obtain ⟨here, -⟩ := ih (before ++ [c]) (w := w) behind (by simp)
      simp [unmarked, foldCodePoint_ascii t true _ _ first, here, asciiFold, CaseFoldMode.ascii]
    | lower =>
      obtain ⟨here, -⟩ := ih (before ++ [c]) (w := w) behind (by simp)
      simp [unmarked, foldCodePoint_ascii t false _ _ first, here, asciiFold, CaseFoldMode.ascii]
    | title =>
      have white := t.whitespace c first
      obtain ⟨here, last⟩ := ih (before ++ [c]) (w := t.isWhitespace c) behind (by simp [after])
      simp only [CaseFoldMode.ascii, asciiFold] at here last ⊢
      rw [foldAsciiPrefixTitle_cons, here]
      by_cases space : byteOf c ∈ [0x20, 0x09, 0x0A, 0x0B, 0x0C, 0x0D]
      · have isSpace : t.isWhitespace c = true :=
          white.trans (decide_eq_true ((space_byte first).mpr space))
        have alone : utf8 [c] = [byteOf c] := utf8_ascii_cons first []
        rw [isSpace] at last ⊢
        simp [unmarked, space, alone, last]
      · have isSpace : t.isWhitespace c = false :=
          white.trans (decide_eq_false (mt (space_byte first).mp space))
        rw [isSpace] at last ⊢
        simp [unmarked, space, foldCodePoint_ascii t _ _ _ first, flag, last]

end Ascii

/-! ### The routes -/

section Routes
variable (t : AsciiCasing)

/-- The hint says nothing false of the text. -/
def AsciiHint.Consistent (s : List Char) : AsciiHint → Prop
  | .unknown => True
  | .allAscii => ∀ c ∈ s, c.toNat < 128
  | .knownNonAscii => ∃ c ∈ s, ¬ c.toNat < 128

/-- `AsciiHint::from_smol`. -/
def AsciiHint.fromSmol (s : List Char) : AsciiHint :=
  if (utf8 s).all (· < 0x80) then .allAscii else .knownNonAscii

theorem AsciiHint.fromSmol_consistent (s : List Char) : (fromSmol s).Consistent s := by
  have ascii : (utf8 s).all (· < 0x80) = true ↔ ∀ c ∈ s, c.toNat < 128 := by
    rw [← utf8_all_ascii, all_eq_true]
    simp
  unfold fromSmol
  split
  · next all => exact ascii.mp all
  · next other =>
    rw [ascii] at other
    exact not_forall₂.mp other |>.imp fun c h => ⟨h.1, h.2⟩

variable {s : List Char} {hint : AsciiHint}

/-- What the route in front of the loop has done, whatever it was: folded a front of the text
plainly, and kept the flag. -/
theorem foldFast_eq (width : Width) (mode : CaseFoldMode) (localeTurkish : Bool)
    (consistent : hint.Consistent s) :
    ∃ front rest out w, s = front ++ rest ∧ (utf8 front).length = front.length ∧
      foldFast width s mode localeTurkish hint = some (out, ⟨front.length, w⟩) ∧
      utf8 (plainFold t.toCasing mode localeTurkish s) =
        out ++ utf8 (plainFrom t.toCasing mode localeTurkish front rest) ∧
      (mode = .title → w = startsWord t.toCasing front) := by
  cases localeTurkish with
  | true => exact ⟨[], s, [], true, rfl, rfl, rfl, rfl, fun _ => rfl⟩
  | false =>
    cases hint with
    | knownNonAscii => exact ⟨[], s, [], true, rfl, rfl, rfl, rfl, fun _ => rfl⟩
    | allAscii =>
      obtain ⟨plain, flag⟩ := plainFrom_ascii t mode [] s [] consistent (w := true) fun _ => rfl
      rw [append_nil] at plain
      refine ⟨s, [], _, _, (append_nil s).symm, utf8_length_ascii consistent, ?_, plain, flag⟩
      rw [foldFast, if_neg (by simp), caseFoldAsciiFast_eq, utf8_length_ascii consistent]
    | unknown =>
      obtain ⟨front, rest, rfl, ascii, stop⟩ := ascii_split s
      obtain ⟨plain, flag⟩ := plainFrom_ascii t mode [] front rest ascii (w := true) fun _ => rfl
      have taken : (utf8 (front ++ rest)).take front.length = utf8 front := by
        rw [utf8_append, take_left' (utf8_length_ascii ascii)]
      refine ⟨front, rest, _, _, rfl, utf8_length_ascii ascii, ?_, plain, flag⟩
      rw [foldFast, if_neg (by simp), foldAsciiPrefixIntoString_eq, scanTail_utf8 ascii stop, taken]

/-- With a consistent hint every route but the inline one folds plainly. -/
theorem foldStringWithAsciiHint_eq (width : Width) (mode : CaseFoldMode) (localeTurkish : Bool)
    (consistent : hint.Consistent s) :
    foldStringWithAsciiHint t.toCasing width s mode localeTurkish hint =
      some (utf8 (plainFold t.toCasing mode localeTurkish s)) := by
  obtain ⟨front, rest, out, w, rfl, length, fast, plain, flag⟩ :=
    foldFast_eq t width mode localeTurkish consistent
  rw [foldStringWithAsciiHint, fast]
  simp only [Option.pure_def, Option.bind_eq_bind, Option.bind_some]
  by_cases whole : front.length = (utf8 (front ++ rest)).length
  · have empty : rest = [] := by
      rw [utf8_append, length_append, length] at whole
      cases rest with
      | nil => rfl
      | cons c rest =>
        have positive : 0 < (String.utf8EncodeChar c).length := by
          rw [String.length_utf8EncodeChar]
          exact c.utf8Size_pos
        rw [utf8_cons, length_append] at whole
        omega
    rw [if_pos whole, plain, empty]
    simp [plainFrom, utf8]
  · rw [if_neg whole, drop_left, foldSlow_eq t.toCasing mode localeTurkish front rest flag,
      plain]

/-- The text holds a letter directly behind a vertical tab. -/
def LetterAfterTab (s : List Char) : Prop :=
  ∃ front c rest, s = front ++ '\u000b' :: c :: rest ∧ c.isAlpha

theorem letterAfterTab_cons (a : Char) (s : List Char) :
    LetterAfterTab (a :: s) ↔ (a = '\u000b' ∧ ∃ c ∈ s.head?, c.isAlpha) ∨ LetterAfterTab s := by
  constructor
  · rintro ⟨front, c, rest, split, letter⟩
    cases front with
    | nil =>
      obtain ⟨rfl, rfl⟩ := List.cons.inj split
      exact Or.inl ⟨rfl, c, rfl, letter⟩
    | cons b front =>
      obtain ⟨rfl, rfl⟩ := List.cons.inj split
      exact Or.inr ⟨front, c, rest, rfl, letter⟩
  · rintro (⟨rfl, c, first, letter⟩ | ⟨front, c, rest, rfl, letter⟩)
    · cases s with
      | nil => cases first
      | cons d s =>
        obtain rfl := Option.some.inj first
        exact ⟨[], d, s, rfl, letter⟩
    · exact ⟨a :: front, c, rest, rfl, letter⟩

/-- The kinds of ASCII code points the two title folds tell apart. -/
theorem title_kinds {c : Char} (ascii : c.toNat < 128) :
    (isAsciiWhitespace (byteOf c) = true ∧ byteOf c ∈ [0x20, 0x09, 0x0A, 0x0B, 0x0C, 0x0D] ∧
        c ≠ '\u000b' ∧ ¬ c.isAlpha) ∨ c = '\u000b' ∨
      (isAsciiWhitespace (byteOf c) = false ∧ byteOf c ∉ [0x20, 0x09, 0x0A, 0x0B, 0x0C, 0x0D] ∧
        c ≠ '\u000b' ∧ (foldByte false (byteOf c) = foldByte true (byteOf c) ↔ ¬ c.isAlpha)) := by
  revert ascii c
  apply forall_ascii
  decide +kernel

theorem foldInlineTitle_cons (w : Bool) (b : UInt8) (bs : List UInt8) :
    foldInlineTitle w (b :: bs) = if isAsciiWhitespace b then b :: foldInlineTitle true bs
      else foldByte w b :: foldInlineTitle false bs := by
  rw [foldInlineTitle, flipInRange_eq]

theorem foldInlineTitle_eq_iff (ascii : ∀ c ∈ s, c.toNat < 128) :
    (∀ w, foldInlineTitle w (utf8 s) = (foldAsciiPrefixTitle w (utf8 s)).1 ↔ ¬ LetterAfterTab s) ∧
      (foldInlineTitle false (utf8 s) = (foldAsciiPrefixTitle true (utf8 s)).1 ↔
        ¬ LetterAfterTab ('\u000b' :: s)) := by
  induction s with
  | nil =>
    have none : ∀ s : List Char, s.length ≤ 1 → ¬ LetterAfterTab s := by
      rintro _ short ⟨front, c, rest, rfl, _⟩
      simp at short
      omega
    simp [utf8, foldInlineTitle, foldAsciiPrefixTitle, none]
  | cons c s ih =>
    obtain ⟨same, behind⟩ := ih fun d hd => ascii d (mem_cons_of_mem c hd)
    have first := ascii c mem_cons_self
    rw [letterAfterTab_cons '\u000b', letterAfterTab_cons c, utf8_ascii_cons first]
    simp only [foldInlineTitle_cons, foldAsciiPrefixTitle_cons]
    rcases title_kinds first with ⟨white, space, other, plain⟩ | rfl | ⟨ink, solid, other, letter⟩
    · simp [white, space, other, plain, same]
    · have white : isAsciiWhitespace (byteOf '\u000b') = false := rfl
      have space : byteOf '\u000b' ∈ [0x20, 0x09, 0x0A, 0x0B, 0x0C, 0x0D] := by decide
      have still : ∀ w, foldByte w (byteOf '\u000b') = byteOf '\u000b' := by decide
      have plain : ¬ '\u000b'.isAlpha := by decide
      rw [letterAfterTab_cons] at behind
      simpa [white, space, still, plain] using behind
    · simp [ink, solid, other, same, letter]

/-- The inline route, for a short ASCII text and for any other. -/
theorem foldStringToSmolAsciiFast_eq [Decidable (∀ c ∈ s, c.toNat < 128)] (mode : CaseFoldMode)
    (consistent : hint.Consistent s) : foldStringToSmolAsciiFast s mode hint =
      if (∀ c ∈ s, c.toNat < 128) ∧ (utf8 s).length ≤ smolStrInlineCap then
        some (match mode with
          | .title => foldInlineTitle true (utf8 s)
          | .upper | .lower => (asciiFold mode.ascii true (utf8 s)).1)
      else none := by
  have upper : flipInRange 0x61 = foldByte true := funext (flipInRange_eq true)
  have lower : flipInRange 0x41 = foldByte false := funext (flipInRange_eq false)
  have scan : (utf8 s).all (· < 0x80) = true ↔ ∀ c ∈ s, c.toNat < 128 := by
    rw [← utf8_all_ascii, all_eq_true]
    simp
  have known : hint = .knownNonAscii → ¬ ∀ c ∈ s, c.toNat < 128 := by
    rintro rfl ascii
    obtain ⟨c, hc, other⟩ := consistent
    exact other (ascii c hc)
  have hinted : hint = .allAscii → ∀ c ∈ s, c.toNat < 128 := by
    rintro rfl
    exact consistent
  simp only [foldStringToSmolAsciiFast, scan]
  by_cases short : (utf8 s).length ≤ smolStrInlineCap
  · by_cases ascii : ∀ c ∈ s, c.toNat < 128
    · have unknown : ¬ (hint = .unknown ∧ ¬ ∀ c ∈ s, c.toNat < 128) := fun h => h.2 ascii
      rw [if_neg (by omega), if_neg fun is => known is ascii, if_neg unknown,
        if_pos ⟨ascii, short⟩]
      cases mode <;> simp [asciiFold, CaseFoldMode.ascii, upper, lower]
    · have route : ¬ ((∀ c ∈ s, c.toNat < 128) ∧ (utf8 s).length ≤ smolStrInlineCap) :=
        fun h => ascii h.1
      rw [if_neg (by omega), if_neg route]
      cases hint with
      | unknown => rw [if_neg (by decide), if_pos ⟨rfl, ascii⟩]
      | allAscii => exact absurd (hinted rfl) ascii
      | knownNonAscii => rfl
  · rw [if_pos (by omega), if_neg (by simp [short])]

/-- Every route folds plainly, except that the inline title fold leaves a letter behind a vertical
tab in lower case. -/
theorem foldStringToSmolWithHint_eq_plain_iff (width : Width) (s : List Char) (mode : CaseFoldMode)
    (localeTurkish : Bool) (hint : AsciiHint) (consistent : hint.Consistent s) :
    foldStringToSmolWithHint t.toCasing width s mode localeTurkish hint =
        some (utf8 (plainFold t.toCasing mode localeTurkish s)) ↔
      ¬ (mode = .title ∧ localeTurkish = false ∧ (∀ c ∈ s, c.toNat < 128) ∧
        (utf8 s).length ≤ smolStrInlineCap ∧ LetterAfterTab s) := by
  have general := foldStringWithAsciiHint_eq t width mode localeTurkish consistent
  unfold foldStringToSmolWithHint
  cases localeTurkish with
  | true => simpa using general
  | false =>
    simp only [foldStringToSmolAsciiFast_eq mode consistent, Bool.false_eq_true, if_false]
    by_cases inline : (∀ c ∈ s, c.toNat < 128) ∧ (utf8 s).length ≤ smolStrInlineCap
    · have plain : utf8 (plainFold t.toCasing mode false s) =
          (asciiFold mode.ascii true (utf8 s)).1 := by
        have whole := (plainFrom_ascii t mode [] s [] inline.1 (w := true) fun _ => rfl).1
        simpa [plainFrom, utf8, plainFold] using whole
      have title := (foldInlineTitle_eq_iff inline.1).1 true
      rw [if_pos inline, plain]
      cases mode with
      | upper => simp
      | lower => simp
      | title =>
        simp only [asciiFold, CaseFoldMode.ascii, Option.some.injEq, title]
        constructor
        · rintro none ⟨_, _, _, _, letter⟩
          exact none letter
        · intro none letter
          exact none ⟨trivial, trivial, inline.1, inline.2, letter⟩
    · rw [if_neg inline]
      simp only [general, true_iff]
      rintro ⟨_, _, ascii, short, _⟩
      exact inline ⟨ascii, short⟩

/-- The tables cut down to ASCII. -/
def asciiCasing : AsciiCasing where
  isCombiningMark cp := 0x300 ≤ cp && cp ≤ 0x36F
  isCased cp := (0x41 ≤ cp && cp ≤ 0x5A) || (0x61 ≤ cp && cp ≤ 0x7A)
  isCaseIgnorable cp := cp == 0x27
  fullUpperEntry cp := if cp = 0xDF then some [0x53, 0x53] else none
  fullLowerEntry cp := if cp = 0x130 then some [0x69, 0x307] else none
  turkishUpperEntry cp := if cp = 0x69 then some [0x130] else none
  turkishLowerEntry cp := if cp = 0x49 then some [0x131] else none
  isWhitespace c := decide (c.toNat ∈ [0x20, 0x09, 0x0A, 0x0B, 0x0C, 0x0D])
  toUppercase c := [c.toUpper]
  toLowercase c := [c.toLower]
  no_mark c ascii := by simp; omega
  no_upper_entry c ascii := if_neg (by omega)
  no_lower_entry c ascii := if_neg (by omega)
  whitespace _ _ := rfl
  uppercase _ _ := rfl
  lowercase _ _ := rfl

/-- A letter behind a vertical tab: title case in the plain fold, lower case in the inline one. -/
theorem inline_title_misses_vertical_tab : AsciiHint.Consistent ['a', '\u000b', 'b'] .allAscii ∧
      foldStringToSmolWithHint asciiCasing.toCasing .words ['a', '\u000b', 'b'] .title false
        .allAscii = some (utf8 ['A', '\u000b', 'b']) ∧
      plainFold asciiCasing.toCasing .title false ['a', '\u000b', 'b'] = ['A', '\u000b', 'B'] := by
  refine ⟨?_, ?_, ?_⟩
  · simp [AsciiHint.Consistent]
  · decide +kernel
  · decide +kernel

/-- Behind a space the inline fold and the plain one agree. -/
theorem inline_title_agrees_behind_space : AsciiHint.Consistent ['a', ' ', 'b'] .allAscii ∧
      foldStringToSmolWithHint asciiCasing.toCasing .words ['a', ' ', 'b'] .title false .allAscii =
        some (utf8 (plainFold asciiCasing.toCasing .title false ['a', ' ', 'b'])) := by
  have consistent : AsciiHint.Consistent ['a', ' ', 'b'] .allAscii := by
    simp [AsciiHint.Consistent]
  have calm : ¬ LetterAfterTab ['a', ' ', 'b'] := by
    rintro ⟨front, c, rest, split, _⟩
    have tab : '\u000b' ∈ ['a', ' ', 'b'] := by
      rw [split]
      simp
    exact absurd tab (by decide)
  exact ⟨consistent, (foldStringToSmolWithHint_eq_plain_iff asciiCasing .words _ .title false _
    consistent).mpr fun ⟨_, _, _, _, letter⟩ => calm letter⟩

end Routes

end Relon.Unicode
