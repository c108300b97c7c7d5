import Relon.Unicode.CaseFold

/-! UTF-8 as the compiled string bodies rely on it.

They never decode to search: a string occurs in another where its bytes do. That is so
because a code is found again from its first byte, and no byte inside a code starts one. -/
namespace Relon.Unicode
open List

variable {c : Char} {done rest a b : List Char}

/-- The bytes of a code point, by their number. -/
inductive Encoded (v : Nat) : List UInt8 → Prop where
  | one {b₀ : UInt8} : v < 128 → b₀.toNat = v → Encoded v [b₀]
  | two {b₀ b₁ : UInt8} : 128 ≤ v → v < 2048 → b₀.toNat = v / 64 + 192 → b₁.toNat = v % 64 + 128 →
    Encoded v [b₀, b₁]
  | three {b₀ b₁ b₂ : UInt8} : 2048 ≤ v → v < 65536 → b₀.toNat = v / 4096 + 224 →
    b₁.toNat = v / 64 % 64 + 128 → b₂.toNat = v % 64 + 128 → Encoded v [b₀, b₁, b₂]
  | four {b₀ b₁ b₂ b₃ : UInt8} : 65536 ≤ v → v < 1114112 → b₀.toNat = v / 262144 + 240 →
    b₁.toNat = v / 4096 % 64 + 128 → b₂.toNat = v / 64 % 64 + 128 → b₃.toNat = v % 64 + 128 →
    Encoded v [b₀, b₁, b₂, b₃]

theorem encoded (c : Char) : Encoded c.toNat (String.utf8EncodeChar c) := by
  have value : c.toNat = c.val.toNat := rfl
  have byte : ∀ n : Nat, n < 256 → (UInt8.ofNat n).toNat = n := fun n small =>
    UInt8.toNat_ofNat_of_lt' small
  have small : c.toNat < 1114112 := by
    have valid := c.valid
    rw [UInt32.isValidChar, Nat.isValidChar] at valid
    omega
  rw [String.utf8EncodeChar]
  simp only [← value]
  by_cases one : c.toNat ≤ 127
  · rw [if_pos one]
    exact .one (by omega) (byte _ (by omega))
  · rw [if_neg one]
    by_cases two : c.toNat ≤ 2047
    · rw [if_pos two]
      exact .two (by omega) (by omega) ((byte _ (by omega)).trans (by omega)) (byte _ (by omega))
    · rw [if_neg two]
      by_cases three : c.toNat ≤ 65535
      · rw [if_pos three]
        exact .three (by omega) (by omega) ((byte _ (by omega)).trans (by omega))
          (byte _ (by omega)) (byte _ (by omega))
      · rw [if_neg three]
        exact .four (by omega) small ((byte _ (by omega)).trans (by omega)) (byte _ (by omega))
          (byte _ (by omega)) (byte _ (by omega))

theorem utf8_eq_nil (none : utf8 rest = []) : rest = [] := by
  cases rest with
  | nil => rfl
  | cons c rest =>
    rw [utf8_cons] at none
    have code := encoded c
    rw [(append_eq_nil_iff.mp none).1] at code
    cases code

theorem length_utf8_concat : (utf8 (done ++ [c])).length =
    (utf8 done).length + (String.utf8EncodeChar c).length := by
  rw [utf8_append, utf8_cons]
  simp [utf8]

/-- A byte that starts a code. -/
def leads (b : UInt8) : Bool := b.toNat &&& 0xC0 != 0x80

theorem leads_iff (b : UInt8) : leads b = true ↔ b.toNat < 128 ∨ 192 ≤ b.toNat := by
  have all : ∀ n < 256, ((n &&& 0xC0 != 0x80) = true ↔ n < 128 ∨ 192 ≤ n) := by decide +kernel
  exact all b.toNat b.toNat_lt

theorem not_leads {b : UInt8} (low : 128 ≤ b.toNat) (high : b.toNat < 192) : leads b = false := by
  refine eq_false_of_ne_true fun first => ?_
  have := (leads_iff b).mp first
  omega

/-- The first byte of a code starts one, the others do not. -/
theorem Encoded.leads {v : Nat} {bs : List UInt8} (code : Encoded v bs) :
    ∃ b tail, bs = b :: tail ∧ Unicode.leads b = true ∧ ∀ x ∈ tail, Unicode.leads x = false := by
  cases code with
  | one small v₀ => exact ⟨_, [], rfl, (leads_iff _).mpr (by omega), by simp⟩
  | two low small v₀ v₁ =>
    refine ⟨_, [_], rfl, (leads_iff _).mpr (by omega), ?_⟩
    simp only [mem_singleton, forall_eq]
    exact not_leads (by omega) (by omega)
  | three low small v₀ v₁ v₂ =>
    refine ⟨_, [_, _], rfl, (leads_iff _).mpr (by omega), ?_⟩
    simp only [mem_cons, not_mem_nil, or_false, forall_eq_or_imp, forall_eq]
    exact ⟨not_leads (by omega) (by omega), not_leads (by omega) (by omega)⟩
  | four low small v₀ v₁ v₂ v₃ =>
    refine ⟨_, [_, _, _], rfl, (leads_iff _).mpr (by omega), ?_⟩
    simp only [mem_cons, not_mem_nil, or_false, forall_eq_or_imp, forall_eq]
    exact ⟨not_leads (by omega) (by omega), not_leads (by omega) (by omega),
      not_leads (by omega) (by omega)⟩

/-- The value of a first byte tells how long its code is. -/
theorem Encoded.length {v : Nat} {b : UInt8} {tail : List UInt8} (code : Encoded v (b :: tail)) :
    (b :: tail).length = if b.toNat < 128 then 1 else if b.toNat < 224 then 2
      else if b.toNat < 240 then 3 else 4 := by
  cases code with
  | one small v₀ => rw [if_pos (by omega)]; rfl
  | two low small v₀ v₁ => rw [if_neg (by omega), if_pos (by omega)]; rfl
  | three low small v₀ v₁ v₂ => rw [if_neg (by omega), if_neg (by omega), if_pos (by omega)]; rfl
  | four low small v₀ v₁ v₂ v₃ =>
    rw [if_neg (by omega), if_neg (by omega), if_neg (by omega)]
    rfl

/-- A code stands for one value. -/
theorem Encoded.value {v w : Nat} {bs : List UInt8} (first : Encoded v bs) (second : Encoded w bs) :
    v = w := by
  cases first <;> cases second <;> omega

/-- A code is not the start of another one. -/
theorem Encoded.unique {v w : Nat} {x y xs ys : List UInt8} (first : Encoded v x)
    (second : Encoded w y) (same : x ++ xs = y ++ ys) : v = w ∧ xs = ys := by
  obtain ⟨b, tail, rfl, -⟩ := first.leads
  obtain ⟨b', tail', rfl, -⟩ := second.leads
  obtain rfl : b = b' := (List.cons.inj same).1
  have long : (b :: tail).length = (b :: tail').length := first.length.trans second.length.symm
  obtain ⟨codes, rest⟩ := append_inj same long
  rw [codes] at first
  exact ⟨first.value second, rest⟩

/-- Bytes at the start are code points at the start. -/
theorem prefix_of_utf8_prefix (starts : utf8 a <+: utf8 b) : a <+: b := by
  induction a generalizing b with
  | nil => exact List.nil_prefix
  | cons x a ih =>
    cases b with
    | nil => exact absurd (utf8_eq_nil (prefix_nil.mp starts)) (by simp)
    | cons y b =>
      obtain ⟨tail, same⟩ := starts
      rw [utf8_cons, utf8_cons, append_assoc] at same
      obtain ⟨value, rest⟩ := (encoded x).unique (encoded y) same
      obtain rfl : x = y := Char.toNat_inj.mp value
      exact (cons_prefix_cons).mpr ⟨rfl, ih ⟨tail, rest⟩⟩

end Relon.Unicode
