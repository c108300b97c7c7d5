import Relon.Lib.CanonicalOrder

/-! Unicode normalization (`relon-unicode/src/normalization.rs`).

A string is the list of its `char`s and a code point a natural number. The
generated tables enter through their lookup functions (`Lookups`), and `Tables`
adds what the generator guarantees of them: decompositions are fully expanded,
and a composition pair undoes the decomposition of its composite.

The composition pass is a scan with the position of the last starter and the
class of the last mark it emitted. It refuses a mark that is blocked, but never a
starter: a starter is absorbed even when marks stand between it and the last one
(`Leaps`). `forms_consistent_iff` says that this is all that keeps the four forms
from agreeing with one another. -/
namespace Relon.Unicode
open CanonicalOrder List Option

def hangulSBase : Nat := 0xAC00
def hangulLBase : Nat := 0x1100
def hangulVBase : Nat := 0x1161
def hangulTBase : Nat := 0x11A7
def hangulLCount : Nat := 19
def hangulVCount : Nat := 21
def hangulTCount : Nat := 28
def hangulNCount : Nat := hangulVCount * hangulTCount
def hangulSCount : Nat := hangulLCount * hangulNCount

/-- A precomposed Hangul syllable. -/
def Syllable (cp : Nat) : Prop := hangulSBase ≤ cp ∧ cp < hangulSBase + hangulSCount

instance (cp : Nat) : Decidable (Syllable cp) := inferInstanceAs (Decidable (_ ∧ _))

/-- The jamo a syllable pushes, none for any other code point. -/
def hangulDecomposeInto (cp : Nat) : Option (List Nat) :=
  if Syllable cp then
    let sIndex := cp - hangulSBase
    let l := hangulLBase + sIndex / hangulNCount
    let v := hangulVBase + sIndex % hangulNCount / hangulTCount
    let tOffset := sIndex % hangulTCount
    some ([l, v] ++ if tOffset ≠ 0 then [hangulTBase + tOffset] else [])
  else none

def hangulCompose (first second : Nat) : Option Nat :=
  if hangulLBase ≤ first ∧ first < hangulLBase + hangulLCount ∧
      hangulVBase ≤ second ∧ second < hangulVBase + hangulVCount then
    let lIndex := first - hangulLBase
    let vIndex := second - hangulVBase
    some (hangulSBase + (lIndex * hangulVCount + vIndex) * hangulTCount)
  else if Syllable first ∧ (first - hangulSBase) % hangulTCount = 0 ∧
      hangulTBase + 1 ≤ second ∧ second < hangulTBase + hangulTCount then
    some (first + (second - hangulTBase))
  else none

inductive DecompKind where
  | canonical
  | compatibility
  deriving DecidableEq, Repr

/-- The lookups in the generated tables. -/
structure Lookups where
  ccc : Nat → Nat
  nfdLookup : Nat → Option (List Nat)
  nfkdLookup : Nat → Option (List Nat)
  composePair : Nat → Nat → Option Nat

def Lookups.mapping (t : Lookups) : DecompKind → Nat → Option (List Nat)
  | .canonical => t.nfdLookup
  | .compatibility => t.nfkdLookup

/-- What one code point contributes to the decomposition buffer. -/
def Lookups.expand (t : Lookups) (kind : DecompKind) (cp : Nat) : List Nat :=
  match hangulDecomposeInto cp with
  | some jamo => jamo
  | none => (t.mapping kind cp).getD [cp]

/-- The tables, with what their generator guarantees. -/
structure Tables extends Lookups where
  /-- Decompositions hold code points with no decomposition of their own. -/
  expanded : ∀ kind cp m, toLookups.mapping kind cp = some m →
    ∀ x ∈ m, toLookups.mapping kind x = none ∧ ¬ Syllable x
  /-- The jamo of a syllable are fully decomposed. -/
  jamo : ∀ kind cp m, hangulDecomposeInto cp = some m →
    ∀ x ∈ m, toLookups.mapping kind x = none
  /-- Canonical entries are duplicated in the compatibility table. -/
  canonical : ∀ cp, nfkdLookup cp = none → nfdLookup cp = none
  /-- A composition pair undoes a canonical decomposition. -/
  inverts : ∀ a b c, composePair a b = some c →
    reorder ccc (toLookups.expand .canonical c) =
      reorder ccc (toLookups.expand .canonical a ++ toLookups.expand .canonical b)
  scalar : ∀ kind cp m, toLookups.mapping kind cp = some m → ∀ x ∈ m, x.isValidChar
  composite_scalar : ∀ a b c, composePair a b = some c → c.isValidChar

section Forms
variable (t : Lookups)

def decomposeToBuffer (input : List Char) (kind : DecompKind) : List Nat :=
  input.flatMap fun ch => t.expand kind ch.toNat

/-- The reorder loop from a run of marks already passed: the run is sorted, stably, at the
starter or the end that closes it. -/
def canonicalReorderFrom : List Nat → List Nat → List Nat
  | run, [] => run.insertionSort fun a b => t.ccc a ≤ t.ccc b
  | run, cp :: rest =>
    if t.ccc cp = 0 then
      (run.insertionSort fun a b => t.ccc a ≤ t.ccc b) ++ cp :: canonicalReorderFrom [] rest
    else canonicalReorderFrom (run ++ [cp]) rest

def canonicalReorder (buf : List Nat) : List Nat := canonicalReorderFrom t [] buf

def decomposeAndReorder (input : List Char) (kind : DecompKind) : List Nat :=
  canonicalReorder t (decomposeToBuffer t input kind)

/-- `char::from_u32`. -/
def fromU32 (cp : Nat) : Option Char :=
  if cp.isValidChar then some (Char.ofNat cp) else none

def encode (cps : List Nat) : List Char := cps.filterMap fromU32

def toNfd (input : List Char) : List Char := encode (decomposeAndReorder t input .canonical)

def toNfkd (input : List Char) : List Char := encode (decomposeAndReorder t input .compatibility)

/-- The locals of the composition pass; no last starter is `usize::MAX`. -/
structure Scan where
  out : List Nat
  lastStarter : Option Nat
  lastCcc : Nat
  deriving DecidableEq, Repr

def Scan.start : Scan := ⟨[], none, 0⟩

/-- The live starter's position and the composite it would become with `cp`. -/
def Scan.composed (s : Scan) (cp : Nat) : Option (Nat × Nat) := do
  let i ← s.lastStarter
  let starterCp ← s.out[i]?
  let comp ← (hangulCompose starterCp cp).or (t.composePair starterCp cp)
  return (i, comp)

def Scan.blocked (s : Scan) (cp : Nat) : Prop := t.ccc cp ≠ 0 ∧ s.lastCcc ≥ t.ccc cp

instance (s : Scan) (cp : Nat) : Decidable (s.blocked t cp) := inferInstanceAs (Decidable (_ ∧ _))

def Scan.push (s : Scan) (cp : Nat) : Scan :=
  if t.ccc cp = 0 then ⟨s.out ++ [cp], some s.out.length, 0⟩
  else { s with out := s.out ++ [cp], lastCcc := t.ccc cp }

def Scan.step (s : Scan) (cp : Nat) : Scan :=
  match s.composed t cp with
  | some (i, comp) =>
    if s.blocked t cp then s.push t cp else { s with out := s.out.set i comp }
  | none => s.push t cp

def scan (buf : List Nat) : Scan := buf.foldl (Scan.step t) .start

def compose (buf : List Nat) : List Nat := (scan t buf).out

def toNfc (input : List Char) : List Char :=
  encode (compose t (decomposeAndReorder t input .canonical))

def toNfkc (input : List Char) : List Char :=
  encode (compose t (decomposeAndReorder t input .compatibility))

/-- A starter that composes while marks emitted after the live starter are pending. -/
def Scan.Leap (s : Scan) (cp : Nat) : Prop :=
  t.ccc cp = 0 ∧ s.lastCcc ≠ 0 ∧ (s.composed t cp).isSome

/-- Somewhere in the buffer the composition pass moves a starter over marks. -/
def Leaps (buf : List Nat) : Prop :=
  ∃ p cp r, buf = p ++ cp :: r ∧ (scan t p).Leap t cp

end Forms

section Reordering
variable (t : Lookups)

theorem canonicalReorderFrom_eq {run : List Nat} (marks : ∀ m ∈ run, t.ccc m ≠ 0)
    (rest : List Nat) : canonicalReorderFrom t run rest = reorder t.ccc (run ++ rest) := by
  induction rest generalizing run with
  | nil => rw [reorder_run marks (by simp [reorder])]; simp [canonicalReorderFrom, reorder]
  | cons cp rest ih =>
    by_cases starter : t.ccc cp = 0
    · have first := reorder_barrier starter rest
      have tail : canonicalReorderFrom t [] rest = reorder t.ccc rest := ih (by simp)
      rw [reorder_run marks (by simpa [first] using starter), first]
      simp [canonicalReorderFrom, starter, tail]
    · have longer : ∀ m ∈ run ++ [cp], t.ccc m ≠ 0 := by
        intro m hm
        rcases mem_append.mp hm with hm | hm
        · exact marks m hm
        · rwa [mem_singleton.mp hm]
      rw [canonicalReorderFrom, if_neg starter, ih longer, append_assoc, singleton_append]

theorem canonicalReorder_eq (buf : List Nat) : canonicalReorder t buf = reorder t.ccc buf :=
  canonicalReorderFrom_eq t (by simp) buf

end Reordering

section Encoding

theorem toNat_of_fromU32 {cp : Nat} (h : cp.isValidChar) :
    ∃ ch, fromU32 cp = some ch ∧ ch.toNat = cp := by
  refine ⟨Char.ofNat cp, if_pos h, ?_⟩
  rw [Char.ofNat, dif_pos h]
  rfl

/-- Encoding loses nothing of a list of scalar values. -/
theorem encode_toNat {cps : List Nat} (h : ∀ x ∈ cps, x.isValidChar) :
    (encode cps).map Char.toNat = cps := by
  induction cps with
  | nil => rfl
  | cons cp cps ih =>
    obtain ⟨ch, some, back⟩ := toNat_of_fromU32 (h cp mem_cons_self)
    have rest := ih fun x hx => h x (mem_cons_of_mem cp hx)
    simpa [encode, some, back] using rest

theorem encode_inj {a b : List Nat} (ha : ∀ x ∈ a, x.isValidChar) (hb : ∀ x ∈ b, x.isValidChar) :
    encode a = encode b ↔ a = b := by
  constructor
  · intro h
    rw [← encode_toNat ha, h, encode_toNat hb]
  · exact congrArg encode

end Encoding

section Hangul

variable {cp : Nat} {m : List Nat}

theorem syllable_iff : Syllable cp ↔ 44032 ≤ cp ∧ cp < 55204 := by
  simp only [Syllable, hangulSBase, hangulSCount, hangulLCount, hangulNCount, hangulVCount,
    hangulTCount]

theorem Syllable.isValidChar (h : Syllable cp) : cp.isValidChar := by
  rw [syllable_iff] at h
  simp only [Nat.isValidChar]
  omega

/-- The jamo of a syllable, with the constants written out. -/
theorem hangulDecomposeInto_syllable (h : Syllable cp) : hangulDecomposeInto cp =
      some ([4352 + (cp - 44032) / 588, 4449 + (cp - 44032) % 588 / 28] ++
        if (cp - 44032) % 28 ≠ 0 then [4519 + (cp - 44032) % 28] else []) :=
  if_pos h

theorem hangulDecomposeInto_none (h : ¬ Syllable cp) : hangulDecomposeInto cp = none :=
  if_neg h

theorem hangulDecomposeInto_some (h : hangulDecomposeInto cp = some m) :
    ∀ x ∈ m, hangulLBase ≤ x ∧ x < hangulSBase := by
  by_cases syllable : Syllable cp
  · rw [hangulDecomposeInto_syllable syllable, some.injEq] at h
    rw [syllable_iff] at syllable
    subst h
    intro x hx
    simp only [hangulLBase, hangulSBase]
    simp only [cons_append, nil_append, mem_cons] at hx
    rcases hx with rfl | rfl | hx
    · omega
    · omega
    · split at hx
      · rw [mem_singleton] at hx
        omega
      · cases hx
  · rw [hangulDecomposeInto_none syllable] at h
    cases h

theorem hangulDecomposeInto_lone (h : hangulDecomposeInto cp = some m) :
    ∀ x ∈ m, ¬ Syllable x ∧ x.isValidChar := by
  intro x hx
  have range := hangulDecomposeInto_some h x hx
  simp only [hangulSBase, Syllable, Nat.isValidChar] at range ⊢
  omega

theorem hangulCompose_some {a b c : Nat} (h : hangulCompose a b = some c) :
    Syllable c ∧ (hangulDecomposeInto c = some [a, b] ∨
      ∃ l v, hangulDecomposeInto a = some [l, v] ∧ hangulDecomposeInto c = some [l, v, b]) := by
  unfold hangulCompose at h
  split at h
  · next lv =>
    obtain rfl := some.inj h
    simp only [hangulSBase, hangulLCount, hangulVCount, hangulTCount, hangulLBase,
      hangulVBase] at lv ⊢
    have syllable : Syllable (44032 + ((a - 4352) * 21 + (b - 4449)) * 28) := by
      rw [syllable_iff]
      omega
    refine ⟨syllable, Or.inl ?_⟩
    rw [hangulDecomposeInto_syllable syllable, if_neg (by omega)]
    simp only [append_nil, some.injEq, List.cons.injEq, and_true]
    omega
  · split at h
    · next lvt =>
      obtain rfl := some.inj h
      obtain ⟨first, even, second⟩ := lvt
      have lead := hangulDecomposeInto_syllable first
      rw [syllable_iff] at first
      simp only [hangulSBase, hangulTCount, hangulTBase] at even second ⊢
      have syllable : Syllable (a + (b - 4519)) := by
        rw [syllable_iff]
        omega
      rw [if_neg (by omega), append_nil] at lead
      refine ⟨syllable, Or.inr ⟨_, _, lead, ?_⟩⟩
      rw [hangulDecomposeInto_syllable syllable, if_pos (by omega)]
      simp only [cons_append, nil_append, some.injEq, List.cons.injEq, and_true]
      omega
    · cases h

end Hangul

section Expanding
variable (t : Tables)

/-- A code point that canonical decomposition leaves alone. -/
def Tables.Settled (x : Nat) : Prop := t.expand .canonical x = [x]

variable {a b c x cp : Nat} {kind : DecompKind}

theorem Tables.settled_of_none (lone : ¬ Syllable x) (h : t.nfdLookup x = none) : t.Settled x := by
  simp [Settled, Lookups.expand, hangulDecomposeInto_none lone, Lookups.mapping, h]

theorem Tables.nfd_none (h : t.mapping kind x = none) : t.nfdLookup x = none := by
  cases kind with
  | canonical => exact h
  | compatibility => exact t.canonical x h

/-- Every code point of a decomposition, of either kind, is settled. -/
theorem Tables.expand_settled (h : x ∈ t.expand kind cp) : t.Settled x := by
  unfold Lookups.expand at h
  split at h
  · next jamo is =>
    exact t.settled_of_none (hangulDecomposeInto_lone is x h).1
      (t.nfd_none (t.jamo kind cp jamo is x h))
  · next other =>
    cases found : t.mapping kind cp with
    | some m =>
      rw [found] at h
      have inner := t.expanded kind cp m found x h
      exact t.settled_of_none inner.2 (t.nfd_none inner.1)
    | none =>
      rw [found, getD_none, mem_singleton] at h
      subst h
      refine t.settled_of_none (fun syllable => ?_) (t.nfd_none found)
      rw [hangulDecomposeInto_syllable syllable] at other
      cases other

theorem Tables.expand_scalar {ch : Char} (h : x ∈ t.expand kind ch.toNat) : x.isValidChar := by
  unfold Lookups.expand at h
  split at h
  · next jamo is => exact (hangulDecomposeInto_lone is x h).2
  · cases found : t.mapping kind ch.toNat with
    | some m => exact t.scalar kind _ m found x (by rwa [found] at h)
    | none =>
      rw [found, getD_none, mem_singleton] at h
      subst h
      exact ch.valid

theorem Tables.expand_syllable {m : List Nat} (h : hangulDecomposeInto cp = some m) :
    t.expand .canonical cp = m := by
  simp [Lookups.expand, h]

theorem Tables.composite_inverts (settled : t.Settled b)
    (h : (hangulCompose a b).or (t.composePair a b) = some c) :
    reorder t.ccc (t.expand .canonical c) = reorder t.ccc (t.expand .canonical a ++ [b]) := by
  rcases or_eq_some_iff.mp h with hangul | ⟨_, pair⟩
  · obtain ⟨_, lv | ⟨l, v, lead, lvt⟩⟩ := hangulCompose_some hangul
    · have inside : a ∈ t.expand .canonical c := by
        rw [t.expand_syllable lv]
        exact mem_cons_self
      have first : t.Settled a := t.expand_settled inside
      rw [t.expand_syllable lv, first]
      rfl
    · rw [t.expand_syllable lvt, t.expand_syllable lead]
      rfl
  · rw [t.inverts a b c pair, settled]

theorem Tables.composite_isValidChar (h : (hangulCompose a b).or (t.composePair a b) = some c) :
    c.isValidChar := by
  rcases or_eq_some_iff.mp h with hangul | ⟨_, pair⟩
  · exact (hangulCompose_some hangul).1.isValidChar
  · exact t.composite_scalar a b c pair

end Expanding

end Relon.Unicode
