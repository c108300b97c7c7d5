import Relon.Unicode.Normalization

/-! The composition pass undoes decompositions, but for starters that leap.

What the scan has emitted, decomposed again (`spelled`), is compared with what it
has read. A mark it absorbs has passed only marks of lower class, so the two are
canonically equivalent; a starter it absorbs over pending marks has lost the
crossings it made with them, which nothing later brings back. -/
namespace Relon.Unicode
open CanonicalOrder List

section Scan
variable (t : Tables)

/-- The code points emitted so far, decomposed again. -/
def spelled (out : List Nat) : List Nat := out.flatMap (t.expand .canonical)

/-- A scan and the marks it has emitted since its live starter. -/
inductive Live : Scan → List Nat → Prop where
  | waiting {out : List Nat} {n : Nat} : Live ⟨out, none, n⟩ []
  | after {f : List Nat} {c n : Nat} {pending : List Nat} :
      (∀ m ∈ pending, t.ccc m ≠ 0 ∧ t.Settled m) → (n = 0 ↔ pending = []) →
      Live ⟨f ++ c :: pending, some f.length, n⟩ pending

variable {t}

theorem spelled_settled {p : List Nat} (h : ∀ m ∈ p, t.Settled m) : spelled t p = p := by
  induction p with
  | nil => rfl
  | cons m p ih =>
    have first : t.expand .canonical m = [m] := h m mem_cons_self
    have rest := ih fun n hn => h n (mem_cons_of_mem m hn)
    simpa [spelled, first] using rest

variable {s : Scan} {f buf read pending : List Nat} {cp : Nat} {leapt : Prop}

/-- What one code point does to the scan: its live starter becomes the composite of the two, or
the code point is emitted. -/
theorem Live.step_cases (live : Live t s pending) (cp : Nat) :
    (∃ f c n comp, s = ⟨f ++ c :: pending, some f.length, n⟩ ∧
      (∀ m ∈ pending, t.ccc m ≠ 0 ∧ t.Settled m) ∧ (n = 0 ↔ pending = []) ∧
      (hangulCompose c cp).or (t.composePair c cp) = some comp ∧
      ¬ (t.ccc cp ≠ 0 ∧ n ≥ t.ccc cp) ∧ (s.Leap t.toLookups cp ↔ t.ccc cp = 0 ∧ n ≠ 0) ∧
      s.step t.toLookups cp = ⟨f ++ comp :: pending, some f.length, n⟩) ∨
    (¬ s.Leap t.toLookups cp ∧ s.step t.toLookups cp = s.push t.toLookups cp) := by
  cases live with
  | waiting => exact Or.inr ⟨by simp [Scan.Leap, Scan.composed], by simp [Scan.step, Scan.composed]⟩
  | @after f c n pending marks empty =>
    cases found : (hangulCompose c cp).or (t.composePair c cp) with
    | none =>
      have none : Scan.composed t.toLookups ⟨f ++ c :: pending, some f.length, n⟩ cp = none := by
        simp [Scan.composed, found]
      exact Or.inr ⟨by simp [Scan.Leap, none], by simp [Scan.step, none]⟩
    | some comp =>
      have composed : Scan.composed t.toLookups ⟨f ++ c :: pending, some f.length, n⟩ cp =
          some (f.length, comp) := by
        simp [Scan.composed, found]
      by_cases blocked : t.ccc cp ≠ 0 ∧ n ≥ t.ccc cp
      · refine Or.inr ⟨fun leap => blocked.1 leap.1, ?_⟩
        simp only [Scan.step, composed]
        exact if_pos blocked
      · refine Or.inl ⟨f, c, n, comp, rfl, marks, empty, found, blocked, ?_, ?_⟩
        · simp [Scan.Leap, composed]
        · have free : ¬ Scan.blocked t.toLookups ⟨f ++ c :: pending, some f.length, n⟩ cp := blocked
          simp [Scan.step, composed, free]

theorem push_lastCcc (s : Scan) (cp : Nat) : (s.push t.toLookups cp).lastCcc = t.ccc cp := by
  unfold Scan.push
  split
  · next starter => exact starter.symm
  · rfl

theorem push_out (s : Scan) (cp : Nat) : (s.push t.toLookups cp).out = s.out ++ [cp] := by
  unfold Scan.push
  split <;> rfl

theorem Live.push (live : Live t s pending) (settled : t.Settled cp) :
    ∃ pending', Live t (s.push t.toLookups cp) pending' ∧
      (pending' = [] ∨ t.ccc cp ≠ 0 ∧ pending' = pending ++ [cp]) := by
  unfold Scan.push
  by_cases starter : t.ccc cp = 0
  · rw [if_pos starter]
    exact ⟨[], .after (by simp) (by simp), Or.inl rfl⟩
  · rw [if_neg starter]
    cases live with
    | waiting => exact ⟨[], .waiting, Or.inl rfl⟩
    | @after f c n pending marks empty =>
      refine ⟨pending ++ [cp], ?_, Or.inr ⟨starter, rfl⟩⟩
      have longer : ∀ m ∈ pending ++ [cp], t.ccc m ≠ 0 ∧ t.Settled m := by
        intro m hm
        rcases mem_append.mp hm with hm | hm
        · exact marks m hm
        · rw [mem_singleton.mp hm]
          exact ⟨starter, settled⟩
      have next : Live t ⟨f ++ c :: (pending ++ [cp]), some f.length, t.ccc cp⟩ (pending ++ [cp]) :=
        .after longer (by simp [starter])
      simpa using next

theorem spelled_append (x y : List Nat) : spelled t (x ++ y) = spelled t x ++ spelled t y :=
  flatMap_append

theorem spelled_cons (c : Nat) (x : List Nat) :
    spelled t (c :: x) = t.expand .canonical c ++ spelled t x :=
  flatMap_cons

theorem spelled_snoc (x : List Nat) (settled : t.Settled cp) :
    spelled t (x ++ [cp]) = spelled t x ++ [cp] := by
  have one : t.expand .canonical cp = [cp] := settled
  simp [spelled, one]

theorem spelled_live {c : Nat} (marks : ∀ m ∈ pending, t.ccc m ≠ 0 ∧ t.Settled m) :
    spelled t (f ++ c :: pending) = spelled t f ++ t.expand .canonical c ++ pending := by
  rw [spelled_append, spelled_cons, spelled_settled fun m hm => (marks m hm).2, append_assoc]

theorem spelled_absorb {c cp comp : Nat} (marks : ∀ m ∈ pending, t.ccc m ≠ 0 ∧ t.Settled m)
    (settled : t.Settled cp) (found : (hangulCompose c cp).or (t.composePair c cp) = some comp) :
    reorder t.ccc (spelled t (f ++ comp :: pending)) =
      reorder t.ccc (spelled t f ++ t.expand .canonical c ++ cp :: pending) := by
  have inverts := reorder_append_congr (rfl : reorder t.ccc (spelled t f) = _)
    (t.composite_inverts settled found)
  have whole := reorder_append_congr inverts (rfl : reorder t.ccc pending = _)
  rw [spelled_live marks, whole]
  simp

theorem scan_snoc (buf : List Nat) (cp : Nat) :
    scan t.toLookups (buf ++ [cp]) = (scan t.toLookups buf).step t.toLookups cp := by
  simp [scan]

theorem leaps_snoc (buf : List Nat) (cp : Nat) : Leaps t.toLookups (buf ++ [cp]) ↔
      Leaps t.toLookups buf ∨ (scan t.toLookups buf).Leap t.toLookups cp := by
  constructor
  · rintro ⟨p, d, r, split, leap⟩
    rcases eq_nil_or_concat r with rfl | ⟨r, e, rfl⟩
    · obtain ⟨rfl, last⟩ := append_inj' split rfl
      obtain rfl := singleton_inj.mp last
      exact Or.inr leap
    · rw [concat_eq_append, ← cons_append, ← append_assoc] at split
      exact Or.inl ⟨p, d, r, (append_inj' split rfl).1, leap⟩
  · rintro (⟨p, d, r, rfl, leap⟩ | leap)
    · exact ⟨p, d, r ++ [cp], by simp, leap⟩
    · exact ⟨buf, cp, [], rfl, leap⟩

/-- A scan with no leap behind it: what it emitted is canonically equivalent to what it read,
and the pending marks rank no higher than the last mark, which ranks no higher than the last code
point read. -/
structure Faithful (t : Tables) (s : Scan) (pending read : List Nat) : Prop where
  live : Live t s pending
  same : reorder t.ccc (spelled t s.out) = reorder t.ccc read
  below : ∀ m ∈ pending, t.ccc m ≤ s.lastCcc
  last : s.lastCcc ≤ (read.getLast?.map t.ccc).getD 0

theorem Faithful.push (h : Faithful t s pending read) (settled : t.Settled cp)
    (ordered : t.ccc cp = 0 ∨ (read.getLast?.map t.ccc).getD 0 ≤ t.ccc cp) :
    ∃ pending', Faithful t (s.push t.toLookups cp) pending' (read ++ [cp]) := by
  obtain ⟨pending', live, grown⟩ := h.live.push settled
  refine ⟨pending', live, ?_, ?_, by simp [push_lastCcc]⟩
  · rw [push_out, spelled_snoc _ settled]
    exact reorder_append_congr h.same rfl
  · intro m hm
    rw [push_lastCcc]
    rcases grown with rfl | ⟨mark, rfl⟩
    · cases hm
    · rcases mem_append.mp hm with hm | hm
      · have bound := h.below m hm
        have last := h.last
        omega
      · rw [mem_singleton.mp hm]

/-- A mark that is absorbed has passed marks of lower class only; a starter, no mark. -/
theorem Faithful.step (h : Faithful t s pending read) (settled : t.Settled cp)
    (ordered : t.ccc cp = 0 ∨ (read.getLast?.map t.ccc).getD 0 ≤ t.ccc cp)
    (calm : ¬ s.Leap t.toLookups cp) :
    ∃ pending', Faithful t (s.step t.toLookups cp) pending' (read ++ [cp]) := by
  rcases h.live.step_cases cp with
    ⟨f, c, n, comp, rfl, marks, empty, found, free, leap, next⟩ | ⟨_, next⟩
  · obtain ⟨_, same, below, last⟩ := h
    rw [leap] at calm
    have passed : reorder t.ccc (cp :: pending) = reorder t.ccc (pending ++ [cp]) := by
      by_cases starter : t.ccc cp = 0
      · have none : pending = [] := empty.mp (by simpa [starter] using calm)
        rw [none, nil_append]
      · refine reorder_pass fun m hm => ⟨(marks m hm).1, ?_⟩
        have bound : t.ccc m ≤ n := below m hm
        omega
    refine ⟨pending, ?_⟩
    rw [next]
    refine ⟨.after marks empty, ?_, below, ?_⟩
    · rw [spelled_absorb marks settled found]
      calc reorder t.ccc (spelled t f ++ t.expand .canonical c ++ cp :: pending)
          = reorder t.ccc (spelled t f ++ t.expand .canonical c ++ (pending ++ [cp])) :=
            reorder_append_congr rfl passed
        _ = reorder t.ccc (spelled t (f ++ c :: pending) ++ [cp]) := by
            rw [spelled_live marks, append_assoc _ pending]
        _ = reorder t.ccc (read ++ [cp]) := reorder_append_congr same rfl
    · simp only [List.getLast?_append, List.getLast?_singleton, Option.some_or, Option.map_some,
        Option.getD_some]
      by_cases starter : t.ccc cp = 0
      · simp only [starter, true_and, not_not] at calm
        omega
      · omega
  · rw [next]
    exact h.push settled ordered

/-- What has been read crosses more often than what was emitted, by at least the leaps made. -/
structure Lagging (t : Tables) (s : Scan) (pending read : List Nat) (leapt : Prop) : Prop where
  live : Live t s pending
  perm : (spelled t s.out).Perm read
  le : crossings t.ccc (spelled t s.out) ≤ crossings t.ccc read
  lt : leapt → crossings t.ccc (spelled t s.out) < crossings t.ccc read

theorem Lagging.push (h : Lagging t s pending read leapt) (settled : t.Settled cp) :
    ∃ pending', Lagging t (s.push t.toLookups cp) pending' (read ++ [cp]) leapt := by
  obtain ⟨pending', live, _⟩ := h.live.push settled
  have gap : crossings t.ccc (spelled t s.out ++ [cp]) + crossings t.ccc read = _ :=
    crossings_perm_right h.perm cp
  have le := h.le
  refine ⟨pending', live, ?_, ?_, ?_⟩
  · rw [push_out, spelled_snoc _ settled]
    exact h.perm.append_right [cp]
  · rw [push_out, spelled_snoc _ settled]
    omega
  · intro leap
    have lt := h.lt leap
    rw [push_out, spelled_snoc _ settled]
    omega

/-- Absorbing a mark keeps the gap; a leap widens it. -/
theorem Lagging.step (h : Lagging t s pending read leapt) (settled : t.Settled cp) :
    ∃ pending', Lagging t (s.step t.toLookups cp) pending' (read ++ [cp])
      (leapt ∨ s.Leap t.toLookups cp) := by
  rcases h.live.step_cases cp with
    ⟨f, c, n, comp, rfl, marks, empty, found, free, leap, next⟩ | ⟨calm, next⟩
  · have absorbed : reorder t.ccc (spelled t (f ++ comp :: pending)) = _ :=
      spelled_absorb marks settled found
    have onlyMarks : ∀ m ∈ pending, t.ccc m ≠ 0 := fun m hm => (marks m hm).1
    have before : spelled t (f ++ c :: pending) ++ [cp] =
        spelled t f ++ t.expand .canonical c ++ (pending ++ [cp]) := by
      rw [spelled_live marks, append_assoc _ pending]
    have gap : crossings t.ccc (spelled t (f ++ c :: pending) ++ [cp]) + crossings t.ccc read =
        crossings t.ccc (read ++ [cp]) + crossings t.ccc (spelled t (f ++ c :: pending)) :=
      crossings_perm_right h.perm cp
    rw [before] at gap
    have count := crossings_of_reorder_eq absorbed
    have kept : crossings t.ccc (spelled t f ++ t.expand .canonical c ++ cp :: pending) ≤
        crossings t.ccc (spelled t f ++ t.expand .canonical c ++ (pending ++ [cp])) := by
      by_cases mark : t.ccc cp ≠ 0
      · exact (crossings_pass mark _ onlyMarks).le
      · by_cases none : pending = []
        · rw [none, nil_append]
        · exact (crossings_leap (not_not.mp mark) _ none onlyMarks).le
    have le : crossings t.ccc (spelled t (f ++ c :: pending)) ≤ crossings t.ccc read := h.le
    refine ⟨pending, ?_⟩
    rw [next]
    refine ⟨.after marks empty, ?_, ?_, ?_⟩
    · have swapped : (spelled t f ++ t.expand .canonical c ++ cp :: pending).Perm
          (spelled t (f ++ c :: pending) ++ [cp]) := by
        rw [before]
        exact (perm_append_singleton cp pending).symm.append_left _
      exact ((perm_of_reorder_eq absorbed).trans swapped).trans (h.perm.append_right [cp])
    · simp only
      omega
    · simp only
      rintro (leapt | leaps)
      · have lt : crossings t.ccc (spelled t (f ++ c :: pending)) < crossings t.ccc read :=
          h.lt leapt
        omega
      · obtain ⟨starter, skipped⟩ := leap.mp leaps
        have lost := crossings_leap starter (spelled t f ++ t.expand .canonical c)
          (mt empty.mpr skipped) onlyMarks
        omega
  · rw [next]
    obtain ⟨pending', pushed⟩ := h.push settled
    exact ⟨pending', pushed.live, pushed.perm, pushed.le,
      fun either => pushed.lt (either.resolve_right calm)⟩

theorem scan_faithful (settled : ∀ x ∈ buf, t.Settled x) (ordered : Ordered t.ccc buf)
    (calm : ¬ Leaps t.toLookups buf) :
    ∃ pending, Faithful t (scan t.toLookups buf) pending buf := by
  induction buf using List.reverseRecOn with
  | nil => exact ⟨[], .waiting, rfl, by simp, by simp [scan, Scan.start]⟩
  | append_singleton buf cp ih =>
    rw [leaps_snoc, not_or] at calm
    obtain ⟨pending, h⟩ := ih (fun x hx => settled x (mem_append_left _ hx))
      (List.IsChain.left_of_append ordered) calm.1
    rw [scan_snoc]
    refine h.step (settled cp (by simp)) ?_ calm.2
    have joint := (isChain_append.mp ordered).2.2
    cases last : buf.getLast? with
    | none => simp
    | some d => exact joint d last cp rfl

theorem scan_lagging (settled : ∀ x ∈ buf, t.Settled x) :
    ∃ pending, Lagging t (scan t.toLookups buf) pending buf (Leaps t.toLookups buf) := by
  induction buf using List.reverseRecOn with
  | nil =>
    refine ⟨[], .waiting, List.Perm.refl _, le_rfl, ?_⟩
    rintro ⟨p, c, r, nothing, _⟩
    simp at nothing
  | append_singleton buf cp ih =>
    obtain ⟨pending, h⟩ := ih fun x hx => settled x (mem_append_left _ hx)
    rw [scan_snoc, leaps_snoc]
    exact h.step (settled cp (by simp))

/-- Decomposing what the pass composed gives its input back, unless a starter leapt. -/
theorem reorder_spelled_compose_iff (settled : ∀ x ∈ buf, t.Settled x) (ordered : Ordered t.ccc buf) :
    reorder t.ccc (spelled t (compose t.toLookups buf)) = buf ↔ ¬ Leaps t.toLookups buf := by
  constructor
  · intro same leaps
    obtain ⟨_, lagging⟩ := scan_lagging settled
    have lost := lagging.lt leaps
    rw [← crossings_reorder (spelled t _)] at lost
    exact absurd (congrArg (crossings t.ccc) same) lost.ne
  · intro calm
    obtain ⟨_, faithful⟩ := scan_faithful settled ordered calm
    exact faithful.same.trans (reorder_of_ordered ordered)

theorem step_scalar (h : ∀ x ∈ s.out, x.isValidChar) (hcp : cp.isValidChar) :
    ∀ x ∈ (s.step t.toLookups cp).out, x.isValidChar := by
  have pushed : ∀ x ∈ (s.push t.toLookups cp).out, x.isValidChar := by
    intro x hx
    rw [push_out, mem_append, mem_singleton] at hx
    rcases hx with hx | rfl
    · exact h x hx
    · exact hcp
  unfold Scan.step
  split
  · next i comp composed =>
    split
    · exact pushed
    · intro x hx
      rcases mem_or_eq_of_mem_set hx with hx | rfl
      · exact h x hx
      · simp only [Scan.composed, Option.pure_def, Option.bind_eq_bind,
          Option.bind_eq_some_iff, Option.some.injEq, Prod.mk.injEq] at composed
        obtain ⟨_, _, c, _, comp, found, _, rfl⟩ := composed
        exact t.composite_isValidChar found
  · exact pushed

theorem compose_scalar (h : ∀ x ∈ buf, x.isValidChar) :
    ∀ x ∈ compose t.toLookups buf, x.isValidChar := by
  unfold compose
  induction buf using List.reverseRecOn with
  | nil => simp [scan, Scan.start]
  | append_singleton buf cp ih =>
    rw [scan_snoc]
    exact step_scalar (ih fun x hx => h x (mem_append_left _ hx)) (h cp (by simp))

end Scan

section Forms
variable (t : Tables)

theorem mem_decomposeAndReorder {input : List Char} {kind : DecompKind} {x : Nat} :
    x ∈ decomposeAndReorder t.toLookups input kind ↔ ∃ ch ∈ input, x ∈ t.expand kind ch.toNat := by
  rw [decomposeAndReorder, canonicalReorder_eq, (reorder_perm _).mem_iff, decomposeToBuffer,
    mem_flatMap]

theorem decomposed_settled (input : List Char) (kind : DecompKind) :
    ∀ x ∈ decomposeAndReorder t.toLookups input kind, t.Settled x := by
  intro x hx
  obtain ⟨ch, _, inside⟩ := (mem_decomposeAndReorder t).mp hx
  exact t.expand_settled inside

theorem decomposed_scalar (input : List Char) (kind : DecompKind) :
    ∀ x ∈ decomposeAndReorder t.toLookups input kind, x.isValidChar := by
  intro x hx
  obtain ⟨ch, _, inside⟩ := (mem_decomposeAndReorder t).mp hx
  exact t.expand_scalar inside

theorem decomposed_ordered (input : List Char) (kind : DecompKind) :
    Ordered t.ccc (decomposeAndReorder t.toLookups input kind) := by
  rw [decomposeAndReorder, canonicalReorder_eq]
  exact reorder_ordered _

/-- Decomposing an encoded list of scalar values is spelling it out. -/
theorem decompose_encode {cps : List Nat} (h : ∀ x ∈ cps, x.isValidChar) :
    decomposeAndReorder t.toLookups (encode cps) .canonical = reorder t.ccc (spelled t cps) := by
  have chars : decomposeToBuffer t.toLookups (encode cps) .canonical =
      spelled t ((encode cps).map Char.toNat) := by
    simp [decomposeToBuffer, spelled, flatMap_map]
  rw [decomposeAndReorder, canonicalReorder_eq, chars, encode_toNat h]

/-- Composing a decomposition and decomposing again gives it back, unless a starter leapt. -/
theorem decompose_composed_iff (input : List Char) (kind : DecompKind) :
    decomposeAndReorder t.toLookups
        (encode (compose t.toLookups (decomposeAndReorder t.toLookups input kind))) .canonical =
      decomposeAndReorder t.toLookups input kind ↔
    ¬ Leaps t.toLookups (decomposeAndReorder t.toLookups input kind) := by
  rw [decompose_encode t (compose_scalar (decomposed_scalar t input kind))]
  exact reorder_spelled_compose_iff (decomposed_settled t input kind)
    (decomposed_ordered t input kind)

theorem toNfd_composed_iff (input : List Char) (kind : DecompKind) :
    toNfd t.toLookups (encode (compose t.toLookups (decomposeAndReorder t.toLookups input kind))) =
      encode (decomposeAndReorder t.toLookups input kind) ↔
    ¬ Leaps t.toLookups (decomposeAndReorder t.toLookups input kind) := by
  rw [toNfd, encode_inj (decomposed_scalar t _ _) (decomposed_scalar t _ _)]
  exact decompose_composed_iff t input kind

/-- The forms are consistent exactly when neither composition pass moves a starter over marks. -/
theorem forms_consistent_iff (input : List Char) :
    (toNfd t.toLookups (toNfc t.toLookups input) = toNfd t.toLookups input ∧
      toNfd t.toLookups (toNfkc t.toLookups input) = toNfkd t.toLookups input ∧
      toNfc t.toLookups (toNfc t.toLookups input) = toNfc t.toLookups input) ↔
    ¬ Leaps t.toLookups (decomposeAndReorder t.toLookups input .canonical) ∧
      ¬ Leaps t.toLookups (decomposeAndReorder t.toLookups input .compatibility) := by
  constructor
  · rintro ⟨nfc, nfkc, -⟩
    exact ⟨(toNfd_composed_iff t input .canonical).mp nfc,
      (toNfd_composed_iff t input .compatibility).mp nfkc⟩
  · rintro ⟨calm, calmK⟩
    refine ⟨(toNfd_composed_iff t input .canonical).mpr calm,
      (toNfd_composed_iff t input .compatibility).mpr calmK, ?_⟩
    have back := (decompose_composed_iff t input .canonical).mpr calm
    simp only [toNfc]
    rw [back]

/-- An excerpt of the generated tables: e with acute, the ligature fi, and two marks. -/
def excerptLookups : Lookups where
  ccc cp := if cp = 0x301 then 230 else if cp = 0x323 then 220 else 0
  nfdLookup cp := if cp = 0xE9 then some [0x65, 0x301] else none
  nfkdLookup cp :=
    if cp = 0xE9 then some [0x65, 0x301] else if cp = 0xFB01 then some [0x66, 0x69] else none
  composePair a b := if a = 0x65 ∧ b = 0x301 then some 0xE9 else none

theorem excerpt_mapping {kind : DecompKind} {cp : Nat} {m : List Nat}
    (h : excerptLookups.mapping kind cp = some m) :
    (cp = 0xE9 ∧ m = [0x65, 0x301]) ∨ (cp = 0xFB01 ∧ m = [0x66, 0x69]) := by
  cases kind with
  | canonical =>
    simp only [Lookups.mapping, excerptLookups, Option.ite_none_right_eq_some,
      Option.some.injEq] at h
    exact Or.inl ⟨h.1, h.2.symm⟩
  | compatibility =>
    simp only [Lookups.mapping, excerptLookups] at h
    split at h
    · next acute => exact Or.inl ⟨acute, (Option.some.inj h).symm⟩
    · obtain ⟨ligature, entry⟩ := Option.ite_none_right_eq_some.mp h
      exact Or.inr ⟨ligature, (Option.some.inj entry).symm⟩

theorem excerpt_composePair {a b c : Nat} (h : excerptLookups.composePair a b = some c) :
    a = 0x65 ∧ b = 0x301 ∧ c = 0xE9 := by
  simp only [excerptLookups, Option.ite_none_right_eq_some, Option.some.injEq] at h
  exact ⟨h.1.1, h.1.2, h.2.symm⟩

theorem excerpt_jamo (kind : DecompKind) (cp : Nat) (m : List Nat)
    (found : hangulDecomposeInto cp = some m) : ∀ x ∈ m, excerptLookups.mapping kind x = none := by
  intro x hx
  have range := hangulDecomposeInto_some found x hx
  simp only [hangulLBase, hangulSBase] at range
  cases entry : excerptLookups.mapping kind x with
  | none => rfl
  | some m =>
    rcases excerpt_mapping entry with ⟨is, _⟩ | ⟨is, _⟩ <;> omega

def excerpt : Tables where
  toLookups := excerptLookups
  expanded := by
    intro kind cp m found x hx
    rcases excerpt_mapping found with ⟨_, rfl⟩ | ⟨_, rfl⟩
    · cases kind <;> revert x <;> decide
    · cases kind <;> revert x <;> decide
  jamo := excerpt_jamo
  canonical := by
    intro cp none
    simp only [excerptLookups] at none ⊢
    split at none
    · cases none
    · next other => exact if_neg other
  inverts := by
    intro a b c pair
    obtain ⟨rfl, rfl, rfl⟩ := excerpt_composePair pair
    decide
  scalar := by
    intro kind cp m found x hx
    rcases excerpt_mapping found with ⟨_, rfl⟩ | ⟨_, rfl⟩
    · revert x; decide
    · revert x; decide
  composite_scalar := by
    intro a b c pair
    obtain ⟨rfl, rfl, rfl⟩ := excerpt_composePair pair
    decide

/-- A leading consonant, an acute and a vowel: the vowel joins the consonant over the acute, and
the acute ends up behind both. -/
theorem forms_disagree_over_pending_mark :
    toNfc excerpt.toLookups ['\u1100', '\u0301', '\u1161'] = ['\uac00', '\u0301'] ∧
      toNfd excerpt.toLookups (toNfc excerpt.toLookups ['\u1100', '\u0301', '\u1161']) ≠
        toNfd excerpt.toLookups ['\u1100', '\u0301', '\u1161'] := by
  decide +kernel

example : toNfc excerpt.toLookups ['e', '\u0323', '\u0301'] = ['\u00e9', '\u0323'] := by
  decide +kernel

/-! ### Joined texts -/

/-- Decomposing the parts of a text first changes nothing. -/
theorem decompose_parts (a b : List Char) (kind : DecompKind) :
    decomposeAndReorder t.toLookups (encode (decomposeAndReorder t.toLookups a kind) ++
        encode (decomposeAndReorder t.toLookups b kind)) .canonical =
      decomposeAndReorder t.toLookups (a ++ b) kind := by
  have joined : encode (decomposeAndReorder t.toLookups a kind) ++
      encode (decomposeAndReorder t.toLookups b kind) =
      encode (decomposeAndReorder t.toLookups a kind ++ decomposeAndReorder t.toLookups b kind) :=
    filterMap_append.symm
  rw [joined, decompose_encode t (forall_mem_append.mpr
      ⟨decomposed_scalar t a kind, decomposed_scalar t b kind⟩),
    spelled_settled (forall_mem_append.mpr
      ⟨decomposed_settled t a kind, decomposed_settled t b kind⟩)]
  simp only [decomposeAndReorder, canonicalReorder_eq]
  rw [reorder_append_left, reorder_append_right]
  simp [decomposeToBuffer]

/-- The decomposed forms may be taken before two texts are joined or after, and so also
twice, as long as the joined text is put in order again. -/
theorem decomposed_parts_join (a b : List Char) :
    toNfd t.toLookups (toNfd t.toLookups a ++ toNfd t.toLookups b) = toNfd t.toLookups (a ++ b) ∧
      toNfd t.toLookups (toNfkd t.toLookups a ++ toNfkd t.toLookups b) =
        toNfkd t.toLookups (a ++ b) :=
  ⟨congrArg encode (decompose_parts t a b .canonical),
    congrArg encode (decompose_parts t a b .compatibility)⟩

end Forms

end Relon.Unicode
