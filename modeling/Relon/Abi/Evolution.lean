import Relon.Abi.ReaderProofs

/-! Schemas that grow.

`offsets_for` places fields one after the other and looks at no field ahead, so a field added at
the end moves none. A reader that only knows the older schema decodes the same values from a
record of the newer one. -/
namespace Relon.Abi
open Relon.Except Bytes List

theorem placeFields_append {fs gs : List Field} {fos : List FieldOffset} {c a last top : Nat}
    (placed : placeFields (fs ++ gs) c a = .ok (fos, last, top)) :
    ∃ old new mid align, placeFields fs c a = .ok (old, mid, align) ∧
      placeFields gs mid align = .ok (new, last, top) ∧ fos = old ++ new := by
  induction fs generalizing c a fos with
  | nil => exact ⟨[], fos, c, a, by simp only [placeFields], placed, rfl⟩
  | cons f fs ih =>
    simp only [cons_append, placeFields, bind_eq_ok, okOr_eq_ok, pure_eq_iff, Prod.mk.injEq] at placed
    obtain ⟨d, decided, offset, aligned, next, added, ⟨fos', last', top'⟩, rest, rfl, rfl, rfl⟩ := placed
    obtain ⟨old, new, mid, align, ok, behind, rfl⟩ := ih rest
    refine ⟨_, new, mid, align, ?_, behind, (cons_append ..).symm⟩
    simp only [placeFields, decided, aligned, added, ok, okOr, ok_bind]
    rfl

/-- The least multiple of `a` that is not below `n`. -/
theorem alignUp_le {n a k : Nat} (positive : 0 < a) (multiple : a ∣ k) (above : n ≤ k) :
    alignUp n a ≤ k := by
  obtain ⟨q, rfl⟩ := multiple
  obtain ⟨r, same⟩ := dvd_alignUp (n := n) positive
  have small := alignUp_lt (n := n) positive
  rw [same] at small ⊢
  refine Nat.mul_le_mul_left a (Nat.le_of_lt_succ (Nat.lt_of_mul_lt_mul_left (a := a) ?_))
  rw [Nat.mul_succ]
  omega

section
variable {s s' : Schema} {t' : OffsetTable} {more : List Field}
  (accepted : offsetsFor s' = .ok t') (grows : s'.fields = s.fields ++ more)
include accepted grows

/-- The older schema has a layout too, and it is where the newer one begins. -/
theorem offsetsFor_of_append : ∃ t rest, offsetsFor s = .ok t ∧ t'.fields = t.fields ++ rest ∧
    t.rootSize ≤ t'.rootSize := by
  have padded := rootAlign_dvd_rootSize accepted
  have parts := accepted
  simp only [offsetsFor, grows, bind_eq_ok, okOr_eq_ok, pure_eq_iff] at parts
  obtain ⟨⟨fos, last, top⟩, placed, size, sized, rfl⟩ := parts
  obtain ⟨old, new, mid, align, first, second, rfl⟩ := placeFields_append placed
  obtain ⟨before, isAlign, -⟩ := placeFields_spec first (Or.inl rfl)
  obtain ⟨behind, isTop, grown, -⟩ := placeFields_spec second isAlign
  have divides : align ∣ top := isAlign.dvd_of_le isTop grown
  dsimp only at padded
  by_cases empty : s.fields = []
  · refine ⟨⟨old, 0, align⟩, new, ?_, rfl, Nat.zero_le _⟩
    simp only [offsetsFor, first, ok_bind, isEmpty_iff.mpr empty]
    rfl
  have room : last ≤ size ∧ size < usizeBound := by
    rw [if_neg (by simp [empty])] at sized
    obtain ⟨rfl, bound⟩ := checkedNextMultipleOf_eq_some sized
    exact ⟨le_alignUp .., bound⟩
  have fits : alignUp mid align ≤ size :=
    alignUp_le isAlign.pos (Nat.dvd_trans divides padded) (behind.le.trans room.1)
  refine ⟨⟨old, alignUp mid align, align⟩, new, ?_, rfl, fits⟩
  simp only [offsetsFor, first, ok_bind, isEmpty_eq_false_iff.mpr empty, checkedNextMultipleOf,
    if_pos (Nat.lt_of_le_of_lt fits room.2)]
  rfl

/-- Added fields move no other field, and whenever a reader of the newer schema opens a record, one
of the older schema does too and reads the same. -/
theorem appended_fields_read_alike (distinct : (s'.fields.map Field.name).Nodup) :
    ∃ t rest, offsetsFor s = .ok t ∧ t'.fields = t.fields ++ rest ∧
      ∀ {bytes base r'}, BufferReader.newAtBase t' s'.fields bytes base = .ok r' →
        ∃ r, BufferReader.newAtBase t s.fields bytes base = .ok r ∧
          ∀ f ∈ s.fields, r.readValue f.name f.ty = r'.readValue f.name f.ty := by
  obtain ⟨t, rest, layout, begins, size⟩ := offsetsFor_of_append accepted grows
  refine ⟨t, rest, layout, begins, fun {bytes base r'} opened => ?_⟩
  have known : (s.fields.map Field.name).Nodup := by
    rw [grows, map_append] at distinct
    exact distinct.of_append_left
  rw [BufferReader.newAtBase] at opened
  split at opened
  · cases opened
  · rename_i recordEnd added
    obtain ⟨rfl, bound⟩ := checkedAdd_eq_some added
    split at opened
    · cases opened
    · rename_i inside
      cases opened
      have smaller : checkedAdd base t.rootSize = some (base + t.rootSize) :=
        if_pos (by omega)
      refine ⟨⟨t, fieldIndexAt t s.fields base, bytes⟩, ?_, fun f mem => ?_⟩
      · rw [BufferReader.newAtBase, smaller]
        exact if_neg (by omega)
      obtain ⟨fo, slot⟩ := exists_slot layout mem
      have slot' : (f, fo) ∈ s'.fields.zip t'.fields := by
        obtain ⟨last, placed, -⟩ := (offsetsFor_layout layout).placed
        rw [grows, begins, zip_append placed.forall₂.length_eq]
        exact mem_append_left _ slot
      rw [BufferReader.readValue_eq base layout known rfl slot,
        BufferReader.readValue_eq base accepted distinct rfl slot']

end

/-- A tuple of a Bool, to which an Int is added, and a record of it: the Bool reads alike. -/
theorem longer_tuple_read_alike : ∃ t',
    offsetsFor ⟨"T", [], [⟨"0", .bool, none⟩, ⟨"1", .int, none⟩], true⟩ = .ok t' ∧
    ∃ t rest, offsetsFor ⟨"T", [], [⟨"0", .bool, none⟩], true⟩ = .ok t ∧
      t'.fields = t.fields ++ rest ∧
      ∃ r r', BufferReader.newAtBase t [⟨"0", .bool, none⟩] (1 :: replicate 15 0) 0 = .ok r ∧
        BufferReader.newAtBase t' [⟨"0", .bool, none⟩, ⟨"1", .int, none⟩] (1 :: replicate 15 0) 0 =
          .ok r' ∧ r.readValue "0" .bool = r'.readValue "0" .bool := by
  have accepted : offsetsFor ⟨"T", [], [⟨"0", .bool, none⟩, ⟨"1", .int, none⟩], true⟩ =
      .ok ⟨[⟨"0", 0, 1, 1, .inline 1 1, none⟩, ⟨"1", 8, 8, 8, .inline 8 8, none⟩], 16, 8⟩ := by
    simp [offsetsFor, placeFields, fieldLayoutDecisionFor, FieldKind.slot, checkedNextMultipleOf,
      checkedAdd, alignUp, usizeBound, okOr]
  obtain ⟨t, rest, layout, begins, reads⟩ := appended_fields_read_alike
    (s := ⟨"T", [], [⟨"0", .bool, none⟩], true⟩) accepted rfl (by decide)
  obtain ⟨r, opened, alike⟩ := @reads (1 :: replicate 15 0) 0 _ rfl
  exact ⟨_, accepted, t, rest, layout, begins, r, _, opened, rfl, alike ⟨"0", .bool, none⟩ (by simp)⟩

end Relon.Abi
