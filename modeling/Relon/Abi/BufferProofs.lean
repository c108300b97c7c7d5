import Mathlib.Data.List.Nodup
import Mathlib.Data.List.Pairwise
import Relon.Abi.Buffer
import Relon.Abi.LayoutProofs

/-! The field index and the type check.

With distinct names the field index of a record has one entry for each field, at
its slot, and the type check of a caller's type is equality. -/
namespace Relon.Abi
open Relon.Except List

/-! ### The type check -/

theorem typeMatches_eq : ∀ {d r : TypeRepr}, typeMatches d r = true → d = r
  | .int, .int, _ | .float, .float, _ | .bool, .bool, _ | .unit, .unit, _ | .string, .string, _ => rfl
  | .list d, .list r, h | .option d, .option r, h => by
    rw [typeMatches] at h
    rw [typeMatches_eq h]
  | .result a b, .result c d, h => by
    rw [typeMatches, Bool.and_eq_true] at h
    rw [typeMatches_eq h.1, typeMatches_eq h.2]
  | .schema d, .schema r, h => by
    rw [typeMatches] at h
    rw [Schema.eq_of_beq h]
  | .enum n vs, .enum n' vs', h => by
    rw [typeMatches, Bool.and_eq_true, beq_iff_eq] at h
    rw [h.1, eq_of_variantsBeq h.2]

/-- A type with a layout matches itself. -/
theorem typeMatches_self {ty : TypeRepr} (h : Layoutable ty) : typeMatches ty ty = true := by
  match ty with
  | .unit | .bool | .int | .float | .string => rfl
  | .list el =>
    rw [typeMatches]
    exact typeMatches_self (layoutable_element h)
  | .option inner =>
    rw [typeMatches]
    exact typeMatches_self (layoutable_payload h rfl (by simp))
  | .result ok err =>
    rw [typeMatches, typeMatches_self (layoutable_payload h rfl (by simp)),
      typeMatches_self (layoutable_payload h rfl (by simp))]
    rfl
  | .enum n vs => rw [typeMatches, variantsBeq_refl, beq_self_eq_true]; rfl
  | .schema s => rw [typeMatches, s.beq_refl]
  | .closure _ _ =>
    obtain ⟨name, d, hd⟩ := h
    simp [fieldLayoutDecisionFor] at hd

/-! ### The field index -/

/-- The index entry of the field `f` with slot `fo`. -/
def entryFor (recordBase : Nat) (f : Field) (fo : FieldOffset) : FieldEntry :=
  { name := fo.name
    ty := f.ty
    offset := recordBase + fo.offset
    size := fo.size
    kind := fo.kind
    listElement := fo.listElement }

section Index
variable {s : Schema} {table : OffsetTable} (ht : offsetsFor s = .ok table)
  (hn : (s.fields.map Field.name).Nodup)
include ht hn

theorem fieldIndexAt_eq (recordBase : Nat) : fieldIndexAt table s.fields recordBase =
      (s.fields.zip table.fields).map fun x => entryFor recordBase x.1 x.2 := by
  obtain ⟨last, hplaced, -⟩ := (offsetsFor_layout ht).placed
  have key : ∀ {fs : List Field} {fos : List FieldOffset},
      List.Forall₂ (fun f fo => PlacedField f fo ∧
        table.fields.find? (fun x => x.name == f.name) = some fo ∧
        s.fields.find? (fun x => x.name == fo.name) = some f) fs fos →
      (fos.filterMap fun fo => (s.fields.find? fun f => f.name == fo.name).map fun f =>
        entryFor recordBase f fo) = (fs.zip fos).map fun x => entryFor recordBase x.1 x.2 := by
    intro fs fos h
    induction h with
    | nil => rfl
    | @cons f fo fs fos hf _ ih =>
      rw [filterMap_cons_some (b := entryFor recordBase f fo) (by rw [hf.2.2]; rfl), ih]
      rfl
  exact key (hplaced.lookup hn)

variable {f g : Field} {fo go : FieldOffset}

theorem placed_of_mem (hmem : (f, fo) ∈ s.fields.zip table.fields) : PlacedField f fo := by
  obtain ⟨last, hplaced, -⟩ := (offsetsFor_layout ht).placed
  have := hplaced.lookup hn
  rw [forall₂_iff_zip] at this
  exact (this.2 hmem).1

/-- A field has one slot. -/
theorem slot_unique (hf : (f, fo) ∈ s.fields.zip table.fields)
    (hg : (g, go) ∈ s.fields.zip table.fields) (hname : g.name = f.name) : (g, go) = (f, fo) := by
  obtain ⟨last, hplaced, -⟩ := (offsetsFor_layout ht).placed
  have hnames : ((s.fields.zip table.fields).map fun x => x.1.name).Nodup := by
    have := map_fst_zip (Nat.le_of_eq hplaced.forall₂.length_eq)
    rw [← this, map_map] at hn
    exact hn
  exact inj_on_of_nodup_map hnames hg hf hname

omit hn in
/-- Slots of different fields are apart. -/
theorem slots_apart (hf : (f, fo) ∈ s.fields.zip table.fields)
    (hg : (g, go) ∈ s.fields.zip table.fields) (hne : g.name ≠ f.name) :
    go.offset + go.size ≤ fo.offset ∨ fo.offset + fo.size ≤ go.offset := by
  obtain ⟨last, hplaced, -⟩ := (offsetsFor_layout ht).placed
  let R : Field × FieldOffset → Field × FieldOffset → Prop := fun x y =>
    x.2.offset + x.2.size ≤ y.2.offset ∨ y.2.offset + y.2.size ≤ x.2.offset
  have hsymm : Std.Symm R := ⟨fun _ _ h => h.symm⟩
  have hpair : (s.fields.zip table.fields).Pairwise R := hplaced.pairwise.imp Or.inl
  exact hpair.forall hg hf fun h => hne (congrArg (fun x => x.1.name) h)

theorem findEntry_eq_ok {recordBase : Nat} {name : String} {e : FieldEntry}
    (h : findEntry (fieldIndexAt table s.fields recordBase) name = .ok e) :
    ∃ f fo, (f, fo) ∈ s.fields.zip table.fields ∧ f.name = name ∧ e = entryFor recordBase f fo := by
  rw [findEntry, okOr_eq_ok, fieldIndexAt_eq ht hn] at h
  have hname := List.find?_some h
  rw [beq_iff_eq] at hname
  obtain ⟨⟨f, fo⟩, hmem, rfl⟩ := mem_map.mp (List.mem_of_find?_eq_some h)
  exact ⟨f, fo, hmem, (placed_of_mem ht hn hmem).name ▸ hname, rfl⟩

theorem findEntry_of_mem (hmem : (f, fo) ∈ s.fields.zip table.fields) (recordBase : Nat) :
    findEntry (fieldIndexAt table s.fields recordBase) f.name = .ok (entryFor recordBase f fo) := by
  obtain ⟨last, hplaced, -⟩ := (offsetsFor_layout ht).placed
  have hnames : ((fieldIndexAt table s.fields recordBase).map FieldEntry.name).Nodup := by
    have : (fieldIndexAt table s.fields recordBase).map FieldEntry.name = table.fields.map FieldOffset.name := by
      rw [fieldIndexAt_eq ht hn, map_map]
      conv_rhs => rw [← map_snd_zip (Nat.le_of_eq hplaced.forall₂.length_eq.symm)]
      rw [map_map]
      rfl
    rw [this, hplaced.names]
    exact hn
  have hentry : entryFor recordBase f fo ∈ fieldIndexAt table s.fields recordBase := by
    rw [fieldIndexAt_eq ht hn]
    exact mem_map.mpr ⟨(f, fo), hmem, rfl⟩
  rw [findEntry, okOr_eq_ok, ← (placed_of_mem ht hn hmem).name]
  exact find?_of_nodup (g := FieldEntry.name) hnames hentry

end Index

end Relon.Abi
