import Relon.Abi.Reach
import Relon.Abi.RoundTrip

/-! Moving a finished buffer into an arena.

`finish_arena_absolute` adds the place a buffer will have in an arena to its
pointers. `Session.rebases_iff` says when that is right: every pointer slot that can be
reached from the root moves by exactly the base, no other byte changes and the
arena decodes to the same values. It is right precisely when the relocation walk
passes no pointer by, that is for values with `relocSafe true`. -/
namespace Relon.Abi
open Bytes Reloc Relon.Except List BufferReader

/-- The finished bytes of a session in which every field was written: the image behind them,
the values last written and the events of storing them. -/
structure Finished (mode : Mode) (s : Schema) (table : OffsetTable)
    (writes : List (String × TypeRepr × Value)) (b : BufferBuilder) (m : Image) (vs : List Value)
    (E : List Event) : Prop where
  bytes : b.finish = render m
  reloc : b.relocLayout = RelocLayout.build table s.fields
  root : table.rootSize ≤ m.length
  small : m.length < 2 ^ 32
  stored : Stored mode m 0 m.length
    (.slots (recordSlots s.fields table.fields 0) (fieldValues s.fields vs)) E
  nodup : (pointersOf E).Nodup
  events : EventsFor mode ((s.fields.map Field.ty).zip vs) E
  values : List.Forall₂ (fun f v => lastWrite f.name writes = some v) s.fields vs

section Finished
variable {mode : Mode} {s : Schema} {table : OffsetTable}
  {writes : List (String × TypeRepr × Value)} {b : BufferBuilder} {m : Image} {vs : List Value}
  {E : List Event} {base : Nat}

/-- Every field was written. -/
def FullyWritten (s : Schema) (writes : List (String × TypeRepr × Value)) : Prop :=
  ∀ f ∈ s.fields, (lastWrite f.name writes).isSome = true

/-- Every field's last value is covered by the relocation walk. -/
def RelocSafe (s : Schema) (writes : List (String × TypeRepr × Value)) : Prop :=
  ∀ f ∈ s.fields, ∀ v, lastWrite f.name writes = some v → relocSafe true f.ty v = true

theorem FullyWritten.values (h : FullyWritten s writes) :
    ∃ vs, List.Forall₂ (fun f v => lastWrite f.name writes = some v) s.fields vs := by
  unfold FullyWritten at h
  generalize s.fields = fs at h
  induction fs with
  | nil => exact ⟨[], .nil⟩
  | cons f fs ih =>
    rw [forall_mem_cons, Option.isSome_iff_exists] at h
    obtain ⟨⟨v, hv⟩, hrest⟩ := h
    obtain ⟨vs, hvs⟩ := ih hrest
    exact ⟨v :: vs, .cons hv hvs⟩

theorem Session.finished (h : Session s table writes b) (mode : Mode) (hfull : FullyWritten s writes)
    (hsafe : ∀ f ∈ s.fields, ∀ v, lastWrite f.name writes = some v → mode.Safe f.ty v) :
    ∃ m vs E, Finished mode s table writes b m vs E := by
  obtain ⟨m, σ, hinv, hset⟩ := h.filled mode
  obtain ⟨vs, hvs⟩ := hfull.values
  have hall : WrittenWith σ s.fields vs := by
    rw [WrittenWith, forall₂_iff_zip]
    refine ⟨hvs.length_eq, fun {f v} hmem => ?_⟩
    have hlast := (forall₂_iff_zip.mp hvs).2 hmem
    exact hset f (of_mem_zip hmem).1 v hlast (hsafe f (of_mem_zip hmem).1 v hlast)
  obtain ⟨E, hE, hnd, hev⟩ := hinv.filled.stored h.layout h.names hall
  have hlt := h.small
  rw [show b.finish = render m from hinv.bytes, length_render] at hlt
  exact ⟨m, vs, E, hinv.bytes, hinv.reloc, hinv.filled.root, hlt, hE, hnd, hev, hvs⟩

theorem Finished.mem_values (h : Finished mode s table writes b m vs E) {f : Field} (hf : f ∈ s.fields)
    {v : Value} (hlast : lastWrite f.name writes = some v) : (f.ty, v) ∈ (s.fields.map Field.ty).zip vs := by
  obtain ⟨i, hi, rfl⟩ := getElem_of_mem hf
  have hi' : i < vs.length := h.values.length_eq ▸ hi
  have hv := (forall₂_iff_zip.mp h.values).2 (mem_iff_getElem.mpr ⟨i, by simp; omega, getElem_zip⟩)
  rw [hlast, Option.some.injEq] at hv
  rw [hv]
  exact mem_iff_getElem.mpr ⟨i, by simp; omega, by simp⟩

theorem Finished.of_mem_values (h : Finished mode s table writes b m vs E) {ty : TypeRepr} {v : Value}
    (hx : (ty, v) ∈ (s.fields.map Field.ty).zip vs) :
    ∃ f ∈ s.fields, lastWrite f.name writes = some v ∧ f.ty = ty := by
  rw [zip_map_left] at hx
  obtain ⟨⟨f, w⟩, hmem, heq⟩ := mem_map.mp hx
  cases heq
  exact ⟨f, (of_mem_zip hmem).1, (forall₂_iff_zip.mp h.values).2 hmem, rfl⟩

theorem Finished.arena (h : Finished mode s table writes b m vs E) (hs : Session s table writes b)
    (hmode : mode ≠ .plain) (hb : base + m.length < 2 ^ 32) :
    b.finishArenaAbsolute base = .ok (render (rebase base (slotsOf E) m)) := by
  have hbytes : b.bytes = render m := h.bytes
  rw [BufferBuilder.finishArenaAbsolute, hbytes, h.reloc,
    relocate_record hmode hs.layout hs.names h.root h.stored h.nodup (by omega)]
  by_cases hz : base = 0
  · subst hz
    simp
  · simp [hz]

/-- A pointer slot reached from the root is one the walk visits. -/
theorem Finished.slot_visited (h : Finished .deep s table writes b m vs E) {ty : TypeRepr} {p : Nat}
    (hr : Reach b.finish (recordSlots s.fields table.fields 0) (.slot ty p)) (hty : ty.isPointer = true) :
    p ∈ slotsOf E ∧ ∃ t ≤ m.length, PtrAt m p t := by
  rw [h.bytes] at hr
  rcases hr.known (by simp) h.small h.stored with hchain | ⟨v, E', hs, hsub⟩
  · cases hchain.1
  · cases hs with
    | inline hbs => exact absurd hty (not_isPointer_of_storedScalar hbs)
    | @pointer _ _ t _ _ _ _ _ _ hw ht _ =>
      exact ⟨mem_slotsOf.mpr (hsub (by simp)), t, ht.target_bounds.2, hw.ptr⟩

/-- A visited slot is one that is reached. -/
theorem Finished.slot_reached (h : Finished mode s table writes b m vs E) {p : Nat}
    (hp : p ∈ pointersOf E) :
    ∃ ty, ty.isPointer = true ∧ Reach b.finish (recordSlots s.fields table.fields 0) (.slot ty p) := by
  rw [h.bytes]
  exact h.stored.reached h.small (fun x hx => .root hx) p hp

theorem readU32_render {p t : Nat} (h : PtrAt m p t) (ht : t < 2 ^ 32) : readU32 (render m) p = t :=
  h.leNat_slice ht

/-- The image of an arena that holds the moved bytes behind `before`. -/
def arenaImage (before : List UInt8) (base : Nat) (E : List Event) (m : Image) (after : List UInt8) : Image :=
  ofBytes before ++ rebase base (slotsOf E) m ++ ofBytes after

theorem render_arenaImage (before : List UInt8) (base : Nat) (E : List Event) (m : Image)
    (after : List UInt8) : render (arenaImage before base E m after) =
      before ++ render (rebase base (slotsOf E) m) ++ after := by
  simp [arenaImage]

/-- The arena stores the values at `base`. -/
theorem Finished.placed (h : Finished mode s table writes b m vs E) (h8 : 8 ∣ base)
    {before : List UInt8} (hlen : before.length = base) (after : List UInt8) :
    Stored mode (arenaImage before base E m after) base (base + m.length)
      (.slots (recordSlots s.fields table.fields base) (fieldValues s.fields vs))
      (E.map (Event.shift base)) := by
  have hmoved : Moved m (ofBytes before ++ rebase base (slotsOf E) m) 0 m.length base E := by
    have := moved_paste (ofBytes before) m E
    rwa [length_ofBytes, hlen] at this
  have halign : (Item.slots (recordSlots s.fields table.fields 0) (fieldValues s.fields vs)).AlignDvd base :=
    fun x _ => Nat.dvd_trans (isAlign_typeGraphAlign x.1).dvd_eight h8
  have hplaced := h.stored.transport hmoved halign
  rw [Item.shift, shiftSlots_recordSlots, Nat.zero_add, Nat.add_comm m.length] at hplaced
  exact hplaced.frame fun i _ hi => List.getElem?_append_left (by simp; omega)

theorem Finished.reads (h : Finished .deep s table writes b m vs E) (h8 : 8 ∣ base)
    (hb : base + m.length < 2 ^ 32) {before after : List UInt8} (hlen : before.length = base)
    {f : Field} {fo : FieldOffset} (hf : (f, fo) ∈ s.fields.zip table.fields) :
    readFieldAt (before ++ render (rebase base (slotsOf E) m) ++ after) (base + fo.offset) f.ty =
      readFieldAt (render m) fo.offset f.ty := by
  have hread := h.stored.of_deep.decodes h.small (Nat.le_refl _)
  have hread' := (h.placed h8 hlen after).of_deep.decodes hb (by simp [arenaImage]; omega)
  rw [render_arenaImage] at hread'
  simp only [Item.plain, Item.Decodes, recordSlots, ← map_uncurry_zip_eq_zipWith,
    forall₂_map_left_iff] at hread hread'
  obtain ⟨v, hv, hv'⟩ := forall₂_common hread hread' hf
  simp only [Function.uncurry_apply_pair] at hv hv'
  rw [hv'.field, ← hv.field, Nat.zero_add]

end Finished

/-- What moving a buffer to `base` of an arena is for: the pointers that can be reached from the
root move, everything else stays, and the arena decodes to the same values. -/
structure Rebased (s : Schema) (table : OffsetTable) (bytes : List UInt8) (base : Nat)
    (moved : List UInt8) : Prop where
  length : moved.length = bytes.length
  slots : ∀ ty p, Reach bytes (recordSlots s.fields table.fields 0) (.slot ty p) → ty.isPointer = true →
    readU32 moved p = readU32 bytes p + base
  others : ∀ i, (∀ ty p, Reach bytes (recordSlots s.fields table.fields 0) (.slot ty p) →
    ty.isPointer = true → i < p ∨ p + 4 ≤ i) → moved[i]? = bytes[i]?
  decodes : ∀ before after, before.length = base →
    ∃ r r', BufferReader.new table s.fields bytes = .ok r ∧
      BufferReader.newAtBase table s.fields (before ++ moved ++ after) base = .ok r' ∧
      ∀ f ∈ s.fields, r'.readValue f.name f.ty = r.readValue f.name f.ty

section Rebased
variable {s : Schema} {table : OffsetTable} {writes : List (String × TypeRepr × Value)}
  {b : BufferBuilder} {m : Image} {vs : List Value} {E : List Event} {base : Nat}

theorem Finished.rebased (h : Finished .deep s table writes b m vs E) (hs : Session s table writes b)
    (h8 : 8 ∣ base) (hb : base + m.length < 2 ^ 32) :
    Rebased s table b.finish base (render (rebase base (slotsOf E) m)) := by
  refine ⟨by simp [h.bytes], fun ty p hr hty => ?_, fun i hi => ?_, fun before after hlen => ?_⟩
  · obtain ⟨hp, t, ht, hptr⟩ := h.slot_visited hr hty
    rw [h.bytes, readU32_render (hptr.rebase_of_mem hp) (by omega), readU32_render hptr (by omega)]
  · rw [h.bytes, render, render, List.getElem?_map, List.getElem?_map, getElem?_rebase_apart]
    intro p hp
    obtain ⟨ty, hty, hr⟩ := h.slot_reached ((slotsOf_sublist E).subset hp)
    exact hi ty p hr hty
  · have hroot := h.root
    refine ⟨_, _, new_ok (by rw [h.bytes, length_render]; exact hroot),
      newAtBase_ok (by unfold usizeBound; omega) (by simp; omega), fun f hf => ?_⟩
    obtain ⟨fo, hmem⟩ := exists_slot hs.layout hf
    rw [readValue_eq base hs.layout hs.names rfl hmem,
      readValue_eq 0 hs.layout hs.names rfl hmem, Nat.zero_add, h.bytes]
    exact h.reads h8 hb hlen hmem

/-- A pointer the walk passes by is reached and does not move. -/
theorem Finished.noStale (h : Finished .skeleton s table writes b m vs E) (hne : base ≠ 0)
    (hb : base + m.length < 2 ^ 32)
    (hr : Rebased s table b.finish base (render (rebase base (slotsOf E) m))) : NoStale E := by
  intro p hp
  have hmem : p ∈ pointersOf E := mem_pointersOf.mpr (.inr hp)
  obtain ⟨ty, hty, hreach⟩ := h.slot_reached hmem
  obtain ⟨u, hu, hw⟩ := h.stored.pointers p hmem
  have hslot := hr.slots ty p hreach hty
  have hnot : p ∉ slotsOf E := not_mem_slotsOf_of_stale h.nodup hp
  rw [h.bytes, readU32_render (hw.ptr.rebase_of_not_mem hnot) (by omega),
    readU32_render hw.ptr (by omega)] at hslot
  omega

/-- **Arena rebase.** For a multiple of 8, moving the finished bytes into an arena is right when the
relocation walk passes no pointer by, and at a place other than 0 only then. At 0 no pointer
moves; there a pointer passed by shows only if it leads past the end of the buffer. -/
theorem Session.rebases_iff (h : Session s table writes b) (hfull : FullyWritten s writes)
    (h8 : 8 ∣ base) (hb : base + b.finish.length < 2 ^ 32) : (RelocSafe s writes →
      ∃ moved, b.finishArenaAbsolute base = .ok moved ∧ Rebased s table b.finish base moved) ∧
    (base ≠ 0 →
      (∃ moved, b.finishArenaAbsolute base = .ok moved ∧ Rebased s table b.finish base moved) →
      RelocSafe s writes) := by
  constructor
  · intro hsafe
    obtain ⟨m, vs, E, hfin⟩ := h.finished .deep hfull hsafe
    rw [hfin.bytes, length_render] at hb
    exact ⟨_, hfin.arena h (by simp) hb, hfin.rebased h h8 hb⟩
  · rintro hne ⟨moved, hmoved, hr⟩ f hf v hlast
    obtain ⟨m, vs, E, hfin⟩ := h.finished .skeleton hfull fun _ _ _ _ => trivial
    rw [hfin.bytes, length_render] at hb
    rw [hfin.arena h (by simp) hb] at hmoved
    cases hmoved
    have hcov := hfin.events.covered rfl (hfin.noStale hne hb hr)
    exact hcov (f.ty, v) (hfin.mem_values hf hlast)

end Rebased

/-- One field of the record at `base`, the finished bytes moved there behind zeros. -/
def readMoved (s : Schema) (name : String) (ty : TypeRepr) (base : Nat) (table : OffsetTable)
    (b : BufferBuilder) : Except BufferError Value := do
  let moved ← b.finishArenaAbsolute base
  let r ← BufferReader.newAtBase table s.fields (List.replicate base 0 ++ moved) base
  r.readValue name ty

def cubeType : TypeRepr := .list (.list (.list .int))

/-- The innermost pointer of a nested list does not move with the others. -/
theorem moved_list_misread :
    ∃ table b, Session cubeRecord table [("x", cubeType, .list [.list [.list [.int 1]]])] b ∧
      readField cubeRecord "x" cubeType table b = .ok (.list [.list [.list [.int 1]]]) ∧
      readMoved cubeRecord "x" cubeType 8 table b = .ok (.list [.list [.list [.int 4294967316]]]) := by
  obtain ⟨table, b, hs, -, hrun⟩ := session_of_run cubeRecord
    [("x", cubeType, .list [.list [.list [.int 1]]])] (n := 32)
    (f := fun table b => (readField cubeRecord "x" cubeType table b,
      readMoved cubeRecord "x" cubeType 8 table b))
    (a := (.ok (.list [.list [.list [.int 1]]]), .ok (.list [.list [.list [.int 4294967316]]])))
    (by decide +kernel) (by decide +kernel) (by omega)
  exact ⟨table, b, hs, (Prod.mk.inj hrun).1, (Prod.mk.inj hrun).2⟩

theorem nestedWrites_last {f : Field} (hf : f ∈ nestedRoot.fields) :
    f.ty = .schema nestedRecord ∧ lastWrite f.name nestedWrites = some (nestedValue (.int 3)) := by
  simp only [nestedRoot, mem_singleton] at hf
  subst hf
  exact ⟨rfl, rfl⟩

theorem nestedWrites_full : FullyWritten nestedRoot nestedWrites := fun f hf => by
  rw [(nestedWrites_last hf).2]
  rfl

theorem nestedWrites_safe : RelocSafe nestedRoot nestedWrites := by
  intro f hf v hv
  obtain ⟨hty, hlast⟩ := nestedWrites_last hf
  rw [hlast, Option.some.injEq] at hv
  obtain ⟨-, -, -, -, hsafe, -⟩ := nestedValue_facts
  rwa [hty, ← hv]

/-- Moved by 16 bytes, a record of records has every pointer moved with it. -/
theorem Session.rebases_nested : ∃ table b moved, Session nestedRoot table nestedWrites b ∧
      b.finishArenaAbsolute 16 = .ok moved ∧ Rebased nestedRoot table b.finish 16 moved := by
  obtain ⟨table, b, hs, hlen⟩ := nestedRoot_session
  have h8 : 8 ∣ 16 := by decide
  obtain ⟨moved, hmoved, hr⟩ := (hs.rebases_iff nestedWrites_full h8 (by omega)).1 nestedWrites_safe
  exact ⟨table, b, moved, hs, hmoved, hr⟩

end Relon.Abi
