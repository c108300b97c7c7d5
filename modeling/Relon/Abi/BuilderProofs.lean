import Relon.Abi.AppendProofs
import Relon.Abi.RelocateProofs

/-! What the buffer writer stores.

A record under construction is an image whose fixed area has been filled in part:
`Filled` says which fields hold which values, each with its tail in a range of its
own. Writing a field changes its slot and appends a tail, so the other fields
keep what they hold; pasting a finished child moves it as a whole. The result is
`writeValueSlot_spec`: every slot the writer fills stores its value. -/
namespace Relon.Abi
open Bytes Reloc Relon.Except List TypeRepr

/-! ### Slots -/

/-- The slot `x` holds `v`, with its tail in `[lo, hi)`. -/
inductive SlotHolds (mode : Mode) (m : Image) (lo hi : Nat) (x : TypeRepr × Nat) (v : Value) :
    List Event → Prop
  | inline {bs : List UInt8} : storedScalar x.1 v = some bs → BytesAt m x.2 bs →
    SlotHolds mode m lo hi x v []
  | pointer {t : Nat} {E : List Event} : x.1.isPointer = true → PtrAt m x.2 t →
    Stored mode m lo hi (.target x.1 v t) E → SlotHolds mode m lo hi x v (.slot x.2 :: E)

theorem length_storedScalar {ty : TypeRepr} {v : Value} {bs : List UInt8}
    (h : storedScalar ty v = some bs) : bs.length ≤ slotSize ty := by
  unfold storedScalar at h
  split at h
  · cases h
    simp [slotSize, payloadSlotLayoutRuntime, length_i64Bytes]
  · cases h
    simp [slotSize, payloadSlotLayoutRuntime, length_f64Bytes]
  · cases h
    simp [slotSize, payloadSlotLayoutRuntime]
  · split at h <;> cases h
    simp [slotSize, payloadSlotLayoutRuntime]
  · cases h

section Slots
variable {mode : Mode} {m M : Image} {lo hi lo' hi' : Nat} {x : TypeRepr × Nat} {v : Value}
  {E E' : List Event}

/-- Filled slots make up a stored item. -/
theorem SlotHolds.cons {ps : List (TypeRepr × Nat)} {vs : List Value}
    (h : SlotHolds mode m lo hi x v E) (hlo : lo' ≤ lo) (hhi : hi ≤ hi') (hx : lo' ≤ x.2)
    (hx' : x.2 + slotSize x.1 ≤ hi') (hs : Stored mode m lo' hi' (.slots ps vs) E') :
    Stored mode m lo' hi' (.slots (x :: ps) (v :: vs)) (E ++ E') := by
  cases h with
  | inline hbs hw =>
    have := length_storedScalar hbs
    exact .inline hbs ⟨hw, hx, by omega⟩ hx' hs
  | pointer hty hw ht =>
    rw [slotSize_pointer hty] at hx'
    exact .pointer hty ⟨hw, hx, hx'⟩ (ht.widen hlo hhi) hs

theorem SlotHolds.frame (h : SlotHolds mode m lo hi x v E) (hs : SameOn m M lo hi)
    (hx : SameOn m M x.2 (x.2 + slotSize x.1)) : SlotHolds mode M lo hi x v E := by
  cases h with
  | inline hbs hw =>
    have := length_storedScalar hbs
    exact .inline hbs (hx.holds hw (Nat.le_refl _) (by rw [length_ofBytes]; omega))
  | pointer hty hw ht =>
    rw [slotSize_pointer hty] at hx
    exact .pointer hty (hx.holds hw (Nat.le_refl _) (by simp)) (ht.frame hs)

theorem SlotHolds.pointers (h : SlotHolds mode m lo hi x v E) :
    ∀ p ∈ pointersOf E, (x.1.isPointer = true ∧ p = x.2) ∨ (lo ≤ p ∧ p + 4 ≤ hi) := by
  cases h with
  | inline => simp [pointersOf]
  | pointer hty _ ht =>
    intro p hp
    rcases mem_cons.mp hp with rfl | hp
    · exact .inl ⟨hty, rfl⟩
    · exact .inr (ht.pointers_bounds p hp)

end Slots

/-- Writing `v` into the slot `x` of `m` gave `m'`. -/
structure SlotWritten (mode : Mode) (m m' : Image) (x : TypeRepr × Nat) (v : Value)
    (E : List Event) : Prop where
  le : m.length ≤ m'.length
  same : ∀ i < m.length, i < x.2 ∨ x.2 + slotSize x.1 ≤ i → m'[i]? = m[i]?
  held : SlotHolds mode m' m.length m'.length x (normalise x.1 v) E
  nodup : (pointersOf E).Nodup
  events : EventsFor mode [(x.1, v)] E

/-- What writing a slot of type `ty` has to do. -/
structure SlotSpec (mode : Mode) (ty : TypeRepr) : Prop where
  grows : ∀ bytes name p v bytes', writeValueSlot bytes name p ty v = .ok bytes' →
    bytes.length ≤ bytes'.length
  written : ∀ m name p v bytes', writeValueSlot (render m) name p ty v = .ok bytes' →
    bytes'.length < 2 ^ 32 → p + slotSize ty ≤ m.length → mode.Safe ty v →
    ∃ m' E, bytes' = render m' ∧ SlotWritten mode m m' (ty, p) v E

/-- An inline slot is overwritten in place. -/
theorem slotWritten_inline {mode : Mode} {m : Image} {ty : TypeRepr} {p : Nat} {v : Value}
    {bs : List UInt8} (h : storedScalar ty (normalise ty v) = some bs)
    (hp : p + slotSize ty ≤ m.length) : SlotWritten mode m (patch m p (ofBytes bs)) (ty, p) v [] := by
  have hlen := length_storedScalar h
  have hin : p + (ofBytes bs).length ≤ m.length := by
    rw [length_ofBytes]
    omega
  refine ⟨Nat.le_of_eq (length_patch hin).symm, fun i _ hi => ?_, .inline h (holds_patch (by omega)),
    by simp [pointersOf], eventsFor_leaf (relocSafe_of_not_isPointer ?_)⟩
  · exact getElem?_patch_of_disjoint hin (by rw [length_ofBytes]; simp only at hi; omega)
  · simpa using not_isPointer_of_storedScalar h

/-- A pointer slot is pointed at the tail just appended. -/
theorem slotWritten_pointer {mode : Mode} {m m' : Image} {ty : TypeRepr} {p off : Nat} {v : Value}
    {E : List Event} (hty : ty.isPointer = true) (h : Appended mode m m' ty v off E)
    (hp : p + slotSize ty ≤ m.length) :
    SlotWritten mode m (patch m' p (pointer off)) (ty, p) v (.slot p :: E) := by
  rw [slotSize_pointer hty] at hp
  have hle := h.grown.le
  have hin : p + (pointer off).length ≤ m'.length := by
    rw [length_pointer]
    omega
  have hsame : ∀ i, i < p ∨ p + 4 ≤ i → (patch m' p (pointer off))[i]? = m'[i]? := fun i hi =>
    getElem?_patch_of_disjoint hin (by rw [length_pointer]; omega)
  have hnot : p ∉ pointersOf E := fun hmem => by
    have := h.stored.pointers_bounds p hmem
    omega
  refine ⟨by rw [length_patch hin]; exact hle, fun i hi hdis => ?_, ?_, ?_, h.events.slot p⟩
  · rw [slotSize_pointer hty] at hdis
    rw [hsame i hdis, h.grown.same i (Nat.zero_le i) hi]
  · rw [length_patch hin]
    refine .pointer hty (holds_patch (by omega)) (h.stored.frame fun i hlo _ => hsame i (.inr ?_))
    omega
  · rw [pointersOf, nodup_cons]
    exact ⟨hnot, h.nodup⟩

/-! ### Records -/

/-- What a field was written with, and where its tail is. -/
structure FieldTail where
  written : Value
  events : List Event
  lo : Nat
  hi : Nat

/-- The fields with a tail in `σ` hold their values. -/
structure Filled (mode : Mode) (s : Schema) (table : OffsetTable) (m : Image)
    (σ : String → Option FieldTail) : Prop where
  root : table.rootSize ≤ m.length
  range : ∀ name x, σ name = some x → table.rootSize ≤ x.lo ∧ x.hi ≤ m.length
  held : ∀ f fo x, (f, fo) ∈ s.fields.zip table.fields → σ f.name = some x →
    SlotHolds mode m x.lo x.hi (f.ty, fo.offset) (normalise f.ty x.written) x.events ∧
      (pointersOf x.events).Nodup ∧ EventsFor mode [(f.ty, x.written)] x.events
  apart : ∀ name name' x y, name ≠ name' → σ name = some x → σ name' = some y →
    x.hi ≤ y.lo ∨ y.hi ≤ x.lo

section Filled
variable {mode : Mode} {s : Schema} {table : OffsetTable} {m m' : Image}
  {σ : String → Option FieldTail}

variable {f : Field} {fo : FieldOffset} {vs : List Value}

theorem slot_in_root (ht : offsetsFor s = .ok table) (hn : (s.fields.map Field.name).Nodup)
    (hf : (f, fo) ∈ s.fields.zip table.fields) :
    fo.size = slotSize f.ty ∧ fo.offset + slotSize f.ty ≤ table.rootSize := by
  obtain ⟨last, hplaced, hlast⟩ := (offsetsFor_layout ht).placed
  have hb := hplaced.bounds fo (of_mem_zip hf).2
  have hsize : fo.size = slotSize f.ty := (placed_of_mem ht hn hf).size_eq
  exact ⟨hsize, by omega⟩

/-- A change to one slot and behind the end keeps the other fields. -/
theorem Filled.forget (h : Filled mode s table m σ) (ht : offsetsFor s = .ok table)
    (hn : (s.fields.map Field.name).Nodup) (hf : (f, fo) ∈ s.fields.zip table.fields)
    (hle : m.length ≤ m'.length)
    (hsame : ∀ i < m.length, i < fo.offset ∨ fo.offset + slotSize f.ty ≤ i → m'[i]? = m[i]?) :
    Filled mode s table m' fun name => if name = f.name then none else σ name := by
  have hroot := h.root
  have hslot := slot_in_root ht hn hf
  refine ⟨by omega, fun name x hx => ?_, fun g go x hg hx => ?_, fun name name' x y hne hx hy => ?_⟩
  · split at hx
    · cases hx
    · have := h.range name x hx
      omega
  · split at hx
    · cases hx
    · rename_i hne
      obtain ⟨hheld, hrest⟩ := h.held g go x hg hx
      have hrange := h.range _ x hx
      refine ⟨hheld.frame (fun i hlo hhi => hsame i (by omega) (by omega)) (fun i hlo hhi => ?_), hrest⟩
      have hgo := slot_in_root ht hn hg
      have := slots_apart ht hf hg hne
      simp only at hlo hhi
      exact hsame i (by omega) (by omega)
  · split at hx
    · cases hx
    · split at hy
      · cases hy
      · exact h.apart name name' x y hne hx hy

/-- **Writing a field.** The field holds the new value, the others what they held. -/
theorem Filled.write (h : Filled mode s table m σ) (ht : offsetsFor s = .ok table)
    (hn : (s.fields.map Field.name).Nodup) {v : Value} {E : List Event}
    (hf : (f, fo) ∈ s.fields.zip table.fields) (hw : SlotWritten mode m m' (f.ty, fo.offset) v E) :
    Filled mode s table m' fun name =>
      if name = f.name then some ⟨v, E, m.length, m'.length⟩ else σ name := by
  have hforget := h.forget ht hn hf hw.le hw.same
  have hroot := h.root
  refine ⟨hforget.root, fun name x hx => ?_, fun g go x hg hx => ?_, fun name name' x y hne hx hy => ?_⟩
  · split at hx
    · cases hx
      exact ⟨hroot, Nat.le_refl _⟩
    · rename_i hname
      exact hforget.range name x (by rw [if_neg hname, hx])
  · split at hx
    · rename_i hname
      cases hx
      cases slot_unique ht hn hf hg hname
      exact ⟨hw.held, hw.nodup, hw.events⟩
    · rename_i hname
      exact hforget.held g go x hg (by rw [if_neg hname, hx])
  · split at hx
    · rename_i hname
      cases hx
      rw [if_neg (fun h => hne (hname.trans h.symm))] at hy
      exact .inr (h.range name' y hy).2
    · split at hy
      · cases hy
        exact .inl (h.range name x hx).2
      · exact h.apart name name' x y hne hx hy

/-- The values `vs` are what the fields were last written with. -/
def WrittenWith (σ : String → Option FieldTail) (fs : List Field) (vs : List Value) : Prop :=
  List.Forall₂ (fun f v => ∃ x, σ f.name = some x ∧ x.written = v) fs vs

/-- The values as the fields of a record hold them. -/
def fieldValues (fs : List Field) (vs : List Value) : List Value :=
  List.zipWith (fun f v => normalise f.ty v) fs vs

/-- The fields from `c` on, all written, are stored together. -/
theorem Filled.suffix (h : Filled mode s table m σ) {c last : Nat} {fs : List Field}
    {fos : List FieldOffset} (hp : Placed c fs fos last) (hlast : last ≤ table.rootSize)
    (hn : (fs.map Field.name).Nodup) (hsub : ∀ x ∈ fs.zip fos, x ∈ s.fields.zip table.fields)
    (hall : WrittenWith σ fs vs) :
    ∃ E, Stored mode m 0 m.length (.slots (recordSlots fs fos 0) (fieldValues fs vs)) E ∧
      (pointersOf E).Nodup ∧ EventsFor mode ((fs.map Field.ty).zip vs) E ∧
      ∀ p ∈ pointersOf E, (c ≤ p ∧ p < last) ∨
        ∃ f ∈ fs, ∃ x, σ f.name = some x ∧ x.lo ≤ p ∧ p < x.hi := by
  induction hp generalizing vs with
  | nil =>
    cases hall
    exact ⟨[], .nil, by simp [pointersOf], eventsFor_nil, by simp [pointersOf]⟩
  | @cons c last f fo fs fos hf hc hrest ih =>
    cases hall with
    | @cons _ v _ vs hv hvs =>
      obtain ⟨x, hx, rfl⟩ := hv
      rw [map_cons, nodup_cons] at hn
      obtain ⟨E', hE', hnd', hev', hb'⟩ := ih hlast hn.2
        (fun y hy => hsub y (mem_cons_of_mem _ hy)) hvs
      obtain ⟨hheld, hnd, hev⟩ := h.held f fo x (hsub _ (by simp)) hx
      have hrange := h.range _ x hx
      have hroot := h.root
      have hle := hrest.le
      have hsize : fo.size = slotSize f.ty := hf.size_eq
      have hptrs := hheld.pointers
      refine ⟨x.events ++ E', ?_, ?_, hev.append hev', ?_⟩
      · have := hheld.cons (by omega) (by omega) (by simp)
          (by simp only; omega) hE'
        rw [show fo.offset = 0 + fo.offset by omega] at this
        exact this
      · rw [pointersOf_append, nodup_append]
        refine ⟨hnd, hnd', fun p hp q hq => ?_⟩
        rcases hptrs p hp with ⟨hptr, rfl⟩ | hp
        · simp only [slotSize_pointer hptr] at hsize
          rcases hb' q hq with hq | ⟨g, -, y, hy, hq⟩
          · simp only
            omega
          · have := h.range _ y hy
            simp only
            omega
        · rcases hb' q hq with hq | ⟨g, hg, y, hy, hq⟩
          · omega
          · have hne : f.name ≠ g.name := fun heq => hn.1 (heq ▸ mem_map_of_mem hg)
            have := h.apart _ _ x y hne hx hy
            omega
      · intro p hp
        rw [pointersOf_append, mem_append] at hp
        rcases hp with hp | hp
        · rcases hptrs p hp with ⟨hptr, rfl⟩ | hp
          · simp only [slotSize_pointer hptr] at hsize
            exact .inl ⟨hc, by simp only; omega⟩
          · exact .inr ⟨f, by simp, x, hx, hp.1, by omega⟩
        · rcases hb' p hp with hp | ⟨g, hg, y, hy, hp⟩
          · exact .inl ⟨by omega, hp.2⟩
          · exact .inr ⟨g, mem_cons_of_mem f hg, y, hy, hp⟩

/-- **A record.** Once every field is written, the record is stored. -/
theorem Filled.stored (h : Filled mode s table m σ) (ht : offsetsFor s = .ok table)
    (hn : (s.fields.map Field.name).Nodup) (hall : WrittenWith σ s.fields vs) :
    ∃ E, Stored mode m 0 m.length (.slots (recordSlots s.fields table.fields 0) (fieldValues s.fields vs)) E ∧
      (pointersOf E).Nodup ∧ EventsFor mode ((s.fields.map Field.ty).zip vs) E := by
  obtain ⟨last, hplaced, hlast⟩ := (offsetsFor_layout ht).placed
  obtain ⟨E, hE, hnd, hev, -⟩ := h.suffix hplaced hlast hn (fun _ hx => hx) hall
  exact ⟨E, hE, hnd, hev⟩

end Filled

/-! ### Write sessions -/

/-- A caller's writes, in order. -/
def writeAll (b : BufferBuilder) (writes : List (String × TypeRepr × Value)) :
    Except BufferError BufferBuilder :=
  writes.foldlM (fun b w => writeValue b w.1 w.2.1 w.2.2) b

/-- The value a field was last written with. -/
def lastWrite (name : String) : List (String × TypeRepr × Value) → Option Value
  | [] => none
  | (n, _, v) :: rest => (lastWrite name rest).or (if n = name then some v else none)

/-- A builder for `s` with the image `m` and the filled fields `σ`. -/
structure BuilderInv (mode : Mode) (s : Schema) (table : OffsetTable) (b : BufferBuilder) (m : Image)
    (σ : String → Option FieldTail) : Prop where
  layout : b.layout = table
  index : b.fieldIndex = fieldIndexAt table s.fields 0
  reloc : b.relocLayout = RelocLayout.build table s.fields
  bytes : b.bytes = render m
  filled : Filled mode s table m σ

theorem builderInv_new (mode : Mode) (s : Schema) (table : OffsetTable) :
    BuilderInv mode s table (BufferBuilder.new table s.fields)
      (ofBytes (List.replicate table.rootSize 0)) fun _ => none := by
  refine ⟨rfl, rfl, rfl, by simp [BufferBuilder.new], ⟨by simp, ?_, ?_, ?_⟩⟩
  · simp
  · simp
  · simp

section Session
variable {mode : Mode} {s : Schema} {table : OffsetTable} {b b' : BufferBuilder} {m : Image}
  {σ : String → Option FieldTail}

variable {name : String} {ty : TypeRepr} {v : Value} {writes : List (String × TypeRepr × Value)}

/-- What a successful `write_value` did. -/
theorem writeValue_eq_ok : writeValue b name ty v = .ok b' ↔
      ∃ e bytes, findEntry b.fieldIndex name = .ok e ∧ typeMatches e.ty ty = true ∧
        writeValueSlot b.bytes name e.offset ty v = .ok bytes ∧ b' = { b with bytes } := by
  rw [writeValue, bind_eq_ok]
  constructor
  · rintro ⟨e, he, h⟩
    split at h
    · cases h
    · rename_i hm
      simp only [bind_eq_ok, pure_eq_iff] at h
      obtain ⟨bytes, hbytes, rfl⟩ := h
      exact ⟨e, bytes, he, by simpa using hm, hbytes, rfl⟩
  · rintro ⟨e, bytes, he, hm, hbytes, rfl⟩
    exact ⟨e, he, by simp [hm, hbytes]⟩

/-- One write fills its field and keeps the others. -/
theorem BuilderInv.write (h : BuilderInv mode s table b m σ) (ht : offsetsFor s = .ok table)
    (hn : (s.fields.map Field.name).Nodup) (hspec : ∀ f ∈ s.fields, ∀ mode, SlotSpec mode f.ty)
    (hw : writeValue b name ty v = .ok b') (hlt : b'.bytes.length < 2 ^ 32) :
    ∃ m' σ', BuilderInv mode s table b' m' σ' ∧ (∀ n, n ≠ name → σ' n = σ n) ∧
      ∀ f ∈ s.fields, f.name = name → mode.Safe f.ty v → ∃ x, σ' name = some x ∧ x.written = v := by
  obtain ⟨e, bytes, he, hty, hbytes, rfl⟩ := writeValue_eq_ok.mp hw
  rw [h.index] at he
  obtain ⟨f, fo, hmem, rfl, rfl⟩ := findEntry_eq_ok ht hn he
  obtain rfl := typeMatches_eq hty
  have hslot := slot_in_root ht hn hmem
  have hroot := h.filled.root
  simp only [entryFor, Nat.zero_add, h.bytes] at hbytes
  by_cases hsafe : mode.Safe f.ty v
  · obtain ⟨m', E, rfl, hwritten⟩ := (hspec f (of_mem_zip hmem).1 mode).written m f.name fo.offset v
      bytes hbytes hlt (by omega) hsafe
    refine ⟨m', _, ⟨h.layout, h.index, h.reloc, rfl, h.filled.write ht hn hmem hwritten⟩, ?_, ?_⟩
    · intro n hne
      rw [if_neg hne]
    · intro g _ _ _
      exact ⟨_, if_pos rfl, rfl⟩
  · obtain ⟨m', E, rfl, hwritten⟩ := (hspec f (of_mem_zip hmem).1 .skeleton).written m f.name
      fo.offset v bytes hbytes hlt (by omega) trivial
    refine ⟨m', _, ⟨h.layout, h.index, h.reloc, rfl,
      h.filled.forget ht hn hmem hwritten.le hwritten.same⟩, ?_, ?_⟩
    · intro n hne
      rw [if_neg hne]
    · intro g hg hname hsafe'
      rw [inj_on_of_nodup_map hn hg (of_mem_zip hmem).1 hname] at hsafe'
      exact absurd hsafe' hsafe

section
variable (hidx : b.fieldIndex = fieldIndexAt table s.fields 0) (ht : offsetsFor s = .ok table)
  (hn : (s.fields.map Field.name).Nodup) (hspec : ∀ f ∈ s.fields, ∀ mode, SlotSpec mode f.ty)
include hidx ht hn hspec

theorem writeValue_grows (hw : writeValue b name ty v = .ok b') :
    b.bytes.length ≤ b'.bytes.length ∧ b'.fieldIndex = b.fieldIndex := by
  obtain ⟨e, bytes, he, hty, hbytes, rfl⟩ := writeValue_eq_ok.mp hw
  rw [hidx] at he
  obtain ⟨f, fo, hmem, rfl, rfl⟩ := findEntry_eq_ok ht hn he
  obtain rfl := typeMatches_eq hty
  exact ⟨(hspec f (of_mem_zip hmem).1 .plain).grows _ _ _ _ _ hbytes, rfl⟩

theorem writeAll_grows (hw : writeAll b writes = .ok b') : b.bytes.length ≤ b'.bytes.length := by
  refine (foldlM_inv (P := fun c : BufferBuilder => b.bytes.length ≤ c.bytes.length ∧
    c.fieldIndex = b.fieldIndex) hw ⟨Nat.le_refl _, rfl⟩ ?_).1
  rintro w - c c' ⟨hle, hc⟩ hstep
  obtain ⟨hgrow, hc'⟩ := writeValue_grows (hc.trans hidx) ht hn hspec hstep
  exact ⟨Nat.le_trans hle hgrow, hc'.trans hc⟩

end

/-- A session leaves every field with the value it was last written with. -/
theorem BuilderInv.writeAll (h : BuilderInv mode s table b m σ) (ht : offsetsFor s = .ok table)
    (hn : (s.fields.map Field.name).Nodup) (hspec : ∀ f ∈ s.fields, ∀ mode, SlotSpec mode f.ty)
    (hw : writeAll b writes = .ok b') (hlt : b'.bytes.length < 2 ^ 32) :
    ∃ m' σ', BuilderInv mode s table b' m' σ' ∧ (∀ n, lastWrite n writes = none → σ' n = σ n) ∧
      ∀ f ∈ s.fields, ∀ v, lastWrite f.name writes = some v → mode.Safe f.ty v →
        ∃ x, σ' f.name = some x ∧ x.written = v := by
  induction writes generalizing b m σ with
  | nil =>
    cases hw
    exact ⟨m, σ, h, fun _ _ => rfl, by simp [lastWrite]⟩
  | cons w writes ih =>
    obtain ⟨name, ty, v⟩ := w
    rw [Abi.writeAll, foldlM_cons, bind_eq_ok] at hw
    obtain ⟨b₁, hfirst, hrest⟩ := hw
    have hidx := (writeValue_grows h.index ht hn hspec hfirst).2
    have hgrow := writeAll_grows (hidx.trans h.index) ht hn hspec hrest
    obtain ⟨m₁, σ₁, hinv₁, hkeep₁, hset₁⟩ := h.write ht hn hspec hfirst (by omega)
    obtain ⟨m', σ', hinv, hkeep, hset⟩ := ih hinv₁ hrest
    refine ⟨m', σ', hinv, fun n hnone => ?_, fun f hf v' hlast hsafe => ?_⟩
    · rw [lastWrite, Option.or_eq_none_iff] at hnone
      rw [hkeep n hnone.1, hkeep₁ n (by rintro rfl; simp at hnone)]
    · rw [lastWrite] at hlast
      cases hl : lastWrite f.name writes with
      | some u =>
        rw [hl, Option.some_or, Option.some.injEq] at hlast
        exact hset f hf v' (hlast ▸ hl) hsafe
      | none =>
        rw [hl, Option.none_or] at hlast
        split at hlast
        · rename_i hname
          cases hlast
          rw [hkeep f.name hl, ← hname]
          exact hset₁ f hf hname.symm hsafe
        · cases hlast

end Session

/-! ### Nested records -/

/-- The writes that fill a record. -/
def recordWrites (fs : List Field) (vs : List Value) : List (String × TypeRepr × Value) :=
  List.zipWith (fun f v => (f.name, f.ty, v)) fs vs

variable {fs : List Field} {vs : List Value} {child child' : BufferBuilder} {s : Schema} {v : Value}
  {table : OffsetTable} {mode : Mode} {E : List Event}

theorem lastWrite_recordWrites_none (vs : List Value) {name : String} (h : name ∉ fs.map Field.name) :
    lastWrite name (recordWrites fs vs) = none := by
  induction fs generalizing vs with
  | nil => rfl
  | cons f fs ih =>
    rw [map_cons, mem_cons, not_or] at h
    cases vs with
    | nil => rfl
    | cons v vs =>
      have hne : f.name ≠ name := fun heq => h.1 heq.symm
      have := ih vs h.2
      rw [recordWrites] at this
      rw [recordWrites, zipWith_cons_cons, lastWrite, this, if_neg hne]
      rfl

theorem lastWrite_recordWrites (hn : (fs.map Field.name).Nodup) (hlen : vs.length = fs.length) :
    List.Forall₂ (fun f v => lastWrite f.name (recordWrites fs vs) = some v) fs vs := by
  induction fs generalizing vs with
  | nil =>
    rw [length_nil, length_eq_zero_iff] at hlen
    subst hlen
    exact .nil
  | cons f fs ih =>
    rw [map_cons, nodup_cons] at hn
    cases vs with
    | nil => cases hlen
    | cons v vs =>
      have hhead := lastWrite_recordWrites_none vs hn.1
      have htail := ih hn.2 (by simpa using hlen)
      rw [recordWrites] at hhead htail
      refine .cons ?_ (htail.imp fun g w hg => ?_)
      · rw [recordWrites, zipWith_cons_cons, lastWrite, hhead, if_pos rfl]
        rfl
      · rw [recordWrites, zipWith_cons_cons, lastWrite, hg]
        rfl

theorem writeSchemaRecordIntoBuilder_eq {fields : List Field} {map : ValueMap}
    (h : writeSchemaRecordIntoBuilder child fields map = .ok child') :
    ∃ vs, fields.mapM (fun f => ValueMap.get map f.name) = some vs ∧ vs.length = fields.length ∧
      writeAll child (recordWrites fields vs) = .ok child' := by
  induction fields generalizing child with
  | nil =>
    rw [writeSchemaRecordIntoBuilder] at h
    exact ⟨[], rfl, rfl, h⟩
  | cons f fields ih =>
    simp only [writeSchemaRecordIntoBuilder, bind_eq_ok, okOr_eq_ok] at h
    obtain ⟨v, hv, c, hc, hrest⟩ := h
    obtain ⟨vs, hvs, hlen, hwrites⟩ := ih hrest
    refine ⟨v :: vs, by simp [hv, hvs], by simp [hlen], ?_⟩
    rw [recordWrites, zipWith_cons_cons, writeAll, foldlM_cons, hc, ok_bind]
    exact hwrites

theorem writeTupleRecordIntoBuilder_eq (child : BufferBuilder) (fields : List Field)
    (items : List Value) :
    writeTupleRecordIntoBuilder child fields items = writeAll child (recordWrites fields items) := by
  induction fields generalizing child items with
  | nil =>
    rw [writeTupleRecordIntoBuilder]
    · rfl
    · simp
  | cons f fields ih =>
    cases items with
    | nil =>
      rw [writeTupleRecordIntoBuilder]
      · rfl
      · simp
    | cons v items =>
      rw [writeTupleRecordIntoBuilder, recordWrites, zipWith_cons_cons, writeAll, foldlM_cons]
      congr 1
      funext c
      exact ih c items

theorem writeRecord_eq {mismatch : BufferError} (h : writeRecord child s v mismatch = .ok child') :
    ∃ vs, recordItems s v = some vs ∧ vs.length = s.fields.length ∧
      writeAll child (recordWrites s.fields vs) = .ok child' := by
  unfold writeRecord at h
  split at h
  · split at h
    · rename_i hrec
      obtain ⟨vs, hvs, hlen, hwrites⟩ := writeSchemaRecordIntoBuilder_eq h
      rw [Bool.not_eq_true'] at hrec
      exact ⟨vs, by rw [recordItems, if_neg (by simp [hrec]), hvs], hlen, hwrites⟩
    · cases h
  · split at h
    · rename_i htuple
      split at h
      · cases h
      · rename_i hlen
        rw [ne_eq, not_not] at hlen
        rw [writeTupleRecordIntoBuilder_eq] at h
        exact ⟨_, by rw [recordItems, htuple, if_pos (by simp [hlen])], hlen, h⟩
    · cases h
  · cases h

/-- A relocated child, pasted where it was relocated to. -/
theorem moved_paste (m cm : Image) (E : List Event) :
    Moved cm (m ++ rebase m.length (slotsOf E) cm) 0 cm.length m.length E := by
  have hshift : ∀ {p t : Nat}, PtrAt (rebase m.length (slotsOf E) cm) p t →
      PtrAt (m ++ rebase m.length (slotsOf E) cm) (p + m.length) t := fun h => Holds.append_right h m
  refine ⟨fun i b _ _ hi => ?_, fun p t hp hptr => hshift (hptr.rebase_of_mem hp), fun p t _ hptr => ?_⟩
  · rw [List.getElem?_append_right (by omega), Nat.add_sub_cancel]
    exact getElem?_rebase_byte hi
  · by_cases hp : p ∈ slotsOf E
    · exact ⟨t + m.length, Nat.le_refl _, hshift (hptr.rebase_of_mem hp)⟩
    · exact ⟨t, by omega, hshift (hptr.rebase_of_not_mem hp)⟩

theorem isAlign_schemaPasteAlign (ht : offsetsFor s = .ok table) :
    IsAlign (schemaPasteAlign table s.fields) := by
  have hgraph := isAlign_typeGraphAlign (.schema s)
  rw [typeGraphAlign] at hgraph
  exact ((offsetsFor_layout ht).rootAlign.max hgraph).max (.inl rfl)

theorem dvd_schemaPasteAlign (ht : offsetsFor s = .ok table) :
    table.rootAlign ∣ schemaPasteAlign table s.fields ∧
      typeGraphAlign (.schema s) ∣ schemaPasteAlign table s.fields := by
  have hpaste := isAlign_schemaPasteAlign ht
  have hgraph := isAlign_typeGraphAlign (.schema s)
  refine ⟨(offsetsFor_layout ht).rootAlign.dvd_of_le hpaste ?_, hgraph.dvd_of_le hpaste ?_⟩
  · rw [schemaPasteAlign]
    omega
  · rw [typeGraphAlign, schemaPasteAlign]
    omega

theorem parts_schema (h : recordItems s v = some vs) :
    parts (.schema s) v = (s.fields.map Field.ty).zip vs := by
  rw [parts, h, Option.getD_some]

theorem normalise_schema (h : recordItems s v = some vs) :
    normalise (.schema s) v = recordValue s (fieldValues s.fields vs) := by
  rw [normalise_eq, parts_schema h, assemble, fieldValues]
  congr 1
  rw [zip_map_left, map_map, ← map_uncurry_zip_eq_zipWith]
  rfl

/-- The events of a pasted record. -/
theorem EventsFor.paste {q : Nat} (h : EventsFor mode (parts (.schema s) v) E)
    (ht : offsetsFor s = .ok table) (hq : schemaPasteAlign table s.fields ∣ q) :
    EventsFor mode [(.schema s, v)] (.start q (.schema s) :: E.map (Event.shift q)) := by
  have hshift : ∀ {t ty}, Event.start t ty ∈ E.map (Event.shift q) →
      ∃ t₀, Event.start t₀ ty ∈ E ∧ t = t₀ + q := by
    intro t ty hmem
    obtain ⟨e, he, heq⟩ := mem_map.mp hmem
    cases e with
    | slot | stale => cases heq
    | start t₀ ty' =>
      cases heq
      exact ⟨t₀, he, rfl⟩
  refine ⟨fun t ty a hmem ha => ?_, fun hsafe t ty a hmem ha => ?_, fun hmode hno => ?_⟩
  · refine ⟨(.schema s, v), by simp, mem_startsIn.mpr ?_⟩
    rcases mem_cons.mp hmem with heq | hmem
    · cases heq
      exact .inl ha
    · obtain ⟨t₀, hmem₀, -⟩ := hshift hmem
      exact .inr (h.starts t₀ ty a hmem₀ ha)
  · obtain ⟨hplace, hparts⟩ := alignSafe_iff.mp (hsafe (.schema s, v) (by simp))
    rcases mem_cons.mp hmem with heq | hmem
    · cases heq
      rw [startAlignment, ht] at ha
      cases ha
      exact Nat.dvd_trans (dvd_schemaPasteAlign ht).1 hq
    · obtain ⟨t₀, hmem₀, rfl⟩ := hshift hmem
      obtain ⟨x, hx, hax⟩ := h.starts t₀ ty a hmem₀ ha
      simp only [placeSafe, ht, all_eq_true, decide_eq_true_eq] at hplace
      exact Nat.dvd_add (h.aligned hparts t₀ ty a hmem₀ ha) (Nat.dvd_trans (hplace x hx a hax) hq)
  · have hno₀ : NoStale E := fun p hp =>
      hno (p + q) (mem_cons_of_mem _ (mem_map.mpr ⟨.stale p, hp, rfl⟩))
    exact (h.of_parts fun _ _ => rfl).covered hmode hno₀

/-- The record's pointers all moved: what relocating a finished child gives. -/
theorem relocate_record {m : Image} {base : Nat} (hmode : mode ≠ .plain)
    (ht : offsetsFor s = .ok table) (hn : (s.fields.map Field.name).Nodup)
    (hroot : table.rootSize ≤ m.length)
    (hE : Stored mode m 0 m.length (.slots (recordSlots s.fields table.fields 0) vs) E)
    (hnd : (pointersOf E).Nodup) (hb : m.length + base < 2 ^ 32) :
    relocatePointers (render m) (RelocLayout.build table s.fields) 0 base =
      .ok (render (rebase base (slotsOf E) m)) := by
  have hmoved := hE.relocates hmode hb (Nat.le_refl _) ((slotsOf_sublist E).nodup hnd)
    (relocateSlot "pointer slot exceeds buffer end" "relocated pointer overflows u32" base)
    _ _ (fun _ _ _ => rfl) [] (disjoint_nil_right _)
  rw [rebase_nil, append_nil] at hmoved
  rw [relocatePointers_build ht hn (by unfold usizeBound; omega), hmoved]

section Paste
variable {mode : Mode} {s : Schema} {table : OffsetTable} {child : BufferBuilder} {cm m : Image}
  {σ : String → Option FieldTail} {v : Value} {vs : List Value}

theorem pasteChild_grows {bytes bytes' : List UInt8} {align off : Nat} {n₁ n₂ : String}
    (h : pasteChild bytes child align n₁ n₂ = .ok (bytes', off)) : bytes.length ≤ bytes'.length := by
  simp only [pasteChild, bind_eq_ok] at h
  obtain ⟨ptr, -, h⟩ := h
  split at h <;> cases h
  have := le_length_padTo bytes align
  rw [length_append]
  omega

/-- **Pasting.** A finished child record, relocated and appended, is stored. -/
theorem pasteChild_spec (hmode : mode ≠ .plain) (ht : offsetsFor s = .ok table)
    (hn : (s.fields.map Field.name).Nodup) (hchild : BuilderInv mode s table child cm σ)
    (hitems : recordItems s v = some vs) (hall : WrittenWith σ s.fields vs) {n₁ n₂ : String}
    {bytes' : List UInt8} {off : Nat}
    (h : pasteChild (render m) child (schemaPasteAlign table s.fields) n₁ n₂ = .ok (bytes', off))
    (hlt : bytes'.length < 2 ^ 32) :
    ∃ m' E, bytes' = render m' ∧ Appended mode m m' (.schema s) v off E := by
  simp only [pasteChild, bind_eq_ok] at h
  obtain ⟨ptr, hptr, h⟩ := h
  split at h <;> cases h
  rename_i childBytes hreloc
  have hpaste := isAlign_schemaPasteAlign ht
  have hgraph := (dvd_schemaPasteAlign ht).2
  have hlen := relocatePointers_length hreloc
  rw [hchild.bytes, length_render] at hlen
  rw [length_append] at hlt
  have hpad := padTo_render (m := m) hpaste (by omega)
  rw [hpad, length_render] at hlt hptr ⊢
  have hP : schemaPasteAlign table s.fields ∣ (padImage m (schemaPasteAlign table s.fields)).length := by
    rw [length_padImage]
    exact dvd_alignUp hpaste.pos
  have hgrown := extends_padImage m (schemaPasteAlign table s.fields)
  generalize padImage m (schemaPasteAlign table s.fields) = m₀ at hlt hptr hP hgrown ⊢
  obtain rfl : ptr = m₀.length := by
    unfold tryU32 at hptr
    split at hptr <;> cases hptr
    rfl
  obtain ⟨E, hE, hnd, hev⟩ := hchild.filled.stored ht hn hall
  have hroot := hchild.filled.root
  rw [hchild.bytes, hchild.reloc, relocate_record hmode ht hn hroot hE hnd (by omega)] at hreloc
  cases hreloc
  have hdvd : (Item.slots (recordSlots s.fields table.fields 0) (fieldValues s.fields vs)).AlignDvd
      m₀.length := by
    intro x hx
    obtain ⟨f, hf, hx⟩ := recordSlots_mem hx
    rw [hx]
    exact Nat.dvd_trans (typeGraphAlign_field_dvd hf) (Nat.dvd_trans hgraph hP)
  have hmoved := hE.transport (moved_paste m₀ cm E) hdvd
  rw [Item.shift, shiftSlots_recordSlots, Nat.zero_add] at hmoved
  refine ⟨m₀ ++ rebase m₀.length (slotsOf E) cm, .start m₀.length (.schema s) :: E.map (Event.shift m₀.length),
    by simp, hgrown.trans (extends_append _ _), ?_, ?_, ?_⟩
  · rw [normalise_schema hitems]
    refine .record ht hn hgrown.le (by simp; omega) ?_
    exact hmoved.widen hgrown.le (by simp; omega)
  · rw [pointersOf, pointersOf_shift]
    exact hnd.map fun a b hab => Nat.add_right_cancel hab
  · exact EventsFor.paste (by rw [parts_schema hitems]; exact hev) ht hP

/-- A value is stored in a record's child with the pointers it needs to be relocated. -/
def Mode.nested : Mode → Mode
  | .skeleton => .skeleton
  | _ => .deep

theorem Mode.nested_ne_plain (mode : Mode) : mode.nested ≠ .plain := by
  cases mode <;> simp [Mode.nested]

theorem Mode.Safe.fields (h : mode.Safe (.schema s) v) :
    ∀ x ∈ parts (.schema s) v, mode.nested.Safe x.1 x.2 := by
  intro x hx
  cases mode with
  | skeleton => trivial
  | plain | deep => exact (relocSafe_iff.mp h).2 x hx

theorem Appended.of_nested {m' : Image} {ty : TypeRepr} {off : Nat} {E : List Event}
    (h : Appended mode.nested m m' ty v off E) : Appended mode m m' ty v off E := by
  cases mode with
  | plain =>
    exact ⟨h.grown, h.stored.of_deep, h.nodup, h.events.starts, h.events.aligned, by simp⟩
  | deep | skeleton => exact h

theorem writeAll_layout {b b' : BufferBuilder} {writes : List (String × TypeRepr × Value)}
    (h : writeAll b writes = .ok b') : b'.layout = b.layout ∧ b'.fieldIndex = b.fieldIndex := by
  refine foldlM_inv (P := fun c : BufferBuilder => c.layout = b.layout ∧ c.fieldIndex = b.fieldIndex)
    h ⟨rfl, rfl⟩ ?_
  rintro w - c c' hc hstep
  obtain ⟨_, _, _, _, _, rfl⟩ := writeValue_eq_ok.mp hstep
  exact hc

section
variable (ht : offsetsFor s = .ok table) (hn : (s.fields.map Field.name).Nodup)
include ht hn

/-- A function that fills a child and pastes it appends the record. -/
theorem appendRecord_spec (hspec : ∀ f ∈ s.fields, ∀ mode, SlotSpec mode f.ty) (mode : Mode)
    {append : List UInt8 → Value → Except BufferError (List UInt8 × Nat)}
    (happend : ∀ bytes v r, append bytes v = .ok r → ∃ child mismatch n₁ n₂,
      writeRecord (BufferBuilder.new table s.fields) s v mismatch = .ok child ∧
        pasteChild bytes child (schemaPasteAlign table s.fields) n₁ n₂ = .ok r) :
    AppendSpec mode (.schema s) append := by
  refine ⟨fun bytes v bytes' off h => ?_, fun m v bytes' off h hlt hsafe => ?_⟩
  · obtain ⟨child, mismatch, n₁, n₂, -, hpaste⟩ := happend bytes v _ h
    exact pasteChild_grows hpaste
  · obtain ⟨child, mismatch, n₁, n₂, hwrite, hpaste⟩ := happend _ v _ h
    obtain ⟨vs, hitems, hlen, hwrites⟩ := writeRecord_eq hwrite
    have hchildLt : child.bytes.length < 2 ^ 32 := by
      simp only [pasteChild, bind_eq_ok] at hpaste
      obtain ⟨ptr, -, hpaste⟩ := hpaste
      split at hpaste <;> cases hpaste
      rename_i hreloc
      rw [length_append, relocatePointers_length hreloc] at hlt
      omega
    obtain ⟨cm, σ, hchild, -, hset⟩ := (builderInv_new mode.nested s table).writeAll ht hn hspec hwrites
      hchildLt
    have hlast := lastWrite_recordWrites hn hlen
    have hall : WrittenWith σ s.fields vs := by
      rw [WrittenWith]
      rw [forall₂_iff_zip] at hlast ⊢
      refine ⟨hlast.1, fun {f w} hmem => hset f (of_mem_zip hmem).1 w (hlast.2 hmem) ?_⟩
      refine hsafe.fields (f.ty, w) ?_
      rw [parts_schema hitems, zip_map_left]
      exact mem_map.mpr ⟨(f, w), hmem, rfl⟩
    obtain ⟨m', E, rfl, happ⟩ := pasteChild_spec mode.nested_ne_plain ht hn hchild hitems hall hpaste hlt
    exact ⟨m', E, rfl, happ.of_nested⟩

theorem appendChildRecordPayload_eq (hlay : child.layout = table)
    (hidx : child.fieldIndex = fieldIndexAt table s.fields 0) (bytes : List UInt8) (name : String) :
    appendChildRecordPayload bytes name child (schemaPasteAlign table s.fields) =
      pasteChild bytes child (schemaPasteAlign table s.fields) name name := by
  obtain ⟨last, hplaced, -⟩ := (offsetsFor_layout ht).placed
  have htypes : child.fieldIndex.map (fun fe => typeGraphAlign fe.ty) =
      s.fields.map fun f => typeGraphAlign f.ty := by
    rw [hidx, fieldIndexAt_eq ht hn, map_map]
    conv_rhs => rw [← map_fst_zip (Nat.le_of_eq hplaced.forall₂.length_eq)]
    rw [map_map]
    rfl
  rw [appendChildRecordPayload, htypes, hlay]
  congr 1
  rw [schemaPasteAlign]
  omega

theorem appendSchemaValuePayload_spec (hspec : ∀ f ∈ s.fields, ∀ mode, SlotSpec mode f.ty)
    (mode : Mode) (name : String) :
    AppendSpec mode (.schema s) fun bytes v => appendSchemaValuePayload bytes name s v := by
  refine appendRecord_spec ht hn hspec mode fun bytes v r h => ?_
  simp only [appendSchemaValuePayload, ht, bind_eq_ok] at h
  obtain ⟨child, hwrite, hpaste⟩ := h
  obtain ⟨vs, -, -, hwrites⟩ := writeRecord_eq hwrite
  obtain ⟨hlay, hidx⟩ := writeAll_layout hwrites
  rw [appendChildRecordPayload_eq ht hn hlay hidx] at hpaste
  exact ⟨child, _, name, name, hwrite, hpaste⟩

end

end Paste

/-! ### Variant records -/

variable {bytes bytes' : List UInt8} {name : String} {el ty pty : TypeRepr} {v pv : Value}
  {tag : UInt8} {mode : Mode} {m : Image} {off : Nat} {items : List Value}

/-- What `append_variant_record` does with the tag and payload of a value. -/
theorem appendVariantRecord_eq {payload : Option (TypeRepr × Value)}
    (h : variantPayloadForValue name ty v = .ok (tag, payload)) :
    appendVariantRecord bytes name ty v =
      let padded := padTo bytes (variantRecordAlignRuntime ty)
      match payload with
      | none => .ok (padded ++ [tag], padded.length)
      | some (pty, pv) =>
        okOr (variantPayloadSlotOffset padded.length pty)
          (.malformedPayload name "variant payload slot offset overflows usize") >>= fun slot =>
        okOr (checkedAdd slot (slotSize pty))
          (.malformedPayload name "variant payload slot end overflows usize") >>= fun stop =>
        writeValueSlot (padded ++ [tag] ++ List.replicate (stop - (padded ++ [tag]).length) 0) name slot
          pty pv >>= fun bytes' => .ok (bytes', padded.length) := by
  rw [appendVariantRecord]
  split
  · simp_all
  · rename_i tag' payload' h'
    rw [h, Except.ok.injEq, Prod.mk.injEq] at h'
    obtain ⟨rfl, rfl⟩ := h'
    cases payload with
    | none => rfl
    | some p => rfl

theorem isAlign_variantRecordAlignRuntime (ty : TypeRepr) : IsAlign (variantRecordAlignRuntime ty) := by
  rw [variantRecordAlignRuntime]
  exact (payloadsAlign_spec (.inr (.inl rfl)) fun p _ => isAlign_typeGraphAlign p).1

theorem VariantShape.isVariant {payload : Option (TypeRepr × Value)}
    (h : VariantShape ty v tag payload) : ty.isVariant = true := by
  cases h <;> rfl

theorem Mode.Safe.payload {mode : Mode} {ty pty : TypeRepr} {v pv : Value} {tag : UInt8}
    (h : mode.Safe ty v) (hshape : VariantShape ty v tag (some (pty, pv))) : mode.Safe pty pv := by
  have hmem : (pty, pv) ∈ parts ty v := by rw [hshape.parts_eq]; simp
  have hrec : ty.isRecord = false := by cases hshape <;> rfl
  cases mode with
  | skeleton => trivial
  | plain | deep =>
    have := (relocSafe_iff.mp h).2 _ hmem
    rw [hrec, Bool.or_false] at this
    exact this

theorem dvd_of_placeSafe {a t : Nat} (hv : ty.isVariant = true) (ha : startAlignment ty = some a)
    (hsafe : alignSafe ty v = true) (ht : variantRecordAlignRuntime ty ∣ t) : a ∣ t := by
  have hplace := (alignSafe_iff.mp hsafe).1
  refine Nat.dvd_trans ?_ ht
  cases ty with
  | option | result | enum =>
    rw [placeSafe, ha] at hplace
    · simpa using hplace
    · simp
  | _ => cases hv

theorem arrayStops_variant (h : ty.isVariant = true) (v : Value) : arrayStops ty v = false := by
  cases ty <;> first | rfl | cases h

/-- The tag of a variant record, and room for its payload slot. -/
theorem appendUnitVariant_spec (hshape : VariantShape ty v tag none) (hd : ty.distinct = true)
    (hbytes : padTo (render m) (variantRecordAlignRuntime ty) ++ [tag] = bytes')
    (hoff : (padTo (render m) (variantRecordAlignRuntime ty)).length = off)
    (hlt : bytes'.length < 2 ^ 32) :
    ∃ m' E, bytes' = render m' ∧ Appended mode m m' ty v off E := by
  subst hbytes hoff
  have halign := isAlign_variantRecordAlignRuntime ty
  rw [length_append] at hlt
  rw [padTo_render halign (by omega), length_render]
  have hgrown := extends_padImage m (variantRecordAlignRuntime ty)
  have hdvd : variantRecordAlignRuntime ty ∣ (padImage m (variantRecordAlignRuntime ty)).length := by
    rw [length_padImage]
    exact dvd_alignUp halign.pos
  generalize padImage m (variantRecordAlignRuntime ty) = m₀ at hgrown hdvd
  obtain ⟨sel, hsel, hpay, hread⟩ := hshape.unit_read hd
  refine ⟨m₀ ++ ofBytes [tag], [.start m₀.length ty], by simp, hgrown.trans (extends_append _ _), ?_,
    by simp [pointersOf], ?_⟩
  · exact .variantUnit hsel hpay hread ⟨holds_append_right _ _, hgrown.le, by simp⟩
  · refine EventsFor.start ?_ (fun a ha hsafe => dvd_of_placeSafe hshape.isVariant ha hsafe hdvd)
      (arrayStops_variant hshape.isVariant v)
    rw [hshape.parts_eq]
    exact eventsFor_nil

theorem appendPayloadVariant_spec {off slot stop : Nat}
    (hshape : VariantShape ty v tag (some (pty, pv))) (hd : ty.distinct = true)
    (hspec : SlotSpec mode pty) {padded : List UInt8}
    (hpadded : padTo (render m) (variantRecordAlignRuntime ty) = padded)
    (hoff : padded.length = off) (hslot : variantPayloadSlotOffset padded.length pty = some slot)
    (hstop : checkedAdd slot (slotSize pty) = some stop)
    (hwrite : writeValueSlot (padded ++ [tag] ++ List.replicate (stop - (padded ++ [tag]).length) 0) name
      slot pty pv = .ok bytes') (hlt : bytes'.length < 2 ^ 32) (hsafe : mode.Safe ty v) :
    ∃ m' E, bytes' = render m' ∧ Appended mode m m' ty v off E := by
  have halign := isAlign_variantRecordAlignRuntime ty
  have hgrow := hspec.grows _ _ _ _ _ hwrite
  simp only [length_append, length_singleton, length_replicate] at hgrow
  have hpad := padTo_render (m := m) halign (by rw [hpadded]; omega)
  rw [hpadded] at hpad
  subst hoff hpad
  rw [length_render] at hslot ⊢
  have hgrown := extends_padImage m (variantRecordAlignRuntime ty)
  have hdvd : variantRecordAlignRuntime ty ∣ (padImage m (variantRecordAlignRuntime ty)).length := by
    rw [length_padImage]
    exact dvd_alignUp halign.pos
  generalize padImage m (variantRecordAlignRuntime ty) = m₀ at *
  rw [length_render] at hgrow
  rw [variantPayloadSlotOffset_ok (by omega), Option.some.injEq] at hslot
  obtain ⟨rfl, -⟩ := checkedAdd_eq_some hstop
  have hslotLe : m₀.length + 1 ≤ slot := hslot ▸ le_alignUp _ _
  have hm₂ : render m₀ ++ [tag] ++ List.replicate (slot + slotSize pty - (render m₀ ++ [tag]).length) 0 =
      render (m₀ ++ ofBytes [tag] ++
        ofBytes (List.replicate (slot + slotSize pty - (m₀.length + 1)) 0)) := by
    simp
  rw [hm₂] at hwrite
  have hext := extends_append (m₀ ++ ofBytes [tag])
    (ofBytes (List.replicate (slot + slotSize pty - (m₀.length + 1)) 0))
  have hlen : (m₀ ++ ofBytes [tag] ++
      ofBytes (List.replicate (slot + slotSize pty - (m₀.length + 1)) 0)).length = slot + slotSize pty := by
    simp
    omega
  have htag := hext.holds (holds_append_right m₀ (ofBytes [tag])) (by simp)
  have hext₀ := (extends_append m₀ (ofBytes [tag])).trans hext
  generalize m₀ ++ ofBytes [tag] ++
    ofBytes (List.replicate (slot + slotSize pty - (m₀.length + 1)) 0) = m₂ at *
  obtain ⟨m', E, rfl, hw⟩ := hspec.written m₂ name slot pv bytes' hwrite hlt (by omega)
    (hsafe.payload hshape)
  obtain ⟨sel, p, hsel, hpay, rfl, hread⟩ := hshape.payload_read hd
  have hle := hw.le
  have hgl := hgrown.le
  have hsame : ∀ i, i < slot → m'[i]? = m₂[i]? := fun i hi => hw.same i (by omega) (.inl hi)
  refine ⟨m', .start m₀.length ty :: E, rfl, ⟨by omega, fun i hlo hi => ?_⟩, ?_, hw.nodup, ?_⟩
  · rw [hsame i (by omega), (hgrown.trans hext₀).same i hlo hi]
  · refine .variantPayload hsel hpay hread ⟨Holds.congr htag fun i _ hi => hsame i ?_, hgl, ?_⟩ ?_
    · simp only [length_ofBytes, length_singleton] at hi
      omega
    · rw [length_singleton]
      omega
    · have hnil : Stored mode m' m.length m'.length (.slots [] []) [] := .nil
      have := hw.held.cons (by omega) (Nat.le_refl _) (by simp only; omega) (by simp only; omega) hnil
      rw [append_nil] at this
      subst hslot
      exact this
  · refine EventsFor.start ?_ (fun a ha hsafe => dvd_of_placeSafe hshape.isVariant ha hsafe hdvd)
      (arrayStops_variant hshape.isVariant v)
    rw [hshape.parts_eq]
    exact hw.events

theorem appendVariantRecord_spec (hd : ty.distinct = true)
    (hspec : ∀ v tag pty pv, VariantShape ty v tag (some (pty, pv)) → ∀ mode, SlotSpec mode pty)
    (mode : Mode) (name : String) :
    AppendSpec mode ty fun bytes v => appendVariantRecord bytes name ty v := by
  have hshape : ∀ {bytes v r}, appendVariantRecord bytes name ty v = .ok r →
      ∃ tag payload, variantPayloadForValue name ty v = .ok (tag, payload) := by
    intro bytes v r h
    rw [appendVariantRecord] at h
    split at h
    · cases h
    · exact ⟨_, _, ‹_›⟩
  refine ⟨fun bytes v bytes' off h => ?_, fun m v bytes' off h hlt hsafe => ?_⟩
  · obtain ⟨tag, payload, hp⟩ := hshape h
    have hgrow := le_length_padTo bytes (variantRecordAlignRuntime ty)
    rw [appendVariantRecord_eq hp] at h
    cases payload with
    | none =>
      cases h
      rw [length_append]
      omega
    | some x =>
      simp only [bind_eq_ok, Except.ok.injEq, Prod.mk.injEq] at h
      obtain ⟨slot, -, stop, -, bytes₁, hwrite, rfl, -⟩ := h
      have := (hspec v tag x.1 x.2 ((variantPayloadForValue_eq_ok _).mp hp) mode).grows _ _ _ _ _ hwrite
      simp only [length_append] at this
      omega
  · obtain ⟨tag, payload, hp⟩ := hshape h
    have hv := (variantPayloadForValue_eq_ok _).mp hp
    rw [appendVariantRecord_eq hp] at h
    cases payload with
    | none =>
      simp only [Except.ok.injEq, Prod.mk.injEq] at h
      exact appendUnitVariant_spec hv hd h.1 h.2 hlt
    | some x =>
      simp only [bind_eq_ok, okOr_eq_ok, Except.ok.injEq, Prod.mk.injEq] at h
      obtain ⟨slot, hslot, stop, hstop, bytes₁, hwrite, rfl, hoff⟩ := h
      exact appendPayloadVariant_spec hv hd (hspec v tag x.1 x.2 hv mode) rfl hoff hslot hstop hwrite hlt
        hsafe

/-! ### The writer -/

/-- The tail a value of a pointer type gets. -/
def appendTarget (name : String) (ty : TypeRepr) (bytes : List UInt8) (v : Value) :
    Except BufferError (List UInt8 × Nat) :=
  match ty, v with
  | .string, .string s => .ok (appendTailRecord bytes 4 (utf8Bytes s).length (utf8Bytes s))
  | .list el, .list items => appendListPayload bytes el items
  | .schema s, v => appendSchemaValuePayload bytes name s v
  | .option inner, v => appendVariantRecord bytes name (.option inner) v
  | .result ok err, v => appendVariantRecord bytes name (.result ok err) v
  | .enum enumName variants, v => appendVariantRecord bytes name (.enum enumName variants) v
  | ty, v => .error (.typeMismatch name (typeLabel ty) v.typeName)

theorem appendTarget_variant (hv : ty.isVariant = true) (name : String) (bytes : List UInt8)
    (v : Value) : appendTarget name ty bytes v = appendVariantRecord bytes name ty v := by
  cases ty <;> simp_all [isVariant, appendTarget]

theorem writeValueSlot_pointer {p : Nat} (hty : ty.isPointer = true)
    (h : writeValueSlot bytes name p ty v = .ok bytes') :
    ∃ r, appendTarget name ty bytes v = .ok r ∧ r.2 < 2 ^ 32 ∧ bytes' = writeU32 r.1 p r.2 := by
  have hslot : ∀ {b : List UInt8} {off : Nat}, writePointerSlot b name p off = .ok bytes' →
      off < 2 ^ 32 ∧ bytes' = writeU32 b p off := by
    intro b off h
    simp only [writePointerSlot, tryU32, bind_eq_ok, pure_eq_iff] at h
    obtain ⟨ptr, hptr, rfl⟩ := h
    split at hptr <;> cases hptr
    exact ⟨‹_›, rfl⟩
  unfold writeValueSlot at h
  split at h
  case h_6 => exact ⟨_, rfl, hslot h⟩
  case h_12 => cases h
  all_goals first
    | (obtain ⟨r, hr, h⟩ := bind_eq_ok.mp h; exact ⟨r, hr, hslot h⟩)
    | cases hty

/-- A slot of a pointer type is written by appending its tail. -/
theorem slotSpec_of_append (hty : ty.isPointer = true)
    (h : ∀ name, AppendSpec mode ty (appendTarget name ty)) : SlotSpec mode ty := by
  refine ⟨fun bytes name p v bytes' hw => ?_, fun m name p v bytes' hw hlt hp hsafe => ?_⟩
  · obtain ⟨⟨b, off⟩, happ, -, rfl⟩ := writeValueSlot_pointer hty hw
    exact Nat.le_trans ((h name).grows _ _ _ _ happ) (le_length_patch _ _ _)
  · obtain ⟨⟨b, off⟩, happ, -, rfl⟩ := writeValueSlot_pointer hty hw
    have hle := le_length_patch b p (leBytes 4 off)
    simp only [writeU32] at hlt
    obtain ⟨m', E, rfl, happended⟩ := (h name).appended m v b off happ (by omega) hsafe
    refine ⟨_, _, ?_, slotWritten_pointer hty happended hp⟩
    rw [writeU32, ← render_pointer, ← render_patch]

theorem AppendSpec.of_refines
    {append append' : List UInt8 → Value → Except BufferError (List UInt8 × Nat)}
    (h : AppendSpec mode ty append)
    (hr : ∀ bytes v r, append' bytes v = .ok r → append bytes v = .ok r) :
    AppendSpec mode ty append' :=
  ⟨fun bytes v bytes' off h' => h.grows bytes v bytes' off (hr _ _ _ h'),
    fun m v bytes' off h' => h.appended m v bytes' off (hr _ _ _ h')⟩

/-- Inline slots. -/
theorem slotSpec_inline (hty : ty.isPointer = false) : SlotSpec mode ty := by
  have hscalar : ∀ {bytes name p v bytes'}, writeValueSlot bytes name p ty v = .ok bytes' →
      ∃ bs, storedScalar ty (normalise ty v) = some bs ∧ bytes' = patch bytes p bs := by
    intro bytes name p v bytes' h
    unfold writeValueSlot at h
    split at h
    case h_5 =>
      split at h <;> cases h
      refine ⟨[], ?_, by simp [patch]⟩
      simp [normalise_eq, assemble, storedScalar]
    all_goals first
      | (cases h
         exact ⟨_, storedScalar_of_scalarBytes rfl, rfl⟩)
      | cases hty
      | cases h
  refine ⟨fun bytes name p v bytes' h => ?_, fun m name p v bytes' h hlt hp _ => ?_⟩
  · obtain ⟨bs, -, rfl⟩ := hscalar h
    exact le_length_patch _ _ _
  · obtain ⟨bs, hbs, rfl⟩ := hscalar h
    exact ⟨_, [], by rw [render_patch, render_ofBytes], slotWritten_inline hbs hp⟩

theorem appendString_appendSpec (mode : Mode) (name : String) :
    AppendSpec mode .string (appendTarget name .string) := by
  have hstring : ∀ {bytes v r}, appendTarget name .string bytes v = .ok r → ∃ s, v = .string s ∧
      appendTailRecord bytes 4 (utf8Bytes s).length (utf8Bytes s) = r := by
    intro bytes v r h
    cases v <;> simp only [appendTarget, Except.ok.injEq, reduceCtorEq] at h
    exact ⟨_, rfl, h⟩
  refine ⟨fun bytes v bytes' off h => ?_, fun m v bytes' off h hlt _ => ?_⟩
  · obtain ⟨s, rfl, hs⟩ := hstring h
    have := le_length_padTo bytes 4
    rw [appendTailRecord, Prod.mk.injEq] at hs
    rw [← hs.1, length_append, length_append]
    omega
  · obtain ⟨s, rfl, hs⟩ := hstring h
    exact appendString_spec hs hlt

theorem tryU32_eq_ok {n k : Nat} : tryU32 name n = .ok k ↔ n < 2 ^ 32 ∧ k = n := by
  unfold tryU32
  split <;> simp_all [eq_comm]

theorem appendPointerArray_grows
    {emit : List UInt8 → Nat → Value → Except BufferError (List UInt8 × Nat)}
    (hemit : ∀ bytes i v bytes' off, emit bytes i v = .ok (bytes', off) → bytes.length ≤ bytes'.length)
    (h : appendPointerArray bytes items emit = .ok (bytes', off)) :
    bytes.length ≤ bytes'.length := by
  simp only [appendPointerArray, bind_eq_ok, pure_eq_iff, Prod.mk.injEq] at h
  obtain ⟨⟨bytes₁, ts⟩, hrun, rfl, -⟩ := h
  have hpad := le_length_padTo bytes 4
  have hgrow := emitItems_grows hemit hrun
  have hgrow' := le_length_writeEntries bytes₁ ((padTo bytes 4 ++ leBytes 4 items.length).length) ts
  simp only [length_append] at hgrow hgrow' ⊢
  omega

section
variable (hlay : Layoutable (.list el))
  (hitem : el.isPointer = true → el.isRecord = false → ∀ name, AppendSpec mode el (appendTarget name el))
  (hrecord : ∀ s table, el = .schema s → offsetsFor s = .ok table →
    ∀ {append : List UInt8 → Value → Except BufferError (List UInt8 × Nat)},
      (∀ bytes v r, append bytes v = .ok r → ∃ child mismatch n₁ n₂,
        writeRecord (BufferBuilder.new table s.fields) s v mismatch = .ok child ∧
          pasteChild bytes child (schemaPasteAlign table s.fields) n₁ n₂ = .ok r) →
      AppendSpec mode el append)
include hlay hitem hrecord

theorem appendListPayload_cases {r : List UInt8 × Nat}
    (h : appendListPayload bytes el items = .ok r) : items.length < 2 ^ 32 ∧
      ((∃ size align payload, inlineElement el = some (size, align) ∧
          scalarPayload el 0 items = .ok payload ∧
          appendTailRecordWithInnerAlignment bytes 4 (max 4 align) items.length payload = r) ∨
        ∃ emit, el.isPointer = true ∧ (∀ i, AppendSpec mode el fun bytes v => emit bytes i v) ∧
          appendPointerArray bytes items emit = .ok r) := by
  unfold appendListPayload at h
  split at h
  · cases h
  · rename_i hlen
    refine ⟨by omega, ?_⟩
    split at h
    · obtain ⟨payload, hpay, h⟩ := bind_eq_ok.mp h
      cases h
      exact .inl ⟨8, 8, payload, rfl, hpay, rfl⟩
    · obtain ⟨payload, hpay, h⟩ := bind_eq_ok.mp h
      cases h
      exact .inl ⟨8, 8, payload, rfl, hpay, rfl⟩
    · obtain ⟨payload, hpay, h⟩ := bind_eq_ok.mp h
      cases h
      exact .inl ⟨1, 1, payload, rfl, hpay, rfl⟩
    · refine .inr ⟨_, rfl, fun i => (hitem rfl rfl "").of_refines fun bytes v r hr => ?_, h⟩
      split at hr
      · split at hr
        · cases hr
        · simp only [bind_eq_ok, tryU32_eq_ok, pure_eq_iff] at hr
          obtain ⟨k, ⟨-, rfl⟩, rfl⟩ := hr
          rfl
      · cases hr
    · refine .inr ⟨_, rfl, fun i => (hitem rfl rfl "").of_refines fun bytes v r hr => ?_, h⟩
      split at hr
      · simp only [bind_eq_ok, tryU32_eq_ok, pure_eq_iff] at hr
        obtain ⟨⟨b, off⟩, hb, k, ⟨-, rfl⟩, rfl⟩ := hr
        exact hb
      · cases hr
    · split at h
      · cases h
      · rename_i s _ table ht
        refine .inr ⟨_, rfl, fun i => hrecord s table rfl ht fun bytes v r hr => ?_, h⟩
        obtain ⟨child, hwrite, hpaste⟩ := bind_eq_ok.mp hr
        exact ⟨child, _, _, _, hwrite, hpaste⟩
    · cases h
    · cases h
    · have hv : el.isVariant = true := by cases el <;> simp_all [isVariant]
      have hrec : el.isRecord = false := by cases el <;> simp_all [isVariant, isRecord]
      have hptr := isPointer_of_isVariant hv
      refine .inr ⟨_, hptr, fun i => (hitem hptr hrec (nestedListName i)).of_refines fun bytes v r hr => ?_, h⟩
      simp only [bind_eq_ok, tryU32_eq_ok, pure_eq_iff] at hr
      obtain ⟨⟨b, off⟩, hb, k, ⟨-, rfl⟩, rfl⟩ := hr
      rw [appendTarget_variant hv]
      exact hb

theorem appendList_appendSpec (name : String) :
    AppendSpec mode (.list el) (appendTarget name (.list el)) := by
  have hlist : ∀ {bytes v r}, appendTarget name (.list el) bytes v = .ok r → ∃ items, v = .list items ∧
      appendListPayload bytes el items = .ok r := by
    intro bytes v r h
    cases v <;> simp only [appendTarget, reduceCtorEq] at h
    exact ⟨_, rfl, h⟩
  refine ⟨fun bytes v bytes' off h => ?_, fun m v bytes' off h hlt hsafe => ?_⟩
  · obtain ⟨items, rfl, hp⟩ := hlist h
    obtain ⟨-, ⟨size, align, payload, -, -, htail⟩ | ⟨emit, -, hemit, harray⟩⟩ :=
      appendListPayload_cases hlay hitem hrecord hp
    · have hpad := le_length_padTo bytes 4
      have hpad' := le_length_padTo (padTo bytes 4 ++ leBytes 4 items.length) (max 4 align)
      rw [appendTailRecordWithInnerAlignment, if_pos (by omega), Prod.mk.injEq] at htail
      rw [← htail.1]
      simp only [length_append] at hpad' ⊢
      omega
    · exact appendPointerArray_grows (fun bytes i => (hemit i).grows bytes) harray
  · obtain ⟨items, rfl, hp⟩ := hlist h
    obtain ⟨hlen, ⟨size, align, payload, hel, hpay, htail⟩ | ⟨emit, hel, hemit, harray⟩⟩ :=
      appendListPayload_cases hlay hitem hrecord hp
    · exact appendInlineList_spec hel rfl hlen hpay htail hlt
    · exact appendPointerArray_spec hemit hel (layoutable_element hlay) hlen harray hlt hsafe

end

theorem VariantShape.payload_type (h : VariantShape ty v tag (some (pty, pv)))
    (hlay : Layoutable ty) (hd : ty.distinct = true) :
    Layoutable pty ∧ pty.distinct = true ∧ pty.weight < ty.weight := by
  obtain ⟨sel, p, hsel, hp, rfl, -⟩ := h.payload_read hd
  obtain ⟨ps, hps, hmem⟩ := selectedPayload_mem hsel hp
  exact ⟨layoutable_payload hlay hps hmem, distinct_payload hps hmem hd,
    variantPayloadForValue_weight ((variantPayloadForValue_eq_ok "").mpr h)⟩

/-- What `write_value_slot` does at a type is what its appender does there. -/
theorem slotSpec_of_appends
    (happend : ty.isPointer = true → ∀ name, AppendSpec mode ty (appendTarget name ty)) :
    SlotSpec mode ty := by
  by_cases hty : ty.isPointer = true
  · exact slotSpec_of_append hty (happend hty)
  · exact slotSpec_inline (by simpa using hty)

/-- One level of the recursion over a pointer type: every type below it is appended as it
should be. -/
theorem appendSpec_step (ty : TypeRepr) (hty : ty.isPointer = true) (hlay : Layoutable ty)
    (hd : ty.distinct = true) (mode : Mode)
    (ih : ∀ ty', ty'.weight < ty.weight → Layoutable ty' → ty'.distinct = true →
      ty'.isPointer = true → ∀ mode name, AppendSpec mode ty' (appendTarget name ty'))
    (name : String) : AppendSpec mode ty (appendTarget name ty) := by
  have hslot : ∀ ty', ty'.weight < ty.weight → Layoutable ty' → ty'.distinct = true →
      ∀ mode, SlotSpec mode ty' := fun ty' hw hl hd' mode =>
    slotSpec_of_appends fun hp => ih ty' hw hl hd' hp mode
  cases ty with
  | unit | bool | int | float | closure _ _ => cases hty
  | string => exact appendString_appendSpec mode name
  | list el =>
    have hwel : el.weight < (list el).weight := by rw [weight]; omega
    refine appendList_appendSpec hlay
      (fun hp _ name => ih el hwel (layoutable_element hlay) hd hp mode name) ?_ name
    intro s table hs ht append happend
    subst hs
    have hs := Schema.distinct_iff.mp (show s.distinct = true from hd)
    refine appendRecord_spec ht hs.1 (fun f hf => ?_) mode happend
    have hw := field_ty_weight_lt hf
    exact hslot f.ty (by rw [weight, weight, s.weight_eq]; omega)
      (layoutable_field ht hf) (hs.2 f hf)
  | schema s =>
    obtain ⟨table, ht⟩ := layoutable_schema_iff.mp hlay
    have hs := Schema.distinct_iff.mp hd
    refine appendSchemaValuePayload_spec ht hs.1 (fun f hf => ?_) mode name
    have hw := field_ty_weight_lt hf
    exact hslot f.ty (by rw [weight, s.weight_eq]; omega) (layoutable_field ht hf)
      (hs.2 f hf)
  | option _ | result _ _ | enum _ _ =>
    refine (appendVariantRecord_spec hd ?_ mode name).of_refines fun _ _ _ h => h
    intro v tag pty pv hshape mode
    obtain ⟨hpl, hpd, hpw⟩ := hshape.payload_type hlay hd
    exact hslot pty hpw hpl hpd mode

/-- **The appender.** Whatever the appender of a layoutable pointer type with distinct names
accepts, the bytes it appends store its normal form. -/
theorem appendSpec (ty : TypeRepr) (hty : ty.isPointer = true) (hlay : Layoutable ty)
    (hd : ty.distinct = true) (mode : Mode) (name : String) :
    AppendSpec mode ty (appendTarget name ty) := by
  induction hw : ty.weight using Nat.strong_induction_on generalizing ty mode name with
  | _ n ih =>
    refine appendSpec_step ty hty hlay hd mode (fun ty' hlt hl hd' hp mode name => ?_) name
    exact ih ty'.weight (hw ▸ hlt) ty' hp hl hd' mode name rfl

/-- **The writer.** Whatever `write_value_slot` accepts for a layoutable type with distinct
names, the slot stores its normal form. -/
theorem slotSpec (ty : TypeRepr) (hlay : Layoutable ty) (hd : ty.distinct = true) (mode : Mode) :
    SlotSpec mode ty :=
  slotSpec_of_appends fun hty => appendSpec ty hty hlay hd mode

end Relon.Abi
