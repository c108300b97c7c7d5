import Relon.Abi.Arena
import Relon.Abi.VerifierSound

/-! The verifier accepts what the writer wrote.

A value stored in full lies inside the range it is stored in, down to the last
payload, so the verifier accepts it whenever that range is a region and the type
is not nested deeper than the walk goes (`Stored.verified`). In an arena a pointer
that the relocation walk passed by still counts from the start of the buffer, and
with the buffer as the only region it is rejected: `Session.verifies_iff`. -/
namespace Relon.Abi
open Bytes Reloc Relon.Except Verifier List TypeRepr

/-! ### Nesting -/

/-- How many records, lists and variant records lie inside one another. The payload of an enum
variant is a record of its own. -/
def TypeRepr.nesting (ty : TypeRepr) : Nat :=
  match ty with
  | .unit | .bool | .int | .float | .string | .closure .. => 0
  | .list el => el.nesting + 1
  | .schema s => ((s.fields.attach.map fun f => f.1.ty.nesting).max?).getD 0 + 1
  | variant => (((variantPayloadTypes variant).attach.map fun p => p.1.nesting).max?).getD 0 + 1
termination_by ty.weight
decreasing_by
  · simp [TypeRepr.weight]
  · have := field_ty_weight_lt f.2
    rw [TypeRepr.weight, Schema.weight_eq]
    omega
  · exact Nat.lt_of_le_of_lt (typesWeight_mem p.2) (typesWeight_variantPayloadTypes _)

section Nesting
variable {ty el p : TypeRepr} {s : Schema} {f : Field}

theorem le_max_attach {α : Type} {l : List α} {g : α → Nat} {a : α} (h : a ∈ l) :
    g a ≤ ((l.attach.map fun x => g x.1).max?).getD 0 := by
  cases hmax : (l.attach.map fun x => g x.1).max? with
  | none =>
    rw [List.max?_eq_none_iff, map_eq_nil_iff, attach_eq_nil_iff] at hmax
    rw [hmax] at h
    cases h
  | some n =>
    exact (List.max?_eq_some_iff.mp hmax).2 _ (mem_map.mpr ⟨⟨a, h⟩, mem_attach _ _, rfl⟩)

theorem nesting_list (el : TypeRepr) : (TypeRepr.list el).nesting = el.nesting + 1 := by
  rw [nesting]

theorem nesting_field (hf : f ∈ s.fields) : f.ty.nesting < (TypeRepr.schema s).nesting := by
  rw [nesting]
  exact Nat.lt_succ_of_le (le_max_attach (g := fun f => f.ty.nesting) hf)

theorem nesting_variant (hv : ty.isVariant = true) :
    ty.nesting = (((variantPayloadTypes ty).attach.map fun p => p.1.nesting).max?).getD 0 + 1 := by
  cases ty with
  | option _ | result _ _ | enum _ _ =>
    rw [nesting]
    all_goals simp
  | _ => cases hv

theorem nesting_payload {ps : List TypeRepr} (hps : variantPayloads ty = some ps) (hp : p ∈ ps) :
    p.nesting < ty.nesting := by
  have hp' : p ∈ variantPayloadTypes ty := by rwa [variantPayloadTypes, hps]
  have hv : ty.isVariant = true := isVariant_iff.mpr (by simp [hps])
  rw [nesting_variant hv]
  exact Nat.lt_succ_of_le (le_max_attach (g := nesting) hp')

end Nesting

/-! ### What is stored is accepted -/

/-- What it means for an item to be accepted, from any depth its types allow. -/
def Item.Verified (bytes : List UInt8) (bounds : Bounds) : Item → Prop
  | .target ty _ t => Layoutable ty → ∀ field depth, depth + ty.nesting < maxDepth →
    Target bytes bounds field ty t depth
  | .slots ps _ => ∀ x ∈ ps, Layoutable x.1 → ∀ field depth, depth + x.1.nesting < maxDepth →
    SlotVerified bytes bounds field x.1 x.2 depth
  | .stops .. => True

/-- Every span of the range is in a region. -/
def InBounds (bounds : Bounds) (lo hi : Nat) : Prop :=
  ∀ off len, lo ≤ off → off + len ≤ hi → bounds.Fits off len

section Complete
variable {m : Image} {lo hi : Nat} {bounds : Bounds}

theorem Window.fits {t : Nat} {bs : List UInt8} (h : Window m lo hi t bs) (hin : InBounds bounds lo hi) :
    bounds.Fits t bs.length :=
  hin t bs.length h.lo_le h.le_hi

theorem Window.fits_header {t n : Nat} (h : Window m lo hi t (leBytes 4 n)) (hin : InBounds bounds lo hi) :
    bounds.Fits t 4 := by
  have := h.fits hin
  rwa [length_leBytes] at this

theorem Stored.verified {item : Item} {E : List Event} (h : Stored .plain m lo hi item E)
    (hb : hi < 2 ^ 32) (hin : InBounds bounds lo hi) : item.Verified (render m) bounds := by
  induction h with
  | @string s t hlen hw =>
    intro _ field depth _
    have hlo := hw.lo_le
    have hhi := hw.le_hi
    rw [length_append, length_leBytes] at hhi
    have hhead : Window m lo hi t (leBytes 4 (utf8Bytes s).length) :=
      ⟨(bytesAt_append.mp hw.bytes).1, hlo, by rw [length_leBytes]; omega⟩
    rw [target_string_iff, hhead.readU32_eq hlen]
    exact ⟨hhead.fits_header hin, hin _ _ (by omega) (by omega)⟩
  | @inlineList el size align vs bss t hel hlen hw hall hp =>
    intro _ field depth _
    have ht := hw.le_hi
    rw [target_inlineList_iff hel (by omega), hw.readU32_eq hlen,
      ← (scalars_eq hel hall hp.bytes.holds_render).1]
    exact ⟨hw.fits_header hin, hp.fits hin⟩
  | @ptrList el vs t E hel hlay hlen hw hend _ _ ih =>
    intro hlist field depth hd
    rw [nesting_list] at hd
    have hlo := hw.lo_le
    rw [target_array_iff hel hlist, hw.readU32_eq hlen]
    refine ⟨hw.fits_header hin, fun i hi' => ?_⟩
    obtain ⟨hfits, htarget⟩ := ih _ (mem_entrySlots hi') hlay field (depth + 1) (by dsimp only; omega)
    rw [slotSize_pointer hel] at hfits
    exact ⟨hfits, htarget hel⟩
  | @record s table vs t E hs hn hlo hhi _ ih =>
    intro _ field depth hd
    rw [target_record_iff hs, verifyRecordInner_iff hs hn]
    have hpos : 0 < (schema s).nesting := by
      rw [nesting]
      omega
    refine ⟨by omega, hin _ _ hlo hhi, fun f fo hmem => ?_⟩
    have hf := (of_mem_zip hmem).1
    have := nesting_field hf
    exact ih _ (mem_recordSlots hmem t) (layoutable_field hs hf) f.name (depth + 1) (by dsimp only; omega)
  | @variantUnit ty tag sel v t hsel hp hv hw =>
    intro hlay field depth hd
    have ht := hw.le_hi
    rw [target_variant_iff (isVariant_of_selected hsel) hlay (by omega), hw.getD_eq]
    refine ⟨by omega, hw.fits hin, sel, hsel, fun p hp' => ?_⟩
    rw [hp] at hp'
    cases hp'
  | @variantPayload ty tag sel p pv v t E hsel hp hv hw _ ih =>
    intro hlay field depth hd
    have ht := hw.le_hi
    obtain ⟨ps, hps, hmem⟩ := selectedPayload_mem hsel hp
    have := nesting_payload hps hmem
    rw [target_variant_iff (isVariant_of_selected hsel) hlay (by omega), hw.getD_eq]
    refine ⟨by omega, hw.fits hin, sel, hsel, fun p' hp' => ?_⟩
    rw [hp, Option.some.injEq] at hp'
    subst hp'
    exact ih _ (mem_singleton.mpr rfl) (layoutable_payload hlay hps hmem) field (depth + 1)
      (by dsimp only; omega)
  | nil => simp [Item.Verified]
  | @inline ty p v bs ps vs E hbs hw hsize _ ih =>
    intro x hx hlay field depth hd
    rcases mem_cons.mp hx with rfl | hx
    · exact ⟨hin _ _ hw.lo_le hsize, fun hptr => absurd hptr (not_isPointer_of_storedScalar hbs)⟩
    · exact ih x hx hlay field depth hd
  | @pointer ty p t v ps vs E E' hty hw ht _ iht ihs =>
    intro x hx hlay field depth hd
    rcases mem_cons.mp hx with rfl | hx
    · have := ht.target_bounds
      refine ⟨?_, fun _ => ?_⟩
      · rw [slotSize_pointer hty]
        exact hin _ _ hw.lo_le hw.le_hi
      · rw [hw.readU32_eq (by omega)]
        exact iht hlay field depth hd
    · exact ihs x hx hlay field depth hd
  | stopList hmode => exact absurd rfl hmode
  | stopsNil | stopsCons => trivial

/-- A record stored in full, with its fixed area, is accepted. -/
theorem Stored.verified_record {s : Schema} {table : OffsetTable} {base : Nat} {vs : List Value}
    {E : List Event} (ht : offsetsFor s = .ok table) (hn : (s.fields.map Field.name).Nodup)
    (h : Stored .plain m lo hi (.slots (recordSlots s.fields table.fields base) vs) E)
    (hlo : lo ≤ base) (hroot : base + table.rootSize ≤ hi) (hb : hi < 2 ^ 32)
    (hin : InBounds bounds lo hi) (hlen : bounds.requiredLen ≤ m.length)
    (hdepth : ∀ f ∈ s.fields, f.ty.nesting < maxDepth) :
    verifyRecordWithBounds (render m) table s.fields base bounds = .ok () := by
  rw [verifyRecordWithBounds, length_render, if_neg (by omega), verifyRecordInner_iff ht hn]
  refine ⟨by decide, hin _ _ hlo hroot, fun f fo hmem => ?_⟩
  have hf := (of_mem_zip hmem).1
  have := hdepth f hf
  exact h.verified hb hin _ (mem_recordSlots hmem base) (layoutable_field ht hf) f.name 0
    (by dsimp only; omega)

end Complete

/-! ### What is accepted is reached

The walk of the verifier comes to every place a decoder reaches, so an accepted
record has all of them in bounds. -/

/-- The place is accepted at some depth. -/
def Place.Verified (bytes : List UInt8) (bounds : Bounds) : Place → Prop
  | .slot ty p => Layoutable ty ∧ ty.fieldNamesDistinct = true ∧
    ∃ field depth, SlotVerified bytes bounds field ty p depth
  | .target ty t => Layoutable ty ∧ ty.fieldNamesDistinct = true ∧ t < 2 ^ 32 ∧
    ∃ field depth, Target bytes bounds field ty t depth

section Reached
variable {bytes : List UInt8} {bounds : Bounds}

theorem Reach.verified {roots : List (TypeRepr × Nat)} {place : Place}
    (hroots : ∀ x ∈ roots, (Place.slot x.1 x.2).Verified bytes bounds) (h : Reach bytes roots place) :
    place.Verified bytes bounds := by
  induction h with
  | root hp => exact hroots _ hp
  | @pointer ty p _ hty ih =>
    obtain ⟨hlay, hn, field, depth, -, htarget⟩ := ih
    exact ⟨hlay, hn, readU32_lt bytes p, field, depth, htarget hty⟩
  | @entry el t i _ hel hi ih =>
    obtain ⟨hlay, hn, -, field, depth, htarget⟩ := ih
    obtain ⟨hfits, hentry⟩ := ((target_array_iff hel hlay).mp htarget).2 i hi
    refine ⟨layoutable_element hlay, fieldNamesDistinct_element hn, field, depth + 1, ?_, fun _ => hentry⟩
    rwa [slotSize_pointer hel]
  | @field s table f fo t _ ht hf ih =>
    obtain ⟨-, hn, -, field, depth, htarget⟩ := ih
    obtain ⟨hnames, hfields⟩ := fieldNamesDistinct_record hn
    rw [target_record_iff ht, verifyRecordInner_iff ht hnames] at htarget
    have hmem := (of_mem_zip hf).1
    exact ⟨layoutable_field ht hmem, hfields f hmem, f.name, depth + 1, htarget.2.2 f fo hf⟩
  | @payload ty sel p t _ hsel hp ih =>
    obtain ⟨hlay, hn, ht, field, depth, htarget⟩ := ih
    obtain ⟨ps, hps, hmem⟩ := selectedPayload_mem hsel hp
    rw [target_variant_iff (isVariant_of_selected hsel) hlay ht] at htarget
    obtain ⟨-, -, sel', hsel', hpay⟩ := htarget
    rw [hsel, Except.ok.injEq] at hsel'
    subst hsel'
    exact ⟨layoutable_payload hlay hps hmem, fieldNamesDistinct_payload hps hmem hn, field, depth + 1,
      hpay p hp⟩

/-- An accepted target starts in a region. -/
theorem target_fits {field : String} {ty : TypeRepr} {t depth : Nat} (hlay : Layoutable ty)
    (hn : ty.fieldNamesDistinct = true) (hty : ty.isPointer = true) (ht : t < 2 ^ 32)
    (h : Target bytes bounds field ty t depth) : ∃ len, bounds.Fits t len := by
  rcases pointer_cases hty with rfl | ⟨el, rfl⟩ | ⟨s, rfl⟩ | hv
  · exact ⟨_, (target_string_iff.mp h).1⟩
  · rcases list_element_cases hlay with hel | rfl | rfl | rfl
    · exact ⟨_, ((target_array_iff hel hlay).mp h).1⟩
    all_goals exact ⟨_, ((target_inlineList_iff rfl ht).mp h).1⟩
  · obtain ⟨table, htable⟩ := layoutable_schema_iff.mp hlay
    rw [target_record_iff htable, verifyRecordInner_iff htable (fieldNamesDistinct_record hn).1] at h
    exact ⟨_, h.2.1⟩
  · exact ⟨_, ((target_variant_iff hv hlay ht).mp h).2.1⟩

end Reached

/-! ### Finished buffers -/

theorem relocSafe_of_deep {ty : TypeRepr} {v : Value} (h : relocSafe true ty v = true) :
    relocSafe false ty v = true := by
  induction hw : ty.weight using Nat.strong_induction_on generalizing ty v with
  | _ w ih =>
    subst hw
    obtain ⟨-, hparts⟩ := relocSafe_iff.mp h
    refine relocSafe_iff.mpr ⟨by simp, fun x hx => ?_⟩
    cases hrec : ty.isRecord
    · exact ih _ (parts_weight hx) (hparts x hx) rfl
    · exact hparts x hx

/-- The moved bytes are accepted at `base` of every arena whose input region they are. -/
def VerifiesAt (s : Schema) (table : OffsetTable) (b : BufferBuilder) (base : Nat) : Prop :=
  ∃ moved, b.finishArenaAbsolute base = .ok moved ∧
    ∀ before after arena, before.length = base → arena.inBuf = ⟨base, base + moved.length⟩ →
      arena.maxEnd ≤ (before ++ moved ++ after).length →
      verifyRecordMulti (before ++ moved ++ after) table s.fields base arena = .ok ()

section Finished
variable {s : Schema} {table : OffsetTable} {writes : List (String × TypeRepr × Value)}
  {b : BufferBuilder}

variable {bounds : Bounds} {m : Image} {vs : List Value} {E : List Event} {base : Nat}

theorem inBounds_of_window {lo hi : Nat} (hhi : hi < 2 ^ 32) (h : ⟨lo, hi⟩ ∈ bounds.windows) :
    InBounds bounds lo hi :=
  fun off len hlo hend => ⟨by unfold usizeBound; omega, _, h, hlo, hend⟩

/-- Before any rebase, a buffer is accepted when its values read back. -/
theorem Session.verifies (h : Session s table writes b) (hfull : FullyWritten s writes)
    (hdepth : ∀ f ∈ s.fields, f.ty.nesting < maxDepth)
    (hsafe : ∀ f ∈ s.fields, ∀ v, lastWrite f.name writes = some v → relocSafe false f.ty v = true) :
    verifyRecord b.finish table s.fields 0 ⟨0, b.finish.length⟩ = .ok () := by
  obtain ⟨m, vs, E, hfin⟩ := h.finished .plain hfull hsafe
  have hroot := hfin.root
  rw [hfin.bytes, verifyRecord]
  refine hfin.stored.verified_record h.layout h.names (Nat.le_refl 0) (by omega) hfin.small ?_ ?_ hdepth
  · exact inBounds_of_window hfin.small (by simp [Bounds.windows])
  · simp [Bounds.requiredLen]

theorem Finished.verifiesAt (h : Finished .deep s table writes b m vs E)
    (hs : Session s table writes b) (hdepth : ∀ f ∈ s.fields, f.ty.nesting < maxDepth)
    (h8 : 8 ∣ base) (hb : base + m.length < 2 ^ 32) : VerifiesAt s table b base := by
  refine ⟨_, h.arena hs (by simp) hb, fun before after arena hlen hin hmax => ?_⟩
  have hroot := h.root
  rw [length_render, length_rebase] at hin
  rw [← render_arenaImage] at hmax ⊢
  rw [length_render] at hmax
  refine (h.placed h8 hlen after).of_deep.verified_record hs.layout hs.names (Nat.le_refl base) (by omega)
    hb ?_ hmax hdepth
  exact inBounds_of_window hb (by simp [Bounds.windows, MultiRegion.regions, hin])

/-- The slots of an accepted record. -/
theorem verified_roots {bytes : List UInt8} (ht : offsetsFor s = .ok table) (hd : s.distinct = true)
    (hok : verifyRecordWithBounds bytes table s.fields base bounds = .ok ()) :
    ∀ x ∈ recordSlots s.fields table.fields base, (Place.slot x.1 x.2).Verified bytes bounds := by
  obtain ⟨hnames, hfields⟩ := Schema.distinct_iff.mp hd
  rw [verifyRecordWithBounds] at hok
  split at hok
  · cases hok
  obtain ⟨-, -, hslots⟩ := (verifyRecordInner_iff ht hnames).mp hok
  intro x hx
  rw [recordSlots, ← map_uncurry_zip_eq_zipWith] at hx
  obtain ⟨⟨f, fo⟩, hmem, rfl⟩ := mem_map.mp hx
  have hf := (of_mem_zip hmem).1
  exact ⟨layoutable_field ht hf, fieldNamesDistinct_of_distinct (hfields f hf), _, _,
    hslots f fo hmem⟩

/-- An arena with nothing but the input region. -/
def soleArena (start stop : Nat) : MultiRegion :=
  ⟨⟨start, start⟩, ⟨start, stop⟩, ⟨start, start⟩, ⟨start, start⟩⟩

theorem start_soleArena {start stop : Nat} {r : Region}
    (h : r ∈ (Bounds.multi (soleArena start stop)).windows) : r.start = start := by
  simp only [Bounds.windows, MultiRegion.regions, soleArena, map_cons, map_nil, mem_cons,
    not_mem_nil, or_false] at h
  rcases h with rfl | rfl | rfl | rfl <;> rfl

/-- With the moved buffer as the only region, a pointer the walk passed by is rejected: it still
counts from the start of the buffer. -/
theorem Finished.noStale_of_verifiesAt (h : Finished .skeleton s table writes b m vs E)
    (hs : Session s table writes b) (h8 : 8 ∣ base) (hbase : m.length < base)
    (hb : base + m.length < 2 ^ 32) (hver : VerifiesAt s table b base) : NoStale E := by
  obtain ⟨moved, hmoved, hver⟩ := hver
  rw [h.arena hs (by simp) hb] at hmoved
  cases hmoved
  have hlen : (List.replicate base (0 : UInt8)).length = base := length_replicate
  have hok := hver (List.replicate base 0) [] (soleArena base (base + m.length)) hlen (by simp [soleArena])
    (by simp [MultiRegion.maxEnd, MultiRegion.regions, soleArena])
  rw [← render_arenaImage] at hok
  have hroots := verified_roots hs.layout hs.distinct hok
  intro p hp
  have hmem : p ∈ pointersOf E := mem_pointersOf.mpr (.inr hp)
  -- the slot is reached in the arena, so its target starts in the buffer's region
  obtain ⟨ty, hty, hreach⟩ := (h.placed h8 hlen []).reached hb (fun x hx => .root hx) (p + base)
    (by rw [pointersOf_shift]; exact mem_map_of_mem hmem)
  obtain ⟨hlay, hn, ht, field, depth, htarget⟩ := (hreach.pointer hty).verified hroots
  obtain ⟨len, -, r, hr, hstart, -⟩ := target_fits hlay hn hty ht htarget
  -- but it was not moved
  obtain ⟨u, hu, hw⟩ := h.stored.pointers p hmem
  have hptr : PtrAt (arenaImage (List.replicate base 0) base E m []) (p + base) u := by
    have hkept : PtrAt (rebase base (slotsOf E) m) p u := hw.ptr.rebase_of_not_mem (not_mem_slotsOf_of_stale h.nodup hp)
    have := (Holds.append_right hkept (ofBytes (List.replicate base 0))).append_left (ofBytes [])
    rwa [length_ofBytes, hlen] at this
  rw [readU32_render hptr (by omega), start_soleArena hr] at hstart
  omega

/-- **Completeness.** A fully written buffer is accepted, in place and in every arena it is moved
to, when the relocation walk passes no pointer by; a buffer below 2 GiB only then. -/
theorem Session.verifies_iff (h : Session s table writes b) (hfull : FullyWritten s writes)
    (hdepth : ∀ f ∈ s.fields, f.ty.nesting < maxDepth) : (RelocSafe s writes →
      verifyRecord b.finish table s.fields 0 ⟨0, b.finish.length⟩ = .ok () ∧
        ∀ base, 8 ∣ base → base + b.finish.length < 2 ^ 32 → VerifiesAt s table b base) ∧
    (b.finish.length + 8 < 2 ^ 31 →
      (∀ base, 8 ∣ base → base + b.finish.length < 2 ^ 32 → VerifiesAt s table b base) →
      RelocSafe s writes) := by
  constructor
  · intro hsafe
    refine ⟨h.verifies hfull hdepth fun f hf v hv => relocSafe_of_deep (hsafe f hf v hv),
      fun base h8 hb => ?_⟩
    obtain ⟨m, vs, E, hfin⟩ := h.finished .deep hfull hsafe
    rw [hfin.bytes, length_render] at hb
    exact hfin.verifiesAt h hdepth h8 hb
  · intro hsmall hver f hf v hlast
    obtain ⟨m, vs, E, hfin⟩ := h.finished .skeleton hfull fun _ _ _ _ => trivial
    rw [hfin.bytes, length_render] at hsmall hver
    have hlt := alignUp_lt (n := m.length + 1) (a := 8) (by omega)
    have hle := le_alignUp (m.length + 1) 8
    have h8 : 8 ∣ Bytes.alignUp (m.length + 1) 8 := dvd_alignUp (by omega)
    have hno := hfin.noStale_of_verifiesAt h h8 (by omega) (by omega) (hver _ h8 (by omega))
    exact hfin.events.covered rfl hno (f.ty, v) (hfin.mem_values hf hlast)

end Finished

/-- The verdict on the finished bytes moved behind `base` zeros, their place the only region. -/
def verifyMoved (s : Schema) (base : Nat) (table : OffsetTable) (b : BufferBuilder) :
    Option (Except VerifyError Unit) := do
  let moved ← (b.finishArenaAbsolute base).toOption
  return verifyRecordMulti (List.replicate base 0 ++ moved) table s.fields base
    (soleArena base (base + moved.length))

/-- The innermost pointer of a nested list, 20, is not moved and lies before the buffer at 40. -/
theorem moved_list_rejected :
    ∃ table b, Session cubeRecord table [("x", cubeType, .list [.list [.list [.int 1]]])] b ∧
      FullyWritten cubeRecord [("x", cubeType, .list [.list [.list [.int 1]]])] ∧
      cubeType.nesting = 3 ∧
      verifyMoved cubeRecord 40 table b = some (.error (.noRegion "x" "list length prefix" 20 4)) := by
  obtain ⟨table, b, hs, -, hrun⟩ := session_of_run cubeRecord
    [("x", cubeType, .list [.list [.list [.int 1]]])] (n := 32)
    (f := fun table b => verifyMoved cubeRecord 40 table b)
    (a := some (.error (.noRegion "x" "list length prefix" 20 4)))
    (by decide +kernel) (by decide +kernel) (by omega)
  exact ⟨table, b, hs, by unfold FullyWritten; decide +kernel, by decide +kernel, hrun⟩

/-- A record of records verifies where it was built, and 16 bytes further on. -/
theorem Session.verifies_nested : ∃ table b, Session nestedRoot table nestedWrites b ∧
      verifyRecord b.finish table nestedRoot.fields 0 ⟨0, b.finish.length⟩ = .ok () ∧
      VerifiesAt nestedRoot table b 16 := by
  obtain ⟨table, b, hs, hlen⟩ := nestedRoot_session
  have hdepth : ∀ f ∈ nestedRoot.fields, f.ty.nesting < maxDepth := by decide +kernel
  have hok := (hs.verifies_iff nestedWrites_full hdepth).1 nestedWrites_safe
  exact ⟨table, b, hs, hok.1, hok.2 16 (by decide) (by omega)⟩

end Relon.Abi
