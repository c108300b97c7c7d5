import Relon.Abi.BufferProofs
import Relon.Abi.Stored

/-! What the reader decodes.

The decoding functions have one equation each below, free of their termination
plumbing. `Stored.reads`: on the bytes of an image, the reader gives back every
value the image stores. -/
namespace Relon.Abi
open Bytes Reloc Relon.Except List

/-! ### Equations -/

variable {ty : TypeRepr} {bytes : List UInt8} {off : Nat} {sel : SelectedVariant}
  {p : SelectedVariantPayload} {tag : UInt8} {v : Value}

theorem readFieldAt_variant (hv : ty.isVariant = true) (bytes : List UInt8) (slot : Nat) :
    readFieldAt bytes slot ty =
      (readSlotPointer bytes slot >>= fun base => readVariantRecordAt bytes base ty) := by
  cases ty <;> simp_all [TypeRepr.isVariant, readFieldAt]

theorem readListValueAt_variant {el : TypeRepr} (hv : el.isVariant = true) (bytes : List UInt8)
    (header : Nat) : readListValueAt bytes header el =
      (readPointerArrayHeader bytes header >>= fun x =>
        (List.range x.1).mapM fun i =>
          readEntryPointer bytes x.2 i >>= fun base => readVariantRecordAt bytes base el) := by
  cases el <;> simp_all [TypeRepr.isVariant, readListValueAt]

theorem readVariantRecordAt_unit (hin : exceeds bytes off 1 = false)
    (hsel : variantSelectedPayload ty (bytes.getD off 0) = .ok sel) (hp : sel.payload = none) :
    readVariantRecordAt bytes off ty = variantWithoutPayload ty sel := by
  rw [readVariantRecordAt, hin, if_neg (by simp)]
  split
  · simp_all
  · rename_i sel' hsel'
    rw [hsel, Except.ok.injEq] at hsel'
    subst hsel'
    split
    · rfl
    · simp_all

theorem readVariantRecordAt_payload (hin : exceeds bytes off 1 = false)
    (hsel : variantSelectedPayload ty (bytes.getD off 0) = .ok sel) (hp : sel.payload = some p) :
    readVariantRecordAt bytes off ty =
      (orMalformed "<variant>" "variant payload slot offset overflows usize"
        (variantPayloadSlotOffset off p.ty) >>= fun slot =>
          readFieldAt bytes slot p.ty >>= variantWithPayload ty sel p) := by
  rw [readVariantRecordAt, hin, if_neg (by simp)]
  split
  · simp_all
  · rename_i sel' hsel'
    rw [hsel, Except.ok.injEq] at hsel'
    subst hsel'
    split
    · simp_all
    · rename_i p' hp'
      rw [hp, Option.some.injEq] at hp'
      subst hp'
      rfl

/-- A tag that selects no payload has a value of its own. -/
theorem variantWithoutPayload_ok (hsel : variantSelectedPayload ty tag = .ok sel)
    (hp : sel.payload = none) : ∃ v, variantWithoutPayload ty sel = .ok v := by
  cases ty with
  | option _ | enum _ _ => exact ⟨_, rfl⟩
  | result ok err =>
    rw [variantSelectedPayload] at hsel
    split at hsel
    · cases hsel
      cases hp
    · split at hsel <;> cases hsel
      cases hp
  | _ => cases hsel

theorem readRecordAt_record {base : Nat} {table : OffsetTable} {s : Schema} (hs : s.isTuple = false)
    (h : readRecordAt bytes base table s = .ok v) : ∃ map, v = .brandedDict map (some s.name) := by
  rw [readRecordAt, hs, if_neg (by simp)] at h
  obtain ⟨items, -, h⟩ := bind_eq_ok.mp h
  cases h
  exact ⟨_, rfl⟩

/-- A payload that decodes makes up the value of its variant: the payload of an enum variant is
a record, never a tuple. -/
theorem variantWithPayload_ok {slot : Nat} (hsel : variantSelectedPayload ty tag = .ok sel)
    (hp : sel.payload = some p) (hv : readFieldAt bytes slot p.ty = .ok v) :
    ∃ w, variantWithPayload ty sel p v = .ok w := by
  cases ty with
  | option _ | result _ _ => exact ⟨_, rfl⟩
  | enum name variants =>
    rw [variantSelectedPayload] at hsel
    split at hsel
    · cases hsel
      obtain ⟨s, hs, rfl⟩ := Option.map_eq_some_iff.mp hp
      dsimp only at hv
      rw [readFieldAt] at hv
      split at hv
      · cases hv
      · obtain ⟨base, -, hrec⟩ := bind_eq_ok.mp hv
        obtain ⟨map, rfl⟩ := readRecordAt_record (EnumVariant.payloadSchema_fields hs).2 hrec
        exact ⟨_, rfl⟩
    · cases hsel
  | _ => cases hsel

/-! ### Checks that pass -/

/-- The bytes below `stop` exist and can be addressed. -/
structure Readable (bytes : List UInt8) (stop : Nat) : Prop where
  lt : stop < usizeBound
  le : stop ≤ bytes.length

section Checks
variable {bytes : List UInt8} {stop p n : Nat}

theorem checkedAdd_of_lt (h : p + n < usizeBound) : checkedAdd p n = some (p + n) := by
  rw [checkedAdd, if_pos h]

theorem Readable.checkedAdd (hb : Readable bytes stop) (h : p + n ≤ stop) :
    checkedAdd p n = some (p + n) := by
  have := hb.lt
  exact checkedAdd_of_lt (by omega)

theorem Readable.le_length (hb : Readable bytes stop) (h : p ≤ stop) : ¬ p > bytes.length := by
  have := hb.le
  omega

theorem exceeds_eq_false (hb : Readable bytes stop) (h : p + n ≤ stop) :
    exceeds bytes p n = false := by
  rw [exceeds, hb.checkedAdd h]
  simpa using hb.le_length h

theorem readSlotPointer_ok (hb : Readable bytes stop) (h : p + 4 ≤ stop) :
    readSlotPointer bytes p = .ok (readU32 bytes p) := by
  rw [readSlotPointer, exceeds_eq_false hb h]
  rfl

theorem readInline_ok (hb : Readable bytes stop) (h : p + n ≤ stop) :
    readInline bytes p n = .ok (slice bytes p n) := by
  rw [readInline, hb.checkedAdd h]
  simp only [orMalformed, okOr_some, ok_bind]
  rw [if_neg (hb.le_length h)]
  rfl

theorem checkPointerEntriesInBounds_ok (name : String) (hb : Readable bytes stop)
    (h : p + n * 4 ≤ stop) : checkPointerEntriesInBounds bytes name p n = .ok () := by
  have hlt := hb.lt
  have hle := hb.le
  rw [checkPointerEntriesInBounds, checkedMul, if_pos (by omega), Option.bind_some,
    hb.checkedAdd h]
  dsimp only
  rw [if_pos (by omega)]

theorem readPointerArrayHeader_ok (hb : Readable bytes stop)
    (h : p + 4 + readU32 bytes p * 4 ≤ stop) :
    readPointerArrayHeader bytes p = .ok (readU32 bytes p, p + 4) := by
  rw [readPointerArrayHeader, exceeds_eq_false hb (by omega), if_neg (by simp)]
  dsimp only
  rw [checkPointerEntriesInBounds_ok _ hb h]
  rfl

theorem readEntryPointer_ok (hb : Readable bytes stop) (h : p + n * 4 + 4 ≤ stop) :
    readEntryPointer bytes p n = .ok (readU32 bytes (p + n * 4)) := by
  rw [readEntryPointer, hb.checkedAdd (by omega)]
  simp only [orMalformed, okOr_some, ok_bind]
  rw [if_neg (hb.le_length h)]
  rfl

theorem variantPayloadSlotOffset_ok {ty : TypeRepr} (h : p < 2 ^ 32) :
    variantPayloadSlotOffset p ty = some (payloadSlot p ty) := by
  have hal := isAlign_payloadSlot ty
  have hlt := alignUp_lt (n := p + 1) hal.pos
  rw [variantPayloadSlotOffset, checkedAdd_of_lt (by unfold usizeBound; omega)]
  simp only [Option.bind_eq_bind, Option.bind_some]
  rcases hal with hal | hal | hal
  · simp [payloadSlot, hal, alignUp_one]
  · rw [hal] at hlt
    rw [if_neg (by omega), payloadSlot, checkedNextMultipleOf, hal, if_pos (by unfold usizeBound; omega)]
  · rw [hal] at hlt
    rw [if_neg (by omega), payloadSlot, checkedNextMultipleOf, hal, if_pos (by unfold usizeBound; omega)]

end Checks

/-! ### Decoding a target -/

/-- Decoding the target `t` of a pointer to a `ty`. A field and a list entry report a bad string
in their own words. -/
def readTarget (errors : StringErrors) (bytes : List UInt8) (ty : TypeRepr) (t : Nat) :
    Except BufferError Value :=
  match ty with
  | .string => do return .string (← readStringWith errors bytes t)
  | .list el => do return .list (← readListValueAt bytes t el)
  | .schema s =>
    match offsetsFor s with
    | .error _ => malformedAt "<sub-record field>" "nested schema field is not layoutable"
    | .ok table => readRecordAt bytes t table s
  | variant => readVariantRecordAt bytes t variant

/-- A record at `t` ends before `stop`. -/
def TargetFits (stop : Nat) (ty : TypeRepr) (t : Nat) : Prop :=
  ∀ s table, ty = .schema s → offsetsFor s = .ok table → t + table.rootSize ≤ stop

theorem readTarget_variant {ty : TypeRepr} (hv : ty.isVariant = true) (errors : StringErrors)
    (bytes : List UInt8) (t : Nat) : readTarget errors bytes ty t = readVariantRecordAt bytes t ty := by
  cases ty <;> simp_all [TypeRepr.isVariant, readTarget]

theorem pointer_cases {ty : TypeRepr} (h : ty.isPointer = true) :
    ty = .string ∨ (∃ el, ty = .list el) ∨ (∃ s, ty = .schema s) ∨ ty.isVariant = true := by
  cases ty <;> simp_all [listPayloadIsPointerArray, TypeRepr.isVariant]

theorem entrySlots_eq_map (el : TypeRepr) (start n : Nat) :
    entrySlots el start n = (List.range n).map fun i => (el, start + i * 4) := by
  induction n generalizing start with
  | zero => rfl
  | succ n ih =>
    rw [entrySlots, ih, range_succ_eq_map, map_cons, map_map]
    simp only [Nat.zero_mul, Nat.add_zero, List.cons.injEq, true_and]
    congr 1
    funext i
    simp only [Function.comp_apply, Prod.mk.injEq, true_and]
    omega

section Targets
variable {bytes : List UInt8} {stop p t : Nat} {ty el : TypeRepr} (hb : Readable bytes stop)
include hb

/-- A pointer field decodes its target. -/
theorem readFieldAt_pointer (hty : ty.isPointer = true) (hp : p + 4 ≤ stop) :
    readFieldAt bytes p ty = readTarget fieldStringErrors bytes ty (readU32 bytes p) := by
  have hptr := readSlotPointer_ok hb hp
  rcases pointer_cases hty with rfl | ⟨el, rfl⟩ | ⟨s, rfl⟩ | hv
  · rw [readFieldAt, hptr]
    rfl
  · rw [readFieldAt, hptr]
    rfl
  · rw [readFieldAt, readTarget, hptr]
    cases offsetsFor s <;> rfl
  · rw [readFieldAt_variant hv, hptr, ok_bind, readTarget_variant hv]

/-- A pointer array decodes the targets of its entries. -/
theorem readListValueAt_pointer (hel : el.isPointer = true) (hlay : Layoutable el)
    (hend : t + 4 + readU32 bytes t * 4 ≤ stop)
    (hfits : ∀ i < readU32 bytes t, TargetFits stop el (readU32 bytes (t + 4 + i * 4))) :
    readListValueAt bytes t el = (List.range (readU32 bytes t)).mapM fun i =>
      readTarget listStringErrors bytes el (readU32 bytes (t + 4 + i * 4)) := by
  have hlt := hb.lt
  have hle := hb.le
  have hhead := readPointerArrayHeader_ok hb hend
  have hentry : ∀ i < readU32 bytes t, readEntryPointer bytes (t + 4) i =
      .ok (readU32 bytes (t + 4 + i * 4)) := fun i hi => readEntryPointer_ok hb (by omega)
  rcases pointer_cases hel with rfl | ⟨inner, rfl⟩ | ⟨s, rfl⟩ | hv
  · rw [readListValueAt, readListStringAt, exceeds_eq_false hb (by omega), if_neg (by simp)]
    dsimp only
    rw [checkPointerEntriesInBounds_ok _ hb hend, ok_bind]
    refine mapM_map_results.trans (mapM_congr fun i hi => ?_)
    rw [mem_range] at hi
    rw [checkedAdd_of_lt (by omega)]
    simp only [orMalformed, okOr_some, ok_bind]
    rw [if_neg (by omega)]
    rfl
  · rw [readListValueAt, hhead, ok_bind]
    refine mapM_congr fun i hi => ?_
    rw [hentry i (mem_range.mp hi), ok_bind]
    rfl
  · obtain ⟨table, ht⟩ := layoutable_schema_iff.mp hlay
    rw [readListValueAt, ht]
    simp only
    rw [hhead, ok_bind]
    refine mapM_congr fun i hi => ?_
    rw [mem_range] at hi
    have := hfits i hi s table rfl ht
    rw [hentry i hi, ok_bind, checkedAdd_of_lt (by omega)]
    simp only [orMalformed, okOr_some, ok_bind, readTarget, ht]
    rw [if_neg (by omega)]
  · rw [readListValueAt_variant hv, hhead, ok_bind]
    refine mapM_congr fun i hi => ?_
    rw [hentry i (mem_range.mp hi), ok_bind, readTarget_variant hv]

omit hb in
theorem readRecordFields_eq {base : Nat} {table : OffsetTable} {fs : List Field}
    {fos : List FieldOffset} (missing overflow : String)
    (hlook : List.Forall₂ (fun (f : Field) fo =>
      table.fields.find? (fun x => x.name == f.name) = some fo ∧ base + fo.offset < usizeBound) fs fos) :
    readRecordFields bytes base table missing overflow fs =
      ((fs.zip fos).mapM (fun x => readFieldAt bytes (base + x.2.offset) x.1.ty) >>= fun vs =>
        .ok ((fs.map Field.name).zip vs)) := by
  induction hlook with
  | nil => rw [readRecordFields]; rfl
  | @cons f fo fs fos hf _ ih =>
    rw [readRecordFields, hf.1, zip_cons_cons, mapM_cons, ih]
    simp only [orMalformed, okOr_some, ok_bind, checkedAdd_of_lt hf.2]
    cases readFieldAt bytes (base + fo.offset) f.ty with
    | error e => rfl
    | ok v => cases (fs.zip fos).mapM (fun x => readFieldAt bytes (base + x.2.offset) x.1.ty) <;> rfl

/-- A record decodes its slots. -/
theorem readRecordAt_eq {base : Nat} {s : Schema} {table : OffsetTable} (ht : offsetsFor s = .ok table)
    (hn : (s.fields.map Field.name).Nodup) (hroot : base + table.rootSize ≤ stop) :
    readRecordAt bytes base table s =
      ((s.fields.zip table.fields).mapM (fun x => readFieldAt bytes (base + x.2.offset) x.1.ty) >>=
        fun vs => .ok (recordValue s vs)) := by
  have hlt := hb.lt
  obtain ⟨last, hplaced, hlast⟩ := (offsetsFor_layout ht).placed
  have hlook : List.Forall₂ (fun (f : Field) fo => table.fields.find? (fun x => x.name == f.name) = some fo ∧
      base + fo.offset < usizeBound) s.fields table.fields := by
    have hbounds := hplaced.bounds
    have hl := hplaced.lookup hn
    rw [forall₂_iff_zip] at hl ⊢
    refine ⟨hl.1, fun hmem => ⟨(hl.2 hmem).2.1, ?_⟩⟩
    have := hbounds _ (of_mem_zip hmem).2
    omega
  rw [readRecordAt, readRecordFields_eq _ _ hlook, readRecordFields_eq _ _ hlook]
  cases hrun : (s.fields.zip table.fields).mapM fun x => readFieldAt bytes (base + x.2.offset) x.1.ty with
  | error e => split <;> rfl
  | ok vs =>
    have hlen : vs.length ≤ (s.fields.map Field.name).length := by
      have := (mapM_eq_ok.mp hrun).length_eq
      rw [length_zip] at this
      rw [length_map]
      omega
    simp only [ok_bind, recordValue]
    split
    · rw [pure_eq_ok, map_snd_zip hlen]
    · rfl

end Targets

/-- Decoding the target `t` of a pointer to a `ty` gives `v`. -/
structure Reads (bytes : List UInt8) (stop : Nat) (ty : TypeRepr) (t : Nat) (v : Value) : Prop where
  value : ∀ errors, readTarget errors bytes ty t = .ok v
  fits : TargetFits stop ty t

/-- The slot `x` decodes to `v`, and so does the target it points at. -/
structure SlotReads (bytes : List UInt8) (stop : Nat) (x : TypeRepr × Nat) (v : Value) : Prop where
  field : readFieldAt bytes x.2 x.1 = .ok v
  target : x.1.isPointer = true → Reads bytes stop x.1 (readU32 bytes x.2) v

variable {bs bytes : List UInt8} {p t hi lo size stop align : Nat} {el ty : TypeRepr} {v : Value}
  {vs : List Value} {s : Schema} {table : OffsetTable} {bss : List (List UInt8)} {m : Image}
  {fields : List Field}

theorem slotReads_of_reads (hb : Readable bytes stop) (hty : ty.isPointer = true)
    (hp : p + 4 ≤ stop) (h : Reads bytes stop ty (readU32 bytes p) v) :
    SlotReads bytes stop (ty, p) v :=
  ⟨(readFieldAt_pointer hb hty hp).trans (h.value _), fun _ => h⟩

theorem targetFits_of_not_schema (h : ∀ s, ty ≠ .schema s) :
    TargetFits stop ty t := fun s _ hs _ => absurd hs (h s)

/-- A pointer array decodes when its entries do. -/
theorem readListValueAt_ok (hb : Readable bytes stop) (hel : el.isPointer = true)
    (hlay : Layoutable el) (hcount : readU32 bytes t = vs.length)
    (hend : t + 4 + vs.length * 4 ≤ stop)
    (h : List.Forall₂ (SlotReads bytes stop) (entrySlots el (t + 4) vs.length) vs) :
    readListValueAt bytes t el = .ok vs := by
  rw [entrySlots_eq_map, forall₂_map_left_iff] at h
  have hreads := h.imp fun i v hiv => hiv.target hel
  rw [readListValueAt_pointer hb hel hlay (by rwa [hcount]), hcount, mapM_eq_ok]
  · exact hreads.imp fun i v hiv => hiv.value _
  · intro i hi
    rw [hcount] at hi
    have := (forall₂_iff_get.mp hreads).2 i (by simpa using hi) hi
    simpa using this.fits

/-- A record decodes when its slots do. -/
theorem readRecordAt_ok {stop base : Nat} (hb : Readable bytes stop) (ht : offsetsFor s = .ok table)
    (hn : (s.fields.map Field.name).Nodup) (hroot : base + table.rootSize ≤ stop)
    (h : List.Forall₂ (SlotReads bytes stop) (recordSlots s.fields table.fields base) vs) :
    readRecordAt bytes base table s = .ok (recordValue s vs) := by
  rw [recordSlots, ← map_uncurry_zip_eq_zipWith, forall₂_map_left_iff] at h
  rw [readRecordAt_eq hb ht hn hroot, bind_eq_ok]
  exact ⟨vs, mapM_eq_ok.mpr (h.imp fun x v hx => hx.field), rfl⟩

/-! ### Scalars -/

theorem readFieldAt_scalar (hb : Readable bytes stop) (hv : storedScalar ty v = some bs)
    (hw : Holds bytes p bs) (hend : p + bs.length ≤ stop) : readFieldAt bytes p ty = .ok v := by
  have hs := slice_of_holds hw
  unfold storedScalar at hv
  split at hv
  · cases hv
    rw [length_i64Bytes] at hs hend
    simp [readFieldAt, readInline_ok hb hend, hs, i64OfBytes_i64Bytes]
  · cases hv
    rw [length_f64Bytes] at hs hend
    simp [readFieldAt, readInline_ok hb hend, hs, f64OfBytes_f64Bytes]
  · rename_i b
    cases hv
    simp only [length_singleton] at hs hend
    simp only [readFieldAt, readInline_ok hb hend, hs, ok_bind]
    cases b <;> rfl
  · split at hv <;> cases hv
    rename_i hv
    simp [readFieldAt, hv]
  · cases hv

/-- The scalar at the start of its own bytes. -/
theorem scalarAt_eq (hel : inlineElement el = some (size, align)) (hv : storedScalar el v = some bs)
    (hw : Holds bytes p bs) : bs.length = size ∧ scalarAt bytes el p = v := by
  have hs := slice_of_holds hw
  cases el <;> simp only [inlineElement, Option.some.injEq, Prod.mk.injEq, reduceCtorEq] at hel
  all_goals
    obtain ⟨rfl, rfl⟩ := hel
    cases v <;> simp only [storedScalar, Option.some.injEq, reduceCtorEq] at hv
    subst hv
  · rename_i b
    refine ⟨rfl, ?_⟩
    have h0 := hw 0 _ rfl
    rw [Nat.add_zero] at h0
    simp only [scalarAt, getD_eq_getElem?_getD, h0, Option.getD_some]
    cases b <;> rfl
  · rw [length_i64Bytes] at hs
    simp [scalarAt, hs, i64OfBytes_i64Bytes]
  · rw [length_f64Bytes] at hs
    simp [scalarAt, hs, f64OfBytes_f64Bytes]

theorem scalars_eq {size align start : Nat} (hel : inlineElement el = some (size, align))
    (hall : List.Forall₂ (fun v bs => storedScalar el v = some bs) vs bss)
    (hw : Holds bytes start bss.flatten) : bss.flatten.length = vs.length * size ∧
      (List.range vs.length).map (fun k => scalarAt bytes el (start + k * size)) = vs := by
  induction hall generalizing start with
  | nil => simp
  | @cons v bs vs bss hv _ ih =>
    rw [flatten_cons, holds_append] at hw
    obtain ⟨hlen, hscalar⟩ := scalarAt_eq hel hv hw.1
    obtain ⟨hlens, hrest⟩ := ih hw.2
    refine ⟨?_, ?_⟩
    · rw [flatten_cons, length_append, hlens, hlen, length_cons, Nat.succ_mul,
        Nat.add_comm]
    · rw [length_cons, range_succ_eq_map, map_cons, map_map]
      simp only [Nat.zero_mul, Nat.add_zero, hscalar, List.cons.injEq, true_and]
      rw [hlen] at hrest
      refine Eq.trans ?_ hrest
      congr 1
      funext k
      simp only [Function.comp_apply, Nat.succ_eq_add_one, Nat.add_mul, Nat.one_mul]
      congr 1
      omega

/-! ### Decoding what is stored -/

/-- A string record in bounds can only fail to be UTF-8. -/
theorem readStringWith_eq (hb : Readable bytes stop) (hend : t + 4 + readU32 bytes t ≤ stop)
    (errors : StringErrors) : readStringWith errors bytes t =
      orMalformed errors.name errors.notUtf8 (utf8Decode (slice bytes (t + 4) (readU32 bytes t))) := by
  have hle := hb.le
  rw [readStringWith, exceeds_eq_false hb (by omega), if_neg (by simp)]
  dsimp only
  rw [hb.checkedAdd hend]
  simp only [orMalformed, okOr_some, ok_bind]
  rw [if_neg (by omega)]

theorem readStringWith_ok {s : String} (hb : Readable bytes stop)
    (hlen : (utf8Bytes s).length < 2 ^ 32)
    (hw : Holds bytes t (leBytes 4 (utf8Bytes s).length ++ utf8Bytes s))
    (hend : t + 4 + (utf8Bytes s).length ≤ stop) (errors : StringErrors) :
    readStringWith errors bytes t = .ok s := by
  rw [holds_append, length_leBytes] at hw
  have hcount : readU32 bytes t = (utf8Bytes s).length := by
    have hs := slice_of_holds hw.1
    rw [length_leBytes] at hs
    rw [readU32, hs, leNat_leBytes (by simpa using hlen)]
  rw [readStringWith_eq hb (by rwa [hcount]), hcount, slice_of_holds hw.2, utf8Decode_utf8Bytes]
  rfl

/-- An inline list in bounds is its scalars. -/
theorem readInlineScalarListAt_eq (hb : Readable bytes stop)
    (hel : inlineElement el = some (size, align)) (ht : t + 4 ≤ stop)
    (hend : alignUp (t + 4) align + readU32 bytes t * size ≤ stop) :
    readInlineScalarListAt bytes t el = .ok ((List.range (readU32 bytes t)).map fun k =>
      scalarAt bytes el (alignUp (t + 4) align + k * size)) := by
  have hlt := hb.lt
  have hle := hb.le
  have hstart : (if align > 1 then alignUp (t + 4) align else t + 4) = alignUp (t + 4) align := by
    have : align = 8 ∨ align = 1 := by
      cases el <;> simp [inlineElement] at hel <;> omega
    rcases this with rfl | rfl
    · rfl
    · rw [alignUp_one]
      rfl
  have hmul : checkedMul (readU32 bytes t) size = some (readU32 bytes t * size) := by
    rw [checkedMul, if_pos (by omega)]
  rw [readInlineScalarListAt, exceeds_eq_false hb ht, if_neg (by simp), hel]
  dsimp only
  rw [hstart, hmul]
  simp only [orMalformed, okOr_some, ok_bind]
  rw [checkedAdd_of_lt (by omega)]
  simp only [okOr_some, ok_bind]
  rw [if_neg (by omega)]
  rfl

theorem readInlineScalarListAt_ok (hb : Readable bytes stop)
    (hel : inlineElement el = some (size, align)) (hcount : readU32 bytes t = vs.length)
    (ht : t + 4 ≤ stop) (hall : List.Forall₂ (fun v bs => storedScalar el v = some bs) vs bss)
    (hw : Holds bytes (alignUp (t + 4) align) bss.flatten)
    (hend : alignUp (t + 4) align + bss.flatten.length ≤ stop) :
    readInlineScalarListAt bytes t el = .ok vs := by
  obtain ⟨hlen, hscalars⟩ := scalars_eq hel hall hw
  rw [readInlineScalarListAt_eq hb hel ht (by rwa [hcount, ← hlen]), hcount, hscalars]

theorem readListValueAt_inline (hel : inlineElement el = some (size, align)) (bytes : List UInt8)
    (t : Nat) : readListValueAt bytes t el = readInlineScalarListAt bytes t el := by
  cases el <;> simp_all [inlineElement, readListValueAt]

/-- What it means for an item to decode. -/
def Item.Decodes (bytes : List UInt8) (stop : Nat) : Item → Prop
  | .target ty v t => Reads bytes stop ty t v
  | .slots ps vs => List.Forall₂ (SlotReads bytes stop) ps vs
  | .stops .. => True

theorem Window.readU32_eq {lo hi t n : Nat} (hw : Window m lo hi t (leBytes 4 n)) (hn : n < 2 ^ 32) :
    readU32 (render m) t = n := by
  have hs := hw.bytes.slice_eq
  rw [length_leBytes] at hs
  rw [readU32, hs, leNat_leBytes (by simpa using hn)]

theorem Window.getD_eq {tag : UInt8} (hw : Window m lo hi t [tag]) : (render m).getD t 0 = tag := by
  have := hw.bytes.holds_render 0 tag rfl
  rw [Nat.add_zero] at this
  rw [getD_eq_getElem?_getD, this, Option.getD_some]

/-- **Decoding.** On the bytes of an image the reader gives back what is stored. -/
theorem Stored.decodes {item : Item} {E : List Event} (h : Stored .plain m lo hi item E)
    (hlt : hi < 2 ^ 32) (hlen : hi ≤ m.length) : item.Decodes (render m) hi := by
  have hb : Readable (render m) hi := ⟨by unfold usizeBound; omega, by simpa using hlen⟩
  induction h with
  | @string s t hlen hw =>
    have hend := hw.le_hi
    rw [length_append, length_leBytes] at hend
    refine ⟨fun errors => ?_, targetFits_of_not_schema (by simp)⟩
    rw [readTarget, readStringWith_ok hb hlen hw.bytes.holds_render (by omega)]
    rfl
  | @inlineList el size align vs bss t hel hlen hw hall hp =>
    have ht := hw.le_hi
    rw [length_leBytes] at ht
    refine ⟨fun errors => ?_, targetFits_of_not_schema (by simp)⟩
    rw [readTarget, readListValueAt_inline hel, readInlineScalarListAt_ok hb hel (hw.readU32_eq hlen) ht
      hall hp.bytes.holds_render hp.le_hi]
    rfl
  | ptrList hel hlay hlen hw hend _ _ ih =>
    refine ⟨fun errors => ?_, targetFits_of_not_schema (by simp)⟩
    rw [readTarget, readListValueAt_ok hb hel hlay (hw.readU32_eq hlen) hend ih]
    rfl
  | stopList hmode => exact absurd rfl hmode
  | @record s table vs t E hs hn hlo hend _ ih =>
    refine ⟨fun errors => ?_, fun s' table' hs' ht' => ?_⟩
    · rw [readTarget, hs]
      exact readRecordAt_ok hb hs hn hend ih
    · cases hs'
      rw [hs, Except.ok.injEq] at ht'
      exact ht' ▸ hend
  | @variantUnit ty tag sel v t hsel hp hv hw =>
    have hvar := isVariant_of_selected hsel
    refine ⟨fun errors => ?_, targetFits_of_not_schema (by rintro s rfl; cases hvar)⟩
    rw [readTarget_variant hvar,
      readVariantRecordAt_unit (exceeds_eq_false hb hw.le_hi) (by rw [hw.getD_eq, hsel]) hp]
    exact hv
  | @variantPayload ty tag sel p pv v t E hsel hp hv hw _ ih =>
    have hend := hw.le_hi
    rw [length_singleton] at hend
    have hvar := isVariant_of_selected hsel
    refine ⟨fun errors => ?_, targetFits_of_not_schema (by rintro s rfl; cases hvar)⟩
    rw [readTarget_variant hvar, readVariantRecordAt_payload (exceeds_eq_false hb hend) (by rw [hw.getD_eq, hsel]) hp,
      variantPayloadSlotOffset_ok (by omega)]
    cases ih with
    | cons hslot _ =>
      simp only [orMalformed, okOr_some, ok_bind]
      rw [hslot.field, ok_bind]
      exact hv
  | nil => exact .nil
  | @inline ty p v bs ps vs E hbs hw hsize _ ih =>
    refine .cons ⟨readFieldAt_scalar hb hbs hw.bytes.holds_render hw.le_hi, ?_⟩ ih
    exact fun hptr => absurd hptr (not_isPointer_of_storedScalar hbs)
  | @pointer ty p t v ps vs E E' hty hw ht _ iht ihs =>
    have hbounds := ht.target_bounds
    refine .cons (slotReads_of_reads hb hty hw.le_hi ?_) ihs
    rw [readU32, hw.ptr.leNat_slice (by omega)]
    exact iht
  | stopsNil | stopsCons => trivial

theorem BufferReader.new_ok (h : table.rootSize ≤ bytes.length) :
    BufferReader.new table fields bytes = .ok ⟨table, fieldIndexAt table fields 0, bytes⟩ :=
  if_neg (by omega)

theorem BufferReader.newAtBase_ok {recordBase : Nat}
    (hlt : recordBase + table.rootSize < usizeBound)
    (h : recordBase + table.rootSize ≤ bytes.length) :
    BufferReader.newAtBase table fields bytes recordBase =
      .ok ⟨table, fieldIndexAt table fields recordBase, bytes⟩ := by
  rw [newAtBase, checkedAdd_of_lt hlt]
  exact if_neg (by omega)

/-- `read_value` of a declared field decodes its slot. -/
theorem BufferReader.readValue_eq {r : BufferReader} (recordBase : Nat)
    (ht : offsetsFor s = .ok table) (hn : (s.fields.map Field.name).Nodup)
    (hr : r.fieldIndex = fieldIndexAt table s.fields recordBase) {f : Field} {fo : FieldOffset}
    (hf : (f, fo) ∈ s.fields.zip table.fields) :
    r.readValue f.name f.ty = readFieldAt r.bytes (recordBase + fo.offset) f.ty := by
  have hmatch := typeMatches_self (layoutable_field ht (of_mem_zip hf).1)
  rw [readValue, hr, findEntry_of_mem ht hn hf, ok_bind]
  simp [entryFor, hmatch]

end Relon.Abi
