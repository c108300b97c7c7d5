import Relon.Lib.Footprint
import Relon.Abi.VerifierProofs

/-! The verifier is sound for the reader.

The verdict looks only at bytes inside the regions. When it is positive, the
reader's walk stays inside them as well: each span it follows is one the verifier
checked, so it ends with a value or with a string that is not UTF-8
(`verified_record_decodes`). The bytes are arbitrary, and pointers may share
targets or form cycles. -/
namespace Relon.Abi
open List TypeRepr

/-! ### Distinct field names -/

/-- The field names of every record of the type differ. -/
def TypeRepr.fieldNamesDistinct (ty : TypeRepr) : Bool :=
  match ty with
  | .list el => el.fieldNamesDistinct
  | .schema s =>
    decide ((s.fields.map Field.name).Nodup) && s.fields.attach.all fun f => f.1.ty.fieldNamesDistinct
  | variant => (variantPayloadTypes variant).attach.all fun p => p.1.fieldNamesDistinct
termination_by ty.weight
decreasing_by
  · simp [TypeRepr.weight]
  · have := field_ty_weight_lt f.2
    rw [TypeRepr.weight, Schema.weight_eq]
    omega
  · exact Nat.lt_of_le_of_lt (typesWeight_mem p.2) (typesWeight_variantPayloadTypes _)

section Names
variable {ty el p : TypeRepr} {s : Schema}

theorem fieldNamesDistinct_element (h : (TypeRepr.list el).fieldNamesDistinct = true) :
    el.fieldNamesDistinct = true := by
  rwa [fieldNamesDistinct] at h

theorem fieldNamesDistinct_record (h : (TypeRepr.schema s).fieldNamesDistinct = true) :
    (s.fields.map Field.name).Nodup ∧ ∀ f ∈ s.fields, f.ty.fieldNamesDistinct = true := by
  rw [fieldNamesDistinct, Bool.and_eq_true, decide_eq_true_eq, all_eq_true] at h
  exact ⟨h.1, fun f hf => h.2 ⟨f, hf⟩ (mem_attach _ _)⟩

theorem fieldNamesDistinct_payload {ps : List TypeRepr} (hps : variantPayloads ty = some ps)
    (hp : p ∈ ps) (h : ty.fieldNamesDistinct = true) : p.fieldNamesDistinct = true := by
  have hp' : p ∈ variantPayloadTypes ty := by rwa [variantPayloadTypes, hps]
  cases ty with
  | option _ | result _ _ | enum _ _ =>
    rw [fieldNamesDistinct, all_eq_true] at h
    · exact h ⟨p, hp'⟩ (mem_attach _ _)
    all_goals simp
  | _ => cases hps

/-- The builder asks for distinct variant names and tags as well. -/
theorem TypeRepr.fieldNamesDistinct_of_distinct {ty : TypeRepr} (h : ty.distinct = true) :
    ty.fieldNamesDistinct = true := by
  induction hw : ty.weight using Nat.strong_induction_on generalizing ty with
  | _ w ih =>
    subst hw
    cases hps : variantPayloads ty with
    | some ps =>
      have hvariant : ty.fieldNamesDistinct =
          (variantPayloadTypes ty).attach.all fun p => p.1.fieldNamesDistinct := by
        cases ty <;> simp only [variantPayloads, reduceCtorEq] at hps <;>
          rw [fieldNamesDistinct] <;> simp
      rw [hvariant, all_eq_true]
      rintro ⟨p, hp⟩ -
      have hp' : p ∈ ps := by rwa [variantPayloadTypes, hps] at hp
      exact ih _ (Nat.lt_of_le_of_lt (typesWeight_mem hp) (typesWeight_variantPayloadTypes _))
        (distinct_payload hps hp' h) rfl
    | none =>
      cases ty with
      | list el =>
        rw [fieldNamesDistinct]
        exact ih _ (by simp [weight]) h rfl
      | schema s =>
        obtain ⟨hn, hf⟩ := Schema.distinct_iff.mp h
        rw [fieldNamesDistinct, Bool.and_eq_true, decide_eq_true_eq, all_eq_true]
        refine ⟨hn, fun f _ => ih _ ?_ (hf f.1 f.2) rfl⟩
        have := field_ty_weight_lt f.2
        rw [weight, Schema.weight_eq]
        omega
      | option _ | result _ _ | enum _ _ => cases hps
      | _ => simp [fieldNamesDistinct, variantPayloadTypes, variantPayloads]

end Names

namespace Verifier
open Bytes Relon.Except Footprint

/-! ### The verdict -/

section Verdict
variable {bytes : List UInt8} {bounds : Bounds}

variable {bytes' : List UInt8} {table : OffsetTable} {fields : List Field}

theorem Bounds.Fits.readU32_eq {off : Nat} (h : bounds.Fits off 4)
    (hb : Agree bounds.Covers bytes bytes') : Abi.readU32 bytes' off = Abi.readU32 bytes off := by
  rw [Abi.readU32, Abi.readU32, hb.slice_eq fun i hlo hhi => h.covers hlo hhi]

theorem confined_readU32 (off : Nat) (field what : String) :
    Confined bounds.Covers (fun _ => True) bytes fun bs => readU32 bs off field what bounds := by
  unfold readU32
  refine confined_any.bind fun _ hspan => ?_
  refine (confined_ok (Abi.readU32 bytes off)).congr fun bs hb => ?_
  rw [(requireSpan_eq_ok.mp hspan).readU32_eq hb]
  rfl

/-- The verdict on every target of a pointer to a `ty` looks only at covered bytes. -/
def VerdictConfined (bytes : List UInt8) (bounds : Bounds) (ty : TypeRepr) : Prop :=
  ∀ field k t depth, Confined bounds.Covers (fun _ => True) bytes fun bs =>
    verifyPointerTarget bs field ty k t bounds depth

theorem confined_verifyRecordInner {base depth : Nat}
    (h : ∀ f ∈ fields, VerdictConfined bytes bounds f.ty) :
    Confined bounds.Covers (fun _ => True) bytes fun bs =>
      verifyRecordInner bs table fields base bounds depth := by
  simp only [verifyRecordInner]
  split
  · exact confined_any
  · refine confined_any.bind fun _ _ => confined_forM fun fo _ => ?_
    simp only [verifyField]
    refine confined_any.bind fun slot _ =>
      confined_any.bind fun _ _ => ?_
    cases fo.kind with
    | inline _ _ => exact confined_ok ()
    | pointerIndirect _ =>
      dsimp only
      split
      · exact confined_any
      · rename_i f hf
        exact (confined_readU32 ..).bind fun ptr _ => h f (List.mem_of_find?_eq_some hf) ..

theorem confined_verifyPayload (field label : String) (depth t : Nat) (payload : Option (Option TypeRepr))
    (h : ∀ ty, payload = some (some ty) → VerdictConfined bytes bounds ty) :
    Confined bounds.Covers (fun _ => True) bytes fun bs =>
      verifyPayload bs field bounds depth t label payload := by
  unfold verifyPayload
  split
  · exact confined_any
  · exact confined_ok ()
  · rename_i ty
    refine confined_any.bind fun start _ =>
      confined_any.bind fun slot _ =>
        confined_any.bind fun _ _ => ?_
    split
    · exact (confined_readU32 ..).bind fun ptr _ => h ty rfl ..
    · exact confined_any

theorem verdictConfined (ty : TypeRepr) : VerdictConfined bytes bounds ty := by
  induction hw : ty.weight using Nat.strong_induction_on generalizing ty with
  | _ w ih =>
    intro field k t depth
    subst hw
    by_cases hv : ty.isVariant = true
    · simp only [verifyPointerTarget_variant hv, verifyVariantTarget_eq]
      split
      · exact confined_any
      · refine confined_any.bind fun _ hspan => ?_
        have hpayload := confined_verifyPayload field (typeLabel ty) depth t
          (variantPayloadType ty (bytes.getD t 0)) fun p hp => ih _ (variantPayloadType_weight hp) p rfl
        refine hpayload.congr fun bs hb => ?_
        rw [hb.getD_eq ((requireSpan_eq_ok.mp hspan).covers (Nat.le_refl t) (by omega))]
    cases ty with
    | unit | bool | int | float | closure _ _ =>
      simp only [verifyPointerTarget]
      exact confined_any
    | string =>
      simp only [verifyPointerTarget]
      exact (confined_readU32 ..).bind fun len _ =>
        confined_any.bind fun _ _ => confined_any
    | schema s =>
      simp only [verifyPointerTarget]
      split
      · exact confined_any
      · refine confined_verifyRecordInner fun f hf => ih _ ?_ f.ty rfl
        have := field_ty_weight_lt hf
        rw [weight, Schema.weight_eq]
        omega
    | list el =>
      simp only [verifyPointerTarget, verifyListTarget]
      refine (confined_readU32 ..).bind fun count _ => confined_any.bind fun _ _ => ?_
      split
      · exact confined_any
      · refine confined_forM fun i _ => confined_any.bind fun _ _ =>
          confined_any.bind fun _ _ => (confined_readU32 ..).bind fun ptr _ => ?_
        exact ih _ (by simp [weight]) el rfl ..
      · exact confined_any
    | option _ | result _ _ | enum _ _ => exact absurd rfl hv

/-- Bytes outside every region do not change the verdict. -/
theorem verdict_eq {base : Nat} (hb : Agree bounds.Covers bytes bytes') :
    verifyRecordWithBounds bytes' table fields base bounds =
      verifyRecordWithBounds bytes table fields base bounds := by
  rw [verifyRecordWithBounds, verifyRecordWithBounds, hb.length,
    (confined_verifyRecordInner fun f _ => verdictConfined f.ty).eq_of_agree hb]

end Verdict

/-! ### The reader -/

/-- The error of a string payload that is not UTF-8. -/
def IsUtf8Failure (e : BufferError) : Prop :=
  ∃ errors ∈ [fieldStringErrors, listStringErrors], e = .malformedPayload errors.name errors.notUtf8

/-- The end of the bytes a reader can address. -/
def readStop (bytes : List UInt8) : Nat := min bytes.length (usizeBound - 1)

section Reader
variable {bytes bytes' : List UInt8} {bounds : Bounds} {ty el : TypeRepr} {off len p t depth : Nat}
  {field : String}

theorem readable_of_agree {C : Nat → Prop} (hb : Agree C bytes bytes') :
    Readable bytes' (readStop bytes) := by
  refine ⟨?_, ?_⟩
  · rw [readStop, usizeBound]
    omega
  · rw [hb.length, readStop]
    exact Nat.min_le_left ..

theorem scalarAt_eq_of_agree {size align : Nat} (hel : inlineElement el = some (size, align))
    (hb : Agree bounds.Covers bytes bytes') (hC : ∀ i, p ≤ i → i < p + size → bounds.Covers i) :
    scalarAt bytes' el p = scalarAt bytes el p := by
  cases el <;> simp only [inlineElement, Option.some.injEq, Prod.mk.injEq, reduceCtorEq] at hel
  all_goals obtain ⟨rfl, rfl⟩ := hel
  · rw [scalarAt, scalarAt, hb.getD_eq (hC p (Nat.le_refl p) (by omega))] <;> simp
  · rw [scalarAt, scalarAt, hb.slice_eq hC]
  · rw [scalarAt, scalarAt, hb.slice_eq hC]

variable (hlen : bounds.requiredLen ≤ bytes.length)
include hlen

theorem Bounds.Fits.le_readStop (h : bounds.Fits off len) : off + len ≤ readStop bytes := by
  have hlt := h.1
  have hle := h.le_requiredLen
  rw [readStop]
  omega

theorem confined_readInline (h : bounds.Fits p len) :
    Confined bounds.Covers IsUtf8Failure bytes fun bs => readInline bs p len := by
  refine (confined_ok (slice bytes p len)).congr fun bs hb => ?_
  rw [readInline_ok (readable_of_agree hb) (h.le_readStop hlen),
    hb.slice_eq fun i hlo hhi => h.covers hlo hhi]

/-- Decoding an accepted target of a pointer to a `ty` stays in the regions. -/
def DecodesTarget (bytes : List UInt8) (bounds : Bounds) (ty : TypeRepr) : Prop :=
  ∀ field t depth, t < 2 ^ 32 → Target bytes bounds field ty t depth →
    TargetFits (readStop bytes) ty t ∧ ∀ errors ∈ [fieldStringErrors, listStringErrors],
      Confined bounds.Covers IsUtf8Failure bytes fun bs => readTarget errors bs ty t

theorem confined_readFieldAt (hlay : Layoutable ty)
    (ih : ty.isPointer = true → DecodesTarget bytes bounds ty)
    (h : SlotVerified bytes bounds field ty p depth) :
    Confined bounds.Covers IsUtf8Failure bytes fun bs => readFieldAt bs p ty := by
  obtain ⟨hfits, htarget⟩ := h
  by_cases hptr : ty.isPointer = true
  · rw [slotSize_pointer hptr] at hfits
    have hread := (ih hptr field _ depth (readU32_lt bytes p) (htarget hptr)).2 fieldStringErrors (by simp)
    refine hread.congr fun bs hb => ?_
    rw [readFieldAt_pointer (readable_of_agree hb) hptr (hfits.le_readStop hlen), hfits.readU32_eq hb]
  · cases ty with
    | unit =>
      simp only [readFieldAt]
      exact confined_ok _
    | bool | int | float =>
      simp only [readFieldAt]
      exact (confined_readInline hlen hfits).map _
    | closure _ _ =>
      obtain ⟨d, hd⟩ := hlay.decision ""
      simp [fieldLayoutDecisionFor] at hd
    | _ => exact absurd rfl hptr

theorem decodesTarget_string : DecodesTarget bytes bounds .string := by
  intro field t depth _ h
  obtain ⟨hhead, hpay⟩ := target_string_iff.mp h
  refine ⟨targetFits_of_not_schema (by simp), fun errors herrors => ?_⟩
  refine Confined.map (R := fun bs => readStringWith errors bs t) ?_ Value.string
  refine Confined.congr (G := fun _ => orMalformed errors.name errors.notUtf8
    (utf8Decode (slice bytes (t + 4) (Abi.readU32 bytes t)))) ?_ fun bs hb => ?_
  · refine confined_const fun e he => ⟨errors, herrors, ?_⟩
    cases hdec : utf8Decode (slice bytes (t + 4) (Abi.readU32 bytes t)) with
    | none =>
      rw [hdec] at he
      cases he
      rfl
    | some s =>
      rw [hdec] at he
      cases he
  · have hcount := hhead.readU32_eq hb
    rw [readStringWith_eq (readable_of_agree hb) (by rw [hcount]; exact hpay.le_readStop hlen), hcount,
      hb.slice_eq fun i hlo hhi => hpay.covers hlo hhi]

theorem decodesTarget_inlineList {size align : Nat} (hel : inlineElement el = some (size, align)) :
    DecodesTarget bytes bounds (.list el) := by
  intro field t depth ht h
  obtain ⟨hhead, hpay⟩ := (target_inlineList_iff hel ht).mp h
  refine ⟨targetFits_of_not_schema (by simp), fun errors _ => ?_⟩
  refine Confined.map (R := fun bs => readListValueAt bs t el) ?_ Value.list
  refine (confined_ok ((List.range (Abi.readU32 bytes t)).map fun k =>
    scalarAt bytes el (Bytes.alignUp (t + 4) align + k * size))).congr fun bs hb => ?_
  have hcount := hhead.readU32_eq hb
  rw [readListValueAt_inline hel, readInlineScalarListAt_eq (readable_of_agree hb) hel
    (hhead.le_readStop hlen) (by rw [hcount]; exact hpay.le_readStop hlen), hcount]
  congr 1
  refine map_congr_left fun k hk => scalarAt_eq_of_agree hel hb fun i hlo hhi => ?_
  have hk' : (k + 1) * size ≤ Abi.readU32 bytes t * size :=
    Nat.mul_le_mul_right size (mem_range.mp hk)
  rw [Nat.succ_mul] at hk'
  exact hpay.covers (by omega) (by omega)

theorem decodesTarget_array (hel : el.isPointer = true) (hlay : Layoutable (.list el))
    (ih : DecodesTarget bytes bounds el) : DecodesTarget bytes bounds (.list el) := by
  intro field t depth _ h
  obtain ⟨hhead, hentries⟩ := (target_array_iff hel hlay).mp h
  have hentry : ∀ i < Abi.readU32 bytes t, _ := fun i hi =>
    ih field (Abi.readU32 bytes (t + 4 + i * 4)) (depth + 1) (readU32_lt ..) (hentries i hi).2
  have hend : t + 4 + Abi.readU32 bytes t * 4 ≤ readStop bytes := by
    have h0 := hhead.le_readStop hlen
    rcases Nat.eq_zero_or_pos (Abi.readU32 bytes t) with hz | hpos
    · omega
    · have := (hentries (Abi.readU32 bytes t - 1) (by omega)).1.le_readStop hlen
      omega
  refine ⟨targetFits_of_not_schema (by simp), fun errors _ => ?_⟩
  refine Confined.map (R := fun bs => readListValueAt bs t el) ?_ Value.list
  refine Confined.congr (G := fun bs => (List.range (Abi.readU32 bytes t)).mapM fun i =>
    readTarget listStringErrors bs el (Abi.readU32 bytes (t + 4 + i * 4))) ?_ fun bs hb => ?_
  · exact confined_mapM fun i hi => (hentry i (mem_range.mp hi)).2 listStringErrors (by simp)
  · have hcount := hhead.readU32_eq hb
    have hptr : ∀ i < Abi.readU32 bytes t,
        Abi.readU32 bs (t + 4 + i * 4) = Abi.readU32 bytes (t + 4 + i * 4) :=
      fun i hi => (hentries i hi).1.readU32_eq hb
    rw [readListValueAt_pointer (readable_of_agree hb) hel (layoutable_element hlay)
      (by rwa [hcount]) (by
        intro i hi
        rw [hcount] at hi
        rw [hptr i hi]
        exact (hentry i hi).1), hcount]
    exact mapM_congr fun i hi => by rw [hptr i (mem_range.mp hi)]

/-- The slots of a verified record decode. -/
theorem confined_readRecordAt {s : Schema} {table : OffsetTable} {base : Nat}
    (ht : offsetsFor s = .ok table) (hn : (s.fields.map Field.name).Nodup)
    (ih : ∀ f ∈ s.fields, f.ty.isPointer = true → DecodesTarget bytes bounds f.ty)
    (h : verifyRecordInner bytes table s.fields base bounds depth = .ok ()) :
    Confined bounds.Covers IsUtf8Failure bytes fun bs => readRecordAt bs base table s := by
  obtain ⟨-, hroot, hslots⟩ := (verifyRecordInner_iff ht hn).mp h
  refine Confined.congr (G := fun bs => (s.fields.zip table.fields).mapM (fun x =>
    readFieldAt bs (base + x.2.offset) x.1.ty) >>= fun vs => .ok (recordValue s vs)) ?_ fun bs hb =>
      readRecordAt_eq (readable_of_agree hb) ht hn (hroot.le_readStop hlen)
  refine Confined.map (confined_mapM fun x hx => ?_) _
  have hf := (of_mem_zip hx).1
  exact confined_readFieldAt hlen (layoutable_field ht hf) (ih x.1 hf) (hslots x.1 x.2 hx)

theorem decodesTarget_record {s : Schema} (hlay : Layoutable (.schema s))
    (hn : (s.fields.map Field.name).Nodup)
    (ih : ∀ f ∈ s.fields, f.ty.isPointer = true → DecodesTarget bytes bounds f.ty) :
    DecodesTarget bytes bounds (.schema s) := by
  intro field t depth _ h
  obtain ⟨table, ht⟩ := layoutable_schema_iff.mp hlay
  rw [target_record_iff ht] at h
  refine ⟨?_, fun errors _ => ?_⟩
  · rintro s' table' ⟨⟩ ht'
    rw [ht, Except.ok.injEq] at ht'
    subst ht'
    exact ((verifyRecordInner_iff ht hn).mp h).2.1.le_readStop hlen
  · simp only [readTarget, ht]
    exact confined_readRecordAt hlen ht hn ih h

theorem decodesTarget_variant (hv : ty.isVariant = true) (hlay : Layoutable ty)
    (ih : ∀ ps p, variantPayloads ty = some ps → p ∈ ps → p.isPointer = true →
      DecodesTarget bytes bounds p) : DecodesTarget bytes bounds ty := by
  intro field t depth ht h
  obtain ⟨-, htag, sel, hsel, hpay⟩ := (target_variant_iff hv hlay ht).mp h
  have hschema : ∀ s, ty ≠ .schema s := by
    rintro s rfl
    cases hv
  refine ⟨targetFits_of_not_schema hschema, fun errors _ => ?_⟩
  simp only [readTarget_variant hv]
  have hin : ∀ bs, Agree bounds.Covers bytes bs → exceeds bs t 1 = false := fun bs hb =>
    exceeds_eq_false (readable_of_agree hb) (htag.le_readStop hlen)
  have hsel' : ∀ bs, Agree bounds.Covers bytes bs →
      variantSelectedPayload ty (bs.getD t 0) = .ok sel := fun bs hb => by
    rw [hb.getD_eq (htag.covers (Nat.le_refl t) (by omega)), hsel]
  cases hp : sel.payload with
  | none =>
    obtain ⟨v, hv⟩ := variantWithoutPayload_ok hsel hp
    refine (confined_ok v).congr fun bs hb => ?_
    rw [readVariantRecordAt_unit (hin bs hb) (hsel' bs hb) hp, hv]
  | some p =>
    obtain ⟨ps, hps, hmem⟩ := selectedPayload_mem hsel hp
    have hread := confined_readFieldAt hlen (layoutable_payload hlay hps hmem) (ih ps p.ty hps hmem)
      (hpay p hp)
    refine Confined.congr (hread.bind (K := fun _ => variantWithPayload ty sel p) fun v hv => ?_)
      fun bs hb => ?_
    · obtain ⟨w, hw⟩ := variantWithPayload_ok hsel hp hv
      simp only [hw]
      exact confined_ok w
    · rw [readVariantRecordAt_payload (hin bs hb) (hsel' bs hb) hp, variantPayloadSlotOffset_ok ht]
      rfl

/-- **The reader follows the verifier.** Decoding an accepted target stays in the regions. -/
theorem decodesTarget (hlay : Layoutable ty) (hn : ty.fieldNamesDistinct = true)
    (hptr : ty.isPointer = true) : DecodesTarget bytes bounds ty := by
  induction hw : ty.weight using Nat.strong_induction_on generalizing ty with
  | _ w ih =>
    subst hw
    by_cases hv : ty.isVariant = true
    · refine decodesTarget_variant hlen hv hlay fun ps p hps hp hptr => ?_
      have hlt := Nat.lt_of_le_of_lt (typesWeight_mem hp) (typesWeight_variantPayloads hps)
      exact ih _ hlt (layoutable_payload hlay hps hp) (fieldNamesDistinct_payload hps hp hn) hptr rfl
    cases ty with
    | string => exact decodesTarget_string hlen
    | list el =>
      have hlay' := layoutable_element hlay
      by_cases hel : el.isPointer = true
      · exact decodesTarget_array hlen hel hlay
          (ih _ (by simp [weight]) hlay' (fieldNamesDistinct_element hn) hel rfl)
      · rcases list_element_cases hlay with h | rfl | rfl | rfl
        · exact absurd h hel
        all_goals exact decodesTarget_inlineList hlen rfl
    | schema s =>
      obtain ⟨hnames, hfields⟩ := fieldNamesDistinct_record hn
      obtain ⟨table, ht⟩ := layoutable_schema_iff.mp hlay
      refine decodesTarget_record hlen hlay hnames fun f hf hptr => ?_
      refine ih _ ?_ (layoutable_field ht hf) (hfields f hf) hptr rfl
      have := field_ty_weight_lt hf
      rw [weight, Schema.weight_eq]
      omega
    | option _ | result _ _ | enum _ _ => exact absurd rfl hv
    | unit | bool | int | float | closure _ _ => cases hptr

end Reader

/-! ### Records -/

/-- Decoding one declared field of the record at `base`. -/
def decodeField (s : Schema) (table : OffsetTable) (bytes : List UInt8) (base : Nat) (f : Field) :
    Except BufferError Value := do
  let r ← BufferReader.newAtBase table s.fields bytes base
  r.readValue f.name f.ty

/-- The record at `base` decodes from the bytes in the regions alone. -/
structure DecodesInside (s : Schema) (table : OffsetTable) (bytes : List UInt8) (base : Nat)
    (bounds : Bounds) : Prop where
  reader : ∃ r, BufferReader.newAtBase table s.fields bytes base = .ok r
  errors : ∀ f ∈ s.fields, ∀ e, decodeField s table bytes base f = .error e → IsUtf8Failure e
  verdict : ∀ bytes', Agree bounds.Covers bytes bytes' →
    verifyRecordWithBounds bytes' table s.fields base bounds = .ok ()
  values : ∀ bytes', Agree bounds.Covers bytes bytes' → ∀ f ∈ s.fields,
    decodeField s table bytes' base f = decodeField s table bytes base f

section Records
variable {s : Schema} {table : OffsetTable} (ht : offsetsFor s = .ok table)
  (hn : (TypeRepr.schema s).fieldNamesDistinct = true)
include ht hn

theorem decodesInside {bytes : List UInt8} {base : Nat} {bounds : Bounds}
    (hok : verifyRecordWithBounds bytes table s.fields base bounds = .ok ()) :
    DecodesInside s table bytes base bounds := by
  obtain ⟨hnames, hfields⟩ := fieldNamesDistinct_record hn
  have hverdict := hok
  rw [verifyRecordWithBounds] at hok
  split at hok
  · cases hok
  rename_i hshort
  have hlen : bounds.requiredLen ≤ bytes.length := Nat.le_of_not_lt hshort
  obtain ⟨-, hroot, hslots⟩ := (verifyRecordInner_iff ht hnames).mp hok
  have hnew : ∀ bs, Agree bounds.Covers bytes bs → BufferReader.newAtBase table s.fields bs base =
      .ok ⟨table, fieldIndexAt table s.fields base, bs⟩ := fun bs hb =>
    BufferReader.newAtBase_ok hroot.1 (by have := hroot.le_requiredLen; rw [hb.length]; omega)
  -- every field is confined to the regions: its slot was verified
  have hconf : ∀ f ∈ s.fields, Confined bounds.Covers IsUtf8Failure bytes fun bs =>
      decodeField s table bs base f := by
    intro f hf
    obtain ⟨fo, hmem⟩ := exists_slot ht hf
    have hlay := layoutable_field ht hf
    refine (confined_readFieldAt hlen hlay (decodesTarget hlen hlay (hfields f hf))
      (hslots f fo hmem)).congr fun bs hb => ?_
    rw [decodeField, hnew bs hb, ok_bind, BufferReader.readValue_eq base ht hnames rfl hmem]
  exact
    { reader := ⟨_, hnew bytes (.refl _ _)⟩
      errors := fun f hf e he => (hconf f hf).allowed_of_error he
      verdict := fun bytes' hb => (verdict_eq hb).trans hverdict
      values := fun bytes' hb f hf => (hconf f hf).eq_of_agree hb }

/-- **Soundness.** A record the verifier accepts decodes from the bytes in the regions alone,
and only a string that is not UTF-8 can fail. -/
theorem verified_record_decodes (bytes : List UInt8) (base : Nat) :
    (∀ arena, verifyRecordMulti bytes table s.fields base arena = .ok () →
      DecodesInside s table bytes base (.multi arena)) ∧
    ∀ region, verifyRecord bytes table s.fields base region = .ok () →
      DecodesInside s table bytes base (.single region) :=
  ⟨fun _ h => decodesInside ht hn h, fun _ h => decodesInside ht hn h⟩

end Records

/-- Two fields that share one string. -/
def greeting : Schema :=
  { name := "Greeting", generics := []
    fields := [⟨"name", .string, none⟩, ⟨"again", .option .string, none⟩], isTuple := false }

def greetingTable : OffsetTable :=
  { fields := [⟨"name", 0, 4, 4, .pointerIndirect 1, none⟩, ⟨"again", 4, 4, 4, .pointerIndirect 4, none⟩]
    rootSize := 8
    rootAlign := 4 }

/-- The string lies in the constants, the record in the input; bytes 6 and 7 are in no region. -/
def greetingBytes : List UInt8 :=
  [2, 0, 0, 0, 104, 105, 255, 255, 0, 0, 0, 0, 16, 0, 0, 0, 1, 0, 0, 0, 0, 0, 0, 0]

def greetingArena : MultiRegion := ⟨⟨0, 6⟩, ⟨8, 24⟩, ⟨0, 0⟩, ⟨0, 0⟩⟩

/-- The record is accepted in the arena of four regions and in one region, and decodes inside both. -/
theorem greeting_decodes :
    verifyRecordMulti greetingBytes greetingTable greeting.fields 8 greetingArena = .ok () ∧
      DecodesInside greeting greetingTable greetingBytes 8 (.multi greetingArena) ∧
      verifyRecord greetingBytes greetingTable greeting.fields 8 ⟨0, 24⟩ = .ok () ∧
      DecodesInside greeting greetingTable greetingBytes 8 (.single ⟨0, 24⟩) := by
  have ht : offsetsFor greeting = .ok greetingTable := by decide +kernel
  obtain ⟨hmulti, hsingle⟩ := verified_record_decodes ht (by decide +kernel) greetingBytes 8
  exact ⟨by decide +kernel, hmulti _ (by decide +kernel), by decide +kernel, hsingle _ (by decide +kernel)⟩

end Verifier

end Relon.Abi
