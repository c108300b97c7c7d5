import Relon.Abi.ReaderProofs
import Relon.Abi.Verifier

/-! What the verifier checks.

One lemma for each function says when it accepts, in terms of the spans it looks
at (`Bounds.Fits`) and the targets it goes on to (`Target`). The soundness and
the completeness of the verifier are read off these. -/
namespace Relon.Abi.Verifier
open Bytes Relon.Except List

/-! ### Spans -/

/-- The regions a walk may stay in. -/
def Bounds.windows : Bounds → List Region
  | .single region => [region]
  | .multi arena => arena.regions.map Prod.snd

/-- The span lies in one region. -/
def Bounds.Fits (bounds : Bounds) (off len : Nat) : Prop :=
  off + len < usizeBound ∧ ∃ r ∈ bounds.windows, r.start ≤ off ∧ off + len ≤ r.stop

/-- The byte lies in a region. -/
def Bounds.Covers (bounds : Bounds) (i : Nat) : Prop :=
  ∃ r ∈ bounds.windows, r.start ≤ i ∧ i < r.stop

section Spans
variable {bounds : Bounds} {field what : String} {off len n : Nat}

theorem Region.containsSpan_iff {r : Region} :
    r.containsSpan off len = true ↔ off + len < usizeBound ∧ r.start ≤ off ∧ off + len ≤ r.stop := by
  rw [containsSpan, checkedAdd]
  split <;> split at * <;> simp_all

theorem classifySpan_isSome {arena : MultiRegion} :
    (arena.classifySpan off len).isSome = true ↔ (Bounds.multi arena).Fits off len := by
  rw [MultiRegion.classifySpan, Option.isSome_map, List.find?_isSome, Bounds.Fits, Bounds.windows]
  simp only [Region.containsSpan_iff, mem_map]
  constructor
  · rintro ⟨r, hr, hlt, hlo, hhi⟩
    exact ⟨hlt, r.2, ⟨r, hr, rfl⟩, hlo, hhi⟩
  · rintro ⟨hlt, -, ⟨r, hr, rfl⟩, hlo, hhi⟩
    exact ⟨r, hr, hlt, hlo, hhi⟩

theorem containsSpan_iff_fits {region : Region} :
    region.containsSpan off len = true ↔ (Bounds.single region).Fits off len := by
  simp [Region.containsSpan_iff, Bounds.Fits, Bounds.windows]

theorem requireFixedSlot_eq_ok : bounds.requireFixedSlot field off len = .ok () ↔ bounds.Fits off len := by
  cases bounds with
  | single region =>
    rw [Bounds.requireFixedSlot, ← containsSpan_iff_fits]
    split <;> simp_all
  | multi arena =>
    rw [Bounds.requireFixedSlot, ← classifySpan_isSome]
    split <;> simp_all

theorem requireSpan_eq_ok : bounds.requireSpan field what off len = .ok () ↔ bounds.Fits off len := by
  unfold Bounds.requireSpan
  split
  · rename_i h
    unfold checkedAdd at h
    split at h
    · cases h
    · simp_all [Bounds.Fits]
  · cases bounds with
    | single region =>
      rw [← containsSpan_iff_fits]
      dsimp only
      split <;> simp_all
    | multi arena =>
      rw [← classifySpan_isSome]
      dsimp only
      split <;> simp_all

theorem readU32_lt (bytes : List UInt8) (off : Nat) : Abi.readU32 bytes off < 2 ^ 32 := by
  have hlt := leNat_lt (slice bytes off 4)
  have hlen : (slice bytes off 4).length ≤ 4 := length_take_le ..
  have hpow : 256 ^ (slice bytes off 4).length ≤ 256 ^ 4 := Nat.pow_le_pow_right (by omega) hlen
  rw [Abi.readU32]
  omega

theorem readU32_eq_ok {bytes : List UInt8} :
    readU32 bytes off field what bounds = .ok n ↔ bounds.Fits off 4 ∧ n = Abi.readU32 bytes off := by
  rw [readU32, bind_eq_ok]
  constructor
  · rintro ⟨⟨⟩, hspan, hn⟩
    exact ⟨requireSpan_eq_ok.mp hspan, by simpa [eq_comm] using hn⟩
  · rintro ⟨hfits, rfl⟩
    exact ⟨(), requireSpan_eq_ok.mpr hfits, rfl⟩

theorem Bounds.Fits.covers (h : bounds.Fits off len) {i : Nat} (hlo : off ≤ i) (hhi : i < off + len) :
    bounds.Covers i := by
  obtain ⟨-, r, hr, hstart, hstop⟩ := h
  exact ⟨r, hr, by omega, by omega⟩

theorem Bounds.Fits.le_requiredLen (h : bounds.Fits off len) : off + len ≤ bounds.requiredLen := by
  obtain ⟨-, r, hr, -, hstop⟩ := h
  refine Nat.le_trans hstop ?_
  cases bounds with
  | single region =>
    rw [windows, mem_singleton] at hr
    rw [hr]
    exact Nat.le_refl _
  | multi arena =>
    simp only [windows, MultiRegion.regions, map_cons, map_nil, mem_cons,
      not_mem_nil, or_false] at hr
    simp only [requiredLen, MultiRegion.maxEnd, MultiRegion.regions, map_cons, map_nil,
      List.max?_cons', foldl_cons, foldl_nil, Option.getD_some]
    rcases hr with rfl | rfl | rfl | rfl <;> omega

theorem alignUp_eq_some {align : Nat} (ha : IsAlign align) (h : off + 8 ≤ usizeBound) :
    alignUp off align = some (Bytes.alignUp off align) := by
  have hlt := alignUp_lt (n := off) ha.pos
  rw [alignUp]
  split
  · obtain rfl : align = 1 := by have := ha.pos; omega
    rw [alignUp_one]
  · rw [checkedNextMultipleOf, if_pos]
    rcases ha with rfl | rfl | rfl <;> omega

end Spans

/-! ### Element layouts -/

theorem elementListKind_eq (el : TypeRepr) : elementListKind el = listKindForListType el := by
  cases el <;> rfl

/-- The probe finds the element layout of every list type with a layout. -/
theorem listKindForListType_fits {ty : TypeRepr} (h : Layoutable ty) :
    ListElementFits ty (listKindForListType ty) := by
  cases ty with
  | list el =>
    obtain ⟨d, hd⟩ := h.decision "f"
    obtain ⟨hslot, -, hfits⟩ := decision_fits hd
    have hprobe : offsetsFor
        { name := "<probe>", generics := [], fields := [⟨"f", .list el, none⟩], isTuple := false } =
        .ok ⟨[⟨"f", 0, 4, 4, d.kind, d.listElement⟩], 4, 4⟩ := by
      simp [offsetsFor, placeFields, hd, hslot, payloadSlotLayoutRuntime, checkedNextMultipleOf,
        checkedAdd, usizeBound, Bytes.alignUp]
    rw [listKindForListType, hprobe]
    exact hfits
  | _ => rfl

/-! ### Targets -/

/-- The verifier accepts the target `t` of a pointer to a `ty`. -/
def Target (bytes : List UInt8) (bounds : Bounds) (field : String) (ty : TypeRepr) (t depth : Nat) : Prop :=
  verifyPointerTarget bytes field ty (listKindForListType ty) t bounds depth = .ok ()

/-- The verifier accepts the slot of a `ty` at `p`, and what it points at. -/
def SlotVerified (bytes : List UInt8) (bounds : Bounds) (field : String) (ty : TypeRepr) (p depth : Nat) :
    Prop :=
  bounds.Fits p (slotSize ty) ∧
    (ty.isPointer = true → Target bytes bounds field ty (Abi.readU32 bytes p) depth)

section Targets
variable {bytes : List UInt8} {bounds : Bounds} {field : String} {ty el : TypeRepr} {t depth : Nat}
  {k k' : Option ListElementKind}

/-- Of an element layout the walk reads only whether it is inline. -/
theorem verifyPointerTarget_kind (hk : ListElementFits ty k) (hk' : ListElementFits ty k') :
    verifyPointerTarget bytes field ty k t bounds depth =
      verifyPointerTarget bytes field ty k' t bounds depth := by
  cases ty with
  | list el =>
    cases el with
    | int | float | bool => rw [show k = k' from hk.trans hk'.symm]
    | _ =>
      obtain ⟨a, rfl⟩ := hk
      obtain ⟨a', rfl⟩ := hk'
      rw [verifyPointerTarget, verifyPointerTarget, verifyListTarget, verifyListTarget]
  | _ => rw [show k = k' from hk.trans hk'.symm]

theorem target_string_iff : Target bytes bounds field .string t depth ↔
    bounds.Fits t 4 ∧ bounds.Fits (t + 4) (Abi.readU32 bytes t) := by
  rw [Target, verifyPointerTarget]
  simp only [bind_eq_ok, okOr_eq_ok, requireSpan_eq_ok, readU32_eq_ok]
  constructor
  · rintro ⟨len, ⟨hfits, rfl⟩, start, hstart, hpay⟩
    obtain ⟨rfl, -⟩ := checkedAdd_eq_some hstart
    exact ⟨hfits, hpay⟩
  · rintro ⟨hfits, hpay⟩
    exact ⟨_, ⟨hfits, rfl⟩, _, checkedAdd_of_lt hfits.1, hpay⟩

theorem checkedMul_eq_some {a b c : Nat} (h : checkedMul a b = some c) : c = a * b := by
  unfold checkedMul at h
  split at h <;> cases h
  rfl

theorem target_inlineList_iff {size align : Nat} (hel : inlineElement el = some (size, align))
    (ht : t < 2 ^ 32) : Target bytes bounds field (.list el) t depth ↔
      bounds.Fits t 4 ∧ bounds.Fits (Bytes.alignUp (t + 4) align) (Abi.readU32 bytes t * size) := by
  have hk : listKindForListType (.list el) = some (.inlineFixed size align) := by
    have hfits : Layoutable (.list el) → _ := listKindForListType_fits
    cases el <;> simp only [inlineElement, reduceCtorEq, Option.some.injEq, Prod.mk.injEq] at hel
    all_goals
      obtain ⟨rfl, rfl⟩ := hel
      exact hfits ⟨"", by simp [fieldLayoutDecisionFor, listLayoutDecision]⟩
  have hal : IsAlign align := by
    cases el <;> simp [inlineElement] at hel <;> simp [← hel, IsAlign]
  have hstart : alignUp (t + 4) align = some (Bytes.alignUp (t + 4) align) :=
    alignUp_eq_some hal (by unfold usizeBound; omega)
  rw [Target, hk, verifyPointerTarget, verifyListTarget]
  simp only [bind_eq_ok, okOr_eq_ok, readU32_eq_ok]
  constructor
  · rintro ⟨count, ⟨hfits, rfl⟩, start, hentries, h⟩
    obtain ⟨rfl, -⟩ := checkedAdd_eq_some hentries
    rw [hstart] at h
    obtain ⟨-, ⟨⟩, len, hlen, hpay⟩ := h
    obtain rfl := checkedMul_eq_some hlen
    exact ⟨hfits, requireSpan_eq_ok.mp hpay⟩
  · rintro ⟨hfits, hpay⟩
    refine ⟨_, ⟨hfits, rfl⟩, _, checkedAdd_of_lt hfits.1, ?_⟩
    have hlt := hpay.1
    exact ⟨_, hstart, _, if_pos (by omega), requireSpan_eq_ok.mpr hpay⟩

theorem target_array_iff (hel : el.isPointer = true) (hlay : Layoutable (.list el)) :
    Target bytes bounds field (.list el) t depth ↔
      bounds.Fits t 4 ∧ ∀ i < Abi.readU32 bytes t, bounds.Fits (t + 4 + i * 4) 4 ∧
        Target bytes bounds field el (Abi.readU32 bytes (t + 4 + i * 4)) (depth + 1) := by
  obtain ⟨a, ha⟩ := (listKindForListType_fits hlay).pointerArray hel
  rw [Target, ha, verifyPointerTarget, verifyListTarget]
  simp only [bind_eq_ok, okOr_eq_ok, readU32_eq_ok, elementListKind_eq]
  constructor
  · rintro ⟨count, ⟨hfits, rfl⟩, start, hstart, hall⟩
    obtain ⟨rfl, -⟩ := checkedAdd_eq_some hstart
    refine ⟨hfits, fun i hi => ?_⟩
    have hentry := forM_eq_ok.mp hall i (mem_range.mpr hi)
    simp only [bind_eq_ok, okOr_eq_ok, readU32_eq_ok] at hentry
    obtain ⟨idx, hidx, off, hoff, ptr, ⟨hfits', rfl⟩, htarget⟩ := hentry
    obtain rfl := checkedMul_eq_some hidx
    obtain ⟨rfl, -⟩ := checkedAdd_eq_some hoff
    exact ⟨hfits', htarget⟩
  · rintro ⟨hfits, hall⟩
    refine ⟨_, ⟨hfits, rfl⟩, _, checkedAdd_of_lt hfits.1, forM_eq_ok.mpr fun i hi => ?_⟩
    obtain ⟨hfits', htarget⟩ := hall i (mem_range.mp hi)
    have hlt := hfits'.1
    simp only [bind_eq_ok, okOr_eq_ok, readU32_eq_ok]
    exact ⟨_, if_pos (by omega), _, checkedAdd_of_lt (by omega), _, ⟨hfits', rfl⟩, htarget⟩

/-- A field is accepted when its slot is. -/
theorem verifyField_iff {fields : List Field} {base : Nat} {f : Field} {fo : FieldOffset}
    (hf : PlacedField f fo) (hfind : fields.find? (fun g => g.name == fo.name) = some f) :
    verifyField bytes fields base bounds depth fo = .ok () ↔
      SlotVerified bytes bounds f.name f.ty (base + fo.offset) depth := by
  have hsize : fo.size = slotSize f.ty := (Prod.mk.inj hf.slot).1
  have hkind := hf.kind
  have htarget : verifyPointerTarget bytes fo.name f.ty fo.listElement
      (Abi.readU32 bytes (base + fo.offset)) bounds depth =
        verifyPointerTarget bytes f.name f.ty (listKindForListType f.ty)
          (Abi.readU32 bytes (base + fo.offset)) bounds depth := by
    rw [hf.name]
    exact verifyPointerTarget_kind hf.listElement (listKindForListType_fits hf.layoutable)
  rw [KindFits] at hkind
  rw [verifyField, SlotVerified, ← hsize]
  simp only [bind_eq_ok, okOr_eq_ok]
  constructor
  · rintro ⟨slot, hslot, ⟨⟩, hfits, h⟩
    obtain ⟨rfl, -⟩ := checkedAdd_eq_some hslot
    refine ⟨requireFixedSlot_eq_ok.mp hfits, fun hptr => ?_⟩
    rw [if_pos hptr] at hkind
    obtain ⟨a, ha⟩ := hkind
    rw [ha] at h
    dsimp only at h
    split at h
    · cases h
    · rename_i g hg
      rw [hfind] at hg
      cases hg
      obtain ⟨ptr, hread, h⟩ := bind_eq_ok.mp h
      obtain ⟨-, rfl⟩ := readU32_eq_ok.mp hread
      exact htarget.symm.trans h
  · rintro ⟨hfits, h⟩
    have hlt := hfits.1
    refine ⟨_, checkedAdd_of_lt (by omega), (), requireFixedSlot_eq_ok.mpr hfits, ?_⟩
    split at hkind
    · rename_i hptr
      obtain ⟨a, ha⟩ := hkind
      rw [ha]
      dsimp only
      split
      · simp_all
      · rename_i g hg
        rw [hfind] at hg
        cases hg
        refine bind_eq_ok.mpr ⟨_, readU32_eq_ok.mpr ⟨?_, rfl⟩, htarget.trans (h hptr)⟩
        rwa [hsize, slotSize_pointer hptr] at hfits
    · obtain ⟨a, b, hab⟩ := hkind
      rw [hab]

/-- A record is accepted when its fixed area is, and each of its slots. -/
theorem verifyRecordInner_iff {s : Schema} {table : OffsetTable} {base : Nat}
    (ht : offsetsFor s = .ok table) (hn : (s.fields.map Field.name).Nodup) :
    verifyRecordInner bytes table s.fields base bounds depth = .ok () ↔
      depth < maxDepth ∧ bounds.Fits base table.rootSize ∧
        ∀ f fo, (f, fo) ∈ s.fields.zip table.fields →
          SlotVerified bytes bounds f.name f.ty (base + fo.offset) depth := by
  obtain ⟨last, hplaced, -⟩ := (offsetsFor_layout ht).placed
  have hlook := forall₂_iff_zip.mp (hplaced.lookup hn)
  have hfield : ∀ f fo, (f, fo) ∈ s.fields.zip table.fields →
      (verifyField bytes s.fields base bounds depth fo = .ok () ↔
        SlotVerified bytes bounds f.name f.ty (base + fo.offset) depth) :=
    fun f fo hmem => verifyField_iff (hlook.2 hmem).1 (hlook.2 hmem).2.2
  rw [verifyRecordInner]
  split
  · rename_i hd
    exact ⟨fun h => (by cases h), fun h => absurd h.1 (by omega)⟩
  · rename_i hd
    rw [bind_eq_ok]
    constructor
    · rintro ⟨⟨⟩, hfits, hall⟩
      refine ⟨by omega, requireFixedSlot_eq_ok.mp hfits, fun f fo hmem => (hfield f fo hmem).mp ?_⟩
      exact forM_eq_ok.mp hall fo (of_mem_zip hmem).2
    · rintro ⟨-, hfits, hall⟩
      refine ⟨(), requireFixedSlot_eq_ok.mpr hfits, forM_eq_ok.mpr fun fo hfo => ?_⟩
      obtain ⟨f, hmem⟩ := exists_field ht hfo
      exact (hfield f fo hmem).mpr (hall f fo hmem)

theorem target_record_iff {s : Schema} {table : OffsetTable} (ht : offsetsFor s = .ok table) :
    Target bytes bounds field (.schema s) t depth ↔
      verifyRecordInner bytes table s.fields t bounds (depth + 1) = .ok () := by
  rw [Target, verifyPointerTarget, ht]

theorem variantPayloadType_eq_some {tag : UInt8} {o : Option TypeRepr} :
    variantPayloadType ty tag = some o ↔
      ∃ sel, variantSelectedPayload ty tag = .ok sel ∧ sel.payload.map SelectedVariantPayload.ty = o := by
  unfold variantPayloadType variantSelectedPayload
  cases ty with
  | option inner | result ok err =>
    dsimp only
    split
    · simp
    · split <;> simp
  | enum name variants =>
    dsimp only
    cases variants.find? fun v => v.tag == tag with
    | none => simp
    | some v => cases hp : v.payloadSchema name <;> simp [hp]
  | _ => simp

theorem variantPayloadSlotLayout_eq (ty : TypeRepr) :
    variantPayloadSlotLayout ty = payloadSlotLayoutRuntime ty := by
  cases ty <;> rfl

/-- What the walk does after a variant record's tag selected `payload`. -/
def verifyPayload (bytes : List UInt8) (field : String) (bounds : Bounds) (depth ptr : Nat)
    (label : String) (payload : Option (Option TypeRepr)) : Except VerifyError Unit :=
  match payload with
  | none => .error (.unsupportedType field label)
  | some none => .ok ()
  | some (some ty) => do
    let start ← okOr (checkedAdd ptr 1) (.spanOverflow field "variant payload slot start")
    let slot ← okOr (alignUp start (payloadSlotLayoutRuntime ty).2)
      (.spanOverflow field "variant payload slot alignment")
    bounds.requireSpan field "variant payload slot" slot (slotSize ty)
    if ty.isPointer then do
      let target ← readU32 bytes slot field "variant payload pointer" bounds
      verifyPointerTarget bytes field ty (listKindForListType ty) target bounds (depth + 1)
    else match ty with
      | .closure .. => .error (.unsupportedType field "Closure")
      | _ => .ok ()

theorem verifyVariantTarget_eq : verifyVariantTarget bytes field ty t bounds depth =
      if depth ≥ maxDepth then .error (.depthExceeded field maxDepth)
      else bounds.requireSpan field "variant tag" t 1 >>= fun _ =>
        verifyPayload bytes field bounds depth t (typeLabel ty) (variantPayloadType ty (bytes.getD t 0)) := by
  rw [verifyVariantTarget]
  split
  · rfl
  · congr 1
    funext
    split
    · simp_all [verifyPayload]
    · simp_all [verifyPayload]
    · rename_i pty hp
      rw [hp, variantPayloadSlotLayout_eq]
      cases pty <;> rfl

theorem verifyPointerTarget_variant {k : Option ListElementKind} (hv : ty.isVariant = true) :
    verifyPointerTarget bytes field ty k t bounds depth = verifyVariantTarget bytes field ty t bounds depth := by
  cases ty <;> simp_all [TypeRepr.isVariant, verifyPointerTarget]

theorem verifyPayload_some_iff {label : String} (hlay : Layoutable ty) (ht : t < 2 ^ 32) :
    verifyPayload bytes field bounds depth t label (some (some ty)) = .ok () ↔
      SlotVerified bytes bounds field ty (payloadSlot t ty) (depth + 1) := by
  have hslot : alignUp (t + 1) (payloadSlotLayoutRuntime ty).2 = some (payloadSlot t ty) :=
    alignUp_eq_some (isAlign_payloadSlot ty) (by unfold usizeBound; omega)
  have hclosure : ∀ params ret, ty ≠ .closure params ret := by
    rintro params ret rfl
    obtain ⟨d, hd⟩ := hlay.decision ""
    simp [fieldLayoutDecisionFor] at hd
  unfold verifyPayload
  simp only [checkedAdd_of_lt (p := t) (n := 1) (by unfold usizeBound; omega), okOr_some, ok_bind, hslot,
    bind_eq_ok]
  constructor
  · rintro ⟨⟨⟩, hspan, h⟩
    refine ⟨requireSpan_eq_ok.mp hspan, fun hptr => ?_⟩
    rw [if_pos hptr, bind_eq_ok] at h
    obtain ⟨_, hread, h⟩ := h
    obtain ⟨-, rfl⟩ := readU32_eq_ok.mp hread
    exact h
  · rintro ⟨hfits, h⟩
    refine ⟨(), requireSpan_eq_ok.mpr hfits, ?_⟩
    split
    · rename_i hptr
      rw [slotSize_pointer hptr] at hfits
      exact bind_eq_ok.mpr ⟨_, readU32_eq_ok.mpr ⟨hfits, rfl⟩, h hptr⟩
    · rfl

theorem target_variant_iff (hv : ty.isVariant = true) (hlay : Layoutable ty) (ht : t < 2 ^ 32) :
    Target bytes bounds field ty t depth ↔ depth < maxDepth ∧ bounds.Fits t 1 ∧
        ∃ sel, variantSelectedPayload ty (bytes.getD t 0) = .ok sel ∧ ∀ p, sel.payload = some p →
            SlotVerified bytes bounds field p.ty (payloadSlot t p.ty) (depth + 1) := by
  have hpayload : ∀ {sel p}, variantSelectedPayload ty (bytes.getD t 0) = .ok sel → sel.payload = some p →
      Layoutable p.ty := by
    intro sel p hsel hp
    obtain ⟨ps, hps, hmem⟩ := selectedPayload_mem hsel hp
    exact layoutable_payload hlay hps hmem
  rw [Target, verifyPointerTarget_variant hv, verifyVariantTarget_eq]
  split
  · exact ⟨fun h => (by cases h), fun h => absurd h.1 (by omega)⟩
  · rename_i hd
    rw [bind_eq_ok]
    constructor
    · rintro ⟨⟨⟩, hspan, h⟩
      cases hp : variantPayloadType ty (bytes.getD t 0) with
      | none =>
        rw [hp] at h
        cases h
      | some o =>
        obtain ⟨sel, hsel, rfl⟩ := variantPayloadType_eq_some.mp hp
        refine ⟨by omega, requireSpan_eq_ok.mp hspan, sel, hsel, fun p hpay => ?_⟩
        rw [hp, hpay] at h
        exact (verifyPayload_some_iff (hpayload hsel hpay) ht).mp h
    · rintro ⟨-, hspan, sel, hsel, hall⟩
      refine ⟨(), requireSpan_eq_ok.mpr hspan, ?_⟩
      rw [variantPayloadType_eq_some.mpr ⟨sel, hsel, rfl⟩]
      cases hpay : sel.payload with
      | none => rfl
      | some p => exact (verifyPayload_some_iff (hpayload hsel hpay) ht).mpr (hall p hpay)

end Targets

end Relon.Abi.Verifier
