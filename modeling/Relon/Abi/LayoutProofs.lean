import Relon.Abi.Relocate

/-! What an accepted layout says.

`Layoutable ty` is "a field of type `ty` has a layout"; it passes to every type
reachable from `ty`. `Placed` relates the fields of a record to their slots: in
declaration order, aligned, one after the other. -/
namespace Relon.Abi
open Bytes Relon.Except List TypeRepr FieldKind

attribute [local simp] TypeRepr.weight

/-- A field of this type has a layout. -/
def Layoutable (ty : TypeRepr) : Prop := ∃ name d, fieldLayoutDecisionFor name ty = .ok d

/-- The types stored behind a pointer slot. -/
abbrev TypeRepr.isPointer (ty : TypeRepr) : Bool := listPayloadIsPointerArray ty

/-- `Option`, `Result` and `Enum`. -/
def TypeRepr.isVariant : TypeRepr → Bool
  | .option _ | .result .. | .enum .. => true
  | _ => false

variable {el ty : TypeRepr} {name : String} {ps : List TypeRepr} {α : Type}

theorem TypeRepr.isVariant_iff : ty.isVariant = true ↔ variantPayloads ty ≠ none := by
  cases ty <;> simp [isVariant, variantPayloads]

theorem TypeRepr.isPointer_of_isVariant (h : ty.isVariant = true) : ty.isPointer = true := by
  cases ty <;> simp_all [isVariant, listPayloadIsPointerArray]

/-! ### Layoutable parts -/

theorem fieldLayoutDecisionFor_variant (hv : ty.isVariant = true) (name : String) :
    fieldLayoutDecisionFor name ty =
      (variantRecordAlignment name ty >>= fun a => .ok ⟨.pointerIndirect a, none⟩) := by
  cases ty <;> simp_all [isVariant, fieldLayoutDecisionFor]

theorem layoutable_list_of_inner {inner : TypeRepr} {a : Nat}
    (h : innerListRecordAlignment name inner = .ok a) : Layoutable (.list inner) := by
  refine ⟨name, ?_⟩
  rw [fieldLayoutDecisionFor]
  cases inner <;> simp only [innerListRecordAlignment, bind_eq_ok, reduceCtorEq] at h <;>
    simp only [listLayoutDecision, bind_eq_ok, pure_eq_ok] <;>
    first
      | exact ⟨_, rfl⟩
      | (obtain ⟨x, hx, -⟩ := h; exact ⟨_, x, hx, rfl⟩)

/-- The elements of a list type with a layout. -/
theorem layoutable_element (h : Layoutable (.list el)) : Layoutable el := by
  obtain ⟨name, d, h⟩ := h
  rw [fieldLayoutDecisionFor] at h
  cases el with
  | int | float | bool | string => exact ⟨name, by simp [fieldLayoutDecisionFor]⟩
  | list inner =>
    simp only [listLayoutDecision, bind_eq_ok] at h
    obtain ⟨a, ha, -⟩ := h
    exact layoutable_list_of_inner ha
  | schema s =>
    simp only [listLayoutDecision, bind_eq_ok] at h
    obtain ⟨t, ht, -⟩ := h
    exact ⟨name, _, by rw [fieldLayoutDecisionFor, ht]; rfl⟩
  | option _ | result _ _ | enum _ _ =>
    simp only [listLayoutDecision, bind_eq_ok] at h
    obtain ⟨a, ha, -⟩ := h
    exact ⟨name, _, by rw [fieldLayoutDecisionFor_variant rfl, ha]; rfl⟩
  | unit | closure _ _ => simp [listLayoutDecision] at h

/-- A list's elements are scalars stored inline or values behind pointers. -/
theorem list_element_cases (h : Layoutable (.list el)) :
    el.isPointer = true ∨ el = .int ∨ el = .float ∨ el = .bool := by
  obtain ⟨name, d, h⟩ := h
  rw [fieldLayoutDecisionFor] at h
  cases el <;> simp_all [listLayoutDecision, listPayloadIsPointerArray]

theorem layoutable_schema_iff {s : Schema} : Layoutable (.schema s) ↔ ∃ t, offsetsFor s = .ok t := by
  constructor
  · rintro ⟨name, d, h⟩
    simp only [fieldLayoutDecisionFor, bind_eq_ok] at h
    obtain ⟨t, ht, -⟩ := h
    exact ⟨t, ht⟩
  · rintro ⟨t, ht⟩
    exact ⟨"", _, by rw [fieldLayoutDecisionFor, ht]; rfl⟩

theorem layoutable_variant_iff (hv : ty.isVariant = true) :
    Layoutable ty ↔ ∃ name a, variantRecordAlignment name ty = .ok a := by
  constructor
  · rintro ⟨name, d, h⟩
    rw [fieldLayoutDecisionFor_variant hv, bind_eq_ok] at h
    obtain ⟨a, ha, -⟩ := h
    exact ⟨name, a, ha⟩
  · rintro ⟨name, a, h⟩
    exact ⟨name, _, by rw [fieldLayoutDecisionFor_variant hv, h]; rfl⟩

theorem layoutable_of_payloadSlot {p : Nat × Nat} (h : variantPayloadSlot name ty = .ok p) :
    Layoutable ty ∧ p = payloadSlotLayoutRuntime ty := by
  cases ty with
  | unit | bool | int | float =>
    simp only [variantPayloadSlot, Except.ok.injEq] at h
    exact ⟨⟨name, by simp [fieldLayoutDecisionFor]⟩, h.symm⟩
  | closure _ _ => simp [variantPayloadSlot] at h
  | string =>
    simp only [variantPayloadSlot, bind_eq_ok, pure_eq_iff] at h
    exact ⟨⟨name, by simp [fieldLayoutDecisionFor]⟩, h.choose_spec.2.symm⟩
  | list el =>
    simp only [variantPayloadSlot, ensureTypeLayoutable, bind_eq_ok, pure_eq_iff] at h
    obtain ⟨-, ⟨d, hd, -⟩, rfl⟩ := h
    exact ⟨⟨name, d, by rw [fieldLayoutDecisionFor, hd]⟩, rfl⟩
  | schema s =>
    simp only [variantPayloadSlot, ensureTypeLayoutable, bind_eq_ok, pure_eq_iff] at h
    obtain ⟨-, ⟨t, ht, -⟩, rfl⟩ := h
    exact ⟨layoutable_schema_iff.mpr ⟨t, ht⟩, rfl⟩
  | option _ | result _ _ | enum _ _ =>
    simp only [variantPayloadSlot, ensureTypeLayoutable, bind_eq_ok, pure_eq_iff] at h
    obtain ⟨-, ⟨a, ha, -⟩, rfl⟩ := h
    exact ⟨(layoutable_variant_iff rfl).mpr ⟨name, a, ha⟩, rfl⟩

/-- The alignment of a variant record covers every payload's slot and graph. -/
theorem payloadsAlignment_spec {start a : Nat} (h : payloadsAlignment name ps start = .ok a) :
    start ≤ a ∧ ∀ p ∈ ps, Layoutable p ∧ (payloadSlotLayoutRuntime p).2 ≤ a ∧
      ∃ g, typeGraphAlignment name p = .ok g ∧ g ≤ a := by
  induction ps generalizing start with
  | nil =>
    simp only [payloadsAlignment, Except.ok.injEq] at h
    simp [h]
  | cons p ps ih =>
    simp only [payloadsAlignment, bind_eq_ok] at h
    obtain ⟨⟨size, align⟩, hslot, g, hg, hrest⟩ := h
    obtain ⟨hle, hall⟩ := ih hrest
    obtain ⟨hlay, hp⟩ := layoutable_of_payloadSlot hslot
    refine ⟨by omega, fun q hq => ?_⟩
    rcases mem_cons.mp hq with rfl | hq
    · have : (payloadSlotLayoutRuntime q).2 = align := by rw [← hp]
      exact ⟨hlay, by omega, g, hg, by omega⟩
    · exact hall q hq

theorem variantRecordAlignment_payloads (h : variantPayloads ty = some ps) (name : String) :
    variantRecordAlignment name ty = payloadsAlignment name ps 4 := by
  rw [variantRecordAlignment]
  split
  · rename_i ps' hps'
    rw [h, Option.some.injEq] at hps'
    rw [hps']
  · simp_all

theorem layoutable_payload {ty p : TypeRepr} (h : Layoutable ty)
    (hps : variantPayloads ty = some ps) (hp : p ∈ ps) : Layoutable p := by
  have hv : ty.isVariant = true := isVariant_iff.mpr (by simp [hps])
  obtain ⟨name, a, ha⟩ := (layoutable_variant_iff hv).mp h
  rw [variantRecordAlignment_payloads hps] at ha
  exact ((payloadsAlignment_spec ha).2 p hp).1

/-! ### Field names -/

/-- The name of a field only appears in errors. -/
def NameFree {α : Type} (f : String → Except LayoutError α) : Prop :=
  ∀ n n' a, f n = .ok a → f n' = .ok a

theorem nameFree_const (x : Except LayoutError α) : NameFree fun _ => x :=
  fun _ _ _ h => h

theorem nameFree_error (e : String → LayoutError) :
    NameFree fun n => (.error (e n) : Except LayoutError α) := nofun

theorem NameFree.bind {α β : Type} {f : String → Except LayoutError α}
    {g : String → α → Except LayoutError β} (hf : NameFree f) (hg : ∀ a, NameFree fun n => g n a) :
    NameFree fun n => f n >>= g n := by
  intro n n' b h
  obtain ⟨a, ha, hb⟩ := bind_eq_ok.mp h
  exact bind_eq_ok.mpr ⟨a, hf n n' a ha, hg a n n' b hb⟩

mutual
theorem listLayoutDecision_nameFree (el : TypeRepr) : NameFree fun n => listLayoutDecision n el := by
  cases el with
  | int | float | bool | string | schema _ => simp only [listLayoutDecision]; exact nameFree_const _
  | unit | closure _ _ => simp only [listLayoutDecision]; exact nameFree_error _
  | list inner =>
    simp only [listLayoutDecision]
    exact (innerListRecordAlignment_nameFree inner).bind fun _ => nameFree_const _
  | option _ | result _ _ | enum _ _ =>
    simp only [listLayoutDecision]
    exact (variantRecordAlignment_nameFree _).bind fun _ => nameFree_const _
termination_by 4 * el.weight + 1

theorem innerListRecordAlignment_nameFree (inner : TypeRepr) :
    NameFree fun n => innerListRecordAlignment n inner := by
  cases inner with
  | int | float | bool | string | schema _ => simp only [innerListRecordAlignment]; exact nameFree_const _
  | unit | closure _ _ => simp only [innerListRecordAlignment]; exact nameFree_error _
  | list deeper =>
    simp only [innerListRecordAlignment]
    exact (innerListRecordAlignment_nameFree deeper).bind fun _ => nameFree_const _
  | option _ | result _ _ | enum _ _ =>
    simp only [innerListRecordAlignment]
    exact (variantRecordAlignment_nameFree _).bind fun _ => nameFree_const _
termination_by 4 * inner.weight + 1

theorem variantPayloadSlot_nameFree (ty : TypeRepr) : NameFree fun n => variantPayloadSlot n ty := by
  cases ty with
  | unit | bool | int | float => simp only [variantPayloadSlot]; exact nameFree_const _
  | closure _ _ => simp only [variantPayloadSlot]; exact nameFree_error _
  | string | list _ | schema _ | option _ | result _ _ | enum _ _ =>
    simp only [variantPayloadSlot]
    exact (ensureTypeLayoutable_nameFree _).bind fun _ => nameFree_const _
termination_by 4 * ty.weight + 2

theorem typeGraphAlignment_nameFree (ty : TypeRepr) : NameFree fun n => typeGraphAlignment n ty := by
  cases ty with
  | unit | bool | int | float | string | schema _ => simp only [typeGraphAlignment]; exact nameFree_const _
  | closure _ _ => simp only [typeGraphAlignment]; exact nameFree_error _
  | list el =>
    have hel := typeGraphAlignment_nameFree el
    cases el <;> simp only [typeGraphAlignment] at hel ⊢ <;> first | exact nameFree_const _ | exact hel
  | option _ | result _ _ | enum _ _ =>
    simp only [typeGraphAlignment]
    exact variantRecordAlignment_nameFree _
termination_by 4 * ty.weight + 1

theorem ensureTypeLayoutable_nameFree (ty : TypeRepr) : NameFree fun n => ensureTypeLayoutable n ty := by
  cases ty with
  | unit | bool | int | float | string | schema _ => simp only [ensureTypeLayoutable]; exact nameFree_const _
  | closure _ _ => simp only [ensureTypeLayoutable]; exact nameFree_error _
  | list el =>
    simp only [ensureTypeLayoutable]
    exact (listLayoutDecision_nameFree el).bind fun _ => nameFree_const _
  | option _ | result _ _ | enum _ _ =>
    simp only [ensureTypeLayoutable]
    exact (variantRecordAlignment_nameFree _).bind fun _ => nameFree_const _
termination_by 4 * ty.weight + 1

theorem variantRecordAlignment_nameFree (ty : TypeRepr) :
    NameFree fun n => variantRecordAlignment n ty := by
  cases hps : variantPayloads ty with
  | none =>
    intro n n' a h
    simp only at h
    rw [variantRecordAlignment] at h
    split at h
    · simp_all
    · cases h
  | some ps =>
    have hdec := typesWeight_variantPayloads hps
    have hrec := payloadsAlignment_nameFree ps 4
    simp only [variantRecordAlignment_payloads hps]
    exact hrec
termination_by 4 * ty.weight

theorem payloadsAlignment_nameFree (ps : List TypeRepr) (align : Nat) :
    NameFree fun n => payloadsAlignment n ps align := by
  cases ps with
  | nil => simp only [payloadsAlignment]; exact nameFree_const _
  | cons p ps =>
    simp only [payloadsAlignment]
    exact (variantPayloadSlot_nameFree p).bind fun _ =>
      (typeGraphAlignment_nameFree p).bind fun _ => payloadsAlignment_nameFree ps _
termination_by 4 * typesWeight ps + 3
decreasing_by
  all_goals simp only [typesWeight]
  all_goals have := TypeRepr.weight_pos ‹_›; omega
end

theorem fieldLayoutDecisionFor_nameFree (ty : TypeRepr) : NameFree fun n => fieldLayoutDecisionFor n ty := by
  cases ty with
  | unit | bool | int | float | string | schema _ => simp only [fieldLayoutDecisionFor]; exact nameFree_const _
  | closure _ _ => simp only [fieldLayoutDecisionFor]; exact nameFree_error _
  | list el =>
    simp only [fieldLayoutDecisionFor]
    exact listLayoutDecision_nameFree el
  | option _ | result _ _ | enum _ _ =>
    simp only [fieldLayoutDecisionFor]
    exact (variantRecordAlignment_nameFree _).bind fun _ => nameFree_const _

variable {p el ty : TypeRepr} {a b c : Nat} {ps : List TypeRepr} {tag : UInt8}
  {sel : SelectedVariant}

theorem Layoutable.decision (h : Layoutable ty) (name : String) :
    ∃ d, fieldLayoutDecisionFor name ty = .ok d := by
  obtain ⟨n, d, hd⟩ := h
  exact ⟨d, fieldLayoutDecisionFor_nameFree ty n name d hd⟩

/-! ### Alignments -/

/-- The alignments of the layout. -/
def IsAlign (a : Nat) : Prop := a = 1 ∨ a = 4 ∨ a = 8

theorem IsAlign.pos (h : IsAlign a) : 0 < a := by
  rcases h with rfl | rfl | rfl <;> omega

theorem IsAlign.max (ha : IsAlign a) (hb : IsAlign b) : IsAlign (max a b) := by
  rcases ha with rfl | rfl | rfl <;> rcases hb with rfl | rfl | rfl <;> simp [IsAlign]

theorem IsAlign.dvd_of_le (ha : IsAlign a) (hb : IsAlign b) (h : a ≤ b) : a ∣ b := by
  rcases ha with rfl | rfl | rfl <;> rcases hb with rfl | rfl | rfl <;> simp_all

theorem IsAlign.dvd_eight (h : IsAlign a) : a ∣ 8 := by
  rcases h with rfl | rfl | rfl <;> decide

theorem isAlign_payloadSlot (ty : TypeRepr) : IsAlign (payloadSlotLayoutRuntime ty).2 := by
  cases ty <;> simp [payloadSlotLayoutRuntime, IsAlign]

theorem max?_getD_spec {l : List Nat} (h : ∀ a ∈ l, IsAlign a) :
    IsAlign (l.max?.getD 1) ∧ ∀ a ∈ l, a ≤ l.max?.getD 1 := by
  cases hm : l.max? with
  | none => simp_all [List.max?_eq_none_iff, IsAlign]
  | some m =>
    have hmem := List.max?_mem hm
    exact ⟨h m hmem, fun a ha => (List.max?_eq_some_iff.mp hm).2 a ha⟩

theorem typeGraphAlign_variant (hv : ty.isVariant = true) :
    typeGraphAlign ty = variantRecordAlignRuntime ty := by
  cases ty <;> simp_all [isVariant, typeGraphAlign]

theorem typeGraphAlign_list (h : el.isPointer = true) :
    typeGraphAlign (.list el) = typeGraphAlign el := by
  cases el <;> simp_all [listPayloadIsPointerArray, typeGraphAlign]

theorem payloadsAlign_spec {start : Nat} (hs : IsAlign start)
    (h : ∀ p ∈ ps, IsAlign (typeGraphAlign p)) :
    IsAlign (payloadsAlign ps start) ∧ start ≤ payloadsAlign ps start ∧
      ∀ p ∈ ps, (payloadSlotLayoutRuntime p).2 ≤ payloadsAlign ps start ∧
        typeGraphAlign p ≤ payloadsAlign ps start := by
  induction ps generalizing start with
  | nil => simp [payloadsAlign, hs]
  | cons p ps ih =>
    have hstep := (hs.max (isAlign_payloadSlot p)).max (h p (by simp))
    obtain ⟨ha, hle, hall⟩ := ih hstep fun q hq => h q (mem_cons_of_mem p hq)
    rw [payloadsAlign]
    refine ⟨ha, by omega, fun q hq => ?_⟩
    rcases mem_cons.mp hq with rfl | hq
    · omega
    · exact hall q hq

theorem typesWeight_mem (h : p ∈ ps) : p.weight ≤ typesWeight ps := by
  induction ps with
  | nil => cases h
  | cons q ps ih =>
    rw [typesWeight]
    rcases mem_cons.mp h with rfl | h
    · omega
    · have := ih h
      omega

theorem isAlign_typeGraphAlign (ty : TypeRepr) : IsAlign (typeGraphAlign ty) := by
  match ty with
  | .unit | .bool | .int | .float | .string | .closure .. => simp [typeGraphAlign, IsAlign]
  | .list el =>
    by_cases hel : el.isPointer = true
    · rw [typeGraphAlign_list hel]
      exact isAlign_typeGraphAlign el
    · cases el <;> simp_all [listPayloadIsPointerArray, typeGraphAlign, IsAlign]
  | .schema s =>
    rw [typeGraphAlign]
    refine (max?_getD_spec fun a ha => ?_).1
    obtain ⟨f, hf, rfl⟩ := mem_map.mp ha
    exact isAlign_typeGraphAlign f.ty
  | .option i =>
    rw [typeGraphAlign_variant rfl, variantRecordAlignRuntime]
    refine (payloadsAlign_spec (by simp [IsAlign]) fun p hp => ?_).1
    exact isAlign_typeGraphAlign p
  | .result a b =>
    rw [typeGraphAlign_variant rfl, variantRecordAlignRuntime]
    refine (payloadsAlign_spec (by simp [IsAlign]) fun p hp => ?_).1
    exact isAlign_typeGraphAlign p
  | .enum n vs =>
    rw [typeGraphAlign_variant rfl, variantRecordAlignRuntime]
    refine (payloadsAlign_spec (by simp [IsAlign]) fun p hp => ?_).1
    exact isAlign_typeGraphAlign p
termination_by ty.weight
decreasing_by
  · simp [TypeRepr.weight]
  · have := field_ty_weight_lt hf
    simp only [TypeRepr.weight, Schema.weight_eq]
    omega
  all_goals exact Nat.lt_of_le_of_lt (typesWeight_mem hp) (typesWeight_variantPayloadTypes _)

theorem typeGraphAlign_field_dvd {s : Schema} {f : Field} (hf : f ∈ s.fields) :
    typeGraphAlign f.ty ∣ typeGraphAlign (.schema s) := by
  have hall : ∀ a ∈ s.fields.map fun f => typeGraphAlign f.ty, IsAlign a := by
    intro a ha
    obtain ⟨g, -, rfl⟩ := mem_map.mp ha
    exact isAlign_typeGraphAlign g.ty
  obtain ⟨hmax, hle⟩ := max?_getD_spec hall
  rw [typeGraphAlign]
  exact (isAlign_typeGraphAlign f.ty).dvd_of_le hmax (hle _ (mem_map_of_mem hf))

theorem typeGraphAlign_payload_dvd (hps : variantPayloads ty = some ps) (hp : p ∈ ps) :
    (payloadSlotLayoutRuntime p).2 ∣ typeGraphAlign ty ∧ typeGraphAlign p ∣ typeGraphAlign ty := by
  have hv : ty.isVariant = true := isVariant_iff.mpr (by simp [hps])
  have htypes : variantPayloadTypes ty = ps := by rw [variantPayloadTypes, hps]; rfl
  obtain ⟨ha, -, hall⟩ := payloadsAlign_spec (show IsAlign 4 by simp [IsAlign])
    fun q (_ : q ∈ ps) => isAlign_typeGraphAlign q
  rw [typeGraphAlign_variant hv, variantRecordAlignRuntime, htypes]
  exact ⟨(isAlign_payloadSlot p).dvd_of_le ha (hall p hp).1,
    (isAlign_typeGraphAlign p).dvd_of_le ha (hall p hp).2⟩

/-- The payloads of a type with distinct names. -/
theorem distinct_payload (hps : variantPayloads ty = some ps) (hp : p ∈ ps) (h : ty.distinct = true) :
    p.distinct = true := by
  cases ty with
  | option inner =>
    cases hps
    rw [mem_singleton] at hp
    exact hp ▸ h
  | result ok err =>
    cases hps
    rw [distinct, Bool.and_eq_true] at h
    rcases mem_pair.mp hp with rfl | rfl
    · exact h.1
    · exact h.2
  | enum name variants =>
    cases hps
    rw [distinct, Bool.and_eq_true] at h
    obtain ⟨v, hv, hv'⟩ := mem_filterMap.mp hp
    obtain ⟨s, hs, rfl⟩ := Option.map_eq_some_iff.mp hv'
    exact EnumVariant.payloadSchema_distinct hv h.2 hs
  | _ => cases hps

/-- The payload a tag selects is one of the type's payloads. -/
theorem selectedPayload_mem {p : SelectedVariantPayload}
    (h : variantSelectedPayload ty tag = .ok sel) (hp : sel.payload = some p) :
    ∃ ps, variantPayloads ty = some ps ∧ p.ty ∈ ps := by
  unfold variantSelectedPayload at h
  split at h
  · split at h
    · cases h
      cases hp
    · split at h <;> cases h
      cases hp
      exact ⟨_, rfl, by simp⟩
  · split at h
    · cases h
      cases hp
      exact ⟨_, rfl, by simp⟩
    · split at h <;> cases h
      cases hp
      exact ⟨_, rfl, by simp⟩
  · rename_i name variants
    split at h
    · rename_i v hv
      cases h
      obtain ⟨s, hs, rfl⟩ := Option.map_eq_some_iff.mp hp
      refine ⟨_, rfl, mem_filterMap.mpr ⟨v, List.mem_of_find?_eq_some hv, ?_⟩⟩
      simp [hs]
    · cases h
  · cases h

theorem isVariant_of_selected (h : variantSelectedPayload ty tag = .ok sel) :
    ty.isVariant = true := by
  cases ty <;> simp_all [variantSelectedPayload, isVariant]

/-! ### Placed fields -/

/-- The element sidecar a field of type `ty` carries. -/
def ListElementFits (ty : TypeRepr) (le : Option ListElementKind) : Prop :=
  match ty with
  | .list .int | .list .float => le = some (.inlineFixed 8 8)
  | .list .bool => le = some (.inlineFixed 1 1)
  | .list _ => ∃ a, le = some (.pointerArray a)
  | _ => le = none

theorem ListElementFits.pointerArray {le : Option ListElementKind}
    (h : ListElementFits (.list el) le) (hel : el.isPointer = true) :
    ∃ a, le = some (.pointerArray a) := by
  cases el with
  | int | float | bool | unit | closure _ _ => cases hel
  | _ => exact h

theorem ListElementFits.inlineFixed {le : Option ListElementKind}
    (h : ListElementFits (.list el) le) (hlay : Layoutable (.list el)) (hel : el.isPointer = false) :
    ∃ s a, le = some (.inlineFixed s a) := by
  rcases list_element_cases hlay with hp | rfl | rfl | rfl
  · rw [hel] at hp
    cases hp
  all_goals exact ⟨_, _, h⟩

/-- The slot kind a field of type `ty` gets. -/
def KindFits (ty : TypeRepr) (kind : FieldKind) : Prop :=
  if ty.isPointer then ∃ a, kind = .pointerIndirect a else ∃ s a, kind = .inline s a

theorem decision_fits {name : String} {d : FieldLayoutDecision}
    (h : fieldLayoutDecisionFor name ty = .ok d) :
    d.kind.slot = payloadSlotLayoutRuntime ty ∧ KindFits ty d.kind ∧
      ListElementFits ty d.listElement := by
  cases ty with
  | unit | bool | int | float | string =>
    simp only [fieldLayoutDecisionFor] at h
    cases h
    simp [slot, payloadSlotLayoutRuntime, KindFits, ListElementFits, listPayloadIsPointerArray]
  | closure _ _ => simp [fieldLayoutDecisionFor] at h
  | schema s =>
    simp only [fieldLayoutDecisionFor, bind_eq_ok, pure_eq_iff] at h
    obtain ⟨t, -, rfl⟩ := h
    simp [slot, payloadSlotLayoutRuntime, KindFits, ListElementFits, listPayloadIsPointerArray]
  | option _ | result _ _ | enum _ _ =>
    rw [fieldLayoutDecisionFor_variant rfl] at h
    simp only [bind_eq_ok, Except.ok.injEq] at h
    obtain ⟨a, -, rfl⟩ := h
    simp [slot, payloadSlotLayoutRuntime, KindFits, ListElementFits, listPayloadIsPointerArray]
  | list el =>
    rw [fieldLayoutDecisionFor] at h
    cases el <;>
      simp only [listLayoutDecision, bind_eq_ok, pure_eq_iff, reduceCtorEq] at h <;>
      first
        | subst h
        | obtain ⟨x, -, rfl⟩ := h
    all_goals
      simp [slot, payloadSlotLayoutRuntime, KindFits, ListElementFits, listPayloadIsPointerArray]

/-- Field `f` has the slot `fo`. -/
structure PlacedField (f : Field) (fo : FieldOffset) : Prop where
  name : fo.name = f.name
  layoutable : Layoutable f.ty
  slot : (fo.size, fo.align) = payloadSlotLayoutRuntime f.ty
  kind : KindFits f.ty fo.kind
  listElement : ListElementFits f.ty fo.listElement
  aligned : fo.align ∣ fo.offset

/-- The fields stand one after the other between the two cursors. -/
inductive Placed : Nat → List Field → List FieldOffset → Nat → Prop
  | nil {c : Nat} : Placed c [] [] c
  | cons {c last : Nat} {f : Field} {fo : FieldOffset} {fs : List Field} {fos : List FieldOffset} :
    PlacedField f fo → c ≤ fo.offset → Placed (fo.offset + fo.size) fs fos last →
      Placed c (f :: fs) (fo :: fos) last

theorem checkedNextMultipleOf_eq_some {n a m : Nat} (h : checkedNextMultipleOf n a = some m) :
    m = alignUp n a ∧ m < usizeBound := by
  unfold checkedNextMultipleOf at h
  split at h <;> cases h
  exact ⟨rfl, ‹_›⟩

theorem checkedAdd_eq_some (h : checkedAdd a b = some c) : c = a + b ∧ a + b < usizeBound := by
  unfold checkedAdd at h
  split at h <;> cases h
  exact ⟨rfl, ‹_›⟩

theorem placeFields_spec {fs : List Field} {fos : List FieldOffset} {last top : Nat}
    (h : placeFields fs c a = .ok (fos, last, top)) (ha : IsAlign a) :
    Placed c fs fos last ∧ IsAlign top ∧ a ≤ top ∧ ∀ fo ∈ fos, fo.align ≤ top := by
  induction fs generalizing c a fos with
  | nil =>
    simp only [placeFields] at h
    cases h
    exact ⟨.nil, ha, Nat.le_refl _, by simp⟩
  | cons f fs ih =>
    simp only [placeFields, bind_eq_ok, okOr_eq_ok, pure_eq_iff, Prod.mk.injEq] at h
    obtain ⟨d, hd, offset, hoff, next, hnext, ⟨fos', last', top'⟩, hrest, rfl, rfl, rfl⟩ := h
    obtain ⟨hslot, hkind, hle⟩ := decision_fits hd
    have hal : IsAlign d.kind.slot.2 := hslot ▸ isAlign_payloadSlot f.ty
    have hmax : (if d.kind.slot.2 > a then d.kind.slot.2 else a) = max a d.kind.slot.2 := by
      split <;> omega
    rw [hmax] at hrest
    obtain ⟨hplaced, htop, hmono, hall⟩ := ih hrest (ha.max hal)
    obtain ⟨rfl, -⟩ := checkedNextMultipleOf_eq_some hoff
    obtain ⟨rfl, -⟩ := checkedAdd_eq_some hnext
    refine ⟨.cons ⟨rfl, ⟨_, _, hd⟩, hslot, hkind, hle, ?_⟩ ?_ hplaced, htop, by omega, ?_⟩
    · exact dvd_alignUp hal.pos
    · exact le_alignUp _ _
    · intro fo hfo
      rcases mem_cons.mp hfo with rfl | hfo
      · show d.kind.slot.2 ≤ _
        omega
      · exact hall fo hfo

section Placed
variable {c last : Nat} {fs : List Field} {fos : List FieldOffset}

theorem PlacedField.isAlign {f : Field} {fo : FieldOffset} (h : PlacedField f fo) : IsAlign fo.align := by
  have : fo.align = (payloadSlotLayoutRuntime f.ty).2 := by rw [← h.slot]
  exact this ▸ isAlign_payloadSlot f.ty

theorem PlacedField.size_eq {f : Field} {fo : FieldOffset} (h : PlacedField f fo) :
    fo.size = (payloadSlotLayoutRuntime f.ty).1 := by
  rw [← h.slot]

section
variable (h : Placed c fs fos last)
include h

theorem Placed.forall₂ : List.Forall₂ PlacedField fs fos := by
  induction h with
  | nil => exact .nil
  | cons hf _ _ ih => exact .cons hf ih

theorem Placed.isAlign : ∀ fo ∈ fos, IsAlign fo.align := by
  induction h with
  | nil => simp
  | cons hf _ _ ih =>
    intro fo hfo
    rcases mem_cons.mp hfo with rfl | hfo
    · exact hf.isAlign
    · exact ih fo hfo

theorem Placed.le : c ≤ last := by
  induction h with
  | nil => exact Nat.le_refl _
  | cons _ _ _ ih => omega

theorem Placed.bounds : ∀ fo ∈ fos, c ≤ fo.offset ∧ fo.offset + fo.size ≤ last := by
  induction h with
  | nil => simp
  | @cons _ _ f g _ _ _ hle hrest ih =>
    intro fo hfo
    rcases mem_cons.mp hfo with rfl | hfo
    · exact ⟨hle, hrest.le⟩
    · have := ih fo hfo
      omega

/-- Slots do not overlap. -/
theorem Placed.pairwise : (fs.zip fos).Pairwise fun x y => x.2.offset + x.2.size ≤ y.2.offset := by
  induction h with
  | nil => exact .nil
  | cons _ _ hrest ih => exact .cons (fun x hx => (hrest.bounds x.2 (of_mem_zip hx).2).1) ih

theorem Placed.names : fos.map FieldOffset.name = fs.map Field.name := by
  induction h with
  | nil => rfl
  | cons hf _ _ ih => simp [hf.name, ih]

end

theorem find?_of_nodup {α κ : Type} [BEq κ] [LawfulBEq κ] {l : List α} {g : α → κ}
    (hn : (l.map g).Nodup) {x : α}
    (hx : x ∈ l) : l.find? (fun y => g y == g x) = some x := by
  induction l with
  | nil => cases hx
  | cons a l ih =>
    rw [map_cons, nodup_cons] at hn
    rcases mem_cons.mp hx with rfl | hx
    · simp
    · have hne : g a ≠ g x := fun h => hn.1 (h ▸ mem_map_of_mem hx)
      rw [List.find?_cons, beq_false_of_ne hne]
      exact ih hn.2 hx

theorem Placed.lookup (h : Placed c fs fos last) (hn : (fs.map Field.name).Nodup) :
    List.Forall₂ (fun f fo => PlacedField f fo ∧ fos.find? (fun x => x.name == f.name) = some fo ∧
      fs.find? (fun x => x.name == fo.name) = some f) fs fos := by
  have hn' : (fos.map FieldOffset.name).Nodup := h.names ▸ hn
  have key : ∀ fs' fos', List.Forall₂ PlacedField fs' fos' → (∀ f ∈ fs', f ∈ fs) →
      (∀ fo ∈ fos', fo ∈ fos) → List.Forall₂ (fun f fo => PlacedField f fo ∧
        fos.find? (fun x => x.name == f.name) = some fo ∧
        fs.find? (fun x => x.name == fo.name) = some f) fs' fos' := by
    intro fs' fos' hall hsub hsub'
    induction hall with
    | nil => exact .nil
    | @cons f fo fs' fos' hf _ ih =>
      refine .cons ⟨hf, ?_, ?_⟩ (ih (fun g hg => hsub g (mem_cons_of_mem f hg))
        fun g hg => hsub' g (mem_cons_of_mem fo hg))
      · rw [← hf.name]
        exact find?_of_nodup hn' (hsub' fo (by simp))
      · rw [hf.name]
        exact find?_of_nodup hn (hsub f (by simp))
  exact key fs fos h.forall₂ (fun _ hf => hf) fun _ hf => hf

theorem Placed.separate (h : Placed c fs fos last) :
    fos.Pairwise fun fo fo' => fo.offset + fo.size ≤ fo'.offset := by
  induction h with
  | nil => exact .nil
  | cons _ _ hrest ih => exact .cons (fun fo hfo => (hrest.bounds fo hfo).1) ih

end Placed

/-- What `offsets_for` promises. -/
structure LayoutFor (s : Schema) (t : OffsetTable) : Prop where
  placed : ∃ last, Placed 0 s.fields t.fields last ∧ last ≤ t.rootSize
  rootAlign : IsAlign t.rootAlign
  align_dvd : ∀ fo ∈ t.fields, fo.align ∣ t.rootAlign

variable {s : Schema} {t : OffsetTable} {f : Field}

section
variable (h : offsetsFor s = .ok t)
include h

theorem offsetsFor_layout : LayoutFor s t := by
  simp only [offsetsFor, bind_eq_ok, okOr_eq_ok, pure_eq_iff] at h
  obtain ⟨⟨fos, last, top⟩, hplace, size, hsize, rfl⟩ := h
  obtain ⟨hplaced, htop, -, hall⟩ := placeFields_spec hplace (Or.inl rfl)
  refine ⟨⟨last, hplaced, ?_⟩, htop, fun fo hfo => ?_⟩
  · split at hsize
    · rename_i hempty
      cases hsize
      rw [List.isEmpty_iff] at hempty
      rw [hempty] at hplaced
      cases hplaced
      exact Nat.le_refl 0
    · obtain ⟨rfl, -⟩ := checkedNextMultipleOf_eq_some hsize
      exact le_alignUp _ _
  · exact (hplaced.isAlign fo hfo).dvd_of_le htop (hall fo hfo)

/-- Every field has a slot. -/
theorem exists_slot (hf : f ∈ s.fields) : ∃ fo, (f, fo) ∈ s.fields.zip t.fields := by
  obtain ⟨last, hplaced, -⟩ := (offsetsFor_layout h).placed
  obtain ⟨i, hi, rfl⟩ := getElem_of_mem hf
  have hi' : i < t.fields.length := hplaced.forall₂.length_eq ▸ hi
  exact ⟨t.fields[i], mem_iff_getElem.mpr ⟨i, by simp; omega, by simp⟩⟩

/-- Every slot belongs to a field. -/
theorem exists_field {fo : FieldOffset} (hfo : fo ∈ t.fields) :
    ∃ f, (f, fo) ∈ s.fields.zip t.fields := by
  obtain ⟨last, hplaced, -⟩ := (offsetsFor_layout h).placed
  obtain ⟨i, hi, rfl⟩ := getElem_of_mem hfo
  have hi' : i < s.fields.length := hplaced.forall₂.length_eq ▸ hi
  exact ⟨s.fields[i], mem_iff_getElem.mpr ⟨i, by simp; omega, by simp⟩⟩

theorem layoutable_field (hf : f ∈ s.fields) : Layoutable f.ty := by
  obtain ⟨last, hplaced, -⟩ := (offsetsFor_layout h).placed
  obtain ⟨fo, hmem⟩ := exists_slot h hf
  exact ((forall₂_iff_zip.mp hplaced.forall₂).2 hmem).layoutable

/-- The fixed area is padded to the record's alignment. -/
theorem rootAlign_dvd_rootSize : t.rootAlign ∣ t.rootSize := by
  simp only [offsetsFor, bind_eq_ok, okOr_eq_ok, pure_eq_iff] at h
  obtain ⟨⟨fos, last, top⟩, hplace, size, hsize, rfl⟩ := h
  obtain ⟨-, htop, -, -⟩ := placeFields_spec hplace (Or.inl rfl)
  split at hsize
  · cases hsize
    exact ⟨0, rfl⟩
  · obtain ⟨rfl, -⟩ := checkedNextMultipleOf_eq_some hsize
    exact dvd_alignUp htop.pos

end

/-- The slots stand in declaration order without overlap. Each has the size and the alignment
of its field's type, starts aligned and ends inside the fixed area, which is padded to the
record's alignment; that is at least the alignment of every slot. -/
theorem offsetsFor_well_formed {s : Schema} {t : OffsetTable} (accepted : offsetsFor s = .ok t) :
    List.Forall₂ (fun f fo => fo.name = f.name ∧
        ∃ d, fieldLayoutDecisionFor f.name f.ty = .ok d ∧ (fo.size, fo.align) = d.kind.slot)
      s.fields t.fields ∧
    t.fields.Pairwise (fun fo fo' => fo.offset + fo.size ≤ fo'.offset) ∧
    (∀ fo ∈ t.fields, 0 < fo.size ∧ fo.align ∣ fo.offset ∧ fo.offset + fo.size ≤ t.rootSize ∧
      fo.align ≤ t.rootAlign) ∧ t.rootAlign ∣ t.rootSize := by
  have layout := offsetsFor_layout accepted
  obtain ⟨last, hplaced, hlast⟩ := layout.placed
  refine ⟨hplaced.forall₂.imp fun f fo hf => ?_, hplaced.separate, fun fo hfo => ?_,
    rootAlign_dvd_rootSize accepted⟩
  · obtain ⟨d, hd⟩ := hf.layoutable.decision f.name
    exact ⟨hf.name, d, hd, hf.slot.trans (decision_fits hd).1.symm⟩
  · obtain ⟨f, hmem⟩ := exists_field accepted hfo
    have hf := (forall₂_iff_zip.mp hplaced.forall₂).2 hmem
    refine ⟨?_, hf.aligned, (hplaced.bounds fo hfo).2.trans hlast,
      Nat.le_of_dvd layout.rootAlign.pos (layout.align_dvd fo hfo)⟩
    rw [hf.size_eq]
    cases f.ty <;> simp [payloadSlotLayoutRuntime]

/-- A tuple of a Bool, an Int and a String: slots at 0, 8 and 16, padded to 24 bytes. -/
theorem mixed_tuple_well_formed :
    ∃ t, offsetsFor ⟨"T", [], [⟨"0", .bool, none⟩, ⟨"1", .int, none⟩, ⟨"2", .string, none⟩], true⟩ =
        .ok t ∧ t.fields.map FieldOffset.offset = [0, 8, 16] ∧ t.rootSize = 24 ∧
      t.fields.Pairwise (fun fo fo' => fo.offset + fo.size ≤ fo'.offset) := by
  have accepted :
      offsetsFor ⟨"T", [], [⟨"0", .bool, none⟩, ⟨"1", .int, none⟩, ⟨"2", .string, none⟩], true⟩ =
      .ok ⟨[⟨"0", 0, 1, 1, .inline 1 1, none⟩, ⟨"1", 8, 8, 8, .inline 8 8, none⟩,
        ⟨"2", 16, 4, 4, .pointerIndirect 1, none⟩], 24, 8⟩ := by
    simp [offsetsFor, placeFields, fieldLayoutDecisionFor, slot, checkedNextMultipleOf,
      checkedAdd, alignUp, usizeBound, okOr]
  exact ⟨_, accepted, rfl, rfl, (offsetsFor_well_formed accepted).2.1⟩

end Relon.Abi
