import Relon.Abi.ReaderProofs

/-! What relocation does.

On the image, relocating a stored value visits its pointer slots, each once:
`Stored.relocates`. The state of the walk is the list of slots visited so far,
so a step is `rebase base (p :: visited)` and nothing else changes. -/
namespace Relon.Abi
open Bytes Reloc Relon.Except List

/-! ### Equations -/

variable {bytes : List UInt8} {t base : Nat} {ty : TypeRepr} {sel : SelectedVariant}

theorem relocateVariantRecord_unit (hin : exceeds bytes t 1 = false)
    (hsel : variantSelectedPayload ty (bytes.getD t 0) = .ok sel) (hp : sel.payload = none) :
    relocateVariantRecord bytes t ty base = .ok bytes := by
  rw [relocateVariantRecord, hin, if_neg (by simp)]
  dsimp only
  split
  · simp_all
  · rename_i sel' hsel'
    rw [hsel, Except.ok.injEq] at hsel'
    subst hsel'
    split
    · rfl
    · simp_all

/-- Relocate what the target of a pointer to a `ty` contains. -/
def relocateTarget (bytes : List UInt8) (ty : TypeRepr) (t base : Nat) : Except String (List UInt8) :=
  match ty with
  | .schema schema =>
    match offsetsFor schema with
    | .error _ => .error "variant schema payload is not layoutable"
    | .ok layout => relocatePointers bytes (RelocLayout.build layout schema.fields) t base
  | .list element =>
    if listPayloadIsPointerArray element then
      relocateListPointerArray bytes t (ptrArrayElemFor element) base
    else .ok bytes
  | .unit | .bool | .int | .float | .string | .closure .. => .ok bytes
  | variant => relocateVariantRecord bytes t variant base

theorem relocateTarget_variant (hv : ty.isVariant = true) (bytes : List UInt8) (t base : Nat) :
    relocateTarget bytes ty t base = relocateVariantRecord bytes t ty base := by
  cases ty <;> simp_all [TypeRepr.isVariant, relocateTarget]

/-- Relocate one slot and what it points at. -/
def relocateSlot (outOfBounds overflow : String) (base : Nat) (bytes : List UInt8)
    (x : TypeRepr × Nat) : Except String (List UInt8) :=
  if x.1.isPointer then
    rebaseSlot bytes x.2 base outOfBounds overflow >>= fun r => relocateTarget r.1 x.1 r.2 base
  else .ok bytes

theorem relocateVariantRecord_payload {p : SelectedVariantPayload} (hin : exceeds bytes t 1 = false)
    (hsel : variantSelectedPayload ty (bytes.getD t 0) = .ok sel) (hp : sel.payload = some p)
    (hslot : variantPayloadSlotOffset t p.ty = some (payloadSlot t p.ty)) :
    relocateVariantRecord bytes t ty base =
      relocateSlot "variant payload pointer slot exceeds buffer end"
        "relocated variant payload pointer overflows u32" base bytes (p.ty, payloadSlot t p.ty) := by
  rw [relocateVariantRecord, hin, if_neg (by simp)]
  dsimp only
  split
  · simp_all
  · rename_i sel' hsel'
    rw [hsel, Except.ok.injEq] at hsel'
    subst hsel'
    split
    · simp_all
    · rename_i p' hp'
      rw [hp, Option.some.injEq] at hp'
      subst hp'
      by_cases hptr : p.ty.isPointer = true
      · rw [relocateSlot, if_pos hptr, if_neg (by simpa using hptr), hslot, okOr_some, ok_bind]
        congr 1
        funext r
        unfold relocateTarget
        split
        case h_1 schema same =>
          rewrite [same]
          rfl
        all_goals simp_all
      · rw [relocateSlot, if_neg hptr]
        simp [hptr]

/-! ### Steps on an image -/

section Steps
variable {m : Image} {lo hi p t base : Nat} {visited : List Nat}

theorem readable_rebase (hb : hi + base < 2 ^ 32) (hhi : hi ≤ m.length) :
    Readable (render (rebase base visited m)) hi :=
  ⟨by unfold usizeBound; omega, by rw [length_render, length_rebase]; exact hhi⟩

theorem rebaseSlot_ok (h : PtrWindow m lo hi p t) (hv : p ∉ visited) (hb : hi + base < 2 ^ 32)
    (hhi : hi ≤ m.length) (ht : t ≤ hi) (outOfBounds overflow : String) :
    rebaseSlot (render (rebase base visited m)) p base outOfBounds overflow =
      .ok (render (rebase base (p :: visited) m), t) := by
  have hread : readU32 (render (rebase base visited m)) p = t :=
    (h.ptr.rebase_of_not_mem hv).leNat_slice (by omega)
  rw [rebaseSlot, exceeds_eq_false (readable_rebase hb hhi) h.le_hi, if_neg (by simp), hread]
  dsimp only
  rw [if_pos (by omega), writeU32, ← render_pointer, ← render_patch, patch_rebase h.ptr]

theorem Window.rebase {bs : List UInt8} (h : Window m lo hi p bs) :
    Window (rebase base visited m) lo hi p bs :=
  ⟨h.bytes.rebase, h.lo_le, h.le_hi⟩

end Steps

/-- The loop body of `relocate_list_pointer_array` on the entry at `cursor`. -/
def relocateEntry (elem : Option PtrArrayElem) (base : Nat) (bytes : List UInt8) (cursor : Nat) :
    Except String (List UInt8) :=
  rebaseSlot bytes cursor base "list pointer array entry exceeds buffer end"
    "relocated list-entry pointer overflows u32" >>= fun r =>
      match elem with
      | some (.schema elementReloc) => relocatePointers r.1 elementReloc r.2 base
      | some (.innerList inner) => relocateListPointerArray r.1 r.2 (some inner) base
      | some (.variant ty) => relocateVariantRecord r.1 r.2 ty base
      | some .string | none => .ok r.1

variable {bytes : List UInt8} {el : TypeRepr} {recordBase : Nat}

theorem relocateListPointerArray_eq {t n base : Nat} (el : TypeRepr) (elem : Option PtrArrayElem)
    (hin : exceeds bytes t 4 = false) (hn : readU32 bytes t = n) :
    relocateListPointerArray bytes t elem base =
      (entrySlots el (t + 4) n).foldlM (fun bytes x => relocateEntry elem base bytes x.2) bytes := by
  rw [relocateListPointerArray, hin, if_neg (by simp), hn, entrySlots_eq_map, foldlM_map]
  dsimp only
  congr 1
  funext bytes i
  have hcursor : t + 4 + 4 * i = t + 4 + i * 4 := by omega
  show _ = relocateEntry elem base bytes (t + 4 + i * 4)
  rw [← hcursor]
  rfl

theorem ptrArrayElemFor_variant {ty : TypeRepr} (hv : ty.isVariant = true) :
    ptrArrayElemFor ty = some (.variant ty) := by
  cases ty <;> simp_all [TypeRepr.isVariant, ptrArrayElemFor]

/-- Element types with pointers below them have an entry descriptor, except lists that
bottom out in scalars. -/
theorem ptrArrayElemFor_isSome (el : TypeRepr) (hel : el.isPointer = true) (h : Layoutable el)
    (hs : scalarChain el = false) : ∃ e, ptrArrayElemFor el = some e := by
  match el with
  | .string => exact ⟨_, by rw [ptrArrayElemFor]⟩
  | .schema s =>
    obtain ⟨table, ht⟩ := layoutable_schema_iff.mp h
    exact ⟨_, by rw [ptrArrayElemFor, ht]; rfl⟩
  | .list inner =>
    rw [scalarChain] at hs
    have hinner : inner.isPointer = true := by
      rcases list_element_cases h with hp | rfl | rfl | rfl
      · exact hp
      all_goals simp [scalarChain] at hs
    obtain ⟨e, he⟩ := ptrArrayElemFor_isSome inner hinner (layoutable_element h) hs
    exact ⟨.innerList e, by rw [ptrArrayElemFor, he]; rfl⟩
  | .option _ | .result .. | .enum .. => exact ⟨_, ptrArrayElemFor_variant rfl⟩

theorem ptrArrayElemFor_scalarChain (el : TypeRepr) (hs : scalarChain el = true) :
    ptrArrayElemFor el = none := by
  match el with
  | .int | .float | .bool => simp [ptrArrayElemFor]
  | .list inner =>
    rw [scalarChain] at hs
    rw [ptrArrayElemFor, ptrArrayElemFor_scalarChain inner hs]
    rfl

theorem ptrArrayElemFor_stopsAt (h : stopsAt el = true) : ptrArrayElemFor el = none := by
  cases el with
  | list inner =>
    simp only [stopsAt, Bool.and_eq_true] at h
    exact ptrArrayElemFor_scalarChain _ (by rw [scalarChain]; exact h.2)
  | _ => simp [stopsAt] at h

/-- Elsewhere an entry is relocated like any slot of its type. -/
theorem relocateEntry_eq (hel : el.isPointer = true) (h : Layoutable el)
    (hstop : stopsAt el = false) (base : Nat) (bytes : List UInt8) (p : Nat) :
    relocateEntry (ptrArrayElemFor el) base bytes p =
      relocateSlot "list pointer array entry exceeds buffer end"
        "relocated list-entry pointer overflows u32" base bytes (el, p) := by
  rw [relocateEntry, relocateSlot, if_pos hel]
  congr 1
  funext r
  rcases pointer_cases hel with rfl | ⟨inner, rfl⟩ | ⟨s, rfl⟩ | hv
  · rw [ptrArrayElemFor, relocateTarget]
  · by_cases hinner : inner.isPointer = true
    · have hs : scalarChain inner = false := by simpa [stopsAt, hinner] using hstop
      obtain ⟨e, he⟩ := ptrArrayElemFor_isSome inner hinner (layoutable_element h) hs
      rw [relocateTarget, if_pos hinner, ptrArrayElemFor, he]
      rfl
    · have hs : scalarChain inner = true := by
        rcases list_element_cases h with hp | rfl | rfl | rfl
        · exact absurd hp hinner
        all_goals rfl
      rw [relocateTarget, if_neg hinner, ptrArrayElemFor, ptrArrayElemFor_scalarChain inner hs]
      rfl
  · obtain ⟨table, ht⟩ := layoutable_schema_iff.mp h
    rw [relocateTarget, ht, ptrArrayElemFor, ht]
    rfl
  · rw [relocateTarget_variant hv, ptrArrayElemFor_variant hv]

/-! ### Records -/

/-- One step of `relocate_pointers`. -/
def relocateRecordSlot (recordBase base : Nat) (bytes : List UInt8) (slot : RelocSlot) :
    Except String (List UInt8) :=
  okOr (checkedAdd recordBase slot.offset) "pointer slot offset overflows usize" >>= fun slotAbs =>
    rebaseSlot bytes slotAbs base "pointer slot exceeds buffer end" "relocated pointer overflows u32"
      >>= fun r =>
        match slot.variant with
        | some variantTy => relocateVariantRecord r.1 r.2 variantTy base
        | none =>
          match slot.listElement with
          | some (.pointerArray _) => relocateListPointerArray r.1 r.2 slot.listElem base
          | some (.inlineFixed ..) | none =>
            match slot.nested with
            | some nested => relocatePointers r.1 nested r.2 base
            | none => .ok r.1

theorem relocatePointers_eq (bytes : List UInt8) (reloc : RelocLayout) (recordBase base : Nat) :
    relocatePointers bytes reloc recordBase base =
      reloc.slots.foldlM (relocateRecordSlot recordBase base) bytes := by
  rw [relocatePointers]
  congr 1
  funext bytes slot
  rw [relocateRecordSlot]
  congr 1
  funext slotAbs
  congr 1
  funext r
  rcases slot with ⟨offset, le, nested, elem, variant⟩
  cases variant <;> cases nested <;> rfl

/-- The table entry of a field. -/
def relocSlotFor (fields : List Field) (fo : FieldOffset) : Option RelocSlot :=
  match fo.kind with
  | .inline .. => none
  | .pointerIndirect _ =>
    match fields.find? (fun f => f.name == fo.name) with
    | none => some ⟨fo.offset, fo.listElement, none, none, none⟩
    | some f =>
      some ⟨fo.offset, fo.listElement, nestedReloc f.ty, listElemReloc f.ty, variantSlotType f.ty⟩

theorem build_slots (layout : OffsetTable) (fields : List Field) :
    (RelocLayout.build layout fields).slots = layout.fields.filterMap (relocSlotFor fields) := by
  rw [RelocLayout.build]
  dsimp only
  congr 1
  funext fo
  rw [relocSlotFor]
  cases hk : fo.kind with
  | inline _ _ => rfl
  | pointerIndirect _ =>
    dsimp only
    split <;> rename_i hfind <;> rw [hfind]

/-- A pointer field's table entry relocates its slot. -/
theorem relocateRecordSlot_eq {f : Field} {fo : FieldOffset} (h : PlacedField f fo)
    (hptr : f.ty.isPointer = true) (hin : recordBase + fo.offset < usizeBound) (base : Nat)
    (bytes : List UInt8) : relocateRecordSlot recordBase base bytes
        ⟨fo.offset, fo.listElement, nestedReloc f.ty, listElemReloc f.ty, variantSlotType f.ty⟩ =
      relocateSlot "pointer slot exceeds buffer end" "relocated pointer overflows u32" base bytes
        (f.ty, recordBase + fo.offset) := by
  have hle := h.listElement
  rw [relocateRecordSlot, checkedAdd_of_lt hin, okOr_some, ok_bind, relocateSlot, if_pos hptr]
  congr 1
  funext r
  rcases pointer_cases hptr with hty | ⟨el, hty⟩ | ⟨s, hty⟩ | hv
  · simp only [hty, ListElementFits] at hle
    simp [hty, hle, variantSlotType, nestedReloc, relocateTarget]
  · rw [hty] at hle
    by_cases hel : el.isPointer = true
    · obtain ⟨a, ha⟩ := hle.pointerArray hel
      simp [hty, ha, variantSlotType, listElemReloc, relocateTarget, hel]
    · obtain ⟨size, a, ha⟩ := hle.inlineFixed (hty ▸ h.layoutable) (by simpa using hel)
      have hnested : nestedReloc (.list el) = none := by
        cases el <;> simp_all [listPayloadIsPointerArray, nestedReloc]
      simp [hty, ha, variantSlotType, hnested, relocateTarget, hel]
  · obtain ⟨table, ht⟩ := layoutable_schema_iff.mp (hty ▸ h.layoutable)
    simp only [hty, ListElementFits] at hle
    simp [hty, hle, variantSlotType, nestedReloc, relocateTarget, ht, Except.toOption]
  · have hslot : variantSlotType f.ty = some f.ty := by
      cases hty : f.ty <;> simp_all [TypeRepr.isVariant, variantSlotType]
    simp [hslot, relocateTarget_variant hv]

/-- The table walk goes over the fields in declaration order; an inline field
contributes nothing. -/
theorem relocateRecordSlots_eq {fields fs : List Field} {fos : List FieldOffset}
    (h : List.Forall₂ (fun f fo => PlacedField f fo ∧ recordBase + fo.offset < usizeBound ∧
      fields.find? (fun x => x.name == fo.name) = some f) fs fos) (base : Nat) (bytes : List UInt8) :
    (fos.filterMap (relocSlotFor fields)).foldlM (relocateRecordSlot recordBase base) bytes =
      (recordSlots fs fos recordBase).foldlM
        (relocateSlot "pointer slot exceeds buffer end" "relocated pointer overflows u32" base)
        bytes := by
  induction h generalizing bytes with
  | nil => rfl
  | @cons f fo fs fos hf _ ih =>
    obtain ⟨hplaced, hin, hfind⟩ := hf
    have hkind := hplaced.kind
    rw [recordSlots, zipWith_cons_cons, foldlM_cons]
    rw [KindFits] at hkind
    split at hkind
    · rename_i hptr
      obtain ⟨a, ha⟩ := hkind
      have hslot : relocSlotFor fields fo = some
          ⟨fo.offset, fo.listElement, nestedReloc f.ty, listElemReloc f.ty, variantSlotType f.ty⟩ := by
        rw [relocSlotFor, ha, hfind]
      rw [filterMap_cons_some hslot, foldlM_cons, relocateRecordSlot_eq hplaced hptr hin]
      congr 1
      funext bytes
      exact ih bytes
    · rename_i hptr
      obtain ⟨size, a, ha⟩ := hkind
      have hslot : relocSlotFor fields fo = none := by rw [relocSlotFor, ha]
      rw [filterMap_cons_none hslot, relocateSlot, if_neg hptr, ok_bind]
      exact ih bytes

theorem relocatePointers_build {s : Schema} {table : OffsetTable} (ht : offsetsFor s = .ok table)
    (hn : (s.fields.map Field.name).Nodup) (hin : recordBase + table.rootSize < usizeBound)
    (base : Nat) (bytes : List UInt8) :
    relocatePointers bytes (RelocLayout.build table s.fields) recordBase base =
      (recordSlots s.fields table.fields recordBase).foldlM
        (relocateSlot "pointer slot exceeds buffer end" "relocated pointer overflows u32" base)
        bytes := by
  obtain ⟨last, hplaced, hlast⟩ := (offsetsFor_layout ht).placed
  have hlook := hplaced.lookup hn
  rw [relocatePointers_eq, build_slots]
  apply relocateRecordSlots_eq
  rw [forall₂_iff_zip] at hlook ⊢
  refine ⟨hlook.1, fun hmem => ?_⟩
  obtain ⟨hf, -, hfind⟩ := hlook.2 hmem
  have := hplaced.bounds _ (of_mem_zip hmem).2
  exact ⟨hf, by omega, hfind⟩

/-! ### Lengths -/

theorem le_of_exceeds {p n : Nat} (h : ¬ exceeds bytes p n = true) : p + n ≤ bytes.length := by
  unfold exceeds at h
  split at h
  · rename_i e he
    rw [decide_eq_true_eq] at h
    rw [← (checkedAdd_eq_some he).1]
    omega
  · simp at h

theorem rebaseSlot_length {p base : Nat} {r : List UInt8 × Nat} {outOfBounds overflow : String}
    (h : rebaseSlot bytes p base outOfBounds overflow = .ok r) : r.1.length = bytes.length := by
  unfold rebaseSlot at h
  split at h
  · cases h
  · rename_i hin
    dsimp only at h
    split at h <;> cases h
    have := le_of_exceeds hin
    exact length_patch (by rw [length_leBytes]; omega)

mutual
/-- Relocation works in place. -/
theorem relocatePointers_length {bytes bytes' : List UInt8} {reloc : RelocLayout}
    {recordBase base : Nat} (h : relocatePointers bytes reloc recordBase base = .ok bytes') :
    bytes'.length = bytes.length := by
  rw [relocatePointers_eq] at h
  refine foldlM_inv (P := fun b => b.length = bytes.length) h rfl ?_
  intro slot hslot b b' hb hstep
  simp only [relocateRecordSlot, bind_eq_ok] at hstep
  obtain ⟨slotAbs, -, r, hrebase, hstep⟩ := hstep
  have hr := rebaseSlot_length hrebase
  have hheight : max (layoutHeight slot.nested) (max (elemHeight slot.listElem) (typeHeight slot.variant)) <
      reloc.height := by
    have := slot_height_le hslot
    rw [RelocSlot.height_eq] at this
    rw [reloc.height_eq]
    omega
  split at hstep
  · rename_i variantTy hv
    have hdec : variantTy.weight < reloc.height := by
      rw [hv, typeHeight] at hheight
      omega
    have := relocateVariantRecord_length hstep
    omega
  · split at hstep
    · have := relocateListPointerArray_length hstep
      omega
    all_goals
      split at hstep
      · rename_i nested hn
        have hdec : nested.height < reloc.height := by
          rw [hn, layoutHeight] at hheight
          omega
        have := relocatePointers_length hstep
        omega
      · cases hstep
        omega
termination_by 2 * reloc.height

theorem relocateListPointerArray_length {bytes bytes' : List UInt8} {recordStart : Nat}
    {elem : Option PtrArrayElem} {base : Nat}
    (h : relocateListPointerArray bytes recordStart elem base = .ok bytes') :
    bytes'.length = bytes.length := by
  rw [relocateListPointerArray] at h
  split at h
  · cases h
  · refine foldlM_inv (P := fun b => b.length = bytes.length) h rfl ?_
    intro i _ b b' hb hstep
    simp only [bind_eq_ok] at hstep
    obtain ⟨r, hrebase, hstep⟩ := hstep
    have hr := rebaseSlot_length hrebase
    generalize helem : elem = e at hstep
    split at hstep
    · rename_i elementReloc
      have hdec : elementReloc.height < elemHeight elem := by
        simp [helem, elemHeight, PtrArrayElem.height]
      have := relocatePointers_length hstep
      omega
    · rename_i inner
      have hdec : elemHeight (some inner) < elemHeight elem := by
        simp [helem, elemHeight, PtrArrayElem.height]
      have := relocateListPointerArray_length hstep
      omega
    · rename_i ty
      have hdec : ty.weight ≤ elemHeight elem := by
        simp [helem, elemHeight, PtrArrayElem.height]
      have := relocateVariantRecord_length hstep
      omega
    all_goals
      cases hstep
      omega
termination_by 2 * elemHeight elem + 1

theorem relocateVariantRecord_length {bytes bytes' : List UInt8} {recordStart : Nat} {ty : TypeRepr}
    {base : Nat} (h : relocateVariantRecord bytes recordStart ty base = .ok bytes') :
    bytes'.length = bytes.length := by
  rw [relocateVariantRecord] at h
  split at h
  · cases h
  · dsimp only at h
    split at h
    · cases h
    · rename_i sel hsel
      split at h
      · cases h
        rfl
      · rename_i p hp
        split at h
        · cases h
          rfl
        · simp only [bind_eq_ok] at h
          obtain ⟨slotAbs, -, r, hrebase, h⟩ := h
          have hr := rebaseSlot_length hrebase
          have hw := variantSelectedPayload_weight hsel hp
          split at h
          · rename_i s hty
            split at h
            · cases h
            · rename_i table _
              have hdec : (RelocLayout.build table s.fields).height < ty.weight := by
                have := build_height table s.fields
                rw [hty, TypeRepr.weight, Schema.weight_eq] at hw
                omega
              have := relocatePointers_length h
              omega
          · rename_i element hty
            split at h
            · have hdec : elemHeight (ptrArrayElemFor element) + 1 < ty.weight := by
                have := ptrArrayElemFor_height element
                rw [hty, TypeRepr.weight] at hw
                omega
              have := relocateListPointerArray_length h
              omega
            · cases h
              omega
          all_goals first
            | (cases h; omega)
            | (have hlen := relocateVariantRecord_length h; omega)
termination_by 2 * ty.weight
end

/-! ### The walk -/

/-- Relocating the item moves exactly the pointers in the slots `S`. A walk over slots
may use any step that does what `relocateSlot` does on a slot not yet visited. -/
def Item.Relocates (m : Image) (base : Nat) (S : List Nat) : Item → Prop
  | .target ty _ t => ∀ visited : List Nat, List.Disjoint S visited →
      relocateTarget (render (rebase base visited m)) ty t base =
        .ok (render (rebase base (S ++ visited) m))
  | .slots ps _ => ∀ (step : List UInt8 → TypeRepr × Nat → Except String (List UInt8))
      (outOfBounds overflow : String),
      (∀ x ∈ ps, ∀ bytes, step bytes x = relocateSlot outOfBounds overflow base bytes x) →
      ∀ visited : List Nat, List.Disjoint S visited →
        ps.foldlM step (render (rebase base visited m)) =
          .ok (render (rebase base (S ++ visited) m))
  | .stops ps _ => ∀ visited : List Nat, List.Disjoint S visited →
      ps.foldlM (fun bytes x => relocateEntry none base bytes x.2) (render (rebase base visited m)) =
        .ok (render (rebase base (S ++ visited) m))

/-- **Relocation.** The walk over a stored value moves each pointer it visits once and
changes nothing else. -/
theorem Stored.relocates {mode : Mode} {m : Image} {lo hi base : Nat} {item : Item} {E : List Event}
    (h : Stored mode m lo hi item E) (hmode : mode ≠ .plain) (hb : hi + base < 2 ^ 32)
    (hhi : hi ≤ m.length) (hE : (slotsOf E).Nodup) : item.Relocates m base (slotsOf E) := by
  have hin : ∀ (visited : List Nat) {p n : Nat}, p + n ≤ hi →
      exceeds (render (rebase base visited m)) p n = false := fun visited p n hp =>
    exceeds_eq_false (readable_rebase hb hhi) hp
  induction h with
  | string _ _ => exact fun _ _ => rfl
  | @inlineList el size align vs bss t hel _ _ _ _ =>
    intro visited _
    rw [relocateTarget, if_neg (not_isPointer_of_inlineElement hel)]
    rfl
  | @ptrList el vs t E hel hlay hlen hw hend hstop hs ih =>
    intro visited hdis
    have hwend := hw.le_hi
    rw [length_leBytes] at hwend
    rw [relocateTarget, if_pos hel, relocateListPointerArray_eq el (ptrArrayElemFor el)
      (hin visited hwend) (hw.rebase.readU32_eq hlen)]
    refine ih hE _ "list pointer array entry exceeds buffer end"
      "relocated list-entry pointer overflows u32" (fun x hx bytes => ?_) visited hdis
    obtain ⟨ty, p⟩ := x
    obtain rfl : ty = el := entrySlots_mem hx
    exact relocateEntry_eq hel hlay (hstop.resolve_left hmode) base bytes p
  | @stopList el vs t E _ hstop hlay hlen hw hend _ ih =>
    intro visited hdis
    have hwend := hw.le_hi
    rw [length_leBytes] at hwend
    rw [relocateTarget, if_pos (isPointer_of_stopsAt hstop), relocateListPointerArray_eq el
      (ptrArrayElemFor el) (hin visited hwend) (hw.rebase.readU32_eq hlen),
      ptrArrayElemFor_stopsAt hstop]
    exact ih hE visited hdis
  | @record s table vs t E hs hn hlo hend _ ih =>
    intro visited hdis
    rw [relocateTarget, hs]
    dsimp only
    rw [relocatePointers_build hs hn (by unfold usizeBound; omega)]
    exact ih hE _ _ _ (fun _ _ _ => rfl) visited hdis
  | @variantUnit ty tag sel v t hsel hp hv hw =>
    intro visited _
    rw [relocateTarget_variant (isVariant_of_selected hsel),
      relocateVariantRecord_unit (hin visited hw.le_hi) (by rw [hw.rebase.getD_eq, hsel]) hp]
    rfl
  | @variantPayload ty tag sel p pv v t E hsel hp hv hw _ ih =>
    intro visited hdis
    have hwend := hw.le_hi
    rw [length_singleton] at hwend
    rw [relocateTarget_variant (isVariant_of_selected hsel),
      relocateVariantRecord_payload (hin visited hwend) (by rw [hw.rebase.getD_eq, hsel]) hp
        (variantPayloadSlotOffset_ok (by omega))]
    have hslot := ih hE (relocateSlot "variant payload pointer slot exceeds buffer end"
      "relocated variant payload pointer overflows u32" base) _ _ (fun _ _ _ => rfl) visited hdis
    rw [foldlM_cons, bind_eq_ok] at hslot
    obtain ⟨bytes, hfirst, hrest⟩ := hslot
    rw [hfirst]
    exact hrest
  | nil => exact fun _ _ _ _ _ _ => rfl
  | @inline ty p v bs ps vs E hbs hw hsize _ ih =>
    intro step outOfBounds overflow hstep visited hdis
    rw [foldlM_cons, hstep (ty, p) (by simp), relocateSlot,
      if_neg (not_isPointer_of_storedScalar hbs), ok_bind]
    exact ih hE step outOfBounds overflow (fun x hx => hstep x (mem_cons_of_mem _ hx)) visited hdis
  | @pointer ty p t v ps vs E E' hty hw ht _ iht ihs =>
    intro step outOfBounds overflow hstep visited hdis
    have hbounds := ht.target_bounds
    simp only [slotsOf, slotsOf_append, cons_append, nodup_cons, nodup_append,
      mem_append, not_or] at hE
    obtain ⟨⟨hpE, hpE'⟩, hEn, hEn', hdisE⟩ := hE
    simp only [slotsOf, slotsOf_append, cons_append, disjoint_cons_left,
      disjoint_append_left] at hdis
    obtain ⟨hp, hdisV, hdisV'⟩ := hdis
    have hfirst : step (render (rebase base visited m)) (ty, p) =
        .ok (render (rebase base (slotsOf E ++ p :: visited) m)) := by
      rw [hstep (ty, p) (by simp), relocateSlot, if_pos hty,
        rebaseSlot_ok hw hp hb hhi hbounds.2, ok_bind]
      exact iht hEn (p :: visited) (disjoint_cons_right.mpr ⟨hpE, hdisV⟩)
    rw [foldlM_cons, hfirst, ok_bind,
      ihs hEn' step outOfBounds overflow (fun x hx => hstep x (mem_cons_of_mem _ hx))]
    · congr 2
      apply rebase_congr
      intro x
      simp only [slotsOf, slotsOf_append, mem_append, mem_cons, cons_append]
      tauto
    · exact disjoint_append_right.mpr
        ⟨fun x hx' hx => hdisE x hx x hx' rfl, disjoint_cons_right.mpr ⟨hpE', hdisV'⟩⟩
  | stopsNil => exact fun _ _ => rfl
  | @stopsCons ty p t xs ps vs E hstop hlay hw hlen hhead _ _ _ ih =>
    intro visited hdis
    have ht := hhead.le_hi
    simp only [slotsOf, slotsOf_append, slotsOf_staleSlots, cons_append, nil_append,
      nodup_cons] at hE
    simp only [slotsOf, slotsOf_append, slotsOf_staleSlots, cons_append, nil_append,
      disjoint_cons_left] at hdis
    rw [foldlM_cons, relocateEntry, rebaseSlot_ok hw hdis.1 hb hhi (by omega), ok_bind]
    dsimp only
    rw [ok_bind, ih hE.2 (p :: visited) (disjoint_cons_right.mpr ⟨hE.1, hdis.2⟩)]
    congr 2
    apply rebase_congr
    intro x
    simp only [slotsOf, slotsOf_append, slotsOf_staleSlots, mem_append, mem_cons,
      cons_append, nil_append]
    tauto

end Relon.Abi
