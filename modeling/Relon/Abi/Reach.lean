import Relon.Abi.ReaderProofs

/-! What can be reached in a buffer.

`Reach` follows the bytes as a decoder would: from the slots of a record through
every pointer, to the entries of a list, the fields of a record and the payload
of a variant. It is defined on bytes alone. On an image that stores a value, what
is reached is what is stored (`Reach.stands`), and every pointer slot of the value
is reached (`Stored.reached`). -/
namespace Relon.Abi
open Bytes Reloc List

/-- A place a decoder comes to. -/
inductive Place where
  /-- a slot of a field, of a payload or of an array -/
  | slot (ty : TypeRepr) (p : Nat)
  /-- where the pointer in a slot leads -/
  | target (ty : TypeRepr) (t : Nat)

def Place.ty : Place → TypeRepr
  | .slot ty _ | .target ty _ => ty

/-- The places reached from the slots `roots`. -/
inductive Reach (bytes : List UInt8) (roots : List (TypeRepr × Nat)) : Place → Prop
  | root {ty : TypeRepr} {p : Nat} : (ty, p) ∈ roots → Reach bytes roots (.slot ty p)
  | pointer {ty : TypeRepr} {p : Nat} : Reach bytes roots (.slot ty p) → ty.isPointer = true →
    Reach bytes roots (.target ty (readU32 bytes p))
  | entry {el : TypeRepr} {t i : Nat} : Reach bytes roots (.target (.list el) t) →
    el.isPointer = true → i < readU32 bytes t → Reach bytes roots (.slot el (t + 4 + i * 4))
  | field {s : Schema} {table : OffsetTable} {f : Field} {fo : FieldOffset} {t : Nat} :
    Reach bytes roots (.target (.schema s) t) → offsetsFor s = .ok table →
    (f, fo) ∈ s.fields.zip table.fields → Reach bytes roots (.slot f.ty (t + fo.offset))
  | payload {ty : TypeRepr} {sel : SelectedVariant} {p : SelectedVariantPayload} {t : Nat} :
    Reach bytes roots (.target ty t) → variantSelectedPayload ty (bytes.getD t 0) = .ok sel →
    sel.payload = some p → Reach bytes roots (.slot p.ty (payloadSlot t p.ty))

/-! ### What is reached is stored -/

/-- The place is part of a stored value. -/
def Place.Stands (mode : Mode) (m : Image) (lo hi : Nat) (E : List Event) : Place → Prop
  | .slot ty p => ∃ v E', Stored mode m lo hi (.slots [(ty, p)] [v]) E' ∧ E' ⊆ E
  | .target ty t => ∃ v E', Stored mode m lo hi (.target ty v t) E' ∧ E' ⊆ E

theorem Place.Stands.mono {mode : Mode} {m : Image} {lo hi : Nat} {E E' : List Event} {place : Place}
    (h : place.Stands mode m lo hi E') (hsub : E' ⊆ E) : place.Stands mode m lo hi E := by
  cases place <;> obtain ⟨v, E'', hs, hsub'⟩ := h <;> exact ⟨v, E'', hs, List.Subset.trans hsub' hsub⟩

section Stands
variable {mode : Mode} {m : Image} {lo hi : Nat} {E : List Event} {ps : List (TypeRepr × Nat)}
  {vs : List Value} {ty : TypeRepr} {p t : Nat}

theorem Stored.slot_stands (h : Stored mode m lo hi (.slots ps vs) E) (hp : (ty, p) ∈ ps) :
    (Place.slot ty p).Stands mode m lo hi E := by
  induction ps generalizing vs E with
  | nil => cases hp
  | cons x ps ih =>
    cases h with
    | inline hbs hw hsize hs =>
      rcases mem_cons.mp hp with heq | hp
      · cases heq
        exact ⟨_, [], .inline hbs hw hsize .nil, nil_subset _⟩
      · exact ih hs hp
    | @pointer _ _ _ _ _ _ E₁ E₂ hty hw ht hs =>
      rcases mem_cons.mp hp with heq | hp
      · cases heq
        exact ⟨_, _, .pointer hty hw ht .nil, by simp⟩
      · exact (ih hs hp).mono (subset_append_right _ _)

/-- Behind the entries of a deeply stored array there are only empty lists. -/
theorem Stored.stop_stands (h : Stored .deep m lo hi (.stops ps vs) E) (hp : (ty, p) ∈ ps) :
    (Place.slot ty p).Stands .deep m lo hi E := by
  induction ps generalizing vs E with
  | nil => cases hp
  | cons x ps ih =>
    cases h with
    | @stopsCons ty' _ t xs _ _ _ hstop hlay hw hlen hhead hempty _ hs =>
      obtain rfl := hempty rfl
      rcases mem_cons.mp hp with heq | hp
      · cases heq
        refine ⟨.list [], [.slot p], ?_, by simp [staleSlots]⟩
        cases ty with
        | list inner =>
          simp only [stopsAt, Bool.and_eq_true] at hstop
          have hend := hhead.le_hi
          have htarget : Stored .deep m lo hi (.target (.list inner) (.list []) t) [] := by
            by_cases hinner : stopsAt inner = true
            · exact .stopList (by simp) hinner (layoutable_element hlay) hlen hhead (by simpa using hend)
                .stopsNil
            · exact .ptrList hstop.1 (layoutable_element hlay) hlen hhead (by simpa using hend)
                (.inr (by simpa using hinner)) .nil
          exact .pointer rfl hw htarget .nil
        | _ => simp [stopsAt] at hstop
      · exact (ih hs hp).mono (subset_append_right _ _)

variable {el : TypeRepr} {f : Field} {fo : FieldOffset} {v : Value}

theorem mem_entrySlots {start n i : Nat} (h : i < n) :
    (el, start + i * 4) ∈ entrySlots el start n := by
  rw [entrySlots_eq_map]
  exact mem_map.mpr ⟨i, mem_range.mpr h, rfl⟩

theorem mem_recordSlots {fs : List Field} {fos : List FieldOffset} (h : (f, fo) ∈ fs.zip fos)
    (base : Nat) : (f.ty, base + fo.offset) ∈ recordSlots fs fos base := by
  rw [recordSlots, ← map_uncurry_zip_eq_zipWith]
  exact mem_map.mpr ⟨(f, fo), h, rfl⟩

theorem PtrWindow.readU32_eq (h : PtrWindow m lo hi p t) (ht : t < 2 ^ 32) :
    readU32 (render m) p = t :=
  h.ptr.leNat_slice ht

theorem scalarChain_of_stopsAt (h : stopsAt el = true) : scalarChain el = true := by
  cases el <;> simp_all [stopsAt, scalarChain]

/-- The place stands in the image, or lies behind pointers a skeleton knows nothing of. -/
def Place.Known (mode : Mode) (m : Image) (lo hi : Nat) (E : List Event) (place : Place) : Prop :=
  (mode = .skeleton ∧ scalarChain place.ty = true) ∨ place.Stands mode m lo hi E

theorem Stored.entry_known {i : Nat} (hmode : mode ≠ .plain)
    (h : Stored mode m lo hi (.target (.list el) v t) E) (hel : el.isPointer = true)
    (hi' : i < readU32 (render m) t) : (Place.slot el (t + 4 + i * 4)).Known mode m lo hi E := by
  cases h with
  | inlineList hin => exact absurd hel (not_isPointer_of_inlineElement hin)
  | ptrList _ _ hlen hw _ _ hs =>
    rw [hw.readU32_eq hlen] at hi'
    exact .inr (hs.slot_stands (mem_entrySlots hi'))
  | stopList _ hstop _ hlen hw _ hs =>
    rw [hw.readU32_eq hlen] at hi'
    cases mode with
    | plain => exact absurd rfl hmode
    | deep => exact .inr (hs.stop_stands (mem_entrySlots hi'))
    | skeleton => exact .inl ⟨rfl, scalarChain_of_stopsAt hstop⟩
  | variantUnit hsel => cases isVariant_of_selected hsel
  | variantPayload hsel => cases isVariant_of_selected hsel

theorem Stored.field_stands {s : Schema} {table : OffsetTable}
    (h : Stored mode m lo hi (.target (.schema s) v t) E) (ht : offsetsFor s = .ok table)
    (hf : (f, fo) ∈ s.fields.zip table.fields) :
    (Place.slot f.ty (t + fo.offset)).Stands mode m lo hi E := by
  cases h with
  | record hs _ _ _ hslots =>
    rw [ht] at hs
    cases hs
    exact (hslots.slot_stands (mem_recordSlots hf t)).mono (subset_cons_self _ _)
  | variantUnit hsel => cases isVariant_of_selected hsel
  | variantPayload hsel => cases isVariant_of_selected hsel

theorem Stored.payload_stands {sel : SelectedVariant} {pl : SelectedVariantPayload}
    (h : Stored mode m lo hi (.target ty v t) E)
    (hsel : variantSelectedPayload ty ((render m).getD t 0) = .ok sel) (hpl : sel.payload = some pl) :
    (Place.slot pl.ty (payloadSlot t pl.ty)).Stands mode m lo hi E := by
  cases h with
  | variantUnit hsel' hnone _ hw =>
    rw [hw.getD_eq, hsel', Except.ok.injEq] at hsel
    rw [← hsel, hnone] at hpl
    cases hpl
  | variantPayload hsel' hsome _ hw hs =>
    rw [hw.getD_eq, hsel', Except.ok.injEq] at hsel
    rw [← hsel, hsome] at hpl
    cases hpl
    exact (hs.slot_stands (mem_singleton.mpr rfl)).mono (subset_cons_self _ _)
  | _ => cases isVariant_of_selected hsel

end Stands

variable {mode : Mode} {m : Image} {hi lo : Nat} {roots : List (TypeRepr × Nat)} {E : List Event}

/-- **Reached places.** What is reached from stored slots is part of what they store. -/
theorem Reach.known {vs : List Value} {place : Place} (hmode : mode ≠ .plain) (hb : hi < 2 ^ 32)
    (hE : Stored mode m lo hi (.slots roots vs) E) (h : Reach (render m) roots place) :
    place.Known mode m lo hi E := by
  induction h with
  | root hp => exact .inr (hE.slot_stands hp)
  | @pointer ty p _ hty ih =>
    rcases ih with hchain | ⟨v, E', hs, hsub⟩
    · exact .inl hchain
    · cases hs with
      | inline hbs => exact absurd hty (not_isPointer_of_storedScalar hbs)
      | pointer _ hw ht _ =>
        have := ht.target_bounds
        rw [hw.readU32_eq (by omega)]
        exact .inr ⟨_, _, ht, fun e he => hsub (by simp [he])⟩
  | entry _ hel hi' ih =>
    rcases ih with hchain | ⟨v, E', hs, hsub⟩
    · exact .inl hchain
    · exact (hs.entry_known hmode hel hi').imp id fun h => h.mono hsub
  | field _ ht hf ih =>
    rcases ih with hchain | ⟨v, E', hs, hsub⟩
    · cases hchain.2
    · exact .inr ((hs.field_stands ht hf).mono hsub)
  | @payload ty _ _ _ _ hsel hpl ih =>
    rcases ih with hchain | ⟨v, E', hs, hsub⟩
    · have hv := isVariant_of_selected hsel
      cases ty <;> simp_all [TypeRepr.isVariant, Place.ty, scalarChain]
    · exact .inr ((hs.payload_stands hsel hpl).mono hsub)

/-! ### What is stored is reached -/

/-- The item's own place is reached. -/
def Item.Reached (bytes : List UInt8) (roots : List (TypeRepr × Nat)) : Item → Prop
  | .target ty _ t => Reach bytes roots (.target ty t)
  | .slots ps _ | .stops ps _ => ∀ x ∈ ps, Reach bytes roots (.slot x.1 x.2)

/-- **Reached pointers.** Every pointer slot of a stored value is reached, those the relocation
walk passes by included. -/
theorem Stored.reached {item : Item} (h : Stored mode m lo hi item E) (hb : hi < 2 ^ 32)
    (hitem : item.Reached (render m) roots) :
    ∀ p ∈ pointersOf E, ∃ ty, ty.isPointer = true ∧ Reach (render m) roots (.slot ty p) := by
  have hentries : ∀ {el : TypeRepr} {t n : Nat}, el.isPointer = true → n < 2 ^ 32 →
      Window m lo hi t (leBytes 4 n) → Reach (render m) roots (.target (.list el) t) →
      ∀ x ∈ entrySlots el (t + 4) n, Reach (render m) roots (.slot x.1 x.2) := by
    intro el t n hel hn hw hr x hx
    rw [entrySlots_eq_map] at hx
    obtain ⟨i, hi', rfl⟩ := mem_map.mp hx
    exact hr.entry hel (by rw [hw.readU32_eq hn]; exact mem_range.mp hi')
  induction h with
  | string | inlineList | nil | stopsNil | variantUnit => simp [pointersOf]
  | ptrList hel _ hlen hw _ _ _ ih => exact ih (hentries hel hlen hw hitem)
  | stopList _ hstop _ hlen hw _ _ ih => exact ih (hentries (isPointer_of_stopsAt hstop) hlen hw hitem)
  | @record s table vs t E hs _ _ _ _ ih =>
    refine ih fun x hx => ?_
    rw [recordSlots, ← map_uncurry_zip_eq_zipWith] at hx
    obtain ⟨⟨f, fo⟩, hmem, rfl⟩ := mem_map.mp hx
    exact Reach.field hitem hs hmem
  | variantPayload hsel hp _ hw _ ih =>
    refine ih fun x hx => ?_
    rw [mem_singleton] at hx
    subst hx
    exact Reach.payload hitem (by rw [hw.getD_eq]; exact hsel) hp
  | inline _ _ _ _ ih => exact ih fun x hx => hitem x (mem_cons_of_mem _ hx)
  | @pointer ty p t v ps vs E E' hty hw ht _ iht ihs =>
    have hslot := hitem (ty, p) (by simp)
    have hbound := ht.target_bounds
    have htarget := hslot.pointer hty
    rw [hw.readU32_eq (by omega)] at htarget
    intro x hx
    simp only [pointersOf, pointersOf_append, cons_append, mem_cons, mem_append] at hx
    rcases hx with rfl | hx | hx
    · exact ⟨ty, hty, hslot⟩
    · exact iht htarget x hx
    · exact ihs (fun y hy => hitem y (mem_cons_of_mem _ hy)) x hx
  | @stopsCons ty p t xs ps vs E hstop _ hw hlen hhead _ _ _ ih =>
    have hslot := hitem (ty, p) (by simp)
    have hbound := hhead.le_hi
    have htarget := hslot.pointer (isPointer_of_stopsAt hstop)
    rw [hw.readU32_eq (by omega)] at htarget
    intro x hx
    simp only [pointersOf, pointersOf_append, cons_append, mem_cons, mem_append,
      mem_pointersOf_staleSlots] at hx
    rcases hx with rfl | ⟨i, hi', rfl⟩ | hx
    · exact ⟨ty, isPointer_of_stopsAt hstop, hslot⟩
    · cases ty with
      | list inner =>
        simp only [stopsAt, Bool.and_eq_true] at hstop
        exact ⟨inner, hstop.1, htarget.entry hstop.1 (by rwa [hhead.readU32_eq hlen])⟩
      | _ => simp [stopsAt] at hstop
    · exact ih (fun y hy => hitem y (mem_cons_of_mem _ hy)) x hx

end Relon.Abi
