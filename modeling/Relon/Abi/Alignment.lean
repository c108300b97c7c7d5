import Relon.Abi.Arena

/-! Alignment of the records in a finished buffer.

A detached child is pasted at the alignment `schema_paste_align` computes for it.
`Session.aligned` says that every record and every variant record reached from
the root then starts at a multiple of the alignment its layout gives it, provided
each paste alignment suits what is below (`alignSafe`), and that the payload of an
`Int` or `Float` list stands at a multiple of 8. The computed alignment need not suit:
`type_graph_align` looks through a nested record without counting the record's own
`root_align` (`nested_record_misaligned`), and the place of a variant record is
computed from its payload slot alone (`variant_record_misaligned`). -/
namespace Relon.Abi
open Bytes Reloc List

theorem isRecord_or_isVariant_of_startAlignment {ty : TypeRepr} {a : Nat}
    (h : startAlignment ty = some a) : ty.isRecord = true ∨ ty.isVariant = true := by
  unfold startAlignment at h
  split at h
  · exact .inl rfl
  · rw [toOption_eq_some, variantRecordAlignment] at h
    split at h
    · rename_i payloads hp
      exact .inr (TypeRepr.isVariant_iff.mpr (by simp [hp]))
    · cases h

section Aligned
variable {mode : Mode} {m : Image} {lo hi : Nat} {s : Schema} {table : OffsetTable}
  {writes : List (String × TypeRepr × Value)} {b : BufferBuilder} {ty : TypeRepr} {t a : Nat}

theorem Stored.start_mem {v : Value} {E : List Event} (h : Stored mode m lo hi (.target ty v t) E)
    (ha : startAlignment ty = some a) : .start t ty ∈ E := by
  cases h with
  | record | variantUnit | variantPayload => simp
  | string | inlineList | ptrList | stopList =>
    rcases isRecord_or_isVariant_of_startAlignment ha with h | h <;> cases h

theorem Session.starts_aligned (h : Session s table writes b) (hfull : FullyWritten s writes)
    (hsafe : ∀ f ∈ s.fields, ∀ v, lastWrite f.name writes = some v → alignSafe f.ty v = true)
    (hr : Reach b.finish (recordSlots s.fields table.fields 0) (.target ty t))
    (ha : startAlignment ty = some a) : a ∣ t := by
  obtain ⟨m, vs, E, hfin⟩ := h.finished .skeleton hfull fun _ _ _ _ => trivial
  rw [hfin.bytes] at hr
  rcases hr.known (by simp) hfin.small hfin.stored with ⟨-, hchain⟩ | ⟨v, E', hs, hsub⟩
  · rcases isRecord_or_isVariant_of_startAlignment ha with h' | h' <;>
      cases ty <;> simp_all [Place.ty, scalarChain, TypeRepr.isRecord, TypeRepr.isVariant]
  · refine hfin.events.aligned (fun x hx => ?_) t ty a (hsub (hs.start_mem ha)) ha
    obtain ⟨f, hf, hlast, hty⟩ := hfin.of_mem_values hx
    rw [← hty]
    exact hsafe f hf x.2 hlast

end Aligned

/-! ### Parts of a written value -/

/-- The pointers in `bytes` lead from the slot `p₀`, written with `v₀`, to `t`, where the part
`v` of `v₀` was written. -/
inductive Led (bytes : List UInt8) (ty₀ : TypeRepr) (v₀ : Value) (p₀ : Nat) :
    TypeRepr → Value → Nat → Prop
  | root : ty₀.isPointer = true → Led bytes ty₀ v₀ p₀ ty₀ v₀ (readU32 bytes p₀)
  | entry {el : TypeRepr} {items : List Value} {v : Value} {t i : Nat} :
    Led bytes ty₀ v₀ p₀ (.list el) (.list items) t → items[i]? = some v → el.isPointer = true →
    Led bytes ty₀ v₀ p₀ el v (readU32 bytes (t + 4 + i * 4))
  | field {s : Schema} {table : OffsetTable} {f : Field} {fo : FieldOffset} {vs : List Value}
      {v x : Value} {t i : Nat} :
    Led bytes ty₀ v₀ p₀ (.schema s) v t → offsetsFor s = .ok table → recordItems s v = some vs →
    s.fields[i]? = some f → table.fields[i]? = some fo → vs[i]? = some x → f.ty.isPointer = true →
    Led bytes ty₀ v₀ p₀ f.ty x (readU32 bytes (t + fo.offset))
  | payload {ty : TypeRepr} {sel : SelectedVariant} {p : SelectedVariantPayload} {v x : Value}
      {tag : UInt8} {t : Nat} :
    Led bytes ty₀ v₀ p₀ ty v t → variantSelectedPayload ty (bytes.getD t 0) = .ok sel →
    sel.payload = some p → VariantShape ty v tag (some (p.ty, x)) → p.ty.isPointer = true →
    Led bytes ty₀ v₀ p₀ p.ty x (readU32 bytes (payloadSlot t p.ty))

theorem lookup_insert_self (map : ValueMap) (k : String) (v : Value) :
    (map.insert k v).lookup k = some v := by
  induction map with
  | nil => simp [ValueMap.insert]
  | cons x map ih =>
    rw [ValueMap.insert]
    split
    · simp
    · split
      · simp
      · rename_i hne _
        rw [lookup_cons, beq_false_of_ne hne]
        exact ih

theorem lookup_insert_of_ne (map : ValueMap) {k k' : String} (v : Value) (h : k' ≠ k) :
    (map.insert k v).lookup k' = map.lookup k' := by
  induction map with
  | nil => simp [ValueMap.insert, h]
  | cons x map ih =>
    rw [ValueMap.insert]
    split
    · rename_i heq
      rw [lookup_cons, beq_false_of_ne h, lookup_cons, ← heq, beq_false_of_ne h]
    · split
      · rw [lookup_cons, beq_false_of_ne h]
      · rw [lookup_cons, ih, ← lookup_cons]

theorem lookup_insertAll_of_not_mem {names : List String} {k : String} (h : k ∉ names)
    (vs : List Value) (map : ValueMap) :
    ((names.zip vs).foldl (fun map (k, v) => ValueMap.insert map k v) map).lookup k =
      map.lookup k := by
  induction names generalizing vs map with
  | nil => simp
  | cons name names ih =>
    cases vs with
    | nil => simp
    | cons v vs =>
      rw [mem_cons, not_or] at h
      rw [zip_cons_cons, foldl_cons, ih h.2, lookup_insert_of_ne map v h.1]

theorem insertAll_injective {names : List String} (hn : names.Nodup) {vs ws : List Value}
    {map map' : ValueMap} (hv : vs.length = names.length) (hw : ws.length = names.length)
    (h : (names.zip vs).foldl (fun map (k, v) => ValueMap.insert map k v) map =
      (names.zip ws).foldl (fun map (k, v) => ValueMap.insert map k v) map') : vs = ws := by
  induction names generalizing vs ws map map' with
  | nil => rw [eq_nil_of_length_eq_zero hv, eq_nil_of_length_eq_zero hw]
  | cons name names ih =>
    obtain ⟨v, vs, rfl⟩ := exists_cons_of_length_eq_add_one hv
    obtain ⟨w, ws, rfl⟩ := exists_cons_of_length_eq_add_one hw
    rw [nodup_cons] at hn
    simp only [zip_cons_cons, foldl_cons] at h
    have hhead := congrArg (fun map : ValueMap => map.lookup name) h
    simp only [lookup_insertAll_of_not_mem hn.1, lookup_insert_self, Option.some.injEq] at hhead
    rw [hhead, ih hn.2 (by simpa using hv) (by simpa using hw) h]

theorem length_of_recordItems {s : Schema} {v : Value} {vs : List Value}
    (h : recordItems s v = some vs) : vs.length = s.fields.length := by
  have hmap : ∀ {fs : List Field} {map : ValueMap} {vs : List Value},
      fs.mapM (fun f => ValueMap.get map f.name) = some vs → vs.length = fs.length := by
    intro fs map
    induction fs with
    | nil => simp
    | cons f fs ih =>
      intro vs h
      simp only [mapM_cons, Option.bind_eq_bind, Option.bind_eq_some_iff, Option.pure_def,
        Option.some.injEq] at h
      obtain ⟨v, -, ws, hws, rfl⟩ := h
      simp [ih hws]
  unfold recordItems at h
  split at h
  · split at h
    · cases h
    · exact hmap h
  · split at h
    · rename_i hlen
      cases h
      simp only [Bool.and_eq_true, beq_iff_eq] at hlen
      exact hlen.2
    · cases h
  · cases h

theorem recordValue_injective {s : Schema} (hn : (s.fields.map Field.name).Nodup) {vs ws : List Value}
    (hv : vs.length = s.fields.length) (hw : ws.length = s.fields.length)
    (h : recordValue s vs = recordValue s ws) : vs = ws := by
  unfold recordValue at h
  split at h
  · exact Value.tuple.inj h
  · exact insertAll_injective hn (by simpa using hv) (by simpa using hw) (Value.dict.inj h).1

section Led
variable {m : Image} {lo hi p t : Nat} {ty ty₀ : TypeRepr} {v v₀ : Value} {E : List Event}
  {ps : List (TypeRepr × Nat)} {vs : List Value} {bytes : List UInt8}

theorem Stored.length_eq (h : Stored .plain m lo hi (.slots ps vs) E) : ps.length = vs.length := by
  induction ps generalizing vs E with
  | nil => cases h; rfl
  | cons x ps ih =>
    cases h with
    | inline _ _ _ hs => simp [ih hs]
    | pointer _ _ _ hs => simp [ih hs]

theorem Stored.pointed (h : Stored .plain m lo hi (.slots ps vs) E) (hb : hi < 2 ^ 32) {i : Nat}
    (hp : ps[i]? = some (ty, p)) (hv : vs[i]? = some v) (hty : ty.isPointer = true) :
    ∃ E', Stored .plain m lo hi (.target ty v (readU32 (render m) p)) E' := by
  induction ps generalizing vs E i with
  | nil => cases hp
  | cons x ps ih =>
    cases h with
    | inline hbs _ _ hs =>
      cases i with
      | zero =>
        cases hp
        exact absurd hty (not_isPointer_of_storedScalar hbs)
      | succ i => exact ih hs hp hv
    | pointer _ hw ht hs =>
      cases i with
      | zero =>
        cases hp
        cases hv
        have := ht.target_bounds
        rw [hw.readU32_eq (by omega)]
        exact ⟨_, ht⟩
      | succ i => exact ih hs hp hv

theorem getElem?_entrySlots {el : TypeRepr} {start n i : Nat} (h : i < n) :
    (entrySlots el start n)[i]? = some (el, start + i * 4) := by
  simp [entrySlots_eq_map, h]

theorem getElem?_recordSlots {fs : List Field} {fos : List FieldOffset} {f : Field} {fo : FieldOffset}
    {i : Nat} (hf : fs[i]? = some f) (hfo : fos[i]? = some fo) (base : Nat) :
    (recordSlots fs fos base)[i]? = some (f.ty, base + fo.offset) := by
  simp [recordSlots, getElem?_zipWith, hf, hfo]

theorem payload_eq_normalise {sel : SelectedVariant} {pl : SelectedVariantPayload} {pv x : Value}
    {tag : UInt8} {q : Nat} (hshape : VariantShape ty v tag (some (pl.ty, x)))
    (hv : variantWithPayload ty sel pl pv = .ok (normalise ty v))
    (hs : Stored .plain m lo hi (.slots [(pl.ty, q)] [pv]) E) : pv = normalise pl.ty x := by
  have hparts := hshape.parts_eq
  rw [normalise_eq, hparts, Option.toList_some, map_singleton] at hv
  generalize hty : pl.ty = pty at hshape hs hv
  cases hshape with
  | optionSome => simpa [variantWithPayload, assemble, Value.optionSome, Value.variantDict] using hv
  | resultOk =>
    simp only [variantWithPayload, assemble, Value.resultOk, Value.variantDict, if_true,
      Except.ok.injEq, Value.dict.injEq, cons.injEq, Prod.mk.injEq] at hv
    exact hv.1.1.2
  | resultErr =>
    simp only [variantWithPayload, assemble, Value.resultErr, Value.variantDict, Option.some.injEq,
      String.reduceEq, if_false, Except.ok.injEq, Value.dict.injEq, cons.injEq, Prod.mk.injEq] at hv
    exact hv.1.1.2
  | @enumPayload name _ variant s map _ hschema =>
    -- Both the stored payload and the normalised one are branded with the payload schema's name.
    obtain ⟨-, htuple⟩ := EnumVariant.payloadSchema_fields hschema
    obtain ⟨map', hmap'⟩ := normalise_record htuple (.dict map (some variant.name) (some name))
    cases hs with
    | inline hbs => cases hbs
    | pointer _ _ ht _ =>
      cases ht with
      | record =>
        simp only [recordValue, htuple, Value.brandedDict, variantWithPayload, hmap', assemble,
          Value.variantDict, Bool.false_eq_true, if_false, Except.ok.injEq, Value.dict.injEq] at hv ⊢
        exact ⟨hv.1, trivial, trivial⟩
      | variantUnit hsel => cases isVariant_of_selected hsel
      | variantPayload hsel => cases isVariant_of_selected hsel

theorem Led.isPointer (h : Led bytes ty₀ v₀ p ty v t) : ty₀.isPointer = true := by
  induction h with
  | root hty => exact hty
  | entry _ _ _ ih | field _ _ _ _ _ _ _ ih | payload _ _ _ _ _ ih => exact ih

theorem Led.stored (h : Led (render m) ty₀ v₀ p ty v t) (hb : hi < 2 ^ 32) {t₀ : Nat}
    (hp : readU32 (render m) p = t₀) (hE : Stored .plain m lo hi (.target ty₀ (normalise ty₀ v₀) t₀) E) :
    ∃ E', Stored .plain m lo hi (.target ty (normalise ty v) t) E' := by
  induction h with
  | root => exact ⟨E, hp ▸ hE⟩
  | @entry el items v t i _ hitem hel ih =>
    obtain ⟨E', hs⟩ := ih
    rw [normalise_list] at hs
    have hlt : i < items.length := (List.getElem?_eq_some_iff.mp hitem).1
    cases hs with
    | inlineList hin => exact absurd hel (not_isPointer_of_inlineElement hin)
    | ptrList _ _ _ _ _ _ hs =>
      exact hs.pointed hb (getElem?_entrySlots (by simpa using hlt)) (by simp [hitem]) hel
    | stopList hmode => exact absurd rfl hmode
    | variantUnit hsel => cases isVariant_of_selected hsel
    | variantPayload hsel => cases isVariant_of_selected hsel
  | @field s table f fo vs v x t i _ ht hvs hf hfo hx hty ih =>
    obtain ⟨E', hs⟩ := ih
    rw [normalise_schema hvs] at hs
    generalize hrec : recordValue s (fieldValues s.fields vs) = w at hs
    cases hs with
    | record hs hn _ _ hslots =>
      rw [ht] at hs
      cases hs
      have hlen := length_of_recordItems hvs
      have hslot := hslots.length_eq
      obtain ⟨last, hplaced, -⟩ := (offsetsFor_layout ht).placed
      rw [recordSlots, length_zipWith, ← hplaced.forall₂.length_eq, Nat.min_self] at hslot
      have hvalues := recordValue_injective hn (by simp [fieldValues, hlen]) hslot.symm hrec
      refine hslots.pointed hb (getElem?_recordSlots hf hfo t) ?_ hty
      rw [← hvalues, fieldValues, getElem?_zipWith, hf, hx]
    | variantUnit hsel => cases isVariant_of_selected hsel
    | variantPayload hsel => cases isVariant_of_selected hsel
  | @payload ty sel pl v x tag t _ hsel hpl hshape hty ih =>
    obtain ⟨E', hs⟩ := ih
    generalize hw : normalise ty v = w at hs
    cases hs with
    | variantUnit hsel' hnone _ hw =>
      rw [hw.getD_eq, hsel', Except.ok.injEq] at hsel
      rw [← hsel, hnone] at hpl
      cases hpl
    | variantPayload hsel' hsome hv hw' hs =>
      rw [hw'.getD_eq, hsel', Except.ok.injEq] at hsel
      subst hsel
      rw [hsome] at hpl
      cases hpl
      rw [← hw] at hv
      obtain rfl := payload_eq_normalise hshape hv hs
      exact hs.pointed hb (i := 0) rfl rfl hty
    | _ => cases isVariant_of_selected hsel

/-- An `Int` or `Float` list reads its items from the next multiple of 8 behind its header. -/
theorem Stored.wide_list {el : TypeRepr} {items : List Value} (hel : el = .int ∨ el = .float)
    (h : Stored .plain m lo hi (.target (.list el) (normalise (.list el) (.list items)) t) E) :
    ∃ start bss, 8 ∣ start ∧ t + 4 ≤ start ∧ start < t + 12 ∧
      slice (render m) t 4 = leBytes 4 items.length ∧
      Forall₂ (fun item bs => storedScalar el (normalise el item) = some bs) items bss ∧
      slice (render m) start bss.flatten.length = bss.flatten := by
  have hwide : inlineElement el = some (8, 8) := by rcases hel with rfl | rfl <;> rfl
  rw [normalise_list] at h
  cases h with
  | inlineList hin _ hhead hall hpay =>
    rw [hwide, Option.some.injEq, Prod.mk.injEq] at hin
    obtain ⟨rfl, rfl⟩ := hin
    have hheader := hhead.bytes.slice_eq
    rw [length_leBytes, length_map] at hheader
    exact ⟨_, _, dvd_alignUp (by omega), le_alignUp _ _, alignUp_lt (by omega), hheader,
      forall₂_map_left_iff.mp hall, hpay.bytes.slice_eq⟩
  | ptrList hptr => rcases hel with rfl | rfl <;> cases hptr
  | stopList hmode => exact absurd rfl hmode
  | variantUnit hsel => cases isVariant_of_selected hsel
  | variantPayload hsel => cases isVariant_of_selected hsel

end Led

/-- **Alignment.** Where every paste alignment suits what is below, each record and variant
record reached from the root is aligned. Each `Int` or `Float` list of a written value has its
payload bytes at a multiple of 8 behind its header, wherever the relocation walks have kept the
pointers that lead to it. -/
theorem Session.aligned {s : Schema} {table : OffsetTable}
    {writes : List (String × TypeRepr × Value)} {b : BufferBuilder} (h : Session s table writes b)
    (hfull : FullyWritten s writes)
    (hsafe : ∀ f ∈ s.fields, ∀ v, lastWrite f.name writes = some v → alignSafe f.ty v = true) :
    (∀ ty t a, Reach b.finish (recordSlots s.fields table.fields 0) (.target ty t) →
      startAlignment ty = some a → a ∣ t) ∧
    ∀ f fo v el items t, (f, fo) ∈ s.fields.zip table.fields → lastWrite f.name writes = some v →
      relocSafe false f.ty v = true →
      Led b.finish f.ty v fo.offset (.list el) (.list items) t → el = .int ∨ el = .float →
      ∃ start bss, 8 ∣ start ∧ t + 4 ≤ start ∧ start < t + 12 ∧
        slice b.finish t 4 = leBytes 4 items.length ∧
        Forall₂ (fun item bs => storedScalar el (normalise el item) = some bs) items bss ∧
        slice b.finish start bss.flatten.length = bss.flatten := by
  refine ⟨fun ty t a hr ha => h.starts_aligned hfull hsafe hr ha, ?_⟩
  intro f fo v el items t hmem hlast hreloc hled hel
  obtain ⟨m, σ, hinv, hset⟩ := h.filled .plain
  have hbytes : b.finish = render m := hinv.bytes
  have hsmall := h.small
  rw [hbytes] at hled hsmall ⊢
  rw [length_render] at hsmall
  obtain ⟨x, hx, rfl⟩ := hset f (of_mem_zip hmem).1 v hlast hreloc
  have hhi := (hinv.filled.range _ x hx).2
  have hheld := (hinv.filled.held f fo x hmem hx).1
  generalize x.events = events at hheld
  cases hheld with
  | inline hbs => exact absurd hled.isPointer (not_isPointer_of_storedScalar hbs)
  | pointer hty hptr ht =>
    obtain ⟨E', hs⟩ := hled.stored (by omega) (hptr.leNat_slice (by have := ht.target_bounds; omega)) ht
    exact hs.wide_list hel

/-! ### Misplaced records -/

def wideRecord : Schema :=
  { name := "B", generics := [], fields := [⟨"x", .int, none⟩], isTuple := false }

def wideValue : Value := .dict [("x", .int 1)] (some "B") none

/-- A record that only points to one. -/
def middleRecord : Schema :=
  { name := "A", generics := [], fields := [⟨"b", .schema wideRecord, none⟩], isTuple := false }

/-- A root with one pointer field `f`. -/
def pointerRoot (ty : TypeRepr) : Schema :=
  { name := "Root", generics := [], fields := [⟨"f", ty, none⟩], isTuple := false }

/-- The one slot of a record whose only field is a pointer. -/
def pointerTable (name : String) (tailAlign : Nat) : OffsetTable :=
  { fields := [⟨name, 0, 4, 4, .pointerIndirect tailAlign, none⟩], rootSize := 4, rootAlign := 4 }

theorem reach_nested_field {bytes : List UInt8} {s : Schema} {name : String} {ty : TypeRepr}
    {tailAlign tailAlign' : Nat} (hs : s.fields = [⟨name, ty, none⟩])
    (ht : offsetsFor s = .ok (pointerTable name tailAlign')) (hty : ty.isPointer = true) :
    Reach bytes (recordSlots (pointerRoot (.schema s)).fields (pointerTable "f" tailAlign).fields 0)
      (.target ty (readU32 bytes (readU32 bytes 0))) := by
  have hroot : (TypeRepr.schema s, 0) ∈
      recordSlots (pointerRoot (.schema s)).fields (pointerTable "f" tailAlign).fields 0 := by
    simp [recordSlots, pointerRoot, pointerTable]
  have hslot : Reach bytes _ (.slot (.schema s) 0) := .root hroot
  have hmem : (⟨name, ty, none⟩, ⟨name, 0, 4, 4, .pointerIndirect tailAlign', none⟩) ∈
      s.fields.zip (pointerTable name tailAlign').fields := by
    simp [hs, pointerTable]
  exact ((hslot.pointer rfl).field ht hmem).pointer hty

theorem middleRecord_layout :
    offsetsFor middleRecord = .ok (pointerTable "b" 8) ∧ startAlignment (.schema wideRecord) = some 8 ∧
      startAlignment (.option (.schema wideRecord)) = some 8 := by
  decide +kernel

/-- The record is pasted at 4 with the record below it at 8 of its own buffer. -/
theorem nested_record_misaligned : ∃ table b, Session (pointerRoot (.schema middleRecord)) table
        [("f", .schema middleRecord, .dict [("b", wideValue)] none none)] b ∧
      Reach b.finish (recordSlots (pointerRoot (.schema middleRecord)).fields table.fields 0)
        (.target (.schema wideRecord) 12) ∧
      startAlignment (.schema wideRecord) = some 8 ∧ ¬ 8 ∣ 12 := by
  obtain ⟨table, b, hs, -, hrun⟩ := session_of_run (pointerRoot (.schema middleRecord))
    [("f", .schema middleRecord, .dict [("b", wideValue)] none none)] (n := 20)
    (f := fun table b => (table, readU32 b.finish (readU32 b.finish 0)))
    (a := (pointerTable "f" 4, 12)) (by decide +kernel) (by decide +kernel) (by omega)
  obtain ⟨rfl, hread⟩ := Prod.mk.inj hrun
  refine ⟨_, b, hs, ?_, middleRecord_layout.2.1, by decide⟩
  rw [← hread]
  exact reach_nested_field rfl middleRecord_layout.1 rfl

/-- The layout aligns an optional record to the record; the writer puts it where its pointer
slot fits. -/
theorem variant_record_misaligned :
    ∃ table b, Session (pointerRoot (.option (.schema wideRecord))) table
        [("f", .option (.schema wideRecord), .optionSome wideValue)] b ∧
      Reach b.finish (recordSlots (pointerRoot (.option (.schema wideRecord))).fields table.fields 0)
        (.target (.option (.schema wideRecord)) 4) ∧
      startAlignment (.option (.schema wideRecord)) = some 8 ∧ ¬ 8 ∣ 4 := by
  obtain ⟨table, b, hs, -, hrun⟩ := session_of_run (pointerRoot (.option (.schema wideRecord)))
    [("f", .option (.schema wideRecord), .optionSome wideValue)] (n := 24)
    (f := fun table b => (table, readU32 b.finish 0)) (a := (pointerTable "f" 8, 4))
    (by decide +kernel) (by decide +kernel) (by omega)
  obtain ⟨rfl, hread⟩ := Prod.mk.inj hrun
  refine ⟨_, b, hs, ?_, middleRecord_layout.2.2, by decide⟩
  rw [← hread]
  exact .pointer (.root (by simp [recordSlots, pointerRoot, pointerTable])) rfl

/-- Alignment may hold by chance: an integer in the root moves the record to 16. -/
theorem misplaced_record_may_be_aligned : (runSession
        { name := "Root", generics := []
          fields := [⟨"i", .int, none⟩, ⟨"a", .schema middleRecord, none⟩], isTuple := false }
        [("i", .int, .int 7), ("a", .schema middleRecord, .dict [("b", wideValue)] none none)]).map
        (fun x => (readU32 x.2.finish 8, readU32 x.2.finish 16)) = some (16, 24) ∧
      alignSafe (.schema middleRecord) (.dict [("b", wideValue)] none none) = false := by
  decide +kernel

theorem nestedRecord_layout : ∃ table, offsetsFor nestedRecord = .ok table ∧
      table.fields[0]? = some ⟨"xs", 0, 4, 4, .pointerIndirect 4, some (.pointerArray 8)⟩ := by
  have h : (offsetsFor nestedRecord).toOption.map (fun table => table.fields[0]?) =
      some (some ⟨"xs", 0, 4, 4, .pointerIndirect 4, some (.pointerArray 8)⟩) := by
    decide +kernel
  simpa only [Option.map_eq_some_iff, toOption_eq_some] using h

/-- The record starts at a multiple of 4, and the two integers of its inner list stand at a
multiple of 8. -/
theorem Session.aligned_nested : ∃ table b fo t u start, Session nestedRoot table nestedWrites b ∧
      Reach b.finish (recordSlots nestedRoot.fields table.fields 0) (.target (.schema nestedRecord) t) ∧
      startAlignment (.schema nestedRecord) = some 4 ∧ 4 ∣ t ∧ fo ∈ table.fields ∧
      Led b.finish (.schema nestedRecord) (nestedValue (.int 3)) fo.offset (.list .int)
        (.list [.int 1, .int (-2)]) u ∧
      8 ∣ start ∧ u + 4 ≤ start ∧ slice b.finish start 16 = i64Bytes 1 ++ i64Bytes (-2) := by
  obtain ⟨-, -, -, hreloc, -, halign, hstart⟩ := nestedValue_facts
  obtain ⟨table, b, hs, -⟩ := nestedRoot_session
  obtain ⟨fo, hmem⟩ := exists_slot hs.layout (f := ⟨"r", .schema nestedRecord, none⟩) (by simp [nestedRoot])
  have hreach : Reach b.finish _ _ := .pointer (.root (mem_recordSlots hmem 0)) rfl
  have hsafe : ∀ f ∈ nestedRoot.fields, ∀ v, lastWrite f.name nestedWrites = some v →
      alignSafe f.ty v = true := by
    intro f hf v hv
    obtain ⟨hty, hlast⟩ := nestedWrites_last hf
    rw [hlast, Option.some.injEq] at hv
    rwa [hty, ← hv]
  obtain ⟨hrecord, hlist⟩ := hs.aligned nestedWrites_full hsafe
  obtain ⟨_, hinner, hxs⟩ := nestedRecord_layout
  have hitems : recordItems nestedRecord (nestedValue (.int 3)) = some
      [.list [.list [.int 1, .int (-2)], .list []], .optionSome (.string "é"),
        .tuple [.bool true, .int 3]] := rfl
  have hled : Led b.finish (.schema nestedRecord) (nestedValue (.int 3)) fo.offset (.list .int)
      (.list [.int 1, .int (-2)]) _ :=
    .entry (i := 0) (.field (i := 0) (f := ⟨"xs", .list (.list .int), none⟩) (.root rfl) hinner hitems
      rfl hxs rfl rfl) rfl rfl
  obtain ⟨start, bss, hdvd, hle, -, -, hall, hslice⟩ := hlist _ _ _ _ _ _ hmem rfl hreloc hled (.inl rfl)
  have hbss : bss = [i64Bytes 1, i64Bytes (-2)] := by
    simpa [forall₂_cons_left_iff, normalise_eq, assemble, storedScalar, eq_comm] using hall
  subst hbss
  exact ⟨table, b, fo, _, _, start, hs, hreach, hstart, hrecord _ _ 4 hreach hstart, (of_mem_zip hmem).2,
    hled, hdvd, hle, hslice⟩

end Relon.Abi
