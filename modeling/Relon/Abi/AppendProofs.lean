import Relon.Abi.Parts

/-! What appending to a buffer's tail does.

`Appended` says that an image was extended by the tail of a value: the value is
stored in the new part, and the old part is as it was. This module proves it for
the tails that hold no record: strings, inline lists and, given the same for
their elements, pointer arrays. -/
namespace Relon.Abi
open Bytes Reloc Relon.Except List

/-! ### Growing an image -/

/-- `m'` begins with `m`. -/
structure Extends (m m' : Image) : Prop where
  le : m.length ≤ m'.length
  same : SameOn m m' 0 m.length

theorem extends_append (m ext : Image) : Extends m (m ++ ext) :=
  ⟨by simp, fun i _ hi => List.getElem?_append_left hi⟩

theorem Extends.trans {a b c : Image} (h : Extends a b) (h' : Extends b c) : Extends a c :=
  ⟨Nat.le_trans h.le h'.le, fun i hlo hi => by
    rw [h'.same i hlo (Nat.lt_of_lt_of_le hi h.le), h.same i hlo hi]⟩

theorem Extends.sameOn {m m' : Image} {lo hi : Nat} (h : Extends m m') (hhi : hi ≤ m.length) :
    SameOn m m' lo hi :=
  fun i _ hi' => h.same i (Nat.zero_le i) (by omega)

theorem Extends.holds {m m' cells : Image} {p : Nat} (h : Extends m m') (hc : Holds m p cells)
    (hp : p + cells.length ≤ m.length) : Holds m' p cells :=
  h.same.holds hc (Nat.zero_le p) hp

/-- Zero cells up to the next multiple of `a`. -/
def padImage (m : Image) (a : Nat) : Image :=
  m ++ ofBytes (List.replicate (alignUp m.length a - m.length) 0)

theorem length_padImage (m : Image) (a : Nat) : (padImage m a).length = alignUp m.length a := by
  have := le_alignUp m.length a
  rw [padImage, length_append, length_ofBytes, length_replicate]
  omega

theorem extends_padImage (m : Image) (a : Nat) : Extends m (padImage m a) := extends_append m _

theorem le_length_padTo (bytes : List UInt8) (a : Nat) : bytes.length ≤ (padTo bytes a).length := by
  unfold padTo
  split
  · exact Nat.le_refl _
  · split
    · rw [length_append]
      omega
    · exact Nat.le_refl _

theorem padTo_render {m : Image} {a : Nat} (ha : IsAlign a) (h : (padTo (render m) a).length < 2 ^ 32) :
    padTo (render m) a = render (padImage m a) := by
  have hlt := alignUp_lt (n := m.length) ha.pos
  have hle := le_length_padTo (render m) a
  rw [length_render] at hle
  unfold padTo
  split
  · obtain rfl : a = 1 := by have := ha.pos; omega
    simp [padImage, alignUp_one, ofBytes]
  · have hbound : alignUp m.length a < usizeBound := by
      unfold usizeBound
      rcases ha with rfl | rfl | rfl <;> omega
    rw [checkedNextMultipleOf, length_render, if_pos hbound]
    simp [padImage]

/-! ### Events of a written value -/

/-- The walk passes no pointer by. -/
def NoStale (E : List Event) : Prop := ∀ p, Event.stale p ∉ E

theorem NoStale.append_iff {E E' : List Event} : NoStale (E ++ E') ↔ NoStale E ∧ NoStale E' := by
  simp [NoStale, not_or, forall_and]

/-- The starts among the events belong to the parts `xs`, and are aligned where the
parts are. In a skeleton, parts without a pointer passed by are safe. -/
structure EventsFor (mode : Mode) (xs : List (TypeRepr × Value)) (E : List Event) : Prop where
  starts : ∀ t ty a, Event.start t ty ∈ E → startAlignment ty = some a →
    ∃ x ∈ xs, a ∈ startsIn x.1 x.2
  aligned : (∀ x ∈ xs, alignSafe x.1 x.2 = true) →
    ∀ t ty a, Event.start t ty ∈ E → startAlignment ty = some a → a ∣ t
  covered : mode = .skeleton → NoStale E → ∀ x ∈ xs, relocSafe true x.1 x.2 = true

section Events
variable {mode : Mode} {xs ys : List (TypeRepr × Value)} {E E' : List Event} {ty : TypeRepr} {v : Value}

theorem eventsFor_of_no_start (h : ∀ t ty, Event.start t ty ∉ E)
    (hs : NoStale E → ∀ x ∈ xs, relocSafe true x.1 x.2 = true) : EventsFor mode xs E :=
  ⟨fun t ty _ hmem => absurd hmem (h t ty), fun _ t ty _ hmem => absurd hmem (h t ty), fun _ => hs⟩

theorem eventsFor_nil : EventsFor mode [] [] := eventsFor_of_no_start (by simp) (by simp)

/-- A value without parts of its own has no events. -/
theorem eventsFor_leaf (h : relocSafe true ty v = true) : EventsFor mode [(ty, v)] [] :=
  eventsFor_of_no_start (by simp) fun _ => by simpa using h

theorem EventsFor.append (h : EventsFor mode xs E) (h' : EventsFor mode ys E') :
    EventsFor mode (xs ++ ys) (E ++ E') := by
  refine ⟨fun t ty a hmem ha => ?_, fun hsafe t ty a hmem ha => ?_, fun hmode hno x hx => ?_⟩
  · rcases mem_append.mp hmem with hmem | hmem
    · obtain ⟨x, hx, hax⟩ := h.starts t ty a hmem ha
      exact ⟨x, mem_append_left ys hx, hax⟩
    · obtain ⟨x, hx, hax⟩ := h'.starts t ty a hmem ha
      exact ⟨x, mem_append_right xs hx, hax⟩
  · rcases mem_append.mp hmem with hmem | hmem
    · exact h.aligned (fun x hx => hsafe x (mem_append_left ys hx)) t ty a hmem ha
    · exact h'.aligned (fun x hx => hsafe x (mem_append_right xs hx)) t ty a hmem ha
  · rw [NoStale.append_iff] at hno
    rcases mem_append.mp hx with hx | hx
    · exact h.covered hmode hno.1 x hx
    · exact h'.covered hmode hno.2 x hx

theorem EventsFor.slot (h : EventsFor mode xs E) (p : Nat) : EventsFor mode xs (.slot p :: E) :=
  ⟨fun t ty a hmem => h.starts t ty a (by simpa using hmem),
    fun hsafe t ty a hmem => h.aligned hsafe t ty a (by simpa using hmem),
    fun hmode hno => h.covered hmode fun q hq => hno q (mem_cons_of_mem _ hq)⟩

/-- A value without a start of its own has the starts of its parts. -/
theorem EventsFor.of_parts (h : EventsFor mode (parts ty v) E)
    (ha : mode = .skeleton → NoStale E → arrayStops ty v = false) : EventsFor mode [(ty, v)] E := by
  refine ⟨fun t ty' a hmem ha => ?_, fun hsafe => h.aligned ?_, fun hmode hno x hx => ?_⟩
  · obtain ⟨x, hx, hax⟩ := h.starts t ty' a hmem ha
    exact ⟨(ty, v), by simp, mem_startsIn.mpr (.inr ⟨x, hx, hax⟩)⟩
  · exact (alignSafe_iff.mp (hsafe (ty, v) (by simp))).2
  · rw [mem_singleton] at hx
    subst hx
    exact relocSafe_iff.mpr ⟨fun _ => ha hmode hno, h.covered hmode hno⟩

theorem EventsFor.start (h : EventsFor mode (parts ty v) E) {t : Nat}
    (ht : ∀ a, startAlignment ty = some a → alignSafe ty v = true → a ∣ t)
    (ha : arrayStops ty v = false) : EventsFor mode [(ty, v)] (.start t ty :: E) := by
  have hparts := h.of_parts fun _ _ => ha
  refine ⟨fun t' ty' a hmem ha => ?_, fun hsafe t' ty' a hmem ha => ?_, fun hmode hno => ?_⟩
  · rcases mem_cons.mp hmem with heq | hmem
    · cases heq
      exact ⟨(ty, v), by simp, mem_startsIn.mpr (.inl ha)⟩
    · exact hparts.starts t' ty' a hmem ha
  · rcases mem_cons.mp hmem with heq | hmem
    · cases heq
      exact ht a ha (hsafe (ty, v) (by simp))
    · exact hparts.aligned hsafe t' ty' a hmem ha
  · exact hparts.covered hmode fun q hq => hno q (mem_cons_of_mem _ hq)

end Events

/-! ### Appended tails -/

/-- The relocation hypothesis a mode needs on a written value. -/
def Mode.Safe : Mode → TypeRepr → Value → Prop
  | .plain, ty, v => relocSafe false ty v = true
  | .deep, ty, v => relocSafe true ty v = true
  | .skeleton, _, _ => True

/-- The tail of `v` was appended to `m`, giving `m'`, and stands at `off`. -/
structure Appended (mode : Mode) (m m' : Image) (ty : TypeRepr) (v : Value) (off : Nat)
    (E : List Event) : Prop where
  grown : Extends m m'
  stored : Stored mode m' m.length m'.length (.target ty (normalise ty v) off) E
  nodup : (pointersOf E).Nodup
  events : EventsFor mode [(ty, v)] E

/-- What a function that appends the tail of a `ty` has to do. -/
structure AppendSpec (mode : Mode) (ty : TypeRepr)
    (append : List UInt8 → Value → Except BufferError (List UInt8 × Nat)) : Prop where
  grows : ∀ bytes v bytes' off, append bytes v = .ok (bytes', off) → bytes.length ≤ bytes'.length
  appended : ∀ m v bytes' off, append (render m) v = .ok (bytes', off) → bytes'.length < 2 ^ 32 →
    mode.Safe ty v → ∃ m' E, bytes' = render m' ∧ Appended mode m m' ty v off E

/-! ### Strings and inline lists -/

variable {mode : Mode} {m : Image} {bytes' payload : List UInt8} {i off : Nat} {el : TypeRepr}

theorem appendString_spec {s : String}
    (h : appendTailRecord (render m) 4 (utf8Bytes s).length (utf8Bytes s) = (bytes', off))
    (hlt : bytes'.length < 2 ^ 32) :
    ∃ m' E, bytes' = render m' ∧ Appended mode m m' .string (.string s) off E := by
  rw [appendTailRecord] at h
  cases h
  simp only [length_append, length_leBytes] at hlt
  rw [padTo_render (.inr (.inl rfl)) (by omega)]
  refine ⟨padImage m 4 ++ ofBytes (leBytes 4 (utf8Bytes s).length ++ utf8Bytes s), [], by simp, ?_⟩
  refine ⟨(extends_padImage m 4).trans (extends_append _ _), ?_, by simp [pointersOf],
    eventsFor_leaf (relocSafe_of_parts_nil rfl rfl)⟩
  have hnorm : normalise .string (.string s) = .string s := by
    simp [normalise_eq, assemble]
  rw [hnorm]
  refine .string (by omega) ⟨?_, ?_, ?_⟩
  · rw [length_render]
    exact holds_append_right _ _
  · rw [length_render, length_padImage]
    exact le_alignUp _ _
  · simp

theorem normalise_list (el : TypeRepr) (items : List Value) :
    normalise (.list el) (.list items) = .list (items.map (normalise el)) := by
  rw [normalise_eq, parts, map_map]
  rfl

theorem parts_list (el : TypeRepr) (items : List Value) :
    parts (.list el) (.list items) = items.map fun item => (el, item) := rfl

theorem storedScalar_of_scalarBytes {v : Value} {bs : List UInt8} (h : scalarBytes el v = some bs) :
    storedScalar el (normalise el v) = some bs := by
  unfold scalarBytes at h
  split at h <;> cases h <;> simp [normalise_eq, assemble, storedScalar]

theorem scalarPayload_spec {items : List Value} (h : scalarPayload el i items = .ok payload) :
    ∃ bss, payload = bss.flatten ∧ List.Forall₂ (fun v bs => storedScalar el v = some bs)
      (items.map (normalise el)) bss := by
  induction items generalizing i payload with
  | nil =>
    cases h
    exact ⟨[], rfl, .nil⟩
  | cons it rest ih =>
    rw [scalarPayload] at h
    cases hbs : scalarBytes el it with
    | none => simp [hbs] at h
    | some bs =>
      simp only [hbs, bind_eq_ok, pure_eq_iff] at h
      obtain ⟨tail, htail, rfl⟩ := h
      obtain ⟨bss, rfl, hall⟩ := ih htail
      exact ⟨bs :: bss, rfl, .cons (storedScalar_of_scalarBytes hbs) hall⟩

theorem relocSafe_inlineList {x : Nat × Nat} (h : inlineElement el = some x) (items : List Value) :
    relocSafe true (.list el) (.list items) = true := by
  have hel := not_isPointer_of_inlineElement h
  refine relocSafe_iff.mpr ⟨fun _ => ?_, fun y hy => ?_⟩
  · cases el <;> simp_all [arrayStops, stopsAt, inlineElement]
  · obtain ⟨item, -, rfl⟩ := mem_map.mp (parts_list el items ▸ hy)
    exact relocSafe_of_not_isPointer (by simpa using hel)

/-- The payload of an inline list is padded to `inner`; a reader recovers its start from
the element's own alignment. -/
theorem appendInlineList_spec {size align inner : Nat} {items : List Value}
    (hel : inlineElement el = some (size, align)) (hinner : inner = max 4 align)
    (hlen : items.length < 2 ^ 32) (hpay : scalarPayload el i items = .ok payload)
    (h : appendTailRecordWithInnerAlignment (render m) 4 inner items.length payload = (bytes', off))
    (hlt : bytes'.length < 2 ^ 32) :
    ∃ m' E, bytes' = render m' ∧ Appended mode m m' (.list el) (.list items) off E := by
  obtain ⟨bss, rfl, hall⟩ := scalarPayload_spec hpay
  have halign : (align = 8 ∧ inner = 8) ∨ (align = 1 ∧ inner = 4) := by
    cases el <;> simp [inlineElement] at hel <;> omega
  have hia : IsAlign inner := by
    rcases halign with h | h <;> rw [h.2] <;> simp [IsAlign]
  have hgrow := le_length_padTo (padTo (render m) 4 ++ leBytes 4 items.length) inner
  rw [appendTailRecordWithInnerAlignment, if_pos (by omega)] at h
  cases h
  simp only [length_append, length_leBytes] at hlt hgrow
  have hhead : padTo (render m) 4 ++ leBytes 4 items.length =
      render (padImage m 4 ++ ofBytes (leBytes 4 items.length)) := by
    rw [padTo_render (.inr (.inl rfl)) (by omega), render_append, render_ofBytes]
  have hoff : (padTo (render m) 4).length = (padImage m 4).length := by
    rw [padTo_render (.inr (.inl rfl)) (by omega), length_render]
  rw [hhead] at hlt ⊢
  rw [padTo_render hia (by omega), hoff]
  have hheaded := extends_append (padImage m 4) (ofBytes (leBytes 4 items.length))
  have hheld := holds_append_right (padImage m 4) (ofBytes (leBytes 4 items.length))
  have hlength : (padImage m 4 ++ ofBytes (leBytes 4 items.length)).length = (padImage m 4).length + 4 := by
    simp
  generalize padImage m 4 ++ ofBytes (leBytes 4 items.length) = headed at hheaded hheld hlength
  have hstart : (padImage headed inner).length = alignUp ((padImage m 4).length + 4) align := by
    rw [length_padImage, hlength]
    rcases halign with ⟨rfl, rfl⟩ | ⟨rfl, rfl⟩
    · rfl
    · have : 4 ∣ (padImage m 4).length := by
        rw [length_padImage]
        exact dvd_alignUp (by omega)
      rw [alignUp_one, alignUp_of_dvd (by omega)]
  have hpadded := (extends_padImage headed inner).trans (extends_append _ (ofBytes bss.flatten))
  refine ⟨padImage headed inner ++ ofBytes bss.flatten, [], by simp, ?_⟩
  refine ⟨((extends_padImage m 4).trans hheaded).trans hpadded, ?_, by simp [pointersOf],
    eventsFor_leaf (relocSafe_inlineList hel items)⟩
  have hlo : m.length ≤ (padImage m 4).length := (extends_padImage m 4).le
  have hhi := hpadded.le
  rw [normalise_list]
  refine .inlineList hel (by simpa using hlen) ?_ hall ?_
  · rw [length_map]
    exact ⟨hpadded.holds hheld (by simp [hlength]), hlo, by rw [length_leBytes]; omega⟩
  · rw [← hstart]
    exact ⟨holds_append_right _ _, by have := hpadded.le; have := (extends_padImage headed inner).le; omega,
      by simp⟩

/-! ### Pointer arrays -/

/-- The items of an array were appended one after the other, from `c` up to the last
index, at the given offsets. -/
inductive Emitted (mode : Mode) (m : Image) (el : TypeRepr) : Nat → List Value → List Nat → Nat → Prop
  | nil {c : Nat} : Emitted mode m el c [] [] c
  | cons {c c' c'' : Nat} {v : Value} {t : Nat} {E : List Event} {vs : List Value} {ts : List Nat} :
    Stored mode m c c' (.target el (normalise el v) t) E → (pointersOf E).Nodup →
    EventsFor mode [(el, v)] E → Emitted mode m el c' vs ts c'' →
    Emitted mode m el c (v :: vs) (t :: ts) c''

section Emitted
variable {mode : Mode} {m : Image} {el : TypeRepr} {c c' : Nat} {vs : List Value} {ts : List Nat}

theorem Emitted.le (h : Emitted mode m el c vs ts c') : c ≤ c' := by
  induction h with
  | nil => exact Nat.le_refl _
  | cons hs _ _ _ ih =>
    have := hs.target_bounds
    omega

theorem Emitted.length_eq (h : Emitted mode m el c vs ts c') : ts.length = vs.length := by
  induction h with
  | nil => rfl
  | cons _ _ _ _ ih => simp [ih]

theorem Emitted.frame {M : Image} (h : Emitted mode m el c vs ts c') (hs : SameOn m M c c') :
    Emitted mode M el c vs ts c' := by
  induction h with
  | nil => exact .nil
  | cons hst hn he hrest ih =>
    have hle := hrest.le
    have hb := hst.target_bounds
    exact .cons (hst.frame fun i hlo hhi => hs i hlo (by omega)) hn he
      (ih fun i hlo hhi => hs i (by omega) hhi)

end Emitted

variable {emit : List UInt8 → Nat → Value → Except BufferError (List UInt8 × Nat)} {i : Nat}
  {ts : List Nat}

theorem emitItems_grows
    (hemit : ∀ bytes i v bytes' off, emit bytes i v = .ok (bytes', off) → bytes.length ≤ bytes'.length)
    {bytes bytes' : List UInt8} {items : List Value}
    (h : emitItems emit bytes i items = .ok (bytes', ts)) : bytes.length ≤ bytes'.length := by
  induction items generalizing bytes i ts with
  | nil =>
    cases h
    exact Nat.le_refl _
  | cons v items ih =>
    simp only [emitItems, bind_eq_ok, pure_eq_iff, Prod.mk.injEq] at h
    obtain ⟨⟨bytes₁, t⟩, hfirst, ⟨bytes₂, ts'⟩, hrest, rfl, -⟩ := h
    exact Nat.le_trans (hemit _ _ _ _ _ hfirst) (ih hrest)

theorem emitItems_spec {mode : Mode} {el : TypeRepr}
    (hemit : ∀ i, AppendSpec mode el fun bytes v => emit bytes i v) {m : Image}
    {bytes' : List UInt8} {items : List Value}
    (h : emitItems emit (render m) i items = .ok (bytes', ts)) (hlt : bytes'.length < 2 ^ 32)
    (hsafe : ∀ v ∈ items, mode.Safe el v) :
    ∃ m', bytes' = render m' ∧ Extends m m' ∧ Emitted mode m' el m.length items ts m'.length := by
  induction items generalizing m i ts bytes' with
  | nil =>
    cases h
    exact ⟨m, rfl, ⟨Nat.le_refl _, fun _ _ _ => rfl⟩, .nil⟩
  | cons v items ih =>
    simp only [emitItems, bind_eq_ok, pure_eq_iff, Prod.mk.injEq] at h
    obtain ⟨⟨bytes₁, t⟩, hfirst, ⟨bytes₂, ts'⟩, hrest, rfl, rfl⟩ := h
    have hgrow : bytes₁.length ≤ bytes₂.length :=
      emitItems_grows (fun bytes i => (hemit i).grows bytes) hrest
    simp only at hlt hrest
    obtain ⟨m₁, E, rfl, happ⟩ := (hemit i).appended m v _ t hfirst (by omega) (hsafe v (by simp))
    obtain ⟨m', rfl, hext, hem⟩ := ih hrest hlt fun w hw => hsafe w (mem_cons_of_mem v hw)
    refine ⟨m', rfl, happ.grown.trans hext, .cons (happ.stored.frame ?_) happ.nodup happ.events hem⟩
    exact hext.sameOn (Nat.le_refl _)

/-- Overwrite consecutive entries by pointers. -/
def setEntries : Image → Nat → List Nat → Image
  | m, _, [] => m
  | m, dst, t :: ts => setEntries (patch m dst (pointer t)) (dst + 4) ts

theorem le_length_writeEntries (bytes : List UInt8) (dst : Nat) (ts : List Nat) :
    bytes.length ≤ (writeEntries bytes dst ts).length := by
  induction ts generalizing bytes dst with
  | nil => exact Nat.le_refl _
  | cons t ts ih => exact Nat.le_trans (le_length_patch _ _ _) (ih _ _)

theorem writeEntries_render (m : Image) (dst : Nat) (ts : List Nat) :
    writeEntries (render m) dst ts = render (setEntries m dst ts) := by
  induction ts generalizing m dst with
  | nil => rfl
  | cons t ts ih => rw [writeEntries, setEntries, writeU32, ← render_pointer, ← render_patch, ih]

theorem setEntries_spec {m : Image} {dst : Nat} {ts : List Nat} (h : dst + ts.length * 4 ≤ m.length) :
    (setEntries m dst ts).length = m.length ∧
      (∀ i, i < dst ∨ dst + ts.length * 4 ≤ i → (setEntries m dst ts)[i]? = m[i]?) ∧
      ∀ k t, ts[k]? = some t → PtrAt (setEntries m dst ts) (dst + k * 4) t := by
  induction ts generalizing m dst with
  | nil => exact ⟨rfl, fun _ _ => rfl, by simp⟩
  | cons t ts ih =>
    rw [length_cons] at h ⊢
    have hpatch : (patch m dst (pointer t)).length = m.length := length_patch (by simp; omega)
    obtain ⟨hlen, hsame, hptr⟩ := @ih (patch m dst (pointer t)) (dst + 4) (by rw [hpatch]; omega)
    rw [setEntries]
    refine ⟨hlen.trans hpatch, fun i hi => ?_, fun k t' hk => ?_⟩
    · rw [hsame i (by omega), getElem?_patch_of_disjoint (by simp; omega) (by simp; omega)]
    · cases k with
      | zero =>
        rw [List.getElem?_cons_zero] at hk
        cases hk
        refine Holds.congr (holds_patch (by omega)) fun i hlo hhi => hsame i (.inl ?_)
        simp only [length_pointer] at hhi
        omega
      | succ k =>
        have := hptr k t' hk
        rwa [show dst + (k + 1) * 4 = dst + 4 + k * 4 by omega]

/-- The events of an array: its entries, and what they lead to. -/
structure ArrayEvents (mode : Mode) (dst n c c' : Nat) (xs : List (TypeRepr × Value)) (E : List Event) : Prop where
  bounds : ∀ p ∈ pointersOf E, (dst ≤ p ∧ p < dst + n * 4) ∨ (c ≤ p ∧ p < c')
  nodup : (pointersOf E).Nodup
  events : EventsFor mode xs E

theorem ArrayEvents.cons {mode : Mode} {dst n c c' c'' : Nat} {xs ys : List (TypeRepr × Value)} {E E' : List Event}
    (hb : ∀ p ∈ pointersOf E, c ≤ p ∧ p + 4 ≤ c') (hn : (pointersOf E).Nodup)
    (he : EventsFor mode xs E)
    (h : ArrayEvents mode (dst + 4) n c' c'' ys E') (hc : c ≤ c') (hdst : dst + (n + 1) * 4 ≤ c) (hc' : c' ≤ c'') :
    ArrayEvents mode dst (n + 1) c c'' (xs ++ ys) (.slot dst :: E ++ E') := by
  have hnot : dst ∉ pointersOf E := fun hp => by have := hb dst hp; omega
  have hnot' : dst ∉ pointersOf E' := fun hp => by have := h.bounds dst hp; omega
  refine ⟨fun p hp => ?_, ?_, (he.slot dst).append h.events⟩
  · simp only [pointersOf, pointersOf_append, cons_append, mem_cons, mem_append] at hp
    rcases hp with rfl | hp | hp
    · omega
    · have := hb p hp
      omega
    · have := h.bounds p hp
      omega
  · simp only [pointersOf, pointersOf_append, cons_append, nodup_cons, nodup_append,
      mem_append, not_or]
    refine ⟨⟨hnot, hnot'⟩, hn, h.nodup, fun p hp q hq => ?_⟩
    have := hb p hp
    have := h.bounds q hq
    omega

section Arrays
variable {mode : Mode} {m : Image} {el : TypeRepr} {c c' lo hi dst : Nat} {vs : List Value}
  {ts : List Nat}

/-- The first entry of an array of pointers, and the array of the others. -/
theorem ptrAt_cons {t : Nat} (hptr : ∀ k t', (t :: ts)[k]? = some t' → PtrAt m (dst + k * 4) t') :
    PtrAt m dst t ∧ ∀ k t', ts[k]? = some t' → PtrAt m (dst + 4 + k * 4) t' := by
  refine ⟨by simpa using hptr 0 t rfl, fun k t' hk => ?_⟩
  have := hptr (k + 1) t' hk
  rwa [show dst + (k + 1) * 4 = dst + 4 + k * 4 by omega] at this

/-- Entries that point at the emitted items store them. -/
theorem Emitted.slots (h : Emitted mode m el c vs ts c') (hel : el.isPointer = true)
    (hptr : ∀ k t, ts[k]? = some t → PtrAt m (dst + k * 4) t) (hlo : lo ≤ dst)
    (hdst : dst + vs.length * 4 ≤ c) (hhi : c' ≤ hi) :
    ∃ E, Stored mode m lo hi (.slots (entrySlots el dst vs.length) (vs.map (normalise el))) E ∧
      ArrayEvents mode dst vs.length c c' (vs.map fun v => (el, v)) E := by
  induction h generalizing dst with
  | nil => exact ⟨[], .nil, by simp [pointersOf], by simp [pointersOf], eventsFor_nil⟩
  | @cons c c' c'' v t E vs ts hs hn he hrest ih =>
    have hle := hrest.le
    have hb := hs.target_bounds
    rw [length_cons] at hdst
    obtain ⟨hfirst, hothers⟩ := ptrAt_cons hptr
    obtain ⟨E', hE', hev⟩ := ih hothers (by omega) (by omega) hhi
    refine ⟨.slot dst :: E ++ E', ?_, ArrayEvents.cons hs.pointers_bounds hn he hev (by omega) hdst hle⟩
    exact .pointer hel ⟨hfirst, hlo, by omega⟩ (hs.widen (by omega) (by omega)) hE'

variable {ws : List Value} {E : List Event} {n : Nat} {inner : TypeRepr}

/-- The entries of a stored pointer list are pointers. -/
theorem Stored.entries (hel : el.isPointer = true)
    (h : Stored mode m lo hi (.slots (entrySlots el dst n) ws) E) :
    ∀ i < n, ∃ u ≤ hi, PtrWindow m lo hi (dst + i * 4) u := by
  induction n generalizing dst ws E with
  | zero => simp
  | succ n ih =>
    cases h with
    | inline hbs => exact absurd hel (not_isPointer_of_storedScalar hbs)
    | @pointer _ _ t _ _ _ _ _ _ hw ht hs =>
      intro i hi'
      cases i with
      | zero => exact ⟨t, ht.target_bounds.2, by simpa using hw⟩
      | succ i =>
        obtain ⟨u, hu, hptr⟩ := ih hs i (by omega)
        exact ⟨u, hu, by rwa [show dst + (i + 1) * 4 = dst + 4 + i * 4 by omega]⟩

theorem Stored.stop_entries (h : Stored mode m lo hi (.stops (entrySlots el dst n) ws) E) :
    ∀ i < n, ∃ u ≤ hi, PtrWindow m lo hi (dst + i * 4) u := by
  induction n generalizing dst ws E with
  | zero => simp
  | succ n ih =>
    cases h with
    | @stopsCons _ _ t _ _ _ _ _ _ hw _ hhead _ _ hs =>
      intro i hi'
      cases i with
      | zero => exact ⟨t, Nat.le_of_add_right_le hhead.le_hi, by simpa using hw⟩
      | succ i =>
        obtain ⟨u, hu, hptr⟩ := ih hs i (by omega)
        exact ⟨u, hu, by rwa [show dst + (i + 1) * 4 = dst + 4 + i * 4 by omega]⟩

/-- A stored list of pointers: header and entries. -/
theorem Stored.list_entries {w : Value} {t : Nat}
    (h : Stored mode m lo hi (.target (.list inner) w t) E) (hinner : inner.isPointer = true) :
    ∃ xs, w = .list xs ∧ xs.length < 2 ^ 32 ∧ Window m lo hi t (leBytes 4 xs.length) ∧
      ∀ i < xs.length, ∃ u ≤ hi, PtrWindow m lo hi (t + 4 + i * 4) u := by
  cases h with
  | inlineList hel => exact absurd hinner (not_isPointer_of_inlineElement hel)
  | ptrList hel _ hlen hw _ _ hs => exact ⟨_, rfl, hlen, hw, hs.entries hel⟩
  | stopList _ _ _ hlen hw _ hs => exact ⟨_, rfl, hlen, hw, hs.stop_entries⟩
  | variantUnit hsel => cases isVariant_of_selected hsel
  | variantPayload hsel => cases isVariant_of_selected hsel

theorem nodup_staleSlots (start n : Nat) : (pointersOf (staleSlots start n)).Nodup := by
  induction n generalizing start with
  | zero => exact .nil
  | succ n ih =>
    rw [staleSlots, pointersOf, nodup_cons, mem_pointersOf_staleSlots]
    refine ⟨?_, ih _⟩
    rintro ⟨i, -, hi⟩
    omega

theorem not_start_mem_staleSlots (start n t : Nat) (ty : TypeRepr) :
    Event.start t ty ∉ staleSlots start n := by
  induction n generalizing start with
  | zero => simp [staleSlots]
  | succ n ih => simp [staleSlots, ih]

theorem noStale_staleSlots {start : Nat} {xs : List Value} (h : NoStale (staleSlots start xs.length)) :
    xs = [] := by
  cases xs with
  | nil => rfl
  | cons x xs => exact absurd (by simp [staleSlots]) (h start)

theorem eq_nil_of_normalise_list {v : Value} (h : normalise (.list inner) v = .list []) :
    v = .list [] := by
  cases v with
  | list items =>
    rw [normalise_list] at h
    simpa using h
  | _ => simp [normalise_eq, assemble] at h

theorem Emitted.stops (h : Emitted mode m el c vs ts c') (hstop : stopsAt el = true)
    (hlay : Layoutable el) (hdeep : mode = .deep → ∀ v ∈ vs, v = .list [])
    (hptr : ∀ k t, ts[k]? = some t → PtrAt m (dst + k * 4) t) (hlo : lo ≤ dst)
    (hdst : dst + vs.length * 4 ≤ c) (hhi : c' ≤ hi) :
    ∃ E, Stored mode m lo hi (.stops (entrySlots el dst vs.length) (vs.map (normalise el))) E ∧
      ArrayEvents mode dst vs.length c c' (vs.map fun v => (el, v)) E ∧
      (NoStale E → ∀ v ∈ vs, v = .list []) := by
  induction h generalizing dst with
  | nil =>
    exact ⟨[], .stopsNil, ⟨by simp [pointersOf], by simp [pointersOf], eventsFor_nil⟩, by simp⟩
  | @cons c c' c'' v t E vs ts hs hn he hrest ih =>
    have hle := hrest.le
    have hb := hs.target_bounds
    rw [length_cons] at hdst
    obtain ⟨hfirst, hothers⟩ := ptrAt_cons hptr
    obtain ⟨E', hE', hev, hnone⟩ := ih
      (fun hmode w hw => hdeep hmode w (mem_cons_of_mem v hw)) hothers (by omega) (by omega) hhi
    cases el with
    | list inner =>
      have hinner := hstop
      simp only [stopsAt, Bool.and_eq_true] at hinner
      obtain ⟨xs, hxs, hlen, hhead, hentries⟩ := hs.list_entries hinner.1
      have hempty : mode = .deep → xs = [] := by
        intro hmode
        rw [hdeep hmode v (by simp), normalise_list] at hxs
        simpa using hxs.symm
      have hstale : ∀ p ∈ pointersOf (staleSlots (t + 4) xs.length), c ≤ p ∧ p + 4 ≤ c' := by
        intro p hp
        obtain ⟨i, hi', rfl⟩ := mem_pointersOf_staleSlots.mp hp
        obtain ⟨u, -, hw⟩ := hentries i hi'
        exact ⟨hw.lo_le, hw.le_hi⟩
      have hnil : NoStale (staleSlots (t + 4) xs.length) → v = .list [] := fun hno =>
        eq_nil_of_normalise_list (hxs.trans (by rw [noStale_staleSlots hno]))
      have hitem : EventsFor mode [(.list inner, v)] (staleSlots (t + 4) xs.length) := by
        refine eventsFor_of_no_start (not_start_mem_staleSlots _ _) fun hno => ?_
        rw [forall_mem_singleton, hnil hno]
        exact relocSafe_of_parts_nil rfl (by simp [arrayStops])
      refine ⟨.slot dst :: staleSlots (t + 4) xs.length ++ E', ?_,
        ArrayEvents.cons hstale (nodup_staleSlots _ _) hitem hev (by omega) hdst hle, fun hno w hw => ?_⟩
      rotate_left
      · rw [cons_append, ← singleton_append, NoStale.append_iff, NoStale.append_iff] at hno
        rcases mem_cons.mp hw with rfl | hw
        · exact hnil hno.2.1
        · exact hnone hno.2.2 w hw
      rw [map_cons, hxs]
      refine .stopsCons hstop hlay ⟨hfirst, hlo, by omega⟩ hlen (hhead.widen (by omega) (by omega)) hempty
        ?_ hE'
      intro i hi'
      obtain ⟨u, hu, hw⟩ := hentries i hi'
      exact ⟨u, by omega, hw.widen (by omega) (by omega)⟩
    | _ => simp [stopsAt] at hstop

end Arrays

theorem Mode.Safe.items {mode : Mode} {el : TypeRepr} {items : List Value}
    (h : mode.Safe (.list el) (.list items)) : ∀ v ∈ items, mode.Safe el v := by
  intro v hv
  cases mode with
  | skeleton => trivial
  | plain | deep =>
    exact (relocSafe_iff.mp h).2 (el, v) (by rw [parts_list]; exact mem_map_of_mem hv)

theorem Mode.Safe.empty {mode : Mode} {el : TypeRepr} {items : List Value}
    (h : mode.Safe (.list el) (.list items)) (hstop : stopsAt el = true) (hmode : mode = .deep) :
    ∀ v ∈ items, v = .list [] := by
  subst hmode
  have := (relocSafe_iff.mp h).1 rfl
  simpa [arrayStops, hstop] using this

theorem appendPointerArray_spec {mode : Mode} {el : TypeRepr}
    {emit : List UInt8 → Nat → Value → Except BufferError (List UInt8 × Nat)}
    (hemit : ∀ i, AppendSpec mode el fun bytes v => emit bytes i v) (hel : el.isPointer = true)
    (hlay : Layoutable el) {m : Image} {items : List Value} {bytes' : List UInt8} {off : Nat}
    (hlen : items.length < 2 ^ 32) (h : appendPointerArray (render m) items emit = .ok (bytes', off))
    (hlt : bytes'.length < 2 ^ 32) (hsafe : mode.Safe (.list el) (.list items)) :
    ∃ m' E, bytes' = render m' ∧ Appended mode m m' (.list el) (.list items) off E := by
  simp only [appendPointerArray, bind_eq_ok, pure_eq_iff, Prod.mk.injEq] at h
  obtain ⟨⟨bytes₁, ts⟩, hrun, rfl, rfl⟩ := h
  simp only at hlt hrun ⊢
  have hgrow := emitItems_grows (fun bytes i => (hemit i).grows bytes) hrun
  have hgrow' := le_length_writeEntries bytes₁ ((padTo (render m) 4 ++ leBytes 4 items.length).length) ts
  simp only [length_append, length_leBytes, length_replicate] at hgrow hgrow' hlt ⊢
  have hpad := padTo_render (m := m) (a := 4) (.inr (.inl rfl)) (by omega)
  have hb₁ : bytes₁.length < 2 ^ 32 := by omega
  rw [hpad, length_render] at hlt ⊢
  have hm₀ := extends_padImage m 4
  have hm₁ : padTo (render m) 4 ++ leBytes 4 items.length ++ List.replicate (items.length * 4) 0 =
      render (padImage m 4 ++ ofBytes (leBytes 4 items.length) ++
        ofBytes (List.replicate (items.length * 4) 0)) := by
    simp [hpad]
  rw [hm₁] at hrun
  obtain ⟨m₂, rfl, hm₂, hem⟩ := emitItems_spec hemit hrun hb₁ hsafe.items
  have hhead := (extends_append (padImage m 4 ++ ofBytes (leBytes 4 items.length))
    (ofBytes (List.replicate (items.length * 4) 0))).trans hm₂
  have hm₀₂ := (extends_append (padImage m 4) (ofBytes (leBytes 4 items.length))).trans hhead
  have hheld := hhead.holds (holds_append_right (padImage m 4) (ofBytes (leBytes 4 items.length))) (by simp)
  have hle₂ := hm₂.le
  simp only [length_append, length_ofBytes, length_leBytes, length_replicate] at hem hle₂
  have hts := hem.length_eq
  obtain ⟨hlen₃, hsame, hptr⟩ := @setEntries_spec m₂ ((padImage m 4).length + 4) ts (by omega)
  rw [writeEntries_render]
  generalize setEntries m₂ ((padImage m 4).length + 4) ts = m₃ at *
  have hem₃ : Emitted mode m₃ el ((padImage m 4).length + 4 + items.length * 4) items ts m₃.length := by
    rw [hlen₃]
    exact hem.frame fun i hlo _ => hsame i (.inr (by omega))
  have hgrown : Extends m m₃ := by
    have hle := hm₀.le
    refine ⟨by omega, fun i hlo hi => ?_⟩
    rw [hsame i (.inl (by omega)), (hm₀.trans hm₀₂).same i hlo hi]
  have hwindow : Window m₃ m.length m₃.length (padImage m 4).length (leBytes 4 items.length) := by
    refine ⟨Holds.congr hheld fun i _ hi => hsame i (.inl ?_), hm₀.le, ?_⟩
    · simp only [length_ofBytes, length_leBytes] at hi
      omega
    · rw [length_leBytes]
      omega
  have hend : (padImage m 4).length + 4 + (items.map (normalise el)).length * 4 ≤ m₃.length := by
    rw [length_map]
    omega
  have hlo : m.length ≤ (padImage m 4).length + 4 := by have := hm₀.le; omega
  have hlen' : (items.map (normalise el)).length < 2 ^ 32 := by rwa [length_map]
  rw [← length_map (f := normalise el)] at hwindow
  by_cases hcase : mode = .plain ∨ stopsAt el = false
  · obtain ⟨E, hE, hev⟩ := hem₃.slots hel hptr hlo (Nat.le_refl _) (Nat.le_refl _)
    rw [← length_map (f := normalise el)] at hE
    refine ⟨m₃, E, rfl, hgrown, ?_, hev.nodup, EventsFor.of_parts hev.events fun hmode _ => ?_⟩
    · rw [normalise_list]
      exact .ptrList hel hlay hlen' hwindow hend hcase hE
    · have hstop := hcase.resolve_left (by simp [hmode])
      simp [arrayStops, hstop]
  · rw [not_or, Bool.not_eq_false] at hcase
    obtain ⟨E, hE, hev, hnone⟩ := hem₃.stops hcase.2 hlay (hsafe.empty hcase.2) hptr hlo (Nat.le_refl _)
      (Nat.le_refl _)
    rw [← length_map (f := normalise el)] at hE
    refine ⟨m₃, E, rfl, hgrown, ?_, hev.nodup, EventsFor.of_parts hev.events fun _ hno => ?_⟩
    · rw [normalise_list]
      exact .stopList hcase.1 hcase.2 hlay hlen' hwindow hend hE
    · simpa [arrayStops, hcase.2] using hnone hno

end Relon.Abi
