import Relon.Lib.Image
import Relon.Abi.Builder
import Relon.Abi.Reader
import Relon.Abi.LayoutProofs

/-! Values in an image.

`Stored mode m lo hi item E` says that an image holds a value: at a target (the
place a pointer leads to) or in a list of slots. Everything it reads lies in
`[lo, hi)`, so it survives any change elsewhere. `E` lists what a walk over the
value meets: the pointer slots, and where each record and variant record starts.
The value is the one a reader gives back.

A pointer is known by its target and not by the bytes it is written with, so
pasting a buffer into another at a multiple of its alignment moves everything in
it together: that is `Stored.transport`. -/
namespace Relon.Abi
open Bytes Reloc List

/-- The bytes `bs` stand at `p`, inside `[lo, hi)`. -/
structure Window (m : Image) (lo hi p : Nat) (bs : List UInt8) : Prop where
  bytes : BytesAt m p bs
  lo_le : lo ≤ p
  le_hi : p + bs.length ≤ hi

/-- A pointer to `t` stands at `p`, inside `[lo, hi)`. -/
structure PtrWindow (m : Image) (lo hi p t : Nat) : Prop where
  ptr : PtrAt m p t
  lo_le : lo ≤ p
  le_hi : p + 4 ≤ hi

/-- What a walk over a stored value meets. -/
inductive Event where
  /-- a pointer slot -/
  | slot (p : Nat)
  /-- a pointer slot the relocation walk passes by -/
  | stale (p : Nat)
  /-- the start of a record or a variant record of this type -/
  | start (t : Nat) (ty : TypeRepr)

def Event.shift (q : Nat) : Event → Event
  | .slot p => .slot (p + q)
  | .stale p => .stale (p + q)
  | .start t ty => .start (t + q) ty

/-- The pointer slots the relocation walk visits. -/
def slotsOf : List Event → List Nat
  | [] => []
  | .slot p :: rest => p :: slotsOf rest
  | .stale _ :: rest | .start .. :: rest => slotsOf rest

/-- The pointer slots, visited or not. -/
def pointersOf : List Event → List Nat
  | [] => []
  | .slot p :: rest | .stale p :: rest => p :: pointersOf rest
  | .start .. :: rest => pointersOf rest

/-- Where a stored value sits. -/
inductive Item where
  /-- `v`, of type `ty`, at the place a pointer leads to -/
  | target (ty : TypeRepr) (v : Value) (t : Nat)
  /-- a value in each of the typed slots -/
  | slots (ps : List (TypeRepr × Nat)) (vs : List Value)
  /-- array entries of this type that the relocation walk does not look behind -/
  | stops (ps : List (TypeRepr × Nat)) (vs : List Value)

def shiftSlots (q : Nat) (ps : List (TypeRepr × Nat)) : List (TypeRepr × Nat) :=
  ps.map fun (ty, p) => (ty, p + q)

def Item.shift (q : Nat) : Item → Item
  | .target ty v t => .target ty v (t + q)
  | .slots ps vs => .slots (shiftSlots q ps) vs
  | .stops ps vs => .stops (shiftSlots q ps) vs

/-- The value of a record from its fields' values. -/
def recordValue (s : Schema) (vs : List Value) : Value :=
  if s.isTuple then .tuple vs
  else .brandedDict
    (((s.fields.map Field.name).zip vs).foldl (fun map (k, v) => ValueMap.insert map k v) [])
    (some s.name)

/-- The slots of a record at `base`. -/
def recordSlots (fields : List Field) (fos : List FieldOffset) (base : Nat) :
    List (TypeRepr × Nat) :=
  List.zipWith (fun f fo => (f.ty, base + fo.offset)) fields fos

/-- The entry slots of a pointer array. -/
def entrySlots (el : TypeRepr) (start : Nat) : Nat → List (TypeRepr × Nat)
  | 0 => []
  | n + 1 => (el, start) :: entrySlots el (start + 4) n

/-- The payload slot of a variant record at `t`. -/
def payloadSlot (t : Nat) (ty : TypeRepr) : Nat := alignUp (t + 1) (payloadSlotLayoutRuntime ty).2

/-- The size of a slot. -/
def slotSize (ty : TypeRepr) : Nat := (payloadSlotLayoutRuntime ty).1

variable {el ty : TypeRepr} {v : Value} {x : TypeRepr × Nat} {m : Image} {n p hi lo start : Nat}
  {E : List Event}

theorem slotSize_pointer (h : ty.isPointer = true) : slotSize ty = 4 := by
  cases ty <;> simp_all [listPayloadIsPointerArray, slotSize, payloadSlotLayoutRuntime]

/-- The bytes of a decoded scalar. A unit slot has none that matter. -/
def storedScalar : TypeRepr → Value → Option (List UInt8)
  | .int, .int v => some (i64Bytes v)
  | .float, .float v => some (f64Bytes v)
  | .bool, .bool v => some [if v then 1 else 0]
  | .unit, v => if v = .optionNone then some [] else none
  | _, _ => none

theorem not_isPointer_of_storedScalar {bs : List UInt8} (h : storedScalar ty v = some bs) :
    ¬ ty.isPointer = true := by
  cases ty <;> simp_all [storedScalar, listPayloadIsPointerArray]

theorem not_isPointer_of_inlineElement {x : Nat × Nat} (h : inlineElement el = some x) :
    ¬ el.isPointer = true := by
  cases el <;> simp_all [inlineElement, listPayloadIsPointerArray]

/-- A list type that bottoms out in inline scalars. -/
def scalarChain : TypeRepr → Bool
  | .int | .float | .bool => true
  | .list e => scalarChain e
  | _ => false

/-- The relocation walk over a pointer array stops at elements of this type: lists
nested twice or deeper over inline scalars have no descriptor. -/
def stopsAt : TypeRepr → Bool
  | .list inner => inner.isPointer && scalarChain inner
  | _ => false

theorem isPointer_of_stopsAt (h : stopsAt ty = true) : ty.isPointer = true := by
  cases ty <;> simp_all [stopsAt, listPayloadIsPointerArray]

/-- How much of a value the relocation walk has to cover. -/
inductive Mode where
  /-- nothing is asked: the value is where it was first written -/
  | plain
  /-- the walk meets every pointer slot -/
  | deep
  /-- pointers the walk passes by may be stale, and nothing is known of what they lead to -/
  | skeleton
  deriving DecidableEq

/-- The slots of an array's entries, as they stand in the image. -/
def staleSlots (start : Nat) : Nat → List Event
  | 0 => []
  | n + 1 => .stale start :: staleSlots (start + 4) n

inductive Stored (mode : Mode) (m : Image) (lo hi : Nat) : Item → List Event → Prop
  | string {s : String} {t : Nat} :
    (utf8Bytes s).length < 2 ^ 32 →
    Window m lo hi t (leBytes 4 (utf8Bytes s).length ++ utf8Bytes s) →
    Stored mode m lo hi (.target .string (.string s) t) []
  | inlineList {el : TypeRepr} {size align : Nat} {vs : List Value} {bss : List (List UInt8)} {t : Nat} :
    inlineElement el = some (size, align) → vs.length < 2 ^ 32 →
    Window m lo hi t (leBytes 4 vs.length) →
    List.Forall₂ (fun v bs => storedScalar el v = some bs) vs bss →
    Window m lo hi (alignUp (t + 4) align) bss.flatten →
    Stored mode m lo hi (.target (.list el) (.list vs) t) []
  | ptrList {el : TypeRepr} {vs : List Value} {t : Nat} {E : List Event} :
    el.isPointer = true → Layoutable el → vs.length < 2 ^ 32 →
    Window m lo hi t (leBytes 4 vs.length) → t + 4 + vs.length * 4 ≤ hi →
    (mode = .plain ∨ stopsAt el = false) →
    Stored mode m lo hi (.slots (entrySlots el (t + 4) vs.length) vs) E →
    Stored mode m lo hi (.target (.list el) (.list vs) t) E
  | stopList {el : TypeRepr} {vs : List Value} {t : Nat} {E : List Event} :
    mode ≠ .plain → stopsAt el = true → Layoutable el → vs.length < 2 ^ 32 →
    Window m lo hi t (leBytes 4 vs.length) → t + 4 + vs.length * 4 ≤ hi →
    Stored mode m lo hi (.stops (entrySlots el (t + 4) vs.length) vs) E →
    Stored mode m lo hi (.target (.list el) (.list vs) t) E
  | record {s : Schema} {table : OffsetTable} {vs : List Value} {t : Nat} {E : List Event} :
    offsetsFor s = .ok table → (s.fields.map Field.name).Nodup →
    lo ≤ t → t + table.rootSize ≤ hi →
    Stored mode m lo hi (.slots (recordSlots s.fields table.fields t) vs) E →
    Stored mode m lo hi (.target (.schema s) (recordValue s vs) t) (.start t (.schema s) :: E)
  | variantUnit {ty : TypeRepr} {tag : UInt8} {sel : SelectedVariant} {v : Value} {t : Nat} :
    variantSelectedPayload ty tag = .ok sel → sel.payload = none →
    variantWithoutPayload ty sel = .ok v →
    Window m lo hi t [tag] →
    Stored mode m lo hi (.target ty v t) [.start t ty]
  | variantPayload {ty : TypeRepr} {tag : UInt8} {sel : SelectedVariant} {p : SelectedVariantPayload}
      {pv v : Value} {t : Nat} {E : List Event} :
    variantSelectedPayload ty tag = .ok sel → sel.payload = some p →
    variantWithPayload ty sel p pv = .ok v →
    Window m lo hi t [tag] →
    Stored mode m lo hi (.slots [(p.ty, payloadSlot t p.ty)] [pv]) E →
    Stored mode m lo hi (.target ty v t) (.start t ty :: E)
  | nil : Stored mode m lo hi (.slots [] []) []
  | inline {ty : TypeRepr} {p : Nat} {v : Value} {bs : List UInt8} {ps : List (TypeRepr × Nat)}
      {vs : List Value} {E : List Event} :
    storedScalar ty v = some bs → Window m lo hi p bs →
    p + (payloadSlotLayoutRuntime ty).1 ≤ hi →
    Stored mode m lo hi (.slots ps vs) E →
    Stored mode m lo hi (.slots ((ty, p) :: ps) (v :: vs)) E
  | pointer {ty : TypeRepr} {p t : Nat} {v : Value} {ps : List (TypeRepr × Nat)} {vs : List Value}
      {E E' : List Event} :
    ty.isPointer = true → PtrWindow m lo hi p t →
    Stored mode m lo hi (.target ty v t) E →
    Stored mode m lo hi (.slots ps vs) E' →
    Stored mode m lo hi (.slots ((ty, p) :: ps) (v :: vs)) (.slot p :: E ++ E')
  | stopsNil : Stored mode m lo hi (.stops [] []) []
  | stopsCons {ty : TypeRepr} {p t : Nat} {xs : List Value} {ps : List (TypeRepr × Nat)}
      {vs : List Value} {E : List Event} :
    stopsAt ty = true → Layoutable ty → PtrWindow m lo hi p t → xs.length < 2 ^ 32 →
    Window m lo hi t (leBytes 4 xs.length) → (mode = .deep → xs = []) →
    (∀ i < xs.length, ∃ u ≤ hi, PtrWindow m lo hi (t + 4 + i * 4) u) →
    Stored mode m lo hi (.stops ps vs) E →
    Stored mode m lo hi (.stops ((ty, p) :: ps) (.list xs :: vs))
      (.slot p :: staleSlots (t + 4) xs.length ++ E)

/-- A target lies in the range. -/
theorem Stored.target_bounds {mode : Mode} {t : Nat} (h : Stored mode m lo hi (.target ty v t) E) :
    lo ≤ t ∧ t ≤ hi := by
  cases h with
  | string _ hw => exact ⟨hw.lo_le, Nat.le_of_add_right_le hw.le_hi⟩
  | inlineList _ _ hw _ _ => exact ⟨hw.lo_le, Nat.le_of_add_right_le hw.le_hi⟩
  | ptrList _ _ _ hw _ _ _ => exact ⟨hw.lo_le, Nat.le_of_add_right_le hw.le_hi⟩
  | stopList _ _ _ _ hw _ _ => exact ⟨hw.lo_le, Nat.le_of_add_right_le hw.le_hi⟩
  | record _ _ hlo hhi _ => exact ⟨hlo, Nat.le_of_add_right_le hhi⟩
  | variantUnit _ _ _ hw => exact ⟨hw.lo_le, Nat.le_of_add_right_le hw.le_hi⟩
  | variantPayload _ _ _ hw _ => exact ⟨hw.lo_le, Nat.le_of_add_right_le hw.le_hi⟩

/-- Array entries are slots like any other. -/
def Item.plain : Item → Item
  | .stops ps vs => .slots ps vs
  | item => item

theorem Stored.of_deep {item : Item} (h : Stored .deep m lo hi item E) :
    Stored .plain m lo hi item.plain E := by
  induction h with
  | string hlen hw => exact .string hlen hw
  | inlineList hel hlen hw hall hp => exact .inlineList hel hlen hw hall hp
  | ptrList hel hlay hlen hw hend _ _ ih => exact .ptrList hel hlay hlen hw hend (.inl rfl) ih
  | stopList _ hstop hlay hlen hw hend _ ih =>
    exact .ptrList (isPointer_of_stopsAt hstop) hlay hlen hw hend (.inl rfl) ih
  | record hs hn hlo hhi _ ih => exact .record hs hn hlo hhi ih
  | variantUnit hsel hp hv hw => exact .variantUnit hsel hp hv hw
  | variantPayload hsel hp hv hw _ ih => exact .variantPayload hsel hp hv hw ih
  | nil => exact .nil
  | inline hbs hw hsize _ ih => exact .inline hbs hw hsize ih
  | pointer hty hw _ _ iht ihs => exact .pointer hty hw iht ihs
  | stopsNil => exact .nil
  | @stopsCons ty p t xs ps vs E hstop hlay hw hlen hhead hempty _ _ ih =>
    obtain rfl := hempty rfl
    cases ty with
    | list inner =>
      simp only [stopsAt, Bool.and_eq_true] at hstop
      have htarget : Stored .plain m lo hi (.target (.list inner) (.list []) t) [] :=
        .ptrList hstop.1 (layoutable_element hlay) hlen hhead
          (by have := hhead.le_hi; simpa using this) (.inl rfl) .nil
      exact .pointer rfl hw htarget ih
    | _ => simp [stopsAt] at hstop

/-! ### Moving an image -/

/-- The tail alignment an item's recovery of payload positions relies on. -/
def Item.AlignDvd (q : Nat) : Item → Prop
  | .target ty _ _ => typeGraphAlign ty ∣ q
  | .slots ps _ => ∀ x ∈ ps, typeGraphAlign x.1 ∣ q
  | .stops .. => True

theorem shiftSlots_entrySlots (q : Nat) (el : TypeRepr) (start n : Nat) :
    shiftSlots q (entrySlots el start n) = entrySlots el (start + q) n := by
  induction n generalizing start with
  | zero => rfl
  | succ n ih =>
    have := ih (start + 4)
    simp only [shiftSlots] at this
    simp only [entrySlots, shiftSlots, map_cons, this]
    rw [show start + 4 + q = start + q + 4 by omega]

theorem shiftSlots_recordSlots (q : Nat) (fields : List Field) (fos : List FieldOffset) (base : Nat) :
    shiftSlots q (recordSlots fields fos base) = recordSlots fields fos (base + q) := by
  simp only [shiftSlots, recordSlots, map_zipWith]
  congr 1
  funext f fo
  rw [Prod.mk.injEq]
  exact ⟨rfl, by omega⟩

theorem entrySlots_mem (h : x ∈ entrySlots el start n) : x.1 = el := by
  induction n generalizing start with
  | zero => cases h
  | succ n ih =>
    rcases mem_cons.mp h with rfl | h
    · rfl
    · exact ih h

theorem recordSlots_mem {fields : List Field} {fos : List FieldOffset} {base : Nat}
    (h : x ∈ recordSlots fields fos base) : ∃ f ∈ fields, x.1 = f.ty := by
  induction fields generalizing fos with
  | nil => cases h
  | cons f fields ih =>
    cases fos with
    | nil => cases h
    | cons fo fos =>
      rcases mem_cons.mp h with rfl | h
      · exact ⟨f, by simp, rfl⟩
      · obtain ⟨g, hg, hx⟩ := ih h
        exact ⟨g, mem_cons_of_mem f hg, hx⟩

theorem staleSlots_shift (start n q : Nat) :
    (staleSlots start n).map (Event.shift q) = staleSlots (start + q) n := by
  induction n generalizing start with
  | zero => rfl
  | succ n ih =>
    rw [staleSlots, map_cons, ih, staleSlots, Event.shift, show start + 4 + q = start + q + 4 by omega]

theorem mem_slotsOf : p ∈ slotsOf E ↔ .slot p ∈ E := by
  induction E with
  | nil => simp [slotsOf]
  | cons e E ih => cases e <;> simp [slotsOf, ih]

theorem mem_pointersOf : p ∈ pointersOf E ↔ .slot p ∈ E ∨ .stale p ∈ E := by
  induction E with
  | nil => simp [pointersOf]
  | cons e E ih => cases e <;> simp [pointersOf, ih, or_assoc, or_left_comm]

/-- A slot is visited or passed by, not both. -/
theorem not_mem_slotsOf_of_stale (hn : (pointersOf E).Nodup) (h : .stale p ∈ E) :
    p ∉ slotsOf E := by
  induction E with
  | nil => cases h
  | cons e E ih =>
    cases e with
    | slot q =>
      rw [pointersOf, nodup_cons] at hn
      have h' : Event.stale p ∈ E := by simpa using h
      rw [slotsOf, mem_cons, not_or]
      exact ⟨fun hpq => hn.1 (hpq ▸ mem_pointersOf.mpr (.inr h')), ih hn.2 h'⟩
    | stale q =>
      rw [pointersOf, nodup_cons] at hn
      rw [slotsOf]
      rcases mem_cons.mp h with heq | h'
      · cases heq
        exact fun hp => hn.1 (mem_pointersOf.mpr (.inl (mem_slotsOf.mp hp)))
      · exact ih hn.2 h'
    | start t ty => exact ih hn (by simpa using h)

@[simp] theorem slotsOf_append (E E' : List Event) : slotsOf (E ++ E') = slotsOf E ++ slotsOf E' := by
  induction E with
  | nil => rfl
  | cons e E ih => cases e <;> simp [slotsOf, ih]

@[simp] theorem slotsOf_staleSlots (start n : Nat) : slotsOf (staleSlots start n) = [] := by
  induction n generalizing start with
  | zero => rfl
  | succ n ih => exact ih _

@[simp] theorem pointersOf_append (E E' : List Event) :
    pointersOf (E ++ E') = pointersOf E ++ pointersOf E' := by
  induction E with
  | nil => rfl
  | cons e E ih => cases e <;> simp [pointersOf, ih]

@[simp] theorem pointersOf_shift (q : Nat) (E : List Event) :
    pointersOf (E.map (Event.shift q)) = (pointersOf E).map (· + q) := by
  induction E with
  | nil => rfl
  | cons e E ih => cases e <;> simp [pointersOf, Event.shift, ih]

theorem mem_pointersOf_staleSlots :
    p ∈ pointersOf (staleSlots start n) ↔ ∃ i < n, p = start + i * 4 := by
  induction n generalizing start with
  | zero => simp [staleSlots, pointersOf]
  | succ n ih =>
    rw [staleSlots, pointersOf, mem_cons, ih]
    constructor
    · rintro (rfl | ⟨i, hi, rfl⟩)
      · exact ⟨0, by omega, by omega⟩
      · exact ⟨i + 1, by omega, by omega⟩
    · rintro ⟨i, hi, rfl⟩
      cases i with
      | zero => exact .inl (by omega)
      | succ i => exact .inr ⟨i, by omega, by omega⟩

theorem slotsOf_sublist (E : List Event) : (slotsOf E).Sublist (pointersOf E) := by
  induction E with
  | nil => exact .slnil
  | cons e E ih =>
    cases e with
    | slot p => exact ih.cons_cons p
    | stale p => exact ih.cons p
    | start t ty => exact ih

/-- `M` holds `m`'s cells in `[lo, hi)` `q` further on. The pointers the walk visits are
moved along; those it passes by are still there, but may lead to the old place. -/
structure Moved (m M : Image) (lo hi q : Nat) (E : List Event) : Prop where
  byte : ∀ i b, lo ≤ i → i < hi → m[i]? = some (.byte b) → M[i + q]? = some (.byte b)
  ptr : ∀ p t, p ∈ slotsOf E → PtrAt m p t → PtrAt M (p + q) (t + q)
  stale : ∀ p t, p ∈ pointersOf E → PtrAt m p t → ∃ t' ≤ t + q, PtrAt M (p + q) t'

section Moved
variable {m M : Image} {lo hi q : Nat} {E : List Event}

theorem Moved.mono {E' : List Event} (h : Moved m M lo hi q E) (hs : ∀ p ∈ slotsOf E', p ∈ slotsOf E)
    (hp : ∀ p ∈ pointersOf E', p ∈ pointersOf E) : Moved m M lo hi q E' :=
  ⟨h.byte, fun p t hmem => h.ptr p t (hs p hmem), fun p t hmem => h.stale p t (hp p hmem)⟩

theorem Moved.window (h : Moved m M lo hi q E) {p : Nat} {bs : List UInt8} (w : Window m lo hi p bs) :
    Window M (lo + q) (hi + q) (p + q) bs := by
  refine ⟨?_, by have := w.lo_le; omega, by have := w.le_hi; omega⟩
  intro k c hc
  have hm := w.bytes k c hc
  have hk : k < bs.length := by
    have := (List.getElem?_eq_some_iff.mp hc).1
    simpa using this
  rw [ofBytes, List.getElem?_map, Option.map_eq_some_iff] at hc
  obtain ⟨b, -, rfl⟩ := hc
  have hlo := w.lo_le
  have hhi := w.le_hi
  have := h.byte (p + k) b (by omega) (by omega) hm
  rwa [show p + q + k = p + k + q by omega]

theorem Moved.ptrWindow (h : Moved m M lo hi q E) {p t : Nat} (hp : p ∈ slotsOf E)
    (w : PtrWindow m lo hi p t) : PtrWindow M (lo + q) (hi + q) (p + q) (t + q) :=
  ⟨h.ptr p t hp w.ptr, by have := w.lo_le; omega, by have := w.le_hi; omega⟩

theorem Moved.staleWindow (h : Moved m M lo hi q E) {p t : Nat} (hp : p ∈ pointersOf E)
    (ht : t ≤ hi) (w : PtrWindow m lo hi p t) :
    ∃ t' ≤ hi + q, PtrWindow M (lo + q) (hi + q) (p + q) t' := by
  obtain ⟨t', ht', hptr⟩ := h.stale p t hp w.ptr
  exact ⟨t', by omega, hptr, by have := w.lo_le; omega, by have := w.le_hi; omega⟩

end Moved

variable {q hi lo : Nat} {mode : Mode} {m : Image} {item : Item} {E : List Event}

theorem payloadSlot_shift (t : Nat) {ty : TypeRepr} (h : (payloadSlotLayoutRuntime ty).2 ∣ q) :
    payloadSlot (t + q) ty = payloadSlot t ty + q := by
  rw [payloadSlot, payloadSlot, ← alignUp_add_of_dvd _ h, show t + q + 1 = t + 1 + q by omega]

theorem inlineElement_typeGraphAlign {el : TypeRepr} {size align : Nat}
    (h : inlineElement el = some (size, align)) : typeGraphAlign (.list el) = align := by
  cases el <;> simp only [inlineElement, Option.some.injEq, Prod.mk.injEq, reduceCtorEq] at h <;>
    obtain ⟨-, rfl⟩ := h <;> simp [typeGraphAlign]

/-- **Transport.** A stored value keeps its meaning wherever its cells are moved
together, as long as the distance is a multiple of its tail alignment. -/
theorem Stored.transport {m M : Image} (h : Stored mode m lo hi item E) (hm : Moved m M lo hi q E)
    (hq : item.AlignDvd q) :
    Stored mode M (lo + q) (hi + q) (item.shift q) (E.map (Event.shift q)) := by
  induction h with
  | string hlen hw => exact .string hlen (hm.window hw)
  | @inlineList el size align vs bss t hel hlen hw hall hp =>
    have hdvd : align ∣ q := inlineElement_typeGraphAlign hel ▸ hq
    have hpos : alignUp (t + q + 4) align = alignUp (t + 4) align + q := by
      rw [show t + q + 4 = t + 4 + q by omega, alignUp_add_of_dvd _ hdvd]
    exact .inlineList hel hlen (hm.window hw) hall (hpos ▸ hm.window hp)
  | @ptrList el vs t E hel hlay hlen hw hend hstop _ ih =>
    refine .ptrList hel hlay hlen (hm.window hw) (by omega) hstop ?_
    have hslots : ∀ x ∈ entrySlots el (t + 4) vs.length, typeGraphAlign x.1 ∣ q := by
      intro x hx
      rw [entrySlots_mem hx, ← typeGraphAlign_list hel]
      exact hq
    have := ih hm hslots
    rw [Item.shift, shiftSlots_entrySlots, show t + 4 + q = t + q + 4 by omega] at this
    exact this
  | @stopList el vs t E hmode hstop hlay hlen hw hend _ ih =>
    refine .stopList hmode hstop hlay hlen (hm.window hw) (by omega) ?_
    have := ih hm trivial
    rw [Item.shift, shiftSlots_entrySlots, show t + 4 + q = t + q + 4 by omega] at this
    exact this
  | @record s table vs t E hs hn hlo hhi _ ih =>
    refine .record hs hn (by omega) (by omega) ?_
    have hslots : ∀ x ∈ recordSlots s.fields table.fields t, typeGraphAlign x.1 ∣ q := by
      intro x hx
      obtain ⟨f, hf, hx⟩ := recordSlots_mem hx
      rw [hx]
      exact Nat.dvd_trans (typeGraphAlign_field_dvd hf) hq
    have := ih ⟨hm.byte, hm.ptr, hm.stale⟩ hslots
    rw [Item.shift, shiftSlots_recordSlots] at this
    exact this
  | variantUnit hsel hp hv hw => exact .variantUnit hsel hp hv (hm.window hw)
  | @variantPayload ty tag sel p pv v t E hsel hp hv hw _ ih =>
    obtain ⟨ps, hps, hmem⟩ := selectedPayload_mem hsel hp
    obtain ⟨hslot, hgraph⟩ := typeGraphAlign_payload_dvd hps hmem
    refine .variantPayload hsel hp hv (hm.window hw) ?_
    have hslots : ∀ x ∈ [(p.ty, payloadSlot t p.ty)], typeGraphAlign x.1 ∣ q := by
      intro x hx
      rw [mem_singleton.mp hx]
      exact Nat.dvd_trans hgraph hq
    have := ih ⟨hm.byte, hm.ptr, hm.stale⟩ hslots
    rw [Item.shift, shiftSlots, map_singleton] at this
    rw [payloadSlot_shift t (Nat.dvd_trans hslot hq)]
    exact this
  | nil => exact .nil
  | inline hbs hw hsize _ ih =>
    exact .inline hbs (hm.window hw) (by omega) (ih hm fun x hx => hq x (mem_cons_of_mem _ hx))
  | @pointer ty p t v ps vs E E' hty hw _ _ iht ihs =>
    have hmE : Moved m M lo hi q E :=
      hm.mono (by simp +contextual [slotsOf]) (by simp +contextual [pointersOf])
    have hmE' : Moved m M lo hi q E' :=
      hm.mono (by simp +contextual [slotsOf]) (by simp +contextual [pointersOf])
    rw [map_append, map_cons]
    exact .pointer hty (hm.ptrWindow (by simp [slotsOf]) hw)
      (iht hmE (hq (ty, p) (by simp)))
      (ihs hmE' fun x hx => hq x (mem_cons_of_mem _ hx))
  | stopsNil => exact .stopsNil
  | @stopsCons ty p t xs ps vs E hstop hlay hw hlen hhead hempty hstale _ ih =>
    have hmE : Moved m M lo hi q E :=
      hm.mono (by simp +contextual [slotsOf]) (by simp +contextual [pointersOf])
    rw [map_append, map_cons, staleSlots_shift, show t + 4 + q = t + q + 4 by omega]
    refine .stopsCons hstop hlay (hm.ptrWindow (by simp [slotsOf]) hw) hlen (hm.window hhead) hempty
      ?_ (ih hmE trivial)
    intro i hi'
    obtain ⟨u, hu, hptr⟩ := hstale i hi'
    have hmem : t + 4 + i * 4 ∈ pointersOf (staleSlots (t + 4) xs.length) :=
      mem_pointersOf_staleSlots.mpr ⟨i, hi', rfl⟩
    have := hm.staleWindow (by simp [pointersOf, hmem]) hu hptr
    rwa [show t + 4 + i * 4 + q = t + q + 4 + i * 4 by omega] at this

/-! ### Frames -/

/-- At every pointer slot stands a pointer into the range. -/
theorem Stored.pointers (h : Stored mode m lo hi item E) :
    ∀ p ∈ pointersOf E, ∃ u ≤ hi, PtrWindow m lo hi p u := by
  induction h with
  | string | inlineList | nil | stopsNil => simp [pointersOf]
  | ptrList _ _ _ _ _ _ _ ih => exact ih
  | stopList _ _ _ _ _ _ _ ih => exact ih
  | record _ _ _ _ _ ih => exact ih
  | variantUnit => simp [pointersOf]
  | variantPayload _ _ _ _ _ ih => exact ih
  | inline _ _ _ _ ih => exact ih
  | @pointer ty p t v ps vs E E' _ hw ht _ iht ihs =>
    intro x hx
    simp only [pointersOf, pointersOf_append, cons_append, mem_cons, mem_append] at hx
    rcases hx with rfl | hx | hx
    · exact ⟨t, ht.target_bounds.2, hw⟩
    · exact iht x hx
    · exact ihs x hx
  | @stopsCons ty p t xs ps vs E _ _ hw _ hhead _ hstale _ ih =>
    intro x hx
    simp only [pointersOf, pointersOf_append, cons_append, mem_cons, mem_append,
      mem_pointersOf_staleSlots] at hx
    rcases hx with rfl | ⟨i, hi, rfl⟩ | hx
    · exact ⟨t, Nat.le_of_add_right_le hhead.le_hi, hw⟩
    · exact hstale i hi
    · exact ih x hx

theorem Stored.pointers_bounds (h : Stored mode m lo hi item E) :
    ∀ p ∈ pointersOf E, lo ≤ p ∧ p + 4 ≤ hi := by
  intro p hp
  obtain ⟨u, -, hw⟩ := h.pointers p hp
  exact ⟨hw.lo_le, hw.le_hi⟩

section Widen
variable {m : Image} {lo hi lo' hi' : Nat}

theorem Window.widen {p : Nat} {bs : List UInt8} (h : Window m lo hi p bs) (hlo : lo' ≤ lo)
    (hhi : hi ≤ hi') : Window m lo' hi' p bs :=
  ⟨h.bytes, Nat.le_trans hlo h.lo_le, Nat.le_trans h.le_hi hhi⟩

theorem PtrWindow.widen {p t : Nat} (h : PtrWindow m lo hi p t) (hlo : lo' ≤ lo)
    (hhi : hi ≤ hi') : PtrWindow m lo' hi' p t :=
  ⟨h.ptr, Nat.le_trans hlo h.lo_le, Nat.le_trans h.le_hi hhi⟩

/-- A value stored in a range is stored in any larger one. -/
theorem Stored.widen {mode : Mode} {item : Item} {E : List Event} (h : Stored mode m lo hi item E)
    (hlo : lo' ≤ lo) (hhi : hi ≤ hi') : Stored mode m lo' hi' item E := by
  induction h with
  | string hlen hw => exact .string hlen (hw.widen hlo hhi)
  | inlineList hel hlen hw hall hp =>
    exact .inlineList hel hlen (hw.widen hlo hhi) hall (hp.widen hlo hhi)
  | ptrList hel hlay hlen hw hend hstop _ ih =>
    exact .ptrList hel hlay hlen (hw.widen hlo hhi) (by omega) hstop ih
  | stopList hmode hstop hlay hlen hw hend _ ih =>
    exact .stopList hmode hstop hlay hlen (hw.widen hlo hhi) (by omega) ih
  | record hs hn hlo' hhi' _ ih => exact .record hs hn (by omega) (by omega) ih
  | variantUnit hsel hp hv hw => exact .variantUnit hsel hp hv (hw.widen hlo hhi)
  | variantPayload hsel hp hv hw _ ih => exact .variantPayload hsel hp hv (hw.widen hlo hhi) ih
  | nil => exact .nil
  | inline hbs hw hsize _ ih => exact .inline hbs (hw.widen hlo hhi) (by omega) ih
  | pointer hty hw _ _ iht ihs => exact .pointer hty (hw.widen hlo hhi) iht ihs
  | stopsNil => exact .stopsNil
  | stopsCons hstop hlay hw hlen hhead hempty hstale _ ih =>
    refine .stopsCons hstop hlay (hw.widen hlo hhi) hlen (hhead.widen hlo hhi) hempty ?_ ih
    intro i hi'
    obtain ⟨u, hu, hptr⟩ := hstale i hi'
    exact ⟨u, by omega, hptr.widen hlo hhi⟩

end Widen

/-- The cells of `[lo, hi)` are the same in both images. -/
def SameOn (m M : Image) (lo hi : Nat) : Prop := ∀ i, lo ≤ i → i < hi → M[i]? = m[i]?

theorem SameOn.holds {m M : Image} {lo hi p : Nat} {cells : Image} (hs : SameOn m M lo hi)
    (h : Holds m p cells) (hlo : lo ≤ p) (hhi : p + cells.length ≤ hi) : Holds M p cells :=
  h.congr fun i hp hi' => hs i (by omega) (by omega)

theorem Event.shift_zero (E : List Event) : E.map (Event.shift 0) = E := by
  have : Event.shift 0 = id := by
    funext e
    cases e <;> rfl
  rw [this, map_id]

/-- **Frame.** A stored value does not notice changes outside its range. -/
theorem Stored.frame {mode : Mode} {m M : Image} {lo hi : Nat} {item : Item} {E : List Event}
    (h : Stored mode m lo hi item E) (hs : SameOn m M lo hi) : Stored mode M lo hi item E := by
  have hb := h.pointers_bounds
  have hmoved : Moved m M lo hi 0 E := by
    refine ⟨fun i b hlo hhi hi' => ?_, fun p t hp hptr => ?_, fun p t hp hptr => ?_⟩
    · rw [Nat.add_zero, hs i hlo hhi, hi']
    · have := hb p ((slotsOf_sublist E).subset hp)
      exact hs.holds hptr this.1 this.2
    · have := hb p hp
      exact ⟨t, by omega, hs.holds hptr this.1 this.2⟩
  have hdvd : item.AlignDvd 0 := by
    cases item with
    | target => exact Nat.dvd_zero _
    | slots => exact fun x _ => Nat.dvd_zero _
    | stops => trivial
  have hshift : item.shift 0 = item := by
    cases item <;> simp [Item.shift, shiftSlots]
  have := h.transport hmoved hdvd
  rwa [hshift, Event.shift_zero] at this

end Relon.Abi
