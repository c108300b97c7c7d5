import Relon.Abi.Binding

/-! What a linked `#main` is passed.

Both marshallers fill one record with the values of the arguments: the typed
writers are `writeValue` at their types, so a call is a `Session` of the builder.
`Prepared.passes_iff`: the binding passes the evaluator's input region exactly
when there is nothing to move, that is without constant data or without a
pointer field; and then every argument reads back from the arena. -/
namespace Relon.Abi
open Bytes Relon.Except List BufferBuilder EmittedField

/-! ### Both marshallers write the values of the arguments -/

theorem locate_eq_ok {b : BufferBuilder} {name label : String} {ty : TypeRepr} {e : FieldEntry} :
    b.locate name ty label = .ok e ↔
      findEntry b.fieldIndex name = .ok e ∧ typeMatches e.ty ty = true := by
  simp only [locate, bind_eq_ok]
  constructor
  · rintro ⟨e', found, h⟩
    cases matched : typeMatches e'.ty ty <;> simp [matched] at h
    subst h
    exact ⟨found, matched⟩
  · rintro ⟨found, matched⟩
    exact ⟨e, found, by simp [matched]⟩

/-- List fields are placed for eight-byte elements. -/
def ListsAligned (index : List FieldEntry) : Prop :=
  ∀ e ∈ index, e.ty = .list .int → e.kind = .pointerIndirect 8

theorem scalarPayload_ints (i : Nat) (vs : List Int64) :
    scalarPayload .int i (vs.map .int) = .ok (vs.flatMap i64Bytes) := by
  induction vs generalizing i with
  | nil => rfl
  | cons v vs ih => simp [scalarPayload, scalarBytes, ih]

section Writers
variable {b b' : BufferBuilder} {name : String}

theorem writeInt_ok {v : Int64} (h : b.writeInt name v = .ok b') :
    writeValue b name .int (.int v) = .ok b' := by
  simp only [writeInt, bind_eq_ok, locate_eq_ok, pure_eq_iff] at h
  obtain ⟨e, ⟨found, matched⟩, rfl⟩ := h
  exact writeValue_eq_ok.mpr ⟨e, _, found, matched, by simp [writeValueSlot], rfl⟩

theorem writeFloat_ok {v : UInt64} (h : b.writeFloat name v = .ok b') :
    writeValue b name .float (.float v) = .ok b' := by
  simp only [writeFloat, bind_eq_ok, locate_eq_ok, pure_eq_iff] at h
  obtain ⟨e, ⟨found, matched⟩, rfl⟩ := h
  exact writeValue_eq_ok.mpr ⟨e, _, found, matched, by simp [writeValueSlot], rfl⟩

theorem writeBool_ok {v : Bool} (h : b.writeBool name v = .ok b') :
    writeValue b name .bool (.bool v) = .ok b' := by
  simp only [writeBool, bind_eq_ok, locate_eq_ok, pure_eq_iff] at h
  obtain ⟨e, ⟨found, matched⟩, rfl⟩ := h
  exact writeValue_eq_ok.mpr ⟨e, _, found, matched, by simp [writeValueSlot], rfl⟩

theorem writeUnit_ok (h : b.writeUnit name = .ok b') :
    writeValue b name .unit .optionNone = .ok b' := by
  simp only [writeUnit, bind_eq_ok, locate_eq_ok, pure_eq_iff] at h
  obtain ⟨e, ⟨found, matched⟩, rfl⟩ := h
  refine writeValue_eq_ok.mpr ⟨e, b.bytes, found, matched, ?_, rfl⟩
  rw [writeValueSlot, if_pos (by decide)]

theorem writeString_ok {v : String} (h : b.writeString name v = .ok b') :
    writeValue b name .string (.string v) = .ok b' := by
  simp only [writeString, bind_eq_ok, locate_eq_ok] at h
  obtain ⟨e, ⟨found, matched⟩, h⟩ := h
  split at h
  · simp only [bind_eq_ok, ensure_eq_ok, pure_eq_iff] at h
    obtain ⟨-, -, bytes, written, rfl⟩ := h
    refine writeValue_eq_ok.mpr ⟨e, bytes, found, matched, ?_, rfl⟩
    simpa [writeValueSlot] using written
  · cases h

theorem writeListInt_ok {vs : List Int64} (aligned : ListsAligned b.fieldIndex)
    (h : b.writeListInt name vs = .ok b') :
    writeValue b name (.list .int) (.list (vs.map .int)) = .ok b' := by
  simp only [writeListInt, bind_eq_ok, locate_eq_ok] at h
  obtain ⟨e, ⟨found, matched⟩, h⟩ := h
  have mem : e ∈ b.fieldIndex := List.mem_of_find?_eq_some (okOr_eq_ok.mp found)
  rw [aligned e mem (typeMatches_eq matched)] at h
  simp only [bind_eq_ok, ensure_eq_ok, pure_eq_iff] at h
  obtain ⟨-, small, bytes, written, rfl⟩ := h
  refine writeValue_eq_ok.mpr ⟨e, bytes, found, matched, ?_, rfl⟩
  rw [writeValueSlot, appendListPayload, if_neg (by simp; omega), scalarPayload_ints]
  simpa using written

theorem packArg_ok {index : Nat} {f : EmittedField} {a : ArgValue}
    (aligned : ListsAligned b.fieldIndex) (h : packArg b index f a = .ok b') :
    writeValue b f.name (tyToRepr f.ty) a.toValue = .ok b' := by
  obtain ⟨field, offset, ty⟩ := f
  -- an argument of another type is refused
  cases ty <;> cases a <;> try injection h
  · exact writeInt_ok (mapError_eq_ok.mp h)
  · exact writeFloat_ok (mapError_eq_ok.mp h)
  · exact writeBool_ok (mapError_eq_ok.mp h)
  · exact writeUnit_ok (mapError_eq_ok.mp h)
  · exact writeString_ok (mapError_eq_ok.mp h)
  · exact writeListInt_ok aligned (mapError_eq_ok.mp h)

theorem intItems_ints (i : Nat) (vs : List Int64) : intItems name i (vs.map .int) = .ok vs := by
  induction vs generalizing i with
  | nil => rfl
  | cons v vs ih => simp [intItems, ih]

/-- The evaluator writes the value of an argument, if the binding accepts it. -/
theorem writeValueIntoBuilder_ok {f : EmittedField} {a : ArgValue} {bound : BufferBuilder}
    {index : Nat} {packed : BufferBuilder} (accepted : packArg bound index f a = .ok packed)
    (aligned : ListsAligned b.fieldIndex) (h : writeValueIntoBuilder b f a.toValue = .ok b') :
    writeValue b f.name (tyToRepr f.ty) a.toValue = .ok b' := by
  obtain ⟨field, offset, ty⟩ := f
  cases ty <;> cases a <;> (try injection accepted) <;>
    simp only [writeValueIntoBuilder, ArgValue.toValue] at h
  · exact writeInt_ok (mapError_eq_ok.mp h)
  · exact writeFloat_ok (mapError_eq_ok.mp h)
  · exact writeBool_ok (mapError_eq_ok.mp h)
  · have written : (b.writeUnit field).mapError RuntimeError.buffer = .ok b' := h
    exact writeUnit_ok (mapError_eq_ok.mp written)
  · exact writeString_ok (mapError_eq_ok.mp h)
  · rw [intItems_ints, ok_bind] at h
    exact writeListInt_ok aligned (mapError_eq_ok.mp h)

end Writers

/-- The writes of a call. -/
def argWrites (pairs : List (EmittedField × ArgValue)) : List (String × TypeRepr × Value) :=
  pairs.map fun x => (x.1.name, tyToRepr x.1.ty, x.2.toValue)

/-- The arguments of a call, by name. -/
def argsOf (pairs : List (EmittedField × ArgValue)) (name : String) : Option Value :=
  (pairs.find? fun x => x.1.name == name).map fun x => x.2.toValue

variable {b b' : BufferBuilder} {index : Nat} {pairs : List (EmittedField × ArgValue)}

theorem writeValue_index {name : String} {ty : TypeRepr} {v : Value}
    (h : writeValue b name ty v = .ok b') : b'.fieldIndex = b.fieldIndex := by
  obtain ⟨_, _, -, -, -, rfl⟩ := writeValue_eq_ok.mp h
  rfl

theorem packArgs_ok (aligned : ListsAligned b.fieldIndex) (h : packArgs b index pairs = .ok b') :
    writeAll b (argWrites pairs) = .ok b' := by
  induction pairs generalizing b index with
  | nil => simpa [packArgs, writeAll, argWrites] using h
  | cons x pairs ih =>
    obtain ⟨b₁, first, rest⟩ := bind_eq_ok.mp h
    have written := packArg_ok aligned first
    simp only [writeAll, argWrites, map_cons, foldlM_cons, written, ok_bind]
    exact ih (writeValue_index written ▸ aligned) rest

theorem writeArgs_ok {b b' bound packed : BufferBuilder} {args : String → Option Value}
    {fields : List EmittedField} (accepted : packArgs bound index pairs = .ok packed)
    (same : pairs.map Prod.fst = fields) (named : ∀ x ∈ pairs, args x.1.name = some x.2.toValue)
    (aligned : ListsAligned b.fieldIndex) (h : writeArgs args b fields = .ok b') :
    writeAll b (argWrites pairs) = .ok b' := by
  subst same
  induction pairs generalizing b bound index with
  | nil => simpa [writeArgs, writeAll, argWrites] using h
  | cons x pairs ih =>
    obtain ⟨bound₁, takes, accepted⟩ := bind_eq_ok.mp accepted
    rw [map_cons, writeArgs, named x mem_cons_self, okOr_some, ok_bind] at h
    obtain ⟨b₁, first, rest⟩ := bind_eq_ok.mp h
    have written := writeValueIntoBuilder_ok takes aligned first
    simp only [writeAll, argWrites, map_cons, foldlM_cons, written, ok_bind]
    exact ih accepted (fun y hy => named y (mem_cons_of_mem _ hy))
      (writeValue_index written ▸ aligned) rest

/-- The alignment of the root is not looked at when fields are written. -/
theorem writeAll_withLayout {writes : List (String × TypeRepr × Value)} (table : OffsetTable)
    (h : writeAll b writes = .ok b') :
    writeAll { b with layout := table } writes = .ok { b' with layout := table } := by
  induction writes generalizing b with
  | nil =>
    obtain rfl : b = b' := by simpa [writeAll] using h
    rfl
  | cons w writes ih =>
    obtain ⟨b₁, first, rest⟩ := bind_eq_ok.mp (by simpa only [writeAll, foldlM_cons] using h)
    obtain ⟨e, bytes, found, matched, written, rfl⟩ := writeValue_eq_ok.mp first
    have first' : writeValue { b with layout := table } w.1 w.2.1 w.2.2 =
        .ok { b with bytes, layout := table } :=
      writeValue_eq_ok.mpr ⟨e, bytes, found, matched, written, rfl⟩
    simp only [writeAll, foldlM_cons, first', ok_bind]
    exact ih rest

/-! ### Emitted tables -/

theorem placeFields_emitted {fs : List EmittedField} {c a last top : Nat}
    {placed : List FieldOffset}
    (h : placeFields (fs.map EmittedField.toField) c a = .ok (placed, last, top))
    (offsets : placed.map FieldOffset.offset = fs.map EmittedField.offset) :
    placed = fs.map EmittedField.slot := by
  induction fs generalizing c a placed last top with
  | nil =>
    simp only [map_nil, placeFields, Except.ok.injEq, Prod.mk.injEq] at h
    exact h.1.symm
  | cons f fs ih =>
    simp only [map_cons, placeFields, bind_eq_ok, okOr_eq_ok, pure_eq_iff, Prod.mk.injEq] at h
    obtain ⟨d, decided, offset, -, next, -, ⟨rest, _, _⟩, placed, rfl, -, -⟩ := h
    simp only [map_cons, List.cons.injEq] at offsets ⊢
    obtain ⟨rfl, offsets⟩ := offsets
    refine ⟨?_, ih placed offsets⟩
    obtain ⟨name, offset, ty⟩ := f
    cases ty <;> simp only [toField, tyToRepr, fieldLayoutDecisionFor,
      listLayoutDecision, Except.ok.injEq] at decided <;> subst decided <;> rfl

namespace EmittedTable
variable (t : EmittedTable)

/-- The parameters of the table. -/
def params : List Field := t.fields.map EmittedField.toField

theorem slots : t.fields.map EmittedField.slot = t.layout.fields := by
  have h := t.computed
  simp only [offsetsFor, bind_eq_ok, okOr_eq_ok, pure_eq_iff] at h
  obtain ⟨⟨placed, last, top⟩, placed_ok, size, -, same⟩ := h
  have offsets := t.offsets
  rw [← same] at offsets ⊢
  exact (placeFields_emitted placed_ok offsets).symm

theorem builder_eq :
    { BufferBuilder.new (synthesiseLayout t.fields t.rootSize) t.params with layout := t.layout } =
      BufferBuilder.new t.layout t.params := by
  simp only [new, fieldIndexAt, RelocLayout.build, synthesiseLayout, t.slots, t.size]

theorem params_names : (t.params.map Field.name).Nodup := by
  simpa [params, toField, Function.comp_def] using t.names

theorem listsAligned (table : OffsetTable) (same : table.fields = t.layout.fields) :
    ListsAligned (BufferBuilder.new table t.params).fieldIndex := by
  intro e mem list
  simp only [new, fieldIndexAt, same, ← t.slots, mem_filterMap, mem_map,
    Option.map_eq_some_iff] at mem
  obtain ⟨_, ⟨g, mem, rfl⟩, f, found, rfl⟩ := mem
  have own := find?_of_nodup t.params_names (mem_map_of_mem mem : g.toField ∈ t.params)
  have name : g.slot.name = g.toField.name := by
    unfold slot
    split <;> rfl
  rw [name, own] at found
  cases found
  obtain ⟨name, offset, ty⟩ := g
  cases ty <;> simp_all [toField, tyToRepr, slot]

end EmittedTable

/-! ### The values of the arguments -/

/-- Nothing of an emitted type lies beyond the relocation walk. -/
theorem relocSafe_emitted (deep : Bool) (ty : EmittedFieldType) (v : Value) :
    relocSafe deep (tyToRepr ty) v = true := by
  cases ty with
  | int | float | bool | unit => exact relocSafe_of_not_isPointer rfl
  | string =>
    refine relocSafe_of_parts_nil ?_ rfl
    cases v <;> simp [tyToRepr, parts, variantPayloadForValue]
  | listInt =>
    refine relocSafe_iff.mpr ⟨fun _ => by cases v <;> simp [tyToRepr, arrayStops, stopsAt], ?_⟩
    intro x mem
    cases v <;> simp only [tyToRepr, parts, not_mem_nil, mem_map] at mem
    obtain ⟨item, -, rfl⟩ := mem
    exact relocSafe_of_not_isPointer rfl

/-- An accepted argument is in normal form. -/
theorem normalise_toValue {b packed : BufferBuilder} {index : Nat} {f : EmittedField} {a : ArgValue}
    (accepted : packArg b index f a = .ok packed) :
    normalise (tyToRepr f.ty) a.toValue = a.toValue := by
  obtain ⟨field, offset, ty⟩ := f
  cases ty <;> cases a <;> (try injection accepted) <;> rw [normalise_eq] <;>
    simp only [tyToRepr, ArgValue.toValue, assemble]
  case listInt.listInt vs =>
    have items : ∀ v : Int64, normalise .int (.int v) = .int v := fun v => by
      rw [normalise_eq]
      rfl
    simp [parts, items, Function.comp_def]

theorem packArgs_accepts {b packed : BufferBuilder} {index : Nat}
    {pairs : List (EmittedField × ArgValue)} (h : packArgs b index pairs = .ok packed) :
    ∀ x ∈ pairs, normalise (tyToRepr x.1.ty) x.2.toValue = x.2.toValue := by
  induction pairs generalizing b index with
  | nil => simp
  | cons x pairs ih =>
    obtain ⟨b₁, first, rest⟩ := bind_eq_ok.mp h
    intro y mem
    rcases mem_cons.mp mem with rfl | mem
    · exact normalise_toValue first
    · exact ih rest y mem

theorem lastWrite_absent {name : String} {writes : List (String × TypeRepr × Value)}
    (h : ∀ w ∈ writes, w.1 ≠ name) : lastWrite name writes = none := by
  induction writes with
  | nil => rfl
  | cons w writes ih =>
    rw [forall_mem_cons] at h
    simp [lastWrite, ih h.2, h.1]

section Pairs
variable {pairs : List (EmittedField × ArgValue)} (names : (pairs.map fun x => x.1.name).Nodup)
include names

theorem argsOf_name {x : EmittedField × ArgValue} (mem : x ∈ pairs) :
    argsOf pairs x.1.name = some x.2.toValue := by
  have found := find?_of_nodup names mem
  rw [argsOf, found]
  rfl

theorem lastWrite_arg {x : EmittedField × ArgValue} (mem : x ∈ pairs) :
    lastWrite x.1.name (argWrites pairs) = some x.2.toValue := by
  induction pairs with
  | nil => cases mem
  | cons y pairs ih =>
    rw [map_cons, nodup_cons] at names
    rw [argWrites, map_cons, ← argWrites, lastWrite]
    rcases mem_cons.mp mem with rfl | mem
    · have later : lastWrite x.1.name (argWrites pairs) = none := by
        refine lastWrite_absent fun w written same => names.1 ?_
        obtain ⟨z, hz, rfl⟩ := mem_map.mp written
        exact mem_map.mpr ⟨z, hz, same⟩
      simp [later]
    · simp [ih names.2 mem]

end Pairs

/-! ### The prepared arena -/

theorem checkedU32_eq_ok {ε : Type} {n m : Nat} {overflow : ε} :
    checkedU32 n overflow = .ok m ↔ n < 2 ^ 32 ∧ n = m := by
  unfold checkedU32
  split <;> simp_all

/-- Where a layout puts the input. -/
structure InputPlaced (constDataLen inLen : Nat) (l : ArenaLayout) : Prop where
  inPtr : l.inPtr = alignUp constDataLen 8
  inLen : l.inLen = inLen
  cleared : l.inPtr ≤ l.outPtr + l.outCap
  fits : l.inPtr + l.inLen ≤ l.arenaSize
  small : l.arenaSize < 2 ^ 32

theorem arenaLayout_ok {ε : Type} {overflow : ε} {constDataLen inLen returnRootSize : Nat}
    {tail : Bool} {l : ArenaLayout}
    (h : arenaLayout overflow constDataLen inLen returnRootSize tail = .ok l) :
    InputPlaced constDataLen inLen l := by
  simp only [arenaLayout, bind_eq_ok, checkedU32_eq_ok, pure_eq_iff] at h
  obtain ⟨outCap, -, _, ⟨-, rfl⟩, _, ⟨-, rfl⟩, _, ⟨-, rfl⟩, _, ⟨small, rfl⟩, rfl⟩ := h
  have out := le_alignUp (alignUp constDataLen 8 + inLen) 8
  have scratch := le_alignUp (alignUp (alignUp constDataLen 8 + inLen) 8 + outCap) 8
  refine ⟨rfl, rfl, ?_, ?_, small⟩ <;> simp only <;> omega

/-- Before the input stand the constant data and zeros. -/
def arenaHead (constData : List UInt8) (l : ArenaLayout) : List UInt8 :=
  constData ++ List.replicate (l.inPtr - constData.length) 0

section Arena
variable {pool constData inBytes : List UInt8} {l : ArenaLayout}

theorem patch_patch_zero {arena zeros : List UInt8} (h : constData.length ≤ arena.length) :
    (if constData.isEmpty then patch arena constData.length zeros
      else patch (patch arena constData.length zeros) 0 constData) =
      constData ++ (zeros ++ arena.drop (constData.length + zeros.length)) := by
  cases constData with
  | nil => simp [patch]
  | cons c cs =>
    have head : (arena.take (c :: cs).length).length = (c :: cs).length := by
      rw [length_take]
      omega
    rw [if_neg (by simp), patch, patch, take_zero, nil_append, Nat.zero_add,
      append_assoc (arena.take _), drop_left' head]

theorem InputPlaced.arenaHead_length (placed : InputPlaced constData.length inBytes.length l) :
    (arenaHead constData l).length = l.inPtr := by
  have := le_alignUp constData.length 8
  rw [← placed.inPtr] at this
  simp [arenaHead]
  omega

theorem dispatchArena_eq (pool : List UInt8)
    (placed : InputPlaced constData.length inBytes.length l) :
    ∃ after, dispatchArena pool constData inBytes l =
      arenaHead constData l ++ inBytes ++ after := by
  have below := le_alignUp constData.length 8
  have fits := placed.fits
  have cleared := placed.cleared
  rw [← placed.inPtr] at below
  rw [placed.inLen] at fits
  have pooled :
      constData.length ≤ (pool ++ List.replicate (l.arenaSize - pool.length) 0).length := by
    simp
    omega
  obtain ⟨rest, split⟩ : ∃ rest,
      List.replicate (l.outPtr + l.outCap - constData.length) (0 : UInt8) =
        List.replicate (l.inPtr - constData.length) 0 ++ rest := by
    refine ⟨List.replicate (l.outPtr + l.outCap - l.inPtr) 0, ?_⟩
    rw [← replicate_add]
    congr 1
    omega
  rw [dispatchArena]
  simp only [patch_patch_zero pooled]
  rw [split, append_assoc, ← append_assoc, ← arenaHead, patch,
    take_left' placed.arenaHead_length, take_append, take_of_length_le]
  · exact ⟨_, rfl⟩
  · rw [length_append, placed.arenaHead_length]
    exact fits

end Arena

theorem inputRegion_eq {pool constData inBytes : List UInt8} {l : ArenaLayout}
    (placed : InputPlaced constData.length inBytes.length l) :
    Prepared.inputRegion ⟨dispatchArena pool constData inBytes l, l⟩ = inBytes := by
  obtain ⟨after, same⟩ := dispatchArena_eq pool placed
  simp [Prepared.inputRegion, slice, same, ← placed.arenaHead_length, placed.inLen]

/-! ### The result -/

/-- Nothing is reached behind slots without pointers. -/
theorem Reach.inline {bytes : List UInt8} {roots : List (TypeRepr × Nat)} {place : Place}
    (h : Reach bytes roots place) (flat : ∀ x ∈ roots, x.1.isPointer = false) :
    ∃ ty p, place = .slot ty p ∧ ty.isPointer = false := by
  induction h with
  | root mem => exact ⟨_, _, rfl, flat _ mem⟩
  | pointer _ pointer ih =>
    obtain ⟨ty, p, same, inline⟩ := ih
    cases same
    rw [pointer] at inline
    cases inline
  | entry _ _ _ ih | field _ _ _ ih | payload _ _ _ ih =>
    obtain ⟨ty, p, same, -⟩ := ih
    cases same

/-- What both calls have in common: the record that was filled, and its session. -/
structure Marshalled (t : EmittedTable) (pairs : List (EmittedField × ArgValue))
    (b : BufferBuilder) : Prop where
  session : Session (synthesiseSchema t.fields "MainParams") t.layout (argWrites pairs) b
  fields : pairs.map Prod.fst = t.fields
  normal : ∀ x ∈ pairs, normalise (tyToRepr x.1.ty) x.2.toValue = x.2.toValue

section Marshalled
variable {t : EmittedTable} {pairs : List (EmittedField × ArgValue)} {b : BufferBuilder}

theorem Marshalled.names (h : Marshalled t pairs b) : (pairs.map fun x => x.1.name).Nodup := by
  have names := t.names
  rw [← h.fields, map_map] at names
  exact names

theorem Marshalled.written (h : Marshalled t pairs b) :
    FullyWritten (synthesiseSchema t.fields "MainParams") (argWrites pairs) := by
  intro f mem
  obtain ⟨g, listed, rfl⟩ := mem_map.mp mem
  rw [← h.fields] at listed
  obtain ⟨x, passed, rfl⟩ := mem_map.mp listed
  have last := lastWrite_arg h.names passed
  simp only [toField, last, Option.isSome_some]

theorem Marshalled.safe (_ : Marshalled t pairs b) :
    RelocSafe (synthesiseSchema t.fields "MainParams") (argWrites pairs) := by
  intro f mem v _
  obtain ⟨g, -, rfl⟩ := mem_map.mp mem
  exact relocSafe_emitted true g.ty v

/-- The slot of a field of the table. -/
theorem EmittedTable.slot_mem (t : EmittedTable) {f : EmittedField} (mem : f ∈ t.fields) :
    (f.toField, f.slot) ∈ (synthesiseSchema t.fields "MainParams").fields.zip t.layout.fields := by
  rw [← t.slots, synthesiseSchema, zip_map']
  exact mem_map_of_mem mem

@[simp] theorem EmittedField.slot_offset (f : EmittedField) : f.slot.offset = f.offset := by
  unfold slot
  split <;> rfl

theorem Marshalled.unmoved_iff (h : Marshalled t pairs b) {base : Nat} {moved : List UInt8}
    (h8 : 8 ∣ base) (small : base + b.finish.length < 2 ^ 32)
    (moves : b.finishArenaAbsolute base = .ok moved) :
    b.finish = moved ↔ base = 0 ∨ ∀ f ∈ t.fields, (tyToRepr f.ty).isPointer = false := by
  obtain ⟨moved', moves', rebased⟩ := (h.session.rebases_iff h.written h8 small).1 h.safe
  rw [moves, Except.ok.injEq] at moves'
  subst moves'
  constructor
  · intro same
    by_cases zero : base = 0
    · exact .inl zero
    · right
      intro f mem
      by_contra pointer
      rw [Bool.not_eq_false] at pointer
      have slot := rebased.slots _ _ (.root (mem_recordSlots (t.slot_mem mem) 0)) pointer
      rw [← same] at slot
      omega
  · rintro (rfl | flat)
    · simpa [finishArenaAbsolute, finish] using moves
    · refine ext_getElem? fun i => (rebased.others i fun ty p reached pointer => ?_).symm
      have roots : ∀ x ∈ recordSlots (synthesiseSchema t.fields "MainParams").fields
          t.layout.fields 0, x.1.isPointer = false := by
        intro x mem
        rw [recordSlots, ← t.slots, synthesiseSchema, zipWith_map] at mem
        simp only [zipWith_self, mem_map] at mem
        obtain ⟨f, mem, rfl⟩ := mem
        exact flat f mem
      obtain ⟨ty', p', same, inline⟩ := reached.inline roots
      cases same
      rw [pointer] at inline
      cases inline

theorem newAtBase_spec {table : OffsetTable} {fields : List Field} {bytes : List UInt8} {base : Nat}
    {r : BufferReader} (h : BufferReader.newAtBase table fields bytes base = .ok r) :
    r.fieldIndex = fieldIndexAt table fields base ∧ r.bytes = bytes := by
  unfold BufferReader.newAtBase at h
  split at h
  · cases h
  · split at h <;> cases h
    exact ⟨rfl, rfl⟩

/-- Bytes that stand where their pointers point give back the arguments. -/
theorem Marshalled.reads (h : Marshalled t pairs b) {base : Nat} (h8 : 8 ∣ base)
    (small : base + b.finish.length < 2 ^ 32)
    (moves : b.finishArenaAbsolute base = .ok b.finish) {before after : List UInt8}
    (length : before.length = base) {x : EmittedField × ArgValue} (mem : x ∈ pairs) :
    readFieldAt (before ++ b.finish ++ after) (base + x.1.offset) (tyToRepr x.1.ty) =
      .ok x.2.toValue := by
  obtain ⟨moved, moves', rebased⟩ := (h.session.rebases_iff h.written h8 small).1 h.safe
  rw [moves, Except.ok.injEq] at moves'
  subst moves'
  have listed : x.1 ∈ t.fields := by
    rw [← h.fields]
    exact mem_map_of_mem mem
  have slot := t.slot_mem listed
  obtain ⟨r, r', plain, placed, same⟩ := rebased.decodes before after length
  obtain ⟨r₀, plain', back⟩ := h.session.reads_back
  rw [plain, Except.ok.injEq] at plain'
  subst plain'
  have value := back x.1.toField (of_mem_zip slot).1 _ (lastWrite_arg h.names mem)
    (relocSafe_emitted false x.1.ty _)
  obtain ⟨index, bytes⟩ := newAtBase_spec placed
  rw [← same x.1.toField (of_mem_zip slot).1,
    BufferReader.readValue_eq base h.session.layout h.session.names index slot, bytes,
    slot_offset] at value
  exact value.trans (congrArg Except.ok (h.normal x mem))

end Marshalled

/-- The binding passes what the evaluator passes, and every argument arrives. -/
def Prepared.Passes (native evaluator : Prepared) (pairs : List (EmittedField × ArgValue)) : Prop :=
  native.inputRegion = evaluator.inputRegion ∧ ∀ x ∈ pairs, native.parameter x.1 = .ok x.2.toValue

section Calls
variable {pool pool' constData : List UInt8} {t : EmittedTable} {returnRootSize : Nat} {tail : Bool}
  {args : List ArgValue} {native evaluator : Prepared}

/-- The binding hands over the record as it was built. -/
theorem callBufferEntry_ok
    (h : callBufferEntry pool constData t.fields t.rootSize returnRootSize tail args = .ok native) :
    ∃ b l index bound packed, Marshalled t (t.fields.zip args) b ∧
      packArgs bound index (t.fields.zip args) = .ok packed ∧
      InputPlaced constData.length b.finish.length l ∧
      native = ⟨dispatchArena pool constData b.finish l, l⟩ := by
  simp only [callBufferEntry, bind_eq_ok, ensure_eq_ok, checkedU32_eq_ok, pure_eq_iff] at h
  obtain ⟨-, arity, packed, accepted, _, ⟨-, rfl⟩, l, layout, rfl⟩ := h
  have placed := arenaLayout_ok layout
  have fields : (t.fields.zip args).map Prod.fst = t.fields := by
    rw [map_fst_zip]
    exact arity.ge
  have written := writeAll_withLayout t.layout (packArgs_ok (t.listsAligned _ t.slots) accepted)
  rw [t.builder_eq] at written
  refine ⟨{ packed with layout := t.layout }, l, 0, _, packed,
    ⟨⟨t.computed, ?_, written, ?_⟩, fields, packArgs_accepts accepted⟩, accepted, placed, rfl⟩
  · refine Schema.distinct_iff.mpr ⟨t.params_names, fun f mem => ?_⟩
    obtain ⟨g, -, rfl⟩ := mem_map.mp mem
    obtain ⟨name, offset, ty⟩ := g
    cases ty <;> rfl
  · have := placed.fits
    have := placed.small
    have := placed.inLen
    show packed.finish.length < 2 ^ 32
    omega

/-- The evaluator hands over the same record with its pointers moved. -/
theorem runMainBuffer_ok {b bound packed : BufferBuilder} {index : Nat}
    (h : runMainBuffer pool' constData t returnRootSize tail (argsOf (t.fields.zip args)) =
      .ok evaluator) (same : Marshalled t (t.fields.zip args) b)
    (accepted : packArgs bound index (t.fields.zip args) = .ok packed) :
    ∃ moved l, b.finishArenaAbsolute (alignUp constData.length 8) = .ok moved ∧
      InputPlaced constData.length moved.length l ∧
      evaluator = ⟨dispatchArena pool' constData moved l, l⟩ := by
  simp only [runMainBuffer, evaluatorInput, bind_eq_ok, checkedU32_eq_ok, mapError_eq_ok,
    pure_eq_iff] at h
  obtain ⟨_, ⟨-, rfl⟩, moved, ⟨b', written, _, ⟨-, rfl⟩, moves⟩, l, layout, rfl⟩ := h
  have named : ∀ x ∈ t.fields.zip args, argsOf (t.fields.zip args) x.1.name = some x.2.toValue :=
    fun x mem => argsOf_name same.names mem
  have run := writeArgs_ok accepted same.fields named (t.listsAligned _ rfl) written
  have own : writeAll (.new t.layout t.params) (argWrites (t.fields.zip args)) = .ok b :=
    same.session.run
  rw [own] at run
  cases run
  exact ⟨moved, l, moves, arenaLayout_ok layout, rfl⟩

/-- **The linked binding.** Its input region is the evaluator's, and its arguments arrive,
exactly when there is no constant data or no pointer to move. -/
theorem Prepared.passes_iff
    (called : callBufferEntry pool constData t.fields t.rootSize returnRootSize tail args =
      .ok native)
    (ran : runMainBuffer pool' constData t returnRootSize tail (argsOf (t.fields.zip args)) =
      .ok evaluator) : native.Passes evaluator (t.fields.zip args) ↔
      constData = [] ∨ ∀ f ∈ t.fields, (tyToRepr f.ty).isPointer = false := by
  obtain ⟨b, l, index, bound, packed, record, accepted, placed, rfl⟩ := callBufferEntry_ok called
  obtain ⟨moved, l', moves, placed', rfl⟩ := runMainBuffer_ok ran record accepted
  have h8 : 8 ∣ alignUp constData.length 8 := dvd_alignUp (by decide)
  have small : alignUp constData.length 8 + b.finish.length < 2 ^ 32 := by
    have fits := placed.fits
    rw [placed.inPtr, placed.inLen] at fits
    exact fits.trans_lt placed.small
  have zero : alignUp constData.length 8 = 0 ↔ constData = [] := by
    have := le_alignUp constData.length 8
    constructor
    · intro h
      exact length_eq_zero_iff.mp (by omega)
    · rintro rfl
      rfl
  rw [Prepared.Passes, inputRegion_eq placed, inputRegion_eq placed',
    record.unmoved_iff h8 small moves, zero, and_iff_left_iff_imp]
  intro still
  rw [← zero] at still
  have unmoved := (record.unmoved_iff h8 small moves).mpr still
  rw [← unmoved] at moves
  intro x mem
  obtain ⟨after, same⟩ := dispatchArena_eq pool placed
  rw [Prepared.parameter, placed.inPtr, same]
  exact record.reads h8 small moves (placed.arenaHead_length.trans placed.inPtr) mem

end Calls

/-- One parameter, a string. -/
def nameTable : EmittedTable where
  fields := [⟨"name", 0, .string⟩]
  rootSize := 4
  layout := ⟨[⟨"name", 0, 4, 4, .pointerIndirect 1, none⟩], 4, 4⟩
  computed := by decide +kernel
  offsets := rfl
  size := rfl
  names := by decide

/-- A marshaller that gets as far as a layout has prepared an arena. -/
theorem prepared_of_layout {ε : Type} {x : Except ε Prepared}
    (h : (x.toOption.map Prepared.layout).isSome = true) : ∃ p, x = .ok p := by
  cases x with
  | error e => cases h
  | ok p => exact ⟨p, rfl⟩

/-- Without constant data both marshallers hand the string over at the same place. -/
theorem Prepared.passes_without_constData : ∃ native evaluator,
    callBufferEntry [] [] nameTable.fields nameTable.rootSize 8 false [.string "a"] = .ok native ∧
      runMainBuffer [] [] nameTable 8 false (argsOf (nameTable.fields.zip [.string "a"])) =
        .ok evaluator ∧ native.Passes evaluator (nameTable.fields.zip [.string "a"]) := by
  obtain ⟨native, called⟩ := prepared_of_layout
    (x := callBufferEntry [] [] nameTable.fields nameTable.rootSize 8 false [.string "a"])
    (by decide +kernel)
  obtain ⟨evaluator, ran⟩ := prepared_of_layout
    (x := runMainBuffer [] [] nameTable 8 false (argsOf (nameTable.fields.zip [.string "a"])))
    (by decide +kernel)
  exact ⟨native, evaluator, called, ran, (Prepared.passes_iff called ran).mpr (.inl rfl)⟩

/-- The layout of an arena with one byte of constant data. -/
def shiftedLayout : ArenaLayout := ⟨8, 9, 24, 24, 48, 1048624⟩

theorem shifted_placed {inBytes : List UInt8} (length : inBytes.length = 9) :
    InputPlaced [(0 : UInt8)].length inBytes.length shiftedLayout := by
  rw [length]
  exact ⟨by decide, rfl, by decide, by decide, by decide⟩

/-- A string parameter read behind one byte of constant data: `p` is what its slot holds. -/
theorem parameter_in_shifted {inBytes : List UInt8} {p n : Nat} {s : String}
    (length : inBytes.length = 9) (fits : p + 4 + n ≤ 17)
    (pointer : ∀ after, readU32 (arenaHead [0] shiftedLayout ++ inBytes ++ after) 8 = p)
    (count : ∀ after, readU32 (arenaHead [0] shiftedLayout ++ inBytes ++ after) p = n)
    (text : ∀ after,
      utf8Decode (slice (arenaHead [0] shiftedLayout ++ inBytes ++ after) (p + 4) n) = some s) :
    Prepared.parameter ⟨dispatchArena [] [0] inBytes shiftedLayout, shiftedLayout⟩
      ⟨"name", 0, .string⟩ = .ok (.string s) := by
  obtain ⟨after, same⟩ := dispatchArena_eq [] (shifted_placed length)
  have readable : Readable (arenaHead [0] shiftedLayout ++ inBytes ++ after) 17 := by
    refine ⟨by decide, ?_⟩
    simp [arenaHead, shiftedLayout, length]
  rw [Prepared.parameter, same]
  show readFieldAt _ 8 .string = _
  rw [readFieldAt, readSlotPointer_ok readable (by omega), ok_bind, pointer after,
    readStringRecordAt, readStringWith_eq readable (by rwa [count after]), count after, text after]
  rfl

/-- With one byte of constant data the pointer of a string argument misses its record: the
compiled code finds padding, an empty string. -/
theorem name_reads_empty : ∃ native evaluator,
    callBufferEntry [] [0] nameTable.fields nameTable.rootSize 8 false [.string "a"] = .ok native ∧
      runMainBuffer [] [0] nameTable 8 false (argsOf (nameTable.fields.zip [.string "a"])) =
        .ok evaluator ∧ native.inputRegion ≠ evaluator.inputRegion ∧
      native.parameter ⟨"name", 0, .string⟩ = .ok (.string "") ∧
      evaluator.parameter ⟨"name", 0, .string⟩ = .ok (.string "a") := by
  have moved : (evaluatorInput 1 nameTable (argsOf (nameTable.fields.zip [.string "a"]))).toOption =
      some [12, 0, 0, 0, 1, 0, 0, 0, 97] := by decide +kernel
  have layout : arenaLayout RuntimeError.overflow 1 9 8 false = .ok shiftedLayout := rfl
  refine ⟨⟨dispatchArena [] [0] [4, 0, 0, 0, 1, 0, 0, 0, 97] shiftedLayout, shiftedLayout⟩,
    ⟨dispatchArena [] [0] [12, 0, 0, 0, 1, 0, 0, 0, 97] shiftedLayout, shiftedLayout⟩,
    rfl, ?_, ?_, ?_, ?_⟩
  · simp [runMainBuffer, checkedU32, toOption_eq_some.mp moved, layout]
  · rw [inputRegion_eq (shifted_placed rfl), inputRegion_eq (shifted_placed rfl)]
    decide
  · refine parameter_in_shifted (p := 4) (n := 0) rfl (by decide) (fun _ => rfl) (fun _ => rfl) ?_
    intro after
    show utf8Decode [] = some ""
    decide +kernel
  · refine parameter_in_shifted (p := 12) (n := 1) rfl (by decide) (fun _ => rfl) (fun _ => rfl) ?_
    intro after
    show utf8Decode [97] = some "a"
    decide +kernel

end Relon.Abi
