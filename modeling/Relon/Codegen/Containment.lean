import Relon.Codegen.Arena

/-! Which memory operations stay inside the arena.

The emitted checks compare 32-bit sums with the arena length. A sum that wraps looks
small, so a slot that ends beyond 2^32 passes; apart from that the checks of loads,
stores, fields, `memcpy` and scratch blocks are exact. The copy of a returned record
also leaves three of its end points unchecked: it loads the source header before any
check and checks only where the two payloads start. -/
namespace Relon.Codegen

open Bytes List Machine

/-! ### The operations -/

/-- The slot sizes of the fixed-width loads and stores. -/
inductive Width where
  | one | four | eight
  deriving DecidableEq, Repr

def Width.bytes : Width → Nat
  | one => 1
  | four => 4
  | eight => 8

theorem Width.bytes_pos (w : Width) : 0 < w.bytes ∧ w.bytes ≤ 8 := by cases w <;> decide

def Width.word (w : Width) : BitVec 32 := BitVec.ofNat 32 w.bytes

/-- The memory operations the backend emits, with their run-time operands. -/
inductive Operation where
  | load (width : Width) (offset base : BitVec 32)
  | store (width : Width) (offset base : BitVec 32) (value : BitVec 64)
  | loadField (width : Width) (byteOffset : BitVec 32)
    (fits : byteOffset.toNat + width.bytes < 2 ^ 32)
  | storeField (width : Width) (byteOffset : BitVec 32)
    (fits : byteOffset.toNat + width.bytes < 2 ^ 32) (value : BitVec 64)
  | memcpy (dest src len : BitVec 32)
  /-- A scratch allocation and an access at `pos` inside the block it returned. -/
  | allocLoad (size : BitVec 32) (width : Width) (pos : BitVec 32)
    (inside : pos.toNat + width.bytes ≤ size.toNat)
  | allocStore (size : BitVec 32) (width : Width) (pos : BitVec 32)
    (inside : pos.toNat + width.bytes ≤ size.toNat) (value : BitVec 64)
  | recordCopy (ty : RecordType) (src : BitVec 32)

namespace Operation

def run : Operation → Emitted Unit
  | load w offset base => do
    let _ ← loadAtAbsolute w.word offset base
  | store w offset base value => storeAtAbsolute w.word offset base (leBytes w.bytes value.toNat)
  | loadField w byteOffset _ => do
    let _ ← Codegen.loadField w.word byteOffset
  | storeField w byteOffset _ value =>
    Codegen.storeField w.word byteOffset (leBytes w.bytes value.toNat)
  | memcpy dest src len => memcpyAtAbsolute dest src len
  | allocLoad size w pos _ => do
    let block ← allocScratch size
    let _ ← loadAtAbsolute w.word pos block
  | allocStore size w pos _ value => do
    let block ← allocScratch size
    storeAtAbsolute w.word pos block (leBytes w.bytes value.toNat)
  | recordCopy ty src => do
    let _ ← pointerIndirectRecordCopy ty src

/-- What the operation touches when no check traps. -/
def footprint (op : Operation) (m : Machine) : Except TrapKind (List Access) :=
  (op.run { m with accesses := [] }).map fun r => r.2.accesses

end Operation

/-! ### Slots of the arena -/

namespace Machine

variable (m : Machine)

/-- Every byte of the access lies in `[arena_base, arena_base + arena_len)`. -/
def Contains (a : Access) : Prop :=
  ∀ i < a.len, m.arenaBase.toNat ≤ (a.addr + BitVec.ofNat 64 i).toNat ∧
    (a.addr + BitVec.ofNat 64 i).toNat < m.arenaBase.toNat + m.arenaLen.toNat

instance : DecidablePred m.Contains := fun a => by
  unfold Contains
  infer_instance

/-- The arena is one stretch of the host's address space. -/
def Mapped : Prop := m.arenaBase.toNat + m.arenaLen.toNat ≤ 2 ^ 64

instance : Decidable m.Mapped := by
  unfold Mapped
  infer_instance

/-- The access of `len` bytes at an offset from the arena's base. -/
def slot (off len : Nat) (writes : Bool) : Access :=
  ⟨m.arenaBase + BitVec.ofNat 64 off, len, writes⟩

variable {m}

theorem contains_slot {off len : Nat} {writes : Bool} (mapped : m.Mapped)
    (small : off + len < 2 ^ 63) :
    m.Contains (m.slot off len writes) ↔ len = 0 ∨ off + len ≤ m.arenaLen.toNat := by
  have base := m.arenaBase.isLt
  unfold Mapped at mapped
  have addr : ∀ i < len, (m.arenaBase + BitVec.ofNat 64 off + BitVec.ofNat 64 i).toNat =
      (m.arenaBase.toNat + (off + i)) % 2 ^ 64 := by
    intro i hi
    rw [BitVec.add_assoc, ← BitVec.ofNat_add, BitVec.toNat_add, BitVec.toNat_ofNat,
      Nat.mod_eq_of_lt (a := off + i) (by omega)]
  constructor
  · intro inside
    by_cases empty : len = 0
    · exact .inl empty
    · -- the last byte: past the arena's end, or wrapped to below its base
      have last := inside (len - 1) (by show len - 1 < len; omega)
      rw [show (m.slot off len writes).addr = m.arenaBase + BitVec.ofNat 64 off from rfl,
        addr (len - 1) (by omega)] at last
      right
      omega
  · rintro (rfl | fits) i hi
    · exact absurd hi (Nat.not_lt_zero i)
    · have hi' : i < len := hi
      rw [show (m.slot off len writes).addr = m.arenaBase + BitVec.ofNat 64 off from rfl,
        addr i hi']
      omega

/-- A 32-bit offset in 64-bit address arithmetic. -/
theorem slot_setWidth (off : BitVec 32) (len : Nat) (writes : Bool) :
    (⟨m.arenaBase + off.setWidth 64, len, writes⟩ : Access) = m.slot off.toNat len writes := by
  rw [slot, BitVec.ofNat_toNat]

theorem slot_setWidth_add (off pos : BitVec 32) (len : Nat) (writes : Bool) :
    (⟨m.arenaBase + off.setWidth 64 + pos.setWidth 64, len, writes⟩ : Access) =
      m.slot (off.toNat + pos.toNat) len writes := by
  rw [slot, BitVec.ofNat_add, BitVec.ofNat_toNat, BitVec.ofNat_toNat, BitVec.add_assoc]

end Machine

/-! ### What each operation checks and touches -/

/-- The operands of a record copy, as the emitted code computes them. -/
structure Copy where
  len : BitVec 32
  recordSize : BitVec 32
  payload : BitVec 32
  cursor : BitVec 32
  dst : BitVec 32
  srcPayload : BitVec 32
  dstPayload : BitVec 32

def Machine.copy (m : Machine) (ty : RecordType) (src : BitVec 32) : Copy :=
  let len := ofBytes 32 (m.mem.read (m.arenaBase + src.setWidth 64) 4)
  let cursor := alignUpI32 m.tailCursor 0 ty.align
  let dst := m.outPtr + cursor
  ⟨len, (ty.sizes len).1, (ty.sizes len).2, cursor, dst, alignUpI32 src 4 ty.align,
    alignUpI32 dst 4 ty.align⟩

namespace Operation

/-- The comparisons the emitted code makes. -/
def Checked (m : Machine) : Operation → Prop
  | load w offset base | store w offset base _ => base + offset + w.word ≤ m.arenaLen
  | loadField w byteOffset _ => m.inPtr + (byteOffset + w.word) ≤ m.arenaLen
  | storeField w byteOffset _ _ => m.outPtr + (byteOffset + w.word) ≤ m.arenaLen
  | memcpy dest src len => dest + len ≤ m.arenaLen ∧ src + len ≤ m.arenaLen
  | allocLoad size w pos _ | allocStore size w pos _ _ =>
    m.scratchBase + m.scratchCursor + size ≤ m.arenaLen ∧
      m.scratchBase + m.scratchCursor + pos + w.word ≤ m.arenaLen
  | recordCopy ty src =>
    let c := m.copy ty src
    c.dst + c.recordSize ≤ m.arenaLen ∧ c.dst + 4 ≤ m.arenaLen ∧
      c.srcPayload + 0 ≤ m.arenaLen ∧ c.dstPayload + 0 ≤ m.arenaLen

/-- The memory it then touches. -/
def slots (m : Machine) : Operation → List Access
  | load w offset base => [m.slot (base + offset).toNat w.bytes false]
  | store w offset base _ => [m.slot (base + offset).toNat w.bytes true]
  | loadField w byteOffset _ => [m.slot (m.inPtr.toNat + byteOffset.toNat) w.bytes false]
  | storeField w byteOffset _ _ => [m.slot (m.outPtr.toNat + byteOffset.toNat) w.bytes true]
  | memcpy dest src len => [m.slot src.toNat len.toNat false, m.slot dest.toNat len.toNat true]
  | allocLoad _ w pos _ =>
    [m.slot (m.scratchBase + m.scratchCursor + pos).toNat w.bytes false]
  | allocStore _ w pos _ _ =>
    [m.slot (m.scratchBase + m.scratchCursor + pos).toNat w.bytes true]
  | recordCopy ty src =>
    let c := m.copy ty src
    [m.slot src.toNat 4 false, m.slot c.dst.toNat 4 true,
      m.slot c.srcPayload.toNat c.payload.toNat false,
      m.slot c.dstPayload.toNat c.payload.toNat true]

theorem toNat_word (w : Width) : w.word.toNat = w.bytes := by cases w <;> rfl

theorem toNat_add_word {byteOffset : BitVec 32} {w : Width}
    (fits : byteOffset.toNat + w.bytes < 2 ^ 32) :
    (byteOffset + w.word).toNat = byteOffset.toNat + w.bytes := by
  rw [BitVec.toNat_add, toNat_word, Nat.mod_eq_of_lt fits]

/-- The emitted code runs to its end exactly when the comparisons pass. -/
theorem footprint_eq_ok {op : Operation} {m : Machine} {as : List Access} :
    op.footprint m = .ok as ↔ op.Checked m ∧ op.slots m = as := by
  have mapped : op.footprint m = .ok as ↔ ∃ r, op.run { m with accesses := [] } = .ok r ∧
      r.2.accesses = as := by
    unfold footprint
    cases op.run { m with accesses := [] } <;> simp [Except.map]
  rw [mapped]
  cases op with
  | load w offset base =>
    simp only [run, loadAtAbsolute, bind_assoc, arenaAddr_bind_eq_ok, load_bind, pure_apply,
      Except.ok.injEq, and_assoc, exists_and_left, exists_eq_left', Checked, slots, touch,
      nil_append, slot_setWidth, toNat_word]
  | store w offset base value =>
    simp only [run, storeAtAbsolute, arenaAddr_bind_eq_ok, store_apply,
      Except.ok.injEq, and_assoc, exists_and_left, exists_eq_left', Checked, slots, touch,
      nil_append, slot_setWidth, length_leBytes]
  | loadField w byteOffset fits =>
    simp only [run, Codegen.loadField, bind_assoc, bufferFieldAddr_bind_eq_ok, load_bind,
      pure_apply, Except.ok.injEq, and_assoc, exists_and_left, exists_eq_left', Checked, slots,
      touch, pointer, nil_append, slot_setWidth_add, toNat_word]
  | storeField w byteOffset fits value =>
    simp only [run, Codegen.storeField, bufferFieldAddr_bind_eq_ok, store_apply,
      Except.ok.injEq, and_assoc, exists_and_left, exists_eq_left', Checked, slots,
      touch, pointer, nil_append, slot_setWidth_add, length_leBytes]
  | memcpy dest src len =>
    simp only [run, memcpyAtAbsolute, callMemcpy, get_bind, condTrap_bind_eq_ok, load_bind,
      store_apply, Except.ok.injEq, and_assoc, exists_and_left, exists_eq_left', Checked, slots,
      touch, nil_append, cons_append, slot_setWidth,
      Memory.length_read]
  | allocLoad size w pos inside =>
    simp only [run, loadAtAbsolute, bind_assoc, allocScratch_bind_eq_ok, arenaAddr_bind_eq_ok,
      load_bind, pure_apply, Except.ok.injEq, and_assoc, exists_and_left, exists_eq_left',
      Checked, slots, touch, nil_append, slot_setWidth, toNat_word]
  | allocStore size w pos inside value =>
    simp only [run, storeAtAbsolute, allocScratch_bind_eq_ok, arenaAddr_bind_eq_ok, store_apply,
      Except.ok.injEq, and_assoc, exists_and_left, exists_eq_left', Checked, slots, touch,
      nil_append, slot_setWidth, length_leBytes]
  | recordCopy ty src =>
    simp only [run, pointerIndirectRecordCopy, callMemcpy, bind_assoc, get_bind, load_bind,
      tailAlloc_bind_eq_ok, arenaAddr_bind_eq_ok, store_bind, pure_bind, pure_apply,
      Except.ok.injEq, and_assoc, exists_and_left, exists_eq_left', Checked, slots, touch,
      nil_append, cons_append, slot_setWidth, Memory.length_read,
      length_leBytes, copy]

/-! ### Containment -/

/-- The operands for which the comparisons look at too little: an end past 2^32 whose
32-bit sum is small, and for a record copy also the ends that are not compared at all. -/
def Overruns (m : Machine) : Operation → Prop
  | load w offset base | store w offset base _ => 2 ^ 32 ≤ (base + offset).toNat + w.bytes
  | loadField w byteOffset _ => 2 ^ 32 ≤ m.inPtr.toNat + byteOffset.toNat + w.bytes
  | storeField w byteOffset _ _ => 2 ^ 32 ≤ m.outPtr.toNat + byteOffset.toNat + w.bytes
  | memcpy dest src len =>
    0 < len.toNat ∧ (2 ^ 32 ≤ dest.toNat + len.toNat ∨ 2 ^ 32 ≤ src.toNat + len.toNat)
  | allocLoad _ w pos _ | allocStore _ w pos _ _ =>
    2 ^ 32 ≤ (m.scratchBase + m.scratchCursor + pos).toNat + w.bytes
  | recordCopy ty src =>
    let c := m.copy ty src
    m.arenaLen.toNat < src.toNat + 4 ∨ 2 ^ 32 ≤ c.dst.toNat + 4 ∨
      0 < c.payload.toNat ∧ (m.arenaLen.toNat < c.srcPayload.toNat + c.payload.toNat ∨
        m.arenaLen.toNat < c.dstPayload.toNat + c.payload.toNat)

/-- A comparison that passes is exact unless its sum wraps. -/
theorem within_of_checked {off n len : BitVec 32} (checked : off + n ≤ len) :
    off.toNat + n.toNat ≤ len.toNat ↔ off.toNat + n.toNat < 2 ^ 32 := by
  rw [BitVec.le_def, BitVec.toNat_add] at checked
  have := len.isLt
  constructor <;> intro bound <;> omega

/-- Every byte a completed operation touches is in the arena, unless its operands
overrun a comparison. -/
theorem contained_iff {op : Operation} {m : Machine} (mapped : m.Mapped) :
    (∀ as, op.footprint m = .ok as → ∀ a ∈ as, m.Contains a) ↔
      (op.Checked m → ¬ op.Overruns m) := by
  have split : (∀ as, op.footprint m = .ok as → ∀ a ∈ as, m.Contains a) ↔
      (op.Checked m → ∀ a ∈ op.slots m, m.Contains a) := by
    constructor
    · intro contained checked
      exact contained _ (footprint_eq_ok.mpr ⟨checked, rfl⟩)
    · rintro contained as ran
      obtain ⟨checked, rfl⟩ := footprint_eq_ok.mp ran
      exact contained checked
  rw [split]
  refine imp_congr_right fun checked => ?_
  cases op with
  | load w offset base | store w offset base value =>
    have := w.bytes_pos
    have precise := within_of_checked checked
    rw [toNat_word] at precise
    simp only [slots, mem_singleton, forall_eq, Overruns]
    rw [contains_slot mapped (by omega)]
    omega
  | loadField w byteOffset fits | storeField w byteOffset fits value =>
    have := w.bytes_pos
    have precise := within_of_checked checked
    rw [toNat_add_word fits] at precise
    simp only [slots, mem_singleton, forall_eq, Overruns]
    rw [contains_slot mapped (by omega)]
    omega
  | memcpy dest src len =>
    have exactDest := within_of_checked checked.1
    have exactSrc := within_of_checked checked.2
    simp only [slots, mem_cons, not_mem_nil, or_false, forall_eq_or_imp, forall_eq, Overruns]
    rw [contains_slot mapped (by omega), contains_slot mapped (by omega)]
    omega
  | allocLoad size w pos inside | allocStore size w pos inside value =>
    have := w.bytes_pos
    have precise := within_of_checked checked.2
    rw [toNat_word] at precise
    simp only [slots, mem_singleton, forall_eq, Overruns]
    rw [contains_slot mapped (by omega)]
    omega
  | recordCopy ty src =>
    have exactDst := within_of_checked checked.2.1
    rw [show (4 : BitVec 32).toNat = 4 from rfl] at exactDst
    simp only [slots, mem_cons, not_mem_nil, or_false, forall_eq_or_imp, forall_eq, Overruns]
    rw [contains_slot mapped (by omega), contains_slot mapped (by omega),
      contains_slot mapped (by omega), contains_slot mapped (by omega)]
    omega

/-- An arena of 64 bytes with a 5-byte record in it and, in its last word, the header of a
16-byte one. -/
def sampleArena : Machine where
  arenaBase := 0x10000
  arenaLen := 64
  scratchBase := 32
  scratchCursor := 0
  tailCursor := 0
  inPtr := 0
  outPtr := 0
  mem := fun addr => if addr = 0x10028 then 5 else if addr = 0x1003C then 16 else 0
  accesses := []
  blocks := []

/-- A four-byte load at offset 2^32 - 1 ends at 3 for its check, and reads the host's
memory 4 GiB above the arena; the copy of the record in the last word reads the 16 bytes
after the arena. -/
theorem load_and_copy_escape : sampleArena.Mapped ∧
      (load .four 0 0xFFFFFFFF).footprint sampleArena = .ok [⟨0x10000FFFF, 4, false⟩] ∧
      ¬ sampleArena.Contains ⟨0x10000FFFF, 4, false⟩ ∧
      (recordCopy .string 60).footprint sampleArena = .ok [⟨0x1003C, 4, false⟩,
        ⟨0x10000, 4, true⟩, ⟨0x10040, 16, false⟩, ⟨0x10004, 16, true⟩] ∧
      ¬ sampleArena.Contains ⟨0x10040, 16, false⟩ := by
  refine ⟨by decide, rfl, by decide, rfl, by decide⟩

/-- The copy of a record whose header and payload lie inside the arena. -/
theorem copy_contained : sampleArena.Mapped ∧
      (recordCopy .string 40).footprint sampleArena = .ok [⟨0x10028, 4, false⟩,
        ⟨0x10000, 4, true⟩, ⟨0x1002C, 5, false⟩, ⟨0x10004, 5, true⟩] ∧
      ∀ as, (recordCopy .string 40).footprint sampleArena = .ok as →
        ∀ a ∈ as, sampleArena.Contains a :=
  ⟨by decide, rfl, (contained_iff (by decide)).mpr fun _ => by unfold Overruns; decide⟩

end Operation

end Relon.Codegen
