import Relon.Lib.Memory

/-! Memory operations of the Cranelift backend (`codegen/memory.rs`,
`codegen/field.rs`).

Each definition is what the code emitted by the source function of the same name
does when it runs with bounds checks on: offsets and lengths are 32-bit words that
wrap, addresses are formed in 64 bits, and a failed check raises a trap. Loads and
stores go to host memory, whether or not they hit the arena. `accesses` and `blocks`
are not in the source; they list the memory the emitted code touched and the scratch
blocks it was given. -/
namespace Relon.Codegen

open Bytes

inductive TrapKind where
  | divisionByZero | boundsViolation | capabilityDenied | resourceExhausted | unreachable
  | numericOverflow | noMatch
  deriving DecidableEq, Repr

/-- A stretch of host memory that was read or written. -/
structure Access where
  addr : BitVec 64
  len : Nat
  writes : Bool
  deriving DecidableEq, Repr

/-- The fields of `SandboxState` the emitted code uses, with the handshake pointers of
the call and the memory of the host. -/
structure Machine where
  arenaBase : BitVec 64
  arenaLen : BitVec 32
  scratchBase : BitVec 32
  scratchCursor : BitVec 32
  tailCursor : BitVec 32
  inPtr : BitVec 32
  outPtr : BitVec 32
  mem : Memory
  accesses : List Access
  blocks : List (BitVec 32 × BitVec 32)

abbrev Emitted := StateT Machine (Except TrapKind)

/-- `cond_trap`. -/
def condTrap (cond : Bool) (kind : TrapKind) : Emitted Unit :=
  if cond then throw kind else pure ()

/-! ### Host memory -/

def Machine.touch (m : Machine) (addr : BitVec 64) (len : Nat) (writes : Bool) : Machine :=
  { m with accesses := m.accesses ++ [⟨addr, len, writes⟩] }

/-- The machine instruction `load`, of `n` bytes. -/
def load (n : Nat) (addr : BitVec 64) : Emitted (List UInt8) := fun m =>
  .ok (m.mem.read addr n, m.touch addr n false)

/-- The machine instruction `store`. -/
def store (addr : BitVec 64) (bs : List UInt8) : Emitted Unit := fun m =>
  .ok ((), { m with mem := m.mem.write addr bs }.touch addr bs.length true)

/-- `call_memcpy`. -/
def callMemcpy (dest src : BitVec 64) (len : Nat) : Emitted Unit := do
  let bs ← load len src
  store dest bs

/-! Each instruction in front of the rest of the code. -/

section
variable {α : Type} {m : Machine}

theorem bind_eq_ok {β : Type} {code : Emitted β} {f : β → Emitted α} {r : α × Machine} :
    (code >>= f) m = .ok r ↔ ∃ b m', code m = .ok (b, m') ∧ f b m' = .ok r := by
  cases ran : code m with
  | error kind => simp [bind, StateT.bind, ran, Except.bind]
  | ok o =>
    obtain ⟨b, m'⟩ := o
    simp [bind, StateT.bind, ran, Except.bind]

theorem get_bind (f : Machine → Emitted α) : (get >>= f) m = f m m := rfl

theorem set_bind (n : Machine) (f : Unit → Emitted α) : (set n >>= f) m = f () n := rfl

theorem load_bind (n : Nat) (addr : BitVec 64) (f : List UInt8 → Emitted α) :
    (load n addr >>= f) m = f (m.mem.read addr n) (m.touch addr n false) := rfl

theorem store_bind (addr : BitVec 64) (bs : List UInt8) (f : Unit → Emitted α) :
    (store addr bs >>= f) m =
      f () ({ m with mem := m.mem.write addr bs }.touch addr bs.length true) := rfl

theorem store_apply (addr : BitVec 64) (bs : List UInt8) :
    store addr bs m = .ok ((), { m with mem := m.mem.write addr bs }.touch addr bs.length true) :=
  rfl

theorem pure_apply (a : α) : (pure a : Emitted α) m = .ok (a, m) := rfl

/-- A comparison passes when the end of the slot is within the arena. -/
theorem condTrap_bind_eq_ok {w : Nat} {len stop : BitVec w} {kind : TrapKind} {f : Unit → Emitted α}
    {r : α × Machine} :
    (condTrap (len < stop) kind >>= f) m = .ok r ↔ stop ≤ len ∧ f () m = .ok r := by
  by_cases past : len < stop
  · have beyond : ¬ stop ≤ len := BitVec.not_le.mpr past
    simp only [condTrap, past, decide_true, if_true, beyond, false_and, iff_false]
    exact nofun
  · have within : stop ≤ len := BitVec.not_lt.mp past
    simp only [condTrap, past, decide_false, Bool.false_eq_true, if_false, within, true_and]
    exact Iff.rfl

end

/-- A little-endian word of `w` bits. -/
def ofBytes (w : Nat) (bs : List UInt8) : BitVec w := BitVec.ofNat w (leNat bs)

/-! ### The arena -/

/-- `arena_addr`: the end of the slot is computed in 32 bits, its address in 64. -/
def arenaAddr (off slotSize : BitVec 32) : Emitted (BitVec 64) := do
  let m ← get
  condTrap (m.arenaLen < off + slotSize) .boundsViolation
  pure (m.arenaBase + off.setWidth 64)

variable {α : Type} {m : Machine} {r : α × Machine} {f : BitVec 64 → Emitted α}

theorem arenaAddr_bind_eq_ok {off slotSize : BitVec 32} : (arenaAddr off slotSize >>= f) m = .ok r ↔
      off + slotSize ≤ m.arenaLen ∧ f (m.arenaBase + off.setWidth 64) m = .ok r := by
  simp only [arenaAddr, bind_assoc, get_bind, condTrap_bind_eq_ok, pure_bind]

/-- `emit_load_*_at_absolute`, for a slot of `width` bytes. -/
def loadAtAbsolute (width : BitVec 32) (offset base : BitVec 32) : Emitted (List UInt8) := do
  let abs ← arenaAddr (base + offset) width
  load width.toNat abs

/-- `emit_store_*_at_absolute`, for the bytes of the value. -/
def storeAtAbsolute (width : BitVec 32) (offset base : BitVec 32) (value : List UInt8) :
    Emitted Unit := do
  let abs ← arenaAddr (base + offset) width
  store abs value

def loadI32AtAbsolute (offset base : BitVec 32) : Emitted (BitVec 32) := do
  let bs ← loadAtAbsolute 4 offset base
  pure (ofBytes 32 bs)

def loadI64AtAbsolute (offset base : BitVec 32) : Emitted (BitVec 64) := do
  let bs ← loadAtAbsolute 8 offset base
  pure (ofBytes 64 bs)

def loadI8UAtAbsolute (offset base : BitVec 32) : Emitted (BitVec 32) := do
  let bs ← loadAtAbsolute 1 offset base
  pure (ofBytes 32 bs)

def storeI32AtAbsolute (offset base value : BitVec 32) : Emitted Unit :=
  storeAtAbsolute 4 offset base (leBytes 4 value.toNat)

/-- `emit_store_i64_at_absolute`; a float is stored by its bits, `emit_store_f64_at_absolute`. -/
def storeI64AtAbsolute (offset base : BitVec 32) (value : BitVec 64) : Emitted Unit :=
  storeAtAbsolute 8 offset base (leBytes 8 value.toNat)

/-- `emit_store_i8_at_absolute`: the low byte of the value. -/
def storeI8AtAbsolute (offset base value : BitVec 32) : Emitted Unit :=
  storeAtAbsolute 1 offset base (leBytes 1 value.toNat)

/-- `emit_memcpy_at_absolute`. -/
def memcpyAtAbsolute (dest src len : BitVec 32) : Emitted Unit := do
  let m ← get
  condTrap (m.arenaLen < dest + len) .boundsViolation
  condTrap (m.arenaLen < src + len) .boundsViolation
  callMemcpy (m.arenaBase + dest.setWidth 64) (m.arenaBase + src.setWidth 64) len.toNat

/-- `emit_alloc_scratch`. -/
def allocScratch (size : BitVec 32) : Emitted (BitVec 32) := do
  let m ← get
  condTrap (m.arenaLen < m.scratchBase + m.scratchCursor + size) .boundsViolation
  let off := m.scratchBase + m.scratchCursor
  set { m with
    scratchCursor := m.scratchCursor + size
    blocks := m.blocks ++ [(off, size)] }
  pure off

theorem allocScratch_bind_eq_ok {size : BitVec 32} {f : BitVec 32 → Emitted α} :
    (allocScratch size >>= f) m = .ok r ↔ m.scratchBase + m.scratchCursor + size ≤ m.arenaLen ∧
        f (m.scratchBase + m.scratchCursor)
          { m with
            scratchCursor := m.scratchCursor + size
            blocks := m.blocks ++ [(m.scratchBase + m.scratchCursor, size)] } = .ok r := by
  simp only [allocScratch, bind_assoc, get_bind, condTrap_bind_eq_ok, set_bind, pure_bind]

/-! ### The buffers of a call -/

/-- The handshake slot a field is addressed from. -/
inductive Buffer where
  | input | output
  deriving DecidableEq, Repr

def Machine.pointer (m : Machine) : Buffer → BitVec 32
  | .input => m.inPtr
  | .output => m.outPtr

/-- `buffer_field_addr`. The end of the slot inside the buffer is known to the compiler,
which refuses one that does not fit in 32 bits. -/
def bufferFieldAddr (buffer : Buffer) (byteOffset slotSize : BitVec 32) : Emitted (BitVec 64) := do
  let m ← get
  condTrap (m.arenaLen < m.pointer buffer + (byteOffset + slotSize)) .boundsViolation
  pure (m.arenaBase + (m.pointer buffer).setWidth 64 + byteOffset.setWidth 64)

theorem bufferFieldAddr_bind_eq_ok {buffer : Buffer} {byteOffset slotSize : BitVec 32} :
    (bufferFieldAddr buffer byteOffset slotSize >>= f) m = .ok r ↔
      m.pointer buffer + (byteOffset + slotSize) ≤ m.arenaLen ∧
        f (m.arenaBase + (m.pointer buffer).setWidth 64 + byteOffset.setWidth 64) m = .ok r := by
  simp only [bufferFieldAddr, bind_assoc, get_bind, condTrap_bind_eq_ok, pure_bind]

/-- `emit_load_field`, for a slot of `width` bytes. -/
def loadField (width byteOffset : BitVec 32) : Emitted (List UInt8) := do
  let addr ← bufferFieldAddr .input byteOffset width
  load width.toNat addr

/-- `emit_store_field` for a scalar, given by its bytes. -/
def storeField (width byteOffset : BitVec 32) (value : List UInt8) : Emitted Unit := do
  let addr ← bufferFieldAddr .output byteOffset width
  store addr value

/-- Round `x` up to a multiple of the power of two `align`. -/
def alignMask (x align : BitVec 32) : BitVec 32 := (x + (align - 1)) &&& ~~~(align - 1)

/-- `align_up_i32`. -/
def alignUpI32 (value add align : BitVec 32) : BitVec 32 :=
  if align ≤ 1 then value + add else alignMask (value + add) align

/-- `emit_tail_alloc`. -/
def tailAlloc (size align : BitVec 32) : Emitted (BitVec 32) := do
  let m ← get
  let aligned := alignUpI32 m.tailCursor 0 align
  condTrap (m.arenaLen < m.outPtr + aligned + size) .boundsViolation
  set { m with tailCursor := aligned + size }
  pure aligned

theorem tailAlloc_bind_eq_ok {size align : BitVec 32} {f : BitVec 32 → Emitted α} :
    (tailAlloc size align >>= f) m = .ok r ↔
      m.outPtr + alignUpI32 m.tailCursor 0 align + size ≤ m.arenaLen ∧
        f (alignUpI32 m.tailCursor 0 align)
          { m with tailCursor := alignUpI32 m.tailCursor 0 align + size } = .ok r := by
  simp only [tailAlloc, bind_assoc, get_bind, condTrap_bind_eq_ok, set_bind, pure_bind]

/-- The record types `emit_pointer_indirect_record_copy` accepts. -/
inductive RecordType where
  | string | listBool | listInt | listFloat
  deriving DecidableEq, Repr

namespace RecordType

/-- `pointer_indirect_record_align`. -/
def align : RecordType → BitVec 32
  | string | listBool => 4
  | listInt | listFloat => 8

/-- The size of the record and of its payload, by its element count. -/
def sizes (len : BitVec 32) : RecordType → BitVec 32 × BitVec 32
  | string | listBool => (len + 4, len)
  | listInt | listFloat => ((len <<< 3) + 8, len <<< 3)

end RecordType

/-- `emit_pointer_indirect_record_copy`. -/
def pointerIndirectRecordCopy (ty : RecordType) (src : BitVec 32) : Emitted (BitVec 32) := do
  let m ← get
  let header ← load 4 (m.arenaBase + src.setWidth 64)
  let len := ofBytes 32 header
  let (recordSize, payloadBytes) := ty.sizes len
  let preCursor ← tailAlloc recordSize ty.align
  let dst := m.outPtr + preCursor
  let dstAbs ← arenaAddr dst 4
  store dstAbs (leBytes 4 len.toNat)
  let srcPayloadAbs ← arenaAddr (alignUpI32 src 4 ty.align) 0
  let dstPayloadAbs ← arenaAddr (alignUpI32 dst 4 ty.align) 0
  callMemcpy dstPayloadAbs srcPayloadAbs payloadBytes.toNat
  pure dst

/-- `emit_store_pointer_indirect`. -/
def storePointerIndirect (byteOffset : BitVec 32) (ty : RecordType) (src : BitVec 32) :
    Emitted Unit := do
  let record ← pointerIndirectRecordCopy ty src
  let slot ← bufferFieldAddr .output byteOffset 4
  store slot (leBytes 4 record.toNat)

end Relon.Codegen
