import Relon.Codegen.Arena

/-! Strings in scratch memory.

A String record is a four-byte length and the bytes. The builders put one at the
scratch cursor; a result is copied from there into the output buffer by
`emit_pointer_indirect_record_copy`, which looks for the bytes at the next multiple
of four after the length. The copy is the record only if the record starts on such a
multiple, or if moving its bytes by the difference happens to change nothing. -/
namespace Relon.Codegen

open Bytes BitVec Memory

/-! ### Builders -/

/-- The length headers `emit_str_concat_n` loads. -/
def loadLens : List (BitVec 32) → Emitted (List (BitVec 32))
  | [] => pure []
  | off :: offs => do
    let abs ← arenaAddr off 4
    let header ← load 4 abs
    let lens ← loadLens offs
    pure (ofBytes 32 header :: lens)

/-- Its copies of the payloads, at the running cursor. -/
def copyPayloads (cursor : BitVec 32) : List (BitVec 32 × BitVec 32) → Emitted Unit
  | [] => pure ()
  | (off, len) :: rest => do
    memcpyAtAbsolute cursor (off + 4) len
    copyPayloads (cursor + len) rest

/-- `emit_str_concat_n`. -/
def strConcatN (offs : List (BitVec 32)) : Emitted (BitVec 32) := do
  let lens ← loadLens offs
  let total := lens.sum
  let base ← allocScratch (total + 4)
  let abs ← arenaAddr base 4
  store abs (leBytes 4 total.toNat)
  copyPayloads (base + 4) (offs.zip lens)
  pure base

/-- The first loop of `emit_int_to_str`. -/
def countDigits (t : BitVec 64) (count : BitVec 32) : BitVec 32 :=
  if 10 ≤ t.toNat then countDigits (t / 10) (count + 1) else count
termination_by t.toNat
decreasing_by
  rw [toNat_udiv, show (10 : BitVec 64).toNat = 10 from rfl]
  omega

/-- The second loop of `emit_int_to_str`: the digits from the last to the first. -/
def writeDigits (mag : BitVec 64) (cursor : BitVec 32) : Emitted Unit := do
  let abs ← arenaAddr (cursor - 1) 1
  store abs [UInt8.ofNat (48 + (mag % 10).toNat)]
  if mag / 10 = 0 then pure () else writeDigits (mag / 10) (cursor - 1)
termination_by mag.toNat
decreasing_by
  rename_i nonzero
  rw [toNat_udiv, show (10 : BitVec 64).toNat = 10 from rfl]
  rw [← toNat_inj, toNat_udiv, show (10 : BitVec 64).toNat = 10 from rfl,
    show (0 : BitVec 64).toNat = 0 from rfl] at nonzero
  omega

/-- `emit_int_to_str`. -/
def intToStr (v : BitVec 64) : Emitted (BitVec 32) := do
  let isNeg := v.slt 0
  let mag := if isNeg then 0 - v else v
  let signLen : BitVec 32 := if isNeg then 1 else 0
  let digitCount := countDigits mag 1
  let totalLen := digitCount + signLen
  let recordSize := alignMask (totalLen + 4) 4
  let base ← allocScratch recordSize
  let abs ← arenaAddr base 4
  store abs (leBytes 4 totalLen.toNat)
  let payload := base + 4
  writeDigits mag (payload + signLen + digitCount)
  if isNeg then do
    let minus ← arenaAddr payload 1
    store minus [45]
  pure base

/-! ### Where a record is built -/

/-- The scratch offset the next allocation returns. -/
def Machine.scratchTop (m : Machine) : BitVec 32 := m.scratchBase + m.scratchCursor

/-- The two machines have the same arena, buffers and scratch cursor. -/
structure Machine.SameFrame (m m' : Machine) : Prop where
  base : m'.arenaBase = m.arenaBase
  len : m'.arenaLen = m.arenaLen
  scratchBase : m'.scratchBase = m.scratchBase
  scratchCursor : m'.scratchCursor = m.scratchCursor
  outPtr : m'.outPtr = m.outPtr
  tailCursor : m'.tailCursor = m.tailCursor

namespace Machine.SameFrame

theorem refl (m : Machine) : m.SameFrame m := ⟨rfl, rfl, rfl, rfl, rfl, rfl⟩

theorem trans {m₁ m₂ m₃ : Machine} (a : m₁.SameFrame m₂) (b : m₂.SameFrame m₃) : m₁.SameFrame m₃ :=
  ⟨b.base.trans a.base, b.len.trans a.len, b.scratchBase.trans a.scratchBase,
    b.scratchCursor.trans a.scratchCursor, b.outPtr.trans a.outPtr, b.tailCursor.trans a.tailCursor⟩

theorem scratchTop {m m' : Machine} (same : m.SameFrame m') : m'.scratchTop = m.scratchTop := by
  rw [Machine.scratchTop, Machine.scratchTop, same.scratchBase, same.scratchCursor]

end Machine.SameFrame

/-- Code that allocates nothing. -/
def Steady {α : Type} (code : Emitted α) : Prop :=
  ∀ (m m' : Machine) (a : α), code m = .ok (a, m') → m.SameFrame m'

namespace Steady

variable {α β : Type}

theorem pure (a : α) : Steady (Pure.pure a : Emitted α) := by
  intro m m' b ran
  obtain ⟨-, rfl⟩ : a = b ∧ m = m' := by simpa [pure_apply] using ran
  exact .refl m

theorem bind {code : Emitted α} {f : α → Emitted β} (first : Steady code)
    (second : ∀ a, Steady (f a)) : Steady (code >>= f) := by
  intro m m'' b ran
  obtain ⟨a, m', stepped, rest⟩ := bind_eq_ok.mp ran
  exact (first _ _ _ stepped).trans (second a _ _ _ rest)

theorem arenaAddr (off size : BitVec 32) : Steady (arenaAddr off size) := by
  intro m m' a ran
  rw [← bind_pure (Codegen.arenaAddr off size), arenaAddr_bind_eq_ok, pure_apply] at ran
  cases ran.2
  exact .refl m

theorem load (n : Nat) (addr : BitVec 64) : Steady (load n addr) := by
  intro m m' a ran
  cases ran
  exact ⟨rfl, rfl, rfl, rfl, rfl, rfl⟩

theorem store (addr : BitVec 64) (bs : List UInt8) : Steady (store addr bs) := by
  intro m m' a ran
  cases ran
  exact ⟨rfl, rfl, rfl, rfl, rfl, rfl⟩

theorem memcpyAtAbsolute (dest src len : BitVec 32) : Steady (memcpyAtAbsolute dest src len) := by
  intro m m' a ran
  simp only [Codegen.memcpyAtAbsolute, callMemcpy, get_bind, condTrap_bind_eq_ok, load_bind,
    store_apply] at ran
  cases ran.2.2
  exact ⟨rfl, rfl, rfl, rfl, rfl, rfl⟩

theorem loadAtAbsolute (width offset base : BitVec 32) :
    Steady (loadAtAbsolute width offset base) :=
  (arenaAddr _ _).bind fun _ => load _ _

theorem storeAtAbsolute (width offset base : BitVec 32) (value : List UInt8) :
    Steady (storeAtAbsolute width offset base value) :=
  (arenaAddr _ _).bind fun _ => store _ _

theorem loadLens (offs : List (BitVec 32)) : Steady (loadLens offs) := by
  induction offs with
  | nil => exact pure _
  | cons off offs ih =>
    exact (arenaAddr off 4).bind fun _ => (load 4 _).bind fun _ => ih.bind fun _ => pure _

end Steady

/-- A concatenation builds its record at the scratch cursor. -/
theorem strConcatN_top {offs : List (BitVec 32)} {m m' : Machine} {r : BitVec 32}
    (ran : strConcatN offs m = .ok (r, m')) : r = m.scratchTop := by
  obtain ⟨lens, m₁, loaded, rest⟩ := bind_eq_ok.mp ran
  simp only [allocScratch_bind_eq_ok, arenaAddr_bind_eq_ok, store_bind] at rest
  obtain ⟨_, _, -, last⟩ := bind_eq_ok.mp rest.2.2
  cases last
  exact (Steady.loadLens offs _ _ _ loaded).scratchTop

/-- So does the rendering of an integer. -/
theorem intToStr_top {v : BitVec 64} {m m' : Machine} {r : BitVec 32}
    (ran : intToStr v m = .ok (r, m')) : r = m.scratchTop := by
  simp only [intToStr, allocScratch_bind_eq_ok, arenaAddr_bind_eq_ok, store_bind] at ran
  obtain ⟨_, _, -, rest⟩ := bind_eq_ok.mp ran.2.2
  split at rest
  · simp only [arenaAddr_bind_eq_ok, store_bind] at rest
    cases rest.2
    rfl
  · cases rest
    rfl

/-! ### The stored record -/

namespace Machine

variable (m : Machine)

/-- The bytes at an offset of the arena. -/
def bytes (off n : Nat) : List UInt8 := m.mem.window m.arenaBase off n

/-- The length in a record's header. -/
def stringLen (off : Nat) : Nat := leNat (m.bytes off 4)

/-- A String record: its length and its bytes. -/
def stringAt (off : Nat) : Nat × List UInt8 :=
  (m.stringLen off, m.bytes (off + 4) (m.stringLen off))

/-- Where the next record of the output buffer goes. -/
def recordStart : BitVec 32 := m.outPtr + alignUpI32 m.tailCursor 0 4

/-- The record at `src` fits the output buffer: the slot of the result lies before the
record's place there, which ends before the record itself. -/
structure Fits (byteOffset src : BitVec 32) : Prop where
  aligned : m.outPtr.toNat % 4 = 0
  slot : m.outPtr.toNat + byteOffset.toNat + 4 ≤ m.recordStart.toNat
  room : m.recordStart.toNat + 4 + m.stringLen src.toNat ≤ src.toNat
  source : src.toNat + 4 + m.stringLen src.toNat + 4 < 2 ^ 32

instance (byteOffset src : BitVec 32) : Decidable (m.Fits byteOffset src) :=
  decidable_of_iff (m.outPtr.toNat % 4 = 0 ∧
      m.outPtr.toNat + byteOffset.toNat + 4 ≤ m.recordStart.toNat ∧
      m.recordStart.toNat + 4 + m.stringLen src.toNat ≤ src.toNat ∧
      src.toNat + 4 + m.stringLen src.toNat + 4 < 2 ^ 32)
    ⟨fun ⟨a, b, c, d⟩ => ⟨a, b, c, d⟩, fun ⟨a, b, c, d⟩ => ⟨a, b, c, d⟩⟩

end Machine

variable {m m' : Machine} {src byteOffset : BitVec 32}

theorem bytes_add (q a b : Nat) : m.bytes q (a + b) = m.bytes q a ++ m.bytes (q + a) b := by
  simp only [Machine.bytes, window, List.range_add, List.map_append, List.map_map]
  refine congrArg _ (List.map_congr_left fun x _ => ?_)
  rw [Function.comp_apply, Nat.add_assoc]

theorem ofBytes_read {off : BitVec 32} :
    (ofBytes 32 (m.mem.read (m.arenaBase + off.setWidth 64) 4)).toNat = m.stringLen off.toNat := by
  have four : leNat (m.bytes off.toNat 4) < 256 ^ 4 := by
    have := leNat_lt (m.bytes off.toNat 4)
    rwa [Machine.bytes, length_window] at this
  rw [ofBytes, toNat_ofNat, ← ofNat_toNat, read_eq_window]
  exact Nat.mod_eq_of_lt four

/-- Rounding up a 32-bit offset to a multiple of four. -/
theorem toNat_alignUpI32 {x add : BitVec 32} (fits : x.toNat + add.toNat + 3 < 2 ^ 32) :
    (alignUpI32 x add 4).toNat = alignUp (x.toNat + add.toNat) 4 := by
  have sum : (x + add).toNat = x.toNat + add.toNat := by
    rw [toNat_add, Nat.mod_eq_of_lt (by omega)]
  have rounded := Words.toNat_alignUp (x + add) 2 (by rw [sum]; exact fits)
  rw [sum] at rounded
  exact rounded

theorem Machine.Fits.recordStart_mod (fits : m.Fits byteOffset src) :
    m.recordStart.toNat % 4 = 0 := by
  have masked : (alignUpI32 m.tailCursor 0 4).toNat % 4 = 0 := by
    have cut : (alignUpI32 m.tailCursor 0 4).toNat = _ :=
      Words.toNat_mask (m.tailCursor + 0 + 3) 2
    rw [cut]
    exact Nat.mul_mod_left _ _
  have := fits.aligned
  rw [recordStart, toNat_add]
  omega

theorem mem_storePointerIndirect
    (ran : storePointerIndirect byteOffset .string src m = .ok ((), m')) :
    let header := m.mem.write (m.arenaBase + m.recordStart.setWidth 64)
      (leBytes 4 (m.stringLen src.toNat))
    m'.arenaBase = m.arenaBase ∧
      m'.mem = (header.write (m.arenaBase + (alignUpI32 m.recordStart 4 4).setWidth 64)
        (header.read (m.arenaBase + (alignUpI32 src 4 4).setWidth 64) (m.stringLen src.toNat))).write
          (m.arenaBase + m.outPtr.setWidth 64 + byteOffset.setWidth 64)
          (leBytes 4 m.recordStart.toNat) := by
  simp only [storePointerIndirect, pointerIndirectRecordCopy, callMemcpy, bind_assoc, get_bind,
    load_bind, tailAlloc_bind_eq_ok, arenaAddr_bind_eq_ok, store_bind, pure_bind,
    bufferFieldAddr_bind_eq_ok, store_apply, Machine.touch, Machine.pointer, ofBytes_read,
    RecordType.align, RecordType.sizes] at ran
  obtain ⟨-, -, -, -, -, stored⟩ := ran
  cases stored
  exact ⟨rfl, rfl⟩

/-- Storing a string copies its length, and as many bytes from the next multiple of four
after the length. -/
theorem stringAt_storePointerIndirect (fits : m.Fits byteOffset src)
    (ran : storePointerIndirect byteOffset .string src m = .ok ((), m')) :
    m'.stringAt m.recordStart.toNat =
      (m.stringLen src.toNat, m.bytes (alignUp (src.toNat + 4) 4) (m.stringLen src.toNat)) := by
  have start := fits.recordStart_mod
  have slot := fits.slot
  have room := fits.room
  have source := fits.source
  have rounded : alignUp (src.toNat + 4) 4 < src.toNat + 4 + 4 := alignUp_lt (by decide)
  have beyond : src.toNat + 4 ≤ alignUp (src.toNat + 4) 4 := le_alignUp _ _
  have srcPayload : (alignUpI32 src 4 4).toNat = alignUp (src.toNat + 4) 4 :=
    toNat_alignUpI32 (by show src.toNat + 4 + 3 < _; omega)
  have dstPayload : (alignUpI32 m.recordStart 4 4).toNat = m.recordStart.toNat + 4 := by
    rw [toNat_alignUpI32 (by show m.recordStart.toNat + 4 + 3 < _; omega)]
    show alignUp (m.recordStart.toNat + 4) 4 = _
    rw [alignUp, if_pos (by omega)]
  obtain ⟨base, mem⟩ := mem_storePointerIndirect ran
  rw [BitVec.add_assoc] at mem
  simp only [← ofNat_toNat, ← ofNat_add, srcPayload, dstPayload, read_eq_window] at mem
  -- the payload is read from where the header was not written
  rw [window_write_apart (by simp; omega) (by omega) (by simp; omega)] at mem
  generalize payloadDef : m.mem.window m.arenaBase (alignUp (src.toNat + 4) 4)
    (m.stringLen src.toNat) = payload at mem
  have lenPayload : payload.length = m.stringLen src.toNat := by
    rw [← payloadDef, length_window]
  have header : m'.stringLen m.recordStart.toNat = m.stringLen src.toNat := by
    rw [Machine.stringLen, Machine.bytes, base, mem,
      window_write_apart (by simp; omega) (by omega) (by simp; omega),
      window_write_apart (by omega) (by omega) (by omega)]
    rw [window_write_same (length_leBytes 4 _) (by omega), leNat_leBytes (by omega)]
  rw [Machine.stringAt, header, Machine.bytes, Machine.bytes, base, mem, payloadDef,
    window_write_apart (by simp; omega) (by omega) (by simp; omega),
    window_write_same lenPayload (by omega)]

end Relon.Codegen
