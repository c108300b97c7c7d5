import Relon.Codegen.Arena

/-! Arena accesses and scratch blocks of the LLVM backend (`codegen/mem.rs`).

The cursor and the offsets of blocks are 32-bit words that wrap, as in the Cranelift
backend, but every check widens its operands to 64 bits first. So a check cannot be passed by
wrapping, and a block that passed moves the cursor to a place inside the arena: the 32-bit
sums never wrap either. -/
namespace Relon.Codegen.Llvm
open List BitVec

/-- `emit_arena_bounds_check`, on operands already widened by `zext_to_i64`. -/
def arenaBoundsCheck (offset accessLen : BitVec 64) : Emitted Unit := do
  let m ← get
  condTrap (m.arenaLen.setWidth 64 < offset + accessLen) .boundsViolation

/-- `arena_addr_from_base_offset`. -/
def arenaAddrFromBaseOffset (offset : BitVec 64) : Emitted (BitVec 64) := do
  let m ← get
  pure (m.arenaBase + offset)

/-- `arena_addr_i32_checked`. -/
def arenaAddrI32Checked (off accessLen : BitVec 32) : Emitted (BitVec 64) := do
  arenaBoundsCheck (off.setWidth 64) (accessLen.setWidth 64)
  arenaAddrFromBaseOffset (off.setWidth 64)

/-- `arena_addr_i32_offset_checked`: the constant offset is added in 64 bits. -/
def arenaAddrI32OffsetChecked (base offset accessLen : BitVec 32) : Emitted (BitVec 64) := do
  let composed := base.setWidth 64 + offset.setWidth 64
  arenaBoundsCheck composed (accessLen.setWidth 64)
  arenaAddrFromBaseOffset composed

/-- `emit_alloc_scratch_common`. -/
def allocScratchCommon (size : BitVec 32) : Emitted (BitVec 32) := do
  let m ← get
  let off := m.scratchBase + m.scratchCursor
  let newCur := m.scratchCursor + size
  arenaBoundsCheck (off.setWidth 64) (size.setWidth 64)
  set { m with scratchCursor := newCur, blocks := m.blocks ++ [(off, size)] }
  pure off

/-- How an access is addressed. -/
inductive Address where
  | at_ (off : BitVec 32)
  | behind (base offset : BitVec 32)

def Address.checked (accessLen : BitVec 32) : Address → Emitted (BitVec 64)
  | at_ off => arenaAddrI32Checked off accessLen
  | behind base offset => arenaAddrI32OffsetChecked base offset accessLen

/-- What compiled code does to the arena, with its run-time operands. -/
inductive Operation where
  | allocScratch (size : BitVec 32)
  | load (address : Address) (len : BitVec 32)
  | store (address : Address) (len : BitVec 32) (value : Fin len.toNat → UInt8)
  | memcpy (dst src len : BitVec 32)

def Operation.run : Operation → Emitted Unit
  | allocScratch size => do
    let _ ← allocScratchCommon size
  | load address len => do
    let addr ← address.checked len
    let _ ← Codegen.load len.toNat addr
  | store address len value => do
    let addr ← address.checked len
    Codegen.store addr (List.ofFn value)
  | memcpy dst src len => do
    let dstPtr ← arenaAddrI32Checked dst len
    let srcPtr ← arenaAddrI32Checked src len
    callMemcpy dstPtr srcPtr len.toNat

def runAll : List Operation → Emitted Unit
  | [] => pure ()
  | op :: ops => do
    op.run
    runAll ops

/-! ### One operation -/

/-- The access is to a stretch of the arena. -/
def Inside (m : Machine) (a : Access) : Prop :=
  ∃ off : Nat, a.addr = m.arenaBase + BitVec.ofNat 64 off ∧ off + a.len ≤ m.arenaLen.toNat

section
variable {α : Type} {m : Machine} {r : α × Machine}

theorem arenaBoundsCheck_bind_eq_ok {offset accessLen : BitVec 64} {f : Unit → Emitted α} :
    (arenaBoundsCheck offset accessLen >>= f) m = .ok r ↔
      offset + accessLen ≤ m.arenaLen.setWidth 64 ∧ f () m = .ok r := by
  have composed : (arenaBoundsCheck offset accessLen >>= f) m =
      (condTrap (m.arenaLen.setWidth 64 < offset + accessLen) .boundsViolation >>= f) m := rfl
  rw [composed, condTrap_bind_eq_ok]

/-- The check is that of the numbers, whatever offset of at most 33 bits it is given. -/
theorem guard_passes_iff {offset : BitVec 64} {len : BitVec 32} (low : offset.toNat < 2 ^ 33) :
    offset + len.setWidth 64 ≤ m.arenaLen.setWidth 64 ↔
      offset.toNat + len.toNat ≤ m.arenaLen.toNat := by
  rw [le_def, toNat_add, toNat_setWidth, toNat_setWidth,
    Nat.mod_eq_of_lt (show len.toNat < 2 ^ 64 by omega),
    Nat.mod_eq_of_lt (show m.arenaLen.toNat < 2 ^ 64 by omega), Nat.mod_eq_of_lt (by omega)]

theorem Address.checked_bind {address : Address} {len : BitVec 32} {f : BitVec 64 → Emitted α}
    (ran : (address.checked len >>= f) m = .ok r) :
    ∃ off : Nat, off + len.toNat ≤ m.arenaLen.toNat ∧
      f (m.arenaBase + BitVec.ofNat 64 off) m = .ok r := by
  cases address with
  | at_ off =>
    rw [checked, arenaAddrI32Checked, bind_assoc, arenaBoundsCheck_bind_eq_ok] at ran
    have bound := off.isLt
    have wide : (off.setWidth 64).toNat = off.toNat := by
      rw [toNat_setWidth, Nat.mod_eq_of_lt (by omega)]
    have within := (guard_passes_iff (by omega)).mp ran.1
    refine ⟨_, within, ?_⟩
    rw [ofNat_toNat, setWidth_eq]
    exact ran.2
  | behind base offset =>
    rw [checked, arenaAddrI32OffsetChecked, bind_assoc, arenaBoundsCheck_bind_eq_ok] at ran
    have wide : (base.setWidth 64 + offset.setWidth 64).toNat = base.toNat + offset.toNat := by
      rw [toNat_add, toNat_setWidth, toNat_setWidth]
      omega
    have within := (guard_passes_iff (by omega)).mp ran.1
    refine ⟨_, within, ?_⟩
    rw [ofNat_toNat, setWidth_eq]
    exact ran.2

end

/-- What holds in every run: the fixed words have not changed, the blocks stand one behind the
other below the cursor, the cursor is inside the arena, and so were all accesses. -/
structure Sound (m₀ m : Machine) : Prop where
  arenaBase : m.arenaBase = m₀.arenaBase
  arenaLen : m.arenaLen = m₀.arenaLen
  scratchBase : m.scratchBase = m₀.scratchBase
  room : m₀.scratchBase.toNat + m.scratchCursor.toNat ≤ m₀.arenaLen.toNat
  blocks : ∀ b ∈ m.blocks, m₀.scratchBase.toNat ≤ b.1.toNat ∧
    b.1.toNat + b.2.toNat ≤ m₀.scratchBase.toNat + m.scratchCursor.toNat
  apart : m.blocks.Pairwise fun b b' => b.1.toNat + b.2.toNat ≤ b'.1.toNat
  accesses : ∀ a ∈ m.accesses, Inside m₀ a

section
variable {m₀ m m' : Machine}

/-- An access leaves everything but memory and its log as it was. -/
theorem Sound.access (sound : Sound m₀ m) (mem : Memory) {as : List Access}
    (inside : ∀ a ∈ as, Inside m₀ a) :
    Sound m₀ { m with mem := mem, accesses := m.accesses ++ as } where
  arenaBase := sound.arenaBase
  arenaLen := sound.arenaLen
  scratchBase := sound.scratchBase
  room := sound.room
  blocks := sound.blocks
  apart := sound.apart
  accesses a mem := by
    rcases mem_append.mp mem with before | new
    · exact sound.accesses a before
    · exact inside a new

theorem Sound.inside (sound : Sound m₀ m) {off len : Nat} (within : off + len ≤ m.arenaLen.toNat)
    (writes : Bool) : Inside m₀ ⟨m.arenaBase + BitVec.ofNat 64 off, len, writes⟩ :=
  ⟨off, by rw [sound.arenaBase], sound.arenaLen ▸ within⟩

theorem Sound.allocScratch (sound : Sound m₀ m) {size : BitVec 32}
    (ran : (Operation.allocScratch size).run m = .ok ((), m')) :
    Sound m₀ m' ∧ m.scratchCursor ≤ m'.scratchCursor := by
  rw [Operation.run, allocScratchCommon, bind_assoc, get_bind, bind_assoc,
    arenaBoundsCheck_bind_eq_ok, bind_assoc, set_bind] at ran
  obtain ⟨checked, ran⟩ := ran
  cases ran
  have room := sound.room
  have arenaBound := m₀.arenaLen.isLt
  have start : (m.scratchBase + m.scratchCursor).toNat =
      m₀.scratchBase.toNat + m.scratchCursor.toNat := by
    rw [toNat_add, sound.scratchBase, Nat.mod_eq_of_lt (by omega)]
  have wide : ((m.scratchBase + m.scratchCursor).setWidth 64).toNat =
      m₀.scratchBase.toNat + m.scratchCursor.toNat := by
    rw [toNat_setWidth, start, Nat.mod_eq_of_lt (by omega)]
  have fits := (guard_passes_iff (by omega)).mp checked
  rw [wide, sound.arenaLen] at fits
  have cursor : (m.scratchCursor + size).toNat = m.scratchCursor.toNat + size.toNat := by
    rw [toNat_add, Nat.mod_eq_of_lt (by omega)]
  refine ⟨⟨sound.arenaBase, sound.arenaLen, sound.scratchBase, ?_, ?_, ?_, sound.accesses⟩, ?_⟩
  · show _ + (m.scratchCursor + size).toNat ≤ _
    omega
  · intro b mem
    show _ ∧ _ ≤ _ + (m.scratchCursor + size).toNat
    rcases mem_append.mp mem with before | new
    · have := sound.blocks b before
      omega
    · obtain rfl := mem_singleton.mp new
      dsimp only
      omega
  · refine pairwise_append.mpr ⟨sound.apart, pairwise_singleton _ _, ?_⟩
    intro b before b' new
    obtain rfl := mem_singleton.mp new
    have := (sound.blocks b before).2
    dsimp only
    omega
  · rw [le_def]
    show _ ≤ (m.scratchCursor + size).toNat
    omega

/-- Every operation keeps the run sound and the cursor from going back. -/
theorem Sound.step (sound : Sound m₀ m) {op : Operation} (ran : op.run m = .ok ((), m')) :
    Sound m₀ m' ∧ m.scratchCursor ≤ m'.scratchCursor := by
  cases op with
  | allocScratch size => exact sound.allocScratch ran
  | load address len =>
    obtain ⟨off, within, ran⟩ := Address.checked_bind ran
    cases ran
    exact ⟨sound.access _ (forall_mem_singleton.mpr (sound.inside within _)), BitVec.le_refl _⟩
  | store address len value =>
    obtain ⟨off, within, ran⟩ := Address.checked_bind ran
    cases ran
    refine ⟨sound.access _ (forall_mem_singleton.mpr (sound.inside ?_ _)), BitVec.le_refl _⟩
    rwa [length_ofFn]
  | memcpy dst src len =>
    obtain ⟨to_, withinDst, ran⟩ := @Address.checked_bind _ _ _ (.at_ dst) _ _ ran
    obtain ⟨from_, withinSrc, ran⟩ := @Address.checked_bind _ _ _ (.at_ src) _ _ ran
    cases ran
    have read := sound.access m.mem (forall_mem_singleton.mpr (sound.inside withinSrc false))
    refine ⟨read.access _ (forall_mem_singleton.mpr (sound.inside ?_ true)), BitVec.le_refl _⟩
    rwa [Memory.length_read]

/-- A run that no check stops keeps the invariant from operation to operation. -/
theorem Sound.run {ops : List Operation} (sound : Sound m₀ m) (ran : runAll ops m = .ok ((), m')) :
    Sound m₀ m' ∧ m.scratchCursor ≤ m'.scratchCursor := by
  induction ops generalizing m with
  | nil =>
    cases ran
    exact ⟨sound, BitVec.le_refl _⟩
  | cons op ops ih =>
    obtain ⟨_, m₁, one, rest⟩ := bind_eq_ok.mp ran
    obtain ⟨kept, up⟩ := sound.step one
    obtain ⟨done, further⟩ := ih kept rest
    exact ⟨done, BitVec.le_trans up further⟩

theorem runAll_append {before after : List Operation}
    (ran : runAll (before ++ after) m = .ok ((), m')) :
    ∃ m₁, runAll before m = .ok ((), m₁) ∧ runAll after m₁ = .ok ((), m') := by
  induction before generalizing m with
  | nil => exact ⟨m, rfl, ran⟩
  | cons op ops ih =>
    obtain ⟨u, m₁, first, rest⟩ := bind_eq_ok.mp ran
    obtain ⟨m₂, middle, last⟩ := ih rest
    exact ⟨m₂, bind_eq_ok.mpr ⟨u, m₁, first, middle⟩, last⟩

end

/-- From a fresh call on, as long as no check traps: every access is inside the arena, the
cursor never goes back, and the blocks lie in the scratch region, each behind the one handed
out before it. -/
theorem runAll_sound {m m' : Machine} {ops : List Operation} (fits : m.scratchBase ≤ m.arenaLen)
    (fresh : m.scratchCursor = 0 ∧ m.accesses = [] ∧ m.blocks = [])
    (ran : runAll ops m = .ok ((), m')) : (∀ a ∈ m'.accesses, Inside m a) ∧
    (∀ before after, ops = before ++ after → ∃ m₁, runAll before m = .ok ((), m₁) ∧
      m₁.scratchCursor ≤ m'.scratchCursor) ∧
    m'.blocks.Pairwise (fun b b' => b.1.toNat + b.2.toNat ≤ b'.1.toNat) ∧
    ∀ b ∈ m'.blocks, m.scratchBase.toNat ≤ b.1.toNat ∧
      b.1.toNat + b.2.toNat ≤ m.arenaLen.toNat := by
  obtain ⟨cursor, accesses, blocks⟩ := fresh
  have start : Sound m m := by
    refine ⟨rfl, rfl, rfl, ?_, ?_, ?_, ?_⟩
    · simpa [cursor] using le_def.mp fits
    · simp [blocks]
    · simp [blocks]
    · simp [accesses]
  obtain ⟨sound, -⟩ := start.run ran
  refine ⟨sound.accesses, ?_, sound.apart, fun b mem => ?_⟩
  · rintro before after rfl
    obtain ⟨m₁, first, rest⟩ := runAll_append ran
    exact ⟨m₁, first, ((start.run first).1.run rest).2⟩
  · have := sound.blocks b mem
    have := sound.room
    omega

/-- An arena of 64 bytes with its scratch region from 32 on. -/
def smallArena : Machine := ⟨0x10000, 64, 32, 0, 0, 0, 0, fun _ => 0, [], []⟩

/-- Two blocks and a store at the end of the second one. -/
theorem two_blocks_sound :
    ∃ m', runAll [.allocScratch 8, .allocScratch 24, .store (.behind 40 20) 4 fun _ => 1] smallArena =
        .ok ((), m') ∧
      m'.blocks = [(32, 8), (40, 24)] ∧ ∀ a ∈ m'.accesses, Inside smallArena a := by
  have ran : runAll [.allocScratch 8, .allocScratch 24, .store (.behind 40 20) 4 fun _ => 1]
      smallArena = .ok ((), _) := rfl
  exact ⟨_, ran, rfl, (runAll_sound (by decide) ⟨rfl, rfl, rfl⟩ ran).1⟩

end Relon.Codegen.Llvm
