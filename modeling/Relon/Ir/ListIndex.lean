import Relon.Ir.ListRecords

/-! Compiled list indexing (`lowering/index.rs`).

The handle of the list is on the operand stack; the index is cut to 32 bits, scaled and
added to the start of the elements. Nothing compares it with the count: the only check is
that of the load, against the end of the arena. -/
namespace Relon.Ir

open Codegen Control Bytes Function

/-- The element types a list can be indexed for. -/
inductive ListKind where
  | int | float | string
  deriving DecidableEq, Repr

namespace ListKind

/-- The bytes of an element: a string is the offset of its record. -/
def width : ListKind → BitVec 32
  | int | float => 8
  | string => 4

/-- Where the elements of a record start. -/
def start (base : BitVec 32) : ListKind → BitVec 32
  | int | float => payloadOf base
  | string => base + 4

def load : ListKind → Op
  | int => .loadI64AtAbsolute 0
  | float => .loadF64AtAbsolute 0
  | string => .loadI32AtAbsolute 0

/-- The offset the code computes for an index. -/
def address (kind : ListKind) (base : BitVec 32) (i : BitVec 64) : BitVec 32 :=
  kind.start base + i.setWidth 32 * kind.width

/-- The word of an element at an offset of the arena. -/
def wordAt (m : Machine) (off : Nat) : ListKind → Word
  | int => .i64 (word64 m off)
  | float => .f64 (word64 m off)
  | string => .i32 (ofBytes 32 (m.bytes off 4))

end ListKind

/-- `lower_list_index_typed`, and `lower_list_string_index`: the slots from `k` on are the handle
and the index. -/
def lowerListIndex (kind : ListKind) (k : Nat) (index : Element) : Stream :=
  let start : List Op := match kind with
    | .int | .float => [.letGet k .i32, .constI32 (4 + 7), .add .i32, .constI32 (-8), .bitAnd .i32]
    | .string => [.letGet k .i32, .constI32 4, .add .i32]
  ops ([.letSet k .i32, .element index, .letSet (k + 1) .i32] ++ start ++
    [.letGet (k + 1) .i32, .constI32 kind.width, .mul .i32, .add .i32, kind.load])

/-- The record at `base` is a list of these elements, all inside the arena. -/
structure HoldsList (kind : ListKind) (m : Machine) (base : BitVec 32) (ws : List Word) : Prop where
  count : m.stringLen base.toNat = ws.length
  header : base.toNat + 4 ≤ m.arenaLen.toNat
  inside : ∀ j < ws.length,
    (kind.start base).toNat + kind.width.toNat * j + kind.width.toNat ≤ m.arenaLen.toNat
  element : ∀ j (h : j < ws.length),
    kind.wordAt m ((kind.start base).toNat + kind.width.toNat * j) = ws[j]

/-- What indexing has to do: leave the element, or fail. -/
def Indexes (ws : List Word) (i : Int) (st : List Word) (x : Exit TrapKind) (s' : State) : Prop :=
  if 0 ≤ i ∧ i < ws.length then x = .next ∧ some s'.stack = ws[i.toNat]?.map (· :: st)
  else ∃ kind, x = .trap kind

section
variable {kind : ListKind} {k : Nat} {index : Element} {base : BitVec 32} {i : BitVec 64}
  {st : List Word} {lets : Nat → Option Word} {locals : List Word} {m m' : Machine}
  {Q : Exit TrapKind → State → Prop}

/-- A load, by its check. -/
theorem loadAtAbsolute_eq (w off : BitVec 32) :
    loadAtAbsolute w 0 off m = if off + w ≤ m.arenaLen then
        .ok (m.bytes off.toNat w.toNat, m.touch (m.arenaBase + off.setWidth 64) w.toNat false)
      else .error .boundsViolation := by
  have window : m.mem.read (m.arenaBase + off.setWidth 64) w.toNat = m.bytes off.toNat w.toNat := by
    rw [← BitVec.ofNat_toNat, Memory.read_eq_window, Machine.bytes]
  rw [loadAtAbsolute, add_zero off, arenaAddr]
  by_cases fits : off + w ≤ m.arenaLen
  · rw [if_pos fits, ← window]
    simp only [bind_assoc, get_bind, condTrap, BitVec.not_lt.mpr fits, decide_false,
      Bool.false_eq_true, if_false, pure_bind]
    rfl
  · rw [if_neg fits]
    simp only [bind_assoc, get_bind, condTrap, BitVec.not_le.mp fits, decide_true, if_true]
    rfl

theorem perform_load {α : Type} (s : State) (w off : BitVec 32) (read : List UInt8 → α)
    (push : α → List Word) :
    Op.perform s st (do let bs ← loadAtAbsolute w 0 off; pure (read bs)) push =
      if off + w ≤ s.machine.arenaLen then
        some (.ok { s with
          stack := push (read (s.machine.bytes off.toNat w.toNat)) ++ st
          machine := s.machine.touch (s.machine.arenaBase + off.setWidth 64) w.toNat false })
      else some (.error .boundsViolation) := by
  by_cases fits : off + w ≤ s.machine.arenaLen
  · have loaded := (loadAtAbsolute_eq w off).trans (if_pos fits)
    rw [if_pos fits, Op.perform, bind_eq_ok.mpr ⟨_, _, loaded, rfl⟩]
  · have loaded := (loadAtAbsolute_eq w off).trans (if_neg fits)
    rw [if_neg fits, Op.perform, bind, Monad.toBind, StateT.instMonad]
    simp only [StateT.bind, loaded]
    rfl

theorem step_load (off : BitVec 32) :
    kind.load.step ⟨.i32 off :: st, lets, locals, m⟩ = if off + kind.width ≤ m.arenaLen then
        some (.ok ⟨kind.wordAt m off.toNat :: st, lets, locals,
          m.touch (m.arenaBase + off.setWidth 64) kind.width.toNat false⟩)
      else some (.error .boundsViolation) := by
  cases kind with
  | int => exact perform_load _ 8 off (ofBytes 64) fun v => [.i64 v]
  | float => exact perform_load _ 8 off (ofBytes 64) fun v => [.f64 v]
  | string => exact perform_load _ 4 off (ofBytes 32) fun v => [.i32 v]

/-- The code ends at the load of the address it computes. -/
theorem ends_lowerListIndex
    (evaluated : index.effect (Function.update lets k (some (.i32 base))) locals m =
      some (.ok (.i64 i, m')))
    (past : ¬ kind.address base i + kind.width ≤ m'.arenaLen → ∀ s', Q (.trap .boundsViolation) s')
    (within : kind.address base i + kind.width ≤ m'.arenaLen →
      ∀ s', s'.stack = kind.wordAt m' (kind.address base i).toNat :: st → Q .next s') :
    lang.Ends (lowerListIndex kind k index) ⟨.i32 base :: st, lets, locals, m⟩ Q := by
  have lifted : (Op.element index).step ⟨st, update lets k (some (.i32 base)), locals, m⟩ =
      some (.ok ⟨.i64 i :: st, update lets k (some (.i32 base)), locals,
        { m' with accesses := m.accesses, blocks := m.blocks }⟩) := by
    simp only [Op.step, evaluated]
  have handle : update (update lets k (some (.i32 base))) (k + 1)
      (some (.i32 (i.setWidth 32))) k = some (.i32 base) := by
    rw [update_of_ne (by omega), update_self]
  have last : ∀ {lets' m₁}, m₁.arenaLen = m'.arenaLen →
      (∀ off, kind.wordAt m₁ off = kind.wordAt m' off) →
      lang.Ends [.prim kind.load] ⟨.i32 (kind.address base i) :: st, lets', locals, m₁⟩ Q := by
    intro lets' m₁ sameLen sameWord
    by_cases fits : kind.address base i + kind.width ≤ m'.arenaLen
    · refine (ends_step ((step_load _).trans (if_pos (by rw [sameLen]; exact fits)))).mpr
        (Lang.Ends.nil (within fits _ ?_))
      rw [sameWord]
    · exact Lang.Ends.trap ((step_load _).trans (if_neg (by rw [sameLen]; exact fits))) (past fits _)
  cases kind with
  | int | float =>
    simp only [lowerListIndex, ops_cons, ops_nil, List.cons_append, List.nil_append]
    rw [ends_letSet rfl, ends_step lifted, ends_letSet rfl, ends_letGet handle rfl, ends_constI32,
      ends_add_i32, ends_constI32, ends_bitAnd_i32, ends_letGet (update_self ..) rfl,
      ends_constI32, ends_mul_i32, ends_add_i32]
    exact last rfl fun _ => rfl
  | string =>
    simp only [lowerListIndex, ops_cons, ops_nil, List.cons_append, List.nil_append]
    rw [ends_letSet rfl, ends_step lifted, ends_letSet rfl, ends_letGet handle rfl, ends_constI32,
      ends_add_i32, ends_letGet (update_self ..) rfl, ends_constI32, ends_mul_i32,
      ends_add_i32]
    exact last rfl fun _ => rfl

variable {ws : List Word}

/-- The address of an element of the list, which passes the check. -/
theorem HoldsList.address (record : HoldsList kind m base ws) (low : 0 ≤ i.toInt)
    (high : i.toInt < ws.length) :
    (kind.address base i).toNat = (kind.start base).toNat + kind.width.toNat * i.toInt.toNat ∧
      kind.address base i + kind.width ≤ m.arenaLen := by
  have fits := record.inside i.toInt.toNat (by omega)
  have positive : 4 ≤ kind.width.toNat ∧ kind.width.toNat ≤ 8 := by cases kind <;> decide
  have scaled : 4 * i.toInt.toNat ≤ kind.width.toNat * i.toInt.toNat :=
    Nat.mul_le_mul_right _ positive.1
  have cut : (i.setWidth 32).toNat = i.toInt.toNat := by
    have signed := BitVec.toInt_eq_toNat_cond i
    have := i.isLt
    rw [BitVec.toNat_setWidth]
    omega
  have offset : (i.setWidth 32 * kind.width).toNat = kind.width.toNat * i.toInt.toNat := by
    rw [BitVec.toNat_mul, cut, Nat.mul_comm, Nat.mod_eq_of_lt (by omega)]
  have address : (kind.address base i).toNat =
      (kind.start base).toNat + kind.width.toNat * i.toInt.toNat := by
    rw [ListKind.address, BitVec.toNat_add, offset, Nat.mod_eq_of_lt (by omega)]
  refine ⟨address, ?_⟩
  rw [BitVec.le_def, BitVec.toNat_add, address]
  omega

/-- Indexing does what it has to exactly when the index is one of the list, or the address the
code computes for it is past the end of the arena. -/
theorem list_index_iff
    (evaluated : index.effect (Function.update lets k (some (.i32 base))) locals m =
      some (.ok (.i64 i, m'))) (record : HoldsList kind m' base ws) :
    lang.Ends (lowerListIndex kind k index) ⟨.i32 base :: st, lets, locals, m⟩
        (Indexes ws i.toInt st) ↔ (0 ≤ i.toInt ∧ i.toInt < ws.length) ∨
        m'.arenaLen < kind.address base i + kind.width := by
  constructor
  · intro ends
    by_contra neither
    obtain ⟨outside, notPast⟩ := not_or.mp neither
    have fits := BitVec.not_lt.mp notPast
    -- the load passes its check, so the run goes on with what it read
    have goesOn : lang.Ends (lowerListIndex kind k index) ⟨.i32 base :: st, lets, locals, m⟩
        fun x _ => x = .next :=
      ends_lowerListIndex evaluated (fun past => absurd fits past) fun _ _ _ => rfl
    obtain ⟨x, s', finished, rfl⟩ := goesOn
    have answer := ends.safe _ _ finished
    rw [Indexes, if_neg outside] at answer
    exact answer.elim nofun
  · intro right
    refine ends_lowerListIndex evaluated (fun past s' => ?_) fun within s' stack => ?_
    · by_cases inside : 0 ≤ i.toInt ∧ i.toInt < ws.length
      · exact absurd (record.address inside.1 inside.2).2 past
      · rw [Indexes, if_neg inside]
        exact ⟨_, rfl⟩
    · have inside := right.resolve_right (BitVec.not_lt.mpr within)
      rw [Indexes, if_pos inside]
      refine ⟨rfl, ?_⟩
      rw [stack, (record.address inside.1 inside.2).1, record.element _ (by omega),
        List.getElem?_eq_getElem (by omega)]
      rfl

end

/-- An arena of 256 bytes with a list that holds only 7 at offset 128, and a neighbour whose
eight bytes are 99. -/
def sampleList : Machine where
  arenaBase := 0x10000
  arenaLen := 256
  scratchBase := 160
  scratchCursor := 0
  tailCursor := 0
  inPtr := 0
  outPtr := 0
  mem := ((Memory.write (fun _ => 0) (0x10000 + 128) (leBytes 4 1)).write (0x10000 + 136)
    (leBytes 8 7)).write (0x10000 + 144) (leBytes 8 99)
  accesses := []
  blocks := []

theorem sampleList_holds : HoldsList .int sampleList 128 [.i64 7] where
  count := by decide +kernel
  header := by decide
  inside j below := by
    obtain rfl : j = 0 := by simpa using below
    decide +kernel
  element j below := by
    obtain rfl : j = 0 := by simpa using below
    have read : ListKind.int.wordAt sampleList 136 = .i64 7 := by decide +kernel
    exact read

/-- Its only element is read. -/
theorem only_element_indexed :
    lang.Ends (lowerListIndex .int 0 (Builder.constant 0)) ⟨[.i32 128], fun _ => none, [], sampleList⟩
      (Indexes [.i64 7] 0 []) :=
  (list_index_iff (i := 0) rfl sampleList_holds).mpr (.inl (by decide))

/-- Behind its only element the neighbour is read, before it the bytes of the count, and with an
index of 2^32 the element again. -/
theorem neighbour_indexed :
    ([1, -1, 2 ^ 32].map fun i : BitVec 64 =>
      (lang.run 20 (lowerListIndex .int 0 (Builder.constant i))
        ⟨[.i32 128], fun _ => none, [], sampleList⟩).map fun (x, s') => (x, s'.stack)) =
      [some (.next, [.i64 99]), some (.next, [.i64 1]), some (.next, [.i64 7])] := by
  decide +kernel

end Relon.Ir
