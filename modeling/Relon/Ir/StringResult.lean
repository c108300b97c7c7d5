import Relon.Ir.Strings

/-! Whether a computed string reaches the host unchanged.

Every string operation builds its record at the scratch cursor, or eight bytes behind
it, wherever earlier allocations left that. The copy into the output buffer is right
for records on a multiple of four, so for cursors on one; a concatenation,
`substring`, `replace` or `trim` of a length that is not a multiple of four moves the
cursor off it. -/
namespace Relon.Ir

open Codegen Control List Ir.Substring Op

/-! ### Code that allocates nothing -/

/-- An operation that neither allocates nor sets one of the given let slots. -/
def Op.steady (kept : List Nat) : Op → Bool
  | .allocScratchDyn | .element _ => false
  | .letSet idx _ => decide (idx ∉ kept)
  | _ => true

/-- The arena and the given let slots are as they were. -/
def Kept (kept : List Nat) (s s' : State) : Prop :=
  s.machine.SameFrame s'.machine ∧ ∀ i ∈ kept, s'.lets i = s.lets i

variable {kept : List Nat} {s s' : State}

theorem Kept.stack (s : State) (stack : List Word) : Kept kept s { s with stack := stack } :=
  ⟨.refl _, fun _ _ => rfl⟩

theorem perform_kept {α : Type} {rest : List Word} {code : Emitted α} {push : α → List Word}
    (steady : Steady code) (ran : Op.perform s rest code push = some (.ok s')) :
    Kept kept s s' := by
  unfold perform at ran
  split at ran
  · simp at ran
  · rename_i a m stepped
    cases ran
    exact ⟨steady _ _ _ stepped, fun _ _ => rfl⟩

theorem binary_kept {ty : IrType} {wrapping : BitVec 32 → BitVec 32 → BitVec 32}
    {checked : BitVec 64 → BitVec 64 → Option (BitVec 64)}
    (ran : Op.binary wrapping checked ty s = some (.ok s')) : Kept kept s s' := by
  unfold binary at ran
  split at ran
  · cases ran
    exact .stack _ _
  · split at ran
    · cases ran
      exact .stack _ _
    · simp at ran
  · cases ran

/-- What every operation that does not allocate keeps. -/
theorem step_kept {op : Op} (steady : op.steady kept = true) (ran : op.step s = some (.ok s')) :
    Kept kept s s' := by
  cases op with
  | constI32 v | constI64 v =>
    cases ran
    exact .stack _ _
  | localGet idx =>
    simp only [step] at ran
    split at ran
    · cases ran
      exact .stack _ _
    · cases ran
  | letGet idx ty =>
    simp only [step] at ran
    split at ran
    · split at ran
      · cases ran
        exact .stack _ _
      · cases ran
    · cases ran
  | letSet idx ty =>
    simp only [step] at ran
    split at ran
    · cases ran
    · split at ran
      · cases ran
        refine ⟨.refl _, fun i hi => ?_⟩
        have other : i ≠ idx := fun same => of_decide_eq_true steady (same ▸ hi)
        exact Function.update_of_ne other _ _
      · cases ran
  | add ty | sub ty | mul ty | bitAnd ty =>
    simp only [step] at ran
    exact binary_kept ran
  | cmp c ty =>
    simp only [step] at ran
    split at ran
    · cases ran
      exact .stack _ _
    · cases ran
      exact .stack _ _
    · cases ran
      exact .stack _ _
    · cases ran
  | trap kind => simp [step] at ran
  | loadI32AtAbsolute offset | loadI8UAtAbsolute offset | loadI64AtAbsolute offset
  | loadF64AtAbsolute offset | readStringLen =>
    simp only [step] at ran
    split at ran
    · exact perform_kept ((Steady.loadAtAbsolute _ _ _).bind fun _ => .pure _) ran
    · cases ran
  | storeI32AtAbsolute offset | storeI64AtAbsolute offset | storeF64AtAbsolute offset
  | storeI8AtAbsolute offset =>
    simp only [step] at ran
    split at ran
    · exact perform_kept (Steady.storeAtAbsolute _ _ _ _) ran
    · cases ran
  | memcpyAtAbsolute =>
    simp only [step] at ran
    split at ran
    · exact perform_kept (Steady.memcpyAtAbsolute _ _ _) ran
    · cases ran
  | call helper =>
    simp only [step] at ran
    split at ran
    · split at ran
      · simp at ran
      · cases ran
        exact .stack _ _
    · cases ran
  | allocScratchDyn | element e => cases steady

theorem lang_keeps (kept : List Nat) :
    lang.Keeps (fun op => op.steady kept = true) (Kept kept) where
  refl s := .stack s s.stack
  trans a b := ⟨a.1.trans b.1, fun i hi => (b.2 i hi).trans (a.2 i hi)⟩
  step steady ran := step_kept steady ran
  test tested := by
    simp only [lang, test] at tested
    split at tested
    · cases tested
      exact .stack _ _
    · cases tested
  leave k := k

/-! ### Where a body builds its record -/

/-- Run to its return, the code has this offset on the stack. -/
def Returns (top : BitVec 32) (x : Exit TrapKind) (s : State) : Prop :=
  x = .ret → ∃ rest, s.stack = .i32 top :: rest

/-- Run to its end, the code leaves the scratch cursor here. -/
def Reaches (top : BitVec 32) (x : Exit TrapKind) (s : State) : Prop :=
  x ≠ .ret ∧ (x = .next → s.machine.scratchTop = top)

/-- Whether code neither allocates nor sets the given let slots nor returns. -/
def quiet (kept : List Nat) (c : Stream) : Bool :=
  (Lang.allPrims c).all (Op.steady kept) && !Lang.anyReturns c

variable {s : State} {top : BitVec 32} {base : Nat}

theorem Safe.quiet {c d : Stream} {kept : List Nat} {Q : Exit TrapKind → State → Prop}
    (quiet : quiet kept c = true) (behind : ∀ s', Kept kept s s' → lang.Safe d s' Q)
    (leaves : ∀ x s', x ≠ .next → x ≠ .ret → Q x s') : lang.Safe (c ++ d) s Q := by
  obtain ⟨steady, noReturn⟩ := (Bool.and_eq_true ..).mp quiet
  exact Lang.Safe.steady (lang_keeps kept) (all_eq_true.mp steady)
    ((Bool.not_eq_true' _).mp noReturn) behind fun x s' next ret _ => leaves x s' next ret

/-- An allocation hands out the scratch cursor. -/
theorem step_allocScratchDyn {s' : State} (ran : Op.allocScratchDyn.step s = some (.ok s')) :
    ∃ size rest, s.stack = .i32 size :: rest ∧ s'.stack = .i32 s.machine.scratchTop :: rest ∧
      s'.machine.scratchTop = s.machine.scratchTop + size := by
  simp only [step] at ran
  split at ran
  · rename_i size rest stack
    unfold perform at ran
    split at ran
    · simp at ran
    · rename_i top m allocated
      cases ran
      rw [← bind_pure (allocScratch size), allocScratch_bind_eq_ok, pure_apply] at allocated
      cases allocated.2
      exact ⟨size, rest, stack, rfl, (BitVec.add_assoc ..).symm⟩
  · cases ran

theorem step_letSet_i32 {s' : State} {v : BitVec 32} {rest : List Word}
    (stack : s.stack = .i32 v :: rest) (ran : (Op.letSet base .i32).step s = some (.ok s')) :
    s'.lets base = some (.i32 v) ∧ s'.machine = s.machine := by
  simp only [step, stack, IrType.slot, Word.coerce] at ran
  cases ran
  exact ⟨Function.update_self .., rfl⟩

/-- Allocate a block and keep its offset in a let slot. -/
theorem Safe.alloc {d : Stream} {Q : Exit TrapKind → State → Prop}
    (behind : ∀ s' size rest, s.stack = .i32 size :: rest →
      s'.lets base = some (.i32 s.machine.scratchTop) →
      s'.machine.scratchTop = s.machine.scratchTop + size → lang.Safe d s' Q)
    (traps : ∀ kind s', Q (.trap kind) s') :
    lang.Safe (ops [.allocScratchDyn, .letSet base .i32] ++ d) s Q := by
  refine Lang.Safe.prim (fun s₁ allocated => Lang.Safe.prim (fun s₂ set => ?_) fun _ _ => traps _ _)
    fun _ _ => traps _ _
  obtain ⟨size, rest, stack, stack₁, moved⟩ := step_allocScratchDyn allocated
  obtain ⟨slot, machine⟩ := step_letSet_i32 stack₁ set
  exact behind s₂ size rest stack slot (by rw [machine, moved])

/-- Return the offset in a let slot. -/
theorem Safe.returns (slot : s.lets base = some (.i32 top)) :
    lang.Safe (ops [.letGet base .i32] ++ [.ret]) s (Returns top) := by
  refine Lang.Safe.prim (fun s₁ got => Lang.Safe.ret fun _ => ?_) fun _ _ => nofun
  simp only [lang, step, slot] at got
  cases got
  exact ⟨_, rfl⟩

/-- A body that sizes its record, allocates it, fills it and returns it. -/
theorem record_top {pre post : Stream} (sized : lang.Safe pre s (Reaches top))
    (filled : quiet [base] post = true) :
    lang.Safe (pre ++ (ops [.allocScratchDyn, .letSet base .i32] ++
      (post ++ (ops [.letGet base .i32] ++ [.ret])))) s (Returns top) := by
  refine Lang.Safe.append fun x s₁ finished => ?_
  obtain ⟨notRet, reached⟩ := sized x s₁ finished
  cases x with
  | next =>
    refine Safe.alloc (fun s₂ size rest _ slot _ => ?_) fun _ _ => nofun
    rw [reached rfl] at slot
    refine Safe.quiet filled (fun s₃ same => ?_) fun x s' _ ret => fun returned => absurd returned ret
    exact Safe.returns ((same.2 base (mem_singleton_self base)).trans slot)
  | branch d => exact nofun
  | ret => exact absurd rfl notRet
  | trap e => exact nofun

theorem reaches_of_quiet {c : Stream} (still : quiet [] c = true) :
    lang.Safe c s (Reaches s.machine.scratchTop) := by
  rw [← append_nil c]
  refine Safe.quiet still (fun s' same => Lang.Safe.nil ⟨nofun, fun _ => same.1.scratchTop⟩) ?_
  exact fun x s' next ret => ⟨ret, fun isNext => absurd isNext next⟩

theorem replace_top : lang.Safe Replace.body s (Returns s.machine.scratchTop) := by
  simp only [Replace.body, append_assoc]
  exact record_top (reaches_of_quiet (by decide)) (by decide)

theorem trim_top (side : TrimSide) (isWhitespace : Helper) (ranges : BitVec 32) :
    lang.Safe (Trim.body side isWhitespace ranges) s (Returns s.machine.scratchTop) := by
  simp only [Trim.body, append_assoc]
  refine record_top (reaches_of_quiet ?_) (by decide)
  cases side <;> rfl

/-- `substring` allocates eight bytes to narrow its arguments first. -/
theorem substring_top : lang.Safe Substring.body s (Returns (s.machine.scratchTop + 8)) := by
  have sized : lang.Safe (sizing ++ (ops [.constI32 8] ++
      (ops [.allocScratchDyn, .letSet base .i32] ++ narrowing))) s
        (Reaches (s.machine.scratchTop + 8)) := by
    refine Safe.quiet (show quiet [] sizing = true by decide) (fun s₁ same => ?_) ?_
    · refine Lang.Safe.prim (fun s₂ pushed => ?_) fun _ => nofun
      cases pushed
      refine Safe.alloc (fun s₃ size rest stack _ moved => ?_) fun _ _ => ⟨nofun, nofun⟩
      obtain ⟨rfl, -⟩ : (8 : BitVec 32) = size ∧ s₁.stack = rest := by
        simpa [State.push] using stack
      have here : s₃.machine.scratchTop = s.machine.scratchTop + 8 := by
        rw [moved]
        exact congrArg (· + 8) same.1.scratchTop
      rw [← here]
      exact reaches_of_quiet (by decide)
    · exact fun x s' next ret => ⟨ret, fun isNext => absurd isNext next⟩
  have whole := record_top sized (show quiet [base] filling = true by decide)
  simpa only [body, ops, append_assoc, map_cons, map_nil, cons_append, nil_append] using whole

/-! ### The operations -/

/-- A string operation with its run-time arguments. -/
inductive StringOp where
  | concatN (offs : List (BitVec 32))
  | intToStr (v : BitVec 64)
  | substring (s : BitVec 32) (start len : BitVec 64)
  | replace (s from_ into : BitVec 32)
  | trim (side : TrimSide) (isWhitespace : Helper) (ranges : BitVec 32) (s : BitVec 32)

namespace StringOp

/-- A call of a bundled function: its arguments are the locals, its let slots are fresh. -/
def Calls (body : Stream) (args : List Word) (m : Machine) (r : BitVec 32) (m' : Machine) : Prop :=
  ∃ s' rest, lang.Finishes body ⟨[], fun _ => none, args, m⟩ .ret s' ∧
    s'.stack = .i32 r :: rest ∧ s'.machine = m'

/-- The operation completes with a record at `r`. -/
def Builds (m : Machine) (r : BitVec 32) (m' : Machine) : StringOp → Prop
  | concatN offs => strConcatN offs m = .ok (r, m')
  | intToStr v => Codegen.intToStr v m = .ok (r, m')
  | substring s start len => Calls Substring.body [.i32 s, .i64 start, .i64 len] m r m'
  | replace s from_ into => Calls Replace.body [.i32 s, .i32 from_, .i32 into] m r m'
  | trim side isWhitespace ranges s => Calls (Trim.body side isWhitespace ranges) [.i32 s] m r m'

/-- Where an operation puts its record, from the scratch cursor on. -/
def lead : StringOp → BitVec 32
  | substring .. => 8
  | _ => 0

theorem calls_top {body : Stream} {args : List Word} {m m' : Machine} {r top : BitVec 32}
    (safe : ∀ s : State, s.machine = m → lang.Safe body s (Returns top))
    (calls : Calls body args m r m') : r = top := by
  obtain ⟨s', rest, finished, stack, -⟩ := calls
  obtain ⟨rest', stack'⟩ := safe _ rfl _ _ finished rfl
  rw [stack] at stack'
  exact Word.i32.inj (List.cons.inj stack').1

theorem builds_top {op : StringOp} {m m' : Machine} {r : BitVec 32} (built : op.Builds m r m') :
    r = m.scratchTop + op.lead := by
  cases op with
  | concatN offs => exact (strConcatN_top built).trans (BitVec.add_zero _).symm
  | intToStr v => exact (intToStr_top built).trans (BitVec.add_zero _).symm
  | substring s start len =>
    exact calls_top (fun s hs => hs ▸ substring_top) built
  | replace s from_ into =>
    exact (calls_top (fun s hs => hs ▸ replace_top) built).trans (BitVec.add_zero _).symm
  | trim side isWhitespace ranges s =>
    exact (calls_top (fun s hs => hs ▸ trim_top side isWhitespace ranges) built).trans
      (BitVec.add_zero _).symm

end StringOp

/-! ### Cursors -/

/-- The machines a run can reach from `m₀`, with the sizes of the blocks allocated on the
way: code between the allocations moves no cursor. -/
inductive Allocated (m₀ : Machine) : List (BitVec 32) → Machine → Prop where
  | start : Allocated m₀ [] m₀
  | steady {sizes : List (BitVec 32)} {m m' : Machine} :
    Allocated m₀ sizes m → m.SameFrame m' → Allocated m₀ sizes m'
  | alloc {sizes : List (BitVec 32)} {m m' : Machine} {size base : BitVec 32} :
    Allocated m₀ sizes m → allocScratch size m = .ok (base, m') → Allocated m₀ (size :: sizes) m'

theorem Allocated.scratchTop {m₀ m : Machine} {sizes : List (BitVec 32)}
    (allocated : Allocated m₀ sizes m) : m.scratchTop = m₀.scratchTop + sizes.sum := by
  induction allocated with
  | start => exact (BitVec.add_zero _).symm
  | steady _ same ih => rw [same.scratchTop, ih]
  | @alloc sizes m m' size base _ ran ih =>
    rw [← bind_pure (allocScratch size), allocScratch_bind_eq_ok, pure_apply] at ran
    cases ran.2
    have moved : m.scratchBase + (m.scratchCursor + size) = m.scratchTop + size :=
      (BitVec.add_assoc ..).symm
    rw [Machine.scratchTop, moved, ih, sum_cons, BitVec.add_assoc, BitVec.add_comm size]

/-- The record's bytes are the ones from the next multiple of four on. -/
def Slides (m : Machine) (r : BitVec 32) : Prop :=
  m.bytes (Bytes.alignUp (r.toNat + 4) 4) (m.stringLen r.toNat) =
    m.bytes (r.toNat + 4) (m.stringLen r.toNat)

/-- A string built after allocations of the given sizes, and stored as a result, reaches
the output buffer unchanged exactly when the sizes add up to a multiple of four, or its
bytes slide. -/
theorem stored_unchanged_iff {op : StringOp} {sizes : List (BitVec 32)}
    {m₀ m m₁ m₂ : Machine} {r byteOffset : BitVec 32} (aligned : m₀.scratchTop.toNat % 4 = 0)
    (allocated : Allocated m₀ sizes m) (built : op.Builds m r m₁) (fits : m₁.Fits byteOffset r)
    (stored : storePointerIndirect byteOffset .string r m₁ = .ok ((), m₂)) :
    m₂.stringAt m₁.recordStart.toNat = m₁.stringAt r.toNat ↔
      sizes.sum.toNat % 4 = 0 ∨ Slides m₁ r := by
  have whole : r.toNat % 4 = sizes.sum.toNat % 4 := by
    rw [op.builds_top built, allocated.scratchTop]
    have lead : op.lead.toNat % 4 = 0 := by cases op <;> simp [StringOp.lead]
    rw [BitVec.toNat_add, BitVec.toNat_add]
    omega
  rw [stringAt_storePointerIndirect fits stored, Machine.stringAt, Prod.mk.injEq,
    eq_self_iff_true, true_and, ← whole]
  constructor
  · exact .inr
  · rintro (onFour | slides)
    · have next : Bytes.alignUp (r.toNat + 4) 4 = r.toNat + 4 := by
        rw [Bytes.alignUp, if_pos (by omega)]
      rw [next]
    · exact slides

/-- A run that joins two strings and then, behind the five bytes of the result, two more,
and stores the second: the string it built and the one in the output buffer. -/
def joinTwice (m : Machine) : Except TrapKind ((Nat × List UInt8) × (Nat × List UInt8)) := do
  let (_, m) ← strConcatN [0, 8] m
  let (r, m₁) ← strConcatN [8, 0] m
  let (_, m₂) ← storePointerIndirect 0 .string r m₁
  pure (m₁.stringAt r.toNat, m₂.stringAt m₁.recordStart.toNat)

/-- An arena with `ab` at 0 and `cde` at 8, an output buffer at 64 and scratch from 128. -/
def sampleStrings : Machine where
  arenaBase := 0x10000
  arenaLen := 256
  scratchBase := 128
  scratchCursor := 0
  tailCursor := 4
  inPtr := 0
  outPtr := 64
  mem := fun addr =>
    ([2, 0, 0, 0, 97, 98, 0, 0, 3, 0, 0, 0, 99, 100, 101][addr.toNat - 0x10000]?).getD 0
  accesses := []
  blocks := []

/-- The string built is `cdeab`; the one in the output buffer is `ab` and three zero bytes. -/
theorem joined_string_changes : (joinTwice sampleStrings).toOption =
      some ((5, [99, 100, 101, 97, 98]), (5, [97, 98, 0, 0, 0])) := by
  decide +kernel

theorem ok_of_toOption {ε α : Type} {x : Except ε α} {a : α} (there : x.toOption = some a) :
    x = .ok a := by
  cases x with
  | error e => cases there
  | ok b => rw [Option.some.inj there]

/-- Behind a block of eight bytes, one join is stored unchanged. -/
theorem joined_once_unchanged :
    ∃ m m₁ m₂, Allocated sampleStrings [8] m ∧ (StringOp.concatN [0, 8]).Builds m 136 m₁ ∧
      m₁.Fits 0 136 ∧ storePointerIndirect 0 .string 136 m₁ = .ok ((), m₂) ∧
      m₂.stringAt m₁.recordStart.toNat = m₁.stringAt 136 := by
  have evaluated : ((allocScratch 8 sampleStrings).toOption.bind fun a =>
      (strConcatN [0, 8] a.2).toOption.map fun o =>
        (o.1, decide (o.2.Fits 0 o.1), (storePointerIndirect 0 .string o.1 o.2).isOk)) =
          some (136, true, true) := by decide +kernel
  obtain ⟨⟨base, m⟩, taken, evaluated⟩ := Option.bind_eq_some_iff.mp evaluated
  obtain ⟨⟨r, m₁⟩, built, seen⟩ := Option.map_eq_some_iff.mp evaluated
  obtain ⟨here, checked⟩ := (Prod.mk.injEq ..).mp seen
  obtain ⟨fits, ran⟩ := (Prod.mk.injEq ..).mp checked
  obtain rfl : r = 136 := here
  have block : Allocated sampleStrings [8] m := .alloc .start (ok_of_toOption taken)
  cases stored : storePointerIndirect 0 .string 136 m₁ with
  | error kind => rw [stored] at ran; cases ran
  | ok o =>
    obtain ⟨⟨⟩, m₂⟩ := o
    have unchanged := @stored_unchanged_iff (.concatN [0, 8]) [8] sampleStrings m
      m₁ m₂ 136 0 (by decide) block (ok_of_toOption built) (of_decide_eq_true fits) stored
    exact ⟨m, m₁, m₂, block, ok_of_toOption built, of_decide_eq_true fits, stored,
      unchanged.mpr (.inl rfl)⟩

end Relon.Ir
