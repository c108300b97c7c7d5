import Relon.Ir.ListIndex

/-! Running op streams on numbers.

Offsets, lengths and code points are 32-bit words, but bundled bodies compute with them as
with numbers: as long as nothing reaches the sign bit, a comparison is that of the numbers.
Here every operation of such a stream is a step on the numbers, and a read leaves the memory
as it was. -/
namespace Relon.Ir

open Codegen Control Bytes BitVec Word

/-- The word of a number. -/
def Word.nat (n : Nat) : Word := .i32 (BitVec.ofNat 32 n)

theorem Word.nat_toNat (v : BitVec 32) : Word.nat v.toNat = .i32 v := by
  rw [nat, ofNat_toNat, setWidth_eq]

/-- The machine has only read memory since. -/
structure Reads (m m' : Machine) : Prop where
  mem : m'.mem = m.mem
  arenaBase : m'.arenaBase = m.arenaBase
  arenaLen : m'.arenaLen = m.arenaLen
  scratchBase : m'.scratchBase = m.scratchBase
  scratchCursor : m'.scratchCursor = m.scratchCursor

theorem Reads.refl (m : Machine) : Reads m m := ⟨rfl, rfl, rfl, rfl, rfl⟩

theorem Reads.trans {m₁ m₂ m₃ : Machine} (a : Reads m₁ m₂) (b : Reads m₂ m₃) : Reads m₁ m₃ :=
  ⟨b.mem.trans a.mem, b.arenaBase.trans a.arenaBase, b.arenaLen.trans a.arenaLen,
    b.scratchBase.trans a.scratchBase, b.scratchCursor.trans a.scratchCursor⟩

theorem Reads.touch (m : Machine) (addr : BitVec 64) (n : Nat) : Reads m (m.touch addr n false) :=
  ⟨rfl, rfl, rfl, rfl, rfl⟩

theorem Reads.bytes {m m' : Machine} (reads : Reads m m') (off n : Nat) :
    m'.bytes off n = m.bytes off n := by
  rw [Machine.bytes, Machine.bytes, reads.mem, reads.arenaBase]

/-- The machine with these bytes at an offset of the arena. -/
def wrote (m : Machine) (off : Nat) (bs : List UInt8) : Machine :=
  { m with mem := m.mem.write (m.arenaBase + BitVec.ofNat 64 off) bs }

section
variable {st : List Word} {lets : Nat → Option Word} {locals : List Word} {m : Machine}
  {d : Stream} {Q : Exit TrapKind → State → Prop} {a b i : Nat}

/-! ### Operands -/

theorem exec_localGet {w : Word} (slot : locals[i]? = some w) :
    lang.Ends (.prim (.localGet i) :: d) ⟨st, lets, locals, m⟩ Q ↔
      lang.Ends d ⟨w :: st, lets, locals, m⟩ Q :=
  ends_step (by simp only [Op.step, slot]; rfl)

theorem exec_letGet (slot : lets i = some (.nat a)) :
    lang.Ends (.prim (.letGet i .i32) :: d) ⟨st, lets, locals, m⟩ Q ↔
      lang.Ends d ⟨.nat a :: st, lets, locals, m⟩ Q :=
  ends_letGet slot rfl

theorem exec_letSet : lang.Ends (.prim (.letSet i .i32) :: d) ⟨.nat a :: st, lets, locals, m⟩ Q ↔
      lang.Ends d ⟨st, Function.update lets i (some (.nat a)), locals, m⟩ Q :=
  ends_letSet rfl

/-! ### Arithmetic -/

theorem exec_add : lang.Ends (.prim (.add .i32) :: d) ⟨.nat b :: .nat a :: st, lets, locals, m⟩ Q ↔
      lang.Ends d ⟨.nat (a + b) :: st, lets, locals, m⟩ Q := by
  rw [nat, nat, ends_add_i32, ← ofNat_add, nat]

theorem exec_mul : lang.Ends (.prim (.mul .i32) :: d) ⟨.nat b :: .nat a :: st, lets, locals, m⟩ Q ↔
      lang.Ends d ⟨.nat (a * b) :: st, lets, locals, m⟩ Q := by
  rw [nat, nat, ends_mul_i32, ← ofNat_mul, nat]

theorem exec_sub (small : b < 2 ^ 32) (le : b ≤ a) :
    lang.Ends (.prim (.sub .i32) :: d) ⟨.nat b :: .nat a :: st, lets, locals, m⟩ Q ↔
      lang.Ends d ⟨.nat (a - b) :: st, lets, locals, m⟩ Q := by
  have difference : nat (a - b) = .i32 (BitVec.ofNat 32 a - BitVec.ofNat 32 b) := by
    rw [ofNat_sub_ofNat_of_le a b small le, nat]
  rw [difference]
  exact ends_step rfl

theorem exec_bitAnd :
    lang.Ends (.prim (.bitAnd .i32) :: d) ⟨.nat b :: .nat a :: st, lets, locals, m⟩ Q ↔
      lang.Ends d ⟨.nat (a &&& b) :: st, lets, locals, m⟩ Q := by
  rw [nat, nat, ends_bitAnd_i32, ← ofNat_and, nat]

variable {c : Cmp} {n off : Nat}

theorem exec_cmp :
    lang.Ends (.prim (.cmp c .i32) :: d) ⟨.nat b :: .nat a :: st, lets, locals, m⟩ Q ↔
      lang.Ends d ⟨.i32 (if c.holds (BitVec.ofNat 32 a) (BitVec.ofNat 32 b) then 1 else 0) :: st,
        lets, locals, m⟩ Q :=
  ends_cmp_i32

theorem toInt_ofNat (small : a < 2 ^ 31) : (BitVec.ofNat 32 a).toInt = a := by
  rw [toInt_ofNat', Int.bmod_eq_of_le (by omega) (by omega)]

/-- The comparison of the numbers. -/
def Cmp.onNat (a b : Nat) : Cmp → Bool
  | eq => a == b
  | ne => a != b
  | lt => a < b
  | le => a ≤ b
  | gt => b < a
  | ge => b ≤ a

theorem holds_onNat (ha : a < 2 ^ 31) (hb : b < 2 ^ 31) :
    c.holds (BitVec.ofNat 32 a) (BitVec.ofNat 32 b) = c.onNat a b := by
  have same : BitVec.ofNat 32 a = BitVec.ofNat 32 b ↔ a = b := by
    rw [← toNat_inj, toNat_ofNat, toNat_ofNat, Nat.mod_eq_of_lt (by omega),
      Nat.mod_eq_of_lt (by omega)]
  cases c <;> simp [Cmp.holds, Cmp.onNat, BitVec.slt, BitVec.sle, toInt_ofNat ha, toInt_ofNat hb,
    same, Bool.beq_eq_decide_eq, bne]

/-! ### Memory -/

theorem toNat_add_ofNat (small : off + n < 2 ^ 32) :
    (BitVec.ofNat 32 off + BitVec.ofNat 32 n).toNat = off + n := by
  rw [← ofNat_add, toNat_ofNat, Nat.mod_eq_of_lt small]

/-- The check of an access inside the arena passes. -/
theorem ofNat_add_le (inside : off + n ≤ m.arenaLen.toNat) :
    BitVec.ofNat 32 off + BitVec.ofNat 32 n ≤ m.arenaLen := by
  rw [le_def, toNat_add_ofNat (by omega)]
  exact inside

theorem toNat_ofNat_of_inside (inside : off + n ≤ m.arenaLen.toNat) :
    (BitVec.ofNat 32 off).toNat = off := by
  rw [toNat_ofNat, Nat.mod_eq_of_lt (by omega)]

theorem ofNat_setWidth (inside : off + n ≤ m.arenaLen.toNat) :
    (BitVec.ofNat 32 off).setWidth 64 = BitVec.ofNat 64 off := by
  rw [← ofNat_toNat, toNat_ofNat_of_inside inside]

/-- A load of `n` bytes inside the arena. -/
theorem perform_inside (inside : off + n ≤ m.arenaLen.toNat) {s : State} (here : s.machine = m) :
    Op.perform s st (do
        let bs ← loadAtAbsolute (BitVec.ofNat 32 n) 0 (BitVec.ofNat 32 off)
        pure (ofBytes 32 bs)) (fun v => [.i32 v]) =
      some (.ok { s with
        stack := .i32 (ofBytes 32 (m.bytes off n)) :: st
        machine := m.touch (m.arenaBase + (BitVec.ofNat 32 off).setWidth 64) n false }) := by
  have width : (BitVec.ofNat 32 n).toNat = n := by
    rw [toNat_ofNat, Nat.mod_eq_of_lt (by omega)]
  rw [perform_load, here, if_pos (ofNat_add_le inside), toNat_ofNat_of_inside inside, width]
  rfl

theorem exec_loadByte (inside : off + 1 ≤ m.arenaLen.toNat) (behind : ∀ m', Reads m m' →
      lang.Ends d ⟨.nat (m.mem.view m.arenaBase off).toNat :: st, lets, locals, m'⟩ Q) :
    lang.Ends (.prim (.loadI8UAtAbsolute 0) :: d) ⟨.nat off :: st, lets, locals, m⟩ Q := by
  have one : ofBytes 32 (m.bytes off 1) = BitVec.ofNat 32 (m.mem.view m.arenaBase off).toNat := by
    simp [ofBytes, Machine.bytes, Memory.window, leNat]
  have stepped : (Op.loadI8UAtAbsolute 0).step ⟨.nat off :: st, lets, locals, m⟩ = _ :=
    perform_inside inside rfl
  rw [ends_step stepped, one]
  exact behind _ (.touch ..)

theorem exec_loadI32 (inside : off + 4 ≤ m.arenaLen.toNat) (behind : ∀ m', Reads m m' →
      lang.Ends d ⟨.nat (m.stringLen off) :: st, lets, locals, m'⟩ Q) :
    lang.Ends (.prim (.loadI32AtAbsolute 0) :: d) ⟨.nat off :: st, lets, locals, m⟩ Q := by
  have stepped : (Op.loadI32AtAbsolute 0).step ⟨.nat off :: st, lets, locals, m⟩ = _ :=
    perform_inside inside rfl
  exact (ends_step stepped).mpr (behind _ (.touch ..))

theorem storeAtAbsolute_inside {bs : List UInt8} (inside : off + n ≤ m.arenaLen.toNat) :
    storeAtAbsolute (BitVec.ofNat 32 n) 0 (BitVec.ofNat 32 off) bs m = .ok ((),
      (wrote m off bs).touch (m.arenaBase + BitVec.ofNat 64 off) bs.length true) := by
  rw [storeAtAbsolute, ← ofNat_setWidth inside]
  refine arenaAddr_bind_eq_ok.mpr ⟨?_, ?_⟩
  · rw [add_zero]
    exact ofNat_add_le inside
  · rw [store_apply, add_zero, ofNat_setWidth inside]
    rfl

theorem exec_call {helper : Helper} {v : BitVec 32}
    (result : helper.result (BitVec.ofNat 32 a) (BitVec.ofNat 32 b) m = .ok v) :
    lang.Ends (.prim (.call helper) :: d) ⟨.nat b :: .nat a :: st, lets, locals, m⟩ Q ↔
      lang.Ends d ⟨.i32 v :: st, lets, locals, m⟩ Q :=
  ends_step (by simp only [Op.step, Word.nat, result])

end

/-! ### Records -/

section
variable {m m' : Machine} {p q n : Nat} {bs : List UInt8}

theorem bytes_wrote_same (small : p + bs.length < 2 ^ 63) : (wrote m p bs).bytes p bs.length = bs :=
  Memory.window_write_same rfl small

theorem bytes_wrote_apart (hp : p + bs.length < 2 ^ 63) (hq : q + n < 2 ^ 63)
    (apart : q + n ≤ p ∨ p + bs.length ≤ q) : (wrote m p bs).bytes q n = m.bytes q n :=
  Memory.window_write_apart hp hq apart

/-- The record at `p` holds these bytes, inside the arena. -/
structure HoldsBytes (m : Machine) (p : Nat) (bs : List UInt8) : Prop where
  count : m.stringLen p = bs.length
  bytes : m.bytes (p + 4) bs.length = bs
  inside : p + 4 + bs.length ≤ m.arenaLen.toNat

namespace HoldsBytes

theorem view (holds : HoldsBytes m p bs) {k : Nat} (within : k < bs.length) :
    m.mem.view m.arenaBase (p + 4 + k) = bs[k] := by
  have here : (m.bytes (p + 4) bs.length)[k]? = bs[k]? := by rw [holds.bytes]
  simpa [Machine.bytes, Memory.window, within] using here

theorem slice (holds : HoldsBytes m p bs) {k : Nat} (within : k + n ≤ bs.length) :
    m.bytes (p + 4 + k) n = (bs.drop k).take n := by
  refine List.ext_getElem (by simp [Machine.bytes]; omega) fun j hj hj' => ?_
  have inside : j < n := by simpa [Machine.bytes] using hj
  rw [List.getElem_take, List.getElem_drop, ← holds.view (by omega)]
  simp [Machine.bytes, Memory.window, Nat.add_assoc]

theorem congr (holds : HoldsBytes m p bs) (same : ∀ off n, m'.bytes off n = m.bytes off n)
    (arena : m'.arenaLen = m.arenaLen) : HoldsBytes m' p bs := by
  obtain ⟨count, bytes, inside⟩ := holds
  refine ⟨?_, by rw [same, bytes], by rw [arena]; exact inside⟩
  rw [Machine.stringLen, same]
  exact count

theorem reads (holds : HoldsBytes m p bs) (read : Reads m m') : HoldsBytes m' p bs :=
  holds.congr read.bytes read.arenaLen

/-- A header and the bytes behind it are a record. -/
theorem of_wrote (fits : p + 4 + bs.length ≤ m.arenaLen.toNat) :
    HoldsBytes (wrote (wrote m p (leBytes 4 bs.length)) (p + 4) bs) p bs := by
  refine ⟨?_, bytes_wrote_same (by omega), fits⟩
  have header : (wrote m p (leBytes 4 bs.length)).bytes p (leBytes 4 bs.length).length = _ :=
    bytes_wrote_same (by rw [length_leBytes]; omega)
  rw [length_leBytes] at header
  rw [Machine.stringLen, bytes_wrote_apart (by omega) (by omega) (by omega), header]
  exact leNat_leBytes (by omega)

/-- A write elsewhere keeps a record. -/
theorem apart {xs : List UInt8} (holds : HoldsBytes m p bs) (fits : q + xs.length ≤ m.arenaLen.toNat)
    (clear : p + 4 + bs.length ≤ q ∨ q + xs.length ≤ p) : HoldsBytes (wrote m q xs) p bs := by
  obtain ⟨count, bytes, inside⟩ := holds
  refine ⟨?_, ?_, inside⟩
  · rw [Machine.stringLen, bytes_wrote_apart (by omega) (by omega) (by omega)]
    exact count
  · rw [bytes_wrote_apart (by omega) (by omega) (by omega)]
    exact bytes

end HoldsBytes

/-- A write behind bytes adds to them. -/
theorem bytes_wrote_behind (fits : q + n + bs.length < 2 ^ 63) :
    (wrote m (q + n) bs).bytes q (n + bs.length) = m.bytes q n ++ bs := by
  rw [bytes_add, bytes_wrote_apart fits (by omega) (.inl (by omega)), bytes_wrote_same fits]

end

/-! ### Streams on numbers -/

/-- Let slots with the numbers they hold; the first entry of a slot counts. -/
abbrev Slots := List (Nat × Nat)

def Slots.Of (l : Slots) (lets : Nat → Option Word) : Prop :=
  ∀ i v, l.lookup i = some v → lets i = some (.nat v)

theorem Slots.Of.set {l : Slots} {lets : Nat → Option Word} (of : l.Of lets) (i a : Nat) :
    Slots.Of ((i, a) :: l) (Function.update lets i (some (.nat a))) := by
  intro j v found
  by_cases same : j = i
  · subst same
    obtain rfl : a = v := by simpa using found
    rw [Function.update_self]
  · rw [Function.update_of_ne same]
    refine of j v ?_
    rwa [List.lookup_cons, beq_false_of_ne same] at found

/-- The slots of one list are in the other. -/
@[reducible] def Slots.Within (l : Slots) : Slots → Prop
  | [] => True
  | (i, v) :: rest => l.lookup i = some v ∧ Within l rest

theorem Slots.Within.cons {l l' : Slots} {i v : Nat} (other : ∀ e ∈ l', e.1 ≠ i)
    (within : l.Within l') : Slots.Within ((i, v) :: l) l' := by
  induction l' with
  | nil => trivial
  | cons e rest ih =>
    obtain ⟨j, w⟩ := e
    refine ⟨?_, ih (fun e mem => other e (List.mem_cons_of_mem _ mem)) within.2⟩
    have ne : j ≠ i := other (j, w) (List.mem_cons_self ..)
    rw [List.lookup_cons, beq_false_of_ne ne]
    exact within.1

theorem Slots.Of.forget {l l' : Slots} {lets : Nat → Option Word} (of : l.Of lets)
    (kept : l.Within l') : l'.Of lets := by
  intro i v found
  induction l' with
  | nil => cases found
  | cons e rest ih =>
    obtain ⟨j, w⟩ := e
    by_cases same : i = j
    · subst same
      obtain rfl : w = v := by simpa using found
      exact of _ _ kept.1
    · rw [List.lookup_cons, beq_false_of_ne same] at found
      exact ih kept.2 found

/-- The code up to the first operation that compares, subtracts or goes to memory, on the
numbers; and the code from there on. -/
def numeric (args : List Nat) : Stream → List Nat → Slots → List Nat × Slots × Stream
  | .prim (.constI32 v) :: rest, st, l => numeric args rest (v.toNat :: st) l
  | .prim (.localGet i) :: rest, st, l =>
    match args[i]? with
    | some a => numeric args rest (a :: st) l
    | none => (st, l, .prim (.localGet i) :: rest)
  | .prim (.letGet i .i32) :: rest, st, l =>
    match l.lookup i with
    | some a => numeric args rest (a :: st) l
    | none => (st, l, .prim (.letGet i .i32) :: rest)
  | .prim (.letSet i .i32) :: rest, a :: st, l => numeric args rest st ((i, a) :: l)
  | .prim (.add .i32) :: rest, b :: a :: st, l => numeric args rest ((a + b) :: st) l
  | .prim (.mul .i32) :: rest, b :: a :: st, l => numeric args rest ((a * b) :: st) l
  | .prim (.bitAnd .i32) :: rest, b :: a :: st, l => numeric args rest ((a &&& b) :: st) l
  | c, st, l => (st, l, c)

/-- The state has these numbers as its arguments and in its let slots, and memory was only
read since `m`. -/
structure At (args : List Nat) (m : Machine) (l : Slots) (s : State) : Prop where
  locals : s.locals = args.map .nat
  slots : l.Of s.lets
  reads : Reads m s.machine

theorem At.forget {args : List Nat} {m : Machine} {l l' : Slots} {s : State} (here : At args m l s)
    (kept : l.Within l') : At args m l' s :=
  ⟨here.locals, here.slots.forget kept, here.reads⟩

/-- From every state with these numbers the code ends, and then `Q`. -/
def Run (args : List Nat) (m : Machine) (Q : Exit TrapKind → State → Prop) (c : Stream)
    (st : List Nat) (l : Slots) : Prop :=
  ∀ s, s.stack = st.map .nat → At args m l s → lang.Ends c s Q

namespace Run

variable {args : List Nat} {m : Machine} {Q : Exit TrapKind → State → Prop} {c d : Stream}
  {st : List Nat} {l : Slots} {a b : Nat}

/-- A rule for states as they are written out. -/
theorem intro (ends : ∀ lets m', l.Of lets → Reads m m' →
    lang.Ends c ⟨st.map .nat, lets, args.map .nat, m'⟩ Q) : Run args m Q c st l := by
  rintro ⟨stack, lets, locals, m'⟩ rfl ⟨rfl, slots, reads⟩
  exact ends lets m' slots reads

variable {lets : Nat → Option Word} {m' : Machine} {k : Cmp} {body else_ then_ : Stream}
  {n v off : Nat}

theorem at_ (run : Run args m Q c st l) (slots : l.Of lets) (reads : Reads m m') :
    lang.Ends c ⟨st.map .nat, lets, args.map .nat, m'⟩ Q :=
  run _ rfl ⟨rfl, slots, reads⟩

/-- A call: no slot is set. -/
theorem start (run : Run args m Q c [] []) : lang.Ends c ⟨[], lets, args.map .nat, m⟩ Q :=
  run.at_ (fun _ _ found => nomatch found) (.refl m)

/-- Code ends if it does from where the numbers lead. -/
theorem steps_append {c' : Stream} (st' : List Nat) (l' : Slots)
    (ran : numeric args c st l = (st', l', c')) (behind : Run args m Q (c' ++ d) st' l') :
    Run args m Q (c ++ d) st l := by
  induction c, st, l using numeric.induct args with
  | case1 v rest st l ih =>
    refine intro fun lets m' slots reads => ends_constI32.mpr ?_
    rw [← nat_toNat]
    exact (ih ran).at_ slots reads
  | case2 i rest st l a found ih =>
    refine intro fun lets m' slots reads => ?_
    have slot : (args.map nat)[i]? = some (.nat a) := by
      rw [List.getElem?_map, found, Option.map_some]
    refine (exec_localGet slot).mpr ((ih ?_).at_ slots reads)
    simpa only [numeric, found] using ran
  | case4 i rest st l a found ih =>
    refine intro fun lets m' slots reads => ?_
    refine (exec_letGet (slots i a found)).mpr ((ih ?_).at_ slots reads)
    simpa only [numeric, found] using ran
  | case6 i rest a st l ih =>
    exact intro fun lets m' slots reads => exec_letSet.mpr ((ih ran).at_ (slots.set i a) reads)
  | case7 rest b a st l ih =>
    exact intro fun lets m' slots reads => exec_add.mpr ((ih ran).at_ slots reads)
  | case8 rest b a st l ih =>
    exact intro fun lets m' slots reads => exec_mul.mpr ((ih ran).at_ slots reads)
  | case9 rest b a st l ih =>
    exact intro fun lets m' slots reads => exec_bitAnd.mpr ((ih ran).at_ slots reads)
  | case3 i rest st l missing | case5 i rest st l missing =>
    obtain ⟨rfl, rfl, rfl⟩ : st = st' ∧ l = l' ∧ _ = c' := by
      simpa only [numeric, missing, Prod.mk.injEq] using ran
    exact behind
  | case10 =>
    obtain ⟨rfl, rfl, rfl⟩ : _ = st' ∧ _ = l' ∧ _ = c' := by
      simpa only [numeric, Prod.mk.injEq] using ran
    exact behind

theorem steps (st' : List Nat) (l' : Slots) (ran : numeric args c st l = (st', l', d))
    (behind : Run args m Q d st' l') : Run args m Q c st l := by
  rw [← List.append_nil c]
  rw [← List.append_nil d] at behind
  exact steps_append st' l' ran behind

/-- Some of the slots are enough. -/
theorem forget {l' : Slots} (run : Run args m Q c st l')
    (kept : l.Within l' := by repeat first | exact True.intro | refine ⟨rfl, ?_⟩) :
    Run args m Q c st l :=
  fun s stack here => run s stack (here.forget kept)

theorem letSet {i : Nat} (behind : Run args m Q d st ((i, a) :: l)) :
    Run args m Q (.prim (.letSet i .i32) :: d) (a :: st) l :=
  intro fun _ _ slots reads => exec_letSet.mpr (behind.at_ (slots.set i a) reads)

theorem sub (behind : Run args m Q d ((a - b) :: st) l) (small : b < 2 ^ 32 := by omega)
    (le : b ≤ a := by omega) :
    Run args m Q (.prim (.sub .i32) :: d) (b :: a :: st) l :=
  intro fun _ _ slots reads => (exec_sub small le).mpr (behind.at_ slots reads)

/-! ### Branches -/

theorem nil (done : ∀ s, s.stack = st.map .nat → At args m l s → Q .next s) :
    Run args m Q [] st l :=
  fun s stack here => Lang.Ends.nil (done s stack here)

/-- A branch of an `if` that reaches its end goes on behind it. -/
theorem join {target : State → Prop} (behind : Run args m Q d st l) :
    Run args m (lang.onward d Q target) [] st l :=
  nil behind

theorem cmp (behind : Run args m Q d ((if k.onNat a b then 1 else 0) :: st) l)
    (ha : a < 2 ^ 31 := by omega) (hb : b < 2 ^ 31 := by omega) :
    Run args m Q (.prim (.cmp k .i32) :: d) (b :: a :: st) l := by
  refine intro fun lets m' slots reads => exec_cmp.mpr ?_
  have same : (.i32 (if k.holds (BitVec.ofNat 32 a) (BitVec.ofNat 32 b) then 1 else 0) : Word) =
      .nat (if k.onNat a b then 1 else 0) := by
    rw [holds_onNat ha hb]
    cases k.onNat a b <;> rfl
  rw [same]
  exact behind.at_ slots reads

theorem test_nat {rest : List Word} {locals : List Word} (small : a < 2 ^ 32) :
    lang.test ⟨.nat a :: rest, lets, locals, m'⟩ = some (decide (a ≠ 0), ⟨rest, lets, locals, m'⟩) := by
  have zero : (BitVec.ofNat 32 a != 0) = decide (a ≠ 0) := by
    rw [bne, beq_eq_decide, ← decide_not, decide_eq_decide, ne_eq, ← toNat_inj,
      toNat_ofNat, Nat.mod_eq_of_lt small]
    rfl
  exact congrArg (fun v => some (v, _)) zero

theorem ite (taken : a ≠ 0 → Run args m (lang.onward d Q fun _ => False) then_ st l)
    (skipped : a = 0 → Run args m (lang.onward d Q fun _ => False) else_ st l)
    (small : a < 2 ^ 32 := by omega) :
    Run args m Q (.ite then_ else_ :: d) (a :: st) l := by
  refine intro fun lets m' slots reads => Lang.Ends.ite (test_nat small) ?_
  by_cases zero : a = 0
  · rw [if_neg (by simp [zero])]
    exact (skipped zero).at_ slots reads
  · rw [if_pos (by simp [zero])]
    exact (taken zero).at_ slots reads

/-- A comparison and the `if` on it. -/
theorem ifCmp
    (taken : k.onNat a b = true → Run args m (lang.onward d Q fun _ => False) then_ st l)
    (skipped : k.onNat a b = false → Run args m (lang.onward d Q fun _ => False) else_ st l)
    (ha : a < 2 ^ 31 := by omega) (hb : b < 2 ^ 31 := by omega) :
    Run args m Q (.prim (.cmp k .i32) :: .ite then_ else_ :: d) (b :: a :: st) l := by
  refine cmp (ite (fun one => ?_) (fun zero => ?_) (by split <;> decide))
  · exact taken (by simpa using one)
  · exact skipped (by simpa using zero)

theorem ifTaken (taken : Run args m (lang.onward d Q fun _ => False) then_ st l)
    (holds : k.onNat a b = true := by exact decide_eq_true (by omega))
    (ha : a < 2 ^ 31 := by omega) (hb : b < 2 ^ 31 := by omega) :
    Run args m Q (.prim (.cmp k .i32) :: .ite then_ else_ :: d) (b :: a :: st) l :=
  ifCmp (fun _ => taken) fun fails => nomatch holds.symm.trans fails

theorem ifSkipped (skipped : Run args m (lang.onward d Q fun _ => False) else_ st l)
    (fails : k.onNat a b = false := by exact decide_eq_false (by omega))
    (ha : a < 2 ^ 31 := by omega) (hb : b < 2 ^ 31 := by omega) :
    Run args m Q (.prim (.cmp k .i32) :: .ite then_ else_ :: d) (b :: a :: st) l :=
  ifCmp (fun holds => nomatch holds.symm.trans fails) fun _ => skipped

theorem br (left : ∀ s, At args m l s → Q (.branch n) s) : Run args m Q (.br n :: d) st l :=
  fun s _ here => Lang.Ends.br (left s here)

/-- A comparison and the branch on it. -/
theorem brIfCmp (taken : k.onNat a b = true → ∀ s, At args m l s → Q (.branch n) s)
    (passed : k.onNat a b = false → Run args m Q d st l)
    (ha : a < 2 ^ 31 := by omega) (hb : b < 2 ^ 31 := by omega) :
    Run args m Q (.prim (.cmp k .i32) :: .brIf n :: d) (b :: a :: st) l := by
  refine cmp (intro fun lets m' slots reads => ?_)
  cases holds : k.onNat a b with
  | true =>
    exact Lang.Ends.brIf_taken (test_nat (by decide)) (taken holds _ ⟨rfl, slots, reads⟩)
  | false =>
    exact Lang.Ends.brIf_passed (test_nat (by decide)) ((passed holds).at_ slots reads)

/-- A block around a loop: the body branches back with a smaller measure, or out to the code
behind the block. -/
theorem blockLoop {A : Type} (machine : A → Machine) (slots : A → Slots) (measure : A → Nat) (x : A)
    (inside : ∀ x Q', (∀ y {c' l'}, (smaller : measure y < measure x := by dsimp only; omega) →
        (kept : l'.Within (slots y) := by repeat first | exact True.intro | refine ⟨rfl, ?_⟩) →
        Run args (machine y) Q' (.br 0 :: c') st l') →
      (∀ m' l' s, Run args m' Q d st l' → At args m' l' s → Q' (.branch 1) s) →
      Run args (machine x) Q' body st (slots x)) :
    Run args (machine x) Q (.block [.loop body] :: d) st (slots x) := by
  intro s stack here
  refine Lang.Ends.block (Lang.Ends.loop_ghost
    (fun y s => s.stack = st.map .nat ∧ At args (machine y) (slots y) s) measure ⟨stack, here⟩ ?_)
  rintro y s₁ ⟨stack₁, here₁⟩
  refine inside y _ (fun z _ _ smaller kept => br fun s₂ here₂ => ?_)
    (fun m' l' s₂ behind here₂ => ?_) s₁ stack₁ here₁
  · exact ⟨z, ⟨stack₁, ⟨here₂.locals, here₂.slots.forget kept, here₂.reads⟩⟩, smaller⟩
  · exact behind _ stack ⟨here₂.locals, here₂.slots, here₂.reads⟩

/-- A block that is left at its end. -/
theorem block (inside : ∀ Q', (∀ st' l' m', Run args m' Q d st' l' → Run args m' Q' [] st' l') →
      Run args m Q' body st l) : Run args m Q (.block body :: d) st l :=
  fun s stack here => Lang.Ends.block (inside _ (fun _ _ _ => join) s stack here)

theorem ret (left : ∀ s, s.stack = st.map .nat → At args m l s → Q .ret s) :
    Run args m Q (.ret :: d) st l :=
  fun s stack here => Lang.Ends.ret (left s stack here)

/-! ### Memory -/

theorem loadByte (behind : Run args m Q d ((m.mem.view m.arenaBase off).toNat :: st) l)
    (inside : off + 1 ≤ m.arenaLen.toNat := by omega) :
    Run args m Q (.prim (.loadI8UAtAbsolute 0) :: d) (off :: st) l := by
  refine intro fun lets m' slots reads => ?_
  refine exec_loadByte (by rwa [reads.arenaLen]) fun m'' again => ?_
  rw [reads.mem, reads.arenaBase]
  exact behind.at_ slots (reads.trans again)

theorem loadI32 (behind : Run args m Q d (m.stringLen off :: st) l)
    (inside : off + 4 ≤ m.arenaLen.toNat := by omega) :
    Run args m Q (.prim (.loadI32AtAbsolute 0) :: d) (off :: st) l := by
  refine intro fun lets m' slots reads => ?_
  refine exec_loadI32 (by rwa [reads.arenaLen]) fun m'' again => ?_
  rw [Machine.stringLen, reads.bytes]
  exact behind.at_ slots (reads.trans again)

theorem call {helper : Helper} (result : ∀ m', Reads m m' →
      helper.result (BitVec.ofNat 32 a) (BitVec.ofNat 32 b) m' = .ok (BitVec.ofNat 32 v))
    (behind : Run args m Q d (v :: st) l) :
    Run args m Q (.prim (.call helper) :: d) (b :: a :: st) l :=
  intro fun _ m' slots reads => (exec_call (result m' reads)).mpr (behind.at_ slots reads)

/-- A machine operation that does not trap. -/
theorem effect {α : Type} {op : Op} {st' : List Nat} {m₁ : Machine} (rest : List Nat)
    (code : Emitted α) (push : α → List Word)
    (does : ∀ lets m', op.step ⟨st.map .nat, lets, args.map .nat, m'⟩ =
      Op.perform ⟨st.map .nat, lets, args.map .nat, m'⟩ (rest.map .nat) code push)
    (runs : ∀ m', Reads m m' → ∃ v m'', code m' = .ok (v, m'') ∧
      push v ++ rest.map .nat = st'.map .nat ∧ Reads m₁ m'')
    (behind : Run args m₁ Q d st' l) : Run args m Q (.prim op :: d) st l := by
  refine intro fun lets m' slots reads => ?_
  obtain ⟨v, m'', ran, stack, reads'⟩ := runs m' reads
  have stepped : op.step ⟨st.map .nat, lets, args.map .nat, m'⟩ =
      some (.ok ⟨st'.map .nat, lets, args.map .nat, m''⟩) := by
    rw [does, Op.perform, ran, ← stack]
  exact (ends_step stepped).mpr (behind.at_ slots reads')

/-- The place of the next scratch block. -/
theorem alloc {size top : Nat} (here : m.scratchBase.toNat + m.scratchCursor.toNat = top)
    (room : top + size ≤ m.arenaLen.toNat)
    (behind : Run args { m with scratchCursor := m.scratchCursor + BitVec.ofNat 32 size } Q d
      (top :: st) l) :
    Run args m Q (.prim .allocScratchDyn :: d) (size :: st) l := by
  have top_eq : m.scratchBase + m.scratchCursor = BitVec.ofNat 32 top := by
    rw [← toNat_inj, toNat_add, here, toNat_ofNat]
  refine effect st (allocScratch (BitVec.ofNat 32 size)) (fun base => [.i32 base])
    (fun _ _ => rfl) (fun m' reads => ?_) behind
  have ran : allocScratch (BitVec.ofNat 32 size) m' = .ok (BitVec.ofNat 32 top,
      { m' with
        scratchCursor := m'.scratchCursor + BitVec.ofNat 32 size
        blocks := m'.blocks ++ [(BitVec.ofNat 32 top, BitVec.ofNat 32 size)] }) := by
    rw [← bind_pure (allocScratch _), allocScratch_bind_eq_ok, reads.scratchBase,
      reads.scratchCursor, reads.arenaLen, top_eq]
    exact ⟨ofNat_add_le room, rfl⟩
  refine ⟨_, _, ran, rfl, reads.mem, reads.arenaBase, reads.arenaLen, reads.scratchBase, ?_⟩
  exact congrArg (· + BitVec.ofNat 32 size) reads.scratchCursor

theorem store {op : Op} {n : Nat} {bs : List UInt8} (inside : off + n ≤ m.arenaLen.toNat)
    (does : ∀ lets m', op.step ⟨(v :: off :: st).map .nat, lets, args.map .nat, m'⟩ =
      Op.perform ⟨(v :: off :: st).map .nat, lets, args.map .nat, m'⟩ (st.map .nat)
        (storeAtAbsolute (BitVec.ofNat 32 n) 0 (BitVec.ofNat 32 off) bs) fun _ => [])
    (behind : Run args (wrote m off bs) Q d st l) :
    Run args m Q (.prim op :: d) (v :: off :: st) l := by
  refine effect st _ _ does (fun m' reads => ?_) behind
  refine ⟨_, _, storeAtAbsolute_inside (by rwa [reads.arenaLen]), rfl, ?_, reads.arenaBase,
    reads.arenaLen, reads.scratchBase, reads.scratchCursor⟩
  change Memory.write m'.mem _ _ = _
  rw [reads.mem, reads.arenaBase]
  rfl

theorem storeI32 (behind : Run args (wrote m off (leBytes 4 v)) Q d st l)
    (inside : off + 4 ≤ m.arenaLen.toNat := by omega) (small : v < 2 ^ 32 := by omega) :
    Run args m Q (.prim (.storeI32AtAbsolute 0) :: d) (v :: off :: st) l := by
  have value : (BitVec.ofNat 32 v).toNat = v := by
    rw [toNat_ofNat, Nat.mod_eq_of_lt small]
  rw [← value] at behind
  exact store inside (fun _ _ => rfl) behind

theorem storeI8 (behind : Run args (wrote m off [UInt8.ofNat v]) Q d st l)
    (inside : off + 1 ≤ m.arenaLen.toNat := by omega) (small : v < 256 := by omega) :
    Run args m Q (.prim (.storeI8AtAbsolute 0) :: d) (v :: off :: st) l := by
  have value : [UInt8.ofNat v] = leBytes 1 (BitVec.ofNat 32 v).toNat := by
    rw [toNat_ofNat, Nat.mod_eq_of_lt (by omega)]
    rfl
  rw [value] at behind
  exact store inside (fun _ _ => rfl) behind

theorem memcpy {dest src n : Nat} (behind : Run args (wrote m dest (m.bytes src n)) Q d st l)
    (target : dest + n ≤ m.arenaLen.toNat := by omega)
    (source : src + n ≤ m.arenaLen.toNat := by omega) :
    Run args m Q (.prim .memcpyAtAbsolute :: d) (n :: src :: dest :: st) l := by
  have length : (BitVec.ofNat 32 n).toNat = n := by
    rw [toNat_ofNat, Nat.mod_eq_of_lt (by omega)]
  refine effect st (Codegen.memcpyAtAbsolute (BitVec.ofNat 32 dest) (BitVec.ofNat 32 src)
    (BitVec.ofNat 32 n)) (fun _ => []) (fun _ _ => rfl) (fun m' reads => ?_) behind
  have ran : Codegen.memcpyAtAbsolute (BitVec.ofNat 32 dest) (BitVec.ofNat 32 src)
      (BitVec.ofNat 32 n) m' = .ok ((),
        ((wrote (m'.touch (m'.arenaBase + BitVec.ofNat 64 src) n false) dest (m'.bytes src n)).touch
          (m'.arenaBase + BitVec.ofNat 64 dest) (m'.bytes src n).length true)) := by
    rw [Codegen.memcpyAtAbsolute, get_bind, condTrap_bind_eq_ok, condTrap_bind_eq_ok, reads.arenaLen]
    refine ⟨ofNat_add_le target, ofNat_add_le source, ?_⟩
    rw [length, ofNat_setWidth target, ofNat_setWidth source, Machine.bytes,
      ← Memory.read_eq_window]
    rfl
  refine ⟨_, _, ran, rfl, ?_, reads.arenaBase, reads.arenaLen, reads.scratchBase,
    reads.scratchCursor⟩
  change Memory.write m'.mem (m'.arenaBase + BitVec.ofNat 64 dest) _ = _
  rw [reads.bytes, reads.mem, reads.arenaBase]
  rfl

end Run

end Relon.Ir
