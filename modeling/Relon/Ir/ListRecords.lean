import Relon.Ir.Ends
import Relon.Ir.Lists
import Relon.Codegen.Strings
import Relon.Eval.Stdlib

/-! The list records of compiled code: what a materialised range leaves.

A scalar list is a count, and one eight-byte word per element from the next multiple of
eight behind it. A range cuts its length to 32 bits before it allocates, stores the count
and loops, and the loop compares as signed numbers. So the record is the range only as
long as the length fits 31 bits. -/
namespace Relon.Ir

open Codegen Control Bytes BitVec Function Lang.Ends Machine Ends

/-! ### Records -/

/-- Where a record's elements start. -/
def payloadOf (base : BitVec 32) : BitVec 32 := (base + 11) &&& (-8)

theorem toNat_payloadOf (base : BitVec 32) :
    (payloadOf base).toNat = (base.toNat + 11) % 2 ^ 32 / 8 * 8 := by
  have masked : (payloadOf base).toNat = _ := Words.toNat_mask (base + 11) 3
  rw [masked, toNat_add]
  rfl

/-- The eight bytes at an offset of the arena, as a word. -/
def word64 (m : Machine) (off : Nat) : BitVec 64 := ofBytes 64 (m.bytes off 8)

/-- The record at `base` is a list of these words, with its elements inside the arena. -/
structure HoldsWords (m : Machine) (base : BitVec 32) (ws : List (BitVec 64)) : Prop where
  count : m.stringLen base.toNat = ws.length
  inside : ∀ j < ws.length, (payloadOf base).toNat + 8 * j + 8 ≤ m.arenaLen.toNat
  element : ∀ j (h : j < ws.length), word64 m ((payloadOf base).toNat + 8 * j) = ws[j]

/-- The record at `base` is a list of these integers. -/
def HoldsInts (m : Machine) (base : BitVec 32) (xs : List Int) : Prop :=
  HoldsWords m base (xs.map (BitVec.ofInt 64))

variable {m : Machine} {at_ off : Nat} {as : List Access} {bs : List UInt8}

theorem word64_write_same {v : BitVec 64} (low : off < 2 ^ 32) {mem : Memory}
    (written : mem = m.mem.write (m.arenaBase + BitVec.ofNat 64 off) (leBytes 8 v.toNat)) :
    word64 (logged m mem as) off = v := by
  have small : v.toNat < 256 ^ 8 := v.isLt
  rw [word64, bytes, logged, written,
    Memory.window_write_same (length_leBytes 8 _) (by omega), ofBytes, leNat_leBytes small]
  exact ofNat_toNat ..

theorem word64_write_apart (low : off < 2 ^ 32) (low' : at_ + bs.length < 2 ^ 33)
    (apart : off + 8 ≤ at_ ∨ at_ + bs.length ≤ off) :
    word64 (logged m (m.mem.write (m.arenaBase + BitVec.ofNat 64 at_) bs) as) off = word64 m off := by
  rw [word64, bytes, logged, Memory.window_write_apart (by omega) (by omega) apart]
  rfl

theorem stringLen_write_apart (low : off < 2 ^ 32) (low' : at_ + bs.length < 2 ^ 33)
    (apart : off + 4 ≤ at_ ∨ at_ + bs.length ≤ off) :
    (logged m (m.mem.write (m.arenaBase + BitVec.ofNat 64 at_) bs) as).stringLen off =
      m.stringLen off := by
  rw [stringLen, bytes, logged, Memory.window_write_apart (by omega) (by omega) apart]
  rfl

theorem stringLen_write_same {off n : BitVec 32} :
    (logged m (m.mem.write (m.arenaBase + off.setWidth 64) (leBytes 4 n.toNat)) as).stringLen
      off.toNat = n.toNat := by
  have small : n.toNat < 256 ^ 4 := n.isLt
  rw [stringLen, bytes, logged, ← ofNat_toNat,
    Memory.window_write_same (length_leBytes 4 _) (by omega), leNat_leBytes small]

/-! ### The elements of a range -/

/-- The elements of `range(a, b)`. -/
def rangeInts (a b : Int) : List Int := (List.range (b - a).toNat).map fun i : Nat => a + i

@[simp] theorem length_rangeInts (a b : Int) : (rangeInts a b).length = (b - a).toNat := by
  simp [rangeInts]

/-- At this point of a run the code of an element leaves the integer, and the machine. -/
def Element.Yields (e : Element) (lets : Nat → Option Word) (locals : List Word) (m : Machine)
    (v : BitVec 64) (m' : Machine) : Prop :=
  ∃ m₁, e.effect lets locals m = some (.ok (.i64 v, m₁)) ∧
    m' = { m₁ with accesses := m.accesses, blocks := m.blocks }

/-- What the bounds of a range are in a run: the second is evaluated behind the first, which is
in its let slot by then. Without a first one the range starts at zero. -/
def Bounds (k : Nat) (a : Option Element) (b : Element) (s : State) (u v : BitVec 64) : Prop :=
  ∃ m₁ m₂, (match a with
    | some e => e.Yields s.lets s.locals s.machine u m₁
    | none => u = 0 ∧ m₁ = s.machine) ∧
    b.Yields (update s.lets k (some (.i64 u))) s.locals m₁ v m₂ ∧
    m₂.arenaLen = s.machine.arenaLen

/-! ### The loop -/

section
variable {k : Nat} {n top i len : BitVec 32} {u : BitVec 64} {s : State}

/-- The let slots of a range's loop. -/
structure RangeLets (k : Nat) (n top i : BitVec 32) (v : BitVec 64) (lets : Nat → Option Word) :
    Prop where
  count : lets (k + 2) = some (.i32 n)
  base : lets (k + 3) = some (.i32 top)
  payload : lets (k + 4) = some (.i32 (payloadOf top))
  index : lets (k + 5) = some (.i32 i)
  elem : lets (k + 6) = some (.i64 v)

theorem next_index {i n : BitVec 32} (bound : i = 0 ∨ i.toNat ≤ n.toNat ∧ n.toNat < 2 ^ 31)
    (below : i.slt n) : (i + 1).toNat = i.toNat + 1 ∧ i.toNat + 1 ≤ n.toNat ∧ n.toNat < 2 ^ 31 := by
  rw [slt_iff_toInt_lt, toInt_eq_toNat_cond, toInt_eq_toNat_cond] at below
  have bound : i.toNat = 0 ∨ i.toNat ≤ n.toNat ∧ n.toNat < 2 ^ 31 :=
    bound.imp_left fun zero => by rw [zero]; rfl
  have one : (1 : BitVec 32).toNat = 1 := rfl
  rw [toNat_add]
  omega

/-- The loop has stored `i` elements behind the count. -/
structure Filling (k : Nat) (n top len : BitVec 32) (u : BitVec 64) (s : State) (i : BitVec 32) :
    Prop where
  slots : RangeLets k n top i (u + i.setWidth 64) s.lets
  bound : i = 0 ∨ i.toNat ≤ n.toNat ∧ n.toNat < 2 ^ 31
  arenaLen : s.machine.arenaLen = len
  count : s.machine.stringLen top.toNat = n.toNat
  inside : ∀ j < i.toNat, (payloadOf top).toNat + 8 * j + 8 ≤ len.toNat
  element : ∀ j < i.toNat, word64 s.machine ((payloadOf top).toNat + 8 * j) = u + BitVec.ofNat 64 j

/-- Where a header is inside the arena, the elements do not start past the last word of the
offset space. -/
theorem toNat_payloadOf_le (room : len.toNat + 16 ≤ 2 ^ 32) (header : top + 4 ≤ len) :
    (payloadOf top).toNat + 16 ≤ 2 ^ 32 ∧
      (top.toNat + 4 ≤ (payloadOf top).toNat ∨ len.toNat < top.toNat) := by
  have header : (top.toNat + 4) % 2 ^ 32 ≤ len.toNat := by
    simpa [le_def, toNat_add] using header
  rw [toNat_payloadOf]
  omega

theorem toNat_elementOffset (room : len.toNat + 16 ≤ 2 ^ 32) (header : top + 4 ≤ len)
    (before : ∀ j < i.toNat, (payloadOf top).toNat + 8 * j + 8 ≤ len.toNat)
    (checked : payloadOf top + i * 8 + 8 ≤ len) :
    (payloadOf top + i * 8).toNat = (payloadOf top).toNat + 8 * i.toNat ∧
      (payloadOf top).toNat + 8 * i.toNat + 8 ≤ len.toNat := by
  have start := (toNat_payloadOf_le room header).1
  have below : (payloadOf top).toNat + 8 * i.toNat + 16 ≤ 2 ^ 32 := by
    rcases Nat.eq_zero_or_pos i.toNat with zero | some
    · omega
    · have := before (i.toNat - 1) (by omega)
      omega
  have offset : (payloadOf top + i * 8).toNat = (payloadOf top).toNat + 8 * i.toNat := by
    rw [toNat_add, toNat_mul, show (8 : BitVec 32).toNat = 8 from rfl]
    omega
  refine ⟨offset, ?_⟩
  rw [le_def, toNat_add, offset, show (8 : BitVec 32).toNat = 8 from rfl] at checked
  omega

variable {st : List Word} {Q : Exit TrapKind → State → Prop}

/-- Storing the next element. -/
theorem Filling.store (filling : Filling k n top len u s i) (room : len.toNat + 16 ≤ 2 ^ 32)
    (header : top + 4 ≤ len) (checked : payloadOf top + i * 8 + 8 ≤ len)
    (next : (i + 1).toNat = i.toNat + 1) (bound : (i + 1).toNat ≤ n.toNat ∧ n.toNat < 2 ^ 31)
    {lets' : Nat → Option Word} (slots : RangeLets k n top (i + 1) (u + i.setWidth 64 + 1) lets')
    {as : List Access} : Filling k n top len u ⟨st, lets', s.locals, logged s.machine
      (s.machine.mem.write (s.machine.arenaBase + (payloadOf top + i * 8).setWidth 64)
        (leBytes 8 (u + i.setWidth 64).toNat)) as⟩ (i + 1) := by
  obtain ⟨offset, fits⟩ := toNat_elementOffset room header filling.inside checked
  have apart := (toNat_payloadOf_le room header).2
  rw [← ofNat_toNat, offset]
  refine ⟨?_, .inr bound, filling.arenaLen, ?_, fun j below => ?_, fun j below => ?_⟩
  · have succ : (i + 1).setWidth 64 = i.setWidth 64 + 1 := by
      apply eq_of_toNat_eq
      have := i.isLt
      rw [toNat_setWidth, next, toNat_add, toNat_setWidth,
        show (1 : BitVec 64).toNat = 1 from rfl]
      omega
    rw [succ, ← BitVec.add_assoc]
    exact slots
  · rw [stringLen_write_apart top.isLt (by rw [length_leBytes]; omega)
      (by rw [length_leBytes]; omega)]
    exact filling.count
  · rcases Nat.lt_succ_iff_lt_or_eq.mp (next ▸ below) with earlier | rfl
    · exact filling.inside j earlier
    · exact fits
  · rcases Nat.lt_succ_iff_lt_or_eq.mp (next ▸ below) with earlier | rfl
    · have := filling.inside j earlier
      rw [word64_write_apart (by omega) (by rw [length_leBytes]; omega) (by omega)]
      exact filling.element j earlier
    · rw [word64_write_same (by omega) rfl, ofNat_toNat]

/-- One round of the loop, or its end. -/
theorem ends_rangeRound (filling : Filling k n top len u s i) (room : len.toNat + 16 ≤ 2 ^ 32)
    (header : top + 4 ≤ len) (traps : ∀ kind s', Q (.trap kind) s')
    (again : ∀ s', Filling k n top len u s' (i + 1) → (i + 1).toNat = i.toNat + 1 →
      i.toNat < n.toNat → Q (.branch 0) s') (ends : n.sle i → Q (.branch 1) s) :
    lang.Ends (ops [.letGet (k + 5) .i32, .letGet (k + 2) .i32, .cmp .ge .i32] ++ [.brIf 1] ++
      ops ([] ++ [.letGet (k + 4) .i32, .letGet (k + 5) .i32, .constI32 8, .mul .i32, .add .i32,
        .letGet (k + 6) .i64, .storeI64AtAbsolute 0,
        .letGet (k + 5) .i32, .constI32 1, .add .i32, .letSet (k + 5) .i32,
        .letGet (k + 6) .i64, .constI64 1, .add .i64, .letSet (k + 6) .i64]) ++ [.br 0]) s Q := by
  obtain ⟨stack, lets, locals, m⟩ := s
  have slots : RangeLets k n top i (u + i.setWidth 64) lets := filling.slots
  simp only [ops_cons, ops_nil, List.cons_append, List.nil_append]
  rw [ends_letGet slots.index rfl, ends_letGet slots.count rfl, ends_cmp_i32]
  refine brIf (fun done => ends done) fun goesOn => ?_
  have below : i.slt n := by
    rw [Cmp.holds, sle_eq_not_slt] at goesOn
    simpa using goesOn
  obtain ⟨next, bound⟩ := next_index filling.bound below
  rw [ends_letGet slots.payload rfl, ends_letGet slots.index rfl, ends_constI32, ends_mul_i32,
    ends_add_i32, ends_letGet slots.elem rfl]
  refine store stack rfl (fun checked => ?_) fun kind => traps kind _
  rw [filling.arenaLen] at checked
  rw [ends_letGet slots.index rfl, ends_constI32, ends_add_i32, ends_letSet rfl,
    ends_letGet (by rw [update_of_ne (by omega)]; exact slots.elem) rfl, ends_constI64]
  refine binary (fun _ => rfl) (fun v sum => ?_) fun _ => traps _ _
  obtain rfl : u + i.setWidth 64 + 1 = v := by
    split at sum
    · cases sum
    · exact Option.some.inj sum
  rw [ends_letSet rfl]
  refine br (again _ (filling.store room header checked next (by omega) ?_) next bound.1)
  constructor <;> simp [slots.count, slots.base, slots.payload]

/-- The index in its slot. -/
def rangeIndex (k : Nat) (s : State) : Nat :=
  match s.lets (k + 5) with
  | some (.i32 i) => i.toNat
  | _ => 0

theorem Filling.rangeIndex_eq {s : State} (filling : Filling k n top len u s i) :
    rangeIndex k s = i.toNat := by
  simp only [rangeIndex, filling.slots.index]

/-- The loop ends, with as many elements as it counts up to. -/
theorem ends_rangeFill {lets : Nat → Option Word} {locals : List Word} {m : Machine}
    (filling : Filling k n top len u ⟨st, lets, locals, m⟩ 0) (room : len.toNat + 16 ≤ 2 ^ 32)
    (header : top + 4 ≤ len) (traps : ∀ kind s', Q (.trap kind) s')
    (ends : ∀ s' i, Filling k n top len u s' i → i = 0 ∧ 2 ^ 31 ≤ n.toNat ∨ i = n →
      Q .next { s' with stack := .i32 top :: st }) :
    lang.Ends (rangeFill k [] (.letGet (k + 6) .i64)) ⟨st, lets, locals, m⟩ Q := by
  refine block (loop (fun s => ∃ i, Filling k n top len u s i)
    (fun s => n.toNat - rangeIndex k s) ⟨0, filling⟩ ?_)
  rintro s ⟨i, filling⟩
  refine ends_rangeRound filling room header (fun kind s' => traps kind s')
    (fun s' stored next below => ?_) fun done => ?_
  · have here : Filling k n top len u (lang.leave s s') (i + 1) :=
      ⟨stored.slots, stored.bound, stored.arenaLen, stored.count, stored.inside, stored.element⟩
    refine ⟨⟨i + 1, here⟩, ?_⟩
    rw [here.rangeIndex_eq, filling.rangeIndex_eq, next]
    omega
  · refine (ends_letGet filling.slots.base rfl).mpr (nil (ends _ i filling ?_))
    have signed := done
    rw [sle_iff_toInt_le, toInt_eq_toNat_cond, toInt_eq_toNat_cond] at signed
    rcases filling.bound with rfl | within
    · by_cases low : n.toNat < 2 ^ 31
      · refine .inr (eq_of_toNat_eq ?_)
        rw [show (0 : BitVec 32).toNat = 0 from rfl] at signed ⊢
        omega
      · exact .inl ⟨rfl, by omega⟩
    · exact .inr (eq_of_toNat_eq (by omega))

end

/-! ### The whole stream -/

section
variable {st : List Word} {lets : Nat → Option Word} {locals : List Word} {m : Machine}
  {d : Stream} {Q : Exit TrapKind → State → Prop} {k : Nat}

/-- The code of a bound leaves its integer in the arena's machine. -/
theorem Ends.yields {e : Element} {v : BitVec 64} {m' : Machine} (yields : e.Yields lets locals m v m')
    (behind : lang.Ends d ⟨.i64 v :: st, lets, locals, m'⟩ Q) :
    lang.Ends (.prim (.element e) :: d) ⟨st, lets, locals, m⟩ Q := by
  obtain ⟨m₁, evaluated, rfl⟩ := yields
  refine prim ?_ behind
  simp only [lang, Op.step, evaluated]

/-- The count of a range's elements, cut to 32 bits. -/
def cutCount (u v : BitVec 64) : BitVec 32 := BitVec.ofNat 32 (v.toInt - u.toInt).toNat

theorem setWidth_span {u v : BitVec 64} (noOverflow : ¬ BitVec.ssubOverflow v u) :
    (if Cmp.holds (v - u) 0 .gt then v - u else 0).setWidth 32 = cutCount u v := by
  have span := toInt_sub_of_not_ssubOverflow noOverflow
  have positive : Cmp.holds (v - u) 0 .gt = true ↔ 0 < v.toInt - u.toInt := by
    rw [Cmp.holds, slt_iff_toInt_lt, span]
    rfl
  apply eq_of_toNat_eq
  by_cases some : 0 < v.toInt - u.toInt
  · rw [if_pos (positive.mpr some), cutCount, toNat_setWidth, toNat_ofNat]
    have := toInt_eq_toNat_cond (v - u)
    have := (v - u).isLt
    rw [span] at *
    congr 1
    omega
  · rw [if_neg fun holds => some (positive.mp holds), cutCount,
      Int.toNat_of_nonpos (by omega)]
    rfl

theorem ends_rangeCount {a : Option Element} {b : Element} {u v : BitVec 64}
    (bounds : Bounds k a b ⟨st, lets, locals, m⟩ u v)
    (traps : ∀ kind s', Q (.trap kind) s')
    (behind : ∀ m' lets', m'.arenaLen = m.arenaLen → lets' (k + 2) = some (.i32 (cutCount u v)) →
      lets' k = some (.i64 u) → lang.Ends d ⟨st, lets', locals, m'⟩ Q) :
    lang.Ends (rangeCount k a b ++ d) ⟨st, lets, locals, m⟩ Q := by
  simp only [rangeCount, ops_cons, ops_nil, List.cons_append, List.nil_append]
  obtain ⟨m₁, m₂, first, second, sameLen⟩ := bounds
  have start : ∀ {d'}, lang.Ends d' ⟨.i64 u :: st, lets, locals, m₁⟩ Q →
      lang.Ends (.prim (rangeStart a) :: d') ⟨st, lets, locals, m⟩ Q := fun next => by
    cases a with
    | none =>
      obtain ⟨rfl, rfl⟩ := first
      exact ends_constI64.mpr next
    | some e => exact yields first next
  refine start ?_
  rw [ends_letSet rfl]
  refine yields second ?_
  rw [ends_letGet (update_self ..) rfl]
  refine binary (fun _ => rfl) (fun span checked => ?_) fun _ => traps _ _
  split at checked
  · cases checked
  · rename_i noOverflow
    cases checked
    rw [ends_letSet rfl, ends_letGet (update_self ..) rfl, ends_constI64, ends_cmp_i64]
    have count : ∀ c, c.setWidth 32 = cutCount u v →
        lang.Ends (.prim (.letSet (k + 2) .i32) :: d) ⟨.i64 c :: st, update
          (update lets k (some (.i64 u))) (k + 1) (some (.i64 (v - u))), locals, m₂⟩ Q := by
      intro c cut
      rw [ends_letSet rfl, cut]
      refine behind m₂ _ sameLen (update_self ..) ?_
      rw [update_of_ne (by omega), update_of_ne (by omega), update_self]
    have cut := setWidth_span noOverflow
    refine ite (fun taken => ?_) fun skipped => ?_
    · rw [ends_letGet (update_self ..) rfl]
      exact nil (count _ (by rw [taken] at cut; exact cut))
    · rw [ends_constI64]
      exact nil (count _ (by rw [skipped] at cut; exact cut))

/-- The block is allocated and has its count; no element is stored. -/
theorem ends_rangeOpen {n : BitVec 32} {u : BitVec 64} (count : lets (k + 2) = some (.i32 n))
    (start : lets k = some (.i64 u)) (traps : ∀ kind s', Q (.trap kind) s')
    (behind : ∀ s' top, s'.stack = st → top + 4 ≤ m.arenaLen →
      Filling k n top m.arenaLen u s' 0 → lang.Ends d s' Q) :
    lang.Ends (ops (rangeOpen k) ++ d) ⟨st, lets, locals, m⟩ Q := by
  simp only [rangeOpen, alignedPayload, letGetPlusConst, ops_cons, ops_nil,
    List.cons_append, List.nil_append, show ((4 : BitVec 32) + 7 = 0) = False by decide, if_false]
  rw [ends_constI32, ends_letGet count rfl, ends_constI32, ends_mul_i32, ends_add_i32]
  refine allocScratchDyn ?_ fun kind => traps kind _
  generalize m.scratchBase + m.scratchCursor = top
  rw [ends_letSet rfl, ends_letGet (update_self ..) rfl,
    ends_letGet (by rw [update_of_ne (by omega)]; exact count) rfl]
  refine store st rfl (fun header => ?_) fun kind => traps kind _
  rw [ends_letGet (update_self ..) rfl, ends_constI32, ends_add_i32, ends_constI32,
    ends_bitAnd_i32, ends_letSet rfl, ends_constI32, ends_letSet rfl]
  have kept : update (update (update lets (k + 3) (some (.i32 top)))
      (k + 4) (some (.i32 (payloadOf top)))) (k + 5) (some (.i32 0)) k = some (.i64 u) := by
    simp [start]
  refine (ends_letGet kept rfl).mpr ((ends_letSet rfl).mpr ?_)
  refine behind _ top rfl header ⟨?_, .inl rfl, rfl, stringLen_write_same, ?_, ?_⟩
  · constructor <;> simp [count]
  · intro j below
    cases below
  · intro j below
    cases below

/-- The count that was stored is the length of the range, and every element is, exactly when the
range has fewer than 2^31 elements. -/
theorem Filling.holdsInts_iff {n top len : BitVec 32} {u v : BitVec 64} {s : State} {i : BitVec 32}
    (filling : Filling k n top len u s i) (cut : n = cutCount u v)
    (all : i = 0 ∧ 2 ^ 31 ≤ n.toNat ∨ i = n) :
    HoldsInts s.machine top (rangeInts u.toInt v.toInt) ↔ v.toInt - u.toInt < 2 ^ 31 := by
  have length : ((rangeInts u.toInt v.toInt).map (BitVec.ofInt 64)).length =
      (v.toInt - u.toInt).toNat := by rw [List.length_map, length_rangeInts]
  constructor
  · rintro ⟨-, inside, -⟩
    by_contra large
    have := inside (2 ^ 31 - 1) (by rw [length]; omega)
    rw [filling.arenaLen] at this
    omega
  · intro small
    have counted : n.toNat = (v.toInt - u.toInt).toNat := by
      rw [cut, cutCount, toNat_ofNat]
      omega
    obtain rfl : i = n := by
      rcases all with ⟨-, large⟩ | same
      · omega
      · exact same
    refine ⟨?_, fun j below => ?_, fun j below => ?_⟩
    · rw [filling.count, length, counted]
    · rw [filling.arenaLen]
      exact filling.inside j (by omega)
    · rw [filling.element j (by omega)]
      simp only [rangeInts, List.getElem_map, List.getElem_range, ofInt_add,
        ofInt_toInt, ofInt_natCast]

/-- The code of a range ends. Unless it traps, the record it leaves is the range exactly when
this has fewer than 2^31 elements. -/
theorem materialized_range_iff {a : Option Element} {b : Element} {u v : BitVec 64} {s : State}
    (bounds : Bounds k a b s u v) (room : s.machine.arenaLen.toNat + 16 ≤ 2 ^ 32) :
    lang.Ends (emitRangeMaterialize k a b) s fun x s' =>
      (∃ kind, x = .trap kind) ∨ (x = .next ∧ ∃ base, s'.stack = .i32 base :: s.stack ∧
        (HoldsInts s'.machine base (rangeInts u.toInt v.toInt) ↔ v.toInt - u.toInt < 2 ^ 31)) := by
  obtain ⟨stack, lets, locals, m⟩ := s
  rw [emitRangeMaterialize, List.append_assoc]
  refine ends_rangeCount bounds (fun kind _ => .inl ⟨kind, rfl⟩) fun m₁ lets₁ len₁ count start => ?_
  refine ends_rangeOpen count start (fun kind _ => .inl ⟨kind, rfl⟩)
    fun s₂ top sameStack header filling => ?_
  rw [len₁] at header filling
  refine ends_rangeFill filling room header (fun kind _ => .inl ⟨kind, rfl⟩)
    fun s₃ i filled all => .inr ⟨rfl, top, ?_, filled.holdsInts_iff rfl all⟩
  rw [sameStack]

namespace Builder

/-- The code of an integer constant. -/
def constant (v : BitVec 64) : Element where
  effect _ _ m := some (.ok (.i64 v, m))
  arenaBase_eq h := by
    cases h
    rfl

/-- An arena whose scratch region starts at 128, with `used` bytes of it taken. -/
def sampleScratch (used : BitVec 32) : Machine where
  arenaBase := 0x10000
  arenaLen := 256
  scratchBase := 128
  scratchCursor := used
  tailCursor := 0
  inPtr := 0
  outPtr := 0
  mem := fun _ => 0
  accesses := []
  blocks := []

end Builder

theorem constant_yields (v : BitVec 64) (lets : Nat → Option Word) (locals : List Word) (m : Machine) :
    (Builder.constant v).Yields lets locals m v m :=
  ⟨m, rfl, rfl⟩

/-- Three elements are laid out as they should be. -/
theorem short_range_materialized :
    lang.Ends (emitRangeMaterialize 0 (some (Builder.constant 5)) (Builder.constant 8))
      ⟨[], fun _ => none, [], Builder.sampleScratch 0⟩ fun x s' =>
      (∃ kind, x = .trap kind) ∨ (x = .next ∧ ∃ base, s'.stack = [.i32 base] ∧
        (HoldsInts s'.machine base (rangeInts 5 8) ↔ (8 : Int) - 5 < 2 ^ 31)) :=
  materialized_range_iff (u := 5) (v := 8)
    ⟨_, _, constant_yields 5 .., constant_yields 8 .., rfl⟩ (by decide)

theorem long_range_evaluates :
    (lang.run 80 (emitRangeMaterialize 0 none (Builder.constant (2 ^ 32 + 1)))
      ⟨[], fun _ => none, [], Builder.sampleScratch 0⟩).map (fun (x, s') =>
        (match x with | .next => true | _ => false, s'.stack, s'.machine.stringLen 128,
          s'.machine.arenaLen, word64 s'.machine 136)) =
      some (true, [.i32 128], 1, 256, 0) := by decide +kernel

/-- The range of 2^32 + 1 elements leaves the list that holds only zero. -/
theorem long_range_cut :
    ∃ s', lang.Finishes (emitRangeMaterialize 0 none (Builder.constant (2 ^ 32 + 1)))
        ⟨[], fun _ => none, [], Builder.sampleScratch 0⟩ .next s' ∧
      s'.stack = [.i32 128] ∧ HoldsInts s'.machine 128 [0] ∧
      ¬ HoldsInts s'.machine 128 (rangeInts 0 (2 ^ 32 + 1)) := by
  obtain ⟨⟨x, s'⟩, ran, seen⟩ := Option.map_eq_some_iff.mp long_range_evaluates
  obtain ⟨ended, stack, count, len, element⟩ : _ ∧ s'.stack = [.i32 128] ∧
      s'.machine.stringLen 128 = 1 ∧ s'.machine.arenaLen = 256 ∧ word64 s'.machine 136 = 0 := by
    simpa only [Prod.mk.injEq] using seen
  obtain rfl : x = .next := by cases x <;> simp_all
  refine ⟨s', ⟨80, ran⟩, stack, ⟨count, fun j below => ?_, fun j below => ?_⟩, fun holds => ?_⟩
  · obtain rfl : j = 0 := by simpa using below
    rw [len]
    decide
  · obtain rfl : j = 0 := by simpa using below
    exact element
  · have whole := holds.count
    rw [show (128 : BitVec 32).toNat = 128 from rfl, count, List.length_map, length_rangeInts] at whole
    omega

end

end Relon.Ir
