import Relon.Ir.Replacing

/-! Compiled `split` (`relon-ir/src/stdlib/string_ops.rs`).

A first pass counts the separators, which fixes the size of the pointer array; the second
cuts a segment at each of them. Segments are allocated one after the other behind the
array, so the records written so far lie between the array and the scratch cursor, and a
new one touches none of them. -/
namespace Relon.Ir

open Codegen Control Bytes Splice List Run Machine
open Unicode (utf8 utf8_append utf8_cons utf8_eq_nil)

namespace Split

open Replace (matchFromAtI around scratch Outer flag run_match no_match_in_code
  le_of_prefix_drop)

def sLen : Nat := 0
def fLen : Nat := 1
def n : Nat := 2
def newBase : Nat := 3
def slot : Nat := 4
def segStart : Nat := 5
def i : Nat := 6
def match_ : Nat := 7
def j : Nat := 8
def sink : Nat := 9
def sb : Nat := 10
def byte : Nat := 11

/-- `emit_segment_record`. -/
def emitSegmentRecord (segStart segEnd slot len rec sink : Nat) : Stream :=
  ops [.letGet segEnd .i32, .letGet segStart .i32, .sub .i32, .letSet len .i32,
    .constI32 4, .letGet len .i32, .add .i32, .allocScratchDyn, .letSet rec .i32,
    .letGet rec .i32, .letGet len .i32, .storeI32AtAbsolute 0,
    .letGet rec .i32, .constI32 4, .add .i32, .localGet 0, .constI32 4, .add .i32,
    .letGet segStart .i32, .add .i32, .letGet len .i32, .memcpyAtAbsolute,
    .letGet slot .i32, .letGet rec .i32, .storeI32AtAbsolute 0,
    .letGet slot .i32, .constI32 4, .add .i32, .letSet slot .i32,
    .letGet sink .i32, .letSet sink .i32]

/-- The first pass. -/
def counting : Stream :=
  ops [.localGet 0, .loadI32AtAbsolute 0, .letSet sLen .i32,
    .localGet 1, .loadI32AtAbsolute 0, .letSet fLen .i32,
    .constI32 1, .letSet n .i32, .constI32 0, .letSet i .i32] ++
  [.block [.loop (
    ops [.letGet i .i32, .letGet sLen .i32, .cmp .ge .i32] ++ [.brIf 1] ++
    matchFromAtI sLen fLen i match_ j sink sb byte ++
    ops [.letGet match_ .i32] ++
    [.ite (ops [.letGet n .i32, .constI32 1, .add .i32, .letSet n .i32,
        .letGet i .i32, .letGet fLen .i32, .add .i32, .letSet i .i32, .constI32 0])
      (ops [.letGet i .i32, .constI32 1, .add .i32, .letSet i .i32, .constI32 0])] ++
    ops [.letSet sink .i32] ++ [.br 0])]]

/-- The pointer array. -/
def header : Stream :=
  ops [.constI32 8, .letGet n .i32, .constI32 4, .mul .i32, .add .i32, .allocScratchDyn,
    .constI32 3, .add .i32, .constI32 (-4), .bitAnd .i32, .letSet newBase .i32,
    .letGet newBase .i32, .letGet n .i32, .storeI32AtAbsolute 0,
    .letGet newBase .i32, .constI32 4, .add .i32, .letSet slot .i32,
    .constI32 0, .letSet segStart .i32, .constI32 0, .letSet i .i32]

/-- The second pass. -/
def cutting : Stream :=
  [.block [.loop (
    ops [.letGet i .i32, .letGet sLen .i32, .cmp .ge .i32] ++ [.brIf 1] ++
    matchFromAtI sLen fLen i match_ j sink sb byte ++
    ops [.letGet match_ .i32] ++
    [.ite (emitSegmentRecord segStart i slot sb j sink ++
        ops [.letGet i .i32, .letGet fLen .i32, .add .i32, .letSet segStart .i32,
          .letGet i .i32, .letGet fLen .i32, .add .i32, .letSet i .i32, .constI32 0])
      (ops [.letGet i .i32, .constI32 1, .add .i32, .letSet i .i32, .constI32 0])] ++
    ops [.letSet sink .i32] ++ [.br 0])]]

/-- `split_string_body`. -/
def body : Stream :=
  counting ++ header ++ cutting ++ emitSegmentRecord segStart sLen slot sb j sink ++
  ops [.letGet newBase .i32] ++ [.ret]

/-! ### Pieces -/

/-- Cutting the bytes cuts the code points. -/
theorem utf8_cut {sep : List Char} (some_ : sep ≠ []) (s : List Char) :
    cut (utf8 sep) (utf8 s) = (utf8 (cut sep s).1, (cut sep s).2.map utf8) := by
  have someBytes : utf8 sep ≠ [] := fun none => some_ (utf8_eq_nil none)
  generalize size : s.length = len
  induction len using Nat.strongRecOn generalizing s with
  | ind len ih =>
    by_cases starts : sep <+: s
    · obtain ⟨rest, rfl⟩ := starts
      have shorter : rest.length < len := by
        have := length_pos_iff.mpr some_
        rw [← size, length_append]
        omega
      rw [utf8_append, cut_match some_, cut_match someBytes, pieces, pieces, ih _ shorter rest rfl]
      rfl
    · cases s with
      | nil => rfl
      | cons c rest =>
        rw [cut_other starts, utf8_cons, cut_append (no_match_in_code some_ starts),
          ih rest.length (by rw [← size]; simp) rest rfl, utf8_cons]

theorem utf8_pieces {sep : List Char} (some_ : sep ≠ []) (s : List Char) :
    pieces (utf8 sep) (utf8 s) = (pieces sep s).map utf8 := by
  rw [pieces, utf8_cut some_, pieces, map_cons]

/-! ### Where the segments are -/

section
variable {m : Machine} {slotAt first : Nat} {done : List (List UInt8)}

/-- The bytes of scratch memory that the records of some segments take. -/
def sizeOf (segments : List (List UInt8)) : Nat := (segments.map fun x => 4 + x.length).sum

theorem sizeOf_concat (x : List UInt8) : sizeOf (done ++ [x]) = sizeOf done + (4 + x.length) := by
  simp [sizeOf]

/-- The slots from `slotAt` on point to the segments' records, which stand one behind the other
from `first` on. -/
def Laid (m : Machine) (slotAt first : Nat) : List (List UInt8) → Prop
  | [] => True
  | x :: rest =>
    m.stringLen slotAt = first ∧ HoldsBytes m first x ∧
      Laid m (slotAt + 4) (first + (4 + x.length)) rest

/-- One more segment at the end. -/
theorem Laid.concat {x : List UInt8} (laid : Laid m slotAt first done)
    (slot : m.stringLen (slotAt + 4 * done.length) = first + sizeOf done)
    (record : HoldsBytes m (first + sizeOf done) x) : Laid m slotAt first (done ++ [x]) := by
  induction done generalizing slotAt first with
  | nil => exact ⟨slot, record, trivial⟩
  | cons y done ih =>
    have size : sizeOf (y :: done) = 4 + y.length + sizeOf done := rfl
    have place : slotAt + 4 * (y :: done).length = slotAt + 4 + 4 * done.length := by
      rw [length_cons]
      omega
    rw [size, ← Nat.add_assoc] at slot record
    rw [place] at slot
    exact ⟨laid.1, laid.2.1, ih laid.2.2 slot record⟩

theorem Laid.congr {m' : Machine} (laid : Laid m slotAt first done)
    (same : ∀ off n, m'.bytes off n = m.bytes off n) (arena : m'.arenaLen = m.arenaLen) :
    Laid m' slotAt first done := by
  induction done generalizing slotAt first with
  | nil => trivial
  | cons y done ih =>
    refine ⟨?_, laid.2.1.congr same arena, ih laid.2.2⟩
    rw [stringLen, same]
    exact laid.1

/-- A write behind the slots or behind the records. -/
theorem Laid.apart {q : Nat} {xs : List UInt8} (laid : Laid m slotAt first done)
    (fits : q + xs.length ≤ m.arenaLen.toNat) (order : slotAt + 4 * done.length ≤ first)
    (clear : slotAt + 4 * done.length ≤ q ∧ q + xs.length ≤ first ∨ first + sizeOf done ≤ q) :
    Laid (wrote m q xs) slotAt first done := by
  induction done generalizing slotAt first with
  | nil => trivial
  | cons y done ih =>
    have size : sizeOf (y :: done) = 4 + y.length + sizeOf done := rfl
    have count : (y :: done).length = done.length + 1 := rfl
    obtain ⟨here, record, rest⟩ := laid
    have inside := record.inside
    refine ⟨?_, record.apart fits (by omega), ih rest (by omega) (by omega)⟩
    rw [stringLen, bytes_wrote_apart (by omega) (by omega) (by omega)]
    exact here

end

/-! ### Emitting a segment -/

theorem sizeOf_prefix {a b : List (List UInt8)} (starts : a <+: b) : sizeOf a ≤ sizeOf b := by
  obtain ⟨rest, rfl⟩ := starts
  simp [sizeOf]

/-- Where things are: the arguments, the pointer array and the segments, in an arena of `limit`
bytes. -/
structure Site where
  p : Nat
  q : Nat
  top : Nat
  H : Nat
  first : Nat
  limit : Nat
  sb : List UInt8
  fb : List UInt8
  all : List (List UInt8)
  low : top ≤ H
  array : H + 4 + 4 * all.length ≤ first
  clearS : p + 4 + sb.length ≤ top ∨ first + sizeOf all ≤ p
  clearF : q + 4 + fb.length ≤ top ∨ first + sizeOf all ≤ q
  fits : first + sizeOf all ≤ limit

/-- These segments are written. -/
structure Written (site : Site) (done : List (List UInt8)) (m : Machine) : Prop where
  arena : m.arenaLen.toNat = site.limit
  s : HoldsBytes m site.p site.sb
  sep : HoldsBytes m site.q site.fb
  count : m.stringLen site.H = site.all.length
  laid : Laid m (site.H + 4) site.first done

/-- And scratch memory is used up to their end. -/
structure Progress (site : Site) (done : List (List UInt8)) (m : Machine) : Prop
    extends Written site done m where
  cursor : m.scratchBase.toNat + m.scratchCursor.toNat = site.first + sizeOf done

section
variable {site : Site} {done : List (List UInt8)} {m : Machine} {x : List UInt8} {d : Stream}
  {Q : Exit TrapKind → State → Prop} {k g : Nat}

theorem Written.congr {m' : Machine} (written : Written site done m)
    (same : ∀ off n, m'.bytes off n = m.bytes off n) (arena : m'.arenaLen = m.arenaLen) :
    Written site done m' := by
  refine ⟨by rw [arena]; exact written.arena, written.s.congr same arena,
    written.sep.congr same arena, ?_, written.laid.congr same arena⟩
  rw [stringLen, same]
  exact written.count

/-- A write to scratch memory that is not in use yet, or to the next slot. -/
theorem Written.write {q : Nat} {xs : List UInt8} (written : Written site done m)
    (clear : site.H + 4 + 4 * done.length ≤ q ∧ q + xs.length ≤ site.first ∨
      site.first + sizeOf done ≤ q) (inside : q + xs.length ≤ site.first + sizeOf site.all)
    (order : done.length ≤ site.all.length) : Written site done (wrote m q xs) := by
  obtain ⟨arena, s, sep, count, laid⟩ := written
  have low := site.low
  have array := site.array
  have clearS := site.clearS
  have clearF := site.clearF
  have fits := site.fits
  have target : q + xs.length ≤ m.arenaLen.toNat := by omega
  refine ⟨arena, s.apart target (by omega), sep.apart target (by omega), ?_,
    laid.apart target (by omega) clear⟩
  rw [stringLen, bytes_wrote_apart (by omega) (by omega) (by omega)]
  exact count

/-- The machine after a segment: its record, and the offset in the next slot. -/
def emitted (site : Site) (done : List (List UInt8)) (x : List UInt8) (m : Machine) : Machine :=
  wrote (wrote (wrote { m with scratchCursor := m.scratchCursor + BitVec.ofNat 32 (4 + x.length) }
    (site.first + sizeOf done) (leBytes 4 x.length)) (site.first + sizeOf done + 4) x)
    (site.H + 4 + 4 * done.length) (leBytes 4 (site.first + sizeOf done))

theorem Progress.emit (progress : Progress site done m) (more : done ++ [x] <+: site.all) :
    Progress site (done ++ [x]) (emitted site done x m) := by
  have room := sizeOf_prefix more
  have slots := more.length_le
  have array := site.array
  have fits := site.fits
  have low := site.low
  have arena := progress.arena
  have cursor := progress.cursor
  rw [sizeOf_concat] at room
  rw [length_append, length_singleton] at slots
  have four := length_leBytes 4 x.length
  have four' := length_leBytes 4 (site.first + sizeOf done)
  have allocated : Written site done
      { m with scratchCursor := m.scratchCursor + BitVec.ofNat 32 (4 + x.length) } :=
    progress.toWritten.congr (fun _ _ => rfl) rfl
  have header : Written site done (wrote
      { m with scratchCursor := m.scratchCursor + BitVec.ofNat 32 (4 + x.length) }
      (site.first + sizeOf done) (leBytes 4 x.length)) :=
    allocated.write (.inr le_rfl) (by omega) (by omega)
  have stored : Written site done (wrote (wrote
      { m with scratchCursor := m.scratchCursor + BitVec.ofNat 32 (4 + x.length) }
      (site.first + sizeOf done) (leBytes 4 x.length)) (site.first + sizeOf done + 4) x) :=
    header.write (.inr (by omega)) (by omega) (by omega)
  have final : Written site done (emitted site done x m) :=
    stored.write (.inl ⟨le_rfl, by omega⟩) (by omega) (by omega)
  have record : HoldsBytes (emitted site done x m) (site.first + sizeOf done) x := by
    have fits : site.first + sizeOf done + 4 + x.length ≤ m.arenaLen.toNat := by omega
    refine HoldsBytes.apart (HoldsBytes.of_wrote fits) ?_ (.inr (by omega))
    change _ ≤ m.arenaLen.toNat
    omega
  have slot : (emitted site done x m).bytes (site.H + 4 + 4 * done.length)
      (leBytes 4 (site.first + sizeOf done)).length = leBytes 4 (site.first + sizeOf done) :=
    bytes_wrote_same (by omega)
  rw [four'] at slot
  refine ⟨⟨final.arena, final.s, final.sep, final.count, final.laid.concat ?_ record⟩, ?_⟩
  · rw [stringLen, slot]
    exact leNat_leBytes (by omega)
  · change m.scratchBase.toNat + (m.scratchCursor + BitVec.ofNat 32 (4 + x.length)).toNat = _
    rw [sizeOf_concat, BitVec.toNat_add, BitVec.toNat_ofNat, Nat.mod_eq_of_lt (by omega),
      Nat.mod_eq_of_lt (by omega)]
    omega

theorem run_emit {segEnd : Nat} (place : segEnd = 6 ∨ segEnd = 0) (progress : Progress site done m)
    (lo : g ≤ k) (hi : k ≤ site.sb.length) (piece : (site.sb.drop g).take (k - g) = x)
    (more : done ++ [x] <+: site.all) (l : Slots)
    (behind : Run [site.p, site.q] (emitted site done x m) Q d []
      ((sink, 0) :: (slot, site.H + 4 + 4 * done.length + 4) :: (j, site.first + sizeOf done) ::
        (sb, x.length) :: (segEnd, k) :: (segStart, g) :: (slot, site.H + 4 + 4 * done.length) ::
        (sink, 0) :: l)) :
    Run [site.p, site.q] m Q (emitSegmentRecord segStart segEnd slot sb j sink ++ d) []
      ((segEnd, k) :: (segStart, g) :: (slot, site.H + 4 + 4 * done.length) :: (sink, 0) :: l) := by
  have inside := progress.s.inside
  have room := sizeOf_prefix more
  have slots := more.length_le
  have array := site.array
  have fits := site.fits
  have arena := progress.arena
  rw [sizeOf_concat] at room
  rw [length_append, length_singleton] at slots
  have length : x.length = k - g := by
    rw [← piece, length_take, length_drop]
    omega
  have low := site.low
  have clearS := site.clearS
  have four := length_leBytes 4 x.length
  have header : site.first + sizeOf done + 4 ≤ m.arenaLen.toNat := by omega
  have target : site.first + sizeOf done + 4 + x.length ≤ m.arenaLen.toNat := by omega
  have source : site.p + 4 + g + x.length ≤ m.arenaLen.toNat := by omega
  have next : site.H + 4 + 4 * done.length + 4 ≤ m.arenaLen.toNat := by omega
  have copied : (wrote
      { m with scratchCursor := m.scratchCursor + BitVec.ofNat 32 (4 + x.length) }
      (site.first + sizeOf done) (leBytes 4 x.length)).bytes (site.p + 4 + g) x.length = x := by
    rw [bytes_wrote_apart (by omega) (by omega) (by omega)]
    refine (progress.s.slice (by omega)).trans ?_
    rw [length, piece]
  obtain rfl | rfl := place
  all_goals
    refine steps_append [g, k] _ rfl (sub ?_)
    rw [← length]
    refine steps_append [4 + x.length] _ rfl (alloc progress.cursor (by omega) ?_)
    refine steps_append [x.length, site.first + sizeOf done] _ rfl (storeI32 ?_ header)
    refine steps_append [x.length, site.p + 4 + g, site.first + sizeOf done + 4] _ rfl
      (memcpy ?_ target source)
    rw [copied]
    refine steps_append [site.first + sizeOf done, site.H + 4 + 4 * done.length] _ rfl
      (storeI32 ?_ next)
    exact steps_append [] _ rfl behind

/-! ### The passes -/

variable {p q top : Nat} {bs fb : List UInt8}

theorem cut_drop_match (some_ : fb ≠ []) (starts : fb <+: bs.drop k) :
    cut fb (bs.drop k) = ([], pieces fb (bs.drop (k + fb.length))) := by
  obtain ⟨rest, split⟩ := starts
  have behind : bs.drop (k + fb.length) = rest := by
    rw [← drop_drop, ← split, drop_left]
  rw [behind, ← split, cut_match some_]

theorem cut_drop_other (within : k < bs.length) (other : ¬ fb <+: bs.drop k) : cut fb (bs.drop k) =
      (bs[k] :: (cut fb (bs.drop (k + 1))).1, (cut fb (bs.drop (k + 1))).2) := by
  rw [drop_eq_getElem_cons within] at other ⊢
  exact cut_other other

theorem outer_count (c : Nat) : Outer i [(n, c)] :=
  ⟨⟨rfl, trivial⟩, by
    simp [n, i, Replace.sLen, Replace.fLen, Replace.matchFlag, Replace.j, Replace.sink, Replace.sb,
      Replace.byte]⟩

theorem outer_cut (a g H : Nat) : Outer i [(slot, a), (segStart, g), (newBase, H)] :=
  ⟨⟨rfl, rfl, rfl, trivial⟩, by
    simp [slot, segStart, newBase, i, Replace.sLen, Replace.fLen, Replace.matchFlag, Replace.j,
      Replace.sink, Replace.sb, Replace.byte]⟩

theorem run_counting (some_ : fb ≠ []) (holdsS : HoldsBytes m p bs) (holdsF : HoldsBytes m q fb)
    (short : bs.length + fb.length < 2 ^ 31) (behind : Run [p, q] m Q d []
      [(sLen, bs.length), (fLen, fb.length), (n, (pieces fb bs).length), (sink, 0)]) :
    Run [p, q] m Q (counting ++ d) [] [(sink, 0)] := by
  have positive := length_pos_iff.mpr some_
  have insideS := holdsS.inside
  have insideF := holdsF.inside
  simp only [counting, append_assoc]
  refine steps_append [p] _ rfl (loadI32 ?_)
  refine steps [q] _ rfl (loadI32 ?_)
  rw [holdsS.count, holdsF.count]
  refine steps [] _ rfl (forget (blockLoop (fun _ => m)
    (fun x : {x : Nat × Nat // x.1 ≤ bs.length ∧
        x.2 + (cut fb (bs.drop x.1)).2.length = (pieces fb bs).length} =>
      (sink, 0) :: around i bs.length fb.length x.1.1 [(n, x.1.2)])
    (fun x => bs.length - x.1.1) ⟨(0, 1), Nat.zero_le _, Nat.add_comm ..⟩ ?_))
  rintro ⟨⟨k, c⟩, within, sum⟩ Q' again out
  dsimp only at within sum again ⊢
  refine steps [bs.length, k] _ rfl (brIfCmp (fun all s here => ?_) fun more => ?_)
  · have all : bs.length ≤ k := of_decide_eq_true all
    rw [drop_of_length_le all, cut_nil, length_nil, Nat.add_zero] at sum
    rw [← sum] at behind
    refine out m _ s (forget behind) here
  have more : k < bs.length := not_le.mp (of_decide_eq_false more)
  refine forget (run_match (.inr rfl) (outer_count c) holdsS holdsF short within ?_)
  by_cases starts : fb <+: bs.drop k
  · have bound := le_of_prefix_drop starts within
    rw [flag, if_pos starts]
    rw [cut_drop_match some_ starts, pieces, length_cons] at sum
    refine steps [1] _ rfl (ite (fun _ => ?_) (absurd · Nat.one_ne_zero))
    exact steps [0] _ rfl (join (steps [] _ rfl
      (again ⟨(k + fb.length, c + 1), bound, by dsimp only; omega⟩)))
  · rw [flag, if_neg starts]
    rw [cut_drop_other more starts] at sum
    refine steps [0] _ rfl (ite (absurd rfl) fun _ => ?_)
    exact steps [0] _ rfl (join (steps [] _ rfl (again ⟨(k + 1, c), more, sum⟩)))

/-- The piece under way and the byte at the cursor. -/
theorem take_grows (lo : g ≤ k) (within : k < bs.length) :
    (bs.drop g).take (k - g) ++ [bs[k]] = (bs.drop g).take (k + 1 - g) := by
  have here : k - g < (bs.drop g).length := by
    rw [length_drop]
    omega
  have same : (bs.drop g)[k - g] = bs[k] := by
    rw [getElem_drop]
    congr 1
    omega
  rw [← same, ← take_succ_eq_append_getElem here]
  congr 1
  omega

/-- A round of the second pass. -/
structure Round (site : Site) where
  k : Nat
  g : Nat
  done : List (List UInt8)
  machine : Machine
  lo : g ≤ k
  within : k ≤ site.sb.length
  rest : done ++ ((site.sb.drop g).take (k - g) ++ (cut site.fb (site.sb.drop k)).1) ::
    (cut site.fb (site.sb.drop k)).2 = site.all
  progress : Progress site done machine

theorem run_cutting (some_ : site.fb ≠ []) (whole : site.all = pieces site.fb site.sb)
    (short : site.sb.length + site.fb.length < 2 ^ 31) (progress : Progress site [] m)
    (behind : ∀ m', Progress site site.all m' → Run [site.p, site.q] m' Q d [] [(newBase, site.H)]) :
    Run [site.p, site.q] m Q (cutting ++ (emitSegmentRecord segStart sLen slot sb j sink ++ d)) []
      [(i, 0), (segStart, 0), (slot, site.H + 4), (newBase, site.H), (sLen, site.sb.length),
        (fLen, site.fb.length), (sink, 0)] := by
  have positive := length_pos_iff.mpr some_
  simp only [cutting, ops_cons, ops_nil, cons_append, nil_append, append_assoc]
  refine forget (blockLoop (fun x => x.machine)
    (fun x : Round site => (sink, 0) :: around i site.sb.length site.fb.length x.k
      [(slot, site.H + 4 + 4 * x.done.length), (segStart, x.g), (newBase, site.H)])
    (fun x => site.sb.length - x.k)
    ⟨0, 0, [], m, le_rfl, Nat.zero_le _, whole.symm, progress⟩ ?_)
  rintro ⟨k, g, done, m', lo, within, rest, progress⟩ Q' again out
  dsimp only at again ⊢
  refine steps [site.sb.length, k] _ rfl (brIfCmp (fun all s here => ?_) fun more => ?_)
  · have all : k = site.sb.length := le_antisymm within (of_decide_eq_true all)
    subst all
    rw [drop_length, cut_nil, append_nil] at rest
    have last : done ++ [(site.sb.drop g).take (site.sb.length - g)] <+: site.all := by
      rw [rest]
    have final := progress.emit last
    rw [rest] at final
    refine out m' _ s (forget (run_emit (.inr rfl) progress lo le_rfl rfl last
      [(newBase, site.H)] (forget (behind _ final)))) here
  have more : k < site.sb.length := not_le.mp (of_decide_eq_false more)
  refine forget (run_match (.inr rfl) (outer_cut (site.H + 4 + 4 * done.length) g site.H)
    progress.s progress.sep short within ?_)
  by_cases starts : site.fb <+: site.sb.drop k
  · have bound := le_of_prefix_drop starts within
    rw [flag, if_pos starts]
    rw [cut_drop_match some_ starts, append_nil] at rest
    have next : done ++ [(site.sb.drop g).take (k - g)] <+: site.all :=
      ⟨pieces site.fb (site.sb.drop (k + site.fb.length)), by rw [← rest]; simp⟩
    refine steps [1] _ rfl (ite (fun _ => ?_) (absurd · Nat.one_ne_zero))
    refine forget (run_emit (.inl rfl) progress lo within rfl next
      [(sLen, site.sb.length), (fLen, site.fb.length), (newBase, site.H)]
      (steps [0] _ rfl (join (steps [] _ rfl
        (again ⟨k + site.fb.length, k + site.fb.length, done ++ [(site.sb.drop g).take (k - g)], _,
          le_rfl, bound, ?_, progress.emit next⟩ (by dsimp only; omega) ?_)))))
    · rw [← rest, pieces]
      simp
    · refine ⟨rfl, rfl, rfl, rfl, congrArg some ?_, rfl, rfl, trivial⟩
      rw [length_append, length_singleton]
      omega
  · rw [flag, if_neg starts]
    rw [cut_drop_other more starts] at rest
    refine steps [0] _ rfl (ite (absurd rfl) fun _ => ?_)
    refine steps [0] _ rfl (join (steps [] _ rfl
      (again ⟨k + 1, g, done, m', by omega, more, ?_, progress⟩)))
    rw [← rest, ← take_grows lo more]
    simp

end

/-! ### The body -/

section
variable {m : Machine} {p q top : Nat} {bs fb : List UInt8} {Q : Exit TrapKind → State → Prop}

/-- The array starts at the next multiple of four. -/
theorem and_alignUp (small : top + 3 < 2 ^ 32) : (top + 3) &&& 4294967292 = alignUp top 4 := by
  have here : (BitVec.ofNat 32 top).toNat = top := by
    rw [BitVec.toNat_ofNat, Nat.mod_eq_of_lt (by omega)]
  have rounded := Words.toNat_alignUp (BitVec.ofNat 32 top) 2 (by rw [here]; exact small)
  rw [BitVec.toNat_and, BitVec.toNat_add, here, BitVec.toNat_ofNat] at rounded
  rw [← show alignUp top (2 ^ 2) = alignUp top 4 from rfl, ← rounded,
    Nat.mod_eq_of_lt (show 2 ^ 2 - 1 < 2 ^ 32 by decide), Nat.mod_eq_of_lt (by omega)]
  rfl

/-- What the scratch memory behind the cursor is used for. -/
structure Room (m : Machine) (p q : Nat) (bs fb : List UInt8) : Prop where
  fits : m.scratchBase.toNat + m.scratchCursor.toNat + (8 + (pieces fb bs).length * 4) +
    sizeOf (pieces fb bs) ≤ m.arenaLen.toNat
  clearS : p + 4 + bs.length ≤ m.scratchBase.toNat + m.scratchCursor.toNat ∨
    m.scratchBase.toNat + m.scratchCursor.toNat + (8 + (pieces fb bs).length * 4) +
      sizeOf (pieces fb bs) ≤ p
  clearF : q + 4 + fb.length ≤ m.scratchBase.toNat + m.scratchCursor.toNat ∨
    m.scratchBase.toNat + m.scratchCursor.toNat + (8 + (pieces fb bs).length * 4) +
      sizeOf (pieces fb bs) ≤ q

/-- The places of the array and the segments. -/
def Room.site (room : Room m p q bs fb) : Site where
  p := p
  q := q
  top := m.scratchBase.toNat + m.scratchCursor.toNat
  H := alignUp (m.scratchBase.toNat + m.scratchCursor.toNat) 4
  first := m.scratchBase.toNat + m.scratchCursor.toNat + (8 + (pieces fb bs).length * 4)
  limit := m.arenaLen.toNat
  sb := bs
  fb := fb
  all := pieces fb bs
  low := le_alignUp ..
  array := by
    have := @alignUp_lt (m.scratchBase.toNat + m.scratchCursor.toNat) 4 (by decide)
    omega
  clearS := room.clearS
  clearF := room.clearF
  fits := room.fits

theorem Room.start (room : Room m p q bs fb) (holdsS : HoldsBytes m p bs)
    (holdsF : HoldsBytes m q fb) : Progress room.site [] (wrote
      { m with scratchCursor := m.scratchCursor + BitVec.ofNat 32 (8 + (pieces fb bs).length * 4) }
      room.site.H (leBytes 4 (pieces fb bs).length)) := by
  have fits := room.fits
  have clearS := room.clearS
  have clearF := room.clearF
  have four := length_leBytes 4 (pieces fb bs).length
  have low := le_alignUp (m.scratchBase.toNat + m.scratchCursor.toNat) 4
  have high := @alignUp_lt (m.scratchBase.toNat + m.scratchCursor.toNat) 4 (by decide)
  have target : alignUp (m.scratchBase.toNat + m.scratchCursor.toNat) 4 +
      (leBytes 4 (pieces fb bs).length).length ≤ m.arenaLen.toNat := by omega
  have apartS : p + 4 + bs.length ≤ alignUp (m.scratchBase.toNat + m.scratchCursor.toNat) 4 ∨
      alignUp (m.scratchBase.toNat + m.scratchCursor.toNat) 4 +
        (leBytes 4 (pieces fb bs).length).length ≤ p := by omega
  have apartF : q + 4 + fb.length ≤ alignUp (m.scratchBase.toNat + m.scratchCursor.toNat) 4 ∨
      alignUp (m.scratchBase.toNat + m.scratchCursor.toNat) 4 +
        (leBytes 4 (pieces fb bs).length).length ≤ q := by omega
  refine ⟨⟨rfl, ?_, ?_, ?_, trivial⟩, ?_⟩
  · exact HoldsBytes.apart (holdsS.congr (fun _ _ => rfl) rfl) target apartS
  · exact HoldsBytes.apart (holdsF.congr (fun _ _ => rfl) rfl) target apartF
  · have stored : (wrote
        { m with scratchCursor := m.scratchCursor + BitVec.ofNat 32 (8 + (pieces fb bs).length * 4) }
        room.site.H (leBytes 4 (pieces fb bs).length)).bytes room.site.H
        (leBytes 4 (pieces fb bs).length).length = leBytes 4 (pieces fb bs).length :=
      bytes_wrote_same (by change alignUp _ 4 + _ < _; omega)
    rw [four] at stored
    rw [stringLen, stored]
    exact leNat_leBytes (by omega)
  · change m.scratchBase.toNat +
      (m.scratchCursor + BitVec.ofNat 32 (8 + (pieces fb bs).length * 4)).toNat = _
    rw [BitVec.toNat_add, BitVec.toNat_ofNat, Nat.mod_eq_of_lt (by omega),
      Nat.mod_eq_of_lt (by omega)]
    exact (Nat.add_assoc ..).symm

theorem run_body (room : Room m p q bs fb) (some_ : fb ≠ []) (holdsS : HoldsBytes m p bs)
    (holdsF : HoldsBytes m q fb) (short : bs.length + fb.length < 2 ^ 31)
    (built : ∀ s, s.stack = [.nat room.site.H] → Written room.site (pieces fb bs) s.machine →
      Q .ret s) : Run [p, q] m Q body [] [(sink, 0)] := by
  have fits := room.fits
  have low := le_alignUp (m.scratchBase.toNat + m.scratchCursor.toNat) 4
  have high := @alignUp_lt (m.scratchBase.toNat + m.scratchCursor.toNat) 4 (by decide)
  have aligned := @and_alignUp (m.scratchBase.toNat + m.scratchCursor.toNat) (by omega)
  have target : alignUp (m.scratchBase.toNat + m.scratchCursor.toNat) 4 + 4 ≤ m.arenaLen.toNat := by
    omega
  simp only [body, append_assoc]
  refine run_counting some_ holdsS holdsF short ?_
  refine steps_append [8 + (pieces fb bs).length * 4] _ rfl (alloc rfl (by omega) ?_)
  refine steps_append [(pieces fb bs).length,
    (m.scratchBase.toNat + m.scratchCursor.toNat + 3) &&& 4294967292]
    [(newBase, (m.scratchBase.toNat + m.scratchCursor.toNat + 3) &&& 4294967292),
      (sLen, bs.length), (fLen, fb.length), (n, (pieces fb bs).length), (sink, 0)] rfl ?_
  rw [aligned]
  refine storeI32 ?_ target
  refine steps_append [] _ rfl (forget (run_cutting some_ rfl short
    (room.start holdsS holdsF) fun m' progress => steps [room.site.H] _ rfl
      (ret fun s stack reached => built s stack ?_)))
  · exact progress.toWritten.congr reached.reads.bytes reached.reads.arenaLen

end

/-! ### What is returned -/

/-- A pointer array at `H`: its count is the number of its slots, which hold the offsets of the
segments' records; these stand behind the array and apart from each other. -/
structure SplitRecord (m : Machine) (H : Nat) (segments : List (List UInt8)) (offs : List Nat) :
    Prop where
  count : m.stringLen H = offs.length
  slots : (List.range offs.length).map (fun i => m.stringLen (H + 4 + 4 * i)) = offs
  records : List.Forall₂ (HoldsBytes m) offs segments
  header : ∀ o ∈ offs, H + 4 + 4 * offs.length ≤ o
  apart : (offs.zip segments).Pairwise fun x y => x.1 + 4 + x.2.length ≤ y.1

/-- The offsets of records that stand one behind the other. -/
def offsets (first : Nat) : List (List UInt8) → List Nat
  | [] => []
  | x :: rest => first :: offsets (first + (4 + x.length)) rest

section
variable {m : Machine} {slotAt first : Nat} {segments : List (List UInt8)}

theorem length_offsets : (offsets first segments).length = segments.length := by
  induction segments generalizing first with
  | nil => rfl
  | cons x rest ih => rw [offsets, length_cons, ih, length_cons]

theorem le_of_mem_offsets {o : Nat} (mem : o ∈ offsets first segments) : first ≤ o := by
  induction segments generalizing first with
  | nil => cases mem
  | cons x rest ih =>
    cases mem with
    | head => exact le_rfl
    | tail _ mem => exact (Nat.le_add_right ..).trans (ih mem)

theorem offsets_apart : ((offsets first segments).zip segments).Pairwise
    fun x y => x.1 + 4 + x.2.length ≤ y.1 := by
  induction segments generalizing first with
  | nil => exact .nil
  | cons x rest ih =>
    refine .cons (fun y mem => ?_) ih
    rw [Nat.add_assoc]
    exact le_of_mem_offsets (of_mem_zip (show (y.1, y.2) ∈ _ from mem)).1

theorem Laid.records (laid : Laid m slotAt first segments) :
    List.Forall₂ (HoldsBytes m) (offsets first segments) segments := by
  induction segments generalizing slotAt first with
  | nil => exact .nil
  | cons x rest ih => exact .cons laid.2.1 (ih laid.2.2)

theorem Laid.slots (laid : Laid m slotAt first segments) :
    (List.range segments.length).map (fun i => m.stringLen (slotAt + 4 * i)) =
      offsets first segments := by
  induction segments generalizing slotAt first with
  | nil => rfl
  | cons x rest ih =>
    rw [length_cons, range_succ_eq_map, map_cons, map_map, offsets, ← ih laid.2.2]
    refine congrArg₂ List.cons laid.1 (map_congr_left fun i _ => ?_)
    exact congrArg m.stringLen (by rw [Nat.mul_succ]; omega)

end

theorem Written.splitRecord {site : Site} {m : Machine} (written : Written site site.all m) :
    SplitRecord m site.H site.all (offsets site.first site.all) := by
  refine ⟨written.count.trans length_offsets.symm, ?_, written.laid.records, fun o mem => ?_,
    offsets_apart⟩
  · rw [length_offsets]
    exact written.laid.slots
  · rw [length_offsets]
    exact site.array.trans (le_of_mem_offsets mem)

/-- Records inside the arena, shorter than 2 GiB together, and room for the result: the body
returns the pointer array of the pieces. A let slot reads as zero until it is set. -/
theorem split_body_splits (m : Machine) (ps pf : BitVec 32) (s sep : List Char) (some_ : sep ≠ [])
    (holdsS : HoldsBytes m ps.toNat (utf8 s)) (holdsF : HoldsBytes m pf.toNat (utf8 sep))
    (short : (utf8 s).length + (utf8 sep).length < 2 ^ 31)
    (room : Room m ps.toNat pf.toNat (utf8 s) (utf8 sep)) :
    (∃ s' H offs, lang.Finishes body ⟨[], fun _ => some (.i32 0), [.i32 ps, .i32 pf], m⟩ .ret s' ∧
      s'.stack = [.nat H] ∧ SplitRecord s'.machine H ((pieces sep s).map utf8) offs) ∧
    sep.intercalate (pieces sep s) = s := by
  have someBytes : utf8 sep ≠ [] := fun none => some_ (utf8_eq_nil none)
  have zero : Slots.Of [(sink, 0)] fun _ => some (.nat 0) := by
    intro j v found
    by_cases same : j = sink
    · subst same
      exact congrArg (fun v => some (Word.nat v)) (Option.some.inj found)
    · rw [lookup_cons, beq_false_of_ne same] at found
      cases found
  have ends : lang.Ends body ⟨[], fun _ => some (.nat 0), [.nat ps.toNat, .nat pf.toNat], m⟩
      fun x s' => x = .ret ∧ s'.stack = [.nat room.site.H] ∧
        Written room.site (pieces (utf8 sep) (utf8 s)) s'.machine :=
    (run_body room someBytes holdsS holdsF short fun s' stack written => ⟨rfl, stack, written⟩).at_
      zero (.refl m)
  rw [Word.nat_toNat, Word.nat_toNat] at ends
  obtain ⟨x, s', finished, rfl, stack, written⟩ := ends
  refine ⟨⟨s', room.site.H, offsets room.site.first room.site.all, finished, stack, ?_⟩,
    intercalate_pieces some_ s⟩
  rw [← utf8_pieces some_]
  exact written.splitRecord

/-- An arena of `arenaLen` bytes with the strings `"a,,é"` and `","`; scratch memory starts behind
them. -/
def commas (arenaLen : BitVec 32) : Machine where
  arenaBase := 0x10000
  arenaLen := arenaLen
  scratchBase := 17
  scratchCursor := 0
  tailCursor := 0
  inPtr := 0
  outPtr := 0
  mem := fun addr =>
    ([5, 0, 0, 0, 0x61, 0x2C, 0x2C, 0xC3, 0xA9, 0, 0, 0, 1, 0, 0, 0, 0x2C][addr.toNat -
      0x10000]?).getD 0
  accesses := []
  blocks := []

/-- The pieces are `"a"`, `""` and `"é"`. -/
theorem commas_split : ∃ s' H offs,
    lang.Finishes body ⟨[], fun _ => some (.i32 0), [.i32 0, .i32 12], commas 52⟩ .ret s' ∧
      s'.stack = [.nat H] ∧ SplitRecord s'.machine H [[0x61], [], [0xC3, 0xA9]] offs :=
  (split_body_splits (commas 52) 0 12 ['a', ',', ',', 'é'] [','] (by decide)
    ⟨by decide +kernel, by decide +kernel, by decide +kernel⟩
    ⟨by decide +kernel, by decide +kernel, by decide +kernel⟩ (by decide +kernel)
    ⟨by decide +kernel, by decide +kernel, by decide +kernel⟩).1

/-- One byte less and the same call traps. -/
theorem commas_trap : HoldsBytes (commas 51) 0 (utf8 ['a', ',', ',', 'é']) ∧
    HoldsBytes (commas 51) 12 (utf8 [',']) ∧
    ∃ s', lang.Finishes body ⟨[], fun _ => some (.i32 0), [.i32 0, .i32 12], commas 51⟩
      (.trap .boundsViolation) s' := by
  refine ⟨⟨by decide +kernel, by decide +kernel, by decide +kernel⟩,
    ⟨by decide +kernel, by decide +kernel, by decide +kernel⟩, ?_⟩
  have ran : (lang.run 300 body
      ⟨[], fun _ => some (.i32 0), [.i32 0, .i32 12], commas 51⟩).map Prod.fst =
        some (.trap .boundsViolation) := by
    decide +kernel
  obtain ⟨⟨x, s'⟩, ran, rfl⟩ := Option.map_eq_some_iff.mp ran
  exact ⟨s', 300, ran⟩

end Split

end Relon.Ir
