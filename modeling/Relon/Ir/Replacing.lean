import Relon.Ir.Matching
import Relon.Ir.StringResult
import Relon.Lib.Splice
import Relon.Unicode.Utf8

/-! Compiled `replace` (`relon-ir/src/stdlib/string_ops.rs`).

A first pass computes the length of the result, the record is allocated, and a second pass
writes it. Both walk over the bytes of the string with one cursor and ask at each byte
whether the bytes of the pattern stand there. What a pass still has to do is the same
function of the bytes ahead in both, so they agree; and what is done to the bytes is what
`str::replace` does to the code points. -/
namespace Relon.Ir

open Codegen Control Bytes Splice List Run
open Unicode (utf8 utf8_append utf8_cons utf8_eq_nil prefix_of_utf8_prefix leads encoded)

/-! ### What replacing is for -/

/-- `str::replace`: an empty pattern occurs in front of every code point and at the end. -/
def replaceStr (s from_ to_ : List Char) : List Char :=
  if from_ = [] then s.flatMap (fun c => to_ ++ [c]) ++ to_ else replaced from_ to_ s

namespace Replace

section
variable {s from_ to_ : List Char}

/-- Inside a code no other one starts. -/
theorem not_prefix_inside {f : Char} {fs : List UInt8} {c : Char} {tail : List UInt8} {k : Nat}
    (inside : 0 < k) (small : k < (String.utf8EncodeChar c).length) :
    ¬ String.utf8EncodeChar f ++ fs <+: (String.utf8EncodeChar c).drop k ++ tail := by
  obtain ⟨b, bs, code, -, others⟩ := (encoded c).leads
  obtain ⟨b', bs', code', first, -⟩ := (encoded f).leads
  obtain ⟨k, rfl⟩ : ∃ n, k = n + 1 := ⟨k - 1, by omega⟩
  rw [code] at small ⊢
  rw [code', drop_succ_cons]
  intro starts
  have here : k < bs.length := by simpa using small
  rw [drop_eq_getElem_cons here, cons_append, cons_append, cons_prefix_cons] at starts
  have other := others bs[k] (getElem_mem here)
  rw [← starts.1, first] at other
  cases other

theorem no_match_in_code {c : Char} {rest : List Char} (some_ : from_ ≠ [])
    (other : ¬ from_ <+: c :: rest) (k : Nat) (small : k < (String.utf8EncodeChar c).length) :
    ¬ utf8 from_ <+: (String.utf8EncodeChar c).drop k ++ utf8 rest := by
  by_cases zero : k = 0
  · subst zero
    rw [drop_zero, ← utf8_cons]
    exact fun bytes => other <| prefix_of_utf8_prefix bytes
  · obtain ⟨f, fs, rfl⟩ := exists_cons_of_ne_nil some_
    rw [utf8_cons]
    exact not_prefix_inside (by omega) small

/-- Replacing the bytes replaces the code points. -/
theorem utf8_replaced (some_ : from_ ≠ []) :
    utf8 (replaced from_ to_ s) = replaced (utf8 from_) (utf8 to_) (utf8 s) := by
  have someBytes : utf8 from_ ≠ [] := fun none => some_ (utf8_eq_nil none)
  generalize size : s.length = n
  induction n using Nat.strongRecOn generalizing s with
  | ind n ih =>
    by_cases starts : from_ <+: s
    · obtain ⟨rest, rfl⟩ := starts
      have shorter : rest.length < n := by
        have := length_pos_iff.mpr some_
        rw [← size, length_append]
        omega
      rw [replaced_match some_, utf8_append, utf8_append, replaced_match someBytes,
        ih _ shorter rfl]
    · cases s with
      | nil => rfl
      | cons c rest =>
        rw [replaced_other starts, utf8_cons, utf8_cons, replaced_append (no_match_in_code some_ starts),
          ih rest.length (by rw [← size]; simp) rfl]

/-- Every byte that starts a code with `to_` in front of it. -/
def inserted (to_ : List UInt8) (bs : List UInt8) : List UInt8 :=
  bs.flatMap fun b => if leads b then to_ ++ [b] else [b]

theorem inserted_append (to_ a b : List UInt8) :
    inserted to_ (a ++ b) = inserted to_ a ++ inserted to_ b :=
  flatMap_append

theorem inserted_others {to_ bs : List UInt8} (others : ∀ b ∈ bs, leads b = false) :
    inserted to_ bs = bs := by
  induction bs with
  | nil => rfl
  | cons b bs ih =>
    rw [inserted, flatMap_cons, others b mem_cons_self]
    exact congrArg (b :: ·) (ih fun x mem => others x (mem_cons_of_mem _ mem))

theorem utf8_inserted (to_ s : List Char) :
    utf8 (s.flatMap fun c => to_ ++ [c]) = inserted (utf8 to_) (utf8 s) := by
  induction s with
  | nil => rfl
  | cons c rest ih =>
    obtain ⟨b, bs, code, first, others⟩ := (encoded c).leads
    have here : inserted (utf8 to_) (String.utf8EncodeChar c) = utf8 to_ ++ String.utf8EncodeChar c := by
      rw [code, ← singleton_append, inserted_append, inserted_others others, inserted,
        flatMap_singleton, if_pos first, append_assoc]
    rw [flatMap_cons, utf8_append, ih, utf8_append, utf8_cons c rest, inserted_append, here]
    rw [utf8_cons]
    simp [utf8]

/-- What the two passes compute, on the bytes. -/
def output (s from_ to_ : List UInt8) : List UInt8 :=
  if from_ = [] then inserted to_ s ++ to_ else replaced from_ to_ s

theorem output_utf8 : output (utf8 s) (utf8 from_) (utf8 to_) = utf8 (replaceStr s from_ to_) := by
  by_cases none : from_ = []
  · subst none
    rw [replaceStr, if_pos rfl, utf8_append, utf8_inserted]
    rfl
  · rw [output, if_neg fun empty => none (utf8_eq_nil empty), replaceStr, if_neg none,
      utf8_replaced none]

end

section
variable {m : Machine} {p q r k : Nat} {sb fb : List UInt8} {d : Stream}
  {Q : Exit TrapKind → State → Prop}

theorem outer_size (T o : Nat) : Outer i [(tLen, T), (outLen, o)] :=
  ⟨⟨rfl, rfl, trivial⟩, by simp [tLen, outLen, sLen, fLen, i, matchFlag, j, sink, Replace.sb, byte]⟩

theorem outer_write (T B w' n : Nat) : Outer i [(tLen, T), (base, B), (w, w'), (outLen, n)] :=
  ⟨⟨rfl, rfl, rfl, rfl, trivial⟩, by
    simp [tLen, base, w, outLen, sLen, fLen, i, matchFlag, j, sink, Replace.sb, byte]⟩

/-! ### The sizing pass -/

variable {tb : List UInt8}

theorem replaced_drop_match (some_ : fb ≠ []) (starts : fb <+: sb.drop k) :
    replaced fb tb (sb.drop k) = tb ++ replaced fb tb (sb.drop (k + fb.length)) := by
  obtain ⟨rest, split⟩ := starts
  have behind : sb.drop (k + fb.length) = rest := by
    rw [← drop_drop, ← split, drop_left]
  rw [behind, ← split, replaced_match some_]

theorem replaced_drop_other (within : k < sb.length) (other : ¬ fb <+: sb.drop k) :
    replaced fb tb (sb.drop k) = sb[k] :: replaced fb tb (sb.drop (k + 1)) := by
  rw [drop_eq_getElem_cons within] at other ⊢
  exact replaced_other other

theorem le_of_prefix_drop (starts : fb <+: sb.drop k) (within : k ≤ sb.length) :
    k + fb.length ≤ sb.length := by
  have := starts.length_le
  rw [length_drop] at this
  omega

theorem run_nonemptyScanSize (some_ : fb ≠ []) (holdsS : HoldsBytes m p sb)
    (holdsF : HoldsBytes m q fb) (short : sb.length + fb.length < 2 ^ 31)
    (behind : Run [p, q, r] m Q [] [0] [(sLen, sb.length), (fLen, fb.length), (tLen, tb.length),
      (outLen, (replaced fb tb sb).length)]) :
    Run [p, q, r] m Q (nonemptyScanSize sLen fLen tLen outLen i matchFlag j sink Replace.sb byte) []
      [(sLen, sb.length), (fLen, fb.length), (tLen, tb.length), (outLen, 0)] := by
  have positive := length_pos_iff.mpr some_
  simp only [nonemptyScanSize, ops_cons, ops_nil, cons_append, nil_append, append_assoc]
  refine steps [] _ rfl (forget (blockLoop (fun _ => m)
    (fun x : {x : Nat × Nat // x.1 ≤ sb.length ∧
        x.2 + (replaced fb tb (sb.drop x.1)).length = (replaced fb tb sb).length} =>
      around i sb.length fb.length x.1.1 [(tLen, tb.length), (outLen, x.1.2)])
    (fun x => sb.length - x.1.1) ⟨(0, 0), Nat.zero_le _, Nat.zero_add _⟩ ?_))
  rintro ⟨⟨k, o⟩, within, sum⟩ Q' again out
  dsimp only at within sum again ⊢
  refine steps [sb.length, k] _ rfl (brIfCmp (fun all s here => ?_) fun more => ?_)
  · have all : sb.length ≤ k := of_decide_eq_true all
    rw [drop_of_length_le all, replaced_nil, length_nil, Nat.add_zero] at sum
    rw [← sum] at behind
    refine out m _ s (steps [0] _ rfl (forget behind)) here
  have more : ¬ sb.length ≤ k := of_decide_eq_false more
  refine run_match (.inl rfl) (outer_size ..) holdsS holdsF short within ?_
  by_cases starts : fb <+: sb.drop k
  · have bound := le_of_prefix_drop starts within
    rw [flag, if_pos starts]
    rw [replaced_drop_match some_ starts, length_append] at sum
    refine steps [1] _ rfl (ite (fun _ => ?_) (absurd · Nat.one_ne_zero))
    exact steps [0] _ rfl (join (steps [] _ rfl
      (again ⟨(k + fb.length, o + tb.length), bound, by dsimp only; omega⟩)))
  · rw [flag, if_neg starts]
    rw [replaced_drop_other (by omega) starts, length_cons] at sum
    refine steps [0] _ rfl (ite (absurd rfl) fun _ => ?_)
    exact steps [0] _ rfl (join (steps [] _ rfl
      (again ⟨(k + 1, o + 1), by omega, by dsimp only; omega⟩)))

theorem inserted_drop (within : k < sb.length) : inserted tb (sb.drop k) =
      (if leads sb[k] then tb ++ [sb[k]] else [sb[k]]) ++ inserted tb (sb.drop (k + 1)) := by
  rw [drop_eq_getElem_cons within]
  exact flatMap_cons

theorem run_emptyFromSize (holdsS : HoldsBytes m p sb) (short : sb.length < 2 ^ 31)
    (behind : Run [p, q, r] m Q [] [0] [(sLen, sb.length), (fLen, 0), (tLen, tb.length),
      (outLen, (inserted tb sb ++ tb).length)]) :
    Run [p, q, r] m Q (emptyFromSize sLen tLen outLen i Replace.sb) []
      [(sLen, sb.length), (fLen, 0), (tLen, tb.length), (outLen, 0)] := by
  have insideS := holdsS.inside
  simp only [emptyFromSize, ops_cons, ops_nil, cons_append, nil_append]
  refine steps [] _ rfl (forget (blockLoop (fun _ => m)
    (fun x : {x : Nat × Nat // x.1 ≤ sb.length ∧
        x.2 + (inserted tb (sb.drop x.1)).length + x.1 = (inserted tb sb).length + sb.length} =>
      [(sLen, sb.length), (fLen, 0), (tLen, tb.length), (i, x.1.1), (outLen, x.1.2)])
    (fun x => sb.length - x.1.1) ⟨(0, sb.length), Nat.zero_le _, by simp [Nat.add_comm]⟩ ?_))
  rintro ⟨⟨k, o⟩, within, sum⟩ Q' again out
  dsimp only at within sum again ⊢
  refine steps [sb.length, k] _ rfl (brIfCmp (fun all s here => ?_) fun more => ?_)
  · have all : sb.length ≤ k := of_decide_eq_true all
    rw [drop_of_length_le all] at sum
    have size : o + tb.length = (inserted tb sb ++ tb).length := by
      have none : (inserted tb []).length = 0 := rfl
      rw [length_append]
      omega
    rw [← size] at behind
    refine out m _ s (steps [0] _ rfl (forget behind)) here
  have more : k < sb.length := not_le.mp (of_decide_eq_false more)
  have byteS := (sb[k]).toNat_lt
  have masked : (sb[k]).toNat &&& 192 < 2 ^ 31 := lt_of_le_of_lt Nat.and_le_right (by decide)
  rw [inserted_drop more, length_append] at sum
  refine steps [p + 4 + k] _ rfl (loadByte ?_)
  rw [holdsS.view more]
  refine steps [128, (sb[k]).toNat &&& 192] _ rfl (ifCmp (fun first => ?_) fun other => ?_)
  · rw [if_pos (show leads sb[k] = true from first), length_append, length_singleton] at sum
    exact steps [0] _ rfl (join (steps [] _ rfl
      (again ⟨(k + 1, o + tb.length), more, by dsimp only; omega⟩)))
  · have other : leads sb[k] = false := other
    rw [other, if_neg (by decide), length_singleton] at sum
    exact steps [0] _ rfl (join (steps [] _ rfl (again ⟨(k + 1, o), more, by dsimp only; omega⟩)))

end

/-! ### The writing pass -/

section
variable {p q r B n : Nat} {sb fb tb written : List UInt8} {m : Machine} {d : Stream}
  {Q : Exit TrapKind → State → Prop} {k : Nat}

/-- The new record stands clear of the three arguments. -/
structure Clear (p q r B n : Nat) (sb fb tb : List UInt8) : Prop where
  s : p + 4 + sb.length ≤ B ∨ B + 4 + n ≤ p
  from_ : q + 4 + fb.length ≤ B ∨ B + 4 + n ≤ q
  to_ : r + 4 + tb.length ≤ B ∨ B + 4 + n ≤ r

/-- The arguments, and the part of the new record that is written. -/
structure Writing (p q r B n : Nat) (sb fb tb written : List UInt8) (m : Machine) : Prop where
  s : HoldsBytes m p sb
  from_ : HoldsBytes m q fb
  to_ : HoldsBytes m r tb
  fits : B + 4 + n ≤ m.arenaLen.toNat
  header : m.stringLen B = n
  bytes : m.bytes (B + 4) written.length = written

theorem Writing.add {xs : List UInt8} (writing : Writing p q r B n sb fb tb written m)
    (clear : Clear p q r B n sb fb tb) (room : written.length + xs.length ≤ n) :
    Writing p q r B n sb fb tb (written ++ xs) (wrote m (B + 4 + written.length) xs) := by
  obtain ⟨s, from_, to_, fits, header, bytes⟩ := writing
  obtain ⟨clearS, clearF, clearT⟩ := clear
  have target : B + 4 + written.length + xs.length ≤ m.arenaLen.toNat := by omega
  refine ⟨s.apart target (by omega), from_.apart target (by omega), to_.apart target (by omega),
    fits, ?_, ?_⟩
  · rw [Machine.stringLen, bytes_wrote_apart (by omega) (by omega) (by omega)]
    exact header
  · rw [length_append, bytes_wrote_behind (by omega), bytes]

theorem Writing.done (writing : Writing p q r B n sb fb tb written m) (all : written.length = n) :
    HoldsBytes m B written := by
  subst all
  exact ⟨writing.header, writing.bytes, writing.fits⟩

/-- The slots of the writing pass. -/
abbrev cursors (S F T B n k w' : Nat) : Slots :=
  around i S F k [(tLen, T), (base, B), (w, w'), (outLen, n)]

theorem run_emitTo (writing : Writing p q r B n sb fb tb written m)
    (room : written.length + tb.length ≤ n) (l : Slots)
    (behind : Run [p, q, r] (wrote m (B + 4 + written.length) tb) Q d []
      ((w, written.length + tb.length) :: (w, written.length) :: (tLen, tb.length) :: (base, B) :: l)) :
    Run [p, q, r] m Q (emitTo tLen base w ++ d) []
      ((w, written.length) :: (tLen, tb.length) :: (base, B) :: l) := by
  have fits := writing.fits
  have source := writing.to_.inside
  refine steps_append [tb.length, r + 4, B + 4 + written.length] _ rfl (memcpy ?_)
  rw [writing.to_.bytes]
  exact steps_append [] _ rfl behind

theorem run_emitByte {v : UInt8} (writing : Writing p q r B n sb fb tb written m)
    (room : written.length < n) (k : Nat) (l : Slots)
    (behind : Run [p, q, r] (wrote m (B + 4 + written.length) [v]) Q d []
      ((i, k + 1) :: (w, written.length + 1) :: (Replace.sb, v.toNat) :: (w, written.length) ::
        (base, B) :: (i, k) :: l)) : Run [p, q, r] m Q (emitByte base i w Replace.sb ++ d) []
      ((Replace.sb, v.toNat) :: (w, written.length) :: (base, B) :: (i, k) :: l) := by
  have fits := writing.fits
  have byte := v.toNat_lt
  refine steps_append [v.toNat, B + 4 + written.length] _ rfl (storeI8 ?_)
  rw [UInt8.ofNat_toNat]
  exact steps_append [] _ rfl behind

/-- A round of a writing loop: the cursor, what is written, and the machine. -/
structure Round (p q r B : Nat) (sb fb tb : List UInt8) (whole : List UInt8)
    (ahead : Nat → List UInt8) where
  k : Nat
  written : List UInt8
  machine : Machine
  within : k ≤ sb.length
  rest : written ++ ahead k = whole
  writing : Writing p q r B whole.length sb fb tb written machine

theorem run_nonemptyScanWrite (some_ : fb ≠ []) (short : sb.length + fb.length < 2 ^ 31)
    (clear : Clear p q r B (replaced fb tb sb).length sb fb tb)
    (writing : Writing p q r B (replaced fb tb sb).length sb fb tb [] m)
    (behind : ∀ m', HoldsBytes m' B (replaced fb tb sb) →
      Run [p, q, r] m' Q [] [0] [(base, B), (outLen, (replaced fb tb sb).length),
        (w, (replaced fb tb sb).length)]) : Run [p, q, r] m Q
      (nonemptyScanWrite sLen fLen tLen base i w matchFlag j sink Replace.sb byte) []
      [(w, 0), (tLen, tb.length), (base, B), (sLen, sb.length), (fLen, fb.length),
        (outLen, (replaced fb tb sb).length)] := by
  have positive := length_pos_iff.mpr some_
  simp only [nonemptyScanWrite, ops_cons, ops_nil, cons_append, nil_append, append_assoc]
  refine steps [] _ rfl (forget (blockLoop (fun x => x.machine)
    (fun x : Round p q r B sb fb tb (replaced fb tb sb) (fun k => replaced fb tb (sb.drop k)) =>
      cursors sb.length fb.length tb.length B (replaced fb tb sb).length x.k x.written.length)
    (fun x => sb.length - x.k) ⟨0, [], m, Nat.zero_le _, rfl, writing⟩ ?_))
  rintro ⟨k, written, m', within, rest, writing⟩ Q' again out
  dsimp only at within rest again ⊢
  refine steps [sb.length, k] _ rfl (brIfCmp (fun all s here => ?_) fun more => ?_)
  · have all : sb.length ≤ k := of_decide_eq_true all
    rw [drop_of_length_le all, replaced_nil, append_nil] at rest
    have size := congrArg List.length rest
    have holds := writing.done size
    rw [rest] at holds
    refine out m' _ s (steps [0] _ rfl (forget (behind m' holds) ?_)) here
    exact ⟨rfl, rfl, congrArg some size, trivial⟩
  have more : k < sb.length := not_le.mp (of_decide_eq_false more)
  have size := congrArg List.length rest
  refine run_match (.inl rfl) (outer_write ..) writing.s writing.from_ short within ?_
  by_cases starts : fb <+: sb.drop k
  · have bound := le_of_prefix_drop starts within
    rw [flag, if_pos starts]
    rw [replaced_drop_match some_ starts] at rest size
    have room : written.length + tb.length ≤ (replaced fb tb sb).length := by
      simp only [length_append] at size
      omega
    refine steps [1] _ rfl (ite (fun _ => ?_) (absurd · Nat.one_ne_zero))
    refine forget (run_emitTo writing room
      [(sLen, sb.length), (fLen, fb.length), (i, k), (outLen, (replaced fb tb sb).length)]
      (steps [0] _ rfl (join (steps [] _ rfl
        (again ⟨k + fb.length, written ++ tb, _, bound, ?_, writing.add clear room⟩
          (by dsimp only; omega) ?_)))))
    · rw [← rest, append_assoc]
    · refine ⟨rfl, rfl, rfl, rfl, rfl, congrArg some ?_, rfl, trivial⟩
      rw [length_append]
  · have insideS := writing.s.inside
    rw [flag, if_neg starts]
    rw [replaced_drop_other more starts] at rest size
    have room : written.length < (replaced fb tb sb).length := by
      simp only [length_append, length_cons] at size
      omega
    refine steps [0] _ rfl (ite (absurd rfl) fun _ => ?_)
    refine steps [p + 4 + k] _ rfl (loadByte ?_)
    rw [writing.s.view more]
    refine letSet (forget (run_emitByte writing room k
      [(sLen, sb.length), (fLen, fb.length), (tLen, tb.length), (outLen, (replaced fb tb sb).length)]
      (steps [0] _ rfl (join (steps [] _ rfl
        (again ⟨k + 1, written ++ [sb[k]], _, more, ?_, writing.add clear room⟩
          (by dsimp only; omega) ?_))))))
    · rw [← rest, append_assoc, singleton_append]
    · refine ⟨rfl, rfl, rfl, rfl, rfl, congrArg some ?_, rfl, trivial⟩
      rw [length_append, length_singleton]

theorem run_emptyFromWrite (short : sb.length < 2 ^ 31)
    (clear : Clear p q r B (inserted tb sb ++ tb).length sb fb tb)
    (writing : Writing p q r B (inserted tb sb ++ tb).length sb fb tb [] m)
    (behind : ∀ m', HoldsBytes m' B (inserted tb sb ++ tb) →
      Run [p, q, r] m' Q [] [0] [(base, B), (outLen, (inserted tb sb ++ tb).length),
        (w, (inserted tb sb ++ tb).length)]) :
    Run [p, q, r] m Q (emptyFromWrite sLen tLen base i w sink Replace.sb) []
      [(w, 0), (tLen, tb.length), (base, B), (sLen, sb.length), (fLen, fb.length),
        (outLen, (inserted tb sb ++ tb).length)] := by
  simp only [emptyFromWrite, ops_cons, ops_nil, cons_append, nil_append]
  refine steps [] _ rfl (forget (blockLoop (fun x => x.machine)
    (fun x : Round p q r B sb fb tb (inserted tb sb ++ tb)
        (fun k => inserted tb (sb.drop k) ++ tb) =>
      [(w, x.written.length), (tLen, tb.length), (base, B), (sLen, sb.length), (i, x.k),
        (outLen, (inserted tb sb ++ tb).length)])
    (fun x => sb.length - x.k) ⟨0, [], m, Nat.zero_le _, rfl, writing⟩ ?_))
  rintro ⟨k, written, m', within, rest, writing⟩ Q' again out
  dsimp only at within rest again ⊢
  have size := congrArg List.length rest
  refine steps [sb.length, k] _ rfl (brIfCmp (fun all s here => ?_) fun more => ?_)
  · have all : sb.length ≤ k := of_decide_eq_true all
    have none : inserted tb (sb.drop k) = [] := by rw [drop_of_length_le all]; rfl
    rw [none, nil_append] at rest size
    have room : written.length + tb.length ≤ (inserted tb sb ++ tb).length := by
      rw [length_append] at size
      exact size.le
    have holds := (writing.add clear room).done size
    rw [rest] at holds
    refine out m' _ s (block fun Q'' ended => ?_) here
    rw [← append_nil (emitTo tLen base w)]
    refine run_emitTo writing room
      [(sLen, sb.length), (i, k), (outLen, (inserted tb sb ++ tb).length)] (ended _ _ _ ?_)
    refine steps [0] _ rfl (forget (behind _ holds) ?_)
    exact ⟨rfl, rfl, congrArg some (length_append.symm.trans size), trivial⟩
  have more : k < sb.length := not_le.mp (of_decide_eq_false more)
  have insideS := writing.s.inside
  have masked : (sb[k]).toNat &&& 192 < 2 ^ 31 := lt_of_le_of_lt Nat.and_le_right (by decide)
  rw [inserted_drop more] at rest size
  refine steps [p + 4 + k] _ rfl (loadByte ?_)
  rw [writing.s.view more]
  refine steps [128, (sb[k]).toNat &&& 192] _ rfl (ifCmp (fun first => ?_) fun other => ?_)
  · rw [if_pos (show leads sb[k] = true from first)] at rest size
    simp only [length_append, length_singleton] at size
    have room : written.length + tb.length ≤ (inserted tb sb ++ tb).length := by
      rw [length_append]
      omega
    have roomByte : (written ++ tb).length < (inserted tb sb ++ tb).length := by
      rw [length_append, length_append]
      omega
    have added := writing.add clear room
    have grown : (written ++ tb ++ [sb[k]]).length = (written ++ tb).length + 1 := by
      rw [length_append, length_singleton]
    refine forget (run_emitTo writing room
      [(sLen, sb.length), (i, k), (outLen, (inserted tb sb ++ tb).length),
        (Replace.sb, (sb[k]).toNat)] (steps [0] _ rfl (join ?_)))
    refine letSet (forget (run_emitByte added roomByte k
      [(tLen, tb.length), (sLen, sb.length), (outLen, (inserted tb sb ++ tb).length)]
      (again ⟨k + 1, written ++ tb ++ [sb[k]], _, more, ?_, added.add clear roomByte⟩
        (by dsimp only; omega) ?_))
      ⟨rfl, congrArg some length_append.symm, rfl, rfl, rfl, rfl, rfl, trivial⟩)
    · rw [← rest]
      simp only [append_assoc]
    · exact ⟨congrArg some grown.symm, rfl, rfl, rfl, rfl, rfl, trivial⟩
  · have other : leads sb[k] = false := other
    rw [other, if_neg (by decide)] at rest size
    simp only [length_append, length_singleton] at size
    have room : written.length < (inserted tb sb ++ tb).length := by
      rw [length_append]
      omega
    refine steps [0] _ rfl (join (letSet (forget (run_emitByte writing room k
      [(tLen, tb.length), (sLen, sb.length), (outLen, (inserted tb sb ++ tb).length)]
      (again ⟨k + 1, written ++ [sb[k]], _, more, ?_, writing.add clear room⟩
        (by dsimp only; omega) ?_)))))
    · rw [← rest]
      simp only [append_assoc]
    · refine ⟨congrArg some ?_, rfl, rfl, rfl, rfl, rfl, trivial⟩
      rw [length_append, length_singleton]

/-! ### The body -/

variable {top : Nat}

/-- What the scratch block of the result starts as. -/
theorem writing_start (here : m.scratchBase.toNat + m.scratchCursor.toNat = top)
    (holdsS : HoldsBytes m p sb) (holdsF : HoldsBytes m q fb) (holdsT : HoldsBytes m r tb)
    (fits : top + 4 + n ≤ m.arenaLen.toNat) (clear : Clear p q r top n sb fb tb)
    (cursor : BitVec 32) : Writing p q r top n sb fb tb []
      (wrote { m with scratchCursor := cursor } top (leBytes 4 n)) := by
  obtain ⟨clearS, clearF, clearT⟩ := clear
  have four := length_leBytes 4 n
  have target : top + (leBytes 4 n).length ≤ m.arenaLen.toNat := by omega
  have moved : ∀ {p : Nat} {bs : List UInt8}, HoldsBytes m p bs →
      HoldsBytes { m with scratchCursor := cursor } p bs :=
    fun holds => ⟨holds.count, holds.bytes, holds.inside⟩
  have header : (wrote { m with scratchCursor := cursor } top (leBytes 4 n)).bytes top
      (leBytes 4 n).length = leBytes 4 n := bytes_wrote_same (by omega)
  refine ⟨(moved holdsS).apart target (by omega), (moved holdsF).apart target (by omega),
    (moved holdsT).apart target (by omega), fits, ?_, rfl⟩
  rw [four] at header
  rw [Machine.stringLen, header]
  exact leNat_leBytes (by omega)

/-- The state the body returns in: the record at `top` holds the bytes, and the two passes agree
on their number. -/
structure Built (top : Nat) (whole : List UInt8) (s : State) : Prop where
  stack : s.stack = [.nat top]
  record : HoldsBytes s.machine top whole
  sized : s.lets outLen = some (.nat whole.length)
  stored : s.lets w = some (.nat whole.length)

variable {whole : List UInt8} (out : output sb fb tb = whole)
  (here : m.scratchBase.toNat + m.scratchCursor.toNat = top)
  (holdsS : HoldsBytes m p sb) (holdsF : HoldsBytes m q fb) (holdsT : HoldsBytes m r tb)
  (short : sb.length + fb.length < 2 ^ 31) (fits : top + 4 + whole.length ≤ m.arenaLen.toNat)
  (clear : Clear p q r top whole.length sb fb tb)
  (built : ∀ s, Built top whole s → Q .ret s)
include out here holdsS holdsF holdsT short fits clear built

theorem run_filling :
    Run [p, q, r] m Q (ops [.letSet sink .i32, .letGet outLen .i32, .constI32 4, .add .i32] ++
      (ops [.allocScratchDyn, .letSet base .i32] ++ (filling ++ (ops [.letGet base .i32] ++ [.ret]))))
      [0] [(sLen, sb.length), (fLen, fb.length), (tLen, tb.length), (outLen, whole.length)] := by
  have header : top + 4 ≤ m.arenaLen.toNat := by omega
  have writing := writing_start here holdsS holdsF holdsT fits clear
    (m.scratchCursor + BitVec.ofNat 32 (whole.length + 4))
  have last : ∀ m', HoldsBytes m' top whole →
      Run [p, q, r] m' Q (ops [.letSet sink .i32] ++ (ops [.letGet base .i32] ++ [.ret])) [0]
        [(base, top), (outLen, whole.length), (w, whole.length)] := by
    intro m' holds
    refine steps [top] _ rfl (ret fun s stack reached => built s
      ⟨stack, holds.reads reached.reads, reached.slots _ _ rfl, reached.slots _ _ rfl⟩)
  simp only [filling, append_assoc]
  refine steps_append [whole.length + 4] _ rfl
    (steps_append [whole.length + 4] _ rfl (alloc here (by omega) ?_))
  refine steps [whole.length, top] _ rfl (storeI32 ?_ header)
  refine steps [0, fb.length] _ rfl (ifCmp (fun none => ?_) fun some_ => ?_)
  · obtain rfl : fb = [] := length_eq_zero_iff.mp (of_decide_eq_true none)
    obtain rfl : inserted tb sb ++ tb = whole := (if_pos rfl).symm.trans out
    refine forget (run_emptyFromWrite (by omega) clear writing fun m' holds =>
      join (last m' holds))
  · have some_ : fb ≠ [] := by
      rintro rfl
      cases some_
    obtain rfl : replaced fb tb sb = whole := (if_neg some_).symm.trans out
    refine forget (run_nonemptyScanWrite some_ short clear writing fun m' holds =>
      join (last m' holds))

theorem run_body : Run [p, q, r] m Q body [] [] := by
  have insideS := holdsS.inside
  have insideF := holdsF.inside
  have insideT := holdsT.inside
  have filled := run_filling out here holdsS holdsF holdsT short fits clear built
  simp only [body, sizing, append_assoc]
  refine steps_append [p] _ rfl (loadI32 ?_)
  refine steps [q] _ rfl (loadI32 ?_)
  refine steps [r] _ rfl (loadI32 ?_)
  rw [holdsS.count, holdsF.count, holdsT.count]
  refine steps [0, fb.length] _ rfl (ifCmp (fun none => ?_) fun some_ => ?_)
  · obtain rfl : fb = [] := length_eq_zero_iff.mp (of_decide_eq_true none)
    obtain rfl : inserted tb sb ++ tb = whole := (if_pos rfl).symm.trans out
    refine forget (run_emptyFromSize holdsS (by omega) (join filled))
  · have some_ : fb ≠ [] := by
      rintro rfl
      cases some_
    obtain rfl : replaced fb tb sb = whole := (if_neg some_).symm.trans out
    refine forget (run_nonemptyScanSize some_ holdsS holdsF short (join filled))

end

/-- Records inside the arena, `s` and the pattern together shorter than 2 GiB, and room for the
result: the body returns the record of `str::replace`, and the length it allocated for is the
number of bytes it stored. -/
theorem replace_body_replaces (m : Machine) (ps pf pt : BitVec 32) (s from_ to_ : List Char)
    (holdsS : HoldsBytes m ps.toNat (utf8 s)) (holdsF : HoldsBytes m pf.toNat (utf8 from_))
    (holdsT : HoldsBytes m pt.toNat (utf8 to_))
    (short : (utf8 s).length + (utf8 from_).length < 2 ^ 31)
    (fits : m.scratchBase.toNat + m.scratchCursor.toNat + 4 + (utf8 (replaceStr s from_ to_)).length ≤
      m.arenaLen.toNat)
    (clear : Clear ps.toNat pf.toNat pt.toNat (m.scratchBase.toNat + m.scratchCursor.toNat)
      (utf8 (replaceStr s from_ to_)).length (utf8 s) (utf8 from_) (utf8 to_)) :
    ∃ s', lang.Finishes body ⟨[], fun _ => none, [.i32 ps, .i32 pf, .i32 pt], m⟩ .ret s' ∧
      Built (m.scratchBase.toNat + m.scratchCursor.toNat) (utf8 (replaceStr s from_ to_)) s' := by
  have ends : lang.Ends body ⟨[], fun _ => none, [.nat ps.toNat, .nat pf.toNat, .nat pt.toNat], m⟩
      fun x s' => x = .ret ∧ Built (m.scratchBase.toNat + m.scratchCursor.toNat)
        (utf8 (replaceStr s from_ to_)) s' :=
    (run_body output_utf8 rfl holdsS holdsF holdsT short fits clear
      fun s' built => ⟨rfl, built⟩).start
  rw [Word.nat_toNat, Word.nat_toNat, Word.nat_toNat] at ends
  obtain ⟨x, s', finished, rfl, built⟩ := ends
  exact ⟨s', finished, built⟩

/-- An arena of `arenaLen` bytes with the strings `"aé"`, `"é"` and `"xyz"`; scratch memory starts
behind them. -/
def accented (arenaLen : BitVec 32) : Machine where
  arenaBase := 0x10000
  arenaLen := arenaLen
  scratchBase := 24
  scratchCursor := 0
  tailCursor := 0
  inPtr := 0
  outPtr := 0
  mem := fun addr =>
    ([3, 0, 0, 0, 0x61, 0xC3, 0xA9, 0, 2, 0, 0, 0, 0xC3, 0xA9, 0, 0, 3, 0, 0, 0, 0x78, 0x79,
      0x7A][addr.toNat - 0x10000]?).getD 0
  accesses := []
  blocks := []

/-- The result is `"axyz"`. -/
theorem accented_replaces : ∃ s',
    lang.Finishes body ⟨[], fun _ => none, [.i32 0, .i32 8, .i32 16], accented 32⟩ .ret s' ∧
      Built 24 (utf8 (replaceStr ['a', 'é'] ['é'] ['x', 'y', 'z'])) s' :=
  replace_body_replaces (accented 32) 0 8 16 ['a', 'é'] ['é'] ['x', 'y', 'z']
    ⟨by decide +kernel, by decide +kernel, by decide +kernel⟩
    ⟨by decide +kernel, by decide +kernel, by decide +kernel⟩
    ⟨by decide +kernel, by decide +kernel, by decide +kernel⟩ (by decide +kernel)
    (by decide +kernel) ⟨by decide +kernel, by decide +kernel, by decide +kernel⟩

/-- One byte less and the same call traps. -/
theorem accented_traps : HoldsBytes (accented 31) 0 (utf8 ['a', 'é']) ∧
    HoldsBytes (accented 31) 8 (utf8 ['é']) ∧ HoldsBytes (accented 31) 16 (utf8 ['x', 'y', 'z']) ∧
    (utf8 (replaceStr ['a', 'é'] ['é'] ['x', 'y', 'z'])).length < 2 ^ 31 ∧
    ∃ s', lang.Finishes body ⟨[], fun _ => none, [.i32 0, .i32 8, .i32 16], accented 31⟩
      (.trap .boundsViolation) s' := by
  refine ⟨⟨by decide +kernel, by decide +kernel, by decide +kernel⟩,
    ⟨by decide +kernel, by decide +kernel, by decide +kernel⟩,
    ⟨by decide +kernel, by decide +kernel, by decide +kernel⟩, by decide +kernel, ?_⟩
  have ran : (lang.run 200 body ⟨[], fun _ => none, [.i32 0, .i32 8, .i32 16], accented 31⟩).map
      Prod.fst = some (.trap .boundsViolation) := by
    decide +kernel
  obtain ⟨⟨x, s'⟩, ran, rfl⟩ := Option.map_eq_some_iff.mp ran
  exact ⟨s', 200, ran⟩

end Replace

end Relon.Ir
