import Relon.Ir.Exec
import Relon.Ir.Strings

/-! Whether a string stands at a place of another (`match_from_at_i`).

`replace` and `split` run this loop at every byte. It compares byte by byte and stops at the
first that differs; the invariant is that the bytes compared so far agree. -/
namespace Relon.Ir.Replace

open Codegen Control Bytes Run

section
variable {m : Machine} {p q k cursor : Nat} {args : List Nat} {sb fb : List UInt8} {extra : Slots}
  {d : Stream} {Q : Exit TrapKind → State → Prop}

/-- The slots a match reads: the two lengths and the cursor. -/
abbrev around (cursor S F k : Nat) (extra : Slots) : Slots :=
  (sLen, S) :: (fLen, F) :: (cursor, k) :: extra

/-- The other slots a match sets. -/
abbrev scratch (cursor : Nat) : List Nat := [sLen, fLen, cursor, matchFlag, j, sink, Replace.sb, byte]

/-- Slots of the code around that a match leaves alone. -/
structure Outer (cursor : Nat) (extra : Slots) : Prop where
  clean : extra.Within extra
  apart : ∀ e ∈ extra, e.1 ∉ scratch cursor

theorem Outer.skips (outer : Outer cursor extra) :
    ∀ set : Slots, (set.all fun e => (scratch cursor).contains e.1) = true →
      Slots.Within (set ++ extra) extra
  | [], _ => outer.clean
  | e :: set, scratched => by
    obtain ⟨here, rest⟩ := Bool.and_eq_true_iff.mp scratched
    refine .cons (fun o mem same => outer.apart o mem ?_) (outer.skips set rest)
    rw [same]
    exact List.contains_iff_mem.mp here

/-- Whether the pattern stands at the cursor. -/
def flag (fb rest : List UInt8) : Nat := if fb <+: rest then 1 else 0

theorem take_succ_prefix {n : Nat} (hf : n < fb.length) (hs : k + n < sb.length)
    (so_far : fb.take n <+: sb.drop k) (equal : sb[k + n] = fb[n]) :
    fb.take (n + 1) <+: sb.drop k := by
  have here : n < (sb.drop k).length := by
    rw [List.length_drop]
    omega
  have same := List.prefix_iff_eq_take.mp so_far
  rw [List.length_take, Nat.min_eq_left (by omega)] at same
  rw [List.take_succ_eq_append_getElem hf, same, ← equal, ← List.getElem_drop (h := here),
    ← List.take_succ_eq_append_getElem here]
  exact List.take_prefix ..

theorem run_match (place : cursor = 5 ∨ cursor = 6) (outer : Outer cursor extra)
    (holdsS : HoldsBytes m p sb) (holdsF : HoldsBytes m q fb)
    (short : sb.length + fb.length < 2 ^ 31) (within : k ≤ sb.length)
    (behind : Run (p :: q :: args) m Q d []
      ((matchFlag, flag fb (sb.drop k)) :: (sink, 0) :: around cursor sb.length fb.length k extra)) :
    Run (p :: q :: args) m Q (matchFromAtI sLen fLen cursor matchFlag j sink Replace.sb byte ++ d) []
      (around cursor sb.length fb.length k extra) := by
  -- the two bodies that match keep their cursor in different slots
  obtain rfl | rfl := place
  all_goals
    simp only [matchFromAtI, ops_cons, ops_nil, List.cons_append, List.nil_append]
    refine steps [sb.length, k + fb.length] _ rfl (ifCmp (fun long => ?_) fun fits => ?_)
    · have long : sb.length < k + fb.length := of_decide_eq_true long
      have none : flag fb (sb.drop k) = 0 := if_neg fun starts => by
        have := starts.length_le
        rw [List.length_drop] at this
        omega
      rw [none] at behind
      refine steps [0] _ rfl (join (letSet (forget behind ?_)))
      exact ⟨rfl, rfl, rfl, rfl, rfl, outer.skips [(_, _), (_, _), (_, _), (_, _), (_, _)] rfl⟩
    · have fits : ¬ sb.length < k + fb.length := of_decide_eq_false fits
      refine steps [] ((j, 0) :: (matchFlag, 1) :: around _ sb.length fb.length k extra) rfl
        (blockLoop (fun _ => m)
          (fun x : {n // n ≤ fb.length ∧ fb.take n <+: sb.drop k} =>
            (j, x.1) :: (matchFlag, 1) :: around _ sb.length fb.length k extra)
          (fun x => fb.length - x.1) ⟨0, Nat.zero_le _, List.nil_prefix⟩ ?_)
      rintro ⟨n, le, so_far⟩ Q' again out
      dsimp only at again ⊢
      refine steps [fb.length, n] _ rfl (brIfCmp (fun all s here => ?_) fun more => ?_)
      · have all : fb.length ≤ n := of_decide_eq_true all
        rw [List.take_of_length_le all] at so_far
        rw [flag, if_pos so_far] at behind
        refine out m _ s (steps [0] _ rfl (join (letSet (forget behind ?_)))) here
        exact ⟨rfl, rfl, rfl, rfl, rfl,
          outer.skips [(_, _), (_, _), (_, _), (_, _), (_, _), (_, _)] rfl⟩
      have more : ¬ fb.length ≤ n := of_decide_eq_false more
      have insideS := holdsS.inside
      have insideF := holdsF.inside
      have hereS : m.mem.view m.arenaBase (p + 4 + k + n) = sb[k + n] := by
        rw [← holdsS.view (show k + n < sb.length by omega), Nat.add_assoc (p + 4)]
      have hereF : m.mem.view m.arenaBase (q + 4 + n) = fb[n] := holdsF.view (by omega)
      have byteS := (sb[k + n]).toNat_lt
      have byteF := (fb[n]).toNat_lt
      refine steps [p + 4 + k + n] _ rfl (loadByte ?_)
      rw [hereS]
      refine steps [q + 4 + n] _ rfl (loadByte ?_)
      rw [hereF]
      refine steps [(fb[n]).toNat, (sb[k + n]).toNat] _ rfl (cmp ?_)
      by_cases equal : sb[k + n] = fb[n]
      · have next : fb.take (n + 1) <+: sb.drop k := take_succ_prefix (by omega) (by omega) so_far equal
        rw [equal, show Cmp.eq.onNat (fb[n]).toNat (fb[n]).toNat = true from beq_self_eq_true _]
        refine steps [0, 1] _ rfl (brIfCmp nofun fun _ => ?_)
        refine steps [] _ rfl (again ⟨n + 1, by omega, next⟩ (by dsimp only; omega) ?_)
        exact ⟨rfl, rfl, rfl, rfl, rfl,
          outer.skips [(_, _), (_, _), (_, _), (_, _), (_, _), (_, _), (_, _), (_, _), (_, _)] rfl⟩
      · have differ : Cmp.eq.onNat (sb[k + n]).toNat (fb[n]).toNat = false :=
          beq_false_of_ne fun same => equal (UInt8.toNat_inj.mp same)
        have none : flag fb (sb.drop k) = 0 := if_neg fun starts => by
          have same := starts.getElem (show n < fb.length by omega)
          rw [List.getElem_drop] at same
          exact equal same.symm
        rw [none] at behind
        rw [differ]
        refine steps [0, 0] _ rfl (brIfCmp (fun _ s here => ?_) nofun)
        refine out m _ s (steps [0] _ rfl (join (letSet (forget behind ?_)))) here
        exact ⟨rfl, rfl, rfl, rfl, rfl,
          outer.skips [(_, _), (_, _), (_, _), (_, _), (_, _), (_, _), (_, _), (_, _), (_, _)] rfl⟩

end

end Relon.Ir.Replace
