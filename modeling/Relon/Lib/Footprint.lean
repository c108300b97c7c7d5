import Relon.Lib.Bytes
import Relon.Lib.Except

/-! What part of a byte slice a computation depends on.

`Confined C allowed bytes R`: on every slice that agrees with `bytes` at the
positions in `C`, the computation `R` ends the same way, with a value or with an
`allowed` error. The rules below follow the combinators a decoder is written
with, so a bounds argument goes along its text. -/
namespace Relon.Footprint
open Relon.Bytes Relon.Except

variable {ε α β : Type}

/-- The same length, and the same bytes at the positions in `C`. -/
structure Agree (C : Nat → Prop) (bytes bytes' : List UInt8) : Prop where
  length : bytes'.length = bytes.length
  same : ∀ i, C i → bytes'[i]? = bytes[i]?

section Agree
variable {C : Nat → Prop} {bytes bytes' : List UInt8} {p n : Nat}

theorem Agree.refl (C : Nat → Prop) (bytes : List UInt8) : Agree C bytes bytes :=
  ⟨rfl, fun _ _ => rfl⟩

theorem Agree.slice_eq (h : Agree C bytes bytes') (hC : ∀ i, p ≤ i → i < p + n → C i) :
    slice bytes' p n = slice bytes p n :=
  slice_congr fun k hk => h.same _ (hC _ (by omega) (by omega))

theorem Agree.getD_eq (h : Agree C bytes bytes') (hC : C p) (d : UInt8) :
    bytes'.getD p d = bytes.getD p d := by
  rw [List.getD_eq_getElem?_getD, List.getD_eq_getElem?_getD, h.same p hC]

end Agree

/-- `R` ends the same way wherever the bytes in `C` are those of `bytes`. -/
def Confined (C : Nat → Prop) (allowed : ε → Prop) (bytes : List UInt8)
    (R : List UInt8 → Except ε α) : Prop :=
  ∃ res, (∀ e, res = .error e → allowed e) ∧ ∀ bytes', Agree C bytes bytes' → R bytes' = res

section Confined
variable {C : Nat → Prop} {allowed : ε → Prop} {bytes : List UInt8} {R G : List UInt8 → Except ε α}

theorem Confined.allowed_of_error (h : Confined C allowed bytes R) {e : ε} (he : R bytes = .error e) :
    allowed e := by
  obtain ⟨res, hres, hR⟩ := h
  exact hres e ((hR bytes (.refl C bytes)).symm.trans he)

theorem Confined.eq_of_agree (h : Confined C allowed bytes R) {bytes' : List UInt8}
    (hb : Agree C bytes bytes') : R bytes' = R bytes := by
  obtain ⟨res, -, hR⟩ := h
  rw [hR bytes' hb, hR bytes (.refl C bytes)]

theorem Confined.congr (h : Confined C allowed bytes G)
    (heq : ∀ bytes', Agree C bytes bytes' → R bytes' = G bytes') : Confined C allowed bytes R := by
  obtain ⟨res, hres, hR⟩ := h
  exact ⟨res, hres, fun bytes' hb => (heq bytes' hb).trans (hR bytes' hb)⟩

theorem confined_const {res : Except ε α} (h : ∀ e, res = .error e → allowed e) :
    Confined C allowed bytes fun _ => res :=
  ⟨res, h, fun _ _ => rfl⟩

/-- A computation that does not look at the bytes, with every error allowed. -/
theorem confined_any {res : Except ε α} : Confined C (fun _ => True) bytes fun _ => res :=
  confined_const fun _ _ => trivial

theorem confined_ok (a : α) : Confined C allowed bytes fun _ => (.ok a : Except ε α) :=
  confined_const (by simp)

theorem Confined.bind {K : List UInt8 → α → Except ε β} (h : Confined C allowed bytes R)
    (hK : ∀ a, R bytes = .ok a → Confined C allowed bytes fun bs => K bs a) :
    Confined C allowed bytes fun bs => R bs >>= K bs := by
  obtain ⟨res, hres, hR⟩ := h
  cases res with
  | error e =>
    refine ⟨.error e, fun _ he => hres _ (by cases he; rfl), fun bytes' hb => ?_⟩
    simp only [hR bytes' hb, error_bind]
  | ok a =>
    refine (hK a (hR bytes (.refl C bytes))).congr fun bytes' hb => ?_
    simp only [hR bytes' hb, ok_bind]

theorem Confined.map (h : Confined C allowed bytes R) (g : α → β) :
    Confined C allowed bytes fun bs => R bs >>= fun a => .ok (g a) :=
  h.bind fun a _ => confined_ok (g a)

theorem confined_mapM {l : List β} {F : List UInt8 → β → Except ε α}
    (h : ∀ x ∈ l, Confined C allowed bytes fun bs => F bs x) :
    Confined C allowed bytes fun bs => l.mapM (F bs) := by
  induction l with
  | nil => exact confined_ok []
  | cons x l ih =>
    refine Confined.congr (G := fun bs => F bs x >>= fun a => l.mapM (F bs) >>= fun as => .ok (a :: as))
      ?_ fun bs _ => List.mapM_cons
    exact (h x (by simp)).bind fun a _ =>
      (ih fun y hy => h y (List.mem_cons_of_mem x hy)).map (a :: ·)

theorem confined_forM {l : List β} {F : List UInt8 → β → Except ε Unit}
    (h : ∀ x ∈ l, Confined C allowed bytes fun bs => F bs x) :
    Confined C allowed bytes fun bs => l.forM (F bs) := by
  induction l with
  | nil => exact confined_ok ()
  | cons x l ih =>
    exact (h x (by simp)).bind fun _ _ => ih fun y hy => h y (List.mem_cons_of_mem x hy)

end Confined

end Relon.Footprint
