import Relon.Lib.Bytes

/-! Relocatable images: a byte buffer that remembers which bytes spell a pointer.

An image cell is either a plain byte or byte `k` of a 4-byte little-endian
pointer to a known target. `render` forgets the difference and gives the byte
buffer a program really holds. Adding a base to the pointer stored at a slot is,
on the image, a change of that slot's target (`rebase`), so what a relocation
pass has done so far is the list of slots it has visited, and nothing about
carries between bytes has to be said. -/
namespace Relon.Reloc
open Relon.Bytes List

inductive Cell where
  | byte (b : UInt8)
  | ptr (target : Nat) (k : Fin 4)
  deriving DecidableEq, Repr

def Cell.render : Cell → UInt8
  | .byte b => b
  | .ptr t k => leByte t k

abbrev Image := List Cell

/-- The bytes of an image. -/
def render (m : Image) : List UInt8 := m.map Cell.render

/-- Plain bytes as an image. -/
def ofBytes (bs : List UInt8) : Image := bs.map .byte

/-- The four cells of a pointer to `t`. -/
def pointer (t : Nat) : Image := [.ptr t 0, .ptr t 1, .ptr t 2, .ptr t 3]

/-- The bytes `bs` stand at `p`. -/
def BytesAt (m : Image) (p : Nat) (bs : List UInt8) : Prop := Holds m p (ofBytes bs)

/-- A pointer to `t` stands at `p`. -/
def PtrAt (m : Image) (p t : Nat) : Prop := Holds m p (pointer t)

/-! ### Rendering -/

@[simp] theorem length_render (m : Image) : (render m).length = m.length := by
  simp [render]

@[simp] theorem length_ofBytes (bs : List UInt8) : (ofBytes bs).length = bs.length := by
  simp [ofBytes]

@[simp] theorem length_pointer (t : Nat) : (pointer t).length = 4 := rfl

@[simp] theorem render_append (a b : Image) : render (a ++ b) = render a ++ render b := by
  simp [render]

@[simp] theorem render_ofBytes (bs : List UInt8) : render (ofBytes bs) = bs := by
  simp [render, ofBytes, Function.comp_def, Cell.render]

@[simp] theorem render_pointer (t : Nat) : render (pointer t) = leBytes 4 t := by
  show [leByte t 0, leByte t 1, leByte t 2, leByte t 3] = _
  simp [leBytes, leByte, Nat.div_div_eq_div_mul]

@[simp] theorem ofBytes_append (a b : List UInt8) : ofBytes (a ++ b) = ofBytes a ++ ofBytes b := by
  simp [ofBytes]

@[simp] theorem render_patch (m : Image) (p : Nat) (src : Image) :
    render (patch m p src) = patch (render m) p (render src) := by
  simp [render, patch, map_drop, map_take]

section Reads
variable {m : Image} {p t : Nat} {bs : List UInt8}

theorem BytesAt.holds_render (h : BytesAt m p bs) : Holds (render m) p bs := by
  have := h.map Cell.render
  rwa [show (ofBytes bs).map Cell.render = bs from render_ofBytes bs] at this

theorem PtrAt.holds_render (h : PtrAt m p t) : Holds (render m) p (leBytes 4 t) := by
  have := h.map Cell.render
  rwa [show (pointer t).map Cell.render = leBytes 4 t from render_pointer t] at this

theorem PtrAt.le_length (h : PtrAt m p t) : p + 4 ≤ m.length := by
  have := Holds.le_length h (by simp [pointer])
  simpa using this

/-- Reading the slot of a pointer gives its target. -/
theorem PtrAt.leNat_slice (h : PtrAt m p t) (ht : t < 2 ^ 32) : leNat (slice (render m) p 4) = t := by
  have hs := slice_of_holds h.holds_render
  rw [length_leBytes] at hs
  rw [hs, leNat_leBytes (by simpa using ht)]

theorem BytesAt.slice_eq (h : BytesAt m p bs) : slice (render m) p bs.length = bs :=
  slice_of_holds h.holds_render

theorem bytesAt_append {cs : List UInt8} :
    BytesAt m p (bs ++ cs) ↔ BytesAt m p bs ∧ BytesAt m (p + bs.length) cs := by
  simp [BytesAt, holds_append]

end Reads

/-! ### Relocation -/

/-- Every pointer whose slot is in `visited` is moved by `base`. -/
def rebase (base : Nat) (visited : List Nat) (m : Image) : Image :=
  m.mapIdx fun i c =>
    match c with
    | .byte b => .byte b
    | .ptr t k => if i - k ∈ visited then .ptr (t + base) k else .ptr t k

section Rebase
variable {base : Nat} {visited : List Nat} {m : Image} {p t : Nat}

@[simp] theorem length_rebase : (rebase base visited m).length = m.length := by
  simp [rebase]

@[simp] theorem rebase_nil : rebase base [] m = m := by
  apply ext_getElem?
  intro i
  rw [rebase, getElem?_mapIdx]
  cases h : m[i]? with
  | none => rfl
  | some c => cases c <;> simp

theorem getElem?_rebase_byte {i : Nat} {b : UInt8} (h : m[i]? = some (.byte b)) :
    (rebase base visited m)[i]? = some (.byte b) := by
  rw [rebase, getElem?_mapIdx, h]
  rfl

theorem getElem?_rebase_ptr {i : Nat} {k : Fin 4} (h : m[i]? = some (.ptr t k)) :
    (rebase base visited m)[i]? =
      some (if i - k ∈ visited then .ptr (t + base) k else .ptr t k) := by
  rw [rebase, getElem?_mapIdx, h]
  rfl

theorem BytesAt.rebase {bs : List UInt8} (h : BytesAt m p bs) :
    BytesAt (rebase base visited m) p bs := by
  intro k c hc
  have hm := h k c hc
  rw [ofBytes, getElem?_map, Option.map_eq_some_iff] at hc
  obtain ⟨b, -, rfl⟩ := hc
  exact getElem?_rebase_byte hm

theorem getElem?_pointer {k : Nat} {c : Cell} (h : (pointer t)[k]? = some c) :
    ∃ hk : k < 4, c = .ptr t ⟨k, hk⟩ := by
  match k, h with
  | 0, h => exact ⟨by omega, by simpa [pointer] using h.symm⟩
  | 1, h => exact ⟨by omega, by simpa [pointer] using h.symm⟩
  | 2, h => exact ⟨by omega, by simpa [pointer] using h.symm⟩
  | 3, h => exact ⟨by omega, by simpa [pointer] using h.symm⟩
  | k + 4, h => simp [pointer] at h

theorem PtrAt.getElem? (h : PtrAt m p t) {k : Nat} (hk : k < 4) :
    m[p + k]? = some (.ptr t ⟨k, hk⟩) := by
  apply h
  match k, hk with
  | 0, _ => rfl
  | 1, _ => rfl
  | 2, _ => rfl
  | 3, _ => rfl

/-- A visited slot points `base` further. -/
theorem PtrAt.rebase_of_mem (h : PtrAt m p t) (hv : p ∈ visited) :
    PtrAt (rebase base visited m) p (t + base) := by
  intro k c hc
  obtain ⟨hk, rfl⟩ := getElem?_pointer hc
  rw [getElem?_rebase_ptr (h.getElem? hk)]
  simp [hv]

/-- A slot not yet visited is as it was. -/
theorem PtrAt.rebase_of_not_mem (h : PtrAt m p t) (hv : p ∉ visited) :
    PtrAt (rebase base visited m) p t := by
  intro k c hc
  obtain ⟨hk, rfl⟩ := getElem?_pointer hc
  rw [getElem?_rebase_ptr (h.getElem? hk)]
  simp [hv]

/-- Overwriting a slot by its moved pointer is one more visited slot. -/
theorem patch_rebase (h : PtrAt m p t) :
    patch (rebase base visited m) p (pointer (t + base)) = rebase base (p :: visited) m := by
  have hlen := h.le_length
  apply ext_getElem?
  intro i
  by_cases hin : p ≤ i ∧ i < p + 4
  · obtain ⟨k, rfl⟩ : ∃ k, i = p + k := ⟨i - p, by omega⟩
    have hk : k < 4 := by omega
    have hptr : PtrAt (rebase base (p :: visited) m) p (t + base) := h.rebase_of_mem (by simp)
    rw [hptr.getElem? hk]
    have hp : PtrAt (patch (rebase base visited m) p (pointer (t + base))) p (t + base) :=
      holds_patch (by simp; omega)
    exact hp.getElem? hk
  · rw [getElem?_patch_of_disjoint (by simp; omega) (by simp; omega)]
    cases hi : m[i]? with
    | none => simp [rebase, getElem?_mapIdx, hi]
    | some c =>
      cases c with
      | byte b => rw [getElem?_rebase_byte hi, getElem?_rebase_byte hi]
      | ptr t' k =>
        have hne : i - k.val ≠ p := by omega
        rw [getElem?_rebase_ptr hi, getElem?_rebase_ptr hi]
        simp [hne]

@[simp] theorem rebase_zero : rebase 0 visited m = m := by
  apply ext_getElem?
  intro i
  rw [rebase, getElem?_mapIdx]
  cases h : m[i]? with
  | none => rfl
  | some c => cases c <;> simp

/-- Away from the visited slots nothing changes. -/
theorem getElem?_rebase_apart {i : Nat} (h : ∀ p ∈ visited, i < p ∨ p + 4 ≤ i) :
    (rebase base visited m)[i]? = m[i]? := by
  cases hm : m[i]? with
  | none =>
    rw [getElem?_eq_none_iff] at hm ⊢
    rwa [length_rebase]
  | some c =>
    cases c with
    | byte b => exact getElem?_rebase_byte hm
    | ptr t k =>
      rw [getElem?_rebase_ptr hm, if_neg]
      intro hk
      have := h _ hk
      have := k.isLt
      omega

theorem rebase_congr {visited' : List Nat} (h : ∀ x, x ∈ visited ↔ x ∈ visited') :
    rebase base visited m = rebase base visited' m := by
  simp [rebase, h]

end Rebase

end Relon.Reloc
