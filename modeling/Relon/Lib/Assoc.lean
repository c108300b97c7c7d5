import Mathlib.Data.List.Nodup
import Mathlib.Data.List.Perm.Subperm
import Mathlib.Data.String.Basic

/-! Maps from strings, as association lists.

The two maps of the Rust standard library differ in where an entry stands: a
`BTreeMap` keeps its entries sorted by key, a `HashMap` in no order that may be
relied on. Which entry a lookup finds after a write does not depend on it; where a
value lies does. -/
namespace Relon
open List

/-- The contents of a Rust map. -/
abbrev Assoc (α : Type) := List (String × α)

namespace Assoc

variable {α : Type}

/-- `BTreeMap::insert`. -/
def insertSorted : Assoc α → String → α → Assoc α
  | [], k, v => [(k, v)]
  | (k', v') :: rest, k, v =>
    if k = k' then (k, v) :: rest
    else if k < k' then (k, v) :: (k', v') :: rest
    else (k', v') :: insertSorted rest k v

/-- `HashMap::insert`, and the write through `get_mut` of either map: an entry is
replaced where it stands. The order of a hash map's entries is not specified, and
new ones are listed last here. -/
def put : Assoc α → String → α → Assoc α
  | [], k, v => [(k, v)]
  | (k', v') :: rest, k, v => if k = k' then (k, v) :: rest else (k', v') :: put rest k v

/-- The entries of a map, in the order they are listed in; a key has only one. -/
def entries : Assoc α → List (String × α)
  | [] => []
  | e :: rest => e :: (entries rest).filter fun e' => e'.1 != e.1

theorem lookup_put (m : Assoc α) (k k' : String) (v : α) :
    (m.put k v).lookup k' = if k' = k then some v else m.lookup k' := by
  induction m with
  | nil =>
    by_cases h : k' = k
    · simp [put, h]
    · simp [put, h, lookup_cons, beq_eq_false_iff_ne.mpr h]
  | cons e rest ih =>
    obtain ⟨k₀, v₀⟩ := e
    by_cases here : k = k₀
    · subst here
      by_cases h : k' = k
      · simp [put, h]
      · simp [put, h, lookup_cons, beq_eq_false_iff_ne.mpr h]
    · by_cases h : k' = k₀
      · subst h
        simp [put, here, Ne.symm here]
      · simp [put, here, lookup_cons, beq_eq_false_iff_ne.mpr h, ih]

theorem lookup_insertSorted (m : Assoc α) (k k' : String) (v : α) :
    (m.insertSorted k v).lookup k' = if k' = k then some v else m.lookup k' := by
  induction m with
  | nil =>
    by_cases h : k' = k
    · simp [insertSorted, h]
    · simp [insertSorted, h, lookup_cons, beq_eq_false_iff_ne.mpr h]
  | cons e rest ih =>
    obtain ⟨k₀, v₀⟩ := e
    by_cases here : k = k₀
    · subst here
      by_cases h : k' = k
      · simp [insertSorted, h]
      · simp [insertSorted, h, lookup_cons, beq_eq_false_iff_ne.mpr h]
    · by_cases before : k < k₀
      · by_cases h : k' = k
        · simp [insertSorted, here, before, h]
        · simp [insertSorted, here, before, h, lookup_cons, beq_eq_false_iff_ne.mpr h]
      · by_cases h : k' = k₀
        · subst h
          simp [insertSorted, here, before, Ne.symm here]
        · simp [insertSorted, here, before, lookup_cons, beq_eq_false_iff_ne.mpr h, ih]

variable {k k' k₀ : String} {m : Assoc α} {v : α}

theorem insertSorted_below (lt : k < k₀) (v v₀ : α) (rest : Assoc α) :
    insertSorted ((k₀, v₀) :: rest) k v = (k, v) :: (k₀, v₀) :: rest := by
  rw [insertSorted, if_neg lt.ne, if_pos lt]

theorem insertSorted_above (lt : k₀ < k) (v v₀ : α) (rest : Assoc α) :
    insertSorted ((k₀, v₀) :: rest) k v = (k₀, v₀) :: insertSorted rest k v := by
  rw [insertSorted, if_neg lt.ne', if_neg lt.not_gt]

theorem insertSorted_here (k : String) (v v₀ : α) (rest : Assoc α) :
    insertSorted ((k, v₀) :: rest) k v = (k, v) :: rest := by
  rw [insertSorted, if_pos rfl]

/-- Entries under two keys may be written in either order. -/
theorem insertSorted_comm (m : Assoc α) (ne : k ≠ k') (v v' : α) :
    (m.insertSorted k v).insertSorted k' v' = (m.insertSorted k' v').insertSorted k v := by
  wlog lt : k < k' generalizing k k' v v'
  · exact (this ne.symm v' v (lt_of_le_of_ne (not_lt.mp lt) ne.symm)).symm
  induction m with
  | nil =>
    show insertSorted ((k, v) :: []) k' v' = insertSorted ((k', v') :: []) k v
    rw [insertSorted_above lt, insertSorted_below lt]
    rfl
  | cons e rest ih =>
    obtain ⟨k₀, v₀⟩ := e
    rcases lt_trichotomy k k₀ with before | rfl | after
    · rw [insertSorted_below before, insertSorted_above lt]
      rcases lt_trichotomy k' k₀ with before' | rfl | after'
      · rw [insertSorted_below before', insertSorted_below lt]
      · rw [insertSorted_here, insertSorted_below lt]
      · rw [insertSorted_above after', insertSorted_below before]
    · rw [insertSorted_here, insertSorted_above lt, insertSorted_above lt, insertSorted_here]
    · rw [insertSorted_above after, insertSorted_above (after.trans lt),
        insertSorted_above (after.trans lt), insertSorted_above after, ih]

theorem mem_insertSorted {e : String × α} (h : e ∈ m.insertSorted k v) : e = (k, v) ∨ e ∈ m := by
  induction m with
  | nil => exact .inl (mem_singleton.mp h)
  | cons e₀ rest ih =>
    rw [insertSorted] at h
    split at h
    · cases mem_cons.mp h with
      | inl new => exact .inl new
      | inr old => exact .inr (mem_cons_of_mem _ old)
    · split at h
      · exact mem_cons.mp h
      · cases mem_cons.mp h with
        | inl first => exact .inr (first ▸ mem_cons_self)
        | inr later => exact (ih later).imp_right (mem_cons_of_mem _)

theorem mem_of_lookup (h : m.lookup k = some v) : (k, v) ∈ m := by
  induction m with
  | nil => cases h
  | cons e rest ih =>
    rw [lookup_cons] at h
    by_cases here : k = e.1
    · rw [beq_iff_eq.mpr here] at h
      rw [here, ← Option.some.inj h]
      exact mem_cons_self
    · rw [beq_eq_false_iff_ne.mpr here] at h
      exact mem_cons_of_mem _ (ih h)

/-- Writing to an entry that is there moves none. -/
theorem keys_put {v w : α} (there : m.lookup k = some w) :
    (m.put k v).map Prod.fst = m.map Prod.fst := by
  induction m with
  | nil => cases there
  | cons e rest ih =>
    obtain ⟨k₀, v₀⟩ := e
    by_cases here : k = k₀
    · simp [put, here]
    · rw [lookup_cons, beq_eq_false_iff_ne.mpr here] at there
      simp [put, here, ih there]

/-- Where a key is inserted depends on the keys alone. -/
theorem keys_insertSorted {m' : Assoc α} (keys : m.map Prod.fst = m'.map Prod.fst) (k : String)
    (v v' : α) :
    (m.insertSorted k v).map Prod.fst = (m'.insertSorted k v').map Prod.fst := by
  induction m generalizing m' with
  | nil =>
    cases m' with
    | nil => rfl
    | cons e rest => cases keys
  | cons e rest ih =>
    cases m' with
    | nil => cases keys
    | cons e' rest' =>
      obtain ⟨first, rest_⟩ := List.cons.inj keys
      simp only [insertSorted, first]
      split
      · simp only [map_cons, rest_]
      · split
        · simp only [map_cons, rest_]
        · simp only [map_cons, ih rest_]

/-- Writing what is there changes nothing. -/
theorem put_self (there : m.lookup k = some v) : m.put k v = m := by
  induction m with
  | nil => cases there
  | cons e rest ih =>
    obtain ⟨k₀, v₀⟩ := e
    rw [lookup_cons] at there
    by_cases here : k = k₀
    · rw [beq_iff_eq.mpr here] at there
      rw [put, if_pos here, here, ← Option.some.inj there]
    · rw [beq_eq_false_iff_ne.mpr here] at there
      rw [put, if_neg here, ih there]

/-- Where a key stands in the list. -/
def rank (m : Assoc α) (k : String) : Nat := m.findIdx fun e => e.1 == k

theorem rank_cons (e : String × α) (m : Assoc α) (k : String) :
    rank (e :: m) k = if k = e.1 then 0 else rank m k + 1 := by
  by_cases h : k = e.1
  · simp [rank, findIdx_cons, h]
  · simp [rank, findIdx_cons, beq_eq_false_iff_ne.mpr (Ne.symm h), h]

theorem rank_congr {m m' : Assoc α} (keys : m.map Prod.fst = m'.map Prod.fst) (k : String) :
    m.rank k = m'.rank k := by
  have byKeys : ∀ m : Assoc α, m.rank k = (m.map Prod.fst).findIdx (· == k) := by
    intro m
    rw [rank, findIdx_map]
    rfl
  rw [byKeys, byKeys, keys]

theorem rank_inj {v v' : α} (h : m.lookup k = some v) (h' : m.lookup k' = some v')
    (same : m.rank k = m.rank k') : k = k' := by
  induction m with
  | nil => cases h
  | cons e rest ih =>
    rw [rank_cons, rank_cons] at same
    by_cases first : k = e.1 <;> by_cases first' : k' = e.1
    · rw [first, first']
    · simp [first, first'] at same
    · simp [first, first'] at same
    · rw [lookup_cons, beq_eq_false_iff_ne.mpr first] at h
      rw [lookup_cons, beq_eq_false_iff_ne.mpr first'] at h'
      exact ih h h' (by simpa [first, first'] using same)

theorem entries_nodup (m : Assoc α) : (m.entries.map Prod.fst).Nodup := by
  induction m with
  | nil => exact nodup_nil
  | cons e rest ih =>
    rw [entries, map_cons, nodup_cons]
    refine ⟨?_, ?_⟩
    · simp
    · exact ih.sublist (filter_sublist.map _)

end Assoc

end Relon
