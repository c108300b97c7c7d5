import Relon.Eval.Plain
import Mathlib.Data.List.Infix

/-! How the meaning of a plain document is put together.

One equation for each form of node, over approximations; every value is data; a
name has one binder; and there are finitely many fields. -/
namespace Relon.Eval
open List Option Approx

/-! ### The shape of plain nodes -/

variable {n : Node} {id : Nat} {pairs : List (TokenKey × Node)} {range : TokenRange}

theorem Term.not_dict (h : Term n) : n.expr.isDict = false := by
  cases h <;> rfl

theorem Node.child_of_not_dict (h : n.expr.isDict = false) (key : String) : n.child key = none := by
  unfold Node.child
  split
  · rename_i pairs isDict
    rw [isDict] at h
    cases h
  · rfl

theorem Node.child_mem {key : String} {c : Node}
    (h : (Node.mk id (.dict pairs) [] [] none range).child key = some c) :
    ∃ k, (k, c) ∈ pairs ∧ k.name = key := by
  obtain ⟨e, found, rfl⟩ := map_eq_some_iff.mp h
  exact ⟨e.1, List.mem_of_find?_eq_some found, by simpa using List.find?_some found⟩

/-- Distinct keys: each entry is the one its key finds. -/
theorem Node.child_of_mem (distinct : (pairs.map fun e => e.1.name).Nodup) {e : TokenKey × Node}
    (he : e ∈ pairs) : (Node.mk id (.dict pairs) [] [] none range).child e.1.name = some e.2 := by
  show (pairs.find? fun e' => e'.1.name == e.1.name).map Prod.snd = some e.2
  induction pairs with
  | nil => cases he
  | cons e₀ rest ih =>
    rw [map_cons, nodup_cons] at distinct
    cases mem_cons.mp he with
    | inl here => simp [here]
    | inr later =>
      have other : (e₀.1.name == e.1.name) = false :=
        beq_eq_false_iff_ne.mpr fun same =>
          distinct.1 (mem_map.mpr ⟨e, later, same.symm⟩)
      rw [List.find?_cons_of_neg (by simp [other])]
      exact ih distinct.2 later

namespace Plain

theorem child {n c : Node} {key : String} (h : Plain n) (at_ : n.child key = some c) : Plain c := by
  cases h with
  | term h => rw [Node.child_of_not_dict h.not_dict] at at_; cases at_
  | dict static distinct fields =>
    obtain ⟨k, mem, -⟩ := Node.child_mem at_
    exact fields _ mem

theorem atPath {n c : Node} {p : List String} (h : Plain n) (at_ : n.atPath p = some c) :
    Plain c := by
  induction p generalizing n with
  | nil =>
    cases at_
    exact h
  | cons key rest ih =>
    obtain ⟨m, first, later⟩ := bind_eq_some_iff.mp at_
    exact ih (h.child first) later

/-- There are only so many fields. -/
theorem finite {n : Node} (h : Plain n) :
    ∃ paths : List (List String), ∀ p, (n.atPath p).isSome → p ∈ paths := by
  induction h with
  | term h =>
    refine ⟨[[]], fun p at_ => ?_⟩
    cases p with
    | nil => exact mem_cons_self
    | cons key rest => simp [Node.atPath, Node.child_of_not_dict h.not_dict] at at_
  | dict static distinct fields ih =>
    rename_i id pairs range
    choose paths covers using ih
    refine ⟨[] :: pairs.attach.flatMap fun e =>
      (paths e.1 e.2).map fun p => e.1.1.name :: p, fun p at_ => ?_⟩
    cases p with
    | nil => exact mem_cons_self
    | cons key rest =>
      obtain ⟨c, here⟩ := isSome_iff_exists.mp at_
      obtain ⟨m, first, later⟩ := bind_eq_some_iff.mp here
      obtain ⟨k, mem, rfl⟩ := Node.child_mem first
      refine mem_cons_of_mem _ (mem_flatMap.mpr ⟨⟨(k, m), mem⟩, mem_attach _ _, ?_⟩)
      exact mem_map.mpr ⟨rest, covers _ mem rest (isSome_of_eq_some later), rfl⟩

end Plain

/-! ### Values are data -/

section
variable {ctx : Context} {doc : Node} {f : List String → Option Value}

variable {v : Value} {p : List String} {n : Node}

theorem follow_data (hf : ∀ q v, f q = some v → Data v) {q path : List String}
    (h : follow doc f q path = some v) : Data v := by
  induction path generalizing q with
  | nil => exact hf q v h
  | cons key rest ih =>
    rw [follow] at h
    cases at_ : doc.atPath (q ++ [key]) with
    | none => rw [at_] at h; cases h
    | some n =>
      simp only [at_] at h
      split_ifs at h
      · exact ih h
      · obtain ⟨w, hw, hv⟩ := bind_eq_some_iff.mp h
        exact (hf _ w hw).stepAll hv

theorem termValue_data (uncapped : ctx.maxValueElements = none) (hf : ∀ q v, f q = some v → Data v)
    (h : termValue ctx doc f p n = some v) : Data v := by
  fun_induction termValue ctx doc f p n generalizing v with
  | case1 => cases h; exact .bool _
  | case2 => cases h; exact .int _
  | case3 => cases h; exact .float _
  | case4 => cases h; exact .string _
  | case5 =>
    obtain ⟨w, hw, hv⟩ := bind_eq_some_iff.mp h
    obtain ⟨q, -, hw⟩ := bind_eq_some_iff.mp hw
    exact (hf q w hw).stepAll hv
  | case6 => exact follow_data hf h
  | case7 =>
    obtain ⟨w, -, hv⟩ := bind_eq_some_iff.mp h
    exact unaryValue_data ctx hv
  | case8 _ _ _ _ _ _ _ ihl ihr =>
    obtain ⟨w, hw, hv⟩ := bind_eq_some_iff.mp h
    split_ifs at hv
    · exact ihr hv
    · cases hv; exact ihl hw
  | case9 _ _ _ _ _ _ _ ihl ihr =>
    obtain ⟨w, hw, hv⟩ := bind_eq_some_iff.mp h
    split_ifs at hv
    · cases hv; exact ihl hw
    · exact ihr hv
  | case10 _ _ _ _ _ _ _ _ _ _ ihl ihr =>
    obtain ⟨a, ha, hv⟩ := bind_eq_some_iff.mp h
    obtain ⟨b, hb, hv⟩ := bind_eq_some_iff.mp hv
    exact binaryValue_data uncapped (ihl ha) (ihr hb) hv
  | case11 _ _ _ _ _ _ _ _ _ iht ihe =>
    obtain ⟨w, hw, hv⟩ := bind_eq_some_iff.mp h
    split_ifs at hv
    · exact iht hv
    · exact ihe hv
  | case12 => cases h

variable {f : String → Option Value} {pairs : List (TokenKey × Node)} {map out : Assoc Value}

theorem collect_some (h : collect f pairs map = some out) : ∀ e ∈ pairs, (f e.1.name).isSome := by
  induction pairs generalizing map with
  | nil => exact fun _ none => absurd none not_mem_nil
  | cons e rest ih =>
    obtain ⟨v, hv, h⟩ := bind_eq_some_iff.mp h
    exact forall_mem_cons.mpr ⟨isSome_of_eq_some hv, ih h⟩

theorem collect_data (hf : ∀ k v, f k = some v → Data v) (hm : ∀ e ∈ map, Data e.2)
    (h : collect f pairs map = some out) : ∀ e ∈ out, Data e.2 := by
  induction pairs generalizing map with
  | nil =>
    cases h
    exact hm
  | cons e rest ih =>
    obtain ⟨v, hv, h⟩ := bind_eq_some_iff.mp h
    exact ih (Data.insertSorted hm (hf _ v hv)) h

theorem fieldValue_data (uncapped : ctx.maxValueElements = none) {depth : Nat}
    (h : fieldValue ctx doc depth p = some v) : Data v := by
  induction depth generalizing p v with
  | zero => cases h
  | succ depth ih =>
    obtain ⟨n, -, h⟩ := bind_eq_some_iff.mp h
    unfold nodeValue at h
    split at h
    · obtain ⟨map, hm, rfl⟩ := map_eq_some_iff.mp h
      exact .dict (collect_data (fun _ _ => ih) (fun _ none => absurd none not_mem_nil) hm)
    · exact termValue_data uncapped (fun _ _ => ih) h

theorem field_data (uncapped : ctx.maxValueElements = none) (h : (field ctx doc p).Has v) :
    Data v := by
  obtain ⟨k, h⟩ := h
  exact fieldValue_data uncapped h

theorem term_data (uncapped : ctx.maxValueElements = none) (h : (term ctx doc p n).Has v) :
    Data v := by
  obtain ⟨k, h⟩ := h
  exact termValue_data uncapped (fun _ _ => fieldValue_data uncapped) h

end

/-! ### The host's document

References resolve against the document the meaning is about, and operators on data
need none, so that the document a host is given plays no part. -/

section
variable {ctx : Context} {doc : Node} {f : List String → Option Value}

theorem termValue_root (uncapped : ctx.maxValueElements = none)
    (hf : ∀ q v, f q = some v → Data v) (root : Option Node) (p : List String) (n : Node) :
    termValue { ctx with rootNode := root } doc f p n = termValue ctx doc f p n := by
  fun_induction termValue ctx doc f p n with
  | case7 _ _ _ _ _ _ _ ih => simp only [termValue, ih, unaryValue_root]
  | case8 _ _ _ _ _ _ _ ihl ihr => simp only [termValue, ihl, ihr, isTruthy_root]
  | case9 _ _ _ _ _ _ _ ihl ihr => simp only [termValue, ihl, ihr, isTruthy_root]
  | case10 _ _ _ _ _ _ _ _ notAnd notOr ihl ihr =>
    rw [termValue, ihl, ihr]
    · refine Option.bind_congr fun v hv => Option.bind_congr fun w hw => ?_
      exact binaryValue_root uncapped _ (termValue_data uncapped hf hv)
        (termValue_data uncapped hf hw) root
    · exact notAnd
    · exact notOr
  | case11 _ _ _ _ _ _ _ _ ihc iht ihe => simp only [termValue, ihc, iht, ihe, isTruthy_root]
  | case12 => rw [termValue] <;> assumption
  | _ => rw [termValue]

theorem fieldValue_root (uncapped : ctx.maxValueElements = none) (root : Option Node) (depth : Nat) :
    fieldValue { ctx with rootNode := root } doc depth = fieldValue ctx doc depth := by
  induction depth with
  | zero => rfl
  | succ depth ih =>
    funext p
    rw [fieldValue, fieldValue, ih]
    refine Option.bind_congr fun n _ => ?_
    unfold nodeValue
    split
    · rfl
    · exact termValue_root uncapped (fun _ _ => fieldValue_data uncapped) root p n

theorem field_root (uncapped : ctx.maxValueElements = none) (root : Option Node) :
    field { ctx with rootNode := root } doc = field ctx doc := by
  funext p
  refine ext fun k => ?_
  show fieldValue _ doc k p = _
  rw [fieldValue_root uncapped]
  rfl

end

/-! ### One equation for each form -/

section
variable {ctx : Context} {doc : Node} {p : List String}

variable {id : Nat} {op : Operator} {l n r : Node} {range : TokenRange} {first : TokenKey}
  {q rest : List String} {key : String} {pairs : List (TokenKey × Node)}

theorem term_unary : term ctx doc p (.mk id (.unary op n) [] [] none range) =
      (term ctx doc p n).bind fun v => .known (unaryValue ctx op v) :=
  Approx.ext fun _ => rfl

theorem term_and : term ctx doc p (.mk id (.binary .and l r) [] [] none range) =
      (term ctx doc p l).bind fun v =>
        if v.isTruthy ctx then term ctx doc p r else .known (some v) := by
  refine ext fun k => congrArg (Option.bind _) (funext fun v => ?_)
  simp only [apply_ite (upTo · k)]
  rfl

theorem term_or : term ctx doc p (.mk id (.binary .or l r) [] [] none range) =
      (term ctx doc p l).bind fun v =>
        if v.isTruthy ctx then .known (some v) else term ctx doc p r := by
  refine ext fun k => congrArg (Option.bind _) (funext fun v => ?_)
  simp only [apply_ite (upTo · k)]
  rfl

theorem term_binary (notAnd : op ≠ .and) (notOr : op ≠ .or) :
    term ctx doc p (.mk id (.binary op l r) [] [] none range) =
      (term ctx doc p l).bind fun v => (term ctx doc p r).bind fun w =>
        .known (binaryValue ctx op v w) := by
  refine ext fun k => ?_
  show termValue ctx doc _ p _ = _
  rw [termValue]
  · rfl
  · exact notAnd
  · exact notOr

theorem term_ternary {c t e : Node} : term ctx doc p (.mk id (.ternary c t e) [] [] none range) =
      (term ctx doc p c).bind fun v =>
        if v.isTruthy ctx then term ctx doc p t else term ctx doc p e := by
  refine ext fun k => congrArg (Option.bind _) (funext fun v => ?_)
  simp only [apply_ite (upTo · k)]
  rfl

theorem term_name_bound {rest : List TokenKey} (bound : binder doc p first.name = some q) :
    term ctx doc p (.mk id (.variable (first :: rest)) [] [] none range) =
      (field ctx doc q).bind fun v => .known (v.stepAll (rest.map TokenKey.name)) := by
  refine ext fun k => ?_
  show Option.bind (Option.bind (binder doc p first.name) _) _ = _
  rw [bound]
  rfl

theorem term_name_free {rest : List TokenKey} (free : binder doc p first.name = none) :
    term ctx doc p (.mk id (.variable (first :: rest)) [] [] none range) = .known none := by
  refine ext fun k => ?_
  show Option.bind (Option.bind (binder doc p first.name) _) _ = _
  rw [free]
  rfl

theorem term_reference {base : RefBase} {path : List TokenKey} :
    term ctx doc p (.mk id (.reference base path) [] [] none range) =
      target ctx doc [] (anchor base p ++ path.map TokenKey.name) :=
  Approx.ext fun _ => rfl

theorem content_term (h : n.expr.isDict = false) : content ctx doc p n = term ctx doc p n := by
  refine ext fun k => ?_
  show nodeValue ctx doc _ p n = _
  unfold nodeValue
  split
  · rename_i isDict
    rw [isDict] at h
    cases h
  · rfl

/-- The entries of a dict literal at `p`, added to those listed already. -/
def entriesAt (ctx : Context) (doc : Node) (p : List String) (pairs : List (TokenKey × Node))
    (map : Assoc Value) : Approx (Assoc Value) :=
  ⟨fun k => collect (fun key => fieldValue ctx doc k (p ++ [key])) pairs map,
    fun le => collect_mono fun _ => fieldValue_mono le _⟩

theorem entriesAt_cons {key : TokenKey} {rest : List (TokenKey × Node)} {map : Assoc Value} :
    entriesAt ctx doc p ((key, n) :: rest) map = (field ctx doc (p ++ [key.name])).bind fun v =>
        entriesAt ctx doc p rest (map.insertSorted key.name v) :=
  Approx.ext fun _ => rfl

/-- Entries with values make a dict. -/
theorem entriesAt_has (map : Assoc Value)
    (read : ∀ e ∈ pairs, ∃ v, (field ctx doc (p ++ [e.1.name])).Has v) :
    ∃ out, (entriesAt ctx doc p pairs map).Has out := by
  induction pairs generalizing map with
  | nil => exact ⟨map, 0, rfl⟩
  | cons e rest ih =>
    obtain ⟨v, has⟩ := read e mem_cons_self
    obtain ⟨out, has'⟩ := ih (map.insertSorted e.1.name v) fun e he =>
      read e (mem_cons_of_mem _ he)
    exact ⟨out, entriesAt_cons ▸ has_bind.mpr ⟨v, has, has'⟩⟩

theorem content_dict : content ctx doc p (.mk id (.dict pairs) [] [] none range) =
      (entriesAt ctx doc p pairs []).bind fun map => .known (some (.dict map none none)) :=
  Approx.ext fun _ => map_eq_bind

theorem target_nil : target ctx doc q [] = field ctx doc q := Approx.ext fun _ => rfl

theorem target_missing (none : doc.atPath (q ++ [key]) = none) :
    target ctx doc q (key :: rest) = .known Option.none := by
  refine ext fun k => ?_
  show follow doc _ q (key :: rest) = _
  rw [follow, none]
  rfl

theorem target_dict (at_ : doc.atPath (q ++ [key]) = some n) (isDict : n.expr.isDict = true) :
    target ctx doc q (key :: rest) = target ctx doc (q ++ [key]) rest := by
  refine ext fun k => ?_
  show follow doc _ q (key :: rest) = _
  simp only [follow, at_, if_pos isDict]
  rfl

theorem target_term (at_ : doc.atPath (q ++ [key]) = some n) (isTerm : n.expr.isDict = false) :
    target ctx doc q (key :: rest) =
      (field ctx doc (q ++ [key])).bind fun v => .known (v.stepAll rest) := by
  refine ext fun k => ?_
  show follow doc _ q (key :: rest) = _
  simp only [follow, at_, isTerm, Bool.false_eq_true, if_false]
  rfl

end

/-! ### Names -/

section
variable {doc : Node} {p q : List String} {x : String}

theorem binder_eq_none (free : ∀ q, q <+: p → doc.atPath (q ++ [x]) = none) :
    binder doc p x = none := by
  unfold binder
  rw [map_eq_none_iff, List.find?_eq_none]
  intro q hq
  rw [mem_reverse, mem_inits] at hq
  simp [free q hq]

theorem Document.same_of_prefix {q' : List String} (hd : Document doc) (le : q <+: q')
    (bound : (doc.atPath (q ++ [x])).isSome) (bound' : (doc.atPath (q' ++ [x])).isSome) : q = q' := by
  obtain ⟨r, rfl⟩ := le
  by_cases empty : r = []
  · rw [empty, append_nil]
  · rw [hd.unshadowed q r x empty bound] at bound'
    cases bound'

/-- In a document without shadowing a name has one binder. -/
theorem Document.binder_eq (hd : Document doc) (within : q <+: p)
    (bound : (doc.atPath (q ++ [x])).isSome) : binder doc p x = some (q ++ [x]) := by
  unfold binder
  have found : (p.inits.reverse.find? fun q => (doc.atPath (q ++ [x])).isSome).isSome := by
    rw [List.find?_isSome]
    exact ⟨q, mem_reverse.mpr ((mem_inits q p).mpr within), bound⟩
  obtain ⟨q', hq'⟩ := isSome_iff_exists.mp found
  have bound' : (doc.atPath (q' ++ [x])).isSome := by simpa using List.find?_some hq'
  have within' : q' <+: p := by
    have := List.mem_of_find?_eq_some hq'
    rwa [mem_reverse, mem_inits] at this
  have same : q' = q := by
    cases List.prefix_or_prefix_of_prefix within' within with
    | inl le => exact hd.same_of_prefix le bound' bound
    | inr le => exact (hd.same_of_prefix le bound bound').symm
  rw [hq', same]
  rfl

end

end Relon.Eval
