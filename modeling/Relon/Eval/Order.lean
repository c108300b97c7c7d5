import Relon.Eval.Adequacy

/-! The order of a dict's entries.

What a document means survives in any document that has its fields, so that two
documents with the same fields mean the same. Permuting the entries of a dict
literal keeps the fields; in a plain document it changes nothing the evaluator
returns. A name that a dict and one around it both declare is outside that class,
and there the order shows. -/
namespace Relon.Eval
open List Option

/-! ### Collecting entries -/

/-- One more entry of a dict. -/
def addEntry (field : String → Option Value) (map : Option (Assoc Value)) (key : String) :
    Option (Assoc Value) :=
  map.bind fun m => (field key).map fun v => m.insertSorted key v

theorem foldl_addEntry_none (f : String → Option Value) (keys : List String) :
    keys.foldl (addEntry f) none = none := by
  induction keys with
  | nil => rfl
  | cons key rest ih => exact ih

theorem collect_eq_foldl (f : String → Option Value) (pairs : List (TokenKey × Node))
    (map : Assoc Value) :
    collect f pairs map = (pairs.map fun e => e.1.name).foldl (addEntry f) (some map) := by
  induction pairs generalizing map with
  | nil => rfl
  | cons e rest ih =>
    obtain ⟨key, n⟩ := e
    rw [collect, map_cons, foldl_cons]
    cases here : f key.name with
    | none => rw [addEntry, here]; exact (foldl_addEntry_none f _).symm
    | some v => rw [addEntry, here]; exact ih _

theorem addEntry_comm (f : String → Option Value) (map : Option (Assoc Value)) (k k' : String) :
    addEntry f (addEntry f map k) k' = addEntry f (addEntry f map k') k := by
  by_cases same : k = k'
  · rw [same]
  · cases map with
    | none => rfl
    | some m =>
      unfold addEntry
      cases f k <;> cases f k' <;>
        simp [Assoc.insertSorted_comm m same]

/-- The keys alone decide, in any order. -/
theorem collect_perm (f : String → Option Value) {pairs pairs' : List (TokenKey × Node)}
    (keys : (pairs.map fun e => e.1.name).Perm (pairs'.map fun e => e.1.name)) (map : Assoc Value) :
    collect f pairs map = collect f pairs' map := by
  rw [collect_eq_foldl, collect_eq_foldl]
  exact keys.foldl_eq' (fun k _ k' _ m => addEntry_comm f m k k') _

/-! ### One document inside another -/

/-- The same term, or dict literals with the same keys. -/
inductive Matches : Node → Node → Prop where
  | term {n} (h : n.expr.isDict = false) : Matches n n
  | dict {id id' pairs pairs' range range'}
      (keys : (pairs.map fun e => e.1.name).Perm (pairs'.map fun e => e.1.name)) :
      Matches (.mk id (.dict pairs) [] [] none range) (.mk id' (.dict pairs') [] [] none range')

theorem Matches.isDict {n n' : Node} (h : Matches n n') : n'.expr.isDict = n.expr.isDict := by
  cases h <;> rfl

theorem Plain.matches_self {n : Node} (h : Plain n) : Matches n n := by
  cases h with
  | term h => exact .term h.not_dict
  | dict => exact .dict (.refl _)

/-- Every field of the first document is one of the second. -/
def Embeds (doc doc' : Node) : Prop :=
  ∀ p n, p ≠ [] → doc.atPath p = some n → ∃ n', doc'.atPath p = some n' ∧ Matches n n'

section
variable {ctx : Context} {doc doc' : Node} {f g : List String → Option Value}

variable {p q : List String} {x : String} {v : Value}

theorem Embeds.isSome (h : Embeds doc doc') (nonempty : p ≠ []) (at_ : (doc.atPath p).isSome) :
    (doc'.atPath p).isSome := by
  obtain ⟨n, at_⟩ := isSome_iff_exists.mp at_
  obtain ⟨n', at', -⟩ := h p n nonempty at_
  exact isSome_of_eq_some at'

theorem binder_spec (h : binder doc p x = some q) :
    ∃ around, around <+: p ∧ q = around ++ [x] ∧ (doc.atPath q).isSome := by
  obtain ⟨around, found, rfl⟩ := map_eq_some_iff.mp h
  refine ⟨around, ?_, rfl, by simpa using List.find?_some found⟩
  have mem := List.mem_of_find?_eq_some found
  rwa [mem_reverse, mem_inits] at mem

theorem binder_embeds (hd' : Document doc') (h : Embeds doc doc') (bound : binder doc p x = some q) :
    binder doc' p x = some q := by
  obtain ⟨around, inside, rfl, at_⟩ := binder_spec bound
  exact hd'.binder_eq inside (h.isSome (concat_ne_nil _ _) at_)

/-- Whatever the first assignment knows of fields, the second one knows too. -/
def KnowsFields (f g : List String → Option Value) : Prop :=
  ∀ q v, q ≠ [] → f q = some v → g q = some v

theorem follow_embeds (h : Embeds doc doc') (le : KnowsFields f g) {q path : List String}
    (nonempty : q ++ path ≠ []) (found : follow doc f q path = some v) :
    follow doc' g q path = some v := by
  induction path generalizing q with
  | nil => exact le q v (by simpa using nonempty) found
  | cons key rest ih =>
    rw [follow] at found ⊢
    cases at_ : doc.atPath (q ++ [key]) with
    | none => rw [at_] at found; cases found
    | some n =>
      obtain ⟨n', at', same⟩ := h _ n (concat_ne_nil _ _) at_
      simp only [at_, at', same.isDict] at found ⊢
      split_ifs at found ⊢ with isDict
      · exact ih (by simp) found
      · exact bind_mono (fun w => le _ w (concat_ne_nil _ _)) (fun _ found => found) found

theorem termValue_embeds (hd' : Document doc') (h : Embeds doc doc') (le : KnowsFields f g)
    {n : Node} (plain : Term n) (found : termValue ctx doc f p n = some v) :
    termValue ctx doc' g p n = some v := by
  fun_induction termValue ctx doc f p n generalizing v with
  | case5 =>
    rw [termValue]
    refine bind_mono (fun w hw => ?_) (fun _ found => found) found
    obtain ⟨q, bound, hw⟩ := bind_eq_some_iff.mp hw
    obtain ⟨around, -, rfl, -⟩ := binder_spec bound
    rw [binder_embeds hd' h bound]
    exact le _ w (concat_ne_nil _ _) hw
  | case6 =>
    rw [termValue]
    cases plain with
    | reference anchored nonempty static =>
      exact follow_embeds h le (by simp [nonempty]) found
  | case7 _ _ _ _ _ _ _ ih =>
    cases plain with
    | unary operand =>
      rw [termValue]
      exact bind_mono (fun _ => ih operand) (fun _ found => found) found
  | case8 _ _ _ _ _ _ _ ihl ihr =>
    cases plain with
    | binary _ _ left right =>
      rw [termValue]
      refine bind_mono (fun _ => ihl left) (fun v hv => ?_) found
      split_ifs at hv ⊢
      · exact ihr right hv
      · exact hv
  | case9 _ _ _ _ _ _ _ ihl ihr =>
    cases plain with
    | binary _ _ left right =>
      rw [termValue]
      refine bind_mono (fun _ => ihl left) (fun v hv => ?_) found
      split_ifs at hv ⊢
      · exact hv
      · exact ihr right hv
  | case10 _ _ _ _ _ _ _ _ notAnd notOr ihl ihr =>
    cases plain with
    | binary _ _ left right =>
      rw [termValue]
      · exact bind_mono (fun _ => ihl left)
          (fun _ => bind_mono (fun _ => ihr right) fun _ found => found) found
      · exact notAnd
      · exact notOr
  | case11 _ _ _ _ _ _ _ _ ihc iht ihe =>
    cases plain with
    | ternary cond then_ els =>
      rw [termValue]
      refine bind_mono (fun _ => ihc cond) (fun v hv => ?_) found
      split_ifs at hv ⊢
      · exact iht then_ hv
      · exact ihe els hv
  | case12 => cases found
  | _ => exact found

theorem nodeValue_embeds (hd' : Document doc') (h : Embeds doc doc') (le : KnowsFields f g)
    {n n' : Node} (plain : Plain n) (same : Matches n n') (found : nodeValue ctx doc f p n = some v) :
    nodeValue ctx doc' g p n' = some v := by
  cases same with
  | dict keys =>
    obtain ⟨map, collected, rfl⟩ := map_eq_some_iff.mp found
    refine map_eq_some_iff.mpr ⟨map, ?_, rfl⟩
    rw [← collect_perm _ keys]
    exact collect_mono (fun key w => le _ w (concat_ne_nil _ _)) collected
  | term notDict =>
    cases plain with
    | dict => cases notDict
    | term ht =>
      unfold nodeValue at found ⊢
      split at found
      · rename_i isDict
        rw [isDict] at notDict
        cases notDict
      · exact termValue_embeds hd' h le ht found

/-- A field that has a value keeps it in a document with more fields. -/
theorem fieldValue_embeds (hd : Document doc) (hd' : Document doc') (h : Embeds doc doc')
    (depth : Nat) : KnowsFields (fieldValue ctx doc depth) (fieldValue ctx doc' depth) := by
  induction depth with
  | zero => exact fun _ _ _ found => nomatch found
  | succ depth ih =>
    intro q v nonempty found
    obtain ⟨n, at_, found⟩ := bind_eq_some_iff.mp found
    obtain ⟨n', at', same⟩ := h q n nonempty at_
    exact bind_eq_some_iff.mpr ⟨n', at', nodeValue_embeds hd' h ih (hd.plain.atPath at_) same found⟩

theorem field_embeds (hd : Document doc) (hd' : Document doc') (h : Embeds doc doc')
    (nonempty : q ≠ []) (has : (field ctx doc q).Has v) : (field ctx doc' q).Has v := by
  obtain ⟨k, found⟩ := has
  exact ⟨k, fieldValue_embeds hd hd' h k q v nonempty found⟩

/-- With the same keys at the root, the whole document keeps its value. -/
theorem root_embeds (hd : Document doc) (hd' : Document doc') (h : Embeds doc doc')
    (same : Matches doc doc') (has : (field ctx doc []).Has v) : (field ctx doc' []).Has v := by
  obtain ⟨_ | k, found⟩ := has
  · cases found
  · exact ⟨k + 1, nodeValue_embeds hd' h (fieldValue_embeds hd hd' h k) hd.plain same found⟩

end

/-! ### Permuted entries -/

/-- The second document has the entries of one dict literal of the first in another
order. -/
inductive Permuted : Node → Node → Prop where
  | here {id pairs pairs' decorators directives hint range} (perm : pairs.Perm pairs') :
      Permuted (.mk id (.dict pairs) decorators directives hint range)
        (.mk id (.dict pairs') decorators directives hint range)
  | under {id before key n n' after decorators directives hint range} (inner : Permuted n n') :
      Permuted (.mk id (.dict (before ++ (key, n) :: after)) decorators directives hint range)
        (.mk id (.dict (before ++ (key, n') :: after)) decorators directives hint range)

namespace Permuted

variable {n n' : Node}

theorem symm (h : Permuted n n') : Permuted n' n := by
  induction h with
  | here perm => exact .here perm.symm
  | under _ ih => exact .under ih

theorem id_eq (h : Permuted n n') : n'.id = n.id := by
  cases h <;> rfl

/-- The entries of a list in which the node of one is replaced. -/
theorem mem_replaced {before after : List (TokenKey × Node)} {key : TokenKey} {e : TokenKey × Node}
    (h : e ∈ before ++ (key, n') :: after) : e = (key, n') ∨ e ∈ before ++ (key, n) :: after := by
  cases mem_append.mp h with
  | inl early => exact .inr (mem_append_left _ early)
  | inr rest =>
    cases mem_cons.mp rest with
    | inl this => exact .inl this
    | inr late => exact .inr (mem_append_right _ (mem_cons_of_mem _ late))

theorem plain (h : Permuted n n') (hp : Plain n) : Plain n' := by
  induction h with
  | here perm =>
    cases hp with
    | term h => cases h
    | dict static distinct fields =>
      exact .dict (fun e he => static e (perm.mem_iff.mpr he)) ((perm.map _).nodup_iff.mp distinct)
        fun e he => fields e (perm.mem_iff.mpr he)
  | @under id before key n n' after _ _ _ _ inner ih =>
    cases hp with
    | term h => cases h
    | dict static distinct fields =>
      have there : (key, n) ∈ before ++ (key, n) :: after := by simp
      refine .dict (fun e he => ?_) (by simpa using distinct) fun e he => ?_
      · cases mem_replaced (n := n) he with
        | inl this => rw [this]; exact static (key, n) there
        | inr old => exact static e old
      · cases mem_replaced (n := n) he with
        | inl this => rw [this]; exact ih (fields _ there)
        | inr old => exact fields e old

/-- Every field is still there, with the same id and the same keys. -/
theorem atPath (h : Permuted n n') (hp : Plain n) {p : List String} {m : Node}
    (at_ : n.atPath p = some m) : ∃ m', n'.atPath p = some m' ∧ Matches m m' ∧ m'.id = m.id := by
  induction h generalizing p with
  | here perm =>
    have hp' := (Permuted.here perm).plain hp
    cases p with
    | nil =>
      cases at_
      cases hp with
      | term h => cases h
      | dict static distinct fields => exact ⟨_, rfl, .dict (perm.map _), rfl⟩
    | cons key rest =>
      obtain ⟨c, first, later⟩ := bind_eq_some_iff.mp at_
      cases hp with
      | term h => cases h
      | dict static distinct fields =>
        obtain ⟨k, mem, rfl⟩ := Node.child_mem first
        have distinct' := hp'.dict_parts.2.1
        refine ⟨m, ?_, ((fields _ mem).atPath later).matches_self, rfl⟩
        exact bind_eq_some_iff.mpr ⟨c, Node.child_of_mem distinct' (perm.mem_iff.mp mem), later⟩
  | @under id before key n n' after _ _ _ _ inner ih =>
    have hp' := (Permuted.under inner).plain hp
    cases hp with
    | term h => cases h
    | dict static distinct fields =>
      have distinct' := hp'.dict_parts.2.1
      cases p with
      | nil =>
        cases at_
        exact ⟨_, rfl, .dict (by simp), rfl⟩
      | cons x rest =>
        obtain ⟨c, first, later⟩ := bind_eq_some_iff.mp at_
        by_cases here : key.name = x
        · subst here
          have old : (key, n) ∈ before ++ (key, n) :: after := by simp
          have new : (key, n') ∈ before ++ (key, n') :: after := by simp
          cases (Node.child_of_mem distinct old).symm.trans first
          obtain ⟨m', at', same⟩ := ih (fields _ old) later
          exact ⟨m', bind_eq_some_iff.mpr ⟨n', Node.child_of_mem distinct' new, at'⟩, same⟩
        · obtain ⟨k, mem, rfl⟩ := Node.child_mem first
          refine ⟨m, ?_, ((fields _ mem).atPath later).matches_self, rfl⟩
          cases mem_replaced (n := n') mem with
          | inl this => exact absurd (congrArg (fun e => e.1.name) this).symm here
          | inr kept =>
            exact bind_eq_some_iff.mpr ⟨c, Node.child_of_mem distinct' kept, later⟩

variable {doc doc' : Node}

theorem embeds (h : Permuted doc doc') (hp : Plain doc) : Embeds doc doc' := by
  intro p m _ at_
  obtain ⟨m', at', same, -⟩ := h.atPath hp at_
  exact ⟨m', at', same⟩

theorem document (h : Permuted doc doc') (hd : Document doc) : Document doc' := by
  have hp' := h.plain hd.plain
  have isSome : ∀ {p}, (doc'.atPath p).isSome → (doc.atPath p).isSome := by
    intro p at_
    obtain ⟨m, at_⟩ := isSome_iff_exists.mp at_
    obtain ⟨m', at', -⟩ := h.symm.atPath hp' at_
    exact isSome_of_eq_some at'
  refine ⟨hp', ?_, fun p m nonempty at_ => ?_, fun q r x nonempty bound => ?_⟩
  · cases h <;> rfl
  · obtain ⟨m', at', -, same⟩ := h.symm.atPath hp' at_
    rw [h.id_eq, ← same]
    exact hd.ids p m' nonempty at'
  · rw [← not_isSome_iff_eq_none]
    intro inner
    have := isSome inner
    rw [hd.unshadowed q r x nonempty (isSome bound)] at this
    cases this

/-- Permuted documents mean the same. -/
theorem means {ctx : Context} (h : Permuted doc doc') (hd : Document doc) {v : Value}
    (has : (field ctx doc []).Has v) : (field ctx doc' []).Has v := by
  obtain ⟨m', at', same, -⟩ := h.atPath hd.plain (rfl : doc.atPath [] = some doc)
  cases at'
  exact root_embeds hd (h.document hd) (h.embeds hd.plain) same has

end Permuted

/-- On a host without limits, permuting the entries of a dict literal of a plain
document changes nothing: both evaluations end, with the same value or with an error
in both. -/
theorem evaluate_permuted {ctx : Context} {doc doc' : Node} (hd : Document doc)
    (unlimited : Unlimited ctx) (schemas : NoRootSchemas ctx) (perm : Permuted doc doc') :
    ∃ out out', Outcome (ctx.withRoot doc) out ∧ Outcome (ctx.withRoot doc') out' ∧
      ∀ v, out = .ok v ↔ out' = .ok v := by
  have hd' := perm.document hd
  obtain ⟨out, ends, value⟩ := evaluate_withRoot hd unlimited schemas
  obtain ⟨out', ends', value'⟩ := evaluate_withRoot hd' unlimited schemas
  refine ⟨out, out', ends, ends', fun v => ?_⟩
  rw [value, value']
  exact ⟨perm.means hd, perm.symm.means hd'⟩

/-- A dict of terms is a document: no dict is around another. -/
theorem Plain.flat_document {id : Nat} {pairs : List (TokenKey × Node)} {range : TokenRange}
    (static : ∀ e ∈ pairs, e.1.IsStatic) (distinct : (pairs.map fun e => e.1.name).Nodup)
    (terms : ∀ e ∈ pairs, Term e.2) (ids : ∀ e ∈ pairs, e.2.id ≠ id) :
    Document (.mk id (.dict pairs) [] [] none range) := by
  -- a path that leads somewhere has at most one key
  have short : ∀ {key rest n}, (Node.mk id (.dict pairs) [] [] none range).atPath (key :: rest) =
      some n → rest = [] ∧ ∃ k, (k, n) ∈ pairs := by
    intro key rest n at_
    obtain ⟨c, first, later⟩ := bind_eq_some_iff.mp at_
    obtain ⟨k, mem, -⟩ := Node.child_mem first
    cases rest with
    | nil =>
      cases later
      exact ⟨rfl, k, mem⟩
    | cons key' rest =>
      obtain ⟨_, second, -⟩ := bind_eq_some_iff.mp later
      rw [Node.child_of_not_dict (terms _ mem).not_dict] at second
      cases second
  refine ⟨.dict static distinct fun e he => .term (terms e he), rfl, fun p n nonempty at_ => ?_,
    fun q r x nonempty bound => ?_⟩
  · cases p with
    | nil => exact absurd rfl nonempty
    | cons key rest =>
      obtain ⟨-, k, mem⟩ := short at_
      exact ids _ mem
  · rw [eq_none_iff_forall_ne_some]
    intro n at_
    cases both : q ++ r with
    | nil => exact nonempty (append_eq_nil_iff.mp both).2
    | cons key rest =>
      rw [both] at at_
      have := (short at_).1
      simp at this

/-- `{ a: 1, b: a }` and `{ b: a, a: 1 }`. -/
def forwardDocument : Node :=
  .bare 1 (.dict [(.plain "a", .bare 2 (.int 1)), (.plain "b", .bare 3 (.variable [.plain "a"]))])

def backwardDocument : Node :=
  .bare 1 (.dict [(.plain "b", .bare 3 (.variable [.plain "a"])), (.plain "a", .bare 2 (.int 1))])

theorem forwardDocument_document : Document forwardDocument :=
  Plain.flat_document (by decide) (by decide)
    (forall_mem_cons.mpr ⟨.int, forall_mem_singleton.mpr (.name (by decide) (by decide))⟩)
    (by decide)

/-- A field is found whether it is declared before its use or after. -/
theorem evaluate_permuted_backward :
    ∃ out out', Outcome (.withRoot (.bare forwardDocument) forwardDocument) out ∧
      Outcome (.withRoot (.bare forwardDocument) backwardDocument) out' ∧
      ∀ v, out = .ok v ↔ out' = .ok v :=
  evaluate_permuted forwardDocument_document ⟨rfl, rfl⟩ (fun _ none => nomatch none)
    (.here (.swap _ _ []))

/-! ### A name declared twice -/

/-- The value of the host's document, if the fuel suffices and there is one. -/
def evaluatedValue (ctx : Context) (fuel : Nat) : Option Value :=
  (evaluate ctx fuel).bind Except.toOption

theorem Outcome.of_evaluatedValue {ctx : Context} {fuel : Nat} {v : Value}
    (h : evaluatedValue ctx fuel = some v) : Outcome ctx (.ok v) := by
  obtain ⟨out, run, ok⟩ := bind_eq_some_iff.mp h
  cases out with
  | error e => cases ok
  | ok u =>
    cases ok
    exact .of_evaluate run

/-- The integer at a path of that value. -/
def evaluatedInt (ctx : Context) (fuel : Nat) (path : List String) : Option Int :=
  (evaluatedValue ctx fuel).bind fun v => (v.stepAll path).bind Value.int?

/-- `{ a: 1, b: { c: a, a: 2 } }`, and the inner entries in the other order. -/
def shadowingDocument : Node :=
  .bare 1 (.dict [
    (.plain "a", .bare 2 (.int 1)),
    (.plain "b", .bare 3 (.dict [
      (.plain "c", .bare 4 (.variable [.plain "a"])),
      (.plain "a", .bare 5 (.int 2))]))])

def shadowingDocument' : Node :=
  .bare 1 (.dict [
    (.plain "a", .bare 2 (.int 1)),
    (.plain "b", .bare 3 (.dict [
      (.plain "a", .bare 5 (.int 2)),
      (.plain "c", .bare 4 (.variable [.plain "a"]))]))])

/-- The name is bound to the outer field, which has been evaluated, or to the inner
one if that has been evaluated before. -/
theorem order_shows : Permuted shadowingDocument shadowingDocument' ∧
      evaluatedInt (.bare shadowingDocument) 12 ["b", "c"] = some 1 ∧
      evaluatedInt (.bare shadowingDocument') 12 ["b", "c"] = some 2 :=
  ⟨@Permuted.under _ [_] _ _ _ [] _ _ _ _ (.here (.swap _ _ [])), by decide +kernel, by decide +kernel⟩

end Relon.Eval
