import Relon.Eval.Order

/-! References against projections.

A reference does not look into the value of the document, it walks the document's
literals and evaluates what it comes to. In a plain document both agree: a path
leads to what it projects from the value, and to nothing when the value has nothing
there. Where names of enclosing frames answer for missing keys, or where the walk
cannot follow a literal, they do not. -/
namespace Relon.Eval
open List Option Approx

/-! ### The value of a dict and its fields -/

section
variable {ctx : Context} {doc : Node}

variable {f : String → Option Value} {pairs : List (TokenKey × Node)} {map out : Assoc Value}

theorem collect_lookup (h : collect f pairs map = some out) (key : String) :
    out.lookup key = if key ∈ pairs.map (fun e => e.1.name) then f key else map.lookup key := by
  induction pairs generalizing map with
  | nil =>
    cases h
    simp
  | cons e rest ih =>
    obtain ⟨v, hv, h⟩ := bind_eq_some_iff.mp h
    rw [ih h, Assoc.lookup_insertSorted]
    by_cases here : key = e.1.name
    · simp [here, hv]
    · rw [if_neg here]
      simp only [map_cons, mem_cons, here, false_or]

/-- The value of a dict is collected from its fields. -/
theorem field_dict {q : List String} {id : Nat} {range : TokenRange} {v : Value}
    (at_ : doc.atPath q = some (.mk id (.dict pairs) [] [] none range))
    (has : (field ctx doc q).Has v) : ∃ depth map, v = .dict map none none ∧
      collect (fun key => fieldValue ctx doc depth (q ++ [key])) pairs [] = some map := by
  rw [field_deeper at_, has_deeper] at has
  obtain ⟨depth, found⟩ := has
  obtain ⟨map, collected, rfl⟩ := map_eq_some_iff.mp found
  exact ⟨depth, map, rfl, collected⟩

theorem Plain.dict_of_isDict {n : Node} (h : Plain n) (isDict : n.expr.isDict = true) :
    ∃ id pairs range, n = .mk id (.dict pairs) [] [] none range := by
  cases h with
  | term h => rw [h.not_dict] at isDict; cases isDict
  | dict => exact ⟨_, _, _, rfl⟩

/-- A path from a term is followed in its value. -/
theorem target_term_projects {q rest : List String} {key : String} {c : Node} {u w : Value}
    (there : doc.atPath (q ++ [key]) = some c) (isTerm : c.expr.isDict = false)
    (has : (field ctx doc (q ++ [key])).Has u) :
    (target ctx doc q (key :: rest)).Has w ↔ u.stepAll rest = some w := by
  rw [target_term there isTerm, has_bind]
  constructor
  · rintro ⟨u', has', last⟩
    rw [has.unique has']
    exact has_known.mp last
  · exact fun last => ⟨u, has, has_known.mpr last⟩

variable (hd : Document doc) {q : List String} {n : Node} {v : Value}
  (at_ : doc.atPath q = some n) (isDict : n.expr.isDict = true) (has : (field ctx doc q).Has v)

include hd at_ isDict has

/-- A dict that has a value has fields that have. -/
theorem field_of_dict {key : String} {c : Node} (there : doc.atPath (q ++ [key]) = some c) :
    ∃ u, (field ctx doc (q ++ [key])).Has u := by
  obtain ⟨id, pairs, range, rfl⟩ := (hd.plain.atPath at_).dict_of_isDict isDict
  obtain ⟨depth, map, -, collected⟩ := field_dict at_ has
  rw [Node.atPath_concat, at_, bind_some] at there
  obtain ⟨name, mem, rfl⟩ := Node.child_mem there
  obtain ⟨u, found⟩ := isSome_iff_exists.mp (collect_some collected _ mem)
  exact ⟨u, depth, found⟩

/-- The entries of a dict's value are the values of its fields. -/
theorem field_step {key : String} {u : Value} :
    v.step key = some u ↔ (field ctx doc (q ++ [key])).Has u := by
  obtain ⟨id, pairs, range, rfl⟩ := (hd.plain.atPath at_).dict_of_isDict isDict
  obtain ⟨depth, map, rfl, collected⟩ := field_dict at_ has
  show map.lookup key = some u ↔ _
  rw [collect_lookup collected key]
  constructor
  · intro h
    split_ifs at h
    · exact ⟨depth, h⟩
    · cases h
  · intro has'
    obtain ⟨c, there⟩ := isSome_iff_exists.mp (field_has_at has')
    rw [Node.atPath_concat, at_, bind_some] at there
    obtain ⟨name, mem, rfl⟩ := Node.child_mem there
    obtain ⟨u', found⟩ := isSome_iff_exists.mp (collect_some collected _ mem)
    rw [if_pos (mem_map.mpr ⟨_, mem, rfl⟩), found,
      has'.unique (⟨depth, found⟩ : (field ctx doc (q ++ [name.name])).Has u')]

/-- A path from a dict leads to what it projects from the dict's value. -/
theorem target_projects {path : List String} {w : Value} :
    (target ctx doc q path).Has w ↔ v.stepAll path = some w := by
  induction path generalizing q n v with
  | nil =>
    rw [target_nil]
    exact ⟨fun has' => congrArg some (has.unique has'), fun same => Option.some.inj same ▸ has⟩
  | cons key rest ih =>
    show _ ↔ (v.step key).bind _ = some w
    cases there : doc.atPath (q ++ [key]) with
    | none =>
      have missing : v.step key = none := by
        rw [eq_none_iff_forall_ne_some]
        intro u first
        have := field_has_at ((field_step hd at_ isDict has).mp first)
        rw [there] at this
        cases this
      rw [target_missing there, has_known, missing]
      rfl
    | some c =>
      obtain ⟨u, hu⟩ := field_of_dict hd at_ isDict has there
      rw [(field_step hd at_ isDict has).mpr hu, bind_some]
      cases isDict' : c.expr.isDict with
      | true =>
        rw [target_dict there isDict']
        exact ih there isDict' hu
      | false => exact target_term_projects there isDict' hu

omit at_ isDict has

/-- A path is followed from the value of the field its first key leads to. -/
theorem target_through {rest : List String} {key : String} {c : Node} {u w : Value}
    (there : doc.atPath (q ++ [key]) = some c) (has : (field ctx doc (q ++ [key])).Has u) :
    (target ctx doc q (key :: rest)).Has w ↔ u.stepAll rest = some w := by
  cases isDict : c.expr.isDict with
  | true =>
    rw [target_dict there isDict]
    exact target_projects hd there isDict has
  | false => exact target_term_projects there isDict has

end

section
variable {ctx : Context} {doc : Node}

/-- A dict all fields of which have values has one. -/
theorem field_dict_has {q : List String} {id : Nat} {pairs : List (TokenKey × Node)}
    {range : TokenRange} (at_ : doc.atPath q = some (.mk id (.dict pairs) [] [] none range))
    (all : ∀ e ∈ pairs, ∃ u, (field ctx doc (q ++ [e.1.name])).Has u) :
    ∃ v, (field ctx doc q).Has v := by
  obtain ⟨map, has⟩ := entriesAt_has [] all
  refine ⟨.dict map none none, ?_⟩
  rw [field_deeper at_, has_deeper, content_dict, has_bind]
  exact ⟨map, has, has_known.mpr rfl⟩

end

/-! ### A field added at the root -/

/-- The second document has one more entry at its root. -/
inductive Adds (key : TokenKey) (node : Node) : Node → Node → Prop where
  | entry {id before after decorators directives hint range} :
      Adds key node (.mk id (.dict (before ++ after)) decorators directives hint range)
        (.mk id (.dict (before ++ (key, node) :: after)) decorators directives hint range)

namespace Adds

variable {key : TokenKey} {node doc doc' : Node}

theorem child (h : Adds key node doc doc') {x : String} (other : x ≠ key.name) :
    doc'.child x = doc.child x := by
  cases h with
  | @entry _ before after =>
    show ((before ++ (key, node) :: after).find? _).map Prod.snd = ((before ++ after).find? _).map Prod.snd
    rw [List.find?_append, List.find?_cons_of_neg (by simpa using other.symm), ← List.find?_append]

theorem atPath (h : Adds key node doc doc') {x : String} (other : x ≠ key.name)
    (rest : List String) : doc'.atPath (x :: rest) = doc.atPath (x :: rest) := by
  rw [Node.atPath, Node.atPath, h.child other]

variable (h : Adds key node doc doc') (hd : Document doc')

include h hd

theorem child_new : doc'.child key.name = some node := by
  have plain := hd.plain
  cases h with
  | entry =>
    cases plain with
    | term t => cases t
    | dict static distinct fields =>
      exact Node.child_of_mem distinct (e := (key, node)) (by simp)

theorem child_old : doc.child key.name = none := by
  have plain := hd.plain
  cases h with
  | @entry _ before after =>
    cases plain with
    | term t => cases t
    | dict static distinct fields =>
      show ((before ++ after).find? _).map Prod.snd = none
      rw [map_eq_none_iff, List.find?_eq_none]
      intro e he same
      have perm : (before ++ (key, node) :: after).Perm ((key, node) :: (before ++ after)) :=
        perm_middle
      have distinct' := (perm.map fun e => e.1.name).nodup_iff.mp distinct
      rw [map_cons, nodup_cons] at distinct'
      exact distinct'.1 (mem_map.mpr ⟨e, he, by simpa using same⟩)

/-- The fields of the smaller document are those of the larger one. -/
theorem atPath_old {p : List String} {n : Node} (nonempty : p ≠ []) (at_ : doc.atPath p = some n) :
    doc'.atPath p = some n := by
  cases p with
  | nil => exact absurd rfl nonempty
  | cons x rest =>
    by_cases other : x = key.name
    · rw [other, Node.atPath, h.child_old hd] at at_
      cases at_
    · rw [h.atPath other, at_]

theorem document : Document doc := by
  have plain := hd.plain
  have old := fun {p : List String} {n : Node} => h.atPath_old hd (p := p) (n := n)
  refine ⟨?_, ?_, fun p n nonempty at_ => ?_, fun q r x nonempty bound => ?_⟩
  · cases h with
    | @entry _ before after =>
      cases plain with
      | term t => cases t
      | dict static distinct fields =>
        have sub : (before ++ after).Sublist (before ++ (key, node) :: after) :=
          (List.Sublist.refl _).append (sublist_cons_self _ _)
        exact .dict (fun e he => static e (sub.subset he)) (distinct.sublist (sub.map _))
          fun e he => fields e (sub.subset he)
  · cases h; rfl
  · have := hd.ids p n nonempty (old nonempty at_)
    cases h
    exact this
  · rw [eq_none_iff_forall_ne_some]
    intro n at_
    obtain ⟨m, there⟩ := isSome_iff_exists.mp bound
    have outer := old (concat_ne_nil _ _) there
    have inner := old (concat_ne_nil _ _) at_
    rw [hd.unshadowed q r x nonempty (isSome_of_eq_some outer)] at inner
    cases inner

theorem embeds : Embeds doc doc' := by
  intro p n nonempty at_
  exact ⟨n, h.atPath_old hd nonempty at_, ((h.document hd).plain.atPath at_).matches_self⟩

/-- With a value for the new field, the larger document has a value. -/
theorem root_has {ctx : Context} {v w : Value} (has : (field ctx doc []).Has v)
    (new : (field ctx doc' [key.name]).Has w) :
    ∃ v', (field ctx doc' []).Has v' ∧ v'.step key.name = some w := by
  have hd₀ := h.document hd
  have whole : ∃ v', (field ctx doc' []).Has v' := by
    obtain ⟨id, pairs, range, same⟩ := hd.plain.dict_of_isDict hd.isDict
    refine field_dict_has (congrArg some same) fun e he => ?_
    have there : doc'.child e.1.name = some e.2 := by
      rw [same]
      rw [same] at hd
      exact Node.child_of_mem hd.plain.dict_parts.2.1 he
    by_cases this : e.1.name = key.name
    · rw [this]
      exact ⟨w, new⟩
    · have at_ : doc.atPath ([] ++ [e.1.name]) = some e.2 := by
        rw [Node.atPath_concat]
        exact (h.child this).symm.trans there
      obtain ⟨u, hu⟩ := field_of_dict hd₀ rfl hd₀.isDict has at_
      exact ⟨u, field_embeds hd₀ hd (h.embeds hd) (concat_ne_nil _ _) hu⟩
  obtain ⟨v', has'⟩ := whole
  exact ⟨v', has', (field_step hd rfl hd.isDict has').mpr new⟩

end Adds

section
variable {ctx : Context} {doc doc' : Node} {key : TokenKey} {id : Nat} {path : List TokenKey}
  {range : TokenRange}

/-- A reference from the root is what its path leads to. -/
theorem field_reference {p : List String}
    (at_ : doc.atPath p = some (.mk id (.reference .root path) [] [] none range)) :
    field ctx doc p = (target ctx doc [] (path.map TokenKey.name)).deeper := by
  rw [field_deeper at_, content_term rfl, term_reference]
  rfl

theorem added_reference (h : Adds key (.mk id (.reference .root path) [] [] none range) doc doc')
    (hd : Document doc') {v w : Value} (has : (field ctx doc []).Has v) :
    (field ctx doc' [key.name]).Has w ↔ v.stepAll (path.map TokenKey.name) = some w := by
  have hd₀ := h.document hd
  have new : doc'.atPath [key.name] = some (.mk id (.reference .root path) [] [] none range) := by
    rw [Node.atPath, h.child_new hd]
    rfl
  have nonempty : path ≠ [] := by
    cases hd.plain.atPath new with
    | term t => cases t with | reference _ nonempty _ => exact nonempty
  have self : field ctx doc' [key.name] = _ := field_reference new
  have step : ∀ x u, v.step x = some u ↔ (field ctx doc [x]).Has u := fun x u =>
    field_step hd₀ rfl hd₀.isDict has
  have missing : ∀ {x}, doc.atPath [x] = none → v.step x = none := by
    intro x none
    rw [eq_none_iff_forall_ne_some]
    intro u first
    have := field_has_at ((step x u).mp first)
    rw [none] at this
    cases this
  rw [self, has_deeper]
  cases spelled : path.map TokenKey.name with
  | nil => exact absurd (map_eq_nil_iff.mp spelled) nonempty
  | cons x rest =>
    show _ ↔ (v.step x).bind _ = some w
    by_cases circular : x = key.name
    · -- the reference leads to itself, and the value has no such entry
      rw [circular] at spelled ⊢
      rw [spelled, target_term (q := []) new rfl] at self
      have absent : doc.atPath [key.name] = none := by
        rw [Node.atPath, h.child_old hd]
        rfl
      rw [missing absent, target_term (q := []) new rfl, has_bind]
      constructor
      · rintro ⟨u, hu, -⟩
        exact absurd hu (not_has_of_deeper self)
      · intro none
        cases none
    · have same : doc'.atPath [x] = doc.atPath [x] := h.atPath circular []
      cases there : doc.atPath [x] with
      | none =>
        rw [missing there, target_missing (q := []) (same.trans there), has_known]
        rfl
      | some c =>
        obtain ⟨u, hu⟩ := field_of_dict hd₀ (q := []) rfl hd₀.isDict has there
        have hu' := field_embeds hd₀ hd (h.embeds hd) (concat_ne_nil _ _) hu
        rw [(step x u).mpr hu, bind_some]
        exact target_through hd (same.trans there) hu'

/-- On a host without limits, a field `&root.P` added to a plain document that has the
value `v` gives what `P` projects from `v`, and makes the evaluation fail when `v`
has nothing there. -/
theorem reference_projects (unlimited : Unlimited ctx) (schemas : NoRootSchemas ctx)
    (h : Adds key (.mk id (.reference .root path) [] [] none range) doc doc') (hd : Document doc')
    {v : Value} (value : Outcome (ctx.withRoot doc) (.ok v)) :
    (∀ w, v.stepAll (path.map TokenKey.name) = some w →
      ∃ v', Outcome (ctx.withRoot doc') (.ok v') ∧ v'.step key.name = some w) ∧
    (v.stepAll (path.map TokenKey.name) = none → ∃ e, Outcome (ctx.withRoot doc') (.error e)) := by
  obtain ⟨out, ends, means⟩ := evaluate_withRoot (h.document hd) unlimited schemas
  obtain ⟨out', ends', means'⟩ := evaluate_withRoot hd unlimited schemas
  have has : (field ctx doc []).Has v := (means v).mp (ends.unique value)
  refine ⟨fun w there => ?_, fun absent => ?_⟩
  · obtain ⟨v', has', last⟩ := h.root_has hd has ((added_reference h hd has).mpr there)
    rw [(means' v').mpr has'] at ends'
    exact ⟨v', ends', last⟩
  · cases out' with
    | error e => exact ⟨e, ends'⟩
    | ok v' =>
      have has' := (means' v').mp rfl
      have at_ : doc'.atPath ([] ++ [key.name]) = _ := (Node.atPath_concat _ _ _).trans (h.child_new hd)
      obtain ⟨w, new⟩ := field_of_dict hd rfl hd.isDict has' at_
      rw [(added_reference h hd has).mp new] at absent
      cases absent

end

/-- `{ a: 1 }`, and with `r: &root.a`. -/
def soleDocument : Node := .bare 1 (.dict [(.plain "a", .bare 2 (.int 1))])

def referringDocument : Node :=
  .bare 1 (.dict [(.plain "a", .bare 2 (.int 1)),
    (.plain "r", .bare 3 (.reference .root [.plain "a"]))])

theorem referringDocument_document : Document referringDocument :=
  Plain.flat_document (by decide) (by decide)
    (forall_mem_cons.mpr ⟨.int, forall_mem_singleton.mpr
      (.reference (.inl rfl) (by decide) (by decide))⟩) (by decide)

/-- The reference gives the one the document has. -/
theorem reference_projects_sole :
    ∃ v w, Outcome (.bare soleDocument) (.ok v) ∧ v.stepAll ["a"] = some w ∧
      ∃ v', Outcome (.bare referringDocument) (.ok v') ∧ v'.step "r" = some w := by
  have one : evaluatedInt (.bare soleDocument) 12 ["a"] = some 1 := by decide +kernel
  obtain ⟨v, run, found⟩ := bind_eq_some_iff.mp one
  obtain ⟨w, there, -⟩ := bind_eq_some_iff.mp found
  have unlimited : Unlimited (.bare soleDocument) := ⟨rfl, rfl⟩
  have value := Outcome.of_evaluatedValue run
  refine ⟨v, w, value, there, ?_⟩
  exact (reference_projects unlimited (fun _ none => nomatch none)
    (@Adds.entry _ _ 1 [_] [] [] [] none _) referringDocument_document value).1 w there

/-! ### A key the value does not have -/

/-- `{ e: () => 1, b: { c: 1 } }`, and with `d: &root.b.e`. -/
def outerDocument : Node :=
  .bare 1 (.dict [
    (.plain "e", .bare 2 (.closure [] (.bare 3 (.int 1)))),
    (.plain "b", .bare 4 (.dict [(.plain "c", .bare 5 (.int 1))]))])

def strayDocument : Node :=
  .bare 1 (.dict [
    (.plain "e", .bare 2 (.closure [] (.bare 3 (.int 1)))),
    (.plain "b", .bare 4 (.dict [(.plain "c", .bare 5 (.int 1))])),
    (.plain "d", .bare 6 (.reference .root [.plain "b", .plain "e"]))])

/-- The value has no `b.e`, and still `&root.b.e` finds the `e` of the root. -/
theorem reference_strays :
    Adds (.plain "d") (.bare 6 (.reference .root [.plain "b", .plain "e"])) outerDocument
      strayDocument ∧
    (evaluatedValue (.bare outerDocument) 12).map (fun v => (v.stepAll ["b", "e"]).isNone) = some true ∧
    (evaluatedValue (.bare strayDocument) 12).isSome = true :=
  ⟨@Adds.entry _ _ 1 [_, _] [] [] [] none _, by decide +kernel, by decide +kernel⟩

/-! ### Siblings -/

section
variable {ctx : Context} {doc : Node}

/-- A path that leads through dict literals to a field denotes that field. -/
theorem target_field {q path : List String} {n : Node}
    (at_ : doc.atPath (q ++ path) = some n) : target ctx doc q path = field ctx doc (q ++ path) := by
  induction path generalizing q with
  | nil => rw [target_nil, append_nil]
  | cons key rest ih =>
    rw [append_cons] at at_ ⊢
    cases there : doc.atPath (q ++ [key]) with
    | none => rw [Node.atPath_append, there] at at_; cases at_
    | some c =>
      cases isDict : c.expr.isDict with
      | true =>
        rw [target_dict there isDict]
        exact ih at_
      | false =>
        cases rest with
        | nil => rw [target_last there, append_nil]
        | cons key' rest =>
          rw [Node.atPath_append, there, bind_some, Node.atPath,
            Node.child_of_not_dict isDict] at at_
          cases at_

theorem target_root {path : List String} {n : Node} (at_ : doc.atPath path = some n) :
    target ctx doc [] path = field ctx doc path :=
  target_field (q := []) at_

/-- Every field inside one that has a value has a value. -/
theorem field_inside (hd : Document doc) {q s : List String} {m : Node} {v : Value}
    (has : (field ctx doc q).Has v) (at_ : doc.atPath (q ++ s) = some m) :
    ∃ u, (field ctx doc (q ++ s)).Has u := by
  induction s generalizing q v with
  | nil =>
    rw [append_nil]
    exact ⟨v, has⟩
  | cons key rest ih =>
    rw [append_cons] at at_ ⊢
    obtain ⟨c, there⟩ : ∃ c, doc.atPath (q ++ [key]) = some c := by
      rw [Node.atPath_append] at at_
      obtain ⟨c, there, -⟩ := bind_eq_some_iff.mp at_
      exact ⟨c, there⟩
    obtain ⟨n, around, child⟩ : ∃ n, doc.atPath q = some n ∧ n.child key = some c := by
      rw [Node.atPath_concat] at there
      exact bind_eq_some_iff.mp there
    have isDict : n.expr.isDict = true := by
      by_contra isTerm
      rw [Node.child_of_not_dict (by simpa using isTerm)] at child
      cases child
    obtain ⟨u, hu⟩ := field_of_dict hd around isDict has there
    exact ih hu at_

/-- A field has a value when every term in it has one. -/
theorem field_of_terms {n : Node} (plain : Plain n) {q : List String} (at_ : doc.atPath q = some n)
    (terms : ∀ s m, doc.atPath (q ++ s) = some m → m.expr.isDict = false →
      ∃ u, (field ctx doc (q ++ s)).Has u) : ∃ u, (field ctx doc q).Has u := by
  induction plain generalizing q with
  | term h =>
    have here := terms [] _ (by rw [append_nil]; exact at_) h.not_dict
    rwa [append_nil] at here
  | dict static distinct fields ih =>
    refine field_dict_has at_ fun e he => ih e he ?_ fun s m => ?_
    · rw [Node.atPath_concat, at_, bind_some]
      exact Node.child_of_mem distinct he
    · rw [append_assoc]
      exact terms ([e.1.name] ++ s) m

variable {p : List String} {r : String} {id : Nat} {key : TokenKey} {range : TokenRange} {k : Node}

/-- A sibling reference denotes what the field it names does. -/
theorem field_sibling
    (at_ : doc.atPath (p ++ [r]) = some (.mk id (.reference .sibling [key]) [] [] none range))
    (there : doc.atPath (p ++ [key.name]) = some k) {u : Value} :
    (field ctx doc (p ++ [r])).Has u ↔ (field ctx doc (p ++ [key.name])).Has u := by
  rw [field_deeper at_, has_deeper, content_term rfl, term_reference]
  show (target ctx doc [] ((p ++ [r]).dropLast ++ [key.name])).Has u ↔ _
  rw [dropLast_concat, target_root there]

/-- On a host without limits, `&sibling.k` in a dict literal of a plain document has
the value of the literal's field `k`; and it is never what an evaluation fails for:
if every other term denotes a value, the evaluation succeeds. -/
theorem sibling_reads_field (unlimited : Unlimited ctx) (schemas : NoRootSchemas ctx)
    (hd : Document doc)
    (at_ : doc.atPath (p ++ [r]) = some (.mk id (.reference .sibling [key]) [] [] none range))
    (there : doc.atPath (p ++ [key.name]) = some k) (other : key.name ≠ r) :
    ∃ out, Outcome (ctx.withRoot doc) out ∧
      (∀ v, out = .ok v → ∃ u, v.stepAll (p ++ [key.name]) = some u ∧
        v.stepAll (p ++ [r]) = some u) ∧
      ((∀ q n, q ≠ p ++ [r] → doc.atPath q = some n → n.expr.isDict = false →
        ∃ u, (field ctx doc q).Has u) → ∃ v, out = .ok v) := by
  obtain ⟨out, ends, means⟩ := evaluate_withRoot hd unlimited schemas
  refine ⟨out, ends, fun v ok => ?_, fun terms => ?_⟩
  · have has := (means v).mp ok
    have projects : ∀ {path n w}, doc.atPath path = some n →
        ((field ctx doc path).Has w ↔ v.stepAll path = some w) := by
      intro path n w field
      rw [← target_projects hd rfl hd.isDict has]
      rw [target_root field]
    obtain ⟨u, hu⟩ := field_inside hd (q := []) has there
    exact ⟨u, (projects there).mp hu, (projects at_).mp ((field_sibling at_ there).mpr hu)⟩
  · -- the field named has a value, so the reference has one, so every term has
    obtain ⟨u, hu⟩ : ∃ u, (field ctx doc (p ++ [key.name])).Has u := by
      refine field_of_terms (hd.plain.atPath there) there fun s m => terms _ m fun same => ?_
      rw [append_assoc] at same
      exact other (head_eq_of_cons_eq (append_cancel_left same))
    have root : ∃ v, (field ctx doc []).Has v := by
      refine field_of_terms hd.plain rfl fun s m inside isTerm => ?_
      by_cases this : s = p ++ [r]
      · rw [this]
        exact ⟨u, (field_sibling at_ there).mpr hu⟩
      · exact terms s m this inside isTerm
    obtain ⟨v, has⟩ := root
    exact ⟨v, (means v).mpr has⟩

end

/-- `{ k: 1, r: &sibling.k }`. -/
def siblingDocument : Node :=
  .bare 1 (.dict [(.plain "k", .bare 2 (.int 1)),
    (.plain "r", .bare 3 (.reference .sibling [.plain "k"]))])

theorem siblingDocument_document : Document siblingDocument :=
  Plain.flat_document (by decide) (by decide)
    (forall_mem_cons.mpr ⟨.int, forall_mem_singleton.mpr
      (.reference (.inr (.inl rfl)) (by decide) (by decide))⟩) (by decide)

/-- Both fields have one value. -/
theorem sibling_reads_field_there :
    ∃ v u, Outcome (.bare siblingDocument) (.ok v) ∧ v.stepAll ["k"] = some u ∧
      v.stepAll ["r"] = some u := by
  have unlimited : Unlimited (.bare siblingDocument) := ⟨rfl, rfl⟩
  obtain ⟨out, ends, same, -⟩ := sibling_reads_field (p := []) (r := "r") unlimited
    (fun _ none => nomatch none) siblingDocument_document rfl rfl (by decide)
  have one : evaluatedInt (.bare siblingDocument) 12 ["r"] = some 1 := by decide +kernel
  obtain ⟨v, run, -⟩ := bind_eq_some_iff.mp one
  obtain ⟨u, named, referring⟩ := same v (ends.unique (.of_evaluatedValue run))
  exact ⟨v, u, .of_evaluatedValue run, named, referring⟩

/-! ### A dict in a branch -/

/-- `{ a: true ? { k: 1 } : 0 }`, and with `r: &sibling.k` beside `k`. -/
def branchDocument : Node :=
  .bare 1 (.dict [(.plain "a", .bare 2 (.ternary (.bare 3 (.bool true))
    (.bare 4 (.dict [(.plain "k", .bare 5 (.int 1))])) (.bare 7 (.int 0))))])

def branchSiblingDocument : Node :=
  .bare 1 (.dict [(.plain "a", .bare 2 (.ternary (.bare 3 (.bool true))
    (.bare 4 (.dict [(.plain "k", .bare 5 (.int 1)),
      (.plain "r", .bare 6 (.reference .sibling [.plain "k"]))])) (.bare 7 (.int 0))))])

def isCircular : Except RuntimeError Value → Bool
  | .error (.circularReference ..) => true
  | _ => false

/-- The walk to the sibling starts at the root and comes to the field that is being
evaluated: it cannot look into the branch. -/
theorem sibling_in_branch_circular : evaluatedInt (.bare branchDocument) 12 ["a", "k"] = some 1 ∧
      (evaluate (.bare branchSiblingDocument) 12).map isCircular = some true := by
  decide +kernel

end Relon.Eval
