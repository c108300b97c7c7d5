import Relon.Eval.Projection

/-! A document as a system of equations.

Each field of a plain document gives an equation: its value is what its literal comes
to when names and references are read from the values of the other fields. The
evaluator never sees such a system, it forces one thunk after another. What it returns
is nevertheless a solution, and the only one; it is found exactly when finitely many
rounds of substitution find it; and a field added to the document leaves the other
fields what they were. -/
namespace Relon.Eval
open List Option Approx

section
variable {ctx : Context} {doc : Node} {v : Value}

/-- An assignment of values to the fields in which every field is what its literal
comes to. -/
def Solves (ctx : Context) (doc : Node) (f : List String → Option Value) : Prop :=
  ∀ p, f p = (doc.atPath p).bind fun n => nodeValue ctx doc f p n

/-- What the fields of a document are in a value. -/
def entries (doc : Node) (v : Value) (p : List String) : Option Value :=
  (doc.atPath p).bind fun _ => v.stepAll p

theorem Solves.knows {f : List String → Option Value} (h : Solves ctx doc f) (depth : Nat) :
    Knows (fieldValue ctx doc depth) f := by
  induction depth with
  | zero => exact fun _ _ none => nomatch none
  | succ depth ih =>
    intro q u found
    rw [h q]
    exact bind_mono (fun _ at_ => at_) (fun _ => nodeValue_mono ih) found

theorem entries_iff (hd : Document doc) (has : (field ctx doc []).Has v) {p : List String}
    {w : Value} : entries doc v p = some w ↔ (field ctx doc p).Has w := by
  constructor
  · intro found
    obtain ⟨n, at_, last⟩ := bind_eq_some_iff.mp found
    rw [← target_root at_]
    exact (target_projects hd rfl hd.isDict has).mpr last
  · intro has'
    obtain ⟨n, at_⟩ := isSome_iff_exists.mp (field_has_at has')
    rw [← target_root at_] at has'
    exact bind_eq_some_iff.mpr ⟨n, at_, (target_projects hd rfl hd.isDict has).mp has'⟩

/-- Every field of a document that has a value has one, found in some round. -/
theorem field_found (hd : Document doc) (has : (field ctx doc []).Has v) {p : List String} {n : Node}
    (at_ : doc.atPath p = some n) : ∃ w depth, fieldValue ctx doc depth p = some w :=
  field_inside (q := []) hd has at_

theorem entries_solve (hd : Document doc) (has : (field ctx doc []).Has v) :
    Solves ctx doc (entries doc v) := by
  intro p
  cases at_ : doc.atPath p with
  | none => rw [entries, at_]; rfl
  | some n =>
    obtain ⟨w, depth, found⟩ := field_found hd has at_
    rw [(entries_iff hd has).mpr ⟨depth, found⟩]
    cases depth with
    | zero => cases found
    | succ depth =>
      -- the round that finds the field reads only fields found before, and those are entries
      have earlier : Knows (fieldValue ctx doc depth) (entries doc v) := fun q u before =>
        (entries_iff hd has).mpr ⟨depth, before⟩
      obtain ⟨n', there, round⟩ := bind_eq_some_iff.mp found
      cases at_.symm.trans there
      exact (nodeValue_mono earlier round).symm

/-- On a host without limits, the evaluation of a plain document ends, and it returns a
value exactly when finitely many rounds of substitution into the fields give it. -/
theorem evaluates_iff_unrolls (hd : Document doc) (unlimited : Unlimited ctx)
    (schemas : NoRootSchemas ctx) (root : ctx.rootNode = some doc) :
    (∃ out, Outcome ctx out) ∧
    ∀ v, Outcome ctx (.ok v) ↔ ∃ depth, fieldValue ctx doc depth [] = some v := by
  obtain ⟨out, ends, means, -⟩ := evaluate_document hd unlimited schemas root
  refine ⟨⟨out, ends⟩, fun v => ?_⟩
  constructor
  · exact fun value => (means v).mp (ends.unique value)
  · intro unrolled
    rw [(means v).mpr unrolled] at ends
    exact ends

/-- When the evaluation returns a value, its entries solve the equations of the fields,
and nothing else does. -/
theorem result_solves_uniquely (hd : Document doc) (unlimited : Unlimited ctx)
    (schemas : NoRootSchemas ctx) (root : ctx.rootNode = some doc) (value : Outcome ctx (.ok v))
    (f : List String → Option Value) : Solves ctx doc f ↔ f = entries doc v := by
  obtain ⟨out, ends, means, -⟩ := evaluate_document hd unlimited schemas root
  have has : (field ctx doc []).Has v := (means v).mp (ends.unique value)
  constructor
  · intro solves
    funext p
    cases at_ : doc.atPath p with
    | none => rw [solves p, entries, at_]; rfl
    | some n =>
      obtain ⟨w, depth, found⟩ := field_found hd has at_
      rw [solves.knows depth _ _ found, (entries_iff hd has).mpr ⟨depth, found⟩]
  · rintro rfl
    exact entries_solve hd has

/-- A field added at the root of a document that has a value leaves every other field
of the value as it was, wherever it is written. -/
theorem added_field_keeps_others {doc' : Node} {key : TokenKey} {node : Node} {v' : Value}
    (unlimited : Unlimited ctx) (schemas : NoRootSchemas ctx) (h : Adds key node doc doc')
    (hd : Document doc') (value : Outcome (ctx.withRoot doc) (.ok v))
    (value' : Outcome (ctx.withRoot doc') (.ok v')) {x : String} (other : x ≠ key.name) :
    v'.step x = v.step x := by
  have hd₀ := h.document hd
  obtain ⟨out, ends, means⟩ := evaluate_withRoot hd₀ unlimited schemas
  obtain ⟨out', ends', means'⟩ := evaluate_withRoot hd unlimited schemas
  have has : (field ctx doc []).Has v := (means v).mp (ends.unique value)
  have has' : (field ctx doc' []).Has v' := (means' v').mp (ends'.unique value')
  refine Option.ext fun w => ?_
  rw [field_step hd₀ rfl hd₀.isDict has, field_step hd rfl hd.isDict has']
  have kept : ∀ {u}, (field ctx doc ([] ++ [x])).Has u → (field ctx doc' ([] ++ [x])).Has u :=
    field_embeds hd₀ hd (h.embeds hd) (concat_ne_nil _ _)
  refine ⟨fun new => ?_, kept⟩
  -- the field is one of the smaller document, so it has a value there
  obtain ⟨n, at_⟩ := isSome_iff_exists.mp (field_has_at new)
  obtain ⟨u, old⟩ := field_of_dict hd₀ rfl hd₀.isDict has ((h.atPath other []).symm.trans at_)
  rw [new.unique (kept old)]
  exact old

end

theorem soleDocument_value : ∃ v, Outcome (.bare soleDocument) (.ok v) := by
  have one : evaluatedInt (.bare soleDocument) 12 ["a"] = some 1 := by decide +kernel
  obtain ⟨v, run, -⟩ := bind_eq_some_iff.mp one
  exact ⟨v, Outcome.of_evaluatedValue run⟩

theorem referringDocument_value : ∃ v, Outcome (.bare referringDocument) (.ok v) := by
  have one : evaluatedInt (.bare referringDocument) 12 ["r"] = some 1 := by decide +kernel
  obtain ⟨v, run, -⟩ := bind_eq_some_iff.mp one
  exact ⟨v, Outcome.of_evaluatedValue run⟩

theorem bare_noRootSchemas (doc : Node) : NoRootSchemas (.bare doc) := fun _ none => nomatch none

/-- One round of substitution finds `a`, the next one `r: &root.a`. -/
theorem evaluates_iff_unrolls_referring :
    ∃ v, Outcome (.bare referringDocument) (.ok v) ∧
      ∃ depth, fieldValue (.bare referringDocument) referringDocument depth [] = some v := by
  obtain ⟨v, value⟩ := referringDocument_value
  exact ⟨v, value, ((evaluates_iff_unrolls referringDocument_document ⟨rfl, rfl⟩
    (bare_noRootSchemas _) rfl).2 v).mp value⟩

/-- The entries of the value solve the two equations of the document. -/
theorem result_solves_uniquely_referring :
    ∃ v, Outcome (.bare referringDocument) (.ok v) ∧
      Solves (.bare referringDocument) referringDocument (entries referringDocument v) := by
  obtain ⟨v, value⟩ := referringDocument_value
  exact ⟨v, value, (result_solves_uniquely referringDocument_document ⟨rfl, rfl⟩
    (bare_noRootSchemas _) rfl value _).mpr rfl⟩

/-- With `r: &root.a` or without it, `a` is the same. -/
theorem added_field_keeps_others_referring :
    ∃ v v', Outcome (.bare soleDocument) (.ok v) ∧ Outcome (.bare referringDocument) (.ok v') ∧
      v'.step "a" = v.step "a" := by
  obtain ⟨v, value⟩ := soleDocument_value
  obtain ⟨v', value'⟩ := referringDocument_value
  have unlimited : Unlimited (.bare soleDocument) := ⟨rfl, rfl⟩
  exact ⟨v, v', value, value', added_field_keeps_others unlimited (bare_noRootSchemas _)
    (@Adds.entry _ _ 1 [_] [] [] [] none _) referringDocument_document value value' (by decide)⟩

end Relon.Eval
