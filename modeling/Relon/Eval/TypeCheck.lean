import Relon.Eval.Conform

/-! The runtime type check against conformance.

The check follows the structure of the type, so that an accepted value is taken
apart level by level into the checks that accepted its components. The `visited`
set is kept out of the way by a bookkeeping of addresses: a check marks its own
slot and blocks that were not in use before, so that only a field that a default
has moved to the place of another can be skipped. -/
namespace Relon.Eval
open List Assoc
open Prog (Yields)

/-! ### Addresses -/

/-- An entry of the `visited` set. -/
abbrev Mark := String × Nat × Nat

/-- A mark a check of `v` against `t` makes on its own slot. -/
def OwnMark (slot : Nat × Nat) (v : Value) (t : TypeNode) (m : Mark) : Prop :=
  m.2 = slot ∧ Marked v t m.1

/-- The set grows by marks in blocks not in use before, and by those allowed. -/
structure Marks (allowed : Mark → Prop) (vs vs' : Visits) : Prop where
  next : vs.next ≤ vs'.next
  seen : ∀ m ∈ vs'.seen, m ∈ vs.seen ∨ (vs.next ≤ m.2.1 ∧ m.2.1 < vs'.next) ∨ allowed m

/-- All marks are in blocks in use. -/
def Visits.Tidy (vs : Visits) : Prop := ∀ m ∈ vs.seen, m.2.1 < vs.next

namespace Marks

variable {allowed allowed' : Mark → Prop} {vs vs' vs'' : Visits}

theorem refl (vs : Visits) : Marks allowed vs vs := ⟨Nat.le_refl _, fun _ h => .inl h⟩

theorem mono (h : Marks allowed vs vs') (le : ∀ m, allowed m → allowed' m) :
    Marks allowed' vs vs' :=
  ⟨h.next, fun m hm => (h.seen m hm).imp_right (Or.imp_right (le m))⟩

theorem trans (h : Marks allowed vs vs') (h' : Marks allowed vs' vs'') : Marks allowed vs vs'' := by
  refine ⟨Nat.le_trans h.next h'.next, fun m hm => ?_⟩
  rcases h'.seen m hm with old | fresh | new
  · rcases h.seen m old with old | fresh | new
    · exact .inl old
    · exact .inr (.inl ⟨fresh.1, Nat.lt_of_lt_of_le fresh.2 h'.next⟩)
    · exact .inr (.inr new)
  · exact .inr (.inl ⟨Nat.le_trans h.next fresh.1, fresh.2⟩)
  · exact .inr (.inr new)

theorem allow (h : Marks (fun _ => False) vs vs') : Marks allowed vs vs' :=
  h.mono fun _ no => no.elim

theorem enter (h : Marks (fun m => m.2.1 = vs.next) vs.block.2 vs') :
    Marks (fun _ => False) vs vs' := by
  have grown : vs.next + 1 ≤ vs'.next := h.next
  refine ⟨by omega, fun m hm => ?_⟩
  rcases h.seen m hm with old | fresh | new
  · exact .inl old
  · have inside : vs.next + 1 ≤ m.2.1 := fresh.1
    exact .inr (.inl ⟨by omega, fresh.2⟩)
  · exact .inr (.inl ⟨by omega, by omega⟩)

theorem tidy (h : Marks allowed vs vs') (tidy : vs.Tidy) (used : ∀ m, allowed m → m.2.1 < vs.next) :
    vs'.Tidy := by
  intro m hm
  have grown := h.next
  rcases h.seen m hm with old | fresh | new
  · have inside := tidy m old
    omega
  · exact fresh.2
  · have inside := used m new
    omega

end Marks

theorem Visits.Tidy.block {vs : Visits} (h : vs.Tidy) : vs.block.2.Tidy :=
  fun m hm => Nat.lt_succ_of_lt (h m hm)

theorem Visits.Tidy.mark {vs : Visits} {slot : Nat × Nat} (h : vs.Tidy) (inUse : slot.1 < vs.next)
    (name : String) : (vs.mark name slot).Tidy := by
  intro m hm
  cases mem_cons.mp hm with
  | inl new => rw [new]; exact inUse
  | inr old => exact h m old

/-- A slot where a check of `v` against `t` will not be skipped. -/
structure Fresh (slot : Nat × Nat) (v : Value) (t : TypeNode) (vs : Visits) : Prop where
  tidy : vs.Tidy
  inUse : slot.1 < vs.next
  unseen : ∀ m, OwnMark slot v t m → m ∉ vs.seen

theorem Fresh.start (v : Value) (t : TypeNode) : Fresh (0, 0) v t ⟨[], 1⟩ :=
  ⟨fun _ hm => absurd hm not_mem_nil, Nat.zero_lt_one, fun _ _ => not_mem_nil⟩

/-! ### One level of the check -/

section
variable (ctx : Context) (fuel : Nat) (P : Store → Prop) (check : Check)

/-- A check that took `old` for `x`, in a slot where it was not skipped. -/
def Ran (old x : Value) (t : TypeNode) : Prop :=
  ∃ slot vs vs' σ τ, Yields (handle ctx fuel) P (check old slot t vs) σ (x, vs') τ ∧
    Fresh slot old t vs

/-- The components of a value before and after the check, each against its type. -/
def Renewed (before after : List (Value × TypeNode)) : Prop :=
  List.Forall₂ (fun o p => o.2 = p.2 ∧ Ran ctx fuel P check o.1 p.1 p.2) before after

/-- The check marks its own slot and nothing else that was in use. -/
def MarksOwn : Prop :=
  ∀ v slot t vs σ v' vs' τ, vs.Tidy → slot.1 < vs.next →
    Yields (handle ctx fuel) P (check v slot t vs) σ (v', vs') τ →
    Marks (OwnMark slot v t) vs vs'

variable {ctx fuel P check}

theorem Renewed.source {before after : List (Value × TypeNode)}
    (h : Renewed ctx fuel P check before after) {p : Value × TypeNode} (hp : p ∈ after) :
    ∃ o ∈ before, o.2 = p.2 ∧ Ran ctx fuel P check o.1 p.1 p.2 := by
  induction h with
  | nil => cases hp
  | cons first _ ih =>
    cases mem_cons.mp hp with
    | inl here => exact ⟨_, mem_cons_self, here ▸ first⟩
    | inr later =>
      obtain ⟨o, ho, ran⟩ := ih later
      exact ⟨o, mem_cons_of_mem _ ho, ran⟩

theorem Renewed.result {before after : List (Value × TypeNode)}
    (h : Renewed ctx fuel P check before after) {o : Value × TypeNode} (ho : o ∈ before) :
    ∃ p ∈ after, o.2 = p.2 ∧ Ran ctx fuel P check o.1 p.1 p.2 := by
  induction h with
  | nil => cases ho
  | cons first _ ih =>
    cases mem_cons.mp ho with
    | inl here => exact ⟨_, mem_cons_self, here ▸ first⟩
    | inr later =>
      obtain ⟨p, hp, ran⟩ := ih later
      exact ⟨p, mem_cons_of_mem _ hp, ran⟩

variable {items : List (Value × TypeNode)} {out : List Value} {vs vs' : Visits} {σ τ : Store}

theorem Renewed.of_items (h : List.Forall₂ (fun p x => Ran ctx fuel P check p.1 x p.2) items out) :
    Renewed ctx fuel P check items (out.zip (items.map Prod.snd)) := by
  induction h with
  | nil => exact .nil
  | cons first _ ih => exact .cons ⟨rfl, first⟩ ih

theorem checkSlots_yields (own : MarksOwn ctx fuel P check) {block : Nat} {i : Nat}
    (y : Yields (handle ctx fuel) P (checkSlots check block i items vs) σ (out, vs') τ)
    (tidy : vs.Tidy) (inUse : block < vs.next) (free : ∀ m ∈ vs.seen, m.2.1 = block → m.2.2 < i) :
    List.Forall₂ (fun p x => Ran ctx fuel P check p.1 x p.2) items out ∧
      Marks (fun m => m.2.1 = block) vs vs' := by
  induction items generalizing i vs σ τ out with
  | nil =>
    cases y.of_ret.1
    exact ⟨.nil, .refl _⟩
  | cons item rest ih =>
    obtain ⟨v, t⟩ := item
    obtain ⟨⟨x, vs₁⟩, σ₁, first, y⟩ := y.of_bind
    obtain ⟨⟨xs, vs₂⟩, σ₂, others, y⟩ := y.of_bind
    cases y.of_ret.1
    have marks := own _ _ _ _ _ _ _ _ tidy inUse first
    have unseen : ∀ m, OwnMark (block, i) v t m → m ∉ vs.seen := by
      intro m hm seen
      have := free m seen (by rw [hm.1])
      rw [hm.1] at this
      exact Nat.lt_irrefl _ this
    have tidy₁ : vs₁.Tidy := marks.tidy tidy fun m hm => by rw [hm.1]; exact inUse
    have free₁ : ∀ m ∈ vs₁.seen, m.2.1 = block → m.2.2 < i + 1 := by
      intro m hm here
      rcases marks.seen m hm with old | fresh | new
      · exact Nat.lt_succ_of_lt (free m old here)
      · omega
      · rw [new.1]
        exact Nat.lt_succ_self i
    obtain ⟨ran, more⟩ := ih others tidy₁ (Nat.lt_of_lt_of_le inUse marks.next) free₁
    exact ⟨.cons ⟨_, _, _, _, _, first, tidy, inUse, unseen⟩ ran,
      (marks.mono fun m hm => by rw [hm.1]).trans more⟩

theorem checkItems_yields (own : MarksOwn ctx fuel P check)
    (y : Yields (handle ctx fuel) P (checkItems check items vs) σ (out, vs') τ)
    (tidy : vs.Tidy) : out.length = items.length ∧
      Renewed ctx fuel P check items (out.zip (items.map Prod.snd)) ∧
      Marks (fun _ => False) vs vs' := by
  obtain ⟨ran, marks⟩ := checkSlots_yields own y tidy.block (Nat.lt_succ_self _)
    (fun m hm here => absurd here (Nat.ne_of_lt (tidy m hm)))
  exact ⟨ran.length_eq.symm, .of_items ran, marks.enter⟩

theorem checkZip_yields (own : MarksOwn ctx fuel P check) {items : List Value}
    {types : List TypeNode}
    (y : Yields (handle ctx fuel) P (checkItems check (items.zip types) vs) σ (out, vs') τ)
    (arity : items.length = types.length) (tidy : vs.Tidy) : out.length = types.length ∧
      Renewed ctx fuel P check (items.zip types) (out.zip types) ∧
      Marks (fun _ => False) vs vs' := by
  obtain ⟨length, renewed, marks⟩ := checkItems_yields own y tidy
  rw [map_snd_zip (Nat.le_of_eq arity.symm)] at renewed
  rw [length_zip, arity, Nat.min_self] at length
  exact ⟨length, renewed, marks⟩

theorem zip_const {α β γ : Type} {xs : List α} {ys : List β} (length : xs.length = ys.length)
    (c : γ) : xs.zip (ys.map fun _ => c) = xs.map fun x => (x, c) := by
  induction xs generalizing ys with
  | nil => rfl
  | cons x rest ih =>
    cases ys with
    | nil => cases length
    | cons y ys => rw [map_cons, zip_cons_cons, ih (Nat.succ.inj length), map_cons]

theorem checkConst_yields (own : MarksOwn ctx fuel P check) {items : List Value} {t : TypeNode}
    (y : Yields (handle ctx fuel) P (checkItems check (items.map fun v => (v, t)) vs) σ
      (out, vs') τ) (tidy : vs.Tidy) : out.length = items.length ∧
      Renewed ctx fuel P check (items.map fun v => (v, t)) (out.map fun v => (v, t)) ∧
      Marks (fun _ => False) vs vs' := by
  obtain ⟨length, renewed, marks⟩ := checkItems_yields own y tidy
  rw [length_map] at length
  rw [map_map] at renewed
  rw [← zip_const length t]
  exact ⟨length, renewed, marks⟩

/-! ### Fields -/

/-- A predicate accepts a value, some time it is called on it. -/
def PredicateHolds (ctx : Context) (p x : Value) : Prop :=
  ∃ fuel range σ r τ, (callFunctionByValue p [(none, x)] range).run (handle ctx fuel) σ =
    some (.ok r, τ) ∧ r.isTruthy ctx = true

/-- A predicate that accepted a value while the condition stood. -/
def Answered (ctx : Context) (fuel : Nat) (P : Store → Prop) (p x : Value) : Prop :=
  ∃ range σ r τ, Yields (handle ctx fuel) P (callFunctionByValue p [(none, x)] range) σ r τ ∧
    r.isTruthy ctx = true

theorem Answered.holds {p x : Value} (h : Answered ctx fuel P p x) : PredicateHolds ctx p x := by
  obtain ⟨range, σ, r, τ, called, truthy⟩ := h
  exact ⟨fuel, range, σ, r, τ, called.run, truthy⟩

theorem checkPredicates_yields {name : String} {field : SchemaField} {x : Value}
    {range : TokenRange} {predicates : List Value}
    (y : Yields (handle ctx fuel) P (checkPredicates ctx name field x range predicates) σ () τ) :
    ∀ p ∈ predicates, p.isClosure → Answered ctx fuel P p x := by
  induction predicates generalizing σ with
  | nil => simp
  | cons q rest ih =>
    intro p hp closure
    unfold checkPredicates at y
    split at y
    · obtain ⟨r, σ₁, called, y⟩ := y.of_bind
      split at y
      · rename_i truthy
        cases mem_cons.mp hp with
        | inl here => rw [here]; exact ⟨range, σ, r, σ₁, called, truthy⟩
        | inr later => exact ih y p later closure
      · exact y.of_fail.elim
    · rename_i plain
      cases mem_cons.mp hp with
      | inl here => exact absurd (here ▸ closure) plain
      | inr later => exact ih y p later closure

variable (ctx fuel P check) in
/-- What one field does to a map. -/
inductive FieldStep (block : Nat) (st : Filling) (e : String × SchemaField) : Filling → Prop where
  | checked {old x : Value} {vs' : Visits} {σ τ : Store} (there : st.map.lookup e.1 = some old)
    (y : Yields (handle ctx fuel) P
      (check old (block, st.map.rank e.1) e.2.typeHint st.visits) σ (x, vs') τ)
    (accepted : ∀ p ∈ e.2.predicates, p.isClosure → Answered ctx fuel P p x) :
    FieldStep block st e { st with map := st.map.put e.1 x, visits := vs' }
  | deferred {d : Value} (missing : st.map.lookup e.1 = none) (default : e.2.defaultValue = some d)
    (computed : d.isClosure) : FieldStep block st e { st with deferred := st.deferred ++ [(e.1, d)] }
  | filled {d : Value} (missing : st.map.lookup e.1 = none) (default : e.2.defaultValue = some d)
    (static : ¬ d.isClosure) : FieldStep block st e { st with map := st.map.insertSorted e.1 d }
  | absent (missing : st.map.lookup e.1 = none) (default : e.2.defaultValue = none)
    (optional : e.2.mayBeAbsent) : FieldStep block st e st

variable {block : Nat} {st st' : Filling} {e : String × SchemaField}
  {rest : List (String × SchemaField)}

theorem applyField_yields {range : TokenRange} {σ τ : Store}
    (y : Yields (handle ctx fuel) P (applyField ctx check block range st e.1 e.2) σ st' τ) :
    FieldStep ctx fuel P check block st e st' := by
  unfold applyField at y
  split at y
  · rename_i old there
    obtain ⟨⟨x, vs'⟩, σ₁, first, y⟩ := y.of_bind
    obtain ⟨⟨⟩, σ₂, predicates, y⟩ := y.of_bind
    cases y.of_ret.1
    exact .checked there first (checkPredicates_yields predicates)
  · rename_i missing
    split at y
    · rename_i d default
      split at y
      · rename_i computed
        cases y.of_ret.1
        exact .deferred missing default computed
      · rename_i static
        cases y.of_ret.1
        exact .filled missing default static
    · rename_i default
      split at y
      · rename_i optional
        cases y.of_ret.1
        exact .absent missing default optional
      · exact y.of_fail.elim

theorem FieldStep.marks (own : MarksOwn ctx fuel P check)
    (step : FieldStep ctx fuel P check block st e st') (tidy : st.visits.Tidy)
    (inUse : block < st.visits.next) :
    Marks (fun m => ∃ v, st.map.lookup e.1 = some v ∧
      OwnMark (block, st.map.rank e.1) v e.2.typeHint m) st.visits st'.visits := by
  cases step with
  | checked there y accepted =>
    exact (own _ _ _ _ _ _ _ _ tidy inUse y).mono fun m hm => ⟨_, there, hm⟩
  | _ => exact .refl _

theorem FieldStep.lookup_ne (step : FieldStep ctx fuel P check block st e st') {name : String}
    (ne : name ≠ e.1) : st'.map.lookup name = st.map.lookup name := by
  cases step with
  | checked there y accepted => rw [lookup_put, if_neg ne]
  | filled missing default static => rw [lookup_insertSorted, if_neg ne]
  | _ => rfl

theorem filledIn_append (map : Assoc Value) (front back : List (String × SchemaField)) :
    filledIn map (front ++ back) = filledIn (filledIn map front) back := by
  induction front generalizing map with
  | nil => rfl
  | cons e front ih =>
    rw [cons_append, filledIn, filledIn]
    split
    · split <;> exact ih _
    · exact ih _

/-- The fields `front` of `map` are through: nothing is known of the values in their places, the
others are as they were, and what is marked are fields that were there. -/
structure Through (block : Nat) (map : Assoc Value) (front : List (String × SchemaField))
    (st : Filling) : Prop where
  keys : st.map.map Prod.fst = (filledIn map front).map Prod.fst
  others : ∀ name, name ∉ front.map Prod.fst → st.map.lookup name = map.lookup name
  same : ∀ name, name ∉ front.map Prod.fst → (filledIn map front).lookup name = map.lookup name
  seen : ∀ m ∈ st.visits.seen, m.2.1 = block → ∃ before e mid x, front = before ++ e :: mid ∧
    map.lookup e.1 = some x ∧ Marked x e.2.typeHint m.1 ∧ m.2.2 = placeBehind map before e.1

/-- The fields still to be checked will not be skipped. -/
def Clear (block : Nat) (st : Filling) (fields : List (String × SchemaField)) : Prop :=
  ∃ map front, Through block map front st ∧ Apart map (front ++ fields) ∧
    ((front ++ fields).map Prod.fst).Nodup

theorem Clear.here (h : Clear block st (e :: rest)) {v : Value} (there : st.map.lookup e.1 = some v) :
    ∀ m, OwnMark (block, st.map.rank e.1) v e.2.typeHint m → m ∉ st.visits.seen := by
  intro m ⟨slot, marked⟩ seen
  obtain ⟨map, front, through, apart, names⟩ := h
  have new : e.1 ∉ front.map Prod.fst := by
    rw [map_append, map_cons] at names
    exact fun mem => (nodup_append.mp names).2.2 _ mem _ mem_cons_self rfl
  rw [through.others e.1 new] at there
  obtain ⟨before, e₀, mid, x, rfl, there₀, marked₀, place⟩ := through.seen m seen (by rw [slot])
  rw [append_assoc, cons_append] at apart
  refine apart before e₀ mid e rest rfl x v m.1 there₀ there marked₀ marked ?_
  rw [← place, slot]
  exact rank_congr through.keys e.1

theorem Clear.step (own : MarksOwn ctx fuel P check) (clear : Clear block st (e :: rest))
    (step : FieldStep ctx fuel P check block st e st') (tidy : st.visits.Tidy)
    (inUse : block < st.visits.next) : Clear block st' rest := by
  have marks := step.marks own tidy inUse
  obtain ⟨map, front, through, apart, names⟩ := clear
  have new : e.1 ∉ front.map Prod.fst := by
    rw [map_append, map_cons] at names
    exact fun mem => (nodup_append.mp names).2.2 _ mem _ mem_cons_self rfl
  have here := through.others e.1 new
  have here' := through.same e.1 new
  refine ⟨map, front ++ [e], ⟨?_, ?_, ?_, ?_⟩, by simpa using apart, by simpa using names⟩
  · rw [filledIn_append, filledIn, here']
    cases step with
    | checked there y accepted =>
      rw [here] at there
      rw [there]
      exact (keys_put (here.trans there)).trans through.keys
    | deferred missing default computed =>
      rw [here] at missing
      simp only [missing, default, computed, if_true]
      exact through.keys
    | filled missing default static =>
      rw [here] at missing
      simp only [missing, default, static]
      exact keys_insertSorted through.keys _ _ _
    | absent missing default optional =>
      rw [here] at missing
      simp only [missing, default]
      exact through.keys
  · intro name outside
    rw [map_append, mem_append, not_or] at outside
    rw [step.lookup_ne (by simpa using outside.2), through.others name outside.1]
  · intro name outside
    rw [map_append, mem_append, not_or] at outside
    rw [filledIn_append, filledIn]
    have ne : name ≠ e.1 := by simpa using outside.2
    split
    · split
      · exact through.same name outside.1
      · rw [filledIn, lookup_insertSorted, if_neg ne, through.same name outside.1]
    · exact through.same name outside.1
  · intro m seen block_
    rcases marks.seen m seen with old | fresh | ⟨v, there, slot, marked⟩
    · obtain ⟨before, e₀, mid, x, rfl, there, marked, place⟩ := through.seen m old block_
      exact ⟨before, e₀, mid ++ [e], x, by simp, there, marked, place⟩
    · rw [block_] at fresh
      exact absurd fresh.1 (Nat.not_le_of_lt inUse)
    · rw [here] at there
      refine ⟨front, e, [], v, rfl, there, marked, ?_⟩
      rw [slot]
      exact rank_congr through.keys e.1

variable (ctx fuel P check) in
/-- How a field stands once the fields are through: checked, to be filled or filled by
its default, or left out. -/
inductive FieldDone (st st' : Filling) (e : String × SchemaField) : Prop where
  | checked {old x : Value} (before : st.map.lookup e.1 = some old)
    (there : st'.map.lookup e.1 = some x) (ran : Ran ctx fuel P check old x e.2.typeHint)
    (accepted : ∀ p ∈ e.2.predicates, p.isClosure → Answered ctx fuel P p x)
  | deferred {d : Value} (before : st.map.lookup e.1 = none) (default : e.2.defaultValue = some d)
    (computed : d.isClosure) (later : (e.1, d) ∈ st'.deferred)
  | filled {d : Value} (before : st.map.lookup e.1 = none) (default : e.2.defaultValue = some d)
    (static : ¬ d.isClosure) (there : st'.map.lookup e.1 = some d)
  | absent (before : st.map.lookup e.1 = none) (default : e.2.defaultValue = none)
    (optional : e.2.mayBeAbsent) (missing : st'.map.lookup e.1 = none)

/-- What is deferred are computed defaults of missing fields. -/
def DeferredFrom (st : Filling) (fields : List (String × SchemaField)) (d : String × Value) : Prop :=
  ∃ e ∈ fields, e.1 = d.1 ∧ e.2.defaultValue = some d.2 ∧ st.map.lookup e.1 = none ∧ d.2.isClosure

variable {block : Nat} {st st' : Filling} {e : String × SchemaField} {range : TokenRange}
  {σ τ : Store}

theorem FieldStep.deferred_mem (step : FieldStep ctx fuel P check block st e st') :
    (∀ d ∈ st.deferred, d ∈ st'.deferred) ∧ ∀ d ∈ st'.deferred, d ∈ st.deferred ∨
      (e.1 = d.1 ∧ e.2.defaultValue = some d.2 ∧ st.map.lookup e.1 = none ∧ d.2.isClosure) := by
  cases step with
  | deferred missing default computed =>
    refine ⟨fun d hd => mem_append_left _ hd, fun d hd => ?_⟩
    rcases mem_append.mp hd with old | new
    · exact .inl old
    · rw [mem_singleton.mp new]
      exact .inr ⟨rfl, default, missing, computed⟩
  | _ => exact ⟨fun _ hd => hd, fun _ hd => .inl hd⟩

theorem FieldStep.done {st st₁ st' : Filling} (step : FieldStep ctx fuel P check block st e st₁)
    (tidy : st.visits.Tidy) (inUse : block < st.visits.next)
    (unseen : ∀ v, st.map.lookup e.1 = some v →
      ∀ m, OwnMark (block, st.map.rank e.1) v e.2.typeHint m → m ∉ st.visits.seen)
    (kept : st'.map.lookup e.1 = st₁.map.lookup e.1)
    (deferred : ∀ d ∈ st₁.deferred, d ∈ st'.deferred) : FieldDone ctx fuel P check st st' e := by
  cases step with
  | checked there y accepted =>
    rw [lookup_put, if_pos rfl] at kept
    exact .checked there kept ⟨_, _, _, _, _, y, tidy, inUse, unseen _ there⟩ accepted
  | deferred missing default computed =>
    exact .deferred missing default computed
      (deferred _ (mem_append_right _ (mem_singleton_self _)))
  | filled missing default static =>
    rw [lookup_insertSorted, if_pos rfl] at kept
    exact .filled missing default static kept
  | absent missing default optional => exact .absent missing default optional (kept.trans missing)

theorem applyFields_yields (own : MarksOwn ctx fuel P check) {fields : List (String × SchemaField)}
    (y : Yields (handle ctx fuel) P (applyFields ctx check block range fields st) σ st' τ)
    (names : (fields.map Prod.fst).Nodup) (tidy : st.visits.Tidy) (inUse : block < st.visits.next) :
    Marks (fun m => m.2.1 = block) st.visits st'.visits ∧
      (∀ name, name ∉ fields.map Prod.fst → st'.map.lookup name = st.map.lookup name) ∧
      (∀ d ∈ st.deferred, d ∈ st'.deferred) ∧
      (∀ d ∈ st'.deferred, d ∈ st.deferred ∨ DeferredFrom st fields d) ∧
      (∀ e ∈ fields, st.map.lookup e.1 = none → ∀ d, e.2.defaultValue = some d → ¬ d.isClosure →
        st'.map.lookup e.1 = some d) ∧
      (Clear block st fields → ∀ e ∈ fields, FieldDone ctx fuel P check st st' e) := by
  induction fields generalizing st σ with
  | nil =>
    cases y.of_ret.1
    exact ⟨.refl _, fun _ _ => rfl, fun _ hd => hd, fun _ hd => .inl hd,
      fun _ he => absurd he not_mem_nil, fun _ _ he => absurd he not_mem_nil⟩
  | cons e rest ih =>
    obtain ⟨st₁, σ₁, first, y⟩ := y.of_bind
    have step := applyField_yields first
    have marks : Marks (fun m => m.2.1 = block) st.visits st₁.visits :=
      (step.marks own tidy inUse).mono fun m ⟨_, _, slot, _⟩ => by rw [slot]
    obtain ⟨more, unchanged, kept, from_, filled, done⟩ := ih y (nodup_cons.mp names).2
      (marks.tidy tidy fun m hm => hm ▸ inUse) (Nat.lt_of_lt_of_le inUse marks.next)
    have own_ : e.1 ∉ rest.map Prod.fst := (nodup_cons.mp names).1
    have others : ∀ e' ∈ rest, e'.1 ≠ e.1 := fun e' he' same =>
      own_ (same ▸ mem_map_of_mem he')
    refine ⟨marks.trans more, ?_, fun d hd => kept d (step.deferred_mem.1 d hd), ?_, ?_, ?_⟩
    · intro name hname
      rw [map_cons, mem_cons, not_or] at hname
      rw [unchanged name hname.2, step.lookup_ne hname.1]
    · intro d hd
      rcases from_ d hd with old | ⟨e', he', name, default, missing⟩
      · rcases step.deferred_mem.2 d old with old | here
        · exact .inl old
        · exact .inr ⟨e, mem_cons_self .., here⟩
      · rw [step.lookup_ne (others e' he')] at missing
        exact .inr ⟨e', mem_cons_of_mem _ he', name, default, missing⟩
    · intro e' he' missing d default static
      cases mem_cons.mp he' with
      | inl here =>
        rw [here] at missing default ⊢
        rw [unchanged e.1 own_]
        cases step with
        | checked there y accepted => rw [missing] at there; cases there
        | deferred missing default' computed =>
          rw [default] at default'
          cases default'
          exact absurd computed static
        | filled missing default' static =>
          rw [default] at default'
          cases default'
          rw [lookup_insertSorted, if_pos rfl]
        | absent missing default' optional => rw [default] at default'; cases default'
      | inr later =>
        rw [← step.lookup_ne (others e' later)] at missing
        exact filled e' later missing d default static
    · intro clear e' he'
      cases mem_cons.mp he' with
      | inl here =>
        rw [here]
        exact step.done tidy inUse (fun v there => clear.here there) (unchanged e.1 own_) kept
      | inr later =>
        cases done (clear.step own step tidy inUse) e' later with
        | checked before there ran accepted =>
          rw [step.lookup_ne (others e' later)] at before
          exact .checked before there ran accepted
        | deferred before default computed deferred =>
          rw [step.lookup_ne (others e' later)] at before
          exact .deferred before default computed deferred
        | filled before default static there =>
          rw [step.lookup_ne (others e' later)] at before
          exact .filled before default static there
        | absent before default optional missing =>
          rw [step.lookup_ne (others e' later)] at before
          exact .absent before default optional missing

theorem fillDeferred_yields {snapshot : Value} {ds map map' : Assoc Value}
    (y : Yields (handle ctx fuel) P (fillDeferred snapshot range ds map) σ map' τ)
    (computed : ∀ d ∈ ds, d.2.isClosure) :
    (∀ d ∈ ds, ∃ d' ∈ ds, d'.1 = d.1 ∧ ∃ r, Fills ctx d'.2 r ∧ map'.lookup d.1 = some r) ∧
      ∀ name, name ∉ ds.map Prod.fst → map'.lookup name = map.lookup name := by
  induction ds generalizing map σ with
  | nil =>
    cases y.of_ret.1
    exact ⟨fun _ hd => absurd hd (not_mem_nil), fun _ _ => rfl⟩
  | cons d rest ih =>
    obtain ⟨r, σ₁, called, y⟩ := y.of_bind
    obtain ⟨there, unchanged⟩ := ih y fun d' hd' => computed d' (mem_cons_of_mem _ hd')
    have widen : ∀ d' ∈ rest, ∃ d'' ∈ d :: rest, d''.1 = d'.1 ∧
        ∃ r, Fills ctx d''.2 r ∧ map'.lookup d'.1 = some r := fun d' hd' =>
      (there d' hd').imp fun d'' h => ⟨mem_cons_of_mem _ h.1, h.2⟩
    refine ⟨fun d' hd' => ?_, fun name hname => ?_⟩
    · cases mem_cons.mp hd' with
      | inr later => exact widen d' later
      | inl here =>
        rw [here]
        by_cases again : d.1 ∈ rest.map Prod.fst
        · obtain ⟨d'', hd'', same⟩ := mem_map.mp again
          rw [← same]
          exact widen d'' hd''
        · refine ⟨d, mem_cons_self, rfl, r, .computed (computed d mem_cons_self) called.run, ?_⟩
          rw [unchanged d.1 again, lookup_insertSorted, if_pos rfl]
    · rw [map_cons, mem_cons, not_or] at hname
      rw [unchanged name hname.2, lookup_insertSorted, if_neg hname.1]

variable (ctx fuel P check) in
/-- What a schema did about a field of a map. -/
inductive FieldRan (map map' : Assoc Value) (e : String × SchemaField) : Prop where
  | checked {old x : Value} (before : map.lookup e.1 = some old) (there : map'.lookup e.1 = some x)
    (ran : Ran ctx fuel P check old x e.2.typeHint)
    (accepted : ∀ p ∈ e.2.predicates, p.isClosure → Answered ctx fuel P p x)
  | filled {d r : Value} (before : map.lookup e.1 = none) (default : e.2.defaultValue = some d)
    (fills : Fills ctx d r) (there : map'.lookup e.1 = some r)
  | absent (before : map.lookup e.1 = none) (default : e.2.defaultValue = none)
    (optional : e.2.mayBeAbsent) (missing : map'.lookup e.1 = none)

variable (ctx fuel P check) in
/-- What a schema did to a map: the defaults that are values are in it, and each field was seen
to, unless one was skipped. -/
structure FieldsRan (fields : List (String × SchemaField)) (map map' : Assoc Value) : Prop where
  filled : ∀ e ∈ fields, map.lookup e.1 = none → ∀ d, e.2.defaultValue = some d → ¬ d.isClosure →
    map'.lookup e.1 = some d
  ran : Apart map fields → ∀ e ∈ fields, FieldRan ctx fuel P check map map' e

variable {fields : Assoc SchemaField} {v value : Value} {range : TokenRange} {vs vs' : Visits}
  {σ τ : Store}

theorem applySchema_yields (own : MarksOwn ctx fuel P check) {map : Assoc Value}
    {brand variantOf : Option String} (y : Yields (handle ctx fuel) P
      (applySchema ctx check fields (.dict map brand variantOf) range vs) σ (v, vs') τ)
    (tidy : vs.Tidy) :
    Marks (fun _ => False) vs vs' ∧ ∃ map', v = .dict map' brand variantOf ∧
      FieldsRan ctx fuel P check fields.entries map map' := by
  obtain ⟨st, σ₁, first, y⟩ := y.of_bind
  obtain ⟨map', σ₂, second, y⟩ := y.of_bind
  cases y.of_ret.1
  obtain ⟨marks, -, -, from_, filled, done⟩ := applyFields_yields own first fields.entries_nodup
    tidy.block (Nat.lt_succ_self _)
  have computed : ∀ d ∈ st.deferred, d.2.isClosure := by
    intro d hd
    rcases from_ d hd with old | ⟨_, _, _, _, _, computed⟩
    · exact absurd old not_mem_nil
    · exact computed
  obtain ⟨there, unchanged⟩ := fillDeferred_yields second computed
  -- what is deferred under a field's name is the field's default
  have isDeferred : ∀ e ∈ fields.entries, ∀ d ∈ st.deferred, d.1 = e.1 →
      e.2.defaultValue = some d.2 ∧ map.lookup e.1 = none := by
    intro e he d hd name
    rcases from_ d hd with old | ⟨e', he', name', default, missing, -⟩
    · exact absurd old not_mem_nil
    · have same : e' = e := inj_on_of_nodup_map fields.entries_nodup he' he (name'.trans name)
      rw [same] at default missing
      exact ⟨default, missing⟩
  refine ⟨marks.enter, map', rfl, ?_, fun apart e he => ?_⟩
  · intro e he missing d default static
    rw [unchanged e.1, filled e he missing d default static]
    intro hmem
    obtain ⟨d', hd', name⟩ := mem_map.mp hmem
    have default' := (isDeferred e he d' hd' name).1
    rw [default] at default'
    cases default'
    exact static (computed d' hd')
  have clear : Clear vs.next ⟨map, [], vs.block.2⟩ fields.entries := by
    refine ⟨map, [], ⟨rfl, fun _ _ => rfl, fun _ _ => rfl, fun m seen here => ?_⟩, apart,
      fields.entries_nodup⟩
    -- the block is new, so nothing in it is marked yet
    exact absurd (tidy m seen) (by rw [here]; exact Nat.lt_irrefl _)
  by_cases hmem : e.1 ∈ st.deferred.map Prod.fst
  · obtain ⟨d, hd, name⟩ := mem_map.mp hmem
    obtain ⟨d', hd', name', r, fills, there⟩ := there d hd
    obtain ⟨default, missing⟩ := isDeferred e he d' hd' (name'.trans name)
    exact .filled missing default fills (name ▸ there)
  · have kept := unchanged e.1 hmem
    cases done clear e he with
    | checked before there ran accepted =>
      exact .checked before (kept.trans there) ran accepted
    | deferred before default computed deferred =>
      exact absurd (mem_map_of_mem (f := Prod.fst) deferred) hmem
    | filled before default static there =>
      exact .filled before default (.static static) (kept.trans there)
    | absent before default optional missing =>
      exact .absent before default optional (kept.trans missing)

/-! ### Marks of a whole check -/

theorem unlessSeen_marks {slot : Nat × Nat} {t : TypeNode} {inner : Visits → M (Value × Visits)}
    (user : t.IsUser)
    (y : Yields (handle ctx fuel) P (unlessSeen t.typeName slot value vs inner) σ (v, vs') τ)
    (marks : ∀ σ τ, Yields (handle ctx fuel) P (inner (vs.mark t.typeName slot)) σ (v, vs') τ →
      Marks (OwnMark slot value t) (vs.mark t.typeName slot) vs') : Marks (OwnMark slot value t) vs vs' := by
  unfold unlessSeen at y
  split at y
  · cases y.of_ret.1
    exact .refl _
  · have own : Marks (OwnMark slot value t) vs (vs.mark t.typeName slot) := by
      refine ⟨Nat.le_refl _, fun m hm => ?_⟩
      cases mem_cons.mp hm with
      | inl new => exact .inr (.inr ⟨by rw [new], by rw [new]; exact .user user⟩)
      | inr old => exact .inl old
    exact own.trans (marks _ _ y)

theorem applySchema_marks (own : MarksOwn ctx fuel P check)
    (y : Yields (handle ctx fuel) P (applySchema ctx check fields value range vs) σ (v, vs') τ)
    (tidy : vs.Tidy) : Marks (fun _ => False) vs vs' := by
  cases value with
  | dict map brand variantOf => exact (applySchema_yields own y tidy).1
  | _ =>
    cases y.of_ret.1
    exact .refl _

theorem applyTupleSchema_yields (own : MarksOwn ctx fuel P check) {elements : List TypeNode}
    (y : Yields (handle ctx fuel) P (applyTupleSchema check elements value range vs) σ
      (v, vs') τ) (tidy : vs.Tidy) :
    Marks (fun _ => False) vs vs' ∧ ∃ items items', value = .tuple items ∧ v = .tuple items' ∧
      items.length = elements.length ∧ items'.length = elements.length ∧
      Renewed ctx fuel P check (items.zip elements) (items'.zip elements) := by
  unfold applyTupleSchema at y
  split at y
  · split at y
    · exact y.of_fail.elim
    · rename_i items arity
      rw [not_not] at arity
      obtain ⟨⟨out, vs₁⟩, σ₁, first, y⟩ := y.of_bind
      cases y.of_ret.1
      obtain ⟨length, renewed, marks⟩ := checkZip_yields own first arity tidy
      exact ⟨marks, items, out, rfl, rfl, arity, length, renewed⟩
  · exact y.of_fail.elim

variable (ctx fuel P check) in
/-- What one level of the check did to a value. -/
inductive StepRan (env : TypeNode → Option Value) (t : TypeNode) : Value → Value → Prop where
  | absent {v : Value} {inner : TypeNode} (opt : t.optionalInner = some inner)
    (none : v.isOptionNone) : StepRan env t v v
  | payload {map : Assoc Value} {p x : Value} {inner : TypeNode}
    (opt : t.optionalInner = some inner) (there : map.lookup "value" = some p)
    (ran : Ran ctx fuel P check p x inner) :
    StepRan env t (.dict map (some "Some") (some "Option"))
      (.dict (map.put "value" x) (some "Some") (some "Option"))
  | wrapped {old x : Value} {inner : TypeNode} (opt : t.optionalInner = some inner)
    (present : old.isOptionNone = false)
    (bare : ∀ map, old ≠ .dict map (some "Some") (some "Option"))
    (ran : Ran ctx fuel P check old x inner) : StepRan env t old (.optionSome x)
  | builtin {old v : Value} {os ps : List (Value × TypeNode)} (opt : t.optionalInner = none)
    (builtin : isBuiltinTypeName t.typeName) (before : builtinParts t old = some os)
    (form : builtinParts t v = some ps) (renewed : Renewed ctx fuel P check os ps) :
    StepRan env t old v
  | tuple {generics : List String} {fields : Assoc SchemaField} {elements : List TypeNode}
    {items items' : List Value} (user : t.IsUser)
    (known : env t = some (.schema generics fields (some elements)))
    (before : items.length = elements.length) (arity : items'.length = elements.length)
    (renewed : Renewed ctx fuel P check
      (items.zip (elements.map (TypeNode.substitute (substMap generics t.generics))))
      (items'.zip (elements.map (TypeNode.substitute (substMap generics t.generics))))) :
    StepRan env t (.tuple items) (.tuple items')
  | record {generics : List String} {fields : Assoc SchemaField} {map map' : Assoc Value}
    {brand variantOf : Option String} (user : t.IsUser)
    (known : env t = some (.schema generics fields none))
    (ran : FieldsRan ctx fuel P check (fieldsFor generics t fields) map map') :
    StepRan env t (.dict map brand variantOf) (.dict map' (brand.or t.path.head?) variantOf)
  | other {v : Value} {generics : List String} {fields : Assoc SchemaField} (user : t.IsUser)
    (known : env t = some (.schema generics fields none))
    (notDict : ∀ map brand variantOf, v ≠ .dict map brand variantOf) : StepRan env t v v
  | variant {declared variant : String} {generics : List String}
    {variants : Assoc (Assoc SchemaField)} {fields : Assoc SchemaField} {map map' : Assoc Value}
    {variantOf : Option String} (user : t.IsUser)
    (known : env t = some (.enumSchema declared generics variants))
    (found : variants.lookup variant = some fields)
    (ran : FieldsRan ctx fuel P check (fieldsFor generics t fields) map map') :
    StepRan env t (.dict map (some variant) variantOf) (.dict map' (some variant) variantOf)

section
variable {env : TypeNode → Option Value} {t : TypeNode}

variable {v value schema : Value} {slot : Nat × Nat} {range : TokenRange} {vs vs' : Visits}
  {σ τ : Store} {generics : List String}

theorem checkOptional_yields (own : MarksOwn ctx fuel P check) {inner : TypeNode}
    (opt : t.optionalInner = some inner)
    (y : Yields (handle ctx fuel) P (checkOptional check value slot t inner range vs) σ
      (v, vs') τ) (tidy : vs.Tidy) (inUse : slot.1 < vs.next) : Marks (OwnMark slot value t) vs vs' ∧
      (Fresh slot value t vs → StepRan ctx fuel P check env t value v) := by
  unfold checkOptional at y
  split at y
  · rename_i none
    cases y.of_ret.1
    exact ⟨.refl _, fun _ => .absent opt none⟩
  · rename_i present
    rw [Bool.not_eq_true] at present
    split at y
    · rename_i map
      split at y
      · exact y.of_fail.elim
      · rename_i payload there
        obtain ⟨⟨x, vs₁⟩, σ₁, first, y⟩ := y.of_bind
        cases y.of_ret.1
        have marks := own _ _ _ _ _ _ _ _ tidy.block (Nat.lt_succ_self vs.next) first
        have entered : Marks (fun m => m.2.1 = vs.next) vs.block.2 vs' :=
          marks.mono fun m hm => by rw [hm.1]
        refine ⟨entered.enter.allow, fun _ => .payload opt there ?_⟩
        refine ⟨_, _, _, _, _, first, tidy.block, Nat.lt_succ_self vs.next, ?_⟩
        intro m hm seen
        have inside := tidy m seen
        rw [hm.1] at inside
        exact Nat.lt_irrefl _ inside
    · rename_i bare
      obtain ⟨⟨x, vs₁⟩, σ₁, first, y⟩ := y.of_bind
      cases y.of_ret.1
      have marks := own _ _ _ _ _ _ _ _ tidy inUse first
      have wider : ∀ m, OwnMark slot value inner m → OwnMark slot value t m :=
        fun m ⟨here, marked⟩ => ⟨here, .bare opt present bare marked⟩
      refine ⟨marks.mono wider, fun fresh => .wrapped opt present bare ?_⟩
      exact ⟨_, _, _, _, _, first, fresh.tidy, fresh.inUse, fun m hm => fresh.unseen m (wider m hm)⟩

theorem checkBuiltin_yields (own : MarksOwn ctx fuel P check)
    (y : Yields (handle ctx fuel) P (checkBuiltin check value t range vs) σ (v, vs') τ)
    (tidy : vs.Tidy) :
    Marks (fun _ => False) vs vs' ∧ ∃ os ps, builtinParts t value = some os ∧
      builtinParts t v = some ps ∧ Renewed ctx fuel P check os ps := by
  -- a value taken as it is has no elements to check
  have leaf : ∀ (w : Value), Yields (handle ctx fuel) P (.ret (w, vs) : M _) σ (v, vs') τ →
      builtinParts t w = some [] →
      Marks (fun _ => False) vs vs' ∧ ∃ os ps, builtinParts t w = some os ∧
        builtinParts t v = some ps ∧ Renewed ctx fuel P check os ps := by
    intro w y form
    cases y.of_ret.1
    exact ⟨.refl _, [], [], form, form, .nil⟩
  unfold checkBuiltin at y
  split at y
  case h_1 name | h_2 name | h_3 name | h_4 name | h_5 name | h_6 name | h_7 name =>
    exact leaf _ y (by simp [builtinParts, name])
  case h_8 items name =>
    split at y
    · rename_i item hitem
      obtain ⟨⟨out, vs₁⟩, σ₁, first, y⟩ := y.of_bind
      cases y.of_ret.1
      obtain ⟨-, renewed, marks⟩ := checkConst_yields own first tidy
      exact ⟨marks, _, _, by simp [builtinParts, name, hitem], by simp [builtinParts, name, hitem],
        renewed⟩
    · rename_i hitem
      exact leaf _ y (by simp [builtinParts, name, hitem])
  case h_9 map brand variantOf name =>
    split at y
    · rename_i key entry generics
      obtain ⟨⟨out, vs₁⟩, σ₁, first, y⟩ := y.of_bind
      cases y.of_ret.1
      have entries : (map.map fun e => (e.2, entry)) =
          (map.map Prod.snd).map fun v => (v, entry) := by simp
      rw [entries] at first
      obtain ⟨length, renewed, marks⟩ := checkConst_yields own first tidy
      have values : (((map.map Prod.fst).zip out).map fun e => (e.2, entry)) =
          out.map fun v => (v, entry) := by
        have fits : out.length ≤ (map.map Prod.fst).length := Nat.le_of_eq (by simpa using length)
        conv_rhs => rw [← map_snd_zip fits, map_map]
        rfl
      rw [← entries, ← values] at renewed
      exact ⟨marks, _, _, by simp only [builtinParts, name, generics],
        by simp only [builtinParts, name, generics], renewed⟩
    · rename_i other
      exact leaf _ y (by simp only [builtinParts, name])
  case h_10 items name =>
    split at y
    · exact y.of_fail.elim
    · rename_i arity
      rw [not_not] at arity
      obtain ⟨⟨out, vs₁⟩, σ₁, first, y⟩ := y.of_bind
      cases y.of_ret.1
      obtain ⟨length, renewed, marks⟩ := checkZip_yields own first arity tidy
      exact ⟨marks, _, _, by simp [builtinParts, name, arity], by simp [builtinParts, name, length],
        renewed⟩
  case h_11 => exact y.of_fail.elim

/-! ### User types -/

theorem checkAgainst_marks (own : MarksOwn ctx fuel P check) (user : t.IsUser)
    (y : Yields (handle ctx fuel) P (checkAgainst ctx check schema value slot t range vs) σ
      (v, vs') τ) (tidy : vs.Tidy) (inUse : slot.1 < vs.next) : Marks (OwnMark slot value t) vs vs' := by
  have tidy' := tidy.mark inUse t.typeName
  unfold checkAgainst at y
  split at y
  · unfold checkRecord at y
    refine unlessSeen_marks user y fun σ τ y => ?_
    split at y
    · exact (applyTupleSchema_yields own y tidy').1.allow
    · obtain ⟨⟨w, vs₁⟩, σ₁, first, y⟩ := y.of_bind
      cases y.of_ret.1
      exact (applySchema_marks own first tidy').allow
  · unfold checkEnum at y
    split at y
    · exact y.of_fail.elim
    · split at y
      · exact y.of_fail.elim
      · exact unlessSeen_marks user y fun σ τ y => (applySchema_marks own y tidy').allow
    · exact y.of_fail.elim
  · exact y.of_fail.elim

theorem unlessSeen_yields {inner : Visits → M (Value × Visits)} {r : Value × Visits}
    (user : t.IsUser) (fresh : Fresh slot value t vs)
    (y : Yields (handle ctx fuel) P (unlessSeen t.typeName slot value vs inner) σ r τ) :
    Yields (handle ctx fuel) P (inner (vs.mark t.typeName slot)) σ r τ := by
  unfold unlessSeen at y
  rwa [if_neg (fresh.unseen _ ⟨rfl, .user user⟩)] at y

theorem withBrandIfNone_dict (map : Assoc Value) (brand variantOf name : Option String) :
    (Value.dict map brand variantOf).withBrandIfNone name = .dict map (brand.or name) variantOf := by
  cases brand <;> rfl

theorem applySchema_record (own : MarksOwn ctx fuel P check) {value w : Value}
    {fields : Assoc SchemaField} (user : t.IsUser)
    (known : env t = some (.schema generics fields none)) (tidy : vs.Tidy)
    (y : Yields (handle ctx fuel) P (applySchema ctx check
      (substituteFields (substMap generics t.generics) fields) value range vs) σ (w, vs') τ) :
    StepRan ctx fuel P check env t value (w.withBrandIfNone t.path.head?) := by
  cases value with
  | dict map brand variantOf =>
    obtain ⟨-, map', same, ran⟩ := applySchema_yields own y tidy
    subst same
    rw [withBrandIfNone_dict]
    exact .record user known ran
  | _ =>
    cases y.of_ret.1
    exact .other user known fun _ _ _ same => nomatch same

theorem checkEnum_yields (own : MarksOwn ctx fuel P check) {declared : String}
    {variants : Assoc (Assoc SchemaField)} (user : t.IsUser)
    (known : env t = some (.enumSchema declared generics variants)) (fresh : Fresh slot value t vs)
    (y : Yields (handle ctx fuel) P (checkEnum ctx check generics variants value slot t range
      vs) σ (v, vs') τ) : StepRan ctx fuel P check env t value v := by
  unfold checkEnum at y
  split at y
  · exact y.of_fail.elim
  · split at y
    · exact y.of_fail.elim
    · rename_i fields found
      obtain ⟨-, map', same, ran⟩ := applySchema_yields own (unlessSeen_yields user fresh y)
        (fresh.tidy.mark fresh.inUse t.typeName)
      subst same
      exact .variant user known found ran
  · exact y.of_fail.elim

theorem checkAgainst_yields (own : MarksOwn ctx fuel P check) (user : t.IsUser)
    (known : env t = some schema)
    (y : Yields (handle ctx fuel) P (checkAgainst ctx check schema value slot t range vs) σ
      (v, vs') τ) (fresh : Fresh slot value t vs) : StepRan ctx fuel P check env t value v := by
  have tidy := fresh.tidy.mark fresh.inUse t.typeName
  unfold checkAgainst at y
  split at y
  · unfold checkRecord at y
    have y := unlessSeen_yields user fresh y
    split at y
    · obtain ⟨-, items, items', rfl, rfl, before, arity, renewed⟩ :=
        applyTupleSchema_yields own y tidy
      exact .tuple user known (by simpa using before) (by simpa using arity) renewed
    · obtain ⟨⟨w, vs₁⟩, σ₁, first, y⟩ := y.of_bind
      cases y.of_ret.1
      exact applySchema_record own user known tidy first
  · exact checkEnum_yields own user known fresh y
  · exact y.of_fail.elim

theorem FieldsRan.conform {fields : List (String × SchemaField)} {map map' : Assoc Value}
    {brand variantOf : Option String}
    (table : tableOf env (.dict map' brand variantOf) t = some fields)
    (ran : ∀ e ∈ fields, FieldRan ctx fuel P check map map' e)
    (defaults : ∀ e ∈ fields, map.lookup e.1 = none → ∀ d, e.2.defaultValue = some d →
      ∀ r, Fills ctx d r → Conforms env (PredicateHolds ctx) r e.2.typeHint ∧
        ∀ p ∈ e.2.predicates, p.isClosure → PredicateHolds ctx p r) :
    ∃ ps, fieldParts fields map' = some ps ∧
      (∀ p ∈ ps, (∃ e ∈ fields, ∃ old, map.lookup e.1 = some old ∧ p.2 = e.2.typeHint ∧
        Ran ctx fuel P check old p.1 p.2) ∨ Conforms env (PredicateHolds ctx) p.1 p.2) ∧
      ∀ g ∈ guards env (.dict map' brand variantOf) t, PredicateHolds ctx g.1 g.2 := by
  have all : (fields.all fun e => (map'.lookup e.1).isSome || e.2.mayBeAbsent) = true := by
    rw [all_eq_true]
    intro e he
    cases ran e he with
    | checked before there ran accepted => simp [there]
    | filled before default fills there => simp [there]
    | absent before default optional missing => simp [optional]
  refine ⟨_, if_pos all, fun p hp => ?_, fun g hg => ?_⟩
  · obtain ⟨e, he, found⟩ := mem_filterMap.mp hp
    obtain ⟨x, hx, rfl⟩ := Option.map_eq_some_iff.mp found
    cases ran e he with
    | checked before there ran accepted =>
      rw [hx] at there
      cases there
      exact .inl ⟨e, he, _, before, rfl, ran⟩
    | filled before default fills there =>
      rw [hx] at there
      cases there
      exact .inr (defaults e he before _ default _ fills).1
    | absent before default optional missing =>
      rw [hx] at missing
      cases missing
  · obtain ⟨e, he, hx, hp, closure⟩ := (mem_guards table).mp hg
    cases ran e he with
    | checked before there ran accepted =>
      rw [hx] at there
      cases there
      exact (accepted _ hp closure).holds
    | filled before default fills there =>
      rw [hx] at there
      cases there
      exact (defaults e he before _ default _ fills).2 _ hp closure
    | absent before default optional missing =>
      rw [hx] at missing
      cases missing

end

end

/-! ### The whole check -/

section
variable {ctx : Context} {fuel : Nat} {P : Store → Prop} {check : Check} {scope : Scope}
  {range : TokenRange} {env : TypeNode → Option Value}

theorem checkStep_marks (own : MarksOwn ctx fuel P check) :
    MarksOwn ctx fuel P fun v slot t vs => checkStep ctx check v slot t scope range vs := by
  intro v slot t vs σ v' vs' τ tidy inUse y
  simp only [checkStep] at y
  split at y
  · rename_i inner opt
    have step : _ ∧ (_ → StepRan ctx fuel P check (fun _ => none) t v v') :=
      checkOptional_yields own opt y tidy inUse
    exact step.1
  · rename_i opt
    split at y
    · exact (checkBuiltin_yields own y tidy).1.allow
    · rename_i user
      obtain ⟨-, y⟩ := yields_read y
      obtain ⟨schema, σ₁, -, y⟩ := y.of_bind
      exact checkAgainst_marks own ⟨opt, by simpa using user⟩ y tidy inUse

theorem checkStep_ran (known : ∀ σ, P σ → ∀ u, (findSchema ctx scope range σ u).toOption = env u)
    (own : MarksOwn ctx fuel P check) {old x : Value} {t : TypeNode}
    (ran : Ran ctx fuel P (fun v slot t vs => checkStep ctx check v slot t scope range vs) old x t) :
    StepRan ctx fuel P check env t old x := by
  obtain ⟨slot, vs, vs', σ, τ, y, fresh⟩ := ran
  simp only [checkStep] at y
  split at y
  · rename_i inner opt
    exact (checkOptional_yields own opt y fresh.tidy fresh.inUse).2 fresh
  · rename_i opt
    split at y
    · rename_i builtin
      obtain ⟨-, os, ps, before, form, renewed⟩ := checkBuiltin_yields own y fresh.tidy
      exact .builtin opt builtin before form renewed
    · rename_i user
      obtain ⟨standing, y⟩ := yields_read y
      obtain ⟨schema, σ₁, lookup, y⟩ := y.of_bind
      obtain ⟨found, -⟩ := lookup.of_ofExcept
      have schemaOf : env t = some schema := by
        rw [← known σ standing t, found]
        rfl
      exact checkAgainst_yields own ⟨opt, by simpa using user⟩ schemaOf y fresh

/-! #### What is accepted where the trust is justified -/

variable (ctx fuel P env) in
/-- Where its trust is justified, what the check accepts is of its type. -/
def Sound (check : Check) : Prop :=
  ∀ old x t, Ran ctx fuel P check old x t →
    (∀ w u, Sees env old t w u → u.IsUser → Honest env (PredicateHolds ctx) ctx w u) →
    Conforms env (PredicateHolds ctx) x t

section
variable {old x : Value} {t : TypeNode} (sound : Sound ctx fuel P env check)
  (honest : ∀ w u, Sees env old t w u → u.IsUser → Honest env (PredicateHolds ctx) ctx w u)
include sound honest

theorem Sound.conforms {ps : List (Value × TypeNode)} (form : parts env x t = some ps)
    (checked : ∀ p ∈ ps, (∃ o ∈ looked env old t, o.2 = p.2 ∧ Ran ctx fuel P check o.1 p.1 p.2) ∨
      Conforms env (PredicateHolds ctx) p.1 p.2)
    (guarded : t.IsUser → ∀ g ∈ guards env x t, PredicateHolds ctx g.1 g.2) :
    Conforms env (PredicateHolds ctx) x t := by
  refine .mk form (fun p hp => ?_) guarded
  rcases checked p hp with ⟨o, ho, type, ran⟩ | conforms
  · exact sound o.1 p.1 p.2 ran fun w u pos => honest w u (.inside ho (type ▸ pos))
  · exact conforms

theorem Sound.optional {inner : TypeNode} {p y : Value} (opt : t.optionalInner = some inner)
    (before : looked env old t = [(p, inner)]) (form : optionParts inner x = some [(y, inner)])
    (ran : Ran ctx fuel P check p y inner) : Conforms env (PredicateHolds ctx) x t := by
  refine sound.conforms honest ((parts_optional opt).trans form) (fun q hq => .inl ?_) fun user => ?_
  · cases mem_singleton.mp hq
    exact ⟨(p, inner), before ▸ mem_singleton_self _, rfl, ran⟩
  · exact absurd opt user.not_optional

end

theorem Sound.fields (sound : Sound ctx fuel P env check) {map map' : Assoc Value}
    {brand brand' variantOf : Option String} {t : TypeNode} {fields : List (String × SchemaField)}
    (honest : ∀ w u, Sees env (.dict map brand variantOf) t w u → u.IsUser →
      Honest env (PredicateHolds ctx) ctx w u)
    (user : t.IsUser) (before : tableOf env (.dict map brand variantOf) t = some fields)
    (table : tableOf env (.dict map' brand' variantOf) t = some fields)
    (form : ∀ ps, fieldParts fields map' = some ps →
      userParts env t (.dict map' brand' variantOf) = some ps)
    (ran : FieldsRan ctx fuel P check fields map map') :
    Conforms env (PredicateHolds ctx) (.dict map' brand' variantOf) t := by
  have here := honest _ t .here user
  have declares : Declares env (.dict map brand variantOf) t map fields := ⟨before, brand, variantOf, rfl⟩
  obtain ⟨ps, hps, checked, guarded⟩ :=
    FieldsRan.conform table (ran.ran (here.apart _ _ declares)) (here.defaults _ _ declares)
  refine sound.conforms honest ((parts_user user).trans (form ps hps)) (fun p hp => ?_) fun _ => guarded
  refine (checked p hp).imp_left fun ⟨e, he, o, there, type, ran⟩ => ?_
  exact ⟨(o, p.2), (mem_looked_fields user before).mpr ⟨e, he, there, type⟩, rfl, ran⟩

theorem checkStep_sound (known : ∀ σ, P σ → ∀ u, (findSchema ctx scope range σ u).toOption = env u)
    (own : MarksOwn ctx fuel P check) (sound : Sound ctx fuel P env check) :
    Sound ctx fuel P env fun v slot t vs => checkStep ctx check v slot t scope range vs := by
  intro old x t run honest
  cases checkStep_ran known own run with
  | absent opt none =>
    refine .mk ((parts_optional opt).trans (if_pos none)) (fun _ hp => absurd hp not_mem_nil)
      fun user => ?_
    exact absurd opt user.not_optional
  | payload opt there ran =>
    refine sound.optional honest opt (looked_payload opt there) (optionParts_some ?_) ran
    rw [lookup_put, if_pos rfl]
  | wrapped opt present bare ran =>
    exact sound.optional honest opt (looked_bare opt present bare) (optionParts_some rfl) ran
  | builtin opt builtin before form renewed =>
    refine sound.conforms honest ((parts_builtin opt builtin).trans form)
      (fun p hp => .inl ?_) fun user => ?_
    · rw [looked_builtin opt builtin before]
      exact renewed.source hp
    · exact absurd builtin user.not_builtin
  | tuple user known before arity renewed =>
    have form : parts env _ t = some _ := (parts_user user).trans (userParts_tuple known arity)
    refine sound.conforms honest form (fun p hp => .inl ?_) fun _ => ?_
    · rw [looked_tuple user known before]
      exact renewed.source hp
    · simp [guards, tableOf, known]
  | record user known ran =>
    refine sound.fields honest user (tableOf_record known _) (tableOf_record known _)
      (fun ps form => ?_) ran
    simp only [userParts, known]
    exact form
  | other user known notDict =>
    obtain ⟨map, brand, variantOf, same⟩ := (honest _ t .here user).dict _ _ known
    exact absurd same (notDict map brand variantOf)
  | variant user known found ran =>
    obtain ⟨map₁, brand₁, owned⟩ := (honest _ t .here user).owned _ _ _ known
    cases owned
    refine sound.fields honest user (tableOf_variant known found) (tableOf_variant known found)
      (fun ps form => ?_) ran
    simp only [userParts, known, variantParts, variantTable, found, if_true, Option.map_some,
      Option.bind_some]
    exact form

/-! #### What is of its type was trusted with right -/

section
variable {old x : Value} {t : TypeNode}

/-- What a missing field got is in the value the check returned. -/
theorem FieldsRan.honest {fields : List (String × SchemaField)} {map map' : Assoc Value}
    (ran : FieldsRan ctx fuel P check fields map map')
    (static : ∀ e ∈ fields, map.lookup e.1 = none → ∀ d, e.2.defaultValue = some d → ¬ d.isClosure)
    (conform : ∀ e ∈ fields, ∀ y, map'.lookup e.1 = some y →
      Conforms env (PredicateHolds ctx) y e.2.typeHint ∧
        ∀ p ∈ e.2.predicates, p.isClosure → PredicateHolds ctx p y) :
    ∀ e ∈ fields, map.lookup e.1 = none → ∀ d, e.2.defaultValue = some d → ∀ r, Fills ctx d r →
      Conforms env (PredicateHolds ctx) r e.2.typeHint ∧
        ∀ p ∈ e.2.predicates, p.isClosure → PredicateHolds ctx p r := by
  intro e he missing d default r fills
  have plain := static e he missing d default
  cases fills with
  | static => exact conform e he d (ran.filled e he missing d default plain)
  | computed closure called => exact absurd closure plain

/-- Only a dict becomes a dict of a user type, and it keeps the enum it names. -/
theorem StepRan.dict_source {map' : Assoc Value} {brand' variantOf : Option String}
    (step : StepRan ctx fuel P check env t old x) (user : t.IsUser)
    (dict : x = .dict map' brand' variantOf) : ∃ map brand, old = .dict map brand variantOf := by
  cases step with
  | absent opt _ | payload opt _ _ | wrapped opt _ _ _ =>
    exact absurd opt user.not_optional
  | builtin opt builtin _ _ _ =>
    exact absurd builtin user.not_builtin
  | tuple _ known _ _ _ => cases dict
  | record _ known ran =>
    cases dict
    exact ⟨_, _, rfl⟩
  | other _ known notDict => exact absurd dict (notDict _ _ _)
  | variant _ known found ran =>
    cases dict
    exact ⟨_, _, rfl⟩

theorem StepRan.declared {map : Assoc Value} {fields : List (String × SchemaField)}
    (step : StepRan ctx fuel P check env t old x) (user : t.IsUser)
    (declares : Declares env old t map fields) :
    ∃ map', Declares env x t map' fields ∧ FieldsRan ctx fuel P check fields map map' := by
  obtain ⟨table, brand, variantOf, same⟩ := declares
  cases step with
  | absent opt _ | payload opt _ _ | wrapped opt _ _ _ =>
    exact absurd opt user.not_optional
  | builtin opt builtin _ _ _ =>
    exact absurd builtin user.not_builtin
  | tuple _ known _ _ _ => cases same
  | record _ known ran =>
    cases same
    rw [tableOf_record known] at table
    cases table
    exact ⟨_, ⟨tableOf_record known _, _, _, rfl⟩, ran⟩
  | other _ known notDict => exact absurd same (notDict _ _ _)
  | variant _ known found ran =>
    cases same
    rw [tableOf_variant known found] at table
    cases table
    exact ⟨_, ⟨tableOf_variant known found, _, _, rfl⟩, ran⟩

theorem StepRan.honest (step : StepRan ctx fuel P check env t old x)
    (user : t.IsUser) (plain : Direct env old t) (conforms : Conforms env (PredicateHolds ctx) x t) :
    Honest env (PredicateHolds ctx) ctx old t := by
  refine ⟨fun _ _ known => ?_, fun _ _ _ known => ?_, fun map fields declares => ?_, plain.apart⟩
  · obtain ⟨map', brand', variantOf, dict⟩ := conforms.dict user known
    obtain ⟨map, brand, same⟩ := step.dict_source user dict
    exact ⟨map, brand, variantOf, same⟩
  · obtain ⟨map', brand', dict⟩ := conforms.owned user known
    exact step.dict_source user dict
  · obtain ⟨map', declares', ran⟩ := step.declared user declares
    exact ran.honest (plain.static _ _ declares) (conforms.declared user declares')

theorem FieldsRan.components {fields : List (String × SchemaField)} {map map' : Assoc Value}
    {brand brand' variantOf : Option String} (ran : FieldsRan ctx fuel P check fields map map')
    (user : t.IsUser) (apart : Apart map fields)
    (before : tableOf env (.dict map brand variantOf) t = some fields)
    (after : tableOf env (.dict map' brand' variantOf) t = some fields) :
    ∀ o ∈ looked env (.dict map brand variantOf) t,
      ∃ y, (y, o.2) ∈ looked env (.dict map' brand' variantOf) t ∧ Ran ctx fuel P check o.1 y o.2 := by
  intro o ho
  obtain ⟨e, he, there, type⟩ := (mem_looked_fields user before).mp ho
  rw [type]
  cases ran.ran apart e he with
  | checked before there' ran accepted =>
    rw [before] at there
    cases there
    exact ⟨_, (mem_looked_fields user after).mpr ⟨e, he, there', rfl⟩, ran⟩
  | filled before _ _ _ | absent before _ _ _ =>
    rw [before] at there
    cases there

/-- Each component the check looked at has become one it looks at. -/
theorem StepRan.components (step : StepRan ctx fuel P check env t old x)
    (apart : t.IsUser → ∀ map fields, Declares env old t map fields → Apart map fields) :
    ∀ o ∈ looked env old t, ∃ y, (y, o.2) ∈ looked env x t ∧ Ran ctx fuel P check o.1 y o.2 := by
  cases step with
  | absent opt none =>
    intro o ho
    simp only [looked, opt, none, if_true] at ho
    exact absurd ho not_mem_nil
  | @payload map p y inner opt there ran =>
    rw [looked_payload opt there]
    refine forall_mem_singleton.mpr ⟨y, ?_, ran⟩
    rw [looked_payload opt (by rw [lookup_put, if_pos rfl])]
    exact mem_singleton_self _
  | @wrapped old y inner opt present bare ran =>
    rw [looked_bare opt present bare]
    refine forall_mem_singleton.mpr ⟨y, ?_, ran⟩
    rw [Value.optionSome, Value.variantDict, looked_payload opt rfl]
    exact mem_singleton_self _
  | builtin opt builtin before form renewed =>
    rw [looked_builtin opt builtin before, looked_builtin opt builtin form]
    intro o ho
    obtain ⟨p, hp, type, ran⟩ := renewed.result ho
    exact ⟨p.1, type ▸ hp, type ▸ ran⟩
  | tuple user known before arity renewed =>
    rw [looked_tuple user known before, looked_tuple user known arity]
    intro o ho
    obtain ⟨p, hp, type, ran⟩ := renewed.result ho
    exact ⟨p.1, type ▸ hp, type ▸ ran⟩
  | record user known ran =>
    have table := tableOf_record known
    exact ran.components user (apart user _ _ ⟨table _, _, _, rfl⟩) (table _) (table _)
  | other user known notDict =>
    rw [looked_other user known notDict]
    exact fun o ho => absurd ho not_mem_nil
  | variant user known found ran =>
    exact ran.components user (apart user _ _ ⟨tableOf_variant known found, _, _, rfl⟩)
      (tableOf_variant known found) (tableOf_variant known found)

end

variable (ctx fuel P env) in
/-- Where nothing is computed, what the check made of its type was to be trusted. -/
def Justified (check : Check) : Prop :=
  ∀ old x t, Ran ctx fuel P check old x t →
    (∀ w u, Sees env old t w u → u.IsUser → Direct env w u) →
    Conforms env (PredicateHolds ctx) x t →
    ∀ w u, Sees env old t w u → u.IsUser → Honest env (PredicateHolds ctx) ctx w u

theorem checkStep_justified
    (known : ∀ σ, P σ → ∀ u, (findSchema ctx scope range σ u).toOption = env u)
    (own : MarksOwn ctx fuel P check) (justified : Justified ctx fuel P env check) :
    Justified ctx fuel P env fun v slot t vs => checkStep ctx check v slot t scope range vs := by
  intro old x t run plain conforms w u pos user
  have step := checkStep_ran known own run
  cases pos with
  | here => exact step.honest user (plain _ _ .here user) conforms
  | inside mem rest =>
    obtain ⟨y, after, ran⟩ := step.components (fun user => (plain _ _ .here user).apart) _ mem
    exact justified _ y _ ran (fun w u pos => plain w u (.inside mem pos)) (conforms.looked after)
      w u rest user

theorem checkTypeInternal_marks (depth : Nat) :
    MarksOwn ctx fuel P (checkTypeInternal ctx scope range depth) := by
  induction depth with
  | zero => exact fun _ _ _ _ _ _ _ _ _ _ y => y.of_fail.elim
  | succ depth ih => exact checkStep_marks ih

theorem checkTypeInternal_sound
    (known : ∀ σ, P σ → ∀ u, (findSchema ctx scope range σ u).toOption = env u) (depth : Nat) :
    Sound ctx fuel P env (checkTypeInternal ctx scope range depth) := by
  induction depth with
  | zero => exact fun _ _ _ ⟨_, _, _, _, _, y, _⟩ => y.of_fail.elim
  | succ depth ih => exact checkStep_sound known (checkTypeInternal_marks depth) ih

theorem checkTypeInternal_justified
    (known : ∀ σ, P σ → ∀ u, (findSchema ctx scope range σ u).toOption = env u) (depth : Nat) :
    Justified ctx fuel P env (checkTypeInternal ctx scope range depth) := by
  induction depth with
  | zero => exact fun _ _ _ ⟨_, _, _, _, _, y, _⟩ => y.of_fail.elim
  | succ depth ih => exact checkStep_justified known (checkTypeInternal_marks depth) ih

end

/-- What the names of types stand for in a scope. -/
def typesIn (ctx : Context) (scope : Scope) (range : TokenRange) (σ : Store) (t : TypeNode) :
    Option Value :=
  (findSchema ctx scope range σ t).toOption

theorem checkType_ran {ctx : Context} {fuel : Nat} {scope : Scope} {range : TokenRange}
    {t : TypeNode} {v v' : Value} {σ τ : Store} {P : Store → Prop}
    (y : Yields (handle ctx fuel) P (checkType ctx v t scope range) σ v' τ) :
    Ran ctx fuel P (checkTypeInternal ctx scope range 101) v v' t := by
  obtain ⟨⟨x, vs'⟩, σ₁, checked, y⟩ := y.of_bind
  obtain ⟨same, -⟩ := y.of_ret
  subst same
  exact ⟨_, _, _, _, _, checked, .start v t⟩

/-- A host that knows `#schema Point { Int x: *, #default 0 Int y: * }`. -/
def pointHost : Context :=
  { Context.bare (.bare 0 .missing) with
    schemas := [("Point", .schema [] [("x", .mk (.named "Int" default) [] none none),
      ("y", .mk (.named "Int" default) [] none (some (.int 0)))] none)] }

theorem conforms_int (ctx : Context) (env : TypeNode → Option Value) (i : Int64) :
    Conforms env (PredicateHolds ctx) (.int i) (.named "Int" default) :=
  @Conforms.mk _ _ _ _ [] rfl (fun _ mem => absurd mem not_mem_nil) fun user => absurd user.2 (by decide)

theorem not_marked_int (x : Value) (name : String) : ¬ Marked x (.named "Int" default) name := by
  intro marked
  cases marked with
  | user user => exact absurd user.2 (by decide)
  | bare opt _ _ _ => cases opt

/-- `{ x: 1 }`, to be taken for a `Point`. -/
def halfPoint : Value := .dict [("x", .int 1)] none none

theorem halfPoint_sees {w : Value} {u : TypeNode}
    (pos : Sees (typesIn pointHost emptyScope.1 default emptyStore) halfPoint
      (.named "Point" default) w u) (user : u.IsUser) :
    w = halfPoint ∧ u = .named "Point" default := by
  cases pos with
  | here => exact ⟨rfl, rfl⟩
  | inside mem rest =>
    cases mem_singleton.mp mem
    cases rest with
    | here => exact absurd user.2 (by decide)
    | inside mem _ => exact absurd mem not_mem_nil

/-- Neither field is of a user type, so neither is marked. -/
theorem halfPoint_apart {map : Assoc Value} {fields : List (String × SchemaField)}
    (declares : Declares (typesIn pointHost emptyScope.1 default emptyStore) halfPoint
      (.named "Point" default) map fields) : Apart map fields := by
  obtain ⟨table, _, _, same⟩ := declares
  cases same
  cases table
  intro front e mid e' back split x x' name there there' marked _
  have he : e ∈ front ++ e :: (mid ++ e' :: back) := mem_append_right _ mem_cons_self
  rw [← split] at he
  rcases mem_cons.mp he with rfl | he
  · exact absurd marked (not_marked_int x name)
  · cases mem_singleton.mp he
    exact absurd marked (not_marked_int x name)

/-- The other things taken on trust: a default, the enum of a variant, and a field that
comes to lie where another one of its type was checked. -/
def trustingHost : Context :=
  { pointHost with
    schemas := pointHost.schemas ++
      [("Labelled", .schema [] [("x", .mk (.named "Int" default) [] none (some (.string "no")))] none),
        ("Color", .enumSchema "Color" [] [("Red", [])]),
        ("Segment", .schema [] [("c", .mk (.named "Point" default) [] none none),
          ("a", .mk (.named "Int" default) [] none (some (.int 0))),
          ("b", .mk (.named "Point" default) [] none none)] none)] }

example : (checkType trustingHost (.dict [] none none) (.named "Labelled" default) emptyScope.1
    default).run (handle trustingHost 0) emptyStore =
      some (.ok (.dict [("x", .string "no")] (some "Labelled") none), emptyStore) := rfl

example : (checkType trustingHost (.dict [] (some "Red") (some "Wine")) (.named "Color" default)
    emptyScope.1 default).run (handle trustingHost 0) emptyStore =
      some (.ok (.dict [] (some "Red") (some "Wine")), emptyStore) := rfl

example : (checkType trustingHost (.dict [("b", .string "no"), ("c", .dict [("x", .int 1)] none none)]
    none none) (.named "Segment" default) emptyScope.1 default).run (handle trustingHost 0)
      emptyStore = some (.ok (.dict [("a", .int 0), ("b", .string "no"),
      ("c", .dict [("x", .int 1), ("y", .int 0)] (some "Point") none)] (some "Segment") none),
      emptyStore) := rfl

end Relon.Eval
