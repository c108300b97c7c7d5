import Mathlib.Data.List.Infix
import Relon.Eval.Run

/-! Loop variables.

A comprehension keeps its variable in a slot of its list context, which every
frame below inherits, and a lookup asks the slot of each frame before the frame's
own bindings. What a name means under a loop is therefore decided by the slot of
the innermost frame that could bind it: the closures built in a loop and the
binders inside its body get their own binding exactly when that slot holds no
other value under the same name. -/
namespace Relon.Eval
open List Option

/-! ### Slots along a chain -/

namespace Store

variable {σ : Store} {s t : Scope} {x : String} {v w : Value}

/-- The slot of a frame holds `v` under the name `x`. -/
def SlotHolds (σ : Store) (s : Scope) (x : String) (v : Value) : Prop :=
  σ.currentIterBinding s = some (x, v)

/-- What the slot of a frame holds for a name. -/
def slotValue (σ : Store) (x : String) (s : Scope) : Option Value :=
  (σ.currentIterBinding s).bind fun b => if b.1 = x then some b.2 else none

theorem slotValue_eq_some : σ.slotValue x s = some v ↔ σ.SlotHolds s x v := by
  unfold slotValue SlotHolds
  cases σ.currentIterBinding s with
  | none => simp
  | some b =>
    obtain ⟨name, w⟩ := b
    by_cases h : name = x <;> simp [h]

theorem ownLocal_slot (h : σ.SlotHolds s x w) : σ.ownLocal x s = some w := by
  rw [ownLocal, show σ.currentIterBinding s = some (x, w) from h]
  exact if_pos rfl

theorem ownLocal_free (h : ∀ w, ¬ σ.SlotHolds s x w) : σ.ownLocal x s = (σ.locals s).lookup x := by
  unfold ownLocal
  split
  · rename_i bound w slot
    by_cases hx : bound = x
    · exact absurd (hx ▸ slot) (h w)
    · rw [if_neg hx]
  · rfl

/-- Two frames over one list context have the same slot. -/
theorem SlotHolds.congr (h : s.listContext = t.listContext) :
    σ.SlotHolds s x v ↔ σ.SlotHolds t x v := by
  unfold SlotHolds currentIterBinding listContext?
  rw [h]

/-- The first frame that binds a name decides. -/
theorem getLocal_append {fs : List Scope} (chain : t.chain = fs ++ s.chain)
    (silent : ∀ f ∈ fs, σ.ownLocal x f = none ∨ σ.ownLocal x f = σ.ownLocal x s)
    (own : σ.ownLocal x s = some v) : σ.getLocal t x = some v := by
  rw [own] at silent
  rw [getLocal, chain, List.findSome?_append, Scope.chain_eq s, List.findSome?_cons, own]
  clear chain
  induction fs with
  | nil => rfl
  | cons f fs ih =>
    rw [List.findSome?_cons]
    cases silent f mem_cons_self with
    | inl none => rw [none]; exact ih fun g hg => silent g (mem_cons_of_mem _ hg)
    | inr found => rw [found]; rfl

end Store

variable {σ τ : Store} {s base frame : Scope} {x : String} {v : Value} {ctx : Context} {fuel : Nat}

/-- A bound name is read without any effect. -/
theorem resolveVariable_local (ctx : Context) (fuel : Nat) (range : TokenRange)
    (found : σ.getLocal s x = some v) :
    (resolveVariable ctx [.plain x] s range).run (handle ctx fuel) σ = some (.ok v, σ) := by
  simp only [resolveVariable, TokenKey.plain, TokenKey.name, run_read_bind, found]
  rfl

/-- A name bound in a frame is read from it exactly when the frame's slot holds no
other value for the name. -/
theorem reads_own_iff (ctx : Context) (fuel : Nat) {s use : Scope} (range : TokenRange)
    {fs : List Scope} (chain : use.chain = fs ++ s.chain)
    (silent : ∀ f ∈ fs, σ.ownLocal x f = none ∨ σ.ownLocal x f = σ.ownLocal x s)
    (bound : (σ.locals s).lookup x = some v) :
    (resolveVariable ctx [.plain x] use range).run (handle ctx fuel) σ = some (.ok v, σ) ↔
      ∀ w, σ.SlotHolds s x w → w = v := by
  have reads : ∀ w, σ.ownLocal x s = some w →
      (resolveVariable ctx [.plain x] use range).run (handle ctx fuel) σ = some (.ok w, σ) :=
    fun w own => resolveVariable_local ctx fuel range (Store.getLocal_append chain silent own)
  constructor
  · intro run w holds
    have both := (reads w (Store.ownLocal_slot holds)).symm.trans run
    simpa using both
  · intro agrees
    apply reads
    by_cases held : ∃ w, σ.SlotHolds s x w
    · obtain ⟨w, holds⟩ := held
      rw [Store.ownLocal_slot holds, agrees w holds]
    · rw [Store.ownLocal_free (not_exists.mp held), bound]

/-- A field still to be evaluated is reached only when nothing binds its name. -/
theorem resolveVariable_thunk (ctx : Context) (fuel : Nat) {id : Nat} (range : TokenRange)
    (free : σ.getLocal s x = none) (pending : σ.getThunk s x = some id) :
    (resolveVariable ctx [.plain x] s range).run (handle ctx fuel) σ =
      (forceThunk id).run (handle ctx fuel) σ := by
  simp only [resolveVariable, TokenKey.plain, TokenKey.name, run_read_bind, free, pending]
  exact congrArg (Prog.run _ · σ) (Prog.bind_ret _)

/-! ### What time leaves alone -/

/-- Frames of bindings are only ever added. -/
theorem frames_transition : Transition fun σ τ => σ.frames <+: τ.frames where
  refl _ := prefix_refl _
  trans := List.IsPrefix.trans
  op o σ := by
    cases o with
    | bindingsScope shape locals => exact prefix_append _ _
    | _ => exact prefix_refl _
  marked h := h
  loading h := h
  noted _ _ _ _ h := h
  slot h := h

theorem Elapsed.frames (h : Elapsed ctx σ τ) : σ.frames <+: τ.frames := by
  induction h with
  | refl => exact prefix_refl _
  | answered _ reply ih => exact ih.trans (frames_transition.handle ctx _ _ _ _ _ _ reply)
  | marked _ _ ih => exact ih
  | unmarked _ _ ih => exact ih
  | loading _ _ ih => exact ih
  | loaded _ _ ih => exact ih
  | noted _ _ _ _ _ ih => exact ih
  | moved _ _ _ _ _ ih => exact ih

/-- So a frame of bindings keeps what it binds. -/
theorem Elapsed.locals (h : Elapsed ctx σ τ) {table : Assoc Value} (kind : s.kind = .bindings)
    (there : σ.frames[s.id]? = some table) : τ.locals s = table := by
  have later : τ.frames[s.id]? = some table := by
    obtain ⟨rest, hrest⟩ := h.frames
    have inside : s.id < σ.frames.length := (List.getElem?_eq_some_iff.mp there).1
    rw [← hrest, List.getElem?_append_left inside, there]
  rw [Store.locals, kind, getD_eq_getElem?_getD, later, getD_some]

/-- A list context that exists when a call starts is as it was when the call ends: a
loop writes no slot but its own. -/
theorem lists_transition : Transition fun σ τ => σ.lists <+: τ.lists where
  refl _ := prefix_refl _
  trans := List.IsPrefix.trans
  op o σ := by
    cases o with
    | newListContext c => exact prefix_append _ _
    | _ => exact prefix_refl _
  marked h := h
  loading h := h
  noted _ _ _ _ h := h
  slot := by
    intro σ τ name v i h
    show σ.lists <+: τ.lists.modify σ.lists.length _
    rw [prefix_iff_getElem?] at h ⊢
    intro k hk
    exact (List.getElem?_modify_ne _ _ (Nat.ne_of_gt hk)).trans (h k hk)

theorem slotHolds_during {slot i : Nat} {α : Type} {before : M α} {out : Except RuntimeError α}
    (iterates : frame.listContext = some slot) (exists_ : slot < τ.lists.length)
    (run : before.run (handle ctx fuel) (τ.setIterBinding slot x v i) = some (out, σ)) :
    σ.SlotHolds frame x v := by
  have kept := lists_transition.run (lists_transition.handle ctx fuel) run
  rw [prefix_iff_getElem?] at kept
  have there : slot < (τ.setIterBinding slot x v i).lists.length := by
    simpa [Store.setIterBinding] using exists_
  have now := kept slot there
  simp only [Store.SlotHolds, Store.currentIterBinding, Store.listContext?, iterates, bind_some,
    now]
  simp [Store.setIterBinding]

/-! ### Closures -/

theorem foldl_iterBinding_lookup (σ : Store) (fs : List Scope) (acc : Assoc Value) (x : String) :
    (fs.foldl (fun acc f => match σ.currentIterBinding f with
      | some (name, v) => if (acc.lookup name).isSome then acc else acc.put name v
      | none => acc) acc).lookup x = (acc.lookup x).or (fs.findSome? (σ.slotValue x)) := by
  induction fs generalizing acc with
  | nil => simp
  | cons f fs ih =>
    rw [foldl_cons, ih, List.findSome?_cons, Store.slotValue]
    cases slot : σ.currentIterBinding f with
    | none => simp
    | some b =>
      obtain ⟨name, v⟩ := b
      -- a name the snapshot has already is an inner loop's
      by_cases known : (acc.lookup name).isSome = true
      · by_cases same : name = x
        · subst same
          obtain ⟨w, hw⟩ := isSome_iff_exists.mp known
          simp [hw]
        · simp [known, same]
      · by_cases same : name = x
        · subst same
          rw [not_isSome_iff_eq_none] at known
          simp [known, Assoc.lookup_put]
        · simp [known, same, Assoc.lookup_put, Ne.symm same]

theorem iterSnapshot_lookup (σ : Store) (base : Scope) (x : String) :
    (iterSnapshot σ base).lookup x = base.chain.findSome? (σ.slotValue x) :=
  foldl_iterBinding_lookup σ base.chain [] x

/-- The innermost loop over `x` seen from `base` is the one over the frame's slot. -/
def SeesLoop (σ : Store) (base frame : Scope) (x : String) : Prop :=
  ∃ inner outer, base.chain = inner ++ frame :: outer ∧ ∀ f ∈ inner, ∀ w, ¬ σ.SlotHolds f x w

theorem iterSnapshot_sees (sees : SeesLoop σ base frame x) (holds : σ.SlotHolds frame x v) :
    (iterSnapshot σ base).lookup x = some v := by
  obtain ⟨inner, outer, chain, silent⟩ := sees
  have none : inner.findSome? (σ.slotValue x) = none := by
    rw [List.findSome?_eq_none_iff]
    intro f hf
    exact eq_none_iff_forall_ne_some.mpr fun w hw =>
      silent f hf w (Store.slotValue_eq_some.mp hw)
  rw [iterSnapshot_lookup, chain, List.findSome?_append, none, List.findSome?_cons,
    Store.slotValue_eq_some.mpr holds]
  rfl

theorem snapshotIterBindings_run (ctx : Context) (fuel : Nat) (captures : iterSnapshot σ base ≠ []) :
    (snapshotIterBindings base).run (handle ctx fuel) σ =
      some (.ok (Store.mkScope .bindings σ.frames.length base.childShape),
        { σ with frames := σ.frames ++ [iterSnapshot σ base] }) := by
  rw [snapshotIterBindings, run_read_bind]
  rw [if_neg (by rwa [List.isEmpty_iff])]
  exact run_send ctx fuel (.bindingsScope base.childShape (iterSnapshot σ base)) σ

theorem makeClosure_env {params : List String} {body : Node} {scope env : Scope} {σ σ₁ : Store}
    (made : (makeClosure params body scope).run (handle ctx fuel) σ =
      some (.ok (.closure params body env), σ₁))
    (captured : (iterSnapshot σ (closureBase scope)).lookup x = some v) :
    env.kind = .bindings ∧ env.listContext = (closureBase scope).listContext ∧
      σ₁.frames[env.id]? = some (iterSnapshot σ (closureBase scope)) := by
  have captures : iterSnapshot σ (closureBase scope) ≠ [] := by
    intro h
    rw [h] at captured
    cases captured
  obtain ⟨a, m, snapshot, rest⟩ := (Prog.run_bind_ok _).mp made
  rw [snapshotIterBindings_run ctx fuel captures] at snapshot
  cases snapshot
  cases rest
  exact ⟨rfl, rfl, List.getElem?_concat_length⟩

/-- A use of `x` inside a call: its frames reach down to `env`, and none of those
above `env` binds `x`. -/
def UsedOver (σ : Store) (env use : Scope) (x : String) : Prop :=
  ∃ fs, use.chain = fs ++ env.chain ∧ ∀ f ∈ fs, σ.ownLocal x f = none

theorem Elapsed.run {ctx : Context} {fuel : Nat} {ρ σ τ : Store} {α : Type} {x : M α}
    {out : Except RuntimeError α} (before : Elapsed ctx ρ σ)
    (run : x.run (handle ctx fuel) σ = some (out, τ)) : Elapsed ctx ρ τ :=
  Prog.run_within (R := fun σ τ => Elapsed ctx ρ σ → Elapsed ctx ρ τ) (fun _ h => h)
    (fun first second h => second (first h)) (fun reply h => Elapsed.answered h reply) run before

/-- A host with nothing to evaluate, a loop's frame, and the store over it. -/
def idleHost : Context := .bare (.bare 0 .missing)

def loopFrame : Scope := ⟨.opened, 0, none, none, "", "", none, some 0⟩

def loopStore : Store := { emptyStore with lists := [⟨0, [], none⟩] }

/-- The store behind the building of a closure in an iteration whose element is 7. -/
def builtStore : Store :=
  { loopStore.setIterBinding 0 "x" (.int 7) 0 with frames := [[("x", .int 7)]] }

/-- `{ fs: [() => x for x in [1, 2]], r: [f() for f in fs] }`. -/
def capturesDocument : Node :=
  .bare 1 (.dict [
    (.plain "fs", .bare 2 (.comprehension
      (.bare 3 (.closure [] (.bare 4 (.variable [.plain "x"])))) "x"
      (.bare 5 (.list [.bare 6 (.int 1), .bare 7 (.int 2)])) none)),
    (.plain "r", .bare 8 (.comprehension (.bare 9 (.fnCall [.plain "f"] [])) "f"
      (.bare 10 (.variable [.plain "fs"])) none))])

/-- What binds names inside an expression. -/
inductive Binder where
  | whereBlock (bindings : Assoc Value)
  | pattern (value : Value) (enumPath : List String) (variant : String)
    (bindings : List PatternBinding) (range : TokenRange)
  | method (receiver : Option Value) (params : List String) (args : List EvaluatedArg)
  | dict (node : Node)

namespace Binder

/-- The frame of the expressions in a binder's scope, as `evalWhere`, `evalArms`,
`invokeMethodBody` and `evalDict` open it. -/
def enter (scope : Scope) : Binder → M (Option Scope)
  | whereBlock bindings => do
    let frame ← scope.withLocals bindings
    pure (some frame)
  | pattern value enumPath variant bindings range =>
    matchVariantPatternScope value enumPath variant bindings scope range
  | method receiver params args => do
    let frame ← scope.withLocals (methodBindings receiver params args)
    pure (some frame)
  | dict node => do
    let frame ← dictScope node scope
    pure (some frame.1)

/-- What the binder binds on entry; the fields of a dict are evaluated later. -/
def table : Binder → Assoc Value
  | whereBlock bindings => bindings
  | pattern value _ variant bindings range =>
    match value with
    | .dict map brand variantOf =>
      match patternLocals map brand variantOf variant range 0 bindings [] with
      | .ret locals => locals
      | _ => []
    | _ => []
  | method receiver params args => methodBindings receiver params args
  | dict _ => []

variable {ctx : Context} {fuel : Nat} {scope frame : Scope} {σ σ₁ : Store}

omit ctx fuel scope frame σ σ₁ in
theorem patternLocals_cases (map : Assoc Value) (brand variantOf : Option String) (variant : String)
    (range : TokenRange) (bindings : List PatternBinding) (i : Nat) (locals : Assoc Value) :
    (∃ l, patternLocals map brand variantOf variant range i bindings locals = .ret l) ∨
      ∃ e, patternLocals map brand variantOf variant range i bindings locals = .fail e := by
  induction bindings generalizing i locals with
  | nil => exact .inl ⟨locals, rfl⟩
  | cons b rest ih =>
    unfold patternLocals
    split
    · exact ih ..
    · dsimp only
      split
      · exact .inr ⟨_, rfl⟩
      · split
        · exact .inr ⟨_, rfl⟩
        · exact ih ..

theorem enter_pattern {value : Value} {enumPath : List String} {variant : String}
    {bindings : List PatternBinding} {range : TokenRange}
    (entered : ((pattern value enumPath variant bindings range).enter scope).run (handle ctx fuel) σ
      = some (.ok (some frame), σ₁)) : (bindings = [] ∧ frame = scope) ∨
      (scope.withLocals (pattern value enumPath variant bindings range).table).run
        (handle ctx fuel) σ = some (.ok frame, σ₁) := by
  cases value with
  | dict map brand variantOf =>
    simp only [enter, matchVariantPatternScope] at entered
    split at entered
    · cases entered
    split at entered
    · cases entered
    split at entered
    · rename_i empty
      cases entered
      exact .inl ⟨List.isEmpty_iff.mp empty, rfl⟩
    simp only [table]
    cases patternLocals_cases map brand variantOf variant range bindings 0 [] with
    | inl found =>
      obtain ⟨l, hl⟩ := found
      rw [hl] at entered ⊢
      simp only [Prog.ret_bind, Scope.withLocals, run_send_bind, run_send] at entered ⊢
      cases entered
      exact .inr rfl
    | inr failed =>
      obtain ⟨e, he⟩ := failed
      rw [he] at entered
      cases entered
  | _ => cases entered

omit frame in
theorem dictScope_context {node : Node} {frame : OpenScope}
    (opened : (dictScope node scope).run (handle ctx fuel) σ = some (.ok frame, σ₁)) :
    frame.1.listContext = scope.listContext := by
  simp only [dictScope, run_read_bind, run_send_bind] at opened
  split at opened
  · cases opened
    rfl
  · split at opened
    · rw [run_send_bind, run_send] at opened
      cases opened
      rfl
    · cases opened
      rfl

/-- The frame inherits the slot of the scope around it. -/
theorem enter_context {b : Binder}
    (entered : (b.enter scope).run (handle ctx fuel) σ = some (.ok (some frame), σ₁)) :
    frame.listContext = scope.listContext := by
  cases b with
  | whereBlock bindings =>
    simp only [enter, Scope.withLocals, run_send_bind] at entered
    cases entered
    rfl
  | method receiver params args =>
    simp only [enter, Scope.withLocals, run_send_bind] at entered
    cases entered
    rfl
  | pattern value enumPath variant bindings range =>
    cases enter_pattern entered with
    | inl same => rw [same.2]
    | inr opened =>
      rw [Scope.withLocals, run_send] at opened
      cases opened
      rfl
  | dict node =>
    obtain ⟨opened, m, run, rest⟩ := (Prog.run_bind_ok _).mp entered
    cases rest
    exact dictScope_context run

/-- What it binds on entry stays bound. -/
theorem enter_table {b : Binder} {x : String} {v : Value} {τ : Store}
    (entered : (b.enter scope).run (handle ctx fuel) σ = some (.ok (some frame), σ₁))
    (bound : b.table.lookup x = some v) (elapsed : Elapsed ctx σ₁ τ) :
    (τ.locals frame).lookup x = some v := by
  have opens : ∀ table : Assoc Value, table.lookup x = some v →
      (scope.withLocals table).run (handle ctx fuel) σ = some (.ok frame, σ₁) →
      (τ.locals frame).lookup x = some v := by
    intro table bound run
    rw [Scope.withLocals, run_send] at run
    cases run
    rw [elapsed.locals rfl List.getElem?_concat_length, bound]
  cases b with
  | whereBlock bindings =>
    obtain ⟨opened, m, run, rest⟩ := (Prog.run_bind_ok _).mp entered
    cases rest
    exact opens _ bound run
  | method receiver params args =>
    obtain ⟨opened, m, run, rest⟩ := (Prog.run_bind_ok _).mp entered
    cases rest
    exact opens _ bound run
  | pattern value enumPath variant bindings range =>
    cases enter_pattern entered with
    | inl same =>
      rw [same.1] at bound
      cases value <;> cases bound
    | inr run => exact opens _ bound run
  | dict node => cases bound

end Binder

/-- A use of `x` in the scope of a binder's frame: no frame opened since binds `x`, and
each shares the frame's slot or has one without `x`. -/
def InScopeOf (σ : Store) (frame use : Scope) (x : String) : Prop :=
  ∃ fs, use.chain = fs ++ frame.chain ∧ ∀ f ∈ fs, (σ.locals f).lookup x = none ∧
    σ.getOwnThunk f x = none ∧
    (f.listContext = frame.listContext ∨ ∀ w, ¬ σ.SlotHolds f x w)

theorem InScopeOf.silent {σ : Store} {frame f : Scope} {x : String}
    (unbound : (σ.locals f).lookup x = none)
    (slot : f.listContext = frame.listContext ∨ ∀ w, ¬ σ.SlotHolds f x w) :
    σ.ownLocal x f = none ∨ σ.ownLocal x f = σ.ownLocal x frame := by
  by_cases held : ∃ w, σ.SlotHolds f x w
  · obtain ⟨w, holds⟩ := held
    cases slot with
    | inl same =>
      refine .inr ?_
      rw [Store.ownLocal_slot holds, Store.ownLocal_slot ((Store.SlotHolds.congr same).mp holds)]
    | inr free => exact absurd holds (free w)
  · exact .inl (by rw [Store.ownLocal_free (not_exists.mp held), unbound])

/-- `{ r: [(x where { x: 5 }) for x in [1, 2]] }`. -/
def shadowDocument : Node :=
  .bare 1 (.dict [
    (.plain "r", .bare 2 (.comprehension
      (.bare 3 (.where_ (.bare 4 (.variable [.plain "x"]))
        (.bare 5 (.dict [(.plain "x", .bare 6 (.int 5))])))) "x"
      (.bare 7 (.list [.bare 8 (.int 1), .bare 9 (.int 2)])) none))])

end Relon.Eval
