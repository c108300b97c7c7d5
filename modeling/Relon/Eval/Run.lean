import Relon.Eval.Eval

/-! What every run of the evaluator has in common.

The evaluator's code only sends requests. A relation between stores that each
operation, each mark around a call and each write of a loop to its own slot stay
within therefore holds across any call, at any depth of the recursion; and more
fuel never changes an answer. -/
namespace Relon.Eval
open Option

theorem Scope.chain_eq (s : Scope) : s.chain = s :: (s.parent.map Scope.chain).getD [] := by
  obtain ⟨kind, id, parent, pathNode, dir, ns, root, ctx⟩ := s
  cases parent <;> rfl

/-! ### Loading a module -/

variable {ctx : Context} {calls : Prog.Handler Req Store} {range : TokenRange} {σ τ : Store}
  {out : Except RuntimeError Value}

/-- What `evaluate_module_source` does: it answers from the cache, refuses a module that is being
loaded, or evaluates the module and caches it. -/
theorem evaluateModuleSource_cases {source : ModuleSource}
    (ran : evaluateModuleSource ctx calls source range σ = some (out, τ)) :
    (∃ v, σ.moduleCache.lookup source.canonicalId = some v ∧ out = .ok v ∧ τ = σ) ∨
    (σ.moduleCache.lookup source.canonicalId = none ∧ out.toOption = none ∧ τ = σ) ∨
    (σ.moduleCache.lookup source.canonicalId = none ∧ ∃ υ,
      (evaluateModuleBody ctx source range).run calls (σ.markModule source.canonicalId) =
        some (out, υ) ∧ τ = (υ.unmarkModule source.canonicalId).cacheModule source.canonicalId
        (ctx.moduleOrigin source) out) := by
  unfold evaluateModuleSource at ran
  split at ran
  next v cached =>
    cases ran
    exact .inl ⟨v, cached, rfl, rfl⟩
  next absent =>
    split at ran
    · cases ran
      exact .inr (.inl ⟨absent, rfl, rfl⟩)
    · obtain ⟨⟨out', υ⟩, body, ends⟩ := map_eq_some_iff.mp ran
      cases ends
      exact .inr (.inr ⟨absent, υ, body, rfl⟩)

/-- What `load_module` does: the resolvers or the pin refuse, or the module is looked up or
evaluated and the import noted. -/
theorem loadModule_cases {path dir : String} {integrity : Option IntegrityHash}
    (ran : loadModule ctx calls path integrity dir range σ = some (out, τ)) :
    (out.toOption = none ∧ τ = σ.resolved) ∨
    ∃ source υ, ctx.resolveModule σ.resolutions path dir range = .ok source ∧
      (∀ pin, integrity = some pin → verifyModuleIntegrity ctx path pin source.source range = .ok ()) ∧
      evaluateModuleSource ctx calls source range σ.resolved = some (out, υ) ∧
      τ = υ.noteImport integrity source out := by
  unfold loadModule at ran
  split at ran
  · cases ran
    exact .inl ⟨rfl, rfl⟩
  next source resolved =>
    split at ran
    · cases ran
      exact .inl ⟨rfl, rfl⟩
    next verified =>
      obtain ⟨⟨out', υ⟩, loaded, ends⟩ := map_eq_some_iff.mp ran
      cases ends
      refine .inr ⟨source, υ, resolved, ?_, loaded, rfl⟩
      rintro pin rfl
      exact verified

/-! ### Relations between stores -/

/-- The store with other records of modules. -/
def Store.noted (σ : Store) (resolutions : Nat) (cache : Assoc Value) (origins : Assoc (List UInt8))
    (imports : List Import) : Store :=
  { σ with resolutions := resolutions, moduleCache := cache, origins := origins, imports := imports }

theorem Store.cacheModule_noted (σ : Store) (id : String) (origin : List UInt8)
    (out : Except RuntimeError Value) :
    ∃ cache origins, σ.cacheModule id origin out = σ.noted σ.resolutions cache origins σ.imports := by
  cases out <;> exact ⟨_, _, rfl⟩

theorem Store.noteImport_noted (σ : Store) (integrity : Option IntegrityHash)
    (source : ModuleSource) (out : Except RuntimeError Value) :
    ∃ imports, σ.noteImport integrity source out =
      σ.noted σ.resolutions σ.moduleCache σ.origins imports := by
  cases out <;> exact ⟨_, rfl⟩

/-- Every answer of the handler stays within `R`. -/
def Within (R : Store → Store → Prop) (h : Prog.Handler Req Store) : Prop :=
  ∀ (β : Type) (r : Req β) (σ τ : Store) (b : β), h β r σ = some (b, τ) → R σ τ

/-- The second handler answers whatever the first one answers, and answers it alike. -/
def Extends (h h' : Prog.Handler Req Store) : Prop :=
  ∀ (β : Type) (r : Req β) (σ : Store) (a : β × Store), h β r σ = some a → h' β r σ = some a

/-- A relation between the store before and after that no request leaves, on a given host. -/
structure Steps (ctx : Context) (R : Store → Store → Prop) : Prop where
  refl : ∀ σ, R σ σ
  trans : ∀ {σ τ υ}, R σ τ → R τ υ → R σ υ
  op : ∀ {β : Type} (o : Op β) (σ : Store), R σ (σ.perform o).2
  marked : ∀ {σ τ key}, R (σ.markPath key) τ → R σ (τ.unmarkPath key)
  load : ∀ {fuel path integrity dir range σ out τ}, Within R (handle ctx fuel) →
    loadModule ctx (handle ctx fuel) path integrity dir range σ = some (out, τ) → R σ τ
  /-- A loop that starts at `σ` writes the slot it allocates there. -/
  slot : ∀ {σ τ name v i}, R σ τ → R σ (τ.setIterBinding σ.lists.length name v i)

/-- One that does not look at the records of modules, on any host. -/
structure Transition (R : Store → Store → Prop) : Prop where
  refl : ∀ σ, R σ σ
  trans : ∀ {σ τ υ}, R σ τ → R τ υ → R σ υ
  op : ∀ {β : Type} (o : Op β) (σ : Store), R σ (σ.perform o).2
  marked : ∀ {σ τ key}, R (σ.markPath key) τ → R σ (τ.unmarkPath key)
  loading : ∀ {σ τ id}, R (σ.markModule id) τ → R σ (τ.unmarkModule id)
  noted : ∀ {σ τ} n cache origins imports, R σ τ → R σ (τ.noted n cache origins imports)
  slot : ∀ {σ τ name v i}, R σ τ → R σ (τ.setIterBinding σ.lists.length name v i)

variable {R : Store → Store → Prop} {calls calls' : Prog.Handler Req Store} {σ τ : Store}

namespace Steps

variable {ctx : Context} {fuel : Nat}

theorem reply (hR : Steps ctx R) {β : Type} {o : Op β} {b : β}
    (reply : some (σ.perform o) = some (b, τ)) : R σ τ := by
  have step := hR.op o σ
  rwa [Option.some.inj reply] at step

theorem run (hR : Steps ctx R) (hc : Within R calls) {α : Type} {x : M α}
    {out : Except RuntimeError α} (run : x.run calls σ = some (out, τ)) : R σ τ :=
  Prog.run_within hR.refl hR.trans (hc _ _ _ _ _) run

/-- A loop over the slot allocated at `base` stays within what `base` allows. -/
theorem loop (hR : Steps ctx R) (hc : Within R calls) {base : Store} {α : Type} {x : LoopM α}
    {out : Except RuntimeError α} (start : R base σ)
    (run : x.run (answerLoop calls base.lists.length) σ = some (out, τ)) : R base τ := by
  refine Prog.run_within (R := fun s t => R base s → R base t) (fun _ h => h)
    (fun hst htu h => htu (hst h)) ?_ run start
  intro β r s t b answer hs
  cases r with
  | req r => exact hR.trans hs (hc _ _ _ _ _ answer)
  | setIterBinding name v index =>
    cases answer
    exact hR.slot hs

theorem answer (hR : Steps ctx R) (hc : Within R (handle ctx fuel)) :
    Within R (answer ctx (handle ctx fuel)) := by
  intro β r σ τ b reply
  cases r with
  | op o => exact hR.reply reply
  | eval node scope isSchemaPred => exact hR.run hc reply
  | evalMarked key node scope =>
    obtain ⟨⟨out, υ⟩, run, ends⟩ := map_eq_some_iff.mp reply
    cases ends
    exact hR.marked (hR.run hc run)
  | iterate element id condition scope items =>
    exact hR.loop hc (hR.trans (hR.op _ _) (hR.op _ _)) reply
  | load path integrity dir range => exact hR.load hc reply

/-- The relation holds across every answered request, whatever the fuel. -/
theorem handle (hR : Steps ctx R) (fuel : Nat) : Within R (handle ctx fuel) := by
  induction fuel with
  | zero =>
    intro β r σ τ b reply
    cases r with
    | op o => exact hR.reply reply
    | _ => cases reply
  | succ fuel ih => exact hR.answer ih

/-- It holds from the reset to the end of a top-level run. -/
theorem topLevelRun (hR : Steps ctx R) {entry : Entry} {scope : OpenScope}
    {out : Except RuntimeError Value}
    (run : topLevelRun ctx fuel entry scope σ = some (out, τ)) : R σ.beginRun τ :=
  hR.run (hR.handle fuel) run

end Steps

namespace Transition

theorem run (hR : Transition R) (hc : Within R calls) {α : Type} {x : M α}
    {out : Except RuntimeError α} (run : x.run calls σ = some (out, τ)) : R σ τ :=
  Prog.run_within hR.refl hR.trans (hc _ _ _ _ _) run

theorem load (hR : Transition R) (hc : Within R calls) {ctx : Context} {path dir : String}
    {integrity : Option IntegrityHash} {range : TokenRange} {out : Except RuntimeError Value}
    (run : loadModule ctx calls path integrity dir range σ = some (out, τ)) : R σ τ := by
  have asked : R σ σ.resolved := hR.noted (σ.resolutions + 1) _ _ _ (hR.refl σ)
  obtain ⟨-, rfl⟩ | ⟨source, υ, -, -, loaded, rfl⟩ := loadModule_cases run
  · exact asked
  obtain ⟨imports, noted⟩ := υ.noteImport_noted integrity source out
  rw [noted]
  refine hR.noted _ _ _ _ ?_
  obtain ⟨v, -, -, rfl⟩ | ⟨-, -, rfl⟩ | ⟨-, υ', body, rfl⟩ := evaluateModuleSource_cases loaded
  · exact asked
  · exact asked
  · obtain ⟨cache, origins, cached⟩ := (υ'.unmarkModule source.canonicalId).cacheModule_noted
      source.canonicalId (ctx.moduleOrigin source) out
    rw [cached]
    exact hR.noted _ _ _ _ (hR.trans asked (hR.loading (hR.run hc body)))

theorem steps (hR : Transition R) (ctx : Context) : Steps ctx R where
  refl := hR.refl
  trans := hR.trans
  op := hR.op
  marked := hR.marked
  load hc run := hR.load hc run
  slot := hR.slot

theorem handle (hR : Transition R) (ctx : Context) (fuel : Nat) : Within R (handle ctx fuel) :=
  (hR.steps ctx).handle fuel

/-- It holds from the reset to the end of a top-level run. -/
theorem topLevelRun (hR : Transition R) {ctx : Context} {fuel : Nat} {entry : Entry}
    {scope : OpenScope} {out : Except RuntimeError Value}
    (run : topLevelRun ctx fuel entry scope σ = some (out, τ)) : R σ.beginRun τ :=
  (hR.steps ctx).topLevelRun run

end Transition

/-- Time passes: requests are answered, marks come and go and loops move on. -/
inductive Elapsed (ctx : Context) (σ : Store) : Store → Prop where
  | refl : Elapsed ctx σ σ
  | answered {fuel : Nat} {β : Type} {r : Req β} {b : β} {τ υ : Store} (before : Elapsed ctx σ τ)
      (reply : handle ctx fuel β r τ = some (b, υ)) : Elapsed ctx σ υ
  | marked {τ : Store} (before : Elapsed ctx σ τ) (key : String) : Elapsed ctx σ (τ.markPath key)
  | unmarked {τ : Store} (before : Elapsed ctx σ τ) (key : String) :
      Elapsed ctx σ (τ.unmarkPath key)
  | loading {τ : Store} (before : Elapsed ctx σ τ) (id : String) : Elapsed ctx σ (τ.markModule id)
  | loaded {τ : Store} (before : Elapsed ctx σ τ) (id : String) :
      Elapsed ctx σ (τ.unmarkModule id)
  | noted {τ : Store} (before : Elapsed ctx σ τ) (n : Nat) (cache : Assoc Value)
      (origins : Assoc (List UInt8)) (imports : List Import) :
      Elapsed ctx σ (τ.noted n cache origins imports)
  | moved {τ : Store} (before : Elapsed ctx σ τ) (slot : Nat) (name : String) (v : Value)
      (i : Nat) : Elapsed ctx σ (τ.setIterBinding slot name v i)

/-! ### Fuel -/

variable {α β : Type} {ctx : Context} {range : TokenRange} {fuel fuel' : Nat} {P : Store → Prop}
  {f : Store → M α} {a : α}

@[simp] theorem handle_op (ctx : Context) (fuel : Nat) (o : Op β) (σ : Store) :
    handle ctx fuel β (.op o) σ = some (σ.perform o) := by
  cases fuel <;> rfl

@[simp] theorem run_send_bind (ctx : Context) (fuel : Nat) (o : Op β) (f : β → M α) (σ : Store) :
    (send o >>= f).run (handle ctx fuel) σ =
      (f (σ.perform o).1).run (handle ctx fuel) (σ.perform o).2 :=
  Prog.run_request _ (handle_op ctx fuel o σ) f

@[simp] theorem run_send (ctx : Context) (fuel : Nat) (o : Op β) (σ : Store) :
    (send o).run (handle ctx fuel) σ = some (.ok (σ.perform o).1, (σ.perform o).2) :=
  Prog.run_request _ (handle_op ctx fuel o σ) Prog.ret

@[simp] theorem run_read_bind (ctx : Context) (fuel : Nat) (f : Store → M α) (σ : Store) :
    (read >>= f).run (handle ctx fuel) σ = (f σ).run (handle ctx fuel) σ :=
  run_send_bind ctx fuel .read f σ

/-- Reading the store: the standing condition holds of what is read. -/
theorem yields_read (y : Prog.Yields (handle ctx fuel) P (read >>= f) σ a τ) :
    P σ ∧ Prog.Yields (handle ctx fuel) P (f σ) σ a τ := by
  obtain ⟨store, m, first, y⟩ := y.of_bind
  have reply := first.run.symm.trans (run_send ctx fuel .read σ)
  cases reply
  exact ⟨first.stays.start, y⟩

theorem yields_of_read (standing : P σ) (y : Prog.Yields (handle ctx fuel) P (f σ) σ a τ) :
    Prog.Yields (handle ctx fuel) P (read >>= f) σ a τ := by
  refine ⟨(run_read_bind ctx fuel f σ).trans y.run, standing, fun b t reply => ?_⟩
  cases (handle_op ctx fuel .read σ).symm.trans reply
  exact y.stays

theorem Extends.answerLoop (h : Extends calls calls') (slot : Nat) {r : LoopReq β} {a : β × Store}
    (reply : answerLoop calls slot β r σ = some a) :
    Eval.answerLoop calls' slot β r σ = some a := by
  cases r with
  | req r => exact h _ _ _ _ reply
  | setIterBinding name v index => exact reply

theorem Extends.evaluateModuleSource (h : Extends calls calls') (ctx : Context)
    {source : ModuleSource} {a : Except RuntimeError Value × Store}
    (ran : evaluateModuleSource ctx calls source range σ = some a) :
    Eval.evaluateModuleSource ctx calls' source range σ = some a := by
  unfold Eval.evaluateModuleSource at ran ⊢
  split at ran
  · exact ran
  · split at ran
    next loading =>
      rw [if_pos loading]
      exact ran
    next free =>
      rw [if_neg free]
      obtain ⟨b, body, ends⟩ := map_eq_some_iff.mp ran
      exact map_eq_some_iff.mpr ⟨b, Prog.run_mono (h _ _ _ _) body, ends⟩

theorem Extends.load (h : Extends calls calls') (ctx : Context) {path dir : String}
    {integrity : Option IntegrityHash} {a : Except RuntimeError Value × Store}
    (ran : loadModule ctx calls path integrity dir range σ = some a) :
    loadModule ctx calls' path integrity dir range σ = some a := by
  unfold loadModule at ran ⊢
  split at ran
  · exact ran
  · split at ran
    · exact ran
    · obtain ⟨b, loaded, ends⟩ := map_eq_some_iff.mp ran
      exact map_eq_some_iff.mpr ⟨b, h.evaluateModuleSource ctx loaded, ends⟩

theorem Extends.answer (h : Extends calls calls') (ctx : Context) :
    Extends (answer ctx calls) (Eval.answer ctx calls') := by
  intro β r σ a reply
  cases r with
  | op o => exact reply
  | eval node scope isSchemaPred => exact Prog.run_mono (h _ _ _ _) reply
  | evalMarked key node scope =>
    obtain ⟨_, run, ends⟩ := map_eq_some_iff.mp reply
    exact map_eq_some_iff.mpr ⟨_, Prog.run_mono (h _ _ _ _) run, ends⟩
  | iterate element id condition scope items =>
    exact Prog.run_mono (fun reply => h.answerLoop _ reply) reply
  | load path integrity dir range => exact h.load ctx reply

theorem handle_succ (ctx : Context) (fuel : Nat) :
    Extends (handle ctx fuel) (handle ctx (fuel + 1)) := by
  induction fuel with
  | zero =>
    intro β r σ a reply
    cases r with
    | op o => exact reply
    | _ => cases reply
  | succ fuel ih => exact ih.answer ctx

/-- More fuel answers no request differently. -/
theorem handle_mono (ctx : Context) (le : fuel ≤ fuel') :
    Extends (handle ctx fuel) (handle ctx fuel') := by
  induction le with
  | refl => exact fun _ _ _ _ reply => reply
  | step le ih => exact fun _ _ _ _ reply => handle_succ ctx _ _ _ _ _ (ih _ _ _ _ reply)

theorem run_handle_mono (ctx : Context) (le : fuel ≤ fuel') {x : M α}
    {r : Except RuntimeError α × Store} (run : x.run (handle ctx fuel) σ = some r) :
    x.run (handle ctx fuel') σ = some r :=
  Prog.run_mono (handle_mono ctx le _ _ _ _) run

end Relon.Eval
