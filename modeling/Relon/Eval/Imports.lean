import Relon.Eval.Run

/-! Pinned imports.

The pin of an `#import` is checked against the bytes the resolvers return for it. The value
that is bound is the cached one, if the cache has the module's id, and otherwise that of the
workspace's node, if the workspace has one; both may come from other bytes. -/
namespace Relon.Eval

section
variable (ctx : Context)

/-- The bytes have the pinned digest. -/
def IntegrityHash.Matches (pin : IntegrityHash) (bytes : List UInt8) : Prop :=
  pin.algorithm = some .sha256 ∧ asciiLower pin.hex = asciiLower (ctx.sha256 bytes)

instance (pin : IntegrityHash) (bytes : List UInt8) : Decidable (pin.Matches ctx bytes) :=
  inferInstanceAs (Decidable (_ ∧ _))

theorem matches_of_verify {path : String} {pin : IntegrityHash} {body : List UInt8}
    {range : TokenRange} (verified : verifyModuleIntegrity ctx path pin body range = .ok ()) :
    pin.Matches ctx body := by
  unfold verifyModuleIntegrity at verified
  split at verified
  · cases verified
  next algo known =>
    split at verified
    · cases verified
    split at verified
    · cases verified
    next same =>
      cases algo
      exact ⟨known, not_not.mp same⟩

/-- The value is that of a module whose node was parsed from these bytes. -/
def EvaluatedFrom (bytes : List UInt8) (v : Value) : Prop :=
  ∃ source range fuel σ τ, ctx.moduleOrigin source = bytes ∧
    (evaluateModuleBody ctx source range).run (handle ctx fuel) σ = some (.ok v, τ)

/-- The workspace has these bytes for the module, or an import of it was resolved to them. -/
def Served (imports : List Import) (id : String) (bytes : List UInt8) : Prop :=
  (∃ e ∈ imports, e.canonicalId = id ∧ e.resolved = bytes) ∨
    ∃ node, ctx.workspaceNode id = some (bytes, node)

/-- What is known of an import that succeeded. -/
structure Import.Known (imports : List Import) (e : Import) : Prop where
  served : Served ctx imports e.canonicalId e.origin
  evaluated : EvaluatedFrom ctx e.origin e.value
  verified : ∀ pin, e.integrity = some pin → pin.Matches ctx e.resolved

/-- What is known of the records of modules. -/
structure Noted (σ : Store) : Prop where
  cached : ∀ id v, σ.moduleCache.lookup id = some v → ∃ bytes, σ.origins.lookup id = some bytes ∧
    Served ctx σ.imports id bytes ∧ EvaluatedFrom ctx bytes v
  imports : ∀ e ∈ σ.imports, e.Known ctx σ.imports

/-- The stores of a host over several runs: it starts with no module loaded, and between runs
it may do anything but touch the records of modules. -/
inductive Session : Store → Prop where
  | start {σ : Store} (cache : σ.moduleCache = []) (imports : σ.imports = []) : Session σ
  | host {σ τ : Store} (before : Session σ) (cache : τ.moduleCache = σ.moduleCache)
    (origins : τ.origins = σ.origins) (imports : τ.imports = σ.imports) : Session τ
  | run {σ τ : Store} {fuel : Nat} {entry : Entry} {scope : OpenScope}
    {out : Except RuntimeError Value} (before : Session σ)
    (ran : topLevelRun ctx fuel entry scope σ = some (out, τ)) : Session τ

end

section
variable {ctx : Context} {σ τ : Store}

theorem Noted.congr (noted : Noted ctx σ) (cache : τ.moduleCache = σ.moduleCache)
    (origins : τ.origins = σ.origins) (imports : τ.imports = σ.imports) : Noted ctx τ where
  cached id v := by
    rw [cache, origins, imports]
    exact noted.cached id v
  imports e := by
    rw [imports]
    exact noted.imports e

variable {range : TokenRange} {source : ModuleSource} {out : Except RuntimeError Value}
  {imports : List Import} {id : String} {bytes : List UInt8} {v : Value}

theorem Served.mono (served : Served ctx imports id bytes) (more : List Import) :
    Served ctx (imports ++ more) id bytes :=
  served.imp_left fun ⟨e, there, same⟩ => ⟨e, List.mem_append_left _ there, same⟩

/-- A module's node was parsed from the workspace's bytes, or from those of the import. -/
theorem served_moduleOrigin {e : Import} (there : e ∈ imports) (id : e.canonicalId = source.canonicalId)
    (resolved : e.resolved = source.source) :
    Served ctx imports source.canonicalId (ctx.moduleOrigin source) := by
  unfold Context.moduleOrigin
  split
  next bytes node known => exact .inr ⟨node, known⟩
  next => exact .inl ⟨e, there, id, resolved⟩

/-- An import of a module is noted with what the cache knows of it then. -/
theorem Noted.noteImport (noted : Noted ctx σ) {integrity : Option IntegrityHash}
    (verified : ∀ pin, integrity = some pin → pin.Matches ctx source.source)
    (cache : ∀ id, id ≠ source.canonicalId → τ.moduleCache.lookup id = σ.moduleCache.lookup id)
    (origins : ∀ id, id ≠ source.canonicalId → τ.origins.lookup id = σ.origins.lookup id)
    (before : τ.imports = σ.imports)
    (cached : τ.moduleCache.lookup source.canonicalId = some v)
    (origin : τ.origins.lookup source.canonicalId = some bytes)
    (served : Served ctx (τ.noteImport integrity source (.ok v)).imports source.canonicalId bytes)
    (evaluated : EvaluatedFrom ctx bytes v) :
    Noted ctx (τ.noteImport integrity source (.ok v)) := by
  have log : (τ.noteImport integrity source (.ok v)).imports =
      σ.imports ++ [⟨integrity, source.canonicalId, source.source, bytes, v⟩] := by
    simp only [Store.noteImport, origin, Option.getD_some, before]
  refine ⟨fun id w there => ?_, fun e there => ?_⟩
  · by_cases same : id = source.canonicalId
    · subst same
      cases cached.symm.trans there
      exact ⟨bytes, origin, served, evaluated⟩
    · obtain ⟨bytes', origin', served', evaluated'⟩ := noted.cached id w ((cache id same).symm.trans there)
      rw [log]
      exact ⟨bytes', (origins id same).trans origin', served'.mono _, evaluated'⟩
  · rw [log] at there served ⊢
    obtain there | there := List.mem_append.mp there
    · obtain ⟨served', evaluated', verified'⟩ := noted.imports e there
      exact ⟨served'.mono _, evaluated', verified'⟩
    · cases List.mem_singleton.mp there
      exact ⟨served, evaluated, verified⟩

theorem noted_steps (ctx : Context) : Steps ctx fun σ τ => Noted ctx σ → Noted ctx τ where
  refl _ noted := noted
  trans first second noted := second (first noted)
  op o σ noted := noted.congr (by cases o <;> rfl) (by cases o <;> rfl) (by cases o <;> rfl)
  marked kept noted := (kept (noted.congr rfl rfl rfl)).congr rfl rfl rfl
  slot kept noted := (kept noted).congr rfl rfl rfl
  load := by
    intro fuel path integrity dir range σ out τ within loaded noted
    have asked : Noted ctx σ.resolved := noted.congr rfl rfl rfl
    obtain ⟨-, rfl⟩ | ⟨source, υ, -, verified, evaluated, rfl⟩ := loadModule_cases loaded
    · exact asked
    have matched : ∀ pin, integrity = some pin → pin.Matches ctx source.source :=
      fun pin pinned => matches_of_verify ctx (verified pin pinned)
    obtain ⟨v, cached, rfl, rfl⟩ | ⟨-, refused, rfl⟩ | ⟨-, υ', body, rfl⟩ :=
      evaluateModuleSource_cases evaluated
    · obtain ⟨bytes, origin, served, evaluated⟩ := asked.cached _ v cached
      exact asked.noteImport matched (fun _ _ => rfl) (fun _ _ => rfl) rfl cached origin
        (served.mono _) evaluated
    · cases out with
      | ok v => cases refused
      | error e => exact asked
    · have ran : Noted ctx υ' := Prog.run_within (R := fun σ τ => Noted ctx σ → Noted ctx τ)
        (fun _ noted => noted) (fun first second noted => second (first noted))
        (within _ _ _ _ _) body (asked.congr rfl rfl rfl)
      cases out with
      | error e => exact ran.congr rfl rfl rfl
      | ok v =>
        refine ran.noteImport matched (fun id other => ?_) (fun id other => ?_) rfl ?_
          (show _ = some (ctx.moduleOrigin source) from ?_) ?_ ⟨source, range, fuel, _, υ', rfl, body⟩
        · exact (Assoc.lookup_put ..).trans (if_neg other)
        · exact (Assoc.lookup_put ..).trans (if_neg other)
        · exact (Assoc.lookup_put ..).trans (if_pos rfl)
        · exact (Assoc.lookup_put ..).trans (if_pos rfl)
        · exact served_moduleOrigin (List.mem_append_right _ (List.mem_singleton.mpr rfl)) rfl rfl

theorem Session.noted (session : Session ctx σ) : Noted ctx σ := by
  induction session with
  | start cache imports =>
    refine ⟨fun id v there => ?_, fun e there => ?_⟩
    · rw [cache] at there
      cases there
    · rw [imports] at there
      cases there
  | host _ cache origins imports ih => exact ih.congr cache origins imports
  | run _ ran ih => exact (noted_steps ctx).topLevelRun ran (ih.congr rfl rfl rfl)

theorem import_of_failing_pin {path : String} {spec : ImportSpec} {pin : IntegrityHash}
    {e : RuntimeError} (fuel : Nat) (node : Node) (scope : Scope) (σ : Store)
    (resolved : ctx.resolveModule σ.resolutions path scope.currentDir range = .ok source)
    (failed : verifyModuleIntegrity ctx path pin source.source range = .error e) :
    (applyDirectivePre ctx (.mk "import" (.import_ spec path (some pin)) range) node scope).run
      (handle ctx (fuel + 1)) σ = some (.error e, σ.resolved) := by
  have reply : handle ctx (fuel + 1) _ (.load path (some pin) scope.currentDir range) σ =
      some (.error e, σ.resolved) := by
    show loadModule ctx (handle ctx fuel) path (some pin) scope.currentDir range σ = _
    simp only [loadModule, resolved, Option.map_some, Option.getD_some, failed]
  exact Prog.run_request _ reply _

/-- Every import of the module in the session was resolved to the bytes of this one, and the
workspace was parsed from them. -/
structure Import.Steady (ctx : Context) (imports : List Import) (e : Import) : Prop where
  resolvers : ∀ e' ∈ imports, e'.canonicalId = e.canonicalId → e'.resolved = e.resolved
  workspace : ∀ bytes node, ctx.workspaceNode e.canonicalId = some (bytes, node) → bytes = e.resolved

end

/-! ### A resolver that changes its mind -/

/-- A host whose modules are one digit each; the resolvers return `bytes n` the `n`-th time. Only
the digests of `1` and `2` are looked at. -/
def digitHost (bytes : Nat → List UInt8) (root : Node) : Context :=
  { Context.bare root with
    sha256 := fun bytes =>
      if bytes = [49] then "6b86b273ff34fce19d6b804eff5a3f5747ada4eaa22f1d49c01e52ddb7875b4b"
      else if bytes = [50] then "d4735e3a265e16eee03f59718b9b5d03019c07d8b6c51f90da3a666eec13ab35"
      else ""
    resolveModule := fun n path _ _ => .ok ⟨path, "", bytes n⟩
    parseModule := fun source range => match source.source with
      | [d] => .ok (.bare 10 (.int (Int64.ofNat (d.toNat - 48))))
      | _ => .error (.host source.canonicalId range) }

/-- The pin of the module `2`. -/
def pinOfTwo : IntegrityHash :=
  ⟨some .sha256, "sha256", "d4735e3a265e16eee03f59718b9b5d03019c07d8b6c51f90da3a666eec13ab35"⟩

/-- `#import a from "m"`, `#import b from "m" sha256:"d473…"` over `b`. -/
def pinnedDocument : Node :=
  .mk 1 (.variable [.plain "b"]) []
    [.mk "import" (.import_ (.alias "a") "m" none) default,
      .mk "import" (.import_ (.alias "b") "m" (some pinOfTwo)) default] none default

end Relon.Eval
