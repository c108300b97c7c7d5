import Relon.Eval.World
import Relon.Eval.Faults

/-! The evaluator computes what a plain document means.

Evaluating a node in a world where its place is known ends; a value it returns is
the one the node denotes, and it returns one whenever one is denoted and can be
found without the fields being evaluated at the time; what it fails with is a cycle,
unless the document has a fault. Each part of the evaluator gets one such statement,
and its proof cites those of the parts it calls. -/
namespace Relon.Eval
open List Option

/-- A store of a run over the document, with what is known of it. -/
structure World (ctx : Context) (doc : Node) where
  places : Places
  marks : List (List String)
  store : Store
  faithful : Faithful ctx doc [] places marks store

/-- The evaluator's handlers, one for each depth of calls. -/
def calls (ctx : Context) : Prog.Tower Req Store :=
  ⟨handle ctx, fun le => handle_mono ctx le _ _ _ _⟩

section
variable {ctx : Context} {doc : Node}

instance : Preorder (World ctx doc) where
  le w w' := Later w.places w.store w'.places w'.store ∧ w'.marks = w.marks
  le_refl w := ⟨Later.refl _ _, rfl⟩
  le_trans _ _ _ h h' := ⟨h.1.trans h'.1, h'.2.trans h.2⟩

/-- Total correctness from a world. Failures are cycles or the document's own. -/
def Meets {α : Type} (x : M α) (w : World ctx doc) (due : Prop) (Q : α → World ctx doc → Prop) :
    Prop :=
  (calls ctx).Meets World.store (Blamed ctx doc) x w due Q

/-- The computation ends, it returns no value but that of `a`, and it returns one that
is found before those of the fields being evaluated. -/
def Realizes {α : Type} (x : M α) (w : World ctx doc) (a : Approx α) : Prop :=
  Meets x w (a.Before (field ctx doc) w.marks) fun v _ => a.Has v

variable {α β : Type} {w : World ctx doc}

variable {a : Approx α} {f : OpenScope} {o : Op β} {σ : Store} {due : Prop}
  {Q : α → World ctx doc → Prop} {n : Node} {s : Scope} {w' : World ctx doc} {k : String}
  {i id : Nat} {pairs : List (TokenKey × Node)} {range : TokenRange}

theorem Realizes.ret {v : α} (h : a.Has v) : Realizes (.ret v : M α) w a :=
  Prog.Tower.Meets.ret h

theorem Realizes.fault {e : RuntimeError} (faulty : Faulty ctx doc) :
    Realizes (.fail e : M α) w (.known none) := by
  refine Prog.Tower.Meets.fail (fun due => ?_) (.inr faulty)
  obtain ⟨v, hv⟩ := due.has
  exact nomatch Approx.has_known.mp hv

theorem Realizes.bind {x : M α} {f : α → M β} {b : α → Approx β} (first : Realizes x w a)
    (second : ∀ v w', w ≤ w' → a.Has v → Realizes (f v) w' (b v)) :
    Realizes (x >>= f) w (a.bind b) := by
  refine Prog.Tower.Meets.bind first (fun due => due.fst) fun v w' le hv => ?_
  refine (second v w' le hv).mono (fun due => ?_) fun u _ _ hu => ?_
  · rw [le.2]
    exact due.snd hv
  · exact Approx.has_bind.mpr ⟨v, hv, hu⟩

theorem Gives.realizes {x : M Value} {o : Option Value} (h : Gives x o)
    (fault : o = none → Faulty ctx doc) : Realizes x w (.known o) := by
  cases h with
  | inl value =>
    obtain ⟨v, -, rfl, rfl⟩ := value
    exact .ret (Approx.has_known.mpr rfl)
  | inr failure =>
    obtain ⟨e, rfl, rfl⟩ := failure
    exact .fault (fault rfl)

/-! ### Requests -/

theorem ends_send : (calls ctx).Ends (send o) σ (.ok (σ.perform o).1) (σ.perform o).2 :=
  ⟨0, run_send ctx 0 o σ⟩

/-- An operation that leads from one world to another. -/
theorem Meets.send {f : β → M α} (w' : World ctx doc) (le : w ≤ w')
    (at_ : w'.store = (w.store.perform o).2) (rest : Meets (f (w.store.perform o).1) w' due Q) :
    Meets (send o >>= f) w due Q := by
  obtain ⟨out, t, ends, must, post, blamed⟩ := rest
  refine ⟨out, t, ends_send.bind (at_ ▸ ends), must, fun a same => ?_, blamed⟩
  obtain ⟨w'', le', reached, q⟩ := post a same
  exact ⟨w'', le_trans le le', reached, q⟩

theorem Meets.read {f : Store → M α} (rest : Meets (f w.store) w due Q) :
    Meets (Eval.read >>= f) w due Q :=
  Meets.send w (le_refl w) rfl rest

theorem ends_call {r : Req (Except RuntimeError α)} {σ τ : Store} {out : Except RuntimeError α}
    {f : Nat} (reply : handle ctx f _ r σ = some (out, τ)) : (calls ctx).Ends (call r) σ out τ := by
  refine ⟨f, ?_⟩
  show (call r).run (handle ctx f) σ = _
  rw [call, Prog.run_bind, Prog.run_send, reply]
  cases out <;> rfl

/-- A call evaluates its node. -/
theorem Meets.evalNode {Q : Value → World ctx doc → Prop}
    (body : Meets (evalInternal ctx n s false) w due Q) : Meets (evalNode n s false) w due Q := by
  obtain ⟨out, t, ⟨fuel, run⟩, must, post⟩ := body
  exact ⟨out, t, ends_call (f := fuel + 1) run, must, post⟩

/-! ### Places -/

/-- The frame is in play and the dicts around its place have complete frames. -/
structure Stands (w : World ctx doc) (s : Scope) : Prop where
  inPlay : InPlay w.places s
  covered : Covered doc [] w.store s

theorem Stands.later (h : Stands w s) (le : w ≤ w') : Stands w' s :=
  ⟨le.1.inPlay h.inPlay, le.1.covered (w.faithful.chain h.inPlay) h.covered⟩

theorem Stands.shaped (h : Stands w s) : Shaped w.places w.store s :=
  w.faithful.shapedInPlay h.inPlay

/-- A key made in a frame of the run is the document's. -/
theorem Stands.pathCacheKey (h : Stands w s) (p : List String) : s.pathCacheKey p = keyOf p := by
  simp only [keyOf, Scope.pathCacheKey, h.shaped.dir, h.shaped.namespace_]
  rfl

/-- Fields under a complete frame stand where the dict's fields are. -/
theorem covered_child {pending : List Nat} {s item : Scope} (parent : item.parent = some s)
    (node : item.pathNode = some k) (cover : Covered doc pending σ s)
    (whole : Complete doc σ s ∨ s.id ∈ pending) : Covered doc pending σ item := by
  have path : item.fullPath = s.fullPath ++ [k] := by rw [Scope.fullPath_child parent, node]; rfl
  intro q within proper
  rw [path] at within proper
  rw [Scope.chain_child parent]
  by_cases here : q = s.fullPath
  · exact ⟨s, mem_cons_of_mem _ s.mem_chain_self, here.symm, whole⟩
  · have up : q <+: s.fullPath := (prefix_concat_iff.mp within).resolve_left proper
    obtain ⟨f, hf, at_, whole⟩ := cover q up here
    exact ⟨f, mem_cons_of_mem _ hf, at_, whole⟩

/-! ### Preparing a frame -/

theorem Plain.inert (h : Plain n) : Inert n := by
  cases h with
  | term h => cases h <;> exact ⟨rfl, rfl⟩
  | dict => exact ⟨rfl, rfl⟩

/-- The shape of a field's frame under `s`. -/
def itemShape (s : Scope) (k : String) : Shape := { s.childShape with pathNode := some k }

theorem insertThunks_ends {s : OpenScope} {e : Bool} {entries : List (String × Node)}
    {places : Places} {marks : List (List String)} (h : Faithful ctx doc [s.1.id] places marks σ)
    (hs : places[s.1.id]? = some ⟨s.1, e⟩) (cover : Covered doc [s.1.id] σ s.1)
    (nodes : ∀ f ∈ entries, doc.atPath (s.1.fullPath ++ [f.1]) = some f.2) :
    ∃ places' σ', (calls ctx).Ends (insertThunks s entries) σ (.ok ()) σ' ∧
      Faithful ctx doc [s.1.id] places' marks σ' ∧ Later places σ places' σ' ∧
      ∀ f ∈ entries, (σ'.getOwnThunk s.1 f.1).isSome := by
  induction entries generalizing places σ with
  | nil =>
    exact ⟨places, σ, Prog.Tower.Ends.ret () σ, h, Later.refl _ _,
      fun _ none => absurd none not_mem_nil⟩
  | cons f rest ih =>
    obtain ⟨k, n⟩ := f
    have shaped := h.shapedInPlay ⟨e, hs⟩
    have at_ := nodes (k, n) mem_cons_self
    -- the frame of the field
    obtain ⟨h₁, le₁⟩ := h.openScope (itemShape s.1 k) false
      (fun p hp => by cases hp; exact ⟨e, hs⟩) shaped.dir shaped.namespace_ shaped.unlisted
      shaped.rooted
    generalize made : (σ.perform (.openScope (itemShape s.1 k) ⟨[], []⟩)).2 = σ₁ at h₁ le₁
    let item : OpenScope := ⟨Store.mkScope .opened σ.cells.length (itemShape s.1 k), rfl⟩
    have path : item.1.fullPath = s.1.fullPath ++ [k] := Scope.fullPath_child rfl
    have placed : (places ++ [⟨item.1, false⟩])[item.1.id]? = some ⟨item.1, false⟩ := by
      show (places ++ [_])[σ.cells.length]? = _
      rw [h.count, List.getElem?_concat_length]
    -- its thunk
    let t : Thunk := ⟨n, item, item.1.fullPath, item.1.pathCacheKey item.1.fullPath, none⟩
    have ok : ThunkOk ctx doc [s.1.id] (places ++ [⟨item.1, false⟩]) σ₁ t := {
      placed := placed
      covered := covered_child rfl rfl (le₁.covered (h.chain ⟨e, hs⟩) cover) (.inr mem_cons_self)
      node := by rw [← at_, ← path]
      key := by
        have shaped := h₁.shapedInPlay (f := item.1) ⟨false, placed⟩
        simp only [t, keyOf, Scope.pathCacheKey, shaped.dir, shaped.namespace_]
        rfl
      value := fun v hv => nomatch hv }
    obtain ⟨h₂, le₂⟩ := h₁.newThunk ok
    have new : (σ₁.perform (.newThunk t)).2.thunks[σ₁.thunks.length]? = some t :=
      List.getElem?_concat_length
    have hs' := le₁.getElem? hs
    obtain ⟨h₃, le₃, bound⟩ := h₂.bindThunk hs' new rfl rfl
    -- the others
    have le := (le₁.trans le₂).trans le₃
    obtain ⟨places', σ', ends, h', le', keys⟩ := ih h₃ hs' (le.covered (h.chain ⟨e, hs⟩) cover)
      fun f hf => nodes f (mem_cons_of_mem _ hf)
    refine ⟨places', σ', ?_, h', le.trans le', fun f hf => ?_⟩
    · refine ends_send.bind ?_
      show (calls ctx).Ends _ (σ.perform (.openScope (itemShape s.1 k) ⟨[], []⟩)).2 _ _
      rw [made]
      exact ends_send.bind (ends_send.bind ends)
    · cases mem_cons.mp hf with
      | inl first =>
        rw [first]
        exact le'.tables _ (mem_of_getElem? hs') k (isSome_of_eq_some bound)
      | inr later => exact keys f later

theorem Plain.dict_parts (h : Plain (.mk id (.dict pairs) [] [] none range)) :
    (∀ e ∈ pairs, e.1.IsStatic) ∧ (pairs.map fun e => e.1.name).Nodup ∧ ∀ e ∈ pairs, Plain e.2 := by
  cases h with
  | term h => cases h
  | dict static distinct fields => exact ⟨static, distinct, fields⟩

/-- Preparing the frame of a dict completes it. -/
theorem meets_prepareDictScope (plain : Plain (.mk id (.dict pairs) [] [] none range))
    {s : OpenScope} (hs : Stands w s.1)
    (at_ : doc.atPath s.1.fullPath = some (.mk id (.dict pairs) [] [] none range)) :
    Meets (prepareDictScope ctx (.mk id (.dict pairs) [] [] none range) s) w True fun _ w' =>
      Complete doc w'.store s.1 := by
  obtain ⟨static, distinct, fields⟩ := plain.dict_parts
  rw [prepareDictScope_inert ctx static fun e he => (fields e he).inert]
  obtain ⟨e, placed⟩ := hs.inPlay
  have nodes : ∀ f ∈ namedEntries pairs, doc.atPath (s.1.fullPath ++ [f.1]) = some f.2 := by
    intro f hf
    obtain ⟨entry, mem, rfl⟩ := mem_map.mp hf
    rw [Node.atPath_concat, at_, bind_some]
    exact Node.child_of_mem distinct mem
  obtain ⟨places', σ', ends, h', le, keys⟩ := insertThunks_ends (w.faithful.pend [s.1.id]) placed
    (fun q within proper => by
      obtain ⟨f, hf, same, or_⟩ := hs.covered q within proper
      exact ⟨f, hf, same, or_.imp_right fun none => absurd none not_mem_nil⟩) nodes
  have whole : Complete doc σ' s.1 := by
    intro k isField
    rw [Node.atPath_concat, at_, bind_some] at isField
    obtain ⟨c, child⟩ := isSome_iff_exists.mp isField
    obtain ⟨key, mem, rfl⟩ := Node.child_mem child
    exact keys (key.name, c) (mem_map.mpr ⟨(key, c), mem, rfl⟩)
  refine Prog.Tower.Meets.of_ends ends ?_
  exact ⟨⟨places', w.marks, σ', h'.settle (le.inPlay ⟨e, placed⟩) whole⟩, ⟨le, rfl⟩, rfl, whole⟩

/-! ### Thunks -/

/-- Nodes of the document are evaluated to what they denote. -/
def Evaluates (w : World ctx doc) : Prop :=
  ∀ s n, Stands w s → doc.atPath s.fullPath = some n → s.fullPath ≠ [] →
    Realizes (evalInternal ctx n s false) w (content ctx doc s.fullPath n)

/-- The world while a field is being evaluated. -/
def World.mark (w : World ctx doc) (p : List String) (isField : (doc.atPath p).isSome)
    (fresh : p ∉ w.marks) : World ctx doc :=
  ⟨w.places, p :: w.marks, w.store.markPath (keyOf p), w.faithful.markPath isField fresh⟩

theorem meets_evalMarked {p : List String} {isField : (doc.atPath p).isSome} {fresh : p ∉ w.marks}
    {a : Approx Value} (body : Realizes (evalInternal ctx n s false) (w.mark p isField fresh) a) :
    Meets (call (.evalMarked (keyOf p) n s)) w (a.Before (field ctx doc) (p :: w.marks))
      fun v _ => a.Has v := by
  obtain ⟨out, t, ⟨fuel, run⟩, must, post, blamed⟩ := body
  have reply : handle ctx (fuel + 1) _ (.evalMarked (keyOf p) n s) w.store =
      some (out, t.unmarkPath (keyOf p)) := by
    show ((evalInternal ctx n s false).run (handle ctx fuel) _).map _ = _
    have run : (evalInternal ctx n s false).run (handle ctx fuel) (w.store.markPath (keyOf p)) =
      some (out, t) := run
    rw [run]
    rfl
  refine ⟨out, _, ends_call reply, must, fun v same => ?_, blamed⟩
  obtain ⟨w', le, rfl, has⟩ := post v same
  have marks : w'.marks = p :: w.marks := le.2
  have faithful := w'.faithful
  rw [marks] at faithful
  exact ⟨⟨w'.places, w.marks, _, faithful.unmarkPath⟩, ⟨{ le.1 with }, rfl⟩, rfl, has⟩

/-- Forcing a thunk gives the value of its field. -/
theorem forceThunk_realizes
    (deeper : ∀ w' : World ctx doc, w.marks.length < w'.marks.length → Evaluates w') {t : Thunk}
    (at_ : w.store.thunks[i]? = some t) (inside : t.scope.1.fullPath ≠ []) :
    Realizes (forceThunk i) w (field ctx doc t.scope.1.fullPath) := by
  have ok := w.faithful.thunks t (mem_of_getElem? at_)
  refine Meets.read ?_
  rw [at_]
  cases settled : t.value with
  | some v =>
    simp only [settled]
    exact Realizes.ret (ok.value v settled)
  | none =>
    simp only [settled, ok.key, w.faithful.marked]
    by_cases busy : t.scope.1.fullPath ∈ w.marks
    · rw [if_pos (mem_map_of_mem busy)]
      exact Prog.Tower.Meets.fail (fun due => due.not_late busy) (.inl ⟨_, _, rfl⟩)
    · have unmarked : keyOf t.scope.1.fullPath ∉ w.marks.map keyOf := by
        intro marked
        obtain ⟨m, hm, same⟩ := mem_map.mp marked
        exact busy (keyOf_inj same ▸ hm)
      rw [if_neg unmarked]
      have body := deeper (w.mark _ (isSome_of_eq_some ok.node) busy) (Nat.lt_succ_self _)
        t.scope.1 t.node ⟨⟨_, ok.placed⟩, ok.covered⟩ ok.node inside
      have made : field ctx doc _ = (content ctx doc _ t.node).deeper := field_deeper ok.node
      refine Prog.Tower.Meets.bind (meets_evalMarked body) (fun due => due.enter made)
        fun v w' le has => ?_
      have value : (field ctx doc t.scope.1.fullPath).Has v := by
        rw [made]
        exact Approx.has_deeper.mpr has
      obtain ⟨t', at', same⟩ := le.1.thunks i t at_
      obtain ⟨h', le'⟩ := w'.faithful.setThunk at' (same ▸ value)
      exact Meets.send ⟨w'.places, w'.marks, _, h'⟩ ⟨le', rfl⟩ rfl (Prog.Tower.Meets.ret value)

/-- The thunk a frame has for a field. -/
theorem World.ownThunk (w : World ctx doc) (hs : InPlay w.places s)
    (found : w.store.getOwnThunk s k = some i) :
    ∃ t, w.store.thunks[i]? = some t ∧ t.scope.1.parent = some s ∧
      t.scope.1.fullPath = s.fullPath ++ [k] := by
  obtain ⟨e, at_⟩ := hs
  obtain ⟨t, thunk, parent, node⟩ := w.faithful.tables _ (mem_of_getElem? at_) k i found
  refine ⟨t, thunk, parent, ?_⟩
  rw [Scope.fullPath_child parent, node]
  rfl

theorem forceOwnThunk_realizes
    (deeper : ∀ w' : World ctx doc, w.marks.length < w'.marks.length → Evaluates w')
    (hs : InPlay w.places s) (found : w.store.getOwnThunk s k = some i) :
    Realizes (forceThunk i) w (field ctx doc (s.fullPath ++ [k])) := by
  obtain ⟨t, thunk, -, path⟩ := w.ownThunk hs found
  rw [← path]
  refine forceThunk_realizes deeper thunk ?_
  rw [path]
  exact concat_ne_nil k s.fullPath

/-! ### Dicts -/

/-- A dict's frame: entries are evaluated into it. -/
structure DictFrame (w : World ctx doc) (f : OpenScope) : Prop where
  placed : w.places[f.1.id]? = some ⟨f.1, true⟩
  covered : Covered doc [] w.store f.1

theorem DictFrame.stands (h : DictFrame w f) : Stands w f.1 := ⟨⟨_, h.placed⟩, h.covered⟩

theorem DictFrame.later (h : DictFrame w f) (le : w ≤ w') : DictFrame w' f :=
  ⟨le.1.getElem? h.placed, (h.stands.later le).covered⟩

theorem evalEntries_realizes {depth : Nat}
    (deeper : ∀ w' : World ctx doc, depth < w'.marks.length → Evaluates w')
    (here : w.marks.length = depth) (hf : DictFrame w f) (whole : Complete doc w.store f.1)
    {map : Assoc Value} (static : ∀ e ∈ pairs, e.1.IsStatic) (plain : ∀ e ∈ pairs, Plain e.2)
    (fields : ∀ e ∈ pairs, (doc.atPath (f.1.fullPath ++ [e.1.name])).isSome) :
    Realizes (evalEntries f pairs map) w (entriesAt ctx doc f.1.fullPath pairs map) := by
  induction pairs generalizing w map with
  | nil => exact Realizes.ret ⟨0, rfl⟩
  | cons e rest ih =>
    obtain ⟨key, n⟩ := e
    rw [evalEntries_cons (static _ mem_cons_self) (plain _ mem_cons_self).inert, entriesAt_cons]
    refine Realizes.bind ?_ fun v w' le has => ?_
    · refine Meets.read ?_
      obtain ⟨i, found⟩ := isSome_iff_exists.mp (whole _ (fields _ mem_cons_self))
      rw [found]
      exact forceOwnThunk_realizes (here ▸ deeper) hf.stands.inPlay found
    · have hf' := hf.later le
      obtain ⟨h'', le'⟩ := w'.faithful.bindLocal hf'.placed has
      let w'' : World ctx doc := ⟨w'.places, w'.marks, _, h''⟩
      refine Meets.send w'' ⟨le', rfl⟩ rfl ?_
      refine ih (w := w'') (le.2 ▸ here) (hf'.later ⟨le', rfl⟩) ?_
        (fun e he => static e (mem_cons_of_mem _ he))
        (fun e he => plain e (mem_cons_of_mem _ he))
        fun e he => fields e (mem_cons_of_mem _ he)
      exact le'.complete hf'.stands.inPlay (le.1.complete hf.stands.inPlay whole)

/-- No limit is set on steps or on the size of values. -/
structure Unlimited (ctx : Context) : Prop where
  steps : ctx.maxSteps = none
  size : ctx.maxValueElements = none

/-- Nothing happens around a node with nothing stacked above it. -/
theorem evalInternal_bare (unlimited : Unlimited ctx) {e : Expr} (s : Scope) :
    evalInternal ctx (.mk id e [] [] none range) s false =
      evalExpr ctx (.mk id e [] [] none range) s s := by
  simp only [evalInternal, chargeNode, unlimited.steps]
  exact Prog.bind_ret _

/-- A dict from its frame on. -/
theorem dictBody_realizes (unlimited : Unlimited ctx)
    (deeper : ∀ w' : World ctx doc, w.marks.length < w'.marks.length → Evaluates w')
    (plain : Plain (.mk id (.dict pairs) [] [] none range)) (hf : DictFrame w f)
    (at_ : doc.atPath f.1.fullPath = some (.mk id (.dict pairs) [] [] none range)) :
    Realizes (do
        prepareDictScope ctx (.mk id (.dict pairs) [] [] none range) f
        let map ← evalEntries f pairs []
        checkValueSize ctx (.dict map none none) range
        pure (.dict map none none)) w
      (content ctx doc f.1.fullPath (.mk id (.dict pairs) [] [] none range)) := by
  obtain ⟨static, distinct, fields⟩ := plain.dict_parts
  refine Prog.Tower.Meets.bind (meets_prepareDictScope plain hf.stands at_)
    (fun _ => trivial) fun _ w' le whole => ?_
  have isField : ∀ e ∈ pairs, (doc.atPath (f.1.fullPath ++ [e.1.name])).isSome := by
    intro e he
    rw [Node.atPath_concat, at_, bind_some, Node.child_of_mem distinct he]
    rfl
  have entries : Realizes (evalEntries f pairs []) w' (entriesAt ctx doc f.1.fullPath pairs []) :=
    evalEntries_realizes deeper (congrArg List.length le.2) (hf.later le) whole static fields isField
  rw [content_dict]
  have all := entries.bind (f := fun map => do
      checkValueSize ctx (.dict map none none) range
      pure (Value.dict map none none)) (b := fun map => .known (some (.dict map none none)))
    fun map w'' _ _ => by
      simp only [checkValueSize, unlimited.size]
      exact Realizes.ret (Approx.has_known.mpr rfl)
  exact all.mono (fun due => le.2 ▸ due) fun _ _ _ has => has

theorem World.rootRef (w : World ctx doc) (hs : InPlay w.places s) :
    ∃ r, w.store.rootRef? s = some r ∧ r ∈ w.store.roots := by
  obtain ⟨r, root⟩ := isSome_iff_exists.mp (w.faithful.shapedInPlay hs).rooted
  obtain ⟨i, -, at_⟩ := bind_eq_some_iff.mp root
  exact ⟨r, root, mem_of_getElem? at_⟩

/-- A frame that adds no segment covers what its parent covers. -/
theorem covered_same {s f : Scope} (parent : f.parent = some s) (node : f.pathNode = none)
    (cover : Covered doc [] σ s) : Covered doc [] σ f := by
  have path : f.fullPath = s.fullPath := by
    rw [Scope.fullPath_child parent, node]
    exact append_nil _
  intro q within proper
  rw [path] at within proper
  obtain ⟨g, hg, at_, whole⟩ := cover q within proper
  exact ⟨g, by rw [Scope.chain_child parent]; exact mem_cons_of_mem _ hg, at_, whole⟩

/-- A new frame over one that stands somewhere. -/
theorem World.openScope (w : World ctx doc) (hs : InPlay w.places s) (shape : Shape) (e : Bool)
    (parent : shape.parent = some s) (dir : shape.currentDir = s.currentDir)
    (ns : shape.cacheNamespace = s.cacheNamespace) (unlisted : shape.listContext = s.listContext)
    (rooted : (shape.root.bind fun r => w.store.roots[r]?).isSome) :
    ∃ w', w ≤ w' ∧ w'.store = (w.store.perform (.openScope shape ⟨[], []⟩)).2 ∧
      w'.places[w.store.cells.length]? =
        some ⟨Store.mkScope .opened w.store.cells.length shape, e⟩ := by
  have shaped := w.faithful.shapedInPlay hs
  obtain ⟨h', le⟩ := w.faithful.openScope shape e
    (fun p hp => by cases parent.symm.trans hp; exact hs) (dir.trans shaped.dir)
    (ns.trans shaped.namespace_) (unlisted.trans shaped.unlisted) rooted
  have last : ∀ pl : Placed, (w.places ++ [pl])[w.store.cells.length]? = some pl := fun pl => by
    rw [w.faithful.count, List.getElem?_concat_length]
  exact ⟨⟨_, w.marks, _, h'⟩, ⟨le, rfl⟩, rfl, last _⟩

/-- The frame of a dict inside the document. -/
theorem meets_dictScope (hd : Document doc) (hs : Stands w s) (at_ : doc.atPath s.fullPath = some n)
    (inside : s.fullPath ≠ []) :
    Meets (dictScope n s) w True fun f w' => DictFrame w' f ∧ f.1.fullPath = s.fullPath := by
  obtain ⟨r, root, mem⟩ := w.rootRef hs.inPlay
  refine Meets.read ?_
  obtain ⟨w', le, reached, placed⟩ := w.openScope hs.inPlay s.childShape true rfl rfl rfl rfl
    hs.shaped.rooted
  refine Meets.send w' le reached ?_
  have other : r.node.id ≠ n.id := by
    rw [(w.faithful.roots r mem).1]
    exact (hd.ids _ _ inside at_).symm
  simp only [root, if_neg other]
  refine Prog.Tower.Meets.ret ⟨⟨placed, ?_⟩, ?_⟩
  · exact covered_same rfl rfl (hs.later le).covered
  · rw [Scope.fullPath_child (p := s) rfl]
    exact append_nil _

/-- A dict literal inside the document. -/
theorem evalDict_realizes (unlimited : Unlimited ctx) (hd : Document doc)
    (deeper : ∀ w' : World ctx doc, w.marks.length < w'.marks.length → Evaluates w')
    (plain : Plain (.mk id (.dict pairs) [] [] none range)) (hs : Stands w s)
    (at_ : doc.atPath s.fullPath = some (.mk id (.dict pairs) [] [] none range))
    (inside : s.fullPath ≠ []) :
    Realizes (evalDict ctx (.mk id (.dict pairs) [] [] none range) pairs s) w
      (content ctx doc s.fullPath (.mk id (.dict pairs) [] [] none range)) := by
  refine Prog.Tower.Meets.bind (meets_dictScope hd hs at_ inside) (fun _ => trivial)
    fun f w' le ⟨hf, path⟩ => ?_
  have body := dictBody_realizes unlimited (fun w'' lt => deeper w'' (le.2 ▸ lt)) plain hf
    (path ▸ at_)
  rw [path] at body
  exact body.mono (fun due => le.2 ▸ due) fun _ _ _ has => has

end

end Relon.Eval
