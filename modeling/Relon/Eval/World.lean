import Relon.Eval.Meaning
import Relon.Eval.PathKey
import Relon.Eval.Run
import Relon.Lib.Total

/-! The stores a run over a plain document goes through.

Every frame stands at a path of the document: it is the frame of a dict there,
into which entries are evaluated, or one a field or a reference's walk uses, into
which none are. What is known of a store is that its tables tell the truth about
those paths: a local or a settled thunk holds the value of its field, a thunk to be
settled has the node of its field and a chain of frames in which every enclosing
dict has a thunk for each of its entries, and a cached reference holds what its
path leads to. -/
namespace Relon.Eval
open List Option Store Scope

/-- The key of a path in the document's own namespace. -/
def keyOf (p : List String) : String := emptyScope.1.pathCacheKey p

theorem keyOf_inj {p q : List String} (h : keyOf p = keyOf q) : p = q := Scope.pathCacheKey_inj h

/-- A frame, and whether the entries of a dict are evaluated into it. -/
structure Placed where
  frame : Scope
  evaluates : Bool

/-- The frames of a run, each at its id. -/
abbrev Places := List Placed

/-- The frame is one of the run's. -/
def InPlay (places : Places) (f : Scope) : Prop := ∃ e, places[f.id]? = some ⟨f, e⟩

/-- No entry is evaluated into the frame or any around it. -/
def Quiet (places : Places) (s : Scope) : Prop := ∀ f ∈ s.chain, places[f.id]? = some ⟨f, false⟩

section
variable (doc : Node)

/-- The frame has a thunk for every field of the dict it stands at. -/
def Complete (σ : Store) (f : Scope) : Prop :=
  ∀ k, (doc.atPath (f.fullPath ++ [k])).isSome → (σ.getOwnThunk f k).isSome

/-- Every dict around the place of `s` has a complete frame in its chain, those that
are still being filled apart. -/
def Covered (pending : List Nat) (σ : Store) (s : Scope) : Prop :=
  ∀ q, q <+: s.fullPath → q ≠ s.fullPath →
    ∃ f ∈ s.chain, f.fullPath = q ∧ (Complete doc σ f ∨ f.id ∈ pending)

end

/-- What a frame of the run looks like. -/
structure Shaped (places : Places) (σ : Store) (f : Scope) : Prop where
  opened : f.kind = .opened
  unlisted : f.listContext = none
  dir : f.currentDir = ""
  namespace_ : f.cacheNamespace = ""
  rooted : (σ.rootRef? f).isSome
  parent : ∀ p, f.parent = some p → InPlay places p

section
variable (ctx : Context) (doc : Node)

/-- A thunk tells the truth about the field it is for. -/
structure ThunkOk (pending : List Nat) (places : Places) (σ : Store) (t : Thunk) : Prop where
  placed : places[t.scope.1.id]? = some ⟨t.scope.1, false⟩
  covered : Covered doc pending σ t.scope.1
  node : doc.atPath t.scope.1.fullPath = some t.node
  key : t.cacheKey = keyOf t.scope.1.fullPath
  value : ∀ v, t.value = some v → (field ctx doc t.scope.1.fullPath).Has v

/-- A store of the run. `marks` are the fields being evaluated. -/
structure Faithful (pending : List Nat) (places : Places) (marks : List (List String))
    (σ : Store) : Prop where
  count : σ.cells.length = places.length
  ids : ∀ (i : Nat) (pl : Placed), places[i]? = some pl → pl.frame.id = i
  shaped : ∀ pl ∈ places, Shaped places σ pl.frame
  locals : ∀ pl ∈ places, ∀ k v, (σ.locals pl.frame).lookup k = some v →
    pl.evaluates = true ∧ (field ctx doc (pl.frame.fullPath ++ [k])).Has v
  tables : ∀ pl ∈ places, ∀ k i, σ.getOwnThunk pl.frame k = some i →
    ∃ t, σ.thunks[i]? = some t ∧ t.scope.1.parent = some pl.frame ∧ t.scope.1.pathNode = some k
  thunks : ∀ t ∈ σ.thunks, ThunkOk ctx doc pending places σ t
  roots : ∀ r ∈ σ.roots, r.node = doc ∧ r.parentFallback = none ∧
    ∀ s, r.scope = some s → Quiet places s.1 ∧ s.1.fullPath = []
  cache : ∀ path depth key v, referenceCacheKey emptyScope.1 path depth = some key →
    σ.pathCache.lookup key = some v → (target ctx doc [] (path.map TokenKey.name)).Has v
  marked : σ.evaluatingPaths = marks.map keyOf
  distinct : marks.Nodup
  fields : ∀ m ∈ marks, (doc.atPath m).isSome

end

/-- Frames and thunks stay, and a table loses no key. -/
structure Later (places : Places) (σ : Store) (places' : Places) (σ' : Store) : Prop where
  kept : places <+: places'
  tables : ∀ pl ∈ places, ∀ k, (σ.getOwnThunk pl.frame k).isSome →
    (σ'.getOwnThunk pl.frame k).isSome
  thunks : ∀ (i : Nat) (t : Thunk), σ.thunks[i]? = some t →
    ∃ t' : Thunk, σ'.thunks[i]? = some t' ∧ t'.scope = t.scope

namespace Later

variable {places places' places'' : Places} {σ σ' σ'' : Store}

theorem refl (places : Places) (σ : Store) : Later places σ places σ :=
  ⟨prefix_refl _, fun _ _ _ h => h, fun _ t h => ⟨t, h, rfl⟩⟩

section
variable (h : Later places σ places' σ')
include h

theorem trans (h' : Later places' σ' places'' σ'') : Later places σ places'' σ'' where
  kept := h.kept.trans h'.kept
  tables pl hp k some := h'.tables pl (h.kept.subset hp) k (h.tables pl hp k some)
  thunks i t ht := by
    obtain ⟨t', ht', same⟩ := h.thunks i t ht
    obtain ⟨t'', ht'', same'⟩ := h'.thunks i t' ht'
    exact ⟨t'', ht'', same'.trans same⟩

theorem getElem? {i : Nat} {pl : Placed} (at_ : places[i]? = some pl) : places'[i]? = some pl := by
  obtain ⟨more, rfl⟩ := h.kept
  obtain ⟨lt, -⟩ := List.getElem?_eq_some_iff.mp at_
  rw [List.getElem?_append_left lt]
  exact at_

theorem inPlay {f : Scope} (hf : InPlay places f) : InPlay places' f := by
  obtain ⟨e, at_⟩ := hf
  exact ⟨e, h.getElem? at_⟩

theorem quiet {s : Scope} (hs : Quiet places s) : Quiet places' s :=
  fun f hf => h.getElem? (hs f hf)

theorem complete {doc : Node} {f : Scope} (hf : InPlay places f) (whole : Complete doc σ f) :
    Complete doc σ' f := by
  obtain ⟨e, at_⟩ := hf
  exact fun k field => h.tables _ (mem_of_getElem? at_) k (whole k field)

theorem covered {doc : Node} {pending : List Nat} {s : Scope} (hs : ∀ f ∈ s.chain, InPlay places f)
    (cover : Covered doc pending σ s) : Covered doc pending σ' s := by
  intro q within proper
  obtain ⟨f, hf, at_, whole⟩ := cover q within proper
  exact ⟨f, hf, at_, whole.imp_left (h.complete (hs f hf))⟩

end

end Later

/-! ### Chains -/

theorem Scope.fullPath_eq (s : Scope) :
    s.fullPath = (s.parent.map Scope.fullPath).getD [] ++ s.pathNode.toList := by
  unfold fullPath
  rw [chain_eq]
  cases node : s.pathNode <;> cases s.parent <;> simp [node]

theorem Scope.chain_child {s p : Scope} (h : s.parent = some p) : s.chain = s :: p.chain := by
  rw [chain_eq, h]
  rfl

theorem Scope.mem_chain_self (s : Scope) : s ∈ s.chain := by
  rw [chain_eq]
  exact mem_cons_self

theorem Scope.fullPath_child {s p : Scope} (h : s.parent = some p) :
    s.fullPath = p.fullPath ++ s.pathNode.toList := by
  rw [fullPath_eq, h]
  rfl

/-- Induction from the outermost frame inwards. -/
theorem Scope.inward {P : Scope → Prop} (step : ∀ s, (∀ p, s.parent = some p → P p) → P s) :
    ∀ s, P s
  | ⟨_, _, none, _, _, _, _, _⟩ => step _ fun _ h => nomatch h
  | ⟨_, _, some parent, _, _, _, _, _⟩ => step _ fun p h => by
    cases h
    exact inward step parent

theorem Scope.mem_chain {s f : Scope} (h : f ∈ s.chain) :
    f = s ∨ ∃ p, s.parent = some p ∧ f ∈ p.chain := by
  rw [chain_eq] at h
  refine (mem_cons.mp h).imp_right fun h => ?_
  cases parent : s.parent with
  | none => rw [parent] at h; cases h
  | some p => rw [parent] at h; exact ⟨p, rfl, h⟩

/-- Frames further out stand further up. -/
theorem Scope.fullPath_prefix (s : Scope) : ∀ f ∈ s.chain, f.fullPath <+: s.fullPath := by
  induction s using inward with
  | step s ih =>
    intro f hf
    cases mem_chain hf with
    | inl same => rw [same]
    | inr outer =>
      obtain ⟨p, parent, hf⟩ := outer
      exact (ih p parent f hf).trans (fullPath_child parent ▸ prefix_append _ _)

/-! ### Tables after an operation -/

namespace Store

variable (σ : Store)

theorem cell_openScope (shape : Shape) (c : Cell) (f : Scope) :
    (σ.perform (.openScope shape c)).2.cell f = if f.id = σ.cells.length then c else σ.cell f := by
  show (σ.cells ++ [c]).getD f.id ⟨[], []⟩ = _
  split_ifs with new
  · simp [new]
  · unfold cell
    rcases Nat.lt_or_gt_of_ne new with old | beyond
    · simp [List.getD, List.getElem?_append_left old]
    · rw [getD_eq_getElem?_getD, getD_eq_getElem?_getD,
        List.getElem?_eq_none (by rw [length_append]; exact beyond),
        List.getElem?_eq_none (Nat.le_of_lt beyond)]

theorem cell_modifyCell (s : OpenScope) (g : Cell → Cell) (f : Scope) : (σ.modifyCell s g).cell f =
      if f.id = s.1.id ∧ f.id < σ.cells.length then g (σ.cell f) else σ.cell f := by
  show (σ.cells.modify s.1.id g).getD f.id ⟨[], []⟩ = _
  unfold cell
  split_ifs with here
  · obtain ⟨same, lt⟩ := here
    simp [List.getD, ← same, lt]
  · by_cases same : f.id = s.1.id
    · have beyond : σ.cells.length ≤ f.id := Nat.le_of_not_lt fun lt => here ⟨same, lt⟩
      simp [List.getD, List.getElem?_modify, List.getElem?_eq_none beyond]
    · simp [List.getD, Ne.symm same]

variable {σ} {f : Scope}

theorem locals_opened (h : f.kind = .opened) : σ.locals f = (σ.cell f).locals := by
  rw [locals, h]

theorem getOwnThunk_opened (h : f.kind = .opened) (k : String) :
    σ.getOwnThunk f k = (σ.cell f).thunks.lookup k := by
  rw [getOwnThunk, thunkTable, h]

end Store

namespace Faithful

variable {ctx : Context} {doc : Node} {pending : List Nat} {places : Places}
  {marks : List (List String)} {σ : Store}

variable {f : Scope} {s : OpenScope} {places' : Places} {σ' : Store} {t : Thunk} {r : RootRef}
  {e : Bool} {k : String} {i : Nat} {v : Value} {p : List String}

theorem mem (hf : InPlay places f) : ∃ pl ∈ places, pl.frame = f := by
  obtain ⟨e, at_⟩ := hf
  exact ⟨_, mem_of_getElem? at_, rfl⟩

section
variable (h : Faithful ctx doc pending places marks σ)
include h

/-- The frames around one in play are in play. -/
theorem chain {s : Scope} (hs : InPlay places s) : ∀ f ∈ s.chain, InPlay places f := by
  induction s using inward with
  | step s ih =>
    intro f hf
    cases mem_chain hf with
    | inl same => rw [same]; exact hs
    | inr outer =>
      obtain ⟨p, parent, hf⟩ := outer
      obtain ⟨e, at_⟩ := hs
      exact ih p parent ((h.shaped _ (mem_of_getElem? at_)).parent p parent) f hf

theorem frame_lt (hf : InPlay places f) : f.id < σ.cells.length := by
  obtain ⟨e, at_⟩ := hf
  rw [h.count]
  exact (List.getElem?_eq_some_iff.mp at_).1

theorem inPlay {pl : Placed} (hp : pl ∈ places) : InPlay places pl.frame := by
  obtain ⟨i, at_⟩ := mem_iff_getElem?.mp hp
  exact ⟨pl.evaluates, by rw [h.ids i pl at_]; exact at_⟩

end

/-- Two frames in play with one id are the same. -/
theorem same {f g : Scope} (hf : InPlay places f) (hg : InPlay places g) (ids : f.id = g.id) :
    f = g := by
  obtain ⟨e, hf⟩ := hf
  obtain ⟨e', hg⟩ := hg
  rw [ids, hg] at hf
  cases hf
  rfl

section
variable (h : Faithful ctx doc pending places marks σ)
include h

theorem shapedInPlay (hf : InPlay places f) : Shaped places σ f := by
  obtain ⟨e, at_⟩ := hf
  exact h.shaped _ (mem_of_getElem? at_)

/-- What a thunk is known for stays known. -/
theorem thunksLater (later : Later places σ places' σ') (ht : t ∈ σ.thunks) :
    ThunkOk ctx doc pending places' σ' t := by
  have ok := h.thunks t ht
  exact ⟨later.getElem? ok.placed, later.covered (h.chain ⟨_, ok.placed⟩) ok.covered, ok.node,
    ok.key, ok.value⟩

theorem rootsLater (later : Later places σ places' σ') (hr : r ∈ σ.roots) :
    r.node = doc ∧ r.parentFallback = none ∧
      ∀ s, r.scope = some s → Quiet places' s.1 ∧ s.1.fullPath = [] := by
  obtain ⟨node, fallback, pinned⟩ := h.roots r hr
  exact ⟨node, fallback, fun s hs => (pinned s hs).imp_left later.quiet⟩

/-- A new frame over one in play. -/
theorem openScope (shape : Shape) (e : Bool) (parent : ∀ p, shape.parent = some p → InPlay places p)
    (dir : shape.currentDir = "") (ns : shape.cacheNamespace = "")
    (unlisted : shape.listContext = none) (rooted : (shape.root.bind fun r => σ.roots[r]?).isSome) :
    let σ' := (σ.perform (.openScope shape ⟨[], []⟩)).2
    let places' := places ++ [⟨Store.mkScope .opened σ.cells.length shape, e⟩]
    Faithful ctx doc pending places' marks σ' ∧ Later places σ places' σ' := by
  intro σ' places'
  have cells : ∀ f, InPlay places f → σ'.cell f = σ.cell f := fun f hf => by
    rw [cell_openScope, if_neg (Nat.ne_of_lt (h.frame_lt hf))]
  have new : (σ'.cell (mkScope .opened σ.cells.length shape)) = ⟨[], []⟩ := by
    rw [cell_openScope]
    exact if_pos rfl
  have kept : places <+: places' := prefix_append _ _
  have grown : ∀ f, InPlay places f → InPlay places' f := by
    intro f ⟨e, at_⟩
    exact ⟨e, by rw [List.getElem?_append_left (List.getElem?_eq_some_iff.mp at_).1]; exact at_⟩
  have later : Later places σ places' σ' := by
    refine ⟨kept, fun pl hp k some => ?_, fun i t ht => ⟨t, ht, rfl⟩⟩
    have opened := (h.shaped pl hp).opened
    rw [getOwnThunk_opened opened] at some ⊢
    rwa [cells _ (h.inPlay hp)]
  refine ⟨?_, later⟩
  -- every table is the one it was, and the new frame's are empty
  have either : ∀ pl ∈ places', pl ∈ places ∨ pl = ⟨mkScope .opened σ.cells.length shape, e⟩ := by
    intro pl hp
    exact (mem_append.mp hp).imp_right mem_singleton.mp
  exact {
    count := by simp [σ', places', perform, h.count]
    ids := by
      intro i pl at_
      rcases Nat.lt_or_ge i places.length with old | beyond
      · rw [List.getElem?_append_left old] at at_
        exact h.ids i pl at_
      · rw [List.getElem?_append_right beyond, List.getElem?_singleton] at at_
        split_ifs at at_ with here
        cases at_
        show σ.cells.length = i
        rw [h.count]
        omega
    shaped := by
      intro pl hp
      cases either pl hp with
      | inl old =>
        have shaped := h.shaped pl old
        exact { shaped with parent := fun p hp => grown p (shaped.parent p hp) }
      | inr new =>
        rw [new]
        exact ⟨rfl, unlisted, dir, ns, rooted, fun p hp => grown p (parent p hp)⟩
    locals := by
      intro pl hp k v found
      cases either pl hp with
      | inl old =>
        have opened := (h.shaped pl old).opened
        rw [locals_opened opened, cells _ (h.inPlay old), ← locals_opened opened] at found
        exact h.locals pl old k v found
      | inr fresh =>
        rw [fresh, locals_opened rfl, new] at found
        cases found
    tables := by
      intro pl hp k i found
      cases either pl hp with
      | inl old =>
        have opened := (h.shaped pl old).opened
        rw [getOwnThunk_opened opened, cells _ (h.inPlay old), ← getOwnThunk_opened opened] at found
        exact h.tables pl old k i found
      | inr fresh =>
        rw [fresh, getOwnThunk_opened rfl, new] at found
        cases found
    thunks := fun t ht => h.thunksLater later ht
    roots := fun r hr => h.rootsLater later hr
    cache := h.cache
    marked := h.marked
    distinct := h.distinct
    fields := h.fields }

/-- A new thunk, in no table yet. -/
theorem newThunk (ok : ThunkOk ctx doc pending places σ t) :
    let σ' := (σ.perform (.newThunk t)).2
    Faithful ctx doc pending places marks σ' ∧ Later places σ places σ' := by
  intro σ'
  have old : ∀ (i : Nat) (t' : Thunk), σ.thunks[i]? = some t' → σ'.thunks[i]? = some t' := by
    intro i t' at_
    show (σ.thunks ++ [t])[i]? = some t'
    rw [List.getElem?_append_left (List.getElem?_eq_some_iff.mp at_).1]
    exact at_
  refine ⟨?_, prefix_refl _, fun _ _ _ some => some, fun i t' at_ => ⟨t', old i t' at_, rfl⟩⟩
  exact { h with
    shaped := fun pl hp => { h.shaped pl hp with }
    tables := fun pl hp k i found => by
      obtain ⟨t', at_, place⟩ := h.tables pl hp k i found
      exact ⟨t', old i t' at_, place⟩
    thunks := fun t' ht' => by
      cases mem_append.mp ht' with
      | inl mem => exact { h.thunks t' mem with }
      | inr last => rw [mem_singleton.mp last]; exact { ok with } }

/-- A change to one frame's tables that keeps its thunks' keys. -/
theorem modifyCell (hs : places[s.1.id]? = some ⟨s.1, e⟩) {g : Cell → Cell}
    (locals : ∀ k v, (g (σ.cell s.1)).locals.lookup k = some v →
      e = true ∧ (field ctx doc (s.1.fullPath ++ [k])).Has v)
    (keys : ∀ k, ((σ.cell s.1).thunks.lookup k).isSome → ((g (σ.cell s.1)).thunks.lookup k).isSome)
    (tables : ∀ k i, (g (σ.cell s.1)).thunks.lookup k = some i →
      ∃ t, σ.thunks[i]? = some t ∧ t.scope.1.parent = some s.1 ∧ t.scope.1.pathNode = some k) :
    Faithful ctx doc pending places marks (σ.modifyCell s g) ∧
      Later places σ places (σ.modifyCell s g) := by
  have here : (σ.modifyCell s g).cell s.1 = g (σ.cell s.1) := by
    rw [cell_modifyCell, if_pos ⟨rfl, h.frame_lt ⟨e, hs⟩⟩]
  have elsewhere : ∀ pl ∈ places, pl.frame ≠ s.1 →
      (σ.modifyCell s g).cell pl.frame = σ.cell pl.frame := by
    intro pl hp other
    rw [cell_modifyCell, if_neg]
    exact fun same => other (Faithful.same (h.inPlay hp) ⟨e, hs⟩ same.1)
  have role : ∀ pl ∈ places, pl.frame = s.1 → pl.evaluates = e := by
    intro pl hp same
    obtain ⟨i, at_⟩ := mem_iff_getElem?.mp hp
    have id := h.ids i pl at_
    rw [same] at id
    rw [← id, hs] at at_
    cases at_
    rfl
  have later : Later places σ places (σ.modifyCell s g) := by
    refine ⟨prefix_refl _, fun pl hp k some => ?_, fun i t ht => ⟨t, ht, rfl⟩⟩
    have opened := (h.shaped pl hp).opened
    rw [getOwnThunk_opened opened] at some ⊢
    by_cases same : pl.frame = s.1
    · rw [same, here]
      rw [same] at some
      exact keys k some
    · rwa [elsewhere pl hp same]
  refine ⟨?_, later⟩
  exact { h with
    count := by rw [← h.count]; exact length_modify ..
    shaped := fun pl hp => { h.shaped pl hp with }
    locals := fun pl hp k v found => by
      have opened := (h.shaped pl hp).opened
      rw [locals_opened opened] at found
      by_cases same : pl.frame = s.1
      · rw [same, here] at found
        rw [role pl hp same, same]
        exact locals k v found
      · rw [elsewhere pl hp same, ← locals_opened opened] at found
        exact h.locals pl hp k v found
    tables := fun pl hp k i found => by
      have opened := (h.shaped pl hp).opened
      rw [getOwnThunk_opened opened] at found
      by_cases same : pl.frame = s.1
      · rw [same, here] at found
        rw [same]
        exact tables k i found
      · rw [elsewhere pl hp same, ← getOwnThunk_opened opened] at found
        exact h.tables pl hp k i found
    thunks := fun t ht => h.thunksLater later ht
    roots := fun r hr => h.rootsLater later hr }

/-- The thunk of a field goes into the table of the frame it was made under. -/
theorem bindThunk (hs : places[s.1.id]? = some ⟨s.1, e⟩) (at_ : σ.thunks[i]? = some t)
    (parent : t.scope.1.parent = some s.1) (node : t.scope.1.pathNode = some k) :
    let σ' := (σ.perform (.bindThunk s k i)).2
    Faithful ctx doc pending places marks σ' ∧ Later places σ places σ' ∧
      σ'.getOwnThunk s.1 k = some i := by
  have opened : s.1.kind = .opened := s.2
  rw [← and_assoc]
  refine ⟨h.modifyCell hs (fun k' v found => ?_) (fun k' some => ?_) fun k' i' found => ?_, ?_⟩
  · rw [← locals_opened opened] at found
    exact h.locals _ (mem_of_getElem? hs) k' v found
  · show ((Assoc.put _ k i).lookup k').isSome
    rw [Assoc.lookup_put]
    split_ifs
    · rfl
    · exact some
  · have found : ((σ.cell s.1).thunks.put k i).lookup k' = some i' := found
    rw [Assoc.lookup_put] at found
    split_ifs at found with same
    · cases found
      exact ⟨t, at_, parent, same ▸ node⟩
    · rw [← getOwnThunk_opened opened] at found
      exact h.tables _ (mem_of_getElem? hs) k' i' found
  · rw [getOwnThunk_opened opened]
    show ((σ.modifyCell s _).cell s.1).thunks.lookup k = some i
    rw [cell_modifyCell, if_pos ⟨rfl, h.frame_lt ⟨e, hs⟩⟩, Assoc.lookup_put, if_pos rfl]

/-- An entry is evaluated into its dict's frame. -/
theorem bindLocal (hs : places[s.1.id]? = some ⟨s.1, true⟩)
    (has : (field ctx doc (s.1.fullPath ++ [k])).Has v) :
    let σ' := (σ.perform (.bindLocal s k v)).2
    Faithful ctx doc pending places marks σ' ∧ Later places σ places σ' := by
  have opened : s.1.kind = .opened := s.2
  refine h.modifyCell hs (fun k' w found => ⟨rfl, ?_⟩) (fun k' some => some) fun k' i found => ?_
  · have found : ((σ.cell s.1).locals.put k v).lookup k' = some w := found
    rw [Assoc.lookup_put] at found
    split_ifs at found with same
    · cases found
      rw [same]
      exact has
    · rw [← locals_opened opened] at found
      exact (h.locals _ (mem_of_getElem? hs) k' w found).2
  · rw [← getOwnThunk_opened opened] at found
    exact h.tables _ (mem_of_getElem? hs) k' i found

/-- A thunk is settled with the value of its field. -/
theorem setThunk (at_ : σ.thunks[i]? = some t) (has : (field ctx doc t.scope.1.fullPath).Has v) :
    let σ' := (σ.perform (.setThunk i v)).2
    Faithful ctx doc pending places marks σ' ∧ Later places σ places σ' := by
  intro σ'
  have thunk : ∀ (j : Nat), σ'.thunks[j]? =
      (σ.thunks[j]?).map fun t => if i = j then { t with value := some v } else t := by
    intro j
    show (σ.thunks.modify i _)[j]? = _
    rw [List.getElem?_modify]
    split_ifs <;> simp
  have kept : ∀ (j : Nat) (t : Thunk), σ.thunks[j]? = some t →
      ∃ t' : Thunk, σ'.thunks[j]? = some t' ∧ t'.scope = t.scope := by
    intro j t at_
    rw [thunk, at_]
    exact ⟨_, rfl, by split_ifs <;> rfl⟩
  refine ⟨?_, prefix_refl _, fun _ _ _ some => some, kept⟩
  exact { h with
    shaped := fun pl hp => { h.shaped pl hp with }
    tables := fun pl hp k j found => by
      obtain ⟨t', at_, parent, node⟩ := h.tables pl hp k j found
      obtain ⟨t'', at_', same⟩ := kept j t' at_
      exact ⟨t'', at_', by rw [same]; exact parent, by rw [same]; exact node⟩
    thunks := fun t' ht' => by
      obtain ⟨j, at_'⟩ := mem_iff_getElem?.mp ht'
      rw [thunk] at at_'
      obtain ⟨t₀, at₀, rfl⟩ := map_eq_some_iff.mp at_'
      have ok := h.thunks t₀ (mem_of_getElem? at₀)
      split_ifs with same
      · rw [← same, at_] at at₀
        cases at₀
        refine { ok with value := fun w hw => ?_ }
        cases hw
        exact has
      · exact { ok with } }

/-- A reference's value is kept under its key. -/
theorem cachePath {path : List TokenKey} {depth : Option Nat} {key : String}
    (named : referenceCacheKey emptyScope.1 path depth = some key)
    (has : (target ctx doc [] (path.map TokenKey.name)).Has v) :
    let σ' := (σ.perform (.cachePath key v)).2
    Faithful ctx doc pending places marks σ' ∧ Later places σ places σ' := by
  intro σ'
  refine ⟨?_, prefix_refl _, fun _ _ _ some => some, fun i t at_ => ⟨t, at_, rfl⟩⟩
  exact { h with
    shaped := fun pl hp => { h.shaped pl hp with }
    thunks := fun t ht => { h.thunks t ht with }
    cache := fun path' depth' key' w named' found => by
      have found : (σ.pathCache.put key v).lookup key' = some w := found
      rw [Assoc.lookup_put] at found
      split_ifs at found with same
      · cases found
        rw [same] at named'
        rw [referenceCacheKey_inj named' named]
        exact has
      · exact h.cache path' depth' key' w named' found }

/-- A field is marked as being evaluated. -/
theorem markPath (isField : (doc.atPath p).isSome) (fresh : p ∉ marks) :
    Faithful ctx doc pending places (p :: marks) (σ.markPath (keyOf p)) :=
  { h with
    shaped := fun pl hp => { h.shaped pl hp with }
    thunks := fun t ht => { h.thunks t ht with }
    marked := congrArg (keyOf p :: ·) h.marked
    distinct := nodup_cons.mpr ⟨fresh, h.distinct⟩
    fields := fun m hm => (mem_cons.mp hm).elim (fun same => same ▸ isField) (h.fields m) }

end

theorem unmarkPath (h : Faithful ctx doc pending places (p :: marks) σ) :
    Faithful ctx doc pending places marks (σ.unmarkPath (keyOf p)) :=
  { h with
    shaped := fun pl hp => { h.shaped pl hp with }
    thunks := fun t ht => { h.thunks t ht with }
    marked := by
      show σ.evaluatingPaths.filter (· != keyOf p) = _
      have fresh := (nodup_cons.mp h.distinct).1
      rw [h.marked, map_cons, filter_cons_of_neg (by simp), filter_eq_self]
      intro key hk
      obtain ⟨m, hm, rfl⟩ := mem_map.mp hk
      exact bne_iff_ne.mpr fun same => fresh (keyOf_inj same ▸ hm)
    distinct := (nodup_cons.mp h.distinct).2
    fields := fun m hm => h.fields m (mem_cons_of_mem _ hm) }

/-- A new anchor, pinned to a quiet frame at the root. -/
theorem newRoot (h : Faithful ctx doc pending places marks σ) (node : r.node = doc)
    (fallback : r.parentFallback = none)
    (pinned : ∀ s, r.scope = some s → Quiet places s.1 ∧ s.1.fullPath = []) :
    Faithful ctx doc pending places marks (σ.perform (.newRoot r)).2 :=
  { h with
    shaped := fun pl hp => { h.shaped pl hp with
      rooted := by
        have rooted := (h.shaped pl hp).rooted
        obtain ⟨r', hr'⟩ := isSome_iff_exists.mp rooted
        obtain ⟨i, root, at_⟩ := bind_eq_some_iff.mp hr'
        refine isSome_iff_exists.mpr ⟨r', bind_eq_some_iff.mpr ⟨i, root, ?_⟩⟩
        show (σ.roots ++ [r])[i]? = some r'
        rw [List.getElem?_append_left (List.getElem?_eq_some_iff.mp at_).1]
        exact at_ }
    thunks := fun t ht => { h.thunks t ht with }
    roots := fun r' hr' => by
      cases mem_append.mp hr' with
      | inl old => exact h.roots r' old
      | inr last => rw [mem_singleton.mp last]; exact ⟨node, fallback, pinned⟩ }

/-- Once the frame being filled is complete, nothing is pending. -/
theorem settle {s : Scope} (h : Faithful ctx doc [s.id] places marks σ) (hs : InPlay places s)
    (whole : Complete doc σ s) : Faithful ctx doc [] places marks σ :=
  { h with
    thunks := fun t ht => by
      have ok := h.thunks t ht
      refine { ok with covered := fun q within proper => ?_ }
      obtain ⟨f, hf, at_, or_⟩ := ok.covered q within proper
      refine ⟨f, hf, at_, .inl ?_⟩
      cases or_ with
      | inl complete => exact complete
      | inr filling =>
        rw [Faithful.same (h.chain ⟨_, ok.placed⟩ f hf) hs (mem_singleton.mp filling)]
        exact whole }

theorem pend (h : Faithful ctx doc [] places marks σ) (more : List Nat) :
    Faithful ctx doc more places marks σ :=
  { h with
    thunks := fun t ht => by
      have ok := h.thunks t ht
      refine { ok with covered := fun q within proper => ?_ }
      obtain ⟨f, hf, at_, or_⟩ := ok.covered q within proper
      exact ⟨f, hf, at_, or_.imp_right fun none => absurd none not_mem_nil⟩ }

end Faithful

end Relon.Eval
