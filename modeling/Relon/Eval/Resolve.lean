import Relon.Eval.Forcing

/-! Names and references in a plain document.

A name is looked for among the evaluated entries of all the frames around it, and
then among their thunks; a reference walks the document again from a root frame
in which nothing is evaluated. Both come to the field the document's meaning gives
them. -/
namespace Relon.Eval
open List Prog.Tower.Meets

section
variable {ctx : Context} {doc : Node} {w : World ctx doc}

/-- A value found without evaluating anything. -/
theorem Realizes.of_has {α β : Type} {x : M β} {a : Approx α} {b : α → Approx β} {v : α}
    (has : a.Has v) (h : Realizes x w (b v)) : Realizes x w (a.bind b) :=
  Prog.Tower.Meets.mono h (fun due => due.snd has) fun _ _ _ hu =>
    Approx.has_bind.mpr ⟨v, has, hu⟩

/-! ### Names -/

theorem World.ownLocal (w : World ctx doc) {f : Scope} (hf : InPlay w.places f) (x : String) :
    w.store.ownLocal x f = (w.store.locals f).lookup x := by
  have unlisted := (w.faithful.shapedInPlay hf).unlisted
  simp [Store.ownLocal, Store.currentIterBinding, Store.listContext?, unlisted]

variable {x part display : String} {s : Scope} {q : List String} {first : TokenKey}
  {path rest : List TokenKey} {id : Nat} {block : Bool} {pairs : List (TokenKey × Node)} {n : Node}
  {range : TokenRange} {base : RefBase}

theorem World.getLocal (w : World ctx doc) (hs : InPlay w.places s) {v : Value}
    (found : w.store.getLocal s x = some v) :
    ∃ f ∈ s.chain, (∃ pl ∈ w.places, pl.frame = f ∧ pl.evaluates = true) ∧
      (field ctx doc (f.fullPath ++ [x])).Has v := by
  obtain ⟨f, hf, own⟩ := List.exists_of_findSome?_eq_some found
  have inPlay := w.faithful.chain hs f hf
  rw [w.ownLocal inPlay] at own
  obtain ⟨pl, mem, rfl⟩ := Faithful.mem inPlay
  obtain ⟨evaluates, has⟩ := w.faithful.locals pl mem x v own
  exact ⟨_, hf, ⟨pl, mem, rfl, evaluates⟩, has⟩

theorem Stands.getThunk (hs : Stands w s) (within : q <+: s.fullPath) (proper : q ≠ s.fullPath)
    (bound : (doc.atPath (q ++ [x])).isSome) : w.store.getThunk s x ≠ none := by
  obtain ⟨f, hf, rfl, or_⟩ := hs.covered q within proper
  have whole := or_.resolve_right not_mem_nil
  obtain ⟨i, own⟩ := Option.isSome_iff_exists.mp (whole x bound)
  intro none
  have none := List.findSome?_eq_none_iff.mp none f hf
  rw [own] at none
  cases none

theorem preludeUnitVariant_own (static : first.IsStatic)
    (own : first.name ≠ "None" ∧ first.name ≠ "Option") :
    preludeUnitVariant (first :: rest) = none := by
  obtain ⟨name, range, rfl⟩ := static.spelled
  unfold preludeUnitVariant
  split
  · rename_i same
    cases same
    exact absurd rfl own.1
  · rename_i same
    cases same
    exact absurd rfl own.2
  · rfl

/-- A name that is not the prelude's: evaluated entries first, then thunks. -/
theorem resolveVariable_own (static : first.IsStatic)
    (own : first.name ≠ "None" ∧ first.name ≠ "Option") (s : Scope) (range : TokenRange) :
    resolveVariable ctx (first :: rest) s range = (do
      let σ ← read
      match σ.getLocal s first.name with
      | some v => walkVariable ctx s range rest [first.name] v
      | none =>
        match σ.getThunk s first.name with
        | some thunk => do
          let v ← forceThunk thunk
          walkVariable ctx s range rest [first.name] v
        | none => .fail (.variableNotFound first.name range)) := by
  have noVariant : preludeUnitVariant (first :: rest) = none := preludeUnitVariant_own static own
  obtain ⟨name, r, rfl⟩ := static.spelled
  unfold resolveVariable
  rewrite [noVariant]
  rfl

/-- A name in a term reads the field that binds it. -/
theorem resolveVariable_realizes (unlimited : Unlimited ctx) (hd : Document doc)
    (deeper : ∀ w' : World ctx doc, w.marks.length < w'.marks.length → Evaluates w')
    (hs : Stands w s) (leaf : ∀ x, doc.atPath (s.fullPath ++ [x]) = none)
    (range range' : TokenRange) (static : ∀ k ∈ first :: rest, k.IsStatic)
    (own : first.name ≠ "None" ∧ first.name ≠ "Option")
    (faulty : Fault ctx doc s.fullPath (.mk id (.variable (first :: rest)) [] [] none range') →
      Faulty ctx doc) : Realizes (resolveVariable ctx (first :: rest) s range) w
      (term ctx doc s.fullPath (.mk id (.variable (first :: rest)) [] [] none range')) := by
  have staticFirst := static _ mem_cons_self
  have walks : ∀ {w' : World ctx doc} {v : Value} {q : List String},
      binder doc s.fullPath first.name = some q → (field ctx doc q).Has v →
      Realizes (walkVariable ctx s range rest [first.name] v) w'
        (.known (v.stepAll (rest.map TokenKey.name))) := fun bound has =>
    (walkVariable_gives ctx s range (fun k hk => static k (mem_cons_of_mem _ hk))
      (field_data unlimited.size has)).realizes fun stuck => faulty (.step bound has stuck)
  rw [resolveVariable_own staticFirst own]
  refine Meets.read ?_
  cases found : w.store.getLocal s first.name with
  | some v =>
    obtain ⟨f, hf, -, has⟩ := w.getLocal hs.inPlay found
    have bound := hd.binder_eq (s.fullPath_prefix f hf) (field_has_at has)
    rw [term_name_bound bound]
    exact Realizes.of_has has (walks bound has)
  | none =>
    cases thunk : w.store.getThunk s first.name with
    | some i =>
      obtain ⟨f, hf, own⟩ := List.exists_of_findSome?_eq_some thunk
      have inPlay := w.faithful.chain hs.inPlay f hf
      obtain ⟨t, at_, -, path⟩ := w.ownThunk inPlay own
      have isField : (doc.atPath (f.fullPath ++ [first.name])).isSome := by
        rw [← path, (w.faithful.thunks t (mem_of_getElem? at_)).node]
        rfl
      have bound := hd.binder_eq (s.fullPath_prefix f hf) isField
      rw [term_name_bound bound]
      exact Realizes.bind (forceOwnThunk_realizes deeper inPlay own) fun v w' _ has =>
        walks bound has
    | none =>
      have free : binder doc s.fullPath first.name = none := by
        refine binder_eq_none fun q within => ?_
        by_cases here : q = s.fullPath
        · rw [here]
          exact leaf _
        · by_contra bound
          exact hs.getThunk within here (Option.isSome_iff_ne_none.mpr bound) thunk
      rw [term_name_free free]
      exact Realizes.fault (faulty (.unbound free))

/-! ### Walking a reference -/

theorem resolveDictReferenceStep_missing (static : ∀ e ∈ pairs, e.1.IsStatic)
    (none : ∀ e ∈ pairs, e.1.name ≠ part) :
    resolveDictReferenceStep part s block pairs = .ret .notFound := by
  induction pairs with
  | nil => rfl
  | cons e rest ih =>
    obtain ⟨key, n⟩ := e
    have other := none _ mem_cons_self
    obtain ⟨name, range, rfl⟩ := (static _ mem_cons_self).spelled
    have later := ih (fun e he => static e (mem_cons_of_mem _ he)) fun e he =>
      none e (mem_cons_of_mem _ he)
    have other : some name ≠ some part := fun same => other (Option.some.inj same)
    simp only [resolveDictReferenceStep, referenceKey, TokenKey.name, Prog.pure_eq_ret, Prog.ret_bind,
      if_neg other, later]

/-- The entry a reference asks for, through the thunk its frame has for it. -/
theorem meets_resolveDictReferenceStep {α : Type} (static : ∀ e ∈ pairs, e.1.IsStatic)
    (plain : ∀ e ∈ pairs, Plain e.2) (there : ∃ e ∈ pairs, e.1.name = part) {i : Nat}
    (own : w.store.getOwnThunk s part = some i) {f : DictStep → M α} {due : Prop}
    {Q : α → World ctx doc → Prop} (rest : Meets (f (.thunk i)) w due Q) :
    Meets (resolveDictReferenceStep part s block pairs >>= f) w due Q := by
  induction pairs with
  | nil =>
    obtain ⟨e, none, -⟩ := there
    cases none
  | cons e pairs ih =>
    obtain ⟨key, n⟩ := e
    have notPrivate := (plain _ mem_cons_self).inert.not_private
    obtain ⟨name, range, rfl⟩ := (static _ mem_cons_self).spelled
    simp only [resolveDictReferenceStep, referenceKey, TokenKey.name, Prog.pure_eq_ret, Prog.ret_bind,
      Option.some.injEq, notPrivate, Bool.and_false, Bool.false_eq_true, if_false]
    by_cases here : name = part
    · rw [if_pos here, Prog.bind_assoc]
      refine Meets.read ?_
      simp only [own, Prog.ret_bind]
      exact rest
    · rw [if_neg here]
      refine ih (fun e he => static e (mem_cons_of_mem _ he))
        (fun e he => plain e (mem_cons_of_mem _ he)) ?_
      obtain ⟨e, he, same⟩ := there
      refine ⟨e, (mem_cons.mp he).resolve_left fun first => ?_, same⟩
      rw [first] at same
      exact here same

/-- In frames where nothing is evaluated there are no locals. -/
theorem World.getLocal_quiet (w : World ctx doc) (hs : InPlay w.places s) (quiet : Quiet w.places s)
    (x : String) : w.store.getLocal s x = none := by
  cases found : w.store.getLocal s x with
  | none => rfl
  | some v =>
    obtain ⟨f, hf, ⟨pl, mem, rfl, evaluates⟩, -⟩ := w.getLocal hs found
    obtain ⟨i, at_⟩ := mem_iff_getElem?.mp mem
    have placed := quiet pl.frame hf
    rw [w.faithful.ids i pl at_, at_] at placed
    have off : pl.evaluates = false := congrArg Placed.evaluates (Option.some.inj placed)
    rw [off] at evaluates
    cases evaluates

theorem Plain.isContainer (h : Plain n) : n.expr.isContainer = n.expr.isDict := by
  cases h with
  | term h => cases h <;> rfl
  | dict => rfl

/-- A last segment: the field itself. -/
theorem target_last {key : String} (at_ : doc.atPath (q ++ [key]) = some n) :
    target ctx doc q [key] = field ctx doc (q ++ [key]) := by
  cases isDict : n.expr.isDict with
  | true => rw [target_dict at_ isDict, target_nil]
  | false =>
    rw [target_term at_ isDict]
    refine Approx.ext fun k => ?_
    exact Option.bind_fun_some _

/-- The steps of a walk at a dict, once its frame is prepared. -/
theorem evalReferencePathFrom_dict {part : TokenKey} {range' : TokenRange} (static : part.IsStatic)
    (s : OpenScope) (depth : Option Nat) :
    evalReferencePathFrom ctx display range (part :: rest) (.mk id (.dict pairs) [] [] none range')
        s depth = (do
      prepareDictScope ctx (.mk id (.dict pairs) [] [] none range') s
      match ← resolveDictReferenceStep part.name s.1 (depth ≠ some 0) pairs.reverse with
      | .thunk id =>
        if rest.isEmpty then forceThunk id
        else do
          let σ ← read
          match σ.thunks[id]? with
          | none => .cut
          | some thunk =>
            if thunk.node.expr.isContainer then
              evalReferencePathFrom ctx display range rest thunk.node thunk.scope
                (childOwningDepth depth)
            else do
              let v ← forceThunk id
              lookupValuePath ctx display thunk.scope.1 range rest v
      | .value v => lookupValuePath ctx display s.1 range rest v
      | .privateBlocked => missing part.isOptional display range
      | .notFound => do
        let σ ← read
        match σ.getLocal s.1 part.name with
        | some v => lookupValuePath ctx display s.1 range rest v
        | none => missing part.isOptional display range) := by
  obtain ⟨name, r, rfl⟩ := static.spelled
  simp only [evalReferencePathFrom, segmentKey]
  rfl

theorem TokenKey.IsStatic.not_optional {key : TokenKey} (h : key.IsStatic) :
    key.isOptional = false := by
  obtain ⟨name, range, rfl⟩ := h.spelled
  rfl

/-- A walk from a quiet frame at a dict comes to what its path leads to. -/
theorem evalReferencePathFrom_realizes (unlimited : Unlimited ctx) (hd : Document doc) {depth : Nat}
    (deeper : ∀ w' : World ctx doc, depth < w'.marks.length → Evaluates w')
    (here : w.marks.length = depth) (nonempty : path ≠ []) (static : ∀ k ∈ path, k.IsStatic)
    {s : OpenScope} {owning : Option Nat} (hs : Stands w s.1) (quiet : Quiet w.places s.1)
    (at_ : doc.atPath s.1.fullPath = some n) (isDict : n.expr.isDict = true)
    (faulty : Astray ctx doc s.1.fullPath (path.map TokenKey.name) → Faulty ctx doc) :
    Realizes (evalReferencePathFrom ctx display range path n s owning) w
      (target ctx doc s.1.fullPath (path.map TokenKey.name)) := by
  induction path generalizing w n s owning with
  | nil => exact absurd rfl nonempty
  | cons part rest ih =>
    have plain := hd.plain.atPath at_
    cases plain with
    | term h => rw [h.not_dict] at isDict; cases isDict
    | dict staticPairs distinct fields =>
    rename_i id pairs range'
    have plain := hd.plain.atPath at_
    rw [evalReferencePathFrom_dict (static _ mem_cons_self)]
    refine bind (meets_prepareDictScope plain hs at_) (fun _ => trivial) fun _ w' le whole => ?_
    have hs' := hs.later le
    have quiet' := le.1.quiet quiet
    have here' : w'.marks.length = depth := le.2 ▸ here
    suffices after : Realizes _ w' _ from after.mono (fun due => le.2 ▸ due) fun _ _ _ has => has
    have reversed : ∀ e ∈ pairs.reverse, e ∈ pairs := fun e => mem_reverse.mp
    have children : doc.atPath (s.1.fullPath ++ [part.name]) =
        (Node.mk id (.dict pairs) [] [] none range').child part.name := by
      rw [Node.atPath_concat, at_, Option.bind_some]
    cases child : doc.atPath (s.1.fullPath ++ [part.name]) with
    | none =>
      have absent : ∀ e ∈ pairs.reverse, e.1.name ≠ part.name := by
        intro e he same
        have found : (Node.mk id (.dict pairs) [] [] none range').child e.1.name = some e.2 :=
          Node.child_of_mem distinct (reversed e he)
        rw [same, ← children, child] at found
        cases found
      rw [resolveDictReferenceStep_missing (fun e he => staticPairs e (reversed e he)) absent,
        map_cons, target_missing child]
      refine Meets.read ?_
      simp only [w'.getLocal_quiet hs'.inPlay quiet', missing,
        (static _ mem_cons_self).not_optional]
      exact Realizes.fault (faulty (astray_missing child))
    | some c =>
      have there : ∃ e ∈ pairs.reverse, e.1.name = part.name := by
        rw [children] at child
        obtain ⟨key, mem, same⟩ := Node.child_mem child
        exact ⟨(key, c), mem_reverse.mpr mem, same⟩
      obtain ⟨i, own⟩ := Option.isSome_iff_exists.mp (whole _ (Option.isSome_of_eq_some child))
      refine meets_resolveDictReferenceStep (fun e he => staticPairs e (reversed e he))
        (fun e he => fields e (reversed e he)) there own ?_
      have forced := forceOwnThunk_realizes (here' ▸ deeper) hs'.inPlay own
      obtain ⟨t, thunk, parent, path⟩ := w'.ownThunk hs'.inPlay own
      have ok := w'.faithful.thunks t (mem_of_getElem? thunk)
      have node : t.node = c := by
        have at_' := ok.node
        rw [path, child] at at_'
        exact (Option.some.inj at_').symm
      have plainChild := hd.plain.atPath child
      cases rest with
      | nil =>
        rw [map_cons, map_nil, target_last child]
        exact forced
      | cons next rest =>
        refine Meets.read ?_
        simp only [thunk, node, plainChild.isContainer]
        have staticRest : ∀ k ∈ next :: rest, k.IsStatic := fun k hk =>
          static k (mem_cons_of_mem _ hk)
        cases dictChild : c.expr.isDict with
        | true =>
          rw [map_cons, target_dict child dictChild, ← path]
          have quietChild : Quiet w'.places t.scope.1 := by
            intro f hf
            rw [Scope.chain_child parent] at hf
            cases mem_cons.mp hf with
            | inl own => rw [own]; exact ok.placed
            | inr outer => exact quiet' f outer
          exact ih here' (cons_ne_nil _ _) staticRest ⟨⟨_, ok.placed⟩, ok.covered⟩ quietChild
            (path ▸ child) dictChild fun astray =>
              faulty ((astray_dict child dictChild).mpr (path ▸ astray))
        | false =>
          rw [map_cons, target_term child dictChild]
          exact forced.bind fun v w'' _ has =>
            (lookupValuePath_gives ctx display t.scope.1 range staticRest
              (field_data unlimited.size has)).realizes fun stuck =>
                faulty ((astray_term child dictChild).mpr ⟨v, has, stuck⟩)

/-! ### Where a reference starts -/

/-- A quiet frame at the root. -/
structure RootFrame (w : World ctx doc) (s : OpenScope) : Prop where
  quiet : Quiet w.places s.1
  path : s.1.fullPath = []

theorem RootFrame.stands {s : OpenScope} (h : RootFrame w s) : Stands w s.1 := by
  refine ⟨⟨false, h.quiet _ s.1.mem_chain_self⟩, fun q within proper => ?_⟩
  rw [h.path] at within proper
  exact absurd (prefix_nil.mp within) proper

theorem meets_referenceRootScope (hs : Stands w s) :
    Meets (referenceRootScope doc s) w True fun rs w' => RootFrame w' rs := by
  refine Meets.read ?_
  cases pinned : s.chain.findSome? fun f =>
      (w.store.rootRef? f).bind fun r => if r.node.id = doc.id then r.scope else none with
  | some rs =>
    refine ret ?_
    obtain ⟨f, hf, found⟩ := List.exists_of_findSome?_eq_some pinned
    obtain ⟨r, root, scope⟩ := Option.bind_eq_some_iff.mp found
    obtain ⟨i, -, at_⟩ := Option.bind_eq_some_iff.mp root
    split_ifs at scope
    obtain ⟨-, -, frame⟩ := w.faithful.roots r (mem_of_getElem? at_)
    obtain ⟨quiet, path⟩ := frame rs scope
    exact ⟨quiet, path⟩
  | none =>
    obtain ⟨r, root, mem⟩ := w.rootRef hs.inPlay
    have orphan : (w.store.rootRef? s).bind RootRef.parentFallback = none := by
      rw [root]
      exact (w.faithful.roots r mem).2.1
    have shaped := hs.shaped
    obtain ⟨h', le⟩ := w.faithful.openScope
      ⟨none, none, s.currentDir, s.cacheNamespace, s.root, none⟩ false (fun _ none => nomatch none)
      shaped.dir shaped.namespace_ rfl shaped.rooted
    have last : ∀ pl : Placed, (w.places ++ [pl])[w.store.cells.length]? = some pl := fun pl => by
      rw [w.faithful.count, List.getElem?_concat_length]
    simp only [orphan]
    refine of_ends ends_send ⟨⟨_, w.marks, _, h'⟩, ⟨le, rfl⟩, rfl, ?_, rfl⟩
    intro f hf
    rw [Scope.chain_eq] at hf
    cases mem_singleton.mp hf
    exact last _

/-- A key is made alike in every frame of the run. -/
theorem Stands.referenceCacheKey (hs : Stands w s) (path : List TokenKey) (depth : Option Nat) :
    referenceCacheKey s path depth = Eval.referenceCacheKey emptyScope.1 path depth := by
  simp only [Eval.referenceCacheKey, hs.pathCacheKey, keyOf]

theorem referenceCacheKey_static (s : Scope) (nonempty : path ≠ [])
    (static : ∀ k ∈ path, k.IsStatic) (depth : Option Nat) :
    ∃ key, referenceCacheKey s path depth = some key := by
  have known : (path.isEmpty || path.any TokenKey.isDynamic) = false := by
    rw [Bool.or_eq_false_iff, isEmpty_eq_false_iff, any_eq_false]
    refine ⟨nonempty, fun k hk => ?_⟩
    obtain ⟨name, range, rfl⟩ := (static k hk).spelled
    exact Bool.false_ne_true
  exact ⟨_, if_neg (by rw [known]; exact Bool.false_ne_true)⟩

theorem anchorPath_names (s : Scope) (range : TokenRange)
    (anchored : base = .root ∨ base = .sibling ∨ base = .uncle) :
    (anchorPath base s range).1.map TokenKey.name = anchor base s.fullPath ∧
      ∀ k ∈ (anchorPath base s range).1, k.IsStatic := by
  have written : ∀ p : List String,
      (p.map fun s => TokenKey.string s range false).map TokenKey.name = p ∧
        ∀ k ∈ p.map fun s => TokenKey.string s range false, k.IsStatic := by
    intro p
    refine ⟨by rw [map_map]; exact map_id p, fun k hk => ?_⟩
    obtain ⟨name, -, rfl⟩ := mem_map.mp hk
    rfl
  obtain rfl | rfl | rfl := anchored
  · exact ⟨rfl, fun _ none => absurd none not_mem_nil⟩
  · exact written _
  · exact written _

/-- A reference comes to what its path leads to from the root. -/
theorem resolveReference_realizes (unlimited : Unlimited ctx) (hd : Document doc)
    (deeper : ∀ w' : World ctx doc, w.marks.length < w'.marks.length → Evaluates w')
    (hs : Stands w s) (range : TokenRange)
    (anchored : base = .root ∨ base = .sibling ∨ base = .uncle) (nonempty : path ≠ [])
    (static : ∀ k ∈ path, k.IsStatic)
    (faulty : Astray ctx doc [] (anchor base s.fullPath ++ path.map TokenKey.name) →
      Faulty ctx doc) : Realizes (resolveReference ctx base path s range) w
      (target ctx doc [] (anchor base s.fullPath ++ path.map TokenKey.name)) := by
  have program : resolveReference ctx base path s range =
      (read >>= fun _ => resolveAnchored ctx base path s range) := by
    obtain rfl | rfl | rfl := anchored <;> rfl
  rw [program]
  refine Meets.read (Meets.read ?_)
  obtain ⟨r, root, mem⟩ := w.rootRef hs.inPlay
  have start : referenceRoot ctx w.store s = some doc := by
    rw [referenceRoot, root, ← (w.faithful.roots r mem).1]
    rfl
  obtain ⟨names, staticAnchor⟩ := anchorPath_names s range anchored
  cases begins : anchorPath base s range with
  | mk front owning =>
  rw [begins] at names staticAnchor
  have whole : ∀ k ∈ front ++ path, k.IsStatic := fun k hk =>
    (mem_append.mp hk).elim (staticAnchor k) (static k)
  have some_ : front ++ path ≠ [] := fun none => nonempty (append_eq_nil_iff.mp none).2
  have spelled : (front ++ path).map TokenKey.name =
      anchor base s.fullPath ++ path.map TokenKey.name := by
    rw [map_append, names]
  obtain ⟨key, named⟩ := referenceCacheKey_static s some_ whole owning
  have named' := named
  rw [hs.referenceCacheKey] at named'
  simp only [start, named, Option.bind_some]
  rw [← spelled]
  cases hit : w.store.pathCache.lookup key with
  | some v => exact Realizes.ret (w.faithful.cache _ _ _ _ named' hit)
  | none =>
    have walked : Realizes (evalReferencePath ctx doc (front ++ path) s (dotted (front ++ path)) range
        owning) w (target ctx doc [] ((front ++ path).map TokenKey.name)) := by
      refine bind (meets_referenceRootScope hs) (fun _ => trivial) fun rs w' le frame => ?_
      have walk : Realizes (evalReferencePathFrom ctx (dotted (front ++ path)) range (front ++ path)
          doc rs owning) w' (target ctx doc rs.1.fullPath ((front ++ path).map TokenKey.name)) :=
        evalReferencePathFrom_realizes unlimited hd (fun w'' lt => deeper w'' (le.2 ▸ lt)) rfl some_
          whole frame.stands frame.quiet (by rw [frame.path]; rfl) hd.isDict
          fun astray => faulty (spelled ▸ frame.path ▸ astray)
      rw [frame.path] at walk
      exact walk.mono (fun due => le.2 ▸ due) fun _ _ _ has => has
    refine bind walked id fun v w' _ has => ?_
    obtain ⟨h', le'⟩ := w'.faithful.cachePath named' has
    exact Meets.send ⟨w'.places, w'.marks, _, h'⟩ ⟨le', rfl⟩ rfl (ret has)

end

end Relon.Eval
