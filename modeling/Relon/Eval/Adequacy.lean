import Relon.Eval.Resolve

/-! A plain document evaluates to what it means.

The terms form by form, then every node by induction on how many fields are not
being evaluated yet, and last the two frames a run starts with. -/
namespace Relon.Eval
open List Prog.Tower.Ends Realizes

section
variable {ctx : Context} {doc : Node} {w : World ctx doc}

/-! ### Operators -/

variable {op : Operator} {l n r : Node} {s : Scope}

theorem evalUnary_realizes (range : TokenRange) {a : Approx Value} (data : ∀ v, a.Has v → Data v)
    (operand : Realizes (evalNode n s false) w a)
    (faulty : ∀ v, a.Has v → unaryValue ctx op v = none → Faulty ctx doc) :
    Realizes (evalUnary ctx op range n s) w (a.bind fun v => .known (unaryValue ctx op v)) := by
  refine operand.bind fun v w' _ has => Gives.realizes ?_ (faulty v has)
  cases op with
  | not => exact .inl ⟨_, .bool _, rfl, rfl⟩
  | sub =>
    cases data v has with
    | int i =>
      show Gives (okOr ((checkedInt (-i.toInt)).map Value.int) _) ((checkedInt (-i.toInt)).map _)
      cases checkedInt (-i.toInt) with
      | none => exact .inr ⟨_, rfl, rfl⟩
      | some j => exact .inl ⟨_, .int j, rfl, rfl⟩
    | float f => exact .inl ⟨_, .float _, rfl, rfl⟩
    | _ => exact .inr ⟨_, rfl, rfl⟩
  | _ => exact .inr ⟨_, rfl, rfl⟩

theorem evalBinary_plain (range : TokenRange) (s : Scope) (unchained : op = .add → l.expr.isAdd →
      (addChain l [r]).head?.all fun n => !n.expr.isStringLiteral) :
    evalBinary ctx op range l r s = evalBinaryPlain ctx op range l r s := by
  unfold evalBinary
  split_ifs with chain
  · have plain := unchained chain.1 chain.2
    cases leaves : addChain l [r] with
    | nil => rfl
    | cons first rest =>
      rw [leaves] at plain
      have notText : first.expr.isStringLiteral = false := by simpa using plain
      simp only [tryEvalStringConcatChain, notText]
      rfl
  · rfl

/-- A binary operator on two terms, neither of which is skipped. -/
theorem evalBinary_realizes (unlimited : Unlimited ctx) (range : TokenRange)
    (unchained : op = .add → l.expr.isAdd →
      (addChain l [r]).head?.all fun n => !n.expr.isStringLiteral) {a b : Approx Value}
    (data : ∀ v, a.Has v → Data v) (data' : ∀ v, b.Has v → Data v)
    (left : Realizes (evalNode l s false) w a)
    (right : ∀ v, a.Has v → ∀ w', w ≤ w' → Realizes (evalNode r s false) w' b)
    (faulty : ∀ v u, a.Has v → b.Has u → binaryValue ctx op v u = none → Faulty ctx doc) :
    Realizes (evalBinary ctx op range l r s) w
      (a.bind fun v => b.bind fun u => .known (binaryValue ctx op v u)) := by
  rw [evalBinary_plain range s unchained]
  refine left.bind fun v w' le has => ?_
  have isData := data v has
  split
  · cases isData
  · exact (right v has w' le).bind fun u _ _ has' =>
      (applyBinary_gives unlimited.size op isData (data' u has') range l.range r.range s).realizes
        (faulty v u has has')

/-! ### Terms -/

theorem term_realizes (unlimited : Unlimited ctx) (hd : Document doc) {depth : Nat}
    (deeper : ∀ w' : World ctx doc, depth < w'.marks.length → Evaluates w')
    (here : w.marks.length = depth) (hs : Stands w s)
    (leaf : ∀ x, doc.atPath (s.fullPath ++ [x]) = none) (h : Term n)
    (faulty : Fault ctx doc s.fullPath n → Faulty ctx doc) :
    Realizes (evalInternal ctx n s false) w (term ctx doc s.fullPath n) := by
  induction h generalizing w with
  | bool => rw [evalInternal_bare unlimited]; exact ret ⟨0, rfl⟩
  | int => rw [evalInternal_bare unlimited]; exact ret ⟨0, rfl⟩
  | float => rw [evalInternal_bare unlimited]; exact ret ⟨0, rfl⟩
  | string => rw [evalInternal_bare unlimited]; exact ret ⟨0, rfl⟩
  | name static own =>
    rw [evalInternal_bare unlimited]
    exact resolveVariable_realizes unlimited hd (here ▸ deeper) hs leaf _ _ static own faulty
  | reference anchored nonempty static =>
    rw [evalInternal_bare unlimited, term_reference]
    exact resolveReference_realizes unlimited hd (here ▸ deeper) hs _ anchored nonempty static
      fun lost => faulty (.astray lost)
  | unary operand ih =>
    rw [evalInternal_bare unlimited, term_unary]
    exact evalUnary_realizes _ (fun _ => term_data unlimited.size)
      (Meets.evalNode (ih here hs fun fault => faulty (.operand fault)))
      fun v has stuck => faulty (.unary has stuck)
  | ternary cond then_ els ihc iht ihe =>
    rw [evalInternal_bare unlimited, term_ternary]
    refine bind (Meets.evalNode (ihc here hs fun fault => faulty (.cond fault)))
      fun v w' le has => ?_
    have here' : w'.marks.length = depth := le.2 ▸ here
    cases taken : v.isTruthy ctx with
    | true => exact Meets.evalNode (iht here' (hs.later le) fun fault =>
        faulty (.then_ has taken fault))
    | false => exact Meets.evalNode (ihe here' (hs.later le) fun fault =>
        faulty (.els has taken fault))
  | binary piped unchained left right ihl ihr =>
    rename_i op l r range
    have first := Meets.evalNode (ihl here hs fun fault => faulty (.left fault))
    have second : ∀ v, (term ctx doc s.fullPath l).Has v → op.needsRight ctx v = true →
        ∀ w', w ≤ w' → Realizes (evalNode r s false) w' (term ctx doc s.fullPath r) :=
      fun v has needed w' le => Meets.evalNode (ihr (le.2 ▸ here) (hs.later le) fun fault =>
        faulty (.right has needed fault))
    rw [evalInternal_bare unlimited]
    -- the two that may skip their right operand, and the pipe, have code of their own
    by_cases and_ : op = .and
    · subst and_
      rw [term_and]
      refine bind first fun v w' le has => ?_
      cases truth : v.isTruthy ctx with
      | true => exact second v has truth w' le
      | false => exact ret (Approx.has_known.mpr rfl)
    by_cases or_ : op = .or
    · subst or_
      rw [term_or]
      refine bind first fun v w' le has => ?_
      cases truth : v.isTruthy ctx with
      | true => exact ret (Approx.has_known.mpr rfl)
      | false => exact second v has (congrArg Bool.not truth) w' le
    rw [term_binary and_ or_]
    have strict : ∀ v, op.needsRight ctx v = true := op.needsRight_strict and_ or_
    have both := evalBinary_realizes unlimited range unchained (fun _ => term_data unlimited.size)
      (fun _ => term_data unlimited.size) first (fun v has => second v has (strict v))
      fun v u has has' stuck => faulty (.binary and_ or_ has has' stuck)
    cases op with
    | pipe => exact absurd rfl piped
    | and => exact absurd rfl and_
    | or => exact absurd rfl or_
    | _ => exact both

/-! ### Nodes -/

/-- Every node of the document evaluates to what it denotes. -/
theorem evaluates (unlimited : Unlimited ctx) (hd : Document doc) (w : World ctx doc) :
    Evaluates w := by
  obtain ⟨paths, all⟩ := hd.plain.finite
  -- fields being evaluated are distinct, so that only so many can be
  have bounded : ∀ w : World ctx doc, w.marks.length ≤ paths.length := fun w =>
    (subperm_of_subset w.faithful.distinct fun m hm =>
      all m (w.faithful.fields m hm)).length_le
  generalize left : paths.length - w.marks.length = d
  induction d using Nat.strongRecOn generalizing w with
  | _ d ih =>
    have deeper : ∀ w' : World ctx doc, w.marks.length < w'.marks.length → Evaluates w' :=
      fun w' lt => ih _ (by have := bounded w'; omega) w' rfl
    intro s n hs at_ inside
    cases hd.plain.atPath at_ with
    | term h =>
      rw [content_term h.not_dict]
      refine term_realizes unlimited hd deeper rfl hs (fun x => ?_) h fun fault =>
        ⟨_, _, at_, fault⟩
      rw [Node.atPath_concat, at_]
      exact Node.child_of_not_dict h.not_dict x
    | dict static distinct fields =>
      rw [evalInternal_bare unlimited]
      exact evalDict_realizes unlimited hd deeper (.dict static distinct fields) hs at_ inside

/-! ### The start of a run -/

/-- The dict that is the root gets two frames, the first of which is pinned. -/
theorem meets_rootDictScope {s : OpenScope} (hs : RootFrame w s) :
    Meets (dictScope doc s.1) w True fun f w' => DictFrame w' f ∧ f.1.fullPath = [] := by
  obtain ⟨r, root, mem⟩ := w.rootRef hs.stands.inPlay
  obtain ⟨node, fallback, -⟩ := w.faithful.roots r mem
  refine Meets.read ?_
  -- the frame references start from
  obtain ⟨w₁, le₁, reached₁, placed₁⟩ := w.openScope hs.stands.inPlay s.1.childShape false rfl rfl rfl
    rfl hs.stands.shaped.rooted
  refine Meets.send w₁ le₁ reached₁ ?_
  simp only [root, if_pos (congrArg Node.id node)]
  let first : OpenScope := ⟨Store.mkScope .opened w.store.cells.length s.1.childShape, rfl⟩
  have path : first.1.fullPath = [] := by
    rw [Scope.fullPath_child (p := s.1) rfl, hs.path]
    rfl
  have quiet : Quiet w₁.places first.1 := by
    intro f hf
    rw [Scope.chain_child (p := s.1) rfl] at hf
    cases mem_cons.mp hf with
    | inl own => rw [own]; exact placed₁
    | inr outer => exact le₁.1.quiet hs.quiet f outer
  -- its anchor, and the frame entries are evaluated into
  have h₂ := w₁.faithful.newRoot (r := { r with scope := some first }) node fallback
    fun s hs => by cases hs; exact ⟨quiet, path⟩
  let w₂ : World ctx doc := ⟨w₁.places, w₁.marks, _, h₂⟩
  have le₂ : w₁ ≤ w₂ := ⟨⟨prefix_refl _, fun _ _ _ some => some, fun _ t at_ => ⟨t, at_, rfl⟩⟩, rfl⟩
  refine Meets.send w₂ le₂ rfl ?_
  have hs₂ : InPlay w₂.places s.1 := (le₁.trans le₂).1.inPlay hs.stands.inPlay
  have anchored : (w₂.store.roots[w₁.store.roots.length]?).isSome := by
    show ((w₁.store.roots ++ [_])[w₁.store.roots.length]?).isSome
    rw [List.getElem?_concat_length]
    rfl
  obtain ⟨w₃, le₃, reached₃, placed₃⟩ := w₂.openScope hs₂
    { s.1.childShape with pathNode := none, root := some w₁.store.roots.length } true rfl rfl rfl rfl
    anchored
  refine Prog.Tower.Meets.of_ends ends_send ⟨w₃, le₃, reached₃, ⟨placed₃, ?_⟩, ?_⟩
  · exact covered_same rfl rfl (hs.stands.later (le₁.trans (le₂.trans le₃))).covered
  · rw [Scope.fullPath_child (p := s.1) rfl, hs.path]
    rfl

/-- The root from its frame on. -/
theorem evalRootNode_realizes (unlimited : Unlimited ctx) (hd : Document doc) {s : OpenScope}
    (hs : RootFrame w s) : Realizes (evalNode doc s.1 false) w (content ctx doc [] doc) := by
  refine Meets.evalNode ?_
  have plain := hd.plain
  cases plain with
  | term h => have := hd.isDict; rw [h.not_dict] at this; cases this
  | dict static distinct fields =>
    rename_i id pairs range
    rw [evalInternal_bare unlimited]
    refine Prog.Tower.Meets.bind (meets_rootDictScope hs) (fun _ => trivial) fun f w' le ⟨hf, path⟩ => ?_
    have body := dictBody_realizes unlimited (fun w'' _ => evaluates unlimited hd w'') hd.plain hf
      (by rw [path]; rfl)
    rw [path] at body
    exact body.mono (fun due => le.2 ▸ due) fun _ _ _ has => has

end

/-- The host's frame, as one of the run's. -/
def hostPlace : Placed := ⟨⟨.opened, 0, none, none, "", "", some 0, none⟩, false⟩

/-- The store a run over the document starts from, its root anchored. -/
def rootedStore (doc : Node) : Store :=
  (emptyStore.beginRun.perform (.newRoot ⟨doc, none, none⟩)).2

theorem rootedStore_faithful (ctx : Context) (doc : Node) :
    Faithful ctx doc [] [hostPlace] [] (rootedStore doc) where
  count := rfl
  ids i pl at_ := by
    rw [List.getElem?_singleton] at at_
    split_ifs at at_ with zero
    cases at_
    exact zero.symm
  shaped pl hp := by
    cases mem_singleton.mp hp
    exact ⟨rfl, rfl, rfl, rfl, rfl, fun _ none => nomatch none⟩
  locals pl hp k v found := by
    cases mem_singleton.mp hp
    cases found
  tables pl hp k i found := by
    cases mem_singleton.mp hp
    cases found
  thunks t ht := absurd ht not_mem_nil
  roots r hr := by
    cases mem_singleton.mp hr
    exact ⟨rfl, rfl, fun _ none => nomatch none⟩
  cache _ _ _ _ _ found := nomatch found
  marked := rfl
  distinct := nodup_nil
  fields m hm := absurd hm not_mem_nil

/-- The host declares no schema for the document's root. -/
def NoRootSchemas (ctx : Context) : Prop :=
  ∀ tree, ctx.analyzed = some tree → tree.rootSchemas = []

theorem NoRootSchemas.seed {ctx : Context} (h : NoRootSchemas ctx) (s : OpenScope) :
    seedAnalyzedSchemas ctx s = .ret () := by
  unfold seedAnalyzedSchemas
  split
  · rename_i tree analyzed
    rw [h tree analyzed]
    rfl
  · rfl

/-- The run from the frame of the document on. -/
theorem preparedRoot_realizes {ctx : Context} {doc : Node} {w : World ctx doc} (hd : Document doc)
    (unlimited : Unlimited ctx) {s : OpenScope} (hs : RootFrame w s) :
    Realizes (prepareDictScope ctx doc s >>= fun _ => evalNode doc s.1 false) w
      (content ctx doc [] doc) := by
  have prepared : Meets (prepareDictScope ctx doc s) w True fun _ _ => True := by
    have plain := hd.plain
    cases plain with
    | term h => have := hd.isDict; rw [h.not_dict] at this; cases this
    | dict static distinct fields =>
      exact (meets_prepareDictScope hd.plain hs.stands (by rw [hs.path]; rfl)).mono
        (fun due => due) fun _ _ _ _ => trivial
  refine Prog.Tower.Meets.bind prepared (fun _ => trivial) fun _ w' le _ => ?_
  exact (evalRootNode_realizes unlimited hd ⟨le.1.quiet hs.quiet, hs.path⟩).mono
    (fun due => le.2 ▸ due) fun _ _ _ has => has

/-- What evaluating the host's document comes to, with fuel enough. -/
def Outcome (ctx : Context) (out : Except RuntimeError Value) : Prop :=
  ∃ enough, ∀ fuel, enough ≤ fuel → evaluate ctx fuel = some out

namespace Outcome

variable {ctx : Context} {out out' : Except RuntimeError Value}

theorem of_evaluate {fuel : Nat} (h : evaluate ctx fuel = some out) : Outcome ctx out := by
  obtain ⟨r, run, rfl⟩ := Option.map_eq_some_iff.mp h
  exact ⟨fuel, fun _ le => Option.map_eq_some_iff.mpr ⟨r, run_handle_mono ctx le run, rfl⟩⟩

theorem unique (h : Outcome ctx out) (h' : Outcome ctx out') : out = out' := by
  obtain ⟨n, h⟩ := h
  obtain ⟨n', h'⟩ := h'
  exact Option.some.inj ((h _ (Nat.le_max_left n n')).symm.trans (h' _ (Nat.le_max_right n n')))

end Outcome

/-- Without limits and root schemas, evaluating a plain document ends; it gives the
document's value if it has one, and an error if it has none: a cycle, unless the
document has a fault. -/
theorem evaluate_document {ctx : Context} {doc : Node} (hd : Document doc)
    (unlimited : Unlimited ctx) (schemas : NoRootSchemas ctx) (root : ctx.rootNode = some doc) :
    ∃ out, Outcome ctx out ∧ (∀ v, out = .ok v ↔ (field ctx doc []).Has v) ∧
      ∀ e, out = .error e → Blamed ctx doc e := by
  -- the frame the run starts in
  obtain ⟨h₀, -⟩ := (rootedStore_faithful ctx doc).openScope
    ⟨none, none, "", "", some 0, none⟩ false (fun _ none => nomatch none) rfl rfl rfl rfl
  let w₀ : World ctx doc := ⟨_, [], _, h₀⟩
  let s₀ : OpenScope := ⟨Store.mkScope .opened 1 ⟨none, none, "", "", some 0, none⟩, rfl⟩
  have frame : RootFrame w₀ s₀ := by
    refine ⟨fun f hf => ?_, rfl⟩
    rw [Scope.chain_eq] at hf
    cases mem_singleton.mp hf
    rfl
  obtain ⟨out, t, ends, must, post, blamed⟩ := preparedRoot_realizes hd unlimited frame
  have whole : (calls ctx).Ends (evalRootBody ctx emptyScope) emptyStore.beginRun out t := by
    rw [evalRootBody, rootNode, root]
    refine bind (ret doc _) ?_
    refine bind (a := s₀) (m := w₀.store) ?_ ?_
    · refine bind ends_send ?_
      refine bind ends_send ?_
      exact ends_send
    · rw [schemas.seed]
      exact bind (ret () _) ends
  obtain ⟨enough, run⟩ := whole.from_some
  have made : field ctx doc [] = (content ctx doc [] doc).deeper := field_deeper rfl
  refine ⟨out, ⟨enough, fun fuel le => ?_⟩, fun v => ?_, blamed⟩
  · show Option.map Prod.fst ((evalRootBody ctx emptyScope).run (handle ctx fuel) _) = _
    rw [show (evalRootBody ctx emptyScope).run (handle ctx fuel) _ = _ from run fuel le]
    rfl
  · rw [made, Approx.has_deeper]
    constructor
    · intro ok
      obtain ⟨-, -, -, has⟩ := post v ok
      exact has
    · intro has
      obtain ⟨u, ok⟩ := must has.before_nil
      obtain ⟨-, -, -, has'⟩ := post u ok
      rw [ok, has.unique has']

/-- What a host that sets no limit makes of a plain document it is given. -/
theorem evaluate_withRoot {ctx : Context} {doc : Node} (hd : Document doc)
    (unlimited : Unlimited ctx) (schemas : NoRootSchemas ctx) :
    ∃ out, Outcome (ctx.withRoot doc) out ∧ ∀ v, out = .ok v ↔ (field ctx doc []).Has v := by
  have unlimited' : Unlimited (ctx.withRoot doc) := ⟨unlimited.steps, unlimited.size⟩
  obtain ⟨out, outcome, value, -⟩ := evaluate_document hd unlimited' schemas rfl
  rw [show field (ctx.withRoot doc) doc = field ctx doc from field_root unlimited.size _] at value
  exact ⟨out, outcome, value⟩

end Relon.Eval
