import Mathlib.Data.List.Chain
import Mathlib.Data.List.Perm.Subperm
import Mathlib.Logic.Function.Basic
import Mathlib.Logic.Relation
import Relon.Eval.Syntax

/-! Import cycles (`detect_cycles` in `workspace_build.rs`).

A depth-first search from every module colours the modules on its stack gray and those it has
left black. An import of a gray module closes a cycle, which is the part of the stack from that
module on. `Good` is what the search keeps: the gray modules are those of the stack, the stack is
a path, what is reported is a closed walk, and as long as nothing is reported the black modules
are in an order in which each imports earlier ones only. -/
namespace Relon.Analyzer.ImportCycles
open List Function
open Eval (TokenRange)

/-- `import_graph`: a finite table, and the directives of each module that was loaded. -/
structure ImportGraph where
  modules : List String
  imports : String → List String
  absent : ∀ v ∉ modules, imports v = []
  ranges : String → List TokenRange

/-- The directive that stands where the first edge to `target` does. -/
def locateImportRange (g : ImportGraph) (importer target : String) : Option TokenRange :=
  ((g.imports importer).idxOf? target).bind ((g.ranges importer)[·]?)

inductive Color where
  | white | gray | black
  deriving DecidableEq, Repr

structure CircularImport where
  chain : List String
  range : TokenRange

structure Search where
  color : String → Color
  stack : List String
  emitted : List CircularImport

variable (g : ImportGraph)

/-- A back edge from `node` to `next`: the chain is the stack from `next` on. -/
def report (node next : String) (s : Search) : Search :=
  if next ∈ s.stack then
    let chain := s.stack.drop (s.stack.idxOf next) ++ [next]
    if chain ∈ s.emitted.map CircularImport.chain then s
    else { s with emitted := s.emitted ++ [⟨chain, (locateImportRange g node next).getD default⟩] }
  else s

/-- One round of the loop over the imports of `node`. -/
def follow (dfs : String → Search → Option Search) (node : String) (s : Search) (next : String) :
    Option Search :=
  match s.color next with
  | .white => dfs next s
  | .gray => some (report g node next s)
  | .black => some s

/-- `dfs`, to a depth of at most `fuel`. -/
def dfs : Nat → String → Search → Option Search
  | 0, _, _ => none
  | fuel + 1, node, s =>
    ((g.imports node).foldlM (follow g (dfs fuel) node) { s with
      color := Function.update s.color node .gray
      stack := s.stack ++ [node] }).map fun s => { s with
        color := Function.update s.color node .black
        stack := s.stack.dropLast }

/-- `detect_cycles`, with the modules in the order in which the colour table lists them. -/
def detectCycles (nodes : List String) : Option (List CircularImport) :=
  (nodes.foldlM (fun s start =>
    if s.color start ≠ .white then some s else dfs g nodes.length start s)
    ⟨fun _ => .white, [], []⟩).map Search.emitted

/-! ### Walks -/

def Imports (a b : String) : Prop := b ∈ g.imports a

/-- A walk along imports from a module to itself. -/
def ClosedWalk (chain : List String) : Prop :=
  ∃ v mid, chain = v :: mid ++ [v] ∧ chain.IsChain (Imports g)

variable {g}

theorem transGen_of_isChain {v w : String} {mid : List String}
    (walk : (v :: mid ++ [w]).IsChain (Imports g)) : Relation.TransGen (Imports g) v w := by
  induction mid generalizing v with
  | nil => exact .single (isChain_pair.mp walk)
  | cons x mid ih =>
    rw [cons_append, cons_append, isChain_cons_cons] at walk
    exact .head walk.1 (ih walk.2)

variable (g) in
/-- Modules in the order they were left, the last one first. -/
def Ordered : List String → Prop
  | [] => True
  | v :: rest => (∀ w ∈ g.imports v, w ∈ rest) ∧ v ∉ rest ∧ Ordered rest

theorem Ordered.closed {done : List String} (ordered : Ordered g done) {v w : String}
    (reach : Relation.TransGen (Imports g) v w) (mem : v ∈ done) : w ∈ done := by
  have step : ∀ {a b}, Imports g a b → a ∈ done → b ∈ done := by
    clear reach mem
    intro a b edge mem
    induction done with
    | nil => exact absurd mem not_mem_nil
    | cons x rest ih =>
      rcases mem_cons.mp mem with rfl | mem
      · exact mem_cons_of_mem _ (ordered.1 b edge)
      · exact mem_cons_of_mem _ (ih ordered.2.2 mem)
  induction reach with
  | single edge => exact step edge mem
  | tail _ edge ih => exact step edge ih

theorem Ordered.acyclic {done : List String} (ordered : Ordered g done) {v : String}
    (mem : v ∈ done) : ¬ Relation.TransGen (Imports g) v v := by
  intro cycle
  induction done with
  | nil => exact absurd mem not_mem_nil
  | cons x rest ih =>
    rcases mem_cons.mp mem with rfl | mem
    · -- the first step leaves for an earlier module, from where there is no way back
      obtain ⟨w, edge, back⟩ := Relation.TransGen.head'_iff.mp cycle
      rcases Relation.reflTransGen_iff_eq_or_transGen.mp back with rfl | back
      · exact ordered.2.1 (ordered.1 _ edge)
      · exact ordered.2.1 (ordered.2.2.closed back (ordered.1 w edge))
    · exact ih ordered.2.2 mem

/-! ### The search -/

variable (g) in
structure Good (nodes : List String) (s : Search) : Prop where
  gray : ∀ v, s.color v = .gray ↔ v ∈ s.stack
  path : s.stack.IsChain (Imports g)
  simple : s.stack.Nodup ∧ s.stack ⊆ nodes
  walks : ∀ d ∈ s.emitted, ClosedWalk g d.chain
  ordered : s.emitted = [] → ∃ done, (∀ v, s.color v = .black ↔ v ∈ done) ∧ Ordered g done

/-- What is between a search and a later state at the same depth. -/
structure After (s s' : Search) : Prop where
  stack : s'.stack = s.stack
  kept : ∀ v, s.color v ≠ .white → s'.color v = s.color v
  emitted : s.emitted <+: s'.emitted

variable {s s' s'' : Search} {node next : String} {nodes : List String} {fuel : Nat}

theorem After.refl : After s s := ⟨rfl, fun _ _ => rfl, prefix_rfl⟩

theorem After.trans (first : After s s') (second : After s' s'') : After s s'' where
  stack := second.stack.trans first.stack
  kept v seen := by rw [second.kept v (first.kept v seen ▸ seen), first.kept v seen]
  emitted := first.emitted.trans second.emitted

/-- Each round leaves its module black, or else something has been reported. -/
def Settles (I : Search → Prop) (f : Search → String → Option Search) (es : List String) : Prop :=
  ∀ s, I s → ∀ next ∈ es, ∃ s', f s next = some s' ∧ I s' ∧ After s s' ∧
    (s'.emitted = [] → s'.color next = .black)

theorem Settles.foldlM {f : Search → String → Option Search} {I : Search → Prop}
    {es : List String} (round : Settles I f es) (start : I s) :
    ∃ s', es.foldlM f s = some s' ∧ I s' ∧ After s s' ∧
      (s'.emitted = [] → ∀ v ∈ es, s'.color v = .black) := by
  induction es generalizing s with
  | nil => exact ⟨s, rfl, start, .refl, fun _ _ mem => absurd mem not_mem_nil⟩
  | cons next rest ih =>
    obtain ⟨s₁, ran, one, after, left⟩ := round s start next mem_cons_self
    obtain ⟨s₂, rested, all, after₂, others⟩ :=
      ih (fun s holds v mem => round s holds v (mem_cons_of_mem _ mem)) one
    refine ⟨s₂, by rw [foldlM_cons, ran]; exact rested, all, after.trans after₂, fun none => ?_⟩
    have black := left (prefix_nil.mp (none ▸ after₂.emitted))
    refine forall_mem_cons.mpr ⟨?_, others none⟩
    rw [after₂.kept next (by rw [black]; decide), black]

theorem nodup_concat {l : List String} : (l ++ [node]).Nodup ↔ node ∉ l ∧ l.Nodup := by
  rw [(perm_append_singleton node l).nodup_iff, nodup_cons]

theorem Good.extend (good : Good g nodes s) (top : s.stack.getLast? = some node)
    (edge : Imports g node next) : (s.stack ++ [next]).IsChain (Imports g) := by
  refine isChain_append.mpr ⟨good.path, isChain_singleton _, ?_⟩
  rw [top]
  rintro _ ⟨⟩ _ ⟨⟩
  exact edge

/-- A gray module is on the stack, so there is something to report. -/
theorem Good.report (good : Good g nodes s) (top : s.stack.getLast? = some node)
    (edge : Imports g node next) (gray : s.color next = .gray) :
    Good g nodes (report g node next s) ∧ After s (report g node next s) ∧
      (report g node next s).emitted ≠ [] := by
  have mem := (good.gray next).mp gray
  have bound := idxOf_lt_length_of_mem mem
  have walk := (good.extend top edge).drop (s.stack.idxOf next)
  rw [drop_append_of_le_length bound.le] at walk
  have closed : ClosedWalk g (s.stack.drop (s.stack.idxOf next) ++ [next]) := by
    refine ⟨next, s.stack.drop (s.stack.idxOf next + 1), ?_, walk⟩
    rw [drop_eq_getElem_cons bound, getElem_idxOf]
  rw [ImportCycles.report, if_pos mem]
  dsimp only
  split
  · rename_i old
    exact ⟨good, .refl, fun none => absurd old (by simp [none])⟩
  · refine ⟨{ good with
        walks := forall_mem_append.mpr ⟨good.walks, forall_mem_singleton.mpr closed⟩
        ordered := fun none => absurd none (by simp) },
      ⟨rfl, fun _ _ => rfl, prefix_append ..⟩, by simp⟩

theorem Good.fresh (good : Good g nodes s) (white : s.color node = .white) : node ∉ s.stack := by
  intro found
  rw [(good.gray node).mpr found] at white
  cases white

/-- Entering a module turns it gray. -/
theorem Good.enter (good : Good g nodes s) (white : s.color node = .white) (mem : node ∈ nodes)
    (path : (s.stack ++ [node]).IsChain (Imports g)) :
    Good g nodes ⟨Function.update s.color node .gray, s.stack ++ [node], s.emitted⟩ := by
  refine ⟨fun v => ?_, path, ⟨?_, ?_⟩, good.walks, fun none => ?_⟩
  · by_cases same : v = node <;> simp [same, update_of_ne, good.gray]
  · exact nodup_concat.mpr ⟨good.fresh white, good.simple.1⟩
  · exact append_subset.mpr ⟨good.simple.2, by simpa using mem⟩
  · obtain ⟨order, black, ordered⟩ := good.ordered none
    refine ⟨order, fun v => ?_, ordered⟩
    rw [← black v]
    by_cases same : v = node <;> simp [same, update_of_ne, white]

/-- Leaving a module turns it black, behind all it imports. -/
theorem Good.leave {base : List String} (good : Good g nodes s) (stack : s.stack = base ++ [node])
    (done : s.emitted = [] → ∀ w ∈ g.imports node, s.color w = .black) :
    Good g nodes ⟨Function.update s.color node .black, base, s.emitted⟩ := by
  obtain ⟨gray, path, ⟨simple, inside⟩, walks, ordered⟩ := good
  rw [stack] at gray path simple inside
  have apart : node ∉ base := (nodup_concat.mp simple).1
  refine ⟨fun v => ?_, (isChain_append.mp path).1,
    ⟨(nodup_concat.mp simple).2, (append_subset.mp inside).1⟩, walks, fun none => ?_⟩
  · by_cases same : v = node <;> simp [same, update_of_ne, gray, apart]
  · obtain ⟨order, black, ordered⟩ := ordered none
    refine ⟨node :: order, fun v => ?_, fun w edge => (black w).mp (done none w edge), ?_, ordered⟩
    · by_cases same : v = node <;> simp [same, update_of_ne, black]
    · rw [← black node, (gray node).mpr (by simp)]
      decide

/-- The stack is a simple path, so that its depth is bounded by the number of modules. -/
theorem dfs_explores (inside : ∀ {u v}, Imports g u v → v ∈ nodes) (good : Good g nodes s)
    (white : s.color node = .white) (mem : node ∈ nodes)
    (path : (s.stack ++ [node]).IsChain (Imports g)) (enough : nodes.length ≤ fuel + s.stack.length) :
    ∃ s', dfs g fuel node s = some s' ∧ Good g nodes s' ∧ After s s' ∧ s'.color node = .black := by
  induction fuel generalizing s node with
  | zero =>
    obtain ⟨simple, sub⟩ := (good.enter white mem path).simple
    have := (simple.subperm sub).length_le
    rw [length_append, length_singleton] at this
    omega
  | succ fuel ih =>
    have round : Settles (fun s₁ => Good g nodes s₁ ∧ s₁.stack = s.stack ++ [node])
        (follow g (dfs g fuel) node) (g.imports node) := by
      rintro s₁ ⟨good, top⟩ next edge
      have last : s₁.stack.getLast? = some node := by rw [top, List.getLast?_concat]
      unfold follow
      cases color : s₁.color next with
      | white =>
        obtain ⟨s₂, ran, good₂, after, black⟩ := ih good color (inside edge) (good.extend last edge)
          (by rw [top, length_append, length_singleton]; omega)
        exact ⟨s₂, ran, ⟨good₂, after.stack.trans top⟩, after, fun _ => black⟩
      | gray =>
        obtain ⟨good₂, after, found⟩ := good.report last edge color
        exact ⟨_, rfl, ⟨good₂, after.stack.trans top⟩, after, fun none => absurd none found⟩
      | black => exact ⟨s₁, rfl, ⟨good, top⟩, .refl, fun _ => color⟩
    obtain ⟨s', ran, ⟨good', top⟩, after, done⟩ := round.foldlM ⟨good.enter white mem path, rfl⟩
    refine ⟨⟨update s'.color node .black, s.stack, s'.emitted⟩, ?_, good'.leave top done,
      ⟨rfl, fun v seen => ?_, after.emitted⟩, by simp⟩
    · rw [dfs, ran]
      simp [top]
    · have other : v ≠ node := fun same => seen (same ▸ white)
      have kept := after.kept v (by simpa [update_of_ne other] using seen)
      simpa [update_of_ne other] using kept

/-- In whichever order the colour table lists the modules, the search ends; it reports a cycle
if and only if the imports have one, and every chain it reports is one. -/
theorem detectCycles_exact (g : ImportGraph) (nodes : List String)
    (lists : ∀ v, v ∈ nodes ↔ v ∈ g.modules ∨ ∃ u, Imports g u v) :
    ∃ found, detectCycles g nodes = some found ∧
      (found ≠ [] ↔ ∃ v, Relation.TransGen (Imports g) v v) ∧
      ∀ d ∈ found, ClosedWalk g d.chain := by
  have start : Good g nodes ⟨fun _ => .white, [], []⟩ :=
    ⟨by simp, isChain_nil, by simp, nofun, fun _ => ⟨[], by simp, trivial⟩⟩
  have inside : ∀ {u v}, Imports g u v → v ∈ nodes := fun {u v} edge => (lists v).mpr (.inr ⟨u, edge⟩)
  have round : Settles (fun s => Good g nodes s ∧ s.stack = []) (fun s start =>
      if s.color start ≠ .white then some s else dfs g nodes.length start s) nodes := by
    rintro s ⟨good, empty⟩ next mem
    cases color : s.color next with
    | white =>
      obtain ⟨s', ran, good', after, black⟩ := dfs_explores inside good color mem
        (by rw [empty]; exact isChain_singleton _) (Nat.le_add_right nodes.length _)
      exact ⟨s', by simp [color, ran], ⟨good', after.stack.trans empty⟩, after, fun _ => black⟩
    | gray => exact absurd ((good.gray next).mp color) (by simp [empty])
    | black => exact ⟨s, by simp [color], ⟨good, empty⟩, .refl, fun _ => color⟩
  obtain ⟨s, ran, ⟨good, -⟩, -, black⟩ := round.foldlM ⟨start, rfl⟩
  refine ⟨s.emitted, by rw [detectCycles, ran]; rfl, ⟨fun reported => ?_, ?_⟩, good.walks⟩
  · obtain ⟨d, mem⟩ := exists_mem_of_ne_nil _ reported
    obtain ⟨v, mid, split, walk⟩ := good.walks d mem
    exact ⟨v, transGen_of_isChain (split ▸ walk)⟩
  · rintro ⟨v, cycle⟩ none
    obtain ⟨u, -, edge⟩ := Relation.TransGen.tail'_iff.mp cycle
    obtain ⟨order, finished, ordered⟩ := good.ordered none
    exact ordered.acyclic ((finished v).mp (black none v (inside edge))) cycle

/-- Three modules that import each other in a ring, and one that imports the ring. -/
def ring : ImportGraph where
  modules := ["a", "b", "c", "d"]
  imports
    | "a" => ["b"]
    | "b" => ["c"]
    | "c" => ["a"]
    | "d" => ["b"]
    | _ => []
  absent v outside := by
    split <;> simp_all
  ranges _ := [default]

/-- The ring is reported, from outside it, and what is reported are closed walks. -/
theorem ring_reported : ∃ found, detectCycles ring ["d", "a", "b", "c"] = some found ∧ found ≠ [] ∧
      ∀ d ∈ found, ClosedWalk ring d.chain := by
  have listed : ∀ v, v ∈ ["d", "a", "b", "c"] ↔ v ∈ ring.modules ∨ ∃ u, Imports ring u v := by
    intro v
    refine ⟨fun mem => .inl ((by decide : ["d", "a", "b", "c"] ⊆ ["a", "b", "c", "d"]) mem), ?_⟩
    rintro (mem | ⟨u, edge⟩)
    · exact (by decide : ["a", "b", "c", "d"] ⊆ ["d", "a", "b", "c"]) mem
    · dsimp only [Imports, ring] at edge
      split at edge <;> simp_all
  obtain ⟨found, ran, reported, closed⟩ := detectCycles_exact ring ["d", "a", "b", "c"] listed
  have around : Relation.TransGen (Imports ring) "a" "a" :=
    .tail (.tail (.single (show "b" ∈ ["b"] by decide)) (show "c" ∈ ["c"] by decide))
      (show "a" ∈ ["a"] by decide)
  exact ⟨found, ran, reported.mpr ⟨"a", around⟩, closed⟩

end Relon.Analyzer.ImportCycles
