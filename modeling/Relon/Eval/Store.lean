import Relon.Lib.Prog
import Relon.Eval.Value

/-! The evaluator's mutable state and the requests that touch it.

The store gathers what the Rust code keeps behind mutexes and atomics: the
tables of the frames, list contexts, thunks, and the per-run fields of
`Context`. `bindings` frames have a table of their own that only ever grows: no
request writes to one after it is made. `history` is not in the source; it logs
every charge of the step budget with the counter value it found. -/
namespace Relon.Eval

/-- One charge of the step budget: a node evaluation, or a native `tick(n)`. -/
inductive Charge where
  | node
  | tick (n : UInt64)
  deriving DecidableEq

namespace Charge

def amount : Charge → UInt64
  | node => 1
  | tick n => n

/-- `u64::saturating_add`. -/
def saturatingAdd (a b : UInt64) : UInt64 :=
  if a.toNat + b.toNat < 2 ^ 64 then a + b else UInt64.ofNat (2 ^ 64 - 1)

/-- Whether a charge that found the counter at `prev` lets the evaluation go on. -/
def granted (limit prev : UInt64) : Charge → Bool
  | node => prev < limit
  | tick n => saturatingAdd prev n ≤ limit

end Charge

/-- Tables of an opened frame. -/
structure Cell where
  locals : Assoc Value
  thunks : Assoc Nat

structure ListContext where
  index : Nat
  elements : List Nat
  iterBinding : Option (String × Value)

structure Thunk where
  node : Node
  scope : OpenScope
  path : List String
  cacheKey : String
  value : Option Value

structure RootRef where
  node : Node
  scope : Option OpenScope
  parentFallback : Option Scope

/-- An import that succeeded: the bytes the resolvers returned for it, those the value was
evaluated from, and the value. -/
structure Import where
  integrity : Option IntegrityHash
  canonicalId : String
  resolved : List UInt8
  origin : List UInt8
  value : Value

structure Store where
  cells : List Cell
  frames : List (Assoc Value)
  lists : List ListContext
  thunks : List Thunk
  roots : List RootRef
  pathCache : Assoc Value
  moduleCache : Assoc Value
  evaluatingPaths : List String
  loadingModules : List String
  iterCursors : List (UInt64 × Nat)
  iterIdCounter : UInt64
  closureCallCounter : UInt64
  stepCounter : UInt64
  history : List (Charge × UInt64)
  /-- How often the module resolvers have been asked. -/
  resolutions : Nat
  /-- For the proofs: the bytes each module in the cache was parsed from. -/
  origins : Assoc (List UInt8)
  /-- For the proofs: the imports that succeeded. -/
  imports : List Import

def Store.empty : Store := ⟨[], [], [], [], [], [], [], [], [], [], 0, 0, 0, [], 0, [], []⟩

/-! ### Reading scopes -/

namespace Scope

/-- The frame and its ancestors, innermost first. -/
def chain : Scope → List Scope
  | ⟨kind, id, parent, pathNode, dir, ns, root, ctx⟩ =>
    ⟨kind, id, parent, pathNode, dir, ns, root, ctx⟩ ::
      match parent with
      | some p => p.chain
      | none => []

/-- `Scope::full_path`. -/
def fullPath (s : Scope) : List String := (s.chain.filterMap Scope.pathNode).reverse

/-- `Scope::path_cache_key`. -/
def pathCacheKey (s : Scope) (path : List String) : String :=
  let ns := if s.cacheNamespace.isEmpty then s.currentDir else s.cacheNamespace
  ns ++ "::" ++ "/".intercalate (path.map fun p => toString p.utf8ByteSize ++ ":" ++ p)

end Scope

namespace Store

variable (σ : Store)

def cell (s : Scope) : Cell := σ.cells.getD s.id ⟨[], []⟩

/-- The frame's own bindings. -/
def locals (s : Scope) : Assoc Value :=
  match s.kind with
  | .opened => (σ.cell s).locals
  | .bindings => σ.frames.getD s.id []

/-- The frame's own thunk table. -/
def thunkTable (s : Scope) : Assoc Nat :=
  match s.kind with
  | .opened => (σ.cell s).thunks
  | .bindings => []

def listContext? (s : Scope) : Option ListContext := s.listContext.bind fun c => σ.lists[c]?

/-- `Scope::current_iter_binding`. -/
def currentIterBinding (s : Scope) : Option (String × Value) :=
  (σ.listContext? s).bind ListContext.iterBinding

/-- What a single frame binds `name` to: the loop variable of its list context is
asked before the frame's own locals. -/
def ownLocal (name : String) (s : Scope) : Option Value :=
  match σ.currentIterBinding s with
  | some (bound, v) => if bound = name then some v else (σ.locals s).lookup name
  | none => (σ.locals s).lookup name

/-- `Scope::get_local`. -/
def getLocal (s : Scope) (name : String) : Option Value := s.chain.findSome? (σ.ownLocal name)

/-- `Scope::get_own_thunk`. -/
def getOwnThunk (s : Scope) (name : String) : Option Nat := (σ.thunkTable s).lookup name

/-- `Scope::get_thunk`. -/
def getThunk (s : Scope) (name : String) : Option Nat :=
  s.chain.findSome? fun f => σ.getOwnThunk f name

def rootRef? (s : Scope) : Option RootRef := s.root.bind fun r => σ.roots[r]?

end Store

/-! ### Requests

A request is either an operation on the store or a call: code that evaluates
something in turn asks for it, so that all it can do to the store is what these
requests do. Marks and loop slots are set only around a call. -/

/-- The part of a new frame that does not change. -/
structure Shape where
  parent : Option Scope
  pathNode : Option String
  currentDir : String
  cacheNamespace : String
  root : Option Nat
  listContext : Option Nat

inductive Op : Type → Type where
  | read : Op Store
  | openScope (shape : Shape) (cell : Cell) : Op OpenScope
  | bindingsScope (shape : Shape) (locals : Assoc Value) : Op Scope
  | bindLocal (s : OpenScope) (name : String) (v : Value) : Op Unit
  | bindThunk (s : OpenScope) (name : String) (thunk : Nat) : Op Unit
  | newListContext (c : ListContext) : Op Nat
  | newThunk (t : Thunk) : Op Nat
  | setThunk (thunk : Nat) (v : Value) : Op Unit
  | newRoot (r : RootRef) : Op Nat
  | cachePath (key : String) (v : Value) : Op Unit
  | nextIterId : Op UInt64
  | iterCursor (id : UInt64) (len : Nat) : Op (Option Nat)
  | nextCallId : Op UInt64
  | charge (c : Charge) : Op UInt64

structure RootSchemaDecl where
  name : String
  generics : List String
  schemaNode : Node
  directiveRange : TokenRange

structure ModuleSource where
  canonicalId : String
  currentDir : String
  source : List UInt8

inductive Req : Type → Type 1 where
  | op {β : Type} (o : Op β) : Req β
  /-- `eval_internal` on a node, perhaps read as a schema predicate. -/
  | eval (node : Node) (scope : Scope) (isSchemaPred : Bool) : Req (Except RuntimeError Value)
  /-- The same with `key` among the paths being evaluated while it runs. -/
  | evalMarked (key : String) (node : Node) (scope : Scope) : Req (Except RuntimeError Value)
  /-- The iterations of a comprehension over `items`. -/
  | iterate (element : Node) (id : String) (condition : Option Node) (scope : Scope)
    (items : List Value) : Req (Except RuntimeError (List Value))
  /-- `load_module`, as seen from a directory. -/
  | load (path : String) (integrity : Option IntegrityHash) (dir : String) (range : TokenRange) :
    Req (Except RuntimeError Value)

/-- Computations of the evaluator. -/
abbrev M := Prog Req RuntimeError

def send {β : Type} (o : Op β) : M β := Prog.send (.op o)

/-- A call's error is the caller's. -/
def call {α : Type} (r : Req (Except RuntimeError α)) : M α := do
  let outcome ← Prog.send r
  Prog.ofExcept outcome

def evalNode (node : Node) (scope : Scope) (isSchemaPred : Bool) : M Value :=
  call (.eval node scope isSchemaPred)

namespace Store

def mkScope (kind : FrameKind) (id : Nat) (shape : Shape) : Scope :=
  ⟨kind, id, shape.parent, shape.pathNode, shape.currentDir, shape.cacheNamespace, shape.root,
    shape.listContext⟩

def modifyCell (σ : Store) (s : OpenScope) (f : Cell → Cell) : Store :=
  { σ with cells := σ.cells.modify s.1.id f }

/-- `iter_cursor_fetch_and_inc`: an unknown or exhausted cursor gives `none`. -/
def advanceCursor (σ : Store) (id : UInt64) (len : Nat) : Option Nat × Store :=
  let cursor := (σ.iterCursors.lookup id).filter (· < len)
  (cursor, { σ with
    iterCursors := match cursor with
      | some c => (id, c + 1) :: σ.iterCursors.filter (·.1 != id)
      | none => σ.iterCursors })

/-- What each operation does. -/
def perform {β : Type} (σ : Store) (op : Op β) : β × Store :=
  match op with
  | .read => (σ, σ)
  | .openScope shape cell =>
    (⟨mkScope .opened σ.cells.length shape, rfl⟩, { σ with cells := σ.cells ++ [cell] })
  | .bindingsScope shape locals =>
    (mkScope .bindings σ.frames.length shape, { σ with frames := σ.frames ++ [locals] })
  | .bindLocal s name v =>
    ((), σ.modifyCell s fun c => { c with locals := Assoc.put c.locals name v })
  | .bindThunk s name t =>
    ((), σ.modifyCell s fun c => { c with thunks := Assoc.put c.thunks name t })
  | .newListContext c => (σ.lists.length, { σ with lists := σ.lists ++ [c] })
  | .newThunk t => (σ.thunks.length, { σ with thunks := σ.thunks ++ [t] })
  | .setThunk t v =>
    ((), { σ with thunks := σ.thunks.modify t fun t => { t with value := some v } })
  | .newRoot r => (σ.roots.length, { σ with roots := σ.roots ++ [r] })
  | .cachePath key v => ((), { σ with pathCache := Assoc.put σ.pathCache key v })
  | .nextIterId =>
    (σ.iterIdCounter, { σ with
      iterIdCounter := σ.iterIdCounter + 1
      iterCursors := (σ.iterIdCounter, 0) :: σ.iterCursors.filter (·.1 != σ.iterIdCounter) })
  | .iterCursor id len => σ.advanceCursor id len
  | .nextCallId =>
    (σ.closureCallCounter, { σ with closureCallCounter := σ.closureCallCounter + 1 })
  | .charge c =>
    (σ.stepCounter, { σ with
      stepCounter := σ.stepCounter + c.amount
      history := σ.history ++ [(c, σ.stepCounter)] })

/-- `evaluating_paths.insert`. -/
def markPath (σ : Store) (key : String) : Store :=
  { σ with evaluatingPaths := key :: σ.evaluatingPaths }

/-- `evaluating_paths.remove`. -/
def unmarkPath (σ : Store) (key : String) : Store :=
  { σ with evaluatingPaths := σ.evaluatingPaths.filter (· != key) }

def markModule (σ : Store) (id : String) : Store :=
  { σ with loadingModules := id :: σ.loadingModules }

def unmarkModule (σ : Store) (id : String) : Store :=
  { σ with loadingModules := σ.loadingModules.erase id }

/-- The resolvers have been asked once more. -/
def resolved (σ : Store) : Store := { σ with resolutions := σ.resolutions + 1 }

/-- `module_cache.insert`, for a module that was evaluated. -/
def cacheModule (σ : Store) (id : String) (origin : List UInt8) : Except RuntimeError Value → Store
  | .ok v => { σ with
      moduleCache := Assoc.put σ.moduleCache id v
      origins := Assoc.put σ.origins id origin }
  | .error _ => σ

/-- Note the import of a module. -/
def noteImport (σ : Store) (integrity : Option IntegrityHash) (source : ModuleSource) :
    Except RuntimeError Value → Store
  | .ok v => { σ with imports := σ.imports ++ [⟨integrity, source.canonicalId, source.source,
      (σ.origins.lookup source.canonicalId).getD [], v⟩] }
  | .error _ => σ

/-- `set_iter_binding`: the slot all iterations of a loop share. -/
def setIterBinding (σ : Store) (ctx : Nat) (name : String) (v : Value) (index : Nat) : Store :=
  { σ with lists := σ.lists.modify ctx fun c =>
      { c with iterBinding := some (name, v), index := index } }

/-- What both entry points reset before a run; nothing inside a run resets it. -/
def beginRun (σ : Store) : Store :=
  { σ with stepCounter := 0, pathCache := [], iterCursors := [], history := [] }

end Store

def read : M Store := send .read

/-- Rust's `ok_or`. -/
def okOr {α : Type} (o : Option α) (e : RuntimeError) : M α :=
  match o with
  | some a => pure a
  | none => .fail e

/-! ### Making scopes -/

namespace Scope

/-- What a child frame inherits: `Scope::child`. -/
def childShape (s : Scope) : Shape :=
  ⟨some s, none, s.currentDir, s.cacheNamespace, s.root, s.listContext⟩

/-- `with_locals`, as the `where`, match-arm, method and snapshot frames use it. -/
def withLocals (s : Scope) (locals : Assoc Value) : M Scope :=
  send (.bindingsScope s.childShape locals)

/-- `with_locals`, as `#import` uses it: the entry program's own locals are written
to this frame later. -/
def withImports (s : Scope) (locals : Assoc Value) : M OpenScope :=
  send (.openScope s.childShape ⟨locals, []⟩)

/-- `with_path`. -/
def withPath (s : Scope) (node : String) : M OpenScope :=
  send (.openScope { s.childShape with pathNode := some node } ⟨[], []⟩)

/-- `with_list_context`. -/
def withListContext (s : Scope) (index : Nat) (elements : List Nat) : M OpenScope := do
  let ctx ← send (.newListContext ⟨index, elements, none⟩)
  send (.openScope
    { s.childShape with pathNode := some (toString index), listContext := some ctx } ⟨[], []⟩)

/-- `locals_for_write().insert`. -/
def insertLocal (s : OpenScope) (name : String) (v : Value) : M Unit :=
  send (.bindLocal s name v)

end Scope

/-- `with_iter_loop`: a list context for all iterations, and the frame over it. -/
def Store.withIterLoop (σ : Store) (s : Scope) : OpenScope × Store :=
  (σ.perform (.newListContext ⟨0, [], none⟩)).2.perform
    (.openScope { s.childShape with listContext := some σ.lists.length } ⟨[], []⟩)

end Relon.Eval
