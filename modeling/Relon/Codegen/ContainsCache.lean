import Mathlib.Data.List.Infix
import Mathlib.Logic.Function.Basic
import Relon.Lib.Memory

/-! The substring test of LLVM-compiled programs and its inline cache.

`relon_llvm_str_contains_arena` keeps the two addresses and the answer of its last
computation in three atomic cells shared by the whole process. A call loads the cells
one by one and, unless both addresses are its own, computes and stores them one by one.
The model runs any number of threads over the cells, one access at a time, while the
bytes behind the addresses are rewritten in between. The source's loads and stores are
`Relaxed`; the model makes them sequentially consistent, so that what it refutes is wrong
under every ordering, and calls that do not overlap are calls ordered by happens-before. -/
namespace Relon.Codegen.ContainsCache

open Bytes List Function

abbrev Ptr := BitVec 64

/-- `read_record`: the payload behind a four-byte length. -/
def readRecord (m : Memory) (p : Ptr) : Option (List UInt8) :=
  if p = 0 then none else some (m.read (p + 4) (leNat (m.read p 4)))

/-- `core::str::from_utf8` accepts the bytes. -/
def isUtf8 (bs : List UInt8) : Bool := ByteArray.validateUTF8 ⟨bs.toArray⟩

/-- `compute_contains`. -/
def computeContains (h n : List UInt8) : Nat :=
  match n with
  | [] => 1
  | b :: rest =>
    if h.length < (b :: rest).length then 0
    else if rest.isEmpty then if b ∈ h then 1 else 0
    else if !isUtf8 h then 0
    else if !isUtf8 (b :: rest) then 0
    -- `str::contains` looks for the needle's bytes
    else if b :: rest <:+: h then 1 else 0

/-- Whether the needle's bytes occur in the haystack's, as the test reports it. -/
def occurs (h n : List UInt8) : Nat := if n <:+: h then 1 else 0

theorem byte_infix_iff {b : UInt8} {h : List UInt8} : [b] <:+: h ↔ b ∈ h := by
  constructor
  · rintro ⟨before, after, rfl⟩
    simp
  · intro found
    obtain ⟨before, after, rfl⟩ := append_of_mem found
    exact ⟨before, after, by simp⟩

theorem computeContains_eq {h n : List UInt8} (haystack : isUtf8 h) (needle : isUtf8 n) :
    computeContains h n = occurs h n := by
  unfold occurs
  match n with
  | [] => simp [computeContains]
  | b :: rest =>
    by_cases short : h.length < (b :: rest).length
    · have absent : ¬ b :: rest <:+: h := fun found => by
        have := found.length_le
        omega
      rw [computeContains, if_pos short, if_neg absent]
    · rw [computeContains, if_neg short]
      cases rest with
      | nil => simp [byte_infix_iff]
      | cons c more => simp [haystack, needle]

/-! ### Threads -/

/-- `StrContainsArenaIc`. -/
structure Cells where
  lastHaystack : Ptr
  lastNeedle : Ptr
  lastResult : Nat
  deriving DecidableEq

/-- The cells as the process starts: null, null and 0. -/
def Cells.start : Cells := ⟨0, 0, 0⟩

/-- What the two records say at this moment. A null pointer is no record. -/
def wanted (m : Memory) (p q : Ptr) : Nat :=
  match readRecord m p, readRecord m q with
  | some h, some n => occurs h n
  | _, _ => 0

/-- A call, with the answer its records gave when it was made. -/
structure Call where
  haystack : Ptr
  needle : Ptr
  wanted : Nat
  deriving DecidableEq

/-- What a thread does next: an access of a cell, or the computation. -/
inductive Local where
  | idle
  | loadHaystack (c : Call)
  | loadNeedle (c : Call)
  | loadResult (c : Call)
  | slow (c : Call)
  | storeHaystack (c : Call) (result : Nat)
  | storeNeedle (c : Call) (result : Nat)
  | storeResult (c : Call) (result : Nat)
  deriving DecidableEq

/-- One access of a thread: the cells after it, what comes next, and the answer if the
call returns here. -/
def advance (m : Memory) (cells : Cells) : Local → Cells × Local × Option (Call × Nat)
  | .idle => (cells, .idle, none)
  -- `ic_hit_slot`
  | .loadHaystack c =>
    if cells.lastHaystack = c.haystack then (cells, .loadNeedle c, none)
    else (cells, .slow c, none)
  | .loadNeedle c =>
    if cells.lastNeedle = c.needle then (cells, .loadResult c, none)
    else (cells, .slow c, none)
  | .loadResult c => (cells, .idle, some (c, cells.lastResult))
  -- `str_contains_arena_slow`
  | .slow c =>
    match readRecord m c.haystack, readRecord m c.needle with
    | some h, some n => (cells, .storeHaystack c (computeContains h n), none)
    | _, _ => (cells, .idle, some (c, 0))
  | .storeHaystack c r => ({ cells with lastHaystack := c.haystack }, .storeNeedle c r, none)
  | .storeNeedle c r => ({ cells with lastNeedle := c.needle }, .storeResult c r, none)
  | .storeResult c r => ({ cells with lastResult := r }, .idle, some (c, r))

structure State where
  mem : Memory
  cells : Cells
  threads : Nat → Local
  returned : List (Call × Nat)

def State.start (m : Memory) : State := ⟨m, Cells.start, fun _ => .idle, []⟩

inductive Action where
  /-- Bytes of some arena are rewritten. -/
  | write (a : Ptr) (bs : List UInt8)
  /-- An idle thread calls `relon_llvm_str_contains_arena`. -/
  | enter (thread : Nat) (haystack needle : Ptr)
  /-- A thread makes its next access. -/
  | step (thread : Nat)

def State.exec (s : State) : Action → State
  | .write a bs => { s with mem := s.mem.write a bs }
  | .enter t p q =>
    if s.threads t = .idle then
      let c : Call := ⟨p, q, wanted s.mem p q⟩
      -- a null operand does not look at the cells
      let first := if p = 0 ∨ q = 0 then Local.slow c else .loadHaystack c
      { s with threads := Function.update s.threads t first }
    else s
  | .step t =>
    let (cells, next, answer) := advance s.mem s.cells (s.threads t)
    { s with
      cells
      threads := Function.update s.threads t next
      returned := s.returned ++ answer.toList }

/-- An interleaving: any sequence of actions. -/
def State.run (s : State) (actions : List Action) : State := actions.foldl State.exec s

/-! ### One call at a time -/

/-- A history in which no two calls overlap. -/
inductive Event where
  | write (a : Ptr) (bs : List UInt8)
  | call (thread : Nat) (haystack needle : Ptr)

/-- A call makes at most six accesses. -/
def Event.actions : Event → List Action
  | .write a bs => [.write a bs]
  | .call t p q => .enter t p q :: List.replicate 6 (.step t)

def State.history (s : State) (events : List Event) : State :=
  s.run (events.flatMap Event.actions)

/-- The calls of a history, with the answers their records gave at the time. -/
def calls (m : Memory) : List Event → List Call
  | [] => []
  | .write a bs :: rest => calls (m.write a bs) rest
  | .call _ p q :: rest => ⟨p, q, wanted m p q⟩ :: calls m rest

/-- The records of every call are UTF-8 when it is made. -/
def Texts (m : Memory) : List Event → Prop
  | [] => True
  | .write a bs :: rest => Texts (m.write a bs) rest
  | .call _ p q :: rest =>
    ((readRecord m p).all isUtf8 ∧ (readRecord m q).all isUtf8) ∧ Texts m rest

/-- A call on the addresses of the call before it has that call's answer. -/
def Unchanged (before : Option Call) (m : Memory) : List Event → Prop
  | [] => True
  | .write a bs :: rest => Unchanged before (m.write a bs) rest
  | .call _ p q :: rest =>
    if p = 0 ∨ q = 0 then Unchanged before m rest
    else
      (∀ c, before = some c → c.haystack = p → c.needle = q → c.wanted = wanted m p q) ∧
        Unchanged (some ⟨p, q, wanted m p q⟩) m rest

/-- What a call leaves in the cells and what it answers, when nothing comes in between. -/
def Cells.call (cells : Cells) (m : Memory) (p q : Ptr) : Cells × Nat :=
  match readRecord m p, readRecord m q with
  | some h, some n =>
    if cells.lastHaystack = p ∧ cells.lastNeedle = q then (cells, cells.lastResult)
    else (⟨p, q, computeContains h n⟩, computeContains h n)
  | _, _ => (cells, 0)

/-- The next accesses of one thread alone. -/
def walk (m : Memory) : Nat → Cells → Local → Cells × Local × List (Call × Nat)
  | 0, cells, l => (cells, l, [])
  | k + 1, cells, l =>
    let (cells, l, answer) := advance m cells l
    let (cells, l, answers) := walk m k cells l
    (cells, l, answer.toList ++ answers)

theorem run_steps (m : Memory) (f : Nat → Local) (t k : Nat) (cells : Cells) (l : Local)
    (answers : List (Call × Nat)) :
    (State.mk m cells (Function.update f t l) answers).run (List.replicate k (.step t)) =
      ⟨m, (walk m k cells l).1, Function.update f t (walk m k cells l).2.1,
        answers ++ (walk m k cells l).2.2⟩ := by
  induction k generalizing cells l answers with
  | zero => simp [State.run, walk]
  | succ k ih =>
    have access : (State.mk m cells (update f t l) answers).exec (.step t) =
        ⟨m, (advance m cells l).1, update f t (advance m cells l).2.1,
          answers ++ (advance m cells l).2.2.toList⟩ := by
      simp [State.exec]
    rw [replicate_succ, State.run, foldl_cons, access, ← State.run, ih]
    simp [walk]

theorem readRecord_eq_none {m : Memory} {p : Ptr} : readRecord m p = none ↔ p = 0 := by
  simp [readRecord]

theorem records_of_live {m : Memory} {p q : Ptr} (live : ¬ (p = 0 ∨ q = 0)) :
    ∃ h n, readRecord m p = some h ∧ readRecord m q = some n := by
  obtain ⟨haystack, needle⟩ := not_or.mp live
  exact ⟨_, _, if_neg haystack, if_neg needle⟩

theorem walk_call (m : Memory) (cells : Cells) (p q : Ptr) :
    let c : Call := ⟨p, q, wanted m p q⟩
    walk m 6 cells (if p = 0 ∨ q = 0 then .slow c else .loadHaystack c) =
      ((cells.call m p q).1, .idle, [(c, (cells.call m p q).2)]) := by
  intro c
  by_cases null : p = 0 ∨ q = 0
  · rw [if_pos null]
    have missing : readRecord m p = none ∨ readRecord m q = none :=
      null.imp readRecord_eq_none.mpr readRecord_eq_none.mpr
    rcases missing with none | none
    · simp [walk, advance, Cells.call, none, c]
    · cases readRecord m p <;> simp [walk, advance, Cells.call, none, c]
  · rw [if_neg null]
    obtain ⟨h, n, first, second⟩ := records_of_live (m := m) null
    by_cases haystack : cells.lastHaystack = p
    · by_cases needle : cells.lastNeedle = q
      · simp [walk, advance, Cells.call, first, second, haystack, needle, c]
      · simp [walk, advance, Cells.call, first, second, haystack, needle, c]
    · simp [walk, advance, Cells.call, first, second, haystack, c]

/-- The state after a call that nothing came in between. -/
def State.afterCall (s : State) (p q : Ptr) : State :=
  { s with
    cells := (s.cells.call s.mem p q).1
    returned := s.returned ++ [(⟨p, q, wanted s.mem p q⟩, (s.cells.call s.mem p q).2)] }

/-- Without interference a call gets through, and its thread is idle again. -/
theorem run_call {s : State} {t : Nat} (idle : s.threads t = .idle) (p q : Ptr) :
    s.run (Event.call t p q).actions = s.afterCall p q := by
  have resting : update s.threads t .idle = s.threads := by
    rw [← idle, update_eq_self]
  rw [Event.actions, State.run, foldl_cons, ← State.run, State.exec, if_pos idle, run_steps,
    walk_call, resting]
  rfl

theorem history_call {s : State} {t : Nat} (idle : s.threads t = .idle) (p q : Ptr)
    (rest : List Event) : s.history (.call t p q :: rest) = (s.afterCall p q).history rest := by
  rw [← run_call idle]
  exact foldl_append

theorem returned_exec (s : State) (a : Action) : s.returned <+: (s.exec a).returned := by
  cases a with
  | write a bs => exact prefix_refl _
  | enter t p q =>
    rw [State.exec]
    split <;> exact prefix_refl _
  | step t => exact prefix_append _ _

/-- An answer once given stays given. -/
theorem returned_run (s : State) (actions : List Action) :
    s.returned <+: (s.run actions).returned := by
  induction actions generalizing s with
  | nil => exact prefix_refl _
  | cons a rest ih => exact (returned_exec s a).trans (ih (s.exec a))

/-- The cells hold the last call that looked at them, with the answer its records gave. -/
def Recalls (cells : Cells) : Option Call → Prop
  | none => cells.lastHaystack = 0
  | some c => cells = ⟨c.haystack, c.needle, c.wanted⟩

section Answer

variable {cells : Cells} {before : Option Call} {m : Memory} {p q : Ptr}

theorem call_null (null : p = 0 ∨ q = 0) : cells.call m p q = (cells, 0) ∧ wanted m p q = 0 := by
  rcases null with rfl | rfl
  · exact ⟨rfl, rfl⟩
  · cases readRecord m p <;> simp [Cells.call, wanted, readRecord]

theorem call_right_iff (live : ¬ (p = 0 ∨ q = 0)) (recalls : Recalls cells before)
    (haystack : (readRecord m p).all isUtf8) (needle : (readRecord m q).all isUtf8) :
    (cells.call m p q).2 = wanted m p q ↔
      ∀ c, before = some c → c.haystack = p → c.needle = q → c.wanted = wanted m p q := by
  obtain ⟨h, n, first, second⟩ := records_of_live (m := m) live
  rw [first, Option.all_some] at haystack
  rw [second, Option.all_some] at needle
  have computed : computeContains h n = wanted m p q := by
    simp only [wanted, first, second, computeContains_eq haystack needle]
  cases before with
  | none =>
    have miss : ¬ (cells.lastHaystack = p ∧ cells.lastNeedle = q) := fun hit =>
      live (.inl (hit.1.symm.trans recalls))
    simp [Cells.call, first, second, miss, computed]
  | some c =>
    obtain rfl : cells = _ := recalls
    by_cases hit : c.haystack = p ∧ c.needle = q
    · simp [Cells.call, first, second, hit.1, hit.2]
    · have spared : c.haystack = p → c.needle = q → c.wanted = wanted m p q :=
        fun same same' => absurd ⟨same, same'⟩ hit
      simpa [Cells.call, first, second, hit, computed] using spared

/-- A right answer is what the cells recall afterwards. -/
theorem call_recalls (live : ¬ (p = 0 ∨ q = 0)) (right : (cells.call m p q).2 = wanted m p q) :
    Recalls (cells.call m p q).1 (some ⟨p, q, wanted m p q⟩) := by
  obtain ⟨h, n, first, second⟩ := records_of_live (m := m) live
  rw [Recalls, ← right]
  by_cases hit : cells.lastHaystack = p ∧ cells.lastNeedle = q
  · obtain ⟨rfl, rfl⟩ := hit
    simp [Cells.call, first, second]
  · simp [Cells.call, first, second, hit]

end Answer

theorem history_answers {s : State} (idle : ∀ t, s.threads t = .idle) {events : List Event}
    (texts : Texts s.mem events) (before : Option Call) (recalls : Recalls s.cells before) :
    (s.history events).returned = s.returned ++ (calls s.mem events).map (fun c => (c, c.wanted)) ↔
      Unchanged before s.mem events := by
  induction events generalizing s before with
  | nil => simp [State.history, State.run, calls, Unchanged]
  | cons e rest ih =>
    cases e with
    | write a bs => exact ih (s := { s with mem := s.mem.write a bs }) idle texts before recalls
    | call t p q =>
      obtain ⟨⟨haystack, needle⟩, later⟩ := texts
      have next (c : Option Call) (known : Recalls (s.afterCall p q).cells c) :
          ((s.afterCall p q).history rest).returned =
              (s.afterCall p q).returned ++ (calls s.mem rest).map (fun c => (c, c.wanted)) ↔
            Unchanged c s.mem rest :=
        ih (s := s.afterCall p q) idle later c known
      rw [history_call (idle t), calls, Unchanged, map_cons]
      by_cases null : p = 0 ∨ q = 0
      · have ⟨same, zero⟩ : s.cells.call s.mem p q = (s.cells, 0) ∧ wanted s.mem p q = 0 :=
          call_null null
        rw [if_pos null, ← next before (by rwa [State.afterCall, same])]
        simp [State.afterCall, same, zero]
      · rw [if_neg null, ← call_right_iff null recalls haystack needle]
        by_cases right : (s.cells.call s.mem p q).2 = wanted s.mem p q
        · rw [← next _ (call_recalls null right)]
          simp [State.afterCall, right]
        · refine iff_of_false (fun answers => right ?_) fun both => right both.1
          -- the answer of this call is in the log for good, so it would be the wanted one
          have kept : (s.afterCall p q).returned <+: _ := returned_run _ (rest.flatMap Event.actions)
          rw [← State.history, answers, State.afterCall, prefix_append_right_inj] at kept
          simpa using kept

/-- As long as calls do not overlap, every answer is that of the records as they are
exactly when no two calls in a row find the same two addresses with another answer. -/
theorem contains_answers_iff (m : Memory) {events : List Event} (texts : Texts m events) :
    ((State.start m).history events).returned = (calls m events).map (fun c => (c, c.wanted)) ↔
      Unchanged none m events :=
  history_answers (s := State.start m) (fun _ => rfl) texts none rfl

/-- Two records `"ab"`, at 16 and at 32. -/
def sampleMemory : Memory :=
  Memory.write (Memory.write (fun _ => 0) 16 [2, 0, 0, 0, 97, 98]) 32 [2, 0, 0, 0, 97, 98]

/-- The same text is put at 16 between two calls of different threads. -/
theorem repeated_text_answered :
    Texts sampleMemory [.call 0 16 32, .write 16 [2, 0, 0, 0, 97, 98], .call 1 16 32] ∧
    ((State.start sampleMemory).history
      [.call 0 16 32, .write 16 [2, 0, 0, 0, 97, 98], .call 1 16 32]).returned = (calls sampleMemory
          [.call 0 16 32, .write 16 [2, 0, 0, 0, 97, 98], .call 1 16 32]).map
            fun c => (c, c.wanted) := by
  have texts : Texts sampleMemory
      [.call 0 16 32, .write 16 [2, 0, 0, 0, 97, 98], .call 1 16 32] := by
    simp only [Texts]
    decide +kernel
  refine ⟨texts, (contains_answers_iff sampleMemory texts).mpr ?_⟩
  simp only [Unchanged, if_neg (show ¬ ((16 : Ptr) = 0 ∨ (32 : Ptr) = 0) by decide)]
  refine ⟨fun _ h => (by cases h), fun c same _ _ => ?_, trivial⟩
  cases same
  decide +kernel

/-- A run that puts `"ba"` where the run before it had `"ab"` is served that run's
answer. And a thread that comes between the stores of another one finds its own two
addresses with the answer the process started with. -/
theorem stale_answers_served : ((State.start sampleMemory).history
      [.call 0 16 32, .write 16 [2, 0, 0, 0, 98, 97], .call 0 16 32]).returned =
        [(⟨16, 32, 1⟩, 1), (⟨16, 32, 0⟩, 1)] ∧ ((State.start sampleMemory).run
      ([.enter 0 16 32, .step 0, .step 0, .step 0, .step 0] ++
        [.enter 1 16 32, .step 1, .step 1, .step 1])).returned = [(⟨16, 32, 1⟩, 0)] := by
  decide +kernel

end Relon.Codegen.ContainsCache
