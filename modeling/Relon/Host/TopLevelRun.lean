import Mathlib.Logic.Function.Basic

/-! The top-level run slot of a `Context`.

`begin_top_level_run` puts the calling thread into `top_level_run_slot`, waiting on
`top_level_run_cv` while another thread is there; dropping the guard empties the slot and
wakes everyone who waits. The model runs any number of threads over the mutex, the slot and
the condition variable, one access at a time: the moves the code makes by itself
(`advance`), and those it has no say in (a host calls, an evaluation ends, a panic is
caught, a waiter wakes up for no reason, the mutex is poisoned). -/
namespace Relon.Host.TopLevelRun
open Option

/-- Where a thread is. `held` says that the call was made from inside a run of the thread's
own, whose guard is then alive further up its stack. -/
inductive Place
  /-- No call in progress and no guard. -/
  | outside
  /-- In `begin_top_level_run`, about to lock the slot, or to lock it again inside `wait`. -/
  | calling (held : Bool)
  /-- At the head of `while let Some(owner) = *slot`, the slot locked. -/
  | inspecting (held : Bool)
  /-- In `top_level_run_cv.wait`, the slot unlocked. -/
  | waiting (held : Bool)
  /-- Past `*slot = Some(me)`, the slot still locked. -/
  | granted
  /-- Past `drop(slot)`, unwinding from the re-entry panic. -/
  | panicking (held : Bool)
  /-- The guard is alive and an evaluation runs under it. -/
  | running
  /-- In the guard's `drop`, about to lock the slot. -/
  | dropping
  /-- In the guard's `drop`, the slot locked. -/
  | clearing
  /-- In the guard's `drop`, the slot empty and unlocked, before `notify_all`. -/
  | notifying
  deriving DecidableEq

/-- The thread holds the mutex of the slot. -/
def Place.locked : Place → Bool
  | .inspecting _ | .granted | .clearing => true
  | _ => false

/-- The thread has a guard that has not released the slot. -/
def Place.guarded : Place → Bool
  | .calling held | .inspecting held | .waiting held | .panicking held => held
  | .granted | .running | .dropping | .clearing => true
  | .outside | .notifying => false

/-- What `notify_all` does to a thread: a waiter goes on to lock the slot again. -/
def Place.woken : Place → Place
  | .waiting held => .calling held
  | place => place

@[simp] theorem Place.woken_locked (place : Place) : place.woken.locked = place.locked := by
  cases place <;> rfl

@[simp] theorem Place.woken_guarded (place : Place) : place.woken.guarded = place.guarded := by
  cases place <;> rfl

theorem Place.woken_not_waiting (place : Place) (held : Bool) : place.woken ≠ .waiting held := by
  cases place <;> simp [Place.woken]

/-- The slot of one `Context`, its mutex and the threads that use it. -/
structure State (Thread : Type) where
  mutex : Option Thread
  poisoned : Bool
  slot : Option Thread
  place : Thread → Place

variable {Thread : Type} [DecidableEq Thread]

/-- A new `Context`. -/
def State.start : State Thread := ⟨none, false, none, fun _ => .outside⟩

/-- The thread moves to another place. -/
def State.at (s : State Thread) (t : Thread) (place : Place) : State Thread :=
  { s with place := Function.update s.place t place }

@[simp] theorem State.at_mutex (s : State Thread) (t : Thread) (place : Place) :
    (s.at t place).mutex = s.mutex := rfl

@[simp] theorem State.at_slot (s : State Thread) (t : Thread) (place : Place) :
    (s.at t place).slot = s.slot := rfl

@[simp] theorem State.at_place (s : State Thread) (t u : Thread) (place : Place) :
    (s.at t place).place u = if u = t then place else s.place u := by
  simp [State.at, Function.update_apply]

/-- `lock().unwrap_or_else(PoisonError::into_inner)`: a poisoned mutex hands out its data as
any other does, so only a mutex that is held keeps the thread where it is. -/
def State.lock (s : State Thread) (t : Thread) : Option (State Thread) :=
  match s.mutex with
  | none => some { s with mutex := some t }
  | some _ => none

/-- The next access of a thread's own code. A thread that waits, evaluates or is outside has
none. -/
def advance (s : State Thread) (t : Thread) : Option (State Thread) :=
  match s.place t with
  | .calling held => (s.lock t).map (·.at t (.inspecting held))
  | .inspecting held =>
    match s.slot with
    | none => some ({ s with slot := some t }.at t .granted)
    | some owner =>
      if owner = t then some ({ s with mutex := none }.at t (.panicking held))
      else some ({ s with mutex := none }.at t (.waiting held))
  | .granted => some ({ s with mutex := none }.at t .running)
  -- the unwind drops the guard of the outer run, if there is one
  | .panicking held => some (s.at t (if held then .dropping else .outside))
  | .dropping => (s.lock t).map (·.at t .clearing)
  | .clearing => some ({ s with slot := none, mutex := none }.at t .notifying)
  | .notifying => some ({ s with place := fun u => (s.place u).woken }.at t .outside)
  | .outside | .waiting _ | .running => none

/-- What moves a thread. -/
inductive Move
  | advance
  /-- A host calls `eval_root` or `run_main`, from outside or from inside a run. -/
  | call
  /-- The evaluation returns, fails or unwinds, and its guard is dropped. -/
  | finish
  /-- A host function catches the re-entry panic, and the outer run goes on. -/
  | caught
  /-- The wait ends without a notification. -/
  | wake
  /-- A thread panics with the slot locked. -/
  | poison
  deriving DecidableEq

/-- One move of one thread, if the thread can make it. -/
def step (s : State Thread) (t : Thread) : Move → Option (State Thread)
  | .advance => advance s t
  | .call =>
    match s.place t with
    | .outside => some (s.at t (.calling false))
    | .running => some (s.at t (.calling true))
    | _ => none
  | .finish => if s.place t = .running then some (s.at t .dropping) else none
  | .caught => if s.place t = .panicking true then some (s.at t .running) else none
  | .wake =>
    match s.place t with
    | .waiting held => some (s.at t (.calling held))
    | _ => none
  | .poison => some { s with poisoned := true }

/-- An interleaving: the moves in the order they happen. -/
def run : List (Thread × Move) → State Thread → Option (State Thread)
  | [], s => some s
  | (t, move) :: moves, s => (step s t move).bind (run moves)

/-! ### The invariant -/

/-- What holds between any two accesses. -/
structure Safe (s : State Thread) : Prop where
  mutex : ∀ t, s.mutex = some t ↔ (s.place t).locked = true
  slot : ∀ t, s.slot = some t ↔ (s.place t).guarded = true
  /-- Whoever waits at an empty slot is about to be notified. -/
  alert : ∀ t held, s.place t = .waiting held → s.slot = none → ∃ u, s.place u = .notifying
  /-- Only a call from outside waits, and only a call from inside panics. -/
  patient : ∀ t, s.place t ≠ .waiting true
  nested : ∀ t, s.place t ≠ .panicking false

omit [DecidableEq Thread] in
theorem Safe.start : Safe (State.start : State Thread) where
  mutex t := by simp [State.start, Place.locked]
  slot t := by simp [State.start, Place.guarded]
  alert t held waits := by simp [State.start] at waits
  patient t := by simp [State.start]
  nested t := by simp [State.start]

omit [DecidableEq Thread] in
theorem Safe.poison {s : State Thread} (safe : Safe s) (flag : Bool) :
    Safe { s with poisoned := flag } :=
  ⟨safe.mutex, safe.slot, safe.alert, safe.patient, safe.nested⟩

theorem Safe.move {s : State Thread} {t : Thread} {mutex slot : Option Thread} {place : Place}
    (safe : Safe s) (mutex_self : mutex = some t ↔ place.locked = true)
    (mutex_others : ∀ u, u ≠ t → (mutex = some u ↔ s.mutex = some u))
    (slot_self : slot = some t ↔ place.guarded = true)
    (slot_others : ∀ u, u ≠ t → (slot = some u ↔ s.slot = some u))
    (patient : place ≠ .waiting true) (nested : place ≠ .panicking false)
    (waits : ∀ held, place = .waiting held → slot ≠ none)
    (empties : slot = none → place = .notifying ∨ s.slot = none ∧ s.place t ≠ .notifying) :
    Safe ({ s with mutex := mutex, slot := slot }.at t place) where
  mutex u := by
    by_cases same : u = t
    · simpa [same] using mutex_self
    · simpa [same] using (mutex_others u same).trans (safe.mutex u)
  slot u := by
    by_cases same : u = t
    · simpa [same] using slot_self
    · simpa [same] using (slot_others u same).trans (safe.slot u)
  alert u held waiting empty := by
    have empty : slot = none := empty
    by_cases same : u = t
    · exact absurd empty (waits held (by simpa [same] using waiting))
    · rcases empties empty with rfl | ⟨before, busy⟩
      · exact ⟨t, by simp⟩
      · obtain ⟨v, notifies⟩ := safe.alert u held (by simpa [same] using waiting) before
        have other : v ≠ t := fun eq => busy (eq ▸ notifies)
        exact ⟨v, by simpa [other] using notifies⟩
  patient u := by
    by_cases same : u = t
    · simpa [same] using patient
    · simpa [same] using safe.patient u
  nested u := by
    by_cases same : u = t
    · simpa [same] using nested
    · simpa [same] using safe.nested u

omit [DecidableEq Thread] in
/-- A thread that holds the mutex is the only one. -/
theorem Safe.mutex_eq {s : State Thread} (safe : Safe s) {t : Thread}
    (locked : (s.place t).locked = true) : s.mutex = some t := (safe.mutex t).mpr locked

omit [DecidableEq Thread] in
theorem Safe.slot_eq {s : State Thread} (safe : Safe s) {t : Thread}
    (guarded : (s.place t).guarded = true) : s.slot = some t := (safe.slot t).mpr guarded

/-- A move that neither locks nor releases anything. -/
theorem Safe.stay {s : State Thread} {t : Thread} {was place : Place} (safe : Safe s)
    (here : s.place t = was) (locked : place.locked = was.locked)
    (guarded : place.guarded = was.guarded) (waits : ∀ held, place ≠ .waiting held)
    (nested : place ≠ .panicking false) (busy : was ≠ .notifying) : Safe (s.at t place) := by
  subst here
  refine safe.move ?_ (fun _ _ => Iff.rfl) ?_ (fun _ _ => Iff.rfl) (waits true) nested
    (fun held eq => absurd eq (waits held)) (fun empty => .inr ⟨empty, busy⟩)
  · rw [locked]
    exact safe.mutex t
  · rw [guarded]
    exact safe.slot t

/-- A move that takes the free mutex. -/
theorem Safe.lock {s s' : State Thread} {t : Thread} {was place : Place} (safe : Safe s)
    (here : s.place t = was) (taken : (s.lock t).map (·.at t place) = some s')
    (locked : place.locked = true) (guarded : place.guarded = was.guarded)
    (waits : ∀ held, place ≠ .waiting held) (nested : place ≠ .panicking false)
    (busy : was ≠ .notifying) : Safe s' := by
  subst here
  cases free : s.mutex with
  | some u => simp [State.lock, free] at taken
  | none =>
    simp only [State.lock, free, map_some, Option.some.injEq] at taken
    rw [← taken]
    refine safe.move ?_ ?_ ?_ (fun _ _ => Iff.rfl) (waits true) nested ?_ ?_
    · simp [locked]
    · intro u other
      simp [free, other.symm]
    · rw [guarded]
      exact safe.slot t
    · intro held eq
      exact absurd eq (waits held)
    · intro empty
      exact .inr ⟨empty, busy⟩

/-- A move that releases the mutex. -/
theorem Safe.unlock {s : State Thread} {t : Thread} {was place : Place} (safe : Safe s)
    (here : s.place t = was) (holder : was.locked = true) (locked : place.locked = false)
    (guarded : place.guarded = was.guarded) (patient : place ≠ .waiting true)
    (nested : place ≠ .panicking false) (owned : s.slot ≠ none) :
    Safe ({ s with mutex := none }.at t place) := by
  subst here
  refine safe.move ?_ ?_ ?_ (fun _ _ => Iff.rfl) patient nested ?_ ?_
  · simp [locked]
  · intro u other
    simp [safe.mutex_eq holder, other.symm]
  · rw [guarded]
    exact safe.slot t
  · intro held eq
    exact owned
  · intro empty
    exact absurd empty owned

/-- `notify_all` leaves nobody waiting. -/
theorem Safe.notify {s : State Thread} {t : Thread} (safe : Safe s)
    (notifies : s.place t = .notifying) :
    Safe ({ s with place := fun u => (s.place u).woken }.at t .outside) where
  mutex u := by
    by_cases same : u = t
    · simpa [same, notifies, Place.locked] using safe.mutex t
    · simpa [same] using safe.mutex u
  slot u := by
    by_cases same : u = t
    · simpa [same, notifies, Place.guarded] using safe.slot t
    · simpa [same] using safe.slot u
  alert u held waiting := by
    by_cases same : u = t
    · simp [same] at waiting
    · simp [same, Place.woken_not_waiting] at waiting
  patient u := by
    by_cases same : u = t
    · simp [same]
    · simp [same, Place.woken_not_waiting]
  nested u := by
    by_cases same : u = t
    · simp [same]
    · have before := safe.nested u
      cases place : s.place u <;> simp_all [Place.woken]

/-- The code's own moves keep the invariant. -/
theorem advance_safe {s s' : State Thread} {t : Thread} (safe : Safe s)
    (moved : advance s t = some s') : Safe s' := by
  unfold advance at moved
  split at moved
  next held place =>
    exact safe.lock place moved rfl rfl (by simp) (by simp) (by simp)
  next held place =>
    split at moved
    next empty =>
      cases moved
      have holder : s.mutex = some t := safe.mutex_eq (by rw [place]; rfl)
      refine safe.move (by simp [holder, Place.locked]) (fun _ _ => Iff.rfl)
        (by simp [Place.guarded]) ?_ (by simp) (by simp) (by simp) (by simp)
      intro u other
      simp [empty, other.symm]
    next owner taken =>
      split at moved
      next self =>
        cases moved
        have mine : (s.place t).guarded = true := (safe.slot t).mp (self ▸ taken)
        obtain rfl : held = true := by simpa [place, Place.guarded] using mine
        exact safe.unlock place rfl rfl rfl (by simp) (by simp) (by simp [taken])
      next other =>
        cases moved
        have foreign : (s.place t).guarded ≠ true := fun mine =>
          other (Option.some.inj (taken.symm.trans (safe.slot_eq mine)))
        obtain rfl : held = false := by simpa [place, Place.guarded] using foreign
        exact safe.unlock place rfl rfl rfl (by simp) (by simp) (by simp [taken])
  next place =>
    cases moved
    have owned : s.slot = some t := safe.slot_eq (by rw [place]; rfl)
    exact safe.unlock place rfl rfl rfl (by simp) (by simp) (by simp [owned])
  next held place =>
    cases moved
    cases held with
    | false => exact absurd place (safe.nested t)
    | true =>
      exact safe.stay place rfl rfl (by simp) (by simp) (by simp)
  next place =>
    exact safe.lock place moved rfl rfl (by simp) (by simp) (by simp)
  next place =>
    cases moved
    have holder : s.mutex = some t := safe.mutex_eq (by rw [place]; rfl)
    have owned : s.slot = some t := safe.slot_eq (by rw [place]; rfl)
    refine safe.move (by simp [Place.locked]) ?_ (by simp [Place.guarded]) ?_ (by simp) (by simp)
      (by simp) (fun _ => .inl rfl)
    · intro u other
      simp [holder, other.symm]
    · intro u other
      simp [owned, other.symm]
  next place =>
    cases moved
    exact safe.notify place
  all_goals cases moved

/-- So do all others. -/
theorem step_safe {s s' : State Thread} {t : Thread} {move : Move} (safe : Safe s)
    (moved : step s t move = some s') : Safe s' := by
  cases move with
  | advance => exact advance_safe safe moved
  | poison =>
    cases moved
    exact safe.poison true
  | call =>
    simp only [step] at moved
    split at moved
    next place =>
      cases moved
      exact safe.stay place rfl rfl (by simp) (by simp) (by simp)
    next place =>
      cases moved
      exact safe.stay place rfl rfl (by simp) (by simp) (by simp)
    next => cases moved
  | finish =>
    simp only [step, ite_none_right_eq_some, Option.some.injEq] at moved
    obtain ⟨place, rfl⟩ := moved
    exact safe.stay place rfl rfl (by simp) (by simp) (by simp)
  | caught =>
    simp only [step, ite_none_right_eq_some, Option.some.injEq] at moved
    obtain ⟨place, rfl⟩ := moved
    exact safe.stay place rfl rfl (by simp) (by simp) (by simp)
  | wake =>
    simp only [step] at moved
    split at moved
    next held place =>
      cases moved
      exact safe.stay place rfl rfl (by simp) (by simp) (by simp)
    next => cases moved

theorem run_safe {s s' : State Thread} {moves : List (Thread × Move)} (safe : Safe s)
    (ran : run moves s = some s') : Safe s' := by
  induction moves generalizing s with
  | nil => exact Option.some.inj ran ▸ safe
  | cons head moves ih =>
    obtain ⟨middle, moved, rest⟩ := bind_eq_some_iff.mp ran
    exact ih (step_safe safe moved) rest

/-! ### Exclusive runs -/

omit [DecidableEq Thread] in
/-- No two threads have a guard. -/
theorem Safe.exclusive {s : State Thread} (safe : Safe s) {t u : Thread}
    (first : (s.place t).guarded = true) (second : (s.place u).guarded = true) : t = u :=
  Option.some.inj ((safe.slot_eq first).symm.trans (safe.slot_eq second))

/-- A call from inside a run, once it has the mutex, lets go of it and panics; the slot keeps
its owner. -/
theorem Safe.reentry {s : State Thread} (safe : Safe s) {t : Thread}
    (again : s.place t = .inspecting true) :
    ∃ s', advance s t = some s' ∧ s'.place t = .panicking true ∧ s'.mutex = none ∧
      s'.slot = some t := by
  have mine : s.slot = some t := safe.slot_eq (by rw [again]; rfl)
  refine ⟨{ s with mutex := none }.at t (.panicking true), ?_, by simp, rfl, mine⟩
  simp [advance, again, mine]

/-- At an empty slot the holder of the mutex is about to take it. -/
theorem Safe.taker {s : State Thread} (safe : Safe s) {u : Thread} (empty : s.slot = none)
    (holder : s.mutex = some u) : ∃ s', advance s u = some s' ∧ s'.slot = some u := by
  have locked := (safe.mutex u).mp holder
  have free : (s.place u).guarded ≠ true := fun mine => by
    have taken := safe.slot_eq mine
    simp [empty] at taken
  cases place : s.place u with
  | inspecting held =>
    exact ⟨{ s with slot := some u }.at u .granted, by simp [advance, place, empty], rfl⟩
  | granted => simp [place, Place.guarded] at free
  | clearing => simp [place, Place.guarded] at free
  | _ => simp [place, Place.locked] at locked

/-- A caller that finds the mutex free and the slot empty takes the slot. -/
theorem calling_takes {s : State Thread} {t : Thread} {held : Bool}
    (calls : s.place t = .calling held) (free : s.mutex = none) (empty : s.slot = none) :
    ∃ s', run [(t, .advance), (t, .advance)] s = some s' ∧ s'.slot = some t := by
  let locked := { s with mutex := some t }.at t (.inspecting held)
  have first : step s t .advance = some locked := by
    simp [step, advance, calls, State.lock, free, locked]
  have second : step locked t .advance = some ({ locked with slot := some t }.at t .granted) := by
    simp [step, advance, locked, empty]
  exact ⟨{ locked with slot := some t }.at t .granted, by simp [run, first, second], rfl⟩

/-- `notify_all` sends a waiter on to lock the slot again. -/
theorem notifying_wakes {s : State Thread} {t u : Thread} {held : Bool}
    (notifies : s.place u = .notifying) (waits : s.place t = .waiting held) (other : u ≠ t) :
    ∃ s', advance s u = some s' ∧ s'.place t = .calling held ∧ s'.mutex = s.mutex ∧
      s'.slot = s.slot := by
  refine ⟨{ s with place := fun v => (s.place v).woken }.at u .outside, ?_, ?_, rfl, rfl⟩
  · simp [advance, notifies]
  · simp [other.symm, waits, Place.woken]

/-- In every state that any number of threads can bring a `Context` into, by any interleaving
of calls, ends of runs, caught panics, spurious wake-ups and poisonings:
* at most one thread has a guard,
* the slot names exactly the thread that has it,
* a call from inside a run never waits: once it has the mutex, it releases it and panics, and
  the slot keeps its owner,
* a thread that waits while the slot is empty is woken by the next move of another thread, and
  from there takes the slot if the mutex is free; if it is not, its holder takes the slot. -/
theorem begin_top_level_run_exclusive (moves : List (Thread × Move)) (s : State Thread)
    (ran : run moves State.start = some s) :
    (∀ t u, (s.place t).guarded = true → (s.place u).guarded = true → t = u) ∧
      (∀ t, s.slot = some t ↔ (s.place t).guarded = true) ∧
      (∀ t, s.place t ≠ .waiting true ∧ (s.place t = .inspecting true →
        ∃ s', advance s t = some s' ∧ s'.place t = .panicking true ∧ s'.mutex = none ∧
          s'.slot = some t)) ∧ (∀ t held, s.place t = .waiting held → s.slot = none →
        (∃ u s', u ≠ t ∧ advance s u = some s' ∧ s'.place t = .calling held) ∧
        (s.mutex = none → ∃ u s',
          run [(u, .advance), (t, .advance), (t, .advance)] s = some s' ∧ s'.slot = some t) ∧
        ∀ u, s.mutex = some u → ∃ s', advance s u = some s' ∧ s'.slot = some u) := by
  have safe : Safe s := run_safe Safe.start ran
  refine ⟨fun t u => safe.exclusive, safe.slot, fun t => ⟨safe.patient t, safe.reentry⟩, ?_⟩
  intro t held waits empty
  obtain ⟨u, notifies⟩ := safe.alert t held waits empty
  have other : u ≠ t := fun eq => by simp [eq, waits] at notifies
  obtain ⟨s', moved, calls, mutex, slot⟩ := notifying_wakes notifies waits other
  refine ⟨⟨u, s', other, moved, calls⟩, ?_, fun _ => safe.taker empty⟩
  intro free
  obtain ⟨last, ran', taken⟩ := calling_takes calls (mutex.trans free) (slot.trans empty)
  refine ⟨u, last, ?_, taken⟩
  rw [run, step, moved, bind_some, ran']

/-- Two threads: one is refused re-entry and unwinds while the other has begun to wait. -/
def contended : List (Bool × Move) :=
  [(true, .call), (true, .advance), (true, .advance), (true, .advance),
    (false, .call), (false, .advance), (false, .advance),
    (true, .call), (true, .advance), (true, .advance), (true, .advance),
    (true, .advance), (true, .advance)]

/-- The thread left waiting is woken and takes the slot. -/
theorem contended_waiter_takes :
    ∃ s u s', run contended State.start = some s ∧ s.place false = .waiting false ∧
      s.slot = none ∧ run [(u, .advance), (false, .advance), (false, .advance)] s = some s' ∧
      s'.slot = some false := by
  obtain ⟨u, s', ran, taken⟩ :=
    ((begin_top_level_run_exclusive contended ((run contended State.start).getD State.start) rfl
      ).2.2.2 false false rfl rfl).2.1 rfl
  exact ⟨_, u, s', rfl, rfl, rfl, ran, taken⟩

/-! ### Going on -/

/-- Whoever holds the mutex can go on. -/
theorem Safe.mutex_free {s : State Thread} (safe : Safe s) (blocked : ∀ t, advance s t = none) :
    s.mutex = none := by
  cases holder : s.mutex with
  | none => rfl
  | some u =>
    have locked := (safe.mutex u).mp holder
    have stays := blocked u
    cases place : s.place u with
    | inspecting held =>
      simp only [advance, place] at stays
      split at stays
      · cases stays
      · split at stays <;> cases stays
    | granted => simp [advance, place] at stays
    | clearing => simp [advance, place] at stays
    | _ => simp [place, Place.locked] at locked

/-- In no state that an interleaving leads to are the threads stuck: all are outside, an evaluation
runs, or the code of some thread can go on. -/
theorem never_stuck (moves : List (Thread × Move)) (s : State Thread)
    (ran : run moves State.start = some s) :
    (∀ t, s.place t = .outside) ∨ (∃ t, s.place t = .running) ∨ ∃ t s', advance s t = some s' := by
  have safe : Safe s := run_safe Safe.start ran
  by_contra stuck
  obtain ⟨⟨t, busy⟩, calm, blocked⟩ : (∃ t, s.place t ≠ .outside) ∧
      (∀ t, s.place t ≠ .running) ∧ ∀ t, advance s t = none := by
    simpa [not_or, Option.eq_none_iff_forall_ne_some] using stuck
  have free := safe.mutex_free blocked
  have waits : ∀ u, s.place u ≠ .outside → s.place u = .waiting false := by
    intro u away
    have stays := blocked u
    cases place : s.place u with
    | waiting held =>
      cases held with
      | false => rfl
      | true => exact absurd place (safe.patient u)
    | inspecting held => simpa [free, place, Place.locked] using safe.mutex u
    | running => exact absurd place (calm u)
    | outside => exact absurd place away
    | _ => simp [advance, place, State.lock, free] at stays
  -- a waiter needs an owner of the slot or a notifier, and both would be away and not waiting
  cases slot : s.slot with
  | none =>
    obtain ⟨u, notifies⟩ := safe.alert t false (waits t busy) slot
    simpa [notifies] using waits u
  | some u =>
    have guarded := (safe.slot u).mp slot
    by_cases away : s.place u = .outside
    · simp [away, Place.guarded] at guarded
    · simp [waits u away, Place.guarded] at guarded

/-- The waiter does not wait for nothing. -/
theorem contended_not_stuck : ∃ s, run contended State.start = some s ∧
    ((∀ t, s.place t = .outside) ∨ (∃ t, s.place t = .running) ∨ ∃ t s', advance s t = some s') :=
  ⟨_, rfl, never_stuck contended ((run contended State.start).getD State.start) rfl⟩

end Relon.Host.TopLevelRun
