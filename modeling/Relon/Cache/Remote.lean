import Mathlib.Data.List.Induction
import Relon.Abi.Value

/-! The cache of remote imports (`RemoteImportCache` in `module.rs`), on one URL.

A body and its sidecar are two files, written one after the other and not renamed into place.
A load compares the body with the digest in the sidecar, so that it never returns the validators
of another body, whatever other processes have done between its reads. A body without a sidecar
is not compared with anything: it gets a sidecar of its own, also where a store was cut short. -/
namespace Relon.Cache.Remote
open List Option
open Abi (utf8Bytes utf8Decode)

structure RemoteCacheMeta where
  etag : Option String
  lastModified : Option String
  fetchedAt : Nat
  bodySha256 : String
  deriving DecidableEq

structure CachedEntry where
  body : String
  sidecar : RemoteCacheMeta
  fresh : Bool
  deriving DecidableEq

/-- The files that are written: `body_path` and `meta_path`. -/
inductive File where
  | body | sidecar

inductive Op where
  | write (file : File) (data : List UInt8)
  | remove (file : File)

/-- A call in progress: the next read of a load, or what is left to do once nothing more is read. -/
inductive Task where
  | bodyExists
  | readBody
  | readMeta (body : String)
  | legacyExists
  | readLegacy
  | finish (ops : List Op) (found : Option (String × RemoteCacheMeta))

structure Files where
  body : Option (List UInt8)
  sidecar : Option (List UInt8)

def Files.put (files : Files) (data : Option (List UInt8)) : File → Files
  | .body => { files with body := data }
  | .sidecar => { files with sidecar := data }

def Files.after (files : Files) : Task → Files
  | .finish (.write file data :: _) _ => files.put (some data) file
  | .finish (.remove file :: _) _ => files.put none file
  | _ => files

/-- A cache as it is found, with the text format of its sidecars: what is read from the start of a
text is what was written, because no part of the text of a JSON object before its last brace is
one. -/
structure RemoteImportCache where
  legacy : Option (List UInt8) -- the file of an older version, which no call changes
  ttl : Nat -- in nanoseconds
  bodyDigest : String → String
  encode : RemoteCacheMeta → List UInt8
  decode : List UInt8 → Option RemoteCacheMeta
  collisionFree : Function.Injective bodyDigest
  decode_part : ∀ {m m' part}, part <+: encode m → decode part = some m' → m' = m

namespace RemoteImportCache
variable (self : RemoteImportCache)

def writeMeta (m : RemoteCacheMeta) : Op := .write .sidecar (self.encode m)

/-- The sidecar of a body that has none, or only the file of an older version. -/
def bareMeta (body : String) (fetchedAt : Nat) : RemoteCacheMeta :=
  ⟨none, none, fetchedAt, self.bodyDigest body⟩

/-- The end of a load with a body and a sidecar, which may still have to be written. -/
def compare (body : String) (m : RemoteCacheMeta) (ops : List Op) : Task :=
  if self.bodyDigest body ≠ m.bodySha256 then .finish (ops ++ [.remove .body, .remove .sidecar]) none
  else .finish ops (some (body, m))

/-- `load`, read by read. -/
def next (files : Files) (now : Nat) : Task → Task
  | .bodyExists => if files.body.isSome then .readBody else .legacyExists
  | .readBody =>
    match files.body.bind utf8Decode with
    | none => .finish [] none
    | some body => .readMeta body
  | .readMeta body =>
    match files.sidecar.bind self.decode with
    | none => self.compare body (self.bareMeta body now) [self.writeMeta (self.bareMeta body now)]
    | some m => self.compare body m []
  | .legacyExists => if self.legacy.isSome then .readLegacy else .finish [] none
  | .readLegacy =>
    match self.legacy.bind utf8Decode with
    | none => .finish [] none
    -- the clock is here the time the legacy file was changed at, where that is known
    | some body => .finish [.write .body (utf8Bytes body), self.writeMeta (self.bareMeta body now)]
      (some (body, self.bareMeta body now))
  | .finish [] _ => .finish [] none
  | .finish (_ :: ops) found => .finish ops found

/-- What a call returns. -/
def entry (now : Nat) : Task → Option CachedEntry
  | .finish [] (some (body, m)) => some ⟨body, m, decide ((now - m.fetchedAt) * 10 ^ 9 < self.ttl)⟩
  | _ => none

def store (body : String) (etag lastModified : Option String) (now : Nat) : Task :=
  .finish [.write .body (utf8Bytes body),
    self.writeMeta ⟨etag, lastModified, now, self.bodyDigest body⟩] none

def refresh (existing : RemoteCacheMeta) (newEtag newLastModified : Option String) (now : Nat) : Task :=
  .finish [self.writeMeta ⟨newEtag.or existing.etag, newLastModified.or existing.lastModified, now,
    existing.bodySha256⟩] none

end RemoteImportCache

/-! ### Histories -/

/-- A call of `store`, or one of `refresh` with the body of the entry it is given. -/
structure Call where
  stores : Bool
  body : String
  etag : Option String
  lastModified : Option String

/-- The body was given to a store, or is what the legacy file holds. -/
def Whole (cache : RemoteImportCache) (calls : List Call) (body : String) : Prop :=
  (∃ call ∈ calls, call.stores = true ∧ call.body = body) ∨ cache.legacy.bind utf8Decode = some body

instance (cache : RemoteImportCache) (calls : List Call) (body : String) :
    Decidable (Whole cache calls body) := inferInstanceAs (Decidable (_ ∨ _))

structure System where
  files : Files
  tasks : List Task
  returned : List CachedEntry
  calls : List Call
  torn : Bool -- some load has made a sidecar for a body that is not whole

inductive Step where
  | store (body : String) (etag lastModified : Option String) (now : Nat)
  | load
  -- with an entry that a load has returned
  | refresh (entry : Nat) (etag lastModified : Option String) (now : Nat)
  -- a task's next operation
  | act (task now : Nat)
  -- a part of the write a task is at, where it may stop for good
  | part (task n : Nat)

namespace RemoteImportCache
variable (self : RemoteImportCache)

/-- A load is about to make a sidecar for a body that is not whole. -/
def tears (s : System) : Task → Bool
  | .readMeta body => (s.files.sidecar.bind self.decode).isNone && !decide (Whole self s.calls body)
  | _ => false

def step (s : System) : Step → System
  | .store body etag lastModified now => { s with
      calls := s.calls ++ [⟨true, body, etag, lastModified⟩]
      tasks := s.tasks ++ [self.store body etag lastModified now] }
  | .load => { s with tasks := s.tasks ++ [.bodyExists] }
  | .refresh entry etag lastModified now =>
    match s.returned[entry]? with
    | none => s
    | some e => { s with
        calls := s.calls ++ [⟨false, e.body, etag, lastModified⟩]
        tasks := s.tasks ++ [self.refresh e.sidecar etag lastModified now] }
  | .act task now =>
    match s.tasks[task]? with
    | none => s
    | some t => { s with
        files := s.files.after t
        tasks := s.tasks.set task (self.next s.files now t)
        returned := s.returned ++ (self.entry now t).toList
        torn := s.torn || self.tears s t }
  | .part task n =>
    match s.tasks[task]? with
    | some (.finish (.write file data :: _) _) => { s with
        files := s.files.put (some (data.take n)) file }
    | _ => s

/-- A history from a cache without a body and a sidecar. -/
def run (steps : List Step) : System := steps.foldl self.step ⟨⟨none, none⟩, [], [], [], false⟩

end RemoteImportCache

/-! ### What a sidecar may say -/

/-- The validator, if there is one, was stored for the body or refreshed onto it. -/
def Validates (calls : List Call) (body : String) (given : Call → Option String) (v : Option String) :
    Prop :=
  ∀ x, v = some x → ∃ call ∈ calls, call.body = body ∧ given call = some x

/-- The sidecar is one of this body. -/
structure Describes (cache : RemoteImportCache) (calls : List Call) (m : RemoteCacheMeta)
    (body : String) : Prop where
  digest : m.bodySha256 = cache.bodyDigest body
  whole : Whole cache calls body
  etag : Validates calls body Call.etag m.etag
  lastModified : Validates calls body Call.lastModified m.lastModified

/-- Only sidecars of whole bodies are written to the file of sidecars. -/
def Op.Safe (cache : RemoteImportCache) (calls : List Call) : Op → Prop
  | .write .sidecar data => ∃ m body, data = cache.encode m ∧ Describes cache calls m body
  | _ => True

def Task.Safe (cache : RemoteImportCache) (calls : List Call) : Task → Prop
  | .finish ops found =>
    (∀ op ∈ ops, op.Safe cache calls) ∧ ∀ e ∈ found, Describes cache calls e.2 e.1
  | _ => True

variable {cache : RemoteImportCache} {calls : List Call} {m : RemoteCacheMeta} {body : String}
  {s : System} {t : Task} {now : Nat}

theorem forall_mem_pair {p : Op → Prop} {a b : Op} : (∀ op ∈ [a, b], p op) ↔ p a ∧ p b := by
  rw [forall_mem_cons, forall_mem_singleton]

theorem describes_bare (whole : Whole cache calls body) (now : Nat) :
    Describes cache calls (cache.bareMeta body now) body :=
  ⟨rfl, whole, nofun, nofun⟩

theorem safe_writeMeta (describes : Describes cache calls m body) :
    (cache.writeMeta m).Safe cache calls :=
  ⟨m, body, rfl, describes⟩

theorem Validates.or {call : Call} {given : Call → Option String} {old : Option String}
    (mem : call ∈ calls) (validates : Validates calls call.body given old) :
    Validates calls call.body given ((given call).or old) := by
  intro x some_
  rcases or_eq_some_iff.mp some_ with new | ⟨-, old⟩
  · exact ⟨call, mem, rfl, new⟩
  · exact validates x old

theorem safe_store {etag lastModified : Option String}
    (mem : ⟨true, body, etag, lastModified⟩ ∈ calls) (now : Nat) :
    (cache.store body etag lastModified now).Safe cache calls := by
  have describes : Describes cache calls ⟨etag, lastModified, now, cache.bodyDigest body⟩ body :=
    ⟨rfl, .inl ⟨_, mem, rfl, rfl⟩, fun _ tag => ⟨_, mem, rfl, tag⟩, fun _ date => ⟨_, mem, rfl, date⟩⟩
  exact ⟨forall_mem_pair.mpr ⟨trivial, safe_writeMeta describes⟩, nofun⟩

theorem safe_refresh {call : Call} (describes : Describes cache calls m call.body)
    (mem : call ∈ calls) (now : Nat) :
    (cache.refresh m call.etag call.lastModified now).Safe cache calls := by
  have refreshed : Describes cache calls ⟨call.etag.or m.etag, call.lastModified.or m.lastModified,
      now, m.bodySha256⟩ call.body :=
    ⟨describes.digest, describes.whole, describes.etag.or mem, describes.lastModified.or mem⟩
  exact ⟨forall_mem_singleton.mpr (safe_writeMeta refreshed), nofun⟩

/-- The digest of a sidecar says which body it is of. -/
theorem safe_compare {whose : String} {ops : List Op} (describes : Describes cache calls m whose)
    (safe : ∀ op ∈ ops, op.Safe cache calls) : (cache.compare body m ops).Safe cache calls := by
  unfold RemoteImportCache.compare
  split
  · exact ⟨forall_mem_append.mpr ⟨safe, forall_mem_pair.mpr ⟨trivial, trivial⟩⟩, nofun⟩
  · rename_i same
    rw [ne_eq, not_not, describes.digest] at same
    obtain rfl := cache.collisionFree same
    exact ⟨safe, fun e found => some_inj.mp found ▸ describes⟩

/-- The state of a system, by the calls of its whole history. -/
structure Sound (cache : RemoteImportCache) (calls : List Call) (s : System) : Prop where
  sidecar : ∀ data m, s.files.sidecar = some data → cache.decode data = some m →
    ∃ body, Describes cache calls m body
  tasks : ∀ t ∈ s.tasks, t.Safe cache calls
  returned : ∀ e ∈ s.returned, Describes cache calls e.sidecar e.body

theorem Whole.mono {calls' : List Call} (within : calls ⊆ calls') (whole : Whole cache calls body) :
    Whole cache calls' body :=
  whole.imp_left fun ⟨call, mem, given⟩ => ⟨call, within mem, given⟩

/-! ### One step -/

theorem Sound.next (sound : Sound cache calls s)
    (within : s.calls ⊆ calls) (safe : t.Safe cache calls) (quiet : cache.tears s t = false) :
    (cache.next s.files now t).Safe cache calls := by
  cases t with
  | bodyExists => dsimp only [RemoteImportCache.next]; split <;> trivial
  | readBody => dsimp only [RemoteImportCache.next]; split <;> [exact ⟨nofun, nofun⟩; trivial]
  | legacyExists => dsimp only [RemoteImportCache.next]; split <;> [trivial; exact ⟨nofun, nofun⟩]
  | readMeta body =>
    dsimp only [RemoteImportCache.tears] at quiet
    dsimp only [RemoteImportCache.next]
    split
    · rename_i missing
      have whole : Whole cache s.calls body := by simpa [missing] using quiet
      have describes := @describes_bare cache _ _ (whole.mono within) now
      exact safe_compare describes (forall_mem_singleton.mpr (safe_writeMeta describes))
    · rename_i m found
      obtain ⟨data, held, decoded⟩ := bind_eq_some_iff.mp found
      obtain ⟨whose, describes⟩ := sound.sidecar data m held decoded
      exact safe_compare describes nofun
  | readLegacy =>
    dsimp only [RemoteImportCache.next]
    split
    · exact ⟨nofun, nofun⟩
    · rename_i body read
      have describes := @describes_bare cache calls body (.inr read) now
      refine ⟨forall_mem_pair.mpr ⟨trivial, safe_writeMeta describes⟩, fun e found => ?_⟩
      exact some_inj.mp found ▸ describes
  | finish ops found =>
    cases ops with
    | nil => exact ⟨nofun, nofun⟩
    | cons op ops => exact ⟨(forall_mem_cons.mp safe.1).2, safe.2⟩

theorem Task.Safe.entry {e : CachedEntry} (safe : t.Safe cache calls)
    (returned : cache.entry now t = some e) : Describes cache calls e.sidecar e.body := by
  unfold RemoteImportCache.entry at returned
  split at returned
  · rename_i body m
    cases returned
    exact safe.2 (body, m) rfl
  · cases returned

theorem Sound.put {file : File} {x : Option (List UInt8)} (sound : Sound cache calls s)
    (held : ∀ data, x = some data → ∃ whole, data <+: whole ∧ (Op.write file whole).Safe cache calls) :
    Sound cache calls { s with files := s.files.put x file } := by
  cases file with
  | body => exact { sound with }
  | sidecar =>
    refine { sound with sidecar := fun data m' some_ decoded => ?_ }
    obtain ⟨_, part, m, body, rfl, describes⟩ := held data some_
    exact ⟨body, cache.decode_part part decoded ▸ describes⟩

theorem Sound.after (sound : Sound cache calls s) (safe : t.Safe cache calls) :
    Sound cache calls { s with files := s.files.after t } := by
  cases t with
  | finish ops found =>
    cases ops with
    | nil => exact sound
    | cons op ops =>
      have first := (forall_mem_cons.mp safe.1).1
      cases op with
      | write file data =>
        exact sound.put fun _ same => ⟨data, some_inj.mp same ▸ prefix_rfl, first⟩
      | remove file => exact sound.put nofun
  | _ => exact sound

theorem step_calls {x : Step} : s.calls ⊆ (cache.step s x).calls ∧
    ((cache.step s x).torn = false → s.torn = false) := by
  cases x with
  | store body etag lastModified now => exact ⟨subset_append_left .., id⟩
  | load => exact ⟨Subset.refl _, id⟩
  | _ =>
    dsimp only [RemoteImportCache.step]
    split
    all_goals first
      | exact ⟨Subset.refl _, id⟩
      | exact ⟨subset_append_left .., id⟩
      | exact ⟨Subset.refl _, fun quiet => (Bool.or_eq_false_iff.mp quiet).1⟩

theorem Sound.begin {calls' : List Call} (sound : Sound cache calls s) (safe : t.Safe cache calls) :
    Sound cache calls { s with tasks := s.tasks ++ [t], calls := calls' } :=
  { sound with tasks := forall_mem_append.mpr ⟨sound.tasks, forall_mem_singleton.mpr safe⟩ }

theorem Sound.step {x : Step} (sound : Sound cache calls s) (within : (cache.step s x).calls ⊆ calls)
    (quiet : (cache.step s x).torn = false) : Sound cache calls (cache.step s x) := by
  cases x with
  | store body etag lastModified now =>
    exact sound.begin (safe_store (within (mem_append_right _ mem_cons_self)) now)
  | load => exact sound.begin trivial
  | refresh entry etag lastModified now =>
    dsimp only [RemoteImportCache.step] at within ⊢
    split at within
    · exact sound
    · rename_i e found
      have describes := sound.returned e (mem_of_getElem? found)
      have mem := within (mem_append_right _ mem_cons_self)
      exact sound.begin (@safe_refresh _ _ _ ⟨false, e.body, etag, lastModified⟩ describes mem now)
  | act task now =>
    dsimp only [RemoteImportCache.step] at within quiet ⊢
    split at within
    · exact sound
    · rename_i t found
      rw [found] at quiet
      have safe := sound.tasks t (mem_of_getElem? found)
      have next := @Sound.next _ _ _ _ now sound within safe (Bool.or_eq_false_iff.mp quiet).2
      refine ⟨(sound.after safe).sidecar, fun t' mem => ?_, forall_mem_append.mpr ⟨sound.returned, ?_⟩⟩
      · exact (mem_or_eq_of_mem_set mem).elim (sound.tasks t') fun same => same ▸ next
      · exact fun e mem => safe.entry (mem_toList.mp mem)
  | part task n =>
    dsimp only [RemoteImportCache.step]
    split
    · rename_i file data ops result found
      have safe := sound.tasks _ (mem_of_getElem? found)
      refine sound.put fun part same => ⟨data, ?_, (forall_mem_cons.mp safe.1).1⟩
      exact some_inj.mp same ▸ take_prefix n data
    · exact sound

/-! ### Every history -/

theorem run_sound {steps : List Step} (within : (cache.run steps).calls ⊆ calls)
    (quiet : (cache.run steps).torn = false) : Sound cache calls (cache.run steps) := by
  induction steps using reverseRecOn with
  | nil => exact ⟨nofun, nofun, nofun⟩
  | append_singleton steps x ih =>
    rw [RemoteImportCache.run, foldl_concat] at within quiet ⊢
    obtain ⟨grows, stays⟩ := @step_calls cache (cache.run steps) x
    exact (ih (Subset.trans grows within) (stays quiet)).step within quiet

/-- As long as every load that finds no sidecar finds a whole body: whatever a load returns was
given to an earlier store in full, or stands in the legacy file, and its validators were stored for
that body or refreshed onto it. -/
theorem load_serves_stored (cache : RemoteImportCache) (steps : List Step)
    (quiet : (cache.run steps).torn = false) :
    ∀ e ∈ (cache.run steps).returned, Whole cache (cache.run steps).calls e.body ∧
      Validates (cache.run steps).calls e.body Call.etag e.sidecar.etag ∧
      Validates (cache.run steps).calls e.body Call.lastModified e.sidecar.lastModified := by
  intro e mem
  have describes := (run_sound (Subset.refl _) quiet).returned e mem
  exact ⟨describes.whole, describes.etag, describes.lastModified⟩

/-- A cache without a legacy file, whose digests are the bodies and whose sidecars cannot be read
back. -/
def bare : RemoteImportCache where
  legacy := none
  ttl := 0
  bodyDigest := id
  encode _ := []
  decode _ := none
  collisionFree := Function.injective_id
  decode_part := fun _ => nofun

def loadSteps : List Step := [.load, .act 1 0, .act 1 0, .act 1 0, .act 1 0, .act 1 0]

/-- A store that is done, and a load. -/
def stored : System := bare.run ([.store "ab" none none 0, .act 0 0, .act 0 0] ++ loadSteps)

/-- What the load returns is the body of the store before it, whole. -/
theorem stored_body_served : ∃ e ∈ stored.returned, Whole bare stored.calls e.body :=
  have served : ⟨"ab", ⟨none, none, 0, "ab"⟩, false⟩ ∈ stored.returned := by decide +kernel
  ⟨_, served, (load_serves_stored bare _ (by decide +kernel) _ served).1⟩

/-- The first store stops behind the first byte of the body, and the next load returns that byte. -/
theorem part_of_body_served :
    let s := bare.run ([.store "ab" none none 0, .part 0 1] ++ loadSteps)
    ∃ e ∈ s.returned, e.body = "a" ∧ ¬ Whole bare s.calls e.body := by
  decide +kernel

/-! ### Loads behind a store -/

/-- A load that has seen nothing but this body and this sidecar. -/
def Task.Loads (body : String) (m : RemoteCacheMeta) : Task → Prop
  | .bodyExists | .readBody => True
  | .readMeta read => read = body
  | .finish [] found => ∀ e ∈ found, e = (body, m)
  | _ => False

/-- The files hold the body and its sidecar, and nobody is about to write. -/
structure Settled (cache : RemoteImportCache) (body : String) (m : RemoteCacheMeta) (s : System) :
    Prop where
  files : s.files = ⟨some (utf8Bytes body), some (cache.encode m)⟩
  tasks : ∀ t ∈ s.tasks, t.Loads body m

namespace RemoteImportCache

/-- A store from its call to its last write, with nothing in between. -/
def storeRun (cache : RemoteImportCache) (s : System) (body : String)
    (etag lastModified : Option String) (now : Nat) : System :=
  let k := s.tasks.length
  [.store body etag lastModified now, .act k now, .act k now].foldl cache.step s

/-- A load from its call to its return, with nothing in between. -/
def loadRun (cache : RemoteImportCache) (s : System) (now : Nat) : System :=
  let k := s.tasks.length
  [.load, .act k now, .act k now, .act k now, .act k now].foldl cache.step s

end RemoteImportCache

/-- The steps of loads. -/
def Step.reads : Step → Bool
  | .load | .act .. | .part .. => true
  | _ => false

section
variable (readable : cache.decode (cache.encode m) = some m)
  (digest : cache.bodyDigest body = m.bodySha256)
include readable digest

theorem Settled.next (settled : Settled cache body m s) (loads : t.Loads body m) (now : Nat) :
    (cache.next s.files now t).Loads body m ∧ s.files.after t = s.files ∧
      ∀ e ∈ cache.entry now t, e.body = body ∧ e.sidecar = m := by
  rw [settled.files]
  cases t with
  | bodyExists => exact ⟨trivial, rfl, nofun⟩
  | readBody =>
    refine ⟨?_, rfl, nofun⟩
    simp [RemoteImportCache.next, Abi.utf8Decode_utf8Bytes, Task.Loads]
  | readMeta read =>
    cases loads
    refine ⟨?_, rfl, nofun⟩
    simp [RemoteImportCache.next, readable, RemoteImportCache.compare, digest, Task.Loads]
  | finish ops found =>
    cases ops with
    | cons op ops => cases loads
    | nil =>
      refine ⟨nofun, rfl, fun e mem => ?_⟩
      cases found with
      | none => cases mem
      | some pair =>
        obtain rfl := loads pair rfl
        cases mem
        exact ⟨rfl, rfl⟩
  | _ => cases loads

theorem Settled.step (settled : Settled cache body m s) {x : Step} (reads : x.reads = true) :
    Settled cache body m (cache.step s x) ∧ ∃ es, (cache.step s x).returned = s.returned ++ es ∧
      ∀ e ∈ es, e.body = body ∧ e.sidecar = m := by
  have unchanged : ∃ es, s.returned = s.returned ++ es ∧ ∀ e ∈ es, e.body = body ∧ e.sidecar = m :=
    ⟨[], (append_nil _).symm, nofun⟩
  cases x with
  | load =>
    refine ⟨{ settled with tasks := ?_ }, unchanged⟩
    exact forall_mem_append.mpr ⟨settled.tasks, forall_mem_singleton.mpr trivial⟩
  | act task now =>
    dsimp only [RemoteImportCache.step]
    split
    · exact ⟨settled, unchanged⟩
    · rename_i t found
      obtain ⟨loads, files, entries⟩ :=
        settled.next readable digest (settled.tasks t (mem_of_getElem? found)) now
      refine ⟨⟨files.trans settled.files, fun t' mem => ?_⟩, _, rfl,
        fun e mem => entries e (mem_toList.mp mem)⟩
      exact (mem_or_eq_of_mem_set mem).elim (settled.tasks t') fun same => same ▸ loads
  | part task n =>
    dsimp only [RemoteImportCache.step]
    split
    · rename_i found
      cases settled.tasks _ (mem_of_getElem? found)
    · exact ⟨settled, unchanged⟩
  | _ => cases reads

theorem Settled.run {steps : List Step} (settled : Settled cache body m s)
    (reads : ∀ x ∈ steps, x.reads = true) :
    Settled cache body m (steps.foldl cache.step s) ∧
      ∃ es, (steps.foldl cache.step s).returned = s.returned ++ es ∧
        ∀ e ∈ es, e.body = body ∧ e.sidecar = m := by
  induction steps generalizing s with
  | nil => exact ⟨settled, [], (append_nil _).symm, nofun⟩
  | cons x steps ih =>
    obtain ⟨first, rest⟩ := forall_mem_cons.mp reads
    obtain ⟨stepped, es, here, mine⟩ := settled.step readable digest first
    obtain ⟨ran, es', behind, others⟩ := ih stepped rest
    refine ⟨ran, es ++ es', ?_, forall_mem_append.mpr ⟨mine, others⟩⟩
    rw [foldl_cons, behind, here, append_assoc]

/-- A load that runs undisturbed returns the entry. -/
theorem Settled.load (settled : Settled cache body m s) (now : Nat) :
    (cache.loadRun s now).returned =
      s.returned ++ [⟨body, m, decide ((now - m.fetchedAt) * 10 ^ 9 < cache.ttl)⟩] := by
  simp [RemoteImportCache.loadRun, RemoteImportCache.step, settled.files, RemoteImportCache.next,
    Files.after, Abi.utf8Decode_utf8Bytes, readable, RemoteImportCache.compare, digest,
    RemoteImportCache.entry]

end

/-- Whatever earlier calls, finished or cut short, have left in the two files: after a store that
runs to its end, loads in any interleaving return its body and its validators and nothing else,
and a load that then runs undisturbed does return them. -/
theorem loads_serve_store (cache : RemoteImportCache) (s : System)
    (idle : ∀ t ∈ s.tasks, t = .finish [] none) (body : String) (m : RemoteCacheMeta)
    (digest : cache.bodyDigest body = m.bodySha256)
    (readable : cache.decode (cache.encode m) = some m)
    (steps : List Step) (reads : ∀ x ∈ steps, x.reads = true) (now : Nat) :
    let mid := steps.foldl cache.step
      (cache.storeRun s body m.etag m.lastModified m.fetchedAt)
    mid.files = ⟨some (utf8Bytes body), some (cache.encode m)⟩ ∧
      ∃ es, (∀ e ∈ es, e.body = body ∧ e.sidecar = m) ∧
        (cache.loadRun mid now).returned = s.returned ++ es ++
          [⟨body, m, decide ((now - m.fetchedAt) * 10 ^ 9 < cache.ttl)⟩] := by
  intro mid
  have done : cache.storeRun s body m.etag m.lastModified m.fetchedAt = { s with
      files := ⟨some (utf8Bytes body), some (cache.encode m)⟩
      tasks := s.tasks ++ [.finish [] none]
      calls := s.calls ++ [⟨true, body, m.etag, m.lastModified⟩] } := by
    simp [RemoteImportCache.storeRun, RemoteImportCache.step, RemoteImportCache.store,
      RemoteImportCache.next, Files.after, Files.put, RemoteImportCache.writeMeta,
      RemoteImportCache.entry, RemoteImportCache.tears, digest]
  have settled : Settled cache body m (cache.storeRun s body m.etag m.lastModified m.fetchedAt) := by
    rw [done]
    refine ⟨rfl, forall_mem_append.mpr ⟨fun t mem => ?_, forall_mem_singleton.mpr nofun⟩⟩
    rw [idle t mem]
    exact nofun
  obtain ⟨ran, es, returned, mine⟩ := settled.run readable digest reads
  refine ⟨ran.files, es, mine, (ran.load readable digest now).trans ?_⟩
  rw [returned, done]

/-- A cache that can read back one sidecar. -/
def single : RemoteImportCache where
  legacy := none
  ttl := 0
  bodyDigest := id
  encode m := if m = ⟨none, none, 0, "ab"⟩ then [1] else []
  decode data := if data = [1] then some ⟨none, none, 0, "ab"⟩ else none
  collisionFree := Function.injective_id
  decode_part := by
    intro m m' part within decoded
    split_ifs at decoded with whole
    rw [whole] at within
    split_ifs at within with one
    · exact (some_inj.mp decoded).symm.trans one.symm
    · cases prefix_nil.mp within

/-- A store where part of another body stands, and a load. -/
theorem loads_serve_store_single :
    ∃ e ∈ (single.loadRun (single.storeRun ⟨⟨some [97], none⟩, [], [], [], false⟩ "ab" none none 0)
      0).returned, e.body = "ab" := by
  obtain ⟨-, es, -, served⟩ := loads_serve_store single ⟨⟨some [97], none⟩, [], [], [], false⟩
    nofun "ab" ⟨none, none, 0, "ab"⟩ rfl rfl [] nofun 0
  exact ⟨_, served ▸ mem_append_right _ mem_cons_self, rfl⟩

end Relon.Cache.Remote
