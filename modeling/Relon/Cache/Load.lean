import Mathlib.Data.Set.Function
import Relon.Cache.Files

/-! What a cache load runs.

`fromCacheDir` reads the three files of an entry, and `Write` is the other side:
an honest build stores its object blob, then its IR blob, then the sidecar sealed
for both. Between these steps, and between the three reads of a load, anyone may
put anything into the directory.

`fromCacheDir_of_honest_write`: if tags cannot be forged and digests do not
collide, a load that returns an evaluator runs the object and the schema entry of
one honest write, made for the loaded source, the default sandbox flags and this
build's triple and generator. Neither the IR blob nor the tag of the object blob
is needed for this: the sidecar's tag covers both digests. -/
namespace Relon.Cache
open Relon.Bytes Relon.Except List Option

variable {Ir : Type}

/-! ### The directory -/

inductive Suffix where
  | native
  | ir
  | schema
  deriving DecidableEq, Repr

/-- A file of the cache directory: the key, in hexadecimal, and a suffix. -/
structure FileName where
  key : Digest
  suffix : Suffix
  deriving DecidableEq

inductive IoError where
  | notFound
  | other
  deriving DecidableEq, Repr

/-- Why a load returns no evaluator: a miss, with the files it removes, or an error. -/
inductive Miss where
  | removed (files : List Suffix)
  | failed (error : CraneliftError)
  deriving DecidableEq, Repr

/-- `invalidate_cache_triple`. -/
def Miss.invalidated : Miss := .removed [.native, .ir, .schema]

/-! ### Loading -/

def metadataCompatible (file expected : Metadata) : Bool :=
  file.generatorVersion == expected.generatorVersion && file.capBitmap == expected.capBitmap &&
    file.mainSignature == expected.mainSignature && file.hostFnImports == expected.hostFnImports

/-- `expected_metadata_for_source` at time `now`. -/
def Host.expectedMetadata (host : Host Ir) (source : Source) (build : Build) (now : UInt64) :
    Metadata where
  hostFnImports := []
  capBitmap := 0
  mainSignature :=
    host.sha256 (Abi.utf8Bytes "relon-main-signature/v1\x00" ++ Abi.utf8Bytes source.text)
  createdAtUnix := now
  generatorVersion := build.generator

structure LoadedCache (Ir : Type) where
  irEntry : IrCacheEntry Ir
  objectBytes : List UInt8
  objectSha256 : Digest
  metadata : Metadata

/-- Read a file; `absent` is what is removed when there is none. -/
def readOr (read : FileName → Except IoError (List UInt8)) (name : FileName)
    (absent : List Suffix) : Except Miss (List UInt8) :=
  match read name with
  | .ok bytes => .ok bytes
  | .error .notFound => .error (.removed absent)
  | .error .other => .error (.removed [])

/-- The object file of a load. An unreadable file is removed like a corrupt one. -/
def loadObject (host : Host Ir) (read : FileName → Except IoError (List UInt8))
    (sourceSha256 : Digest) : Except Miss CacheEntry := do
  ensure (host.supported = true) (.removed [])
  ensure (host.keyed = true) (.removed [])
  match read ⟨sourceSha256, .native⟩ with
  | .ok bytes => (decodeBlob host bytes host.build.triple).mapError fun _ => .removed [.native]
  | .error .notFound => .error (.removed [])
  | .error .other => .error (.removed [.native])

def tryLoadFromCache (host : Host Ir) (read : FileName → Except IoError (List UInt8))
    (sourceSha256 : Digest) (expected : Metadata) : Except Miss (LoadedCache Ir) := do
  let objectEntry ← loadObject host read sourceSha256
  ensure (metadataCompatible objectEntry.metadata expected = true) (.removed [.native, .ir])
  let irBytes ← readOr read ⟨sourceSha256, .ir⟩ [.native]
  let irEntry ← (deserializeIr host irBytes).mapError fun _ => .removed [.ir, .native]
  return {
    irEntry
    objectBytes := objectEntry.objectBytes
    objectSha256 := host.sha256 objectEntry.objectBytes
    metadata := objectEntry.metadata }

/-- The part of `AotEvaluator` that a load fills in: the object it runs, the entry
point, the closure table and what the trampoline knows of the schemas. -/
structure Evaluator where
  object : List UInt8
  entryPtr : Nat
  schema : SchemaCacheEntry
  closureTable : List Nat
  layouts : Option (Abi.OffsetTable × Abi.OffsetTable)
  arity : Nat

def vtableSymbol : String := "__relon_capability_vtable"

def closureSymbol (i : Nat) : String := s!"__closure_{i}"

/-- A symbol with a non-null address. -/
def resolve (symbols : Symbols) (name : String) : Except Miss Nat :=
  match symbols name with
  | some ptr => if ptr = 0 then .error .invalidated else .ok ptr
  | none => .error .invalidated

def fromLoadedObject (object : List UInt8) (entryPtr : Nat) (schema : SchemaCacheEntry)
    (closureTable : List Nat) : Except Miss Evaluator :=
  match schema.entryShape with
  | .bufferProtocol => do
    let mainLayout ← (Abi.offsetsFor schema.mainSchema).mapError
      fun e => .failed (.lowering "main layout" e)
    let returnLayout ← (Abi.offsetsFor schema.returnSchema).mapError
      fun e => .failed (.lowering "return layout" e)
    return {
      object, entryPtr, schema, closureTable
      layouts := some (mainLayout, returnLayout)
      arity := schema.mainSchema.fields.length }
  | .legacyI64Args => return {
      object, entryPtr, schema, closureTable
      layouts := none
      arity := schema.entryArity.toNat }

/-- `dlopen`, the symbols, and the evaluator. -/
def openObject (host : Host Ir) (object : List UInt8) (schema : SchemaCacheEntry) :
    Except Miss Evaluator := do
  let closures := (List.range schema.closureCount.toNat).map closureSymbol
  let names := "run_main" :: vtableSymbol :: closures
  let symbols ← (host.dlopen object host.build.triple names).mapError fun _ => Miss.invalidated
  let entryPtr ← resolve symbols "run_main"
  let _ ← resolve symbols vtableSymbol
  let closureTable ← closures.mapM fun name => okOr (symbols name) Miss.invalidated
  fromLoadedObject object entryPtr schema closureTable

def fromCacheDir (host : Host Ir) (source : Source) (now : UInt64)
    (read : FileName → Except IoError (List UInt8)) : Except Miss Evaluator := do
  let sandbox := SandboxConfig.default
  let sourceHash := host.computeSourceHash source sandbox
  let loaded ← tryLoadFromCache host read sourceHash (host.expectedMetadata source host.build now)
  ensure (loaded.irEntry.sandbox = sandbox) .invalidated
  let schemaBytes ← readOr read ⟨sourceHash, .schema⟩ [.native, .ir, .schema]
  let schema ← (deserialize host schemaBytes sourceHash loaded.objectSha256).mapError
    fun _ => Miss.invalidated
  openObject host loaded.objectBytes schema

/-! ### Writing

`write_cache_pair_best_effort` and `try_store_to_cache`. Each store puts sealed
bytes into the directory; a later store is reached only after the earlier ones. -/

/-- One honest run of the compiler with a cache: what it was asked to build, and
what came out. -/
structure Write (Ir : Type) where
  source : Source
  sandbox : SandboxConfig
  build : Build
  now : UInt64
  ir : Ir
  object : List UInt8
  entry : SchemaCacheEntry

namespace Write

/-- The writer is the same installation with its own build. -/
def host (host : Host Ir) (w : Write Ir) : Host Ir := { host with build := w.build }

def key (host : Host Ir) (w : Write Ir) : Digest :=
  (w.host host).computeSourceHash w.source w.sandbox

def objectBody (host : Host Ir) (w : Write Ir) : Except CacheError (List UInt8) :=
  encodeBody host w.build.triple w.object (host.expectedMetadata w.source w.build w.now)

/-- The bytes a store puts into the directory. -/
def stored (host : Host Ir) (w : Write Ir) : Suffix → Option (List UInt8)
  | .native => (encodeBlob host w.build.triple w.object
      (host.expectedMetadata w.source w.build w.now)).toOption
  | .ir => (serializeIr host ⟨w.ir, w.sandbox⟩).toOption
  | .schema => (serialize host w.entry (w.key host) (host.sha256 w.object)).toOption

/-- The messages a store computes a tag for. -/
def tagged (host : Host Ir) (w : Write Ir) : Suffix → List (List UInt8)
  | .native => (w.objectBody host).toOption.toList
  | .ir => []
  | .schema => ((sidecarBody host w.entry).toOption.map fun body =>
      hmacInput body (w.key host) (host.sha256 w.object) w.entry.entryShape
        w.entry.entryArity).toList

/-- The messages of a write that end up as a key or as an object digest. -/
def hashed (w : Write Ir) : List (List UInt8) := [keyMessage w.source w.sandbox w.build, w.object]

end Write

inductive Event (Ir : Type) where
  /-- An honest store. -/
  | store (suffix : Suffix) (w : Write Ir)
  /-- Anyone replaces or removes a file. -/
  | put (name : FileName) (contents : Option (List UInt8))

/-- Histories, latest event first, in which the honest writers keep their order. -/
inductive Honest : List (Event Ir) → Prop where
  | start : Honest []
  | put {past} (name) (contents) : Honest past → Honest (.put name contents :: past)
  | native {past} (w) : Honest past → Honest (.store .native w :: past)
  | ir {past} (w) : Honest past → .store .native w ∈ past → Honest (.store .ir w :: past)
  | schema {past} (w) : Honest past → .store .native w ∈ past → .store .ir w ∈ past →
      Honest (.store .schema w :: past)

/-- The directory after a history. A store that fails to encode leaves no file. -/
def directory (host : Host Ir) : List (Event Ir) → FileName → Option (List UInt8)
  | [], _ => none
  | .put name contents :: past, asked =>
    if name = asked then contents else directory host past asked
  | .store suffix w :: past, asked =>
    match w.stored host suffix with
    | some bytes => if ⟨w.key host, suffix⟩ = asked then some bytes else directory host past asked
    | none => directory host past asked

/-- The messages tagged under the installation key in a history. -/
def taggedIn (host : Host Ir) : List (Event Ir) → List (List UInt8)
  | [] => []
  | .put _ _ :: past => taggedIn host past
  | .store suffix w :: past => w.tagged host suffix ++ taggedIn host past

def hashedIn : List (Event Ir) → List (List UInt8)
  | [] => []
  | .put _ _ :: past => hashedIn past
  | .store _ w :: past => w.hashed ++ hashedIn past

/-- A load in a changing directory: what had happened when each file was read, and
which reads fail. -/
structure Session (Ir : Type) where
  atObject : List (Event Ir)
  atIr : List (Event Ir)
  atSchema : List (Event Ir)
  honest : Honest atSchema
  objectBeforeIr : atObject <:+ atIr
  irBeforeSchema : atIr <:+ atSchema
  fails : FileName → Bool

namespace Session

def history (s : Session Ir) : Suffix → List (Event Ir)
  | .native => s.atObject
  | .ir => s.atIr
  | .schema => s.atSchema

def read (host : Host Ir) (s : Session Ir) (name : FileName) : Except IoError (List UInt8) :=
  if s.fails name then .error .other
  else okOr (directory host (s.history name.suffix) name) .notFound

end Session

/-! ### What the attacker cannot do

Both assumptions speak of one load: the one tag it checks on a sidecar, and the
messages whose digests it compares. -/

section Assumptions
variable (host : Host Ir) (source : Source) (read : FileName → Except IoError (List UInt8))

def loadKey : Digest := host.computeSourceHash source .default

/-- The sidecar whose tag the load checks. -/
def presented : Option Sidecar := do
  let object ← (loadObject host read (loadKey host source)).toOption
  let bytes ← (read ⟨loadKey host source, .schema⟩).toOption
  (readSidecar host bytes (loadKey host source) (host.sha256 object.objectBytes)).toOption

/-- A tag that passes was computed by an honest store. -/
def Unforged (past : List (Event Ir)) : Prop :=
  ∀ s, presented host source read = some s → (host.hmac s.macInput).bytes = s.storedTag →
    s.macInput ∈ taggedIn host past

/-- The messages whose digests a load compares with those of the writers. -/
def compared (past : List (Event Ir)) : Set (List UInt8) :=
  {m | m ∈ hashedIn past ∨ m = keyMessage source .default host.build ∨
    ∃ e, loadObject host read (loadKey host source) = .ok e ∧ m = e.objectBytes}

def CollisionFree (past : List (Event Ir)) : Prop :=
  Set.InjOn host.sha256 (compared host source read past)

end Assumptions

/-! ### Successful loads -/

section Loads
variable {host : Host Ir} {source : Source} {now : UInt64} {past : List (Event Ir)}
  {read : FileName → Except IoError (List UInt8)} {e : Evaluator} {w : Write Ir}

theorem readOr_ok {name : FileName} {absent : List Suffix} {bytes : List UInt8}
    (h : readOr read name absent = .ok bytes) : read name = .ok bytes := by
  unfold readOr at h
  split at h <;> simp_all

variable {m object : List UInt8} {schema : SchemaCacheEntry} {suffix : Suffix}

theorem fromLoadedObject_ok {ptr : Nat} {closures : List Nat}
    (h : fromLoadedObject object ptr schema closures = .ok e) :
    e.object = object ∧ e.schema = schema := by
  unfold fromLoadedObject at h
  split at h
  · simp only [bind_eq_ok, pure_eq_iff] at h
    obtain ⟨_, -, _, -, rfl⟩ := h
    exact ⟨rfl, rfl⟩
  · cases h
    exact ⟨rfl, rfl⟩

theorem openObject_ok (h : openObject host object schema = .ok e) :
    e.object = object ∧ e.schema = schema := by
  simp only [openObject, bind_eq_ok] at h
  obtain ⟨_, -, _, -, _, -, _, -, h⟩ := h
  exact fromLoadedObject_ok h

theorem fromCacheDir_ok (h : fromCacheDir host source now read = .ok e) :
    ∃ object sidecar, loadObject host read (loadKey host source) = .ok object ∧
      presented host source read = some sidecar ∧
      (host.hmac sidecar.macInput).bytes = sidecar.storedTag ∧
      e.object = object.objectBytes ∧ e.schema = sidecar.entry := by
  simp only [fromCacheDir, tryLoadFromCache, deserialize, bind_eq_ok, mapError_eq_ok, ensure_eq_ok,
    pure_eq_iff] at h
  obtain ⟨_, ⟨object, loaded, -, -, _, -, _, -, rfl⟩, -, -, bytes, read, _,
    ⟨sidecar, parsed, -, verified, rfl⟩, opened⟩ := h
  obtain ⟨runs, schema⟩ := openObject_ok opened
  refine ⟨object, sidecar, loaded, ?_, verified, runs, schema⟩
  simp [presented, loadKey, loaded, readOr_ok read, parsed, Except.toOption]

theorem presented_spec {sidecar : Sidecar} {object : CacheEntry}
    (h : presented host source read = some sidecar)
    (loaded : loadObject host read (loadKey host source) = .ok object) :
    ∃ covered, host.schema.decode (covered.drop 12) = .ok sidecar.entry ∧
      sidecar.macInput = hmacInput covered (loadKey host source) (host.sha256 object.objectBytes)
        sidecar.entry.entryShape sidecar.entry.entryArity := by
  simp only [presented, loaded, Except.toOption, bind_eq_bind, bind_some, bind_eq_some_iff] at h
  obtain ⟨bytes, -, parsed⟩ := h
  split at parsed
  · cases parsed
    exact readSidecar_ok ‹_›
  · cases parsed

/-! ### Histories -/

theorem mem_taggedIn (h : m ∈ taggedIn host past) :
    ∃ suffix w, .store suffix w ∈ past ∧ m ∈ w.tagged host suffix := by
  induction past with
  | nil => cases h
  | cons event past ih =>
    cases event with
    | put name contents =>
      obtain ⟨suffix, w, stored, tagged⟩ := ih h
      exact ⟨suffix, w, mem_cons_of_mem _ stored, tagged⟩
    | store suffix w =>
      rcases mem_append.mp h with tagged | h
      · exact ⟨suffix, w, mem_cons_self, tagged⟩
      · obtain ⟨suffix, w, stored, tagged⟩ := ih h
        exact ⟨suffix, w, mem_cons_of_mem _ stored, tagged⟩

theorem hashed_mem_hashedIn (stored : .store suffix w ∈ past) (h : m ∈ w.hashed) :
    m ∈ hashedIn past := by
  induction past with
  | nil => cases stored
  | cons event past ih =>
    cases event with
    | put name contents =>
      rcases mem_cons.mp stored with same | stored
      · cases same
      · exact ih stored
    | store suffix' w' =>
      rcases mem_cons.mp stored with same | stored
      · cases same
        exact mem_append_left _ h
      · exact mem_append_right _ (ih stored)

/-- A sidecar is sealed after the object of the same write was stored. -/
theorem Honest.native_before_schema (honest : Honest past) (sealed : .store .schema w ∈ past) :
    ∃ before, .store .schema w :: before <:+ past ∧ .store .native w ∈ before := by
  induction honest with
  | start => cases sealed
  | schema w' _ native _ ih =>
    rcases mem_cons.mp sealed with same | sealed
    · cases same
      exact ⟨_, suffix_refl _, native⟩
    · obtain ⟨before, suffix, stored⟩ := ih sealed
      exact ⟨before, suffix.trans (suffix_cons _ _), stored⟩
  | put _ _ _ ih | native _ _ ih | ir _ _ _ ih =>
    rcases mem_cons.mp sealed with same | sealed
    · cases same
    · obtain ⟨before, suffix, stored⟩ := ih sealed
      exact ⟨before, suffix.trans (suffix_cons _ _), stored⟩

/-- Only the store of a sidecar tags a sidecar's message. -/
theorem tagged_hmacInput {covered : List UInt8} {src obj : Digest} {shape : SerEntryShape}
    {arity : UInt32} (h : hmacInput covered src obj shape arity ∈ w.tagged host suffix) :
    suffix = .schema ∧ sidecarBody host w.entry = .ok covered ∧ w.key host = src ∧
      host.sha256 w.object = obj := by
  cases suffix with
  | native =>
    cases body : w.objectBody host with
    | error e => simp [Write.tagged, body, Except.toOption] at h
    | ok bytes =>
      simp only [Write.tagged, body, Except.toOption, toList_some, mem_singleton] at h
      exact absurd h.symm (encodeBody_ne_hmacInput body)
  | ir => cases h
  | schema =>
    cases body : sidecarBody host w.entry with
    | error e => simp [Write.tagged, body, Except.toOption] at h
    | ok bytes =>
      simp only [Write.tagged, body, Except.toOption, map_some, toList_some, mem_singleton] at h
      obtain ⟨rfl, source, object⟩ := hmacInput_injective h
      exact ⟨rfl, rfl, source.symm, object.symm⟩

/-! ### The result -/

theorem written_for_source (stored : .store suffix w ∈ past)
    (distinct : CollisionFree host source read past) (key : w.key host = loadKey host source) :
    w.source.text = source.text ∧ w.sandbox = .default ∧ w.build.triple = host.build.triple ∧
      w.build.generator = host.build.generator := by
  apply keyMessage_injective
  refine distinct (.inl ?_) (.inr (.inl rfl)) key
  exact hashed_mem_hashedIn stored mem_cons_self

/-- The native cache never runs another program's code. -/
theorem fromCacheDir_of_honest_write (s : Session Ir)
    (unforged : Unforged host source (s.read host) s.atSchema)
    (distinct : CollisionFree host source (s.read host) s.atSchema)
    (ran : fromCacheDir host source now (s.read host) = .ok e) :
    ∃ w before, .store .schema w :: before <:+ s.atSchema ∧ .store .native w ∈ before ∧
      (w.source.text = source.text ∧ w.sandbox = .default ∧ w.build.triple = host.build.triple ∧
        w.build.generator = host.build.generator) ∧ w.object = e.object ∧ w.entry = e.schema := by
  obtain ⟨object, sidecar, loaded, shown, verified, runs, schema⟩ := fromCacheDir_ok ran
  obtain ⟨covered, decoded, input⟩ := presented_spec shown loaded
  -- the checked message was tagged by a writer, and only by the store of its sidecar
  obtain ⟨suffix, w, stored, tagged⟩ := mem_taggedIn (unforged sidecar shown verified)
  rw [input] at tagged
  obtain ⟨rfl, body, key, digest⟩ := tagged_hmacInput tagged
  obtain ⟨before, order, native⟩ := s.honest.native_before_schema stored
  refine ⟨w, before, order, native, written_for_source stored distinct key, ?_, ?_⟩
  · rw [runs]
    refine distinct (.inl ?_) (.inr (.inr ⟨object, loaded, rfl⟩)) digest
    exact hashed_mem_hashedIn stored (by simp [Write.hashed])
  · have entry := sidecarBody_decodes body
    rw [decoded, Except.ok.injEq] at entry
    rw [schema, entry]

end Loads

/-! A small installation: digests and tags are sums over the whole message, one metadata
record and one schema entry can be encoded, and an object is a table of symbols. -/
namespace Small

/-- A polynomial sum of the bytes, in 256 bits; every byte of the message has a say in it. -/
def digest (m : List UInt8) : Digest :=
  ⟨leBytes 32 (m.foldl (fun sum byte => sum * 257 + byte.toNat + 1) 0), by simp⟩

/-- Tags differ from digests: the key is summed in front of the message. -/
def tag (m : List UInt8) : Digest := digest (0x5C :: m)

def source : Source := ⟨"1", by decide +kernel⟩

def entry : SchemaCacheEntry where
  mainSchema := ⟨"", [], [], false⟩
  returnSchema := ⟨"", [], [], false⟩
  paramNames := []
  constData := []
  closureCount := 0
  entryShape := .legacyI64Args
  entryArity := 0
  entryRange := ⟨0, 0, 0, 0, 0, 0⟩

def trailer : Metadata where
  hostFnImports := []
  capBitmap := 0
  mainSignature :=
    digest (Abi.utf8Bytes "relon-main-signature/v1\x00" ++ Abi.utf8Bytes source.text)
  createdAtUnix := 0
  generatorVersion := Build.current.generator

def metadata : Codec Metadata where
  encode m := if m = trailer then .ok [] else .error ""
  decode _ := .ok trailer
  inverts m bytes h := by
    split at h
    · next same => exact congrArg Except.ok same.symm
    · cases h

def schema : Codec SchemaCacheEntry where
  encode
    | ⟨⟨"", [], [], false⟩, ⟨"", [], [], false⟩, [], [], 0, .legacyI64Args, 0,
        ⟨0, 0, 0, 0, 0, 0⟩⟩ => .ok []
    | _ => .error ""
  decode _ := .ok entry
  inverts m bytes h := by
    split at h
    · rfl
    · cases h

def host : Host Unit where
  build := .current
  supported := true
  keyed := true
  sha256 := digest
  hmac := tag
  metadata := metadata
  schema := schema
  encodeIr _ := .ok []
  decodeIr _ := .ok ()
  dlopen _ _ _ := .ok fun _ => some 1

def write : Write Unit where
  source := source
  sandbox := .default
  build := .current
  now := 0
  ir := ()
  object := [7]
  entry := entry

/-- A complete write, after which someone drops a file under another name. -/
def session : Session Unit where
  atObject := [.store .schema write, .store .ir write, .store .native write]
  atIr := [.store .schema write, .store .ir write, .store .native write]
  atSchema :=
    [.put ⟨digest [], .native⟩ (some []), .store .schema write, .store .ir write,
      .store .native write]
  honest := by
    refine .put _ _ (.schema _ (.ir _ (.native _ .start) ?_) ?_ ?_) <;> simp
  objectBeforeIr := suffix_refl _
  irBeforeSchema := suffix_cons _ _
  fails _ := false

end Small

/-- A hit in a directory that another process has written to as well. -/
theorem fromCacheDir_hit :
    ∃ e, fromCacheDir Small.host Small.source 5 (Small.session.read Small.host) = .ok e ∧
      ∃ w before, .store .schema w :: before <:+ Small.session.atSchema ∧
        .store .native w ∈ before ∧ (w.source.text = Small.source.text ∧ w.sandbox = .default ∧
          w.build.triple = Small.host.build.triple ∧
          w.build.generator = Small.host.build.generator) ∧
        w.object = e.object ∧ w.entry = e.schema := by
  have hit : (fromCacheDir Small.host Small.source 5 (Small.session.read Small.host)).toOption.map
      (·.object) = some [7] := by decide +kernel
  have object : (loadObject Small.host (Small.session.read Small.host)
      (loadKey Small.host Small.source)).toOption.map (·.objectBytes) = some [7] := by
    decide +kernel
  have message : (presented Small.host Small.source (Small.session.read Small.host)).all
      (fun s => decide (s.macInput ∈ taggedIn Small.host Small.session.atSchema)) = true := by
    decide +kernel
  have known : ∀ m ∈ hashedIn Small.session.atSchema,
      m = keyMessage Small.source .default Build.current ∨ m = [7] := by decide +kernel
  have apart :
      Small.digest (keyMessage Small.source .default Build.current) ≠ Small.digest [7] := by
    decide +kernel
  cases ran : fromCacheDir Small.host Small.source 5 (Small.session.read Small.host) with
  | error miss => simp [ran, Except.toOption] at hit
  | ok e =>
    refine ⟨e, rfl, fromCacheDir_of_honest_write Small.session ?_ ?_ ran⟩
    · intro sidecar shown _
      simpa [shown] using message
    · have two : ∀ m ∈ compared Small.host Small.source (Small.session.read Small.host)
          Small.session.atSchema,
          m = keyMessage Small.source .default Build.current ∨ m = [7] := by
        rintro m (hashed | rfl | ⟨entry, loaded, rfl⟩)
        · exact known m hashed
        · exact .inl rfl
        · right
          simpa [loaded, Except.toOption] using object
      intro m hm m' hm' same
      rcases two m hm with rfl | rfl <;> rcases two m' hm' with rfl | rfl
      · rfl
      · exact absurd same apart
      · exact absurd same.symm apart
      · rfl

end Relon.Cache
