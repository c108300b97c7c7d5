import Mathlib.Data.List.Infix
import Relon.Abi.Layout
import Relon.Abi.Value

/-! The three files of a native cache entry.

An entry is an object blob (`storage.rs`), an IR blob (`cache.rs`) and a schema
sidecar (`schema_cache.rs`), named after one key: the digest of the source text,
the sandbox flags, the target triple and the generator version. The blob and the
sidecar end in a tag under the installation key; the tag of the sidecar also
covers the key and the digest of the object. The IR blob only carries its own
digest.

Digests, tags and the two encodings (`bincode`, `serde_json`) are parameters of
`Host`. -/
namespace Relon.Cache
open Relon.Bytes Relon.Except List
open Abi (utf8Bytes utf8Decode)

/-! ### Keys -/

/-- `[u8; 32]`. -/
structure Digest where
  bytes : List UInt8
  size : bytes.length = 32
  deriving DecidableEq

theorem Digest.ext_bytes {a b : Digest} (h : a.bytes = b.bytes) : a = b := by
  cases a
  cases b
  simpa using h

structure SandboxConfig where
  boundsCheck : Bool
  deadlineCheck : Bool
  capabilityCheck : Bool
  divCheck : Bool
  deriving DecidableEq, Repr

def SandboxConfig.default : SandboxConfig := ⟨true, true, true, true⟩

def packSandbox (cfg : SandboxConfig) : Nat :=
  cfg.boundsCheck.toNat ||| (cfg.deadlineCheck.toNat <<< 1) |||
    (cfg.capabilityCheck.toNat <<< 2) ||| (cfg.divCheck.toNat <<< 3)

def unpackSandbox (bits : Nat) : SandboxConfig where
  boundsCheck := bits.testBit 0
  deadlineCheck := bits.testBit 1
  capabilityCheck := bits.testBit 2
  divCheck := bits.testBit 3

theorem packSandbox_lt (cfg : SandboxConfig) : packSandbox cfg < 256 ^ 4 := by
  obtain ⟨a, b, c, d⟩ := cfg
  revert a b c d
  decide

theorem unpackSandbox_packSandbox (cfg : SandboxConfig) :
    unpackSandbox (packSandbox cfg) = cfg := by
  obtain ⟨a, b, c, d⟩ := cfg
  revert a b c d
  decide

/-- A source text. Its length is a `u64`. -/
structure Source where
  text : String
  fits : (utf8Bytes text).length < 256 ^ 8

/-- What a build of the code generator is keyed by. A target triple holds no NUL. -/
structure Build where
  triple : String
  generator : String
  plain : 0 ∉ utf8Bytes triple

/-- The constants of this build: `host_target_triple` and `GENERATOR_VERSION`. -/
def Build.current : Build where
  triple := "x86_64-unknown-linux-gnu"
  generator := "relon-codegen-cranelift v5-gamma 18"
  plain := by decide +kernel

/-- What `compute_source_hash` feeds to the digest. -/
def keyMessage (source : Source) (sandbox : SandboxConfig) (build : Build) : List UInt8 :=
  utf8Bytes "relon-cache-key/v1\x00" ++ (leBytes 8 (utf8Bytes source.text).length ++
    (utf8Bytes source.text ++ (utf8Bytes "\x00sandbox\x00" ++ (leBytes 4 (packSandbox sandbox) ++
      (utf8Bytes "\x00triple\x00" ++ (utf8Bytes build.triple ++
        (utf8Bytes "\x00generator\x00" ++ utf8Bytes build.generator)))))))

/-! The key message determines what it was made of: the text is preceded by its
length, the flags have a fixed width, and the triple runs up to the next NUL. -/

theorem utf8Bytes_injective {a b : String} (h : utf8Bytes a = utf8Bytes b) : a = b := by
  have decoded := Abi.utf8Decode_utf8Bytes a
  rw [h, Abi.utf8Decode_utf8Bytes, Option.some.injEq] at decoded
  exact decoded.symm

theorem leBytes_append_inj {w n m : Nat} {x y : List UInt8} (hn : n < 256 ^ w) (hm : m < 256 ^ w)
    (h : leBytes w n ++ x = leBytes w m ++ y) : n = m ∧ x = y := by
  obtain ⟨word, rest⟩ := append_inj h (by simp)
  refine ⟨?_, rest⟩
  rw [← leNat_leBytes hn, word, leNat_leBytes hm]

theorem append_nul_inj {a b x y : List UInt8} (ha : 0 ∉ a) (hb : 0 ∉ b)
    (h : a ++ 0 :: x = b ++ 0 :: y) : a = b ∧ x = y := by
  induction a generalizing b with
  | nil =>
    cases b with
    | nil => simpa using h
    | cons d b =>
      obtain ⟨rfl, -⟩ := List.cons.inj h
      exact absurd mem_cons_self hb
  | cons c a ih =>
    rw [mem_cons, not_or] at ha
    cases b with
    | nil =>
      obtain ⟨rfl, -⟩ := List.cons.inj h
      exact absurd rfl ha.1
    | cons d b =>
      rw [mem_cons, not_or] at hb
      obtain ⟨rfl, rest⟩ := List.cons.inj h
      obtain ⟨rfl, same⟩ := ih ha.2 hb.2 rest
      exact ⟨rfl, same⟩

theorem keyMessage_injective {s s' : Source} {cfg cfg' : SandboxConfig} {b b' : Build}
    (h : keyMessage s cfg b = keyMessage s' cfg' b') :
    s.text = s'.text ∧ cfg = cfg' ∧ b.triple = b'.triple ∧ b.generator = b'.generator := by
  have marker : utf8Bytes "\x00generator\x00" = 0 :: utf8Bytes "generator\x00" := by decide +kernel
  simp only [keyMessage, append_cancel_left_eq, marker, cons_append] at h
  obtain ⟨length, h⟩ := leBytes_append_inj s.fits s'.fits h
  obtain ⟨text, h⟩ := append_inj h length
  rw [append_cancel_left_eq] at h
  obtain ⟨bits, h⟩ := leBytes_append_inj (packSandbox_lt cfg) (packSandbox_lt cfg') h
  rw [append_cancel_left_eq] at h
  obtain ⟨triple, h⟩ := append_nul_inj b.plain b'.plain h
  refine ⟨utf8Bytes_injective text, ?_, utf8Bytes_injective triple, ?_⟩
  · rw [← unpackSandbox_packSandbox cfg, bits, unpackSandbox_packSandbox]
  · exact utf8Bytes_injective (append_cancel_left h)

/-! ### The host -/

/-- One of the two serde encodings. Decoding inverts encoding. -/
structure Codec (α : Type) where
  encode : α → Except String (List UInt8)
  decode : List UInt8 → Except String α
  inverts : ∀ a bytes, encode a = .ok bytes → decode bytes = .ok a

structure HostFnImport where
  name : String
  capBit : UInt32
  paramsHash : Digest
  returnsHash : Digest
  deriving DecidableEq

structure Metadata where
  hostFnImports : List HostFnImport
  capBitmap : UInt64
  mainSignature : Digest
  createdAtUnix : UInt64
  generatorVersion : String
  deriving DecidableEq

inductive SerEntryShape where
  | legacyI64Args
  | bufferProtocol
  deriving DecidableEq, Repr

/-- The discriminants of the `repr(u8)` enumeration. -/
def SerEntryShape.toByte : SerEntryShape → UInt8
  | .legacyI64Args => 0
  | .bufferProtocol => 1

structure SerTokenRange where
  startLine : UInt32
  startColumn : UInt64
  startOffset : UInt64
  endLine : UInt32
  endColumn : UInt64
  endOffset : UInt64
  deriving DecidableEq, Repr

structure SchemaCacheEntry where
  mainSchema : Abi.Schema
  returnSchema : Abi.Schema
  paramNames : List String
  constData : List UInt8
  closureCount : UInt32
  entryShape : SerEntryShape
  entryArity : UInt32
  entryRange : SerTokenRange

/-- The symbols of a loaded object: an address for each name it defines. -/
abbrev Symbols := String → Option Nat

/-- An installation: the digest, the tag under the installation key, the
encodings, and what the dynamic loader makes of an object. `keyed` says whether
`ensure_key` finds the key. The IR blob's own encoding is read by nothing else. -/
structure Host (Ir : Type) where
  build : Build
  supported : Bool
  keyed : Bool
  sha256 : List UInt8 → Digest
  hmac : List UInt8 → Digest
  metadata : Codec Metadata
  schema : Codec SchemaCacheEntry
  encodeIr : Ir → Except String (List UInt8)
  decodeIr : List UInt8 → Except String Ir
  dlopen : List UInt8 → String → List String → Except String Symbols

variable {Ir : Type}

def Host.computeSourceHash (host : Host Ir) (source : Source) (sandbox : SandboxConfig) : Digest :=
  host.sha256 (keyMessage source sandbox host.build)

/-! ### The object blob -/

inductive CacheError where
  | io (text : String)
  | truncated (length : Nat)
  | magicMismatch
  | versionMismatch (file runtime : Nat)
  | tripleMismatch (file runtime : String)
  | metadata (text : String)
  | hmacRequired
  | hmacMismatch
  | sha256Mismatch
  deriving DecidableEq, Repr

structure CacheEntry where
  targetTriple : String
  objectBytes : List UInt8
  metadata : Metadata
  deriving DecidableEq

/-- `RLNC`. -/
def cacheMagic : List UInt8 := [0x52, 0x4C, 0x4E, 0x43]

def cacheVersion : Nat := 1

def hmacTagLen : Nat := 32

/-- The part of a blob that its tag covers. -/
def encodeBody (host : Host Ir) (targetTriple : String) (objectBytes : List UInt8)
    (metadata : Metadata) : Except CacheError (List UInt8) := do
  let triple := utf8Bytes targetTriple
  ensure (triple.length < 256) (.metadata s!"target triple too long: {triple.length} bytes")
  ensure (objectBytes.length < 256 ^ 4)
    (.metadata s!"object too large: {objectBytes.length} bytes")
  let trailer ← (host.metadata.encode metadata).mapError
    fun e => .metadata s!"bincode serialize: {e}"
  ensure (trailer.length < 256 ^ 4) (.metadata s!"metadata too large: {trailer.length} bytes")
  return cacheMagic ++ leBytes 4 cacheVersion ++ leBytes 1 triple.length ++ triple ++
    leBytes 4 objectBytes.length ++ objectBytes ++ leBytes 4 trailer.length ++ trailer

def encodeBlob (host : Host Ir) (targetTriple : String) (objectBytes : List UInt8)
    (metadata : Metadata) : Except CacheError (List UInt8) := do
  let body ← encodeBody host targetTriple objectBytes metadata
  return body ++ (host.hmac body).bytes

/-- `decode_blob`. The tag is only checked where a key is given. -/
def decodeBlobWith (decode : List UInt8 → Except String Metadata)
    (hmac : Option (List UInt8 → Digest)) (bytes : List UInt8) (expectedTriple : String) :
    Except CacheError CacheEntry := do
  ensure (4 + 4 + 1 + 4 + 4 + hmacTagLen ≤ bytes.length) (.truncated bytes.length)
  ensure (bytes.take 4 = cacheMagic) .magicMismatch
  let version := leNat (slice bytes 4 4)
  ensure (version = cacheVersion) (.versionMismatch version cacheVersion)
  let tripleLen := leNat (slice bytes 8 1)
  let tripleEnd := 9 + tripleLen
  ensure (tripleEnd + 4 ≤ bytes.length) (.truncated bytes.length)
  let triple ← okOr (utf8Decode (slice bytes 9 tripleLen)) (.metadata "triple utf8")
  ensure (triple = expectedTriple) (.tripleMismatch triple expectedTriple)
  let objSize := leNat (slice bytes tripleEnd 4)
  let objStart := tripleEnd + 4
  let objEnd := objStart + objSize
  ensure (objEnd + 4 ≤ bytes.length) (.truncated bytes.length)
  let metaSize := leNat (slice bytes objEnd 4)
  let metaStart := objEnd + 4
  let metaEnd := metaStart + metaSize
  ensure (metaEnd + hmacTagLen = bytes.length) (.truncated bytes.length)
  let metadata ← (decode (slice bytes metaStart metaSize)).mapError
    fun e => .metadata s!"bincode: {e}"
  hmac.elim (pure ()) fun tag =>
    ensure ((tag (bytes.take metaEnd)).bytes = bytes.drop metaEnd) .hmacMismatch
  return { targetTriple := triple, objectBytes := slice bytes objStart objSize, metadata }

/-- `decode_blob` with the key of the installation. -/
def decodeBlob (host : Host Ir) (bytes : List UInt8) (expectedTriple : String) :
    Except CacheError CacheEntry :=
  decodeBlobWith host.metadata.decode (some host.hmac) bytes expectedTriple

/-! ### The schema sidecar -/

inductive CraneliftError where
  | cache (text : String)
  | lowering (text : String) (error : Abi.LayoutError)
  deriving DecidableEq, Repr

/-- `RLSC`. -/
def schemaCacheMagic : List UInt8 := [0x52, 0x4C, 0x53, 0x43]

def schemaCacheVersion : Nat := 2

/-- `SCHEMA_CACHE_HMAC_DOMAIN`: `RLSC-v2`. -/
def schemaCacheHmacDomain : List UInt8 := [0x52, 0x4C, 0x53, 0x43, 0x2D, 0x76, 0x32]

def hmacInput (bodyWithHeader : List UInt8) (sourceSha256 objectSha256 : Digest)
    (entryShape : SerEntryShape) (entryArity : UInt32) : List UInt8 :=
  schemaCacheHmacDomain ++ (sourceSha256.bytes ++ (objectSha256.bytes ++
    ([entryShape.toByte] ++ (leBytes 4 entryArity.toNat ++ bodyWithHeader))))

/-- The header and the body of a sidecar. -/
def sidecarBody (host : Host Ir) (entry : SchemaCacheEntry) :
    Except CraneliftError (List UInt8) := do
  let body ← (host.schema.encode entry).mapError fun e => .cache s!"schema cache encode: {e}"
  ensure (body.length < 256 ^ 4) (.cache "schema cache body too large for u32")
  return schemaCacheMagic ++ (leBytes 4 schemaCacheVersion ++ (leBytes 4 body.length ++ body))

def serialize (host : Host Ir) (entry : SchemaCacheEntry) (sourceSha256 objectSha256 : Digest) :
    Except CraneliftError (List UInt8) := do
  let out ← sidecarBody host entry
  let macInput := hmacInput out sourceSha256 objectSha256 entry.entryShape entry.entryArity
  return out ++ (host.hmac macInput).bytes

/-- A sidecar before its tag is checked. -/
structure Sidecar where
  entry : SchemaCacheEntry
  macInput : List UInt8
  storedTag : List UInt8

/-- `deserialize` up to the tag: the body is decoded first, for the shape and the
arity are part of the tag's input. -/
def readSidecar (host : Host Ir) (bytes : List UInt8) (sourceSha256 objectSha256 : Digest) :
    Except CraneliftError Sidecar := do
  ensure (4 + 4 + 4 + 32 ≤ bytes.length) (.cache "schema cache too short")
  ensure (bytes.take 4 = schemaCacheMagic) (.cache "schema cache magic mismatch")
  let version := leNat (slice bytes 4 4)
  ensure (version = schemaCacheVersion)
    (.cache s!"schema cache version mismatch: expected {schemaCacheVersion}, got {version}")
  let bodyEnd := 12 + leNat (slice bytes 8 4)
  ensure (bodyEnd + 32 ≤ bytes.length) (.cache "schema cache truncated")
  let entry ← (host.schema.decode ((bytes.take bodyEnd).drop 12)).mapError
    fun e => .cache s!"schema cache decode: {e}"
  return {
    entry
    macInput := hmacInput (bytes.take bodyEnd) sourceSha256 objectSha256 entry.entryShape
      entry.entryArity
    storedTag := slice bytes bodyEnd 32 }

def deserialize (host : Host Ir) (bytes : List UInt8) (sourceSha256 objectSha256 : Digest) :
    Except CraneliftError SchemaCacheEntry := do
  let sidecar ← readSidecar host bytes sourceSha256 objectSha256
  ensure ((host.hmac sidecar.macInput).bytes = sidecar.storedTag)
    (.cache "schema cache hmac mismatch")
  return sidecar.entry

/-! What a tag over a sidecar says: its input determines the covered bytes and the
two digests, and no blob's body is such an input. -/

theorem hmacInput_injective {body body' : List UInt8} {src src' obj obj' : Digest}
    {shape shape' : SerEntryShape} {arity arity' : UInt32}
    (h : hmacInput body src obj shape arity = hmacInput body' src' obj' shape' arity') :
    body = body' ∧ src = src' ∧ obj = obj' := by
  simp only [hmacInput, append_cancel_left_eq] at h
  obtain ⟨source, h⟩ := append_inj h (src.size.trans src'.size.symm)
  obtain ⟨object, h⟩ := append_inj h (obj.size.trans obj'.size.symm)
  obtain ⟨-, h⟩ := append_inj h rfl
  obtain ⟨-, h⟩ := append_inj h (by simp)
  exact ⟨h, Digest.ext_bytes source, Digest.ext_bytes object⟩

theorem sidecarBody_decodes {host : Host Ir} {entry : SchemaCacheEntry} {out : List UInt8}
    (h : sidecarBody host entry = .ok out) : host.schema.decode (out.drop 12) = .ok entry := by
  simp only [sidecarBody, bind_eq_ok, mapError_eq_ok, ensure_eq_ok, pure_eq_iff] at h
  obtain ⟨body, encoded, -, -, rfl⟩ := h
  have header : (schemaCacheMagic ++ (leBytes 4 schemaCacheVersion ++
      (leBytes 4 body.length ++ body))).drop 12 = body := by
    simp [schemaCacheMagic, drop_append]
  rw [header]
  exact host.schema.inverts entry body encoded

theorem readSidecar_ok {host : Host Ir} {bytes : List UInt8} {src obj : Digest} {s : Sidecar}
    (h : readSidecar host bytes src obj = .ok s) :
    ∃ covered, host.schema.decode (covered.drop 12) = .ok s.entry ∧
      s.macInput = hmacInput covered src obj s.entry.entryShape s.entry.entryArity := by
  simp only [readSidecar, bind_eq_ok, mapError_eq_ok, ensure_eq_ok, pure_eq_iff] at h
  obtain ⟨-, -, -, -, -, -, -, -, entry, decoded, rfl⟩ := h
  exact ⟨_, decoded, rfl⟩

theorem encodeBody_ne_hmacInput {host : Host Ir} {triple : String} {object body out : List UInt8}
    {metadata : Metadata} {src obj : Digest} {shape : SerEntryShape} {arity : UInt32}
    (h : encodeBody host triple object metadata = .ok body) :
    body ≠ hmacInput out src obj shape arity := by
  simp only [encodeBody, bind_eq_ok, mapError_eq_ok, ensure_eq_ok, pure_eq_iff] at h
  obtain ⟨-, -, -, -, trailer, -, -, -, rfl⟩ := h
  -- the third byte is the `N` of one magic and the `S` of the other
  simp [cacheMagic, hmacInput, schemaCacheHmacDomain]

/-! ### The IR blob -/

structure IrCacheEntry (Ir : Type) where
  ir : Ir
  sandbox : SandboxConfig

def cacheFormatVersion : Nat := 1

def serializeIr (host : Host Ir) (entry : IrCacheEntry Ir) :
    Except CraneliftError (List UInt8) := do
  let blob ← (host.encodeIr entry.ir).mapError fun e => .cache s!"serialize ir: {e}"
  ensure (blob.length < 256 ^ 4) (.cache "ir blob too large for u32 length")
  let out := cacheMagic ++ leBytes 4 cacheFormatVersion ++ leBytes 4 (packSandbox entry.sandbox) ++
    leBytes 4 blob.length ++ blob
  return out ++ (host.sha256 out).bytes

def deserializeIr (host : Host Ir) (bytes : List UInt8) :
    Except CraneliftError (IrCacheEntry Ir) := do
  ensure (4 + 4 + 4 + 4 + 32 ≤ bytes.length) (.cache "cache blob too short")
  ensure (bytes.take 4 = cacheMagic) (.cache "magic mismatch")
  let version := leNat (slice bytes 4 4)
  ensure (version = cacheFormatVersion)
    (.cache s!"format version mismatch: expected {cacheFormatVersion}, got {version}")
  let sandboxBits := leNat (slice bytes 8 4)
  let irEnd := 16 + leNat (slice bytes 12 4)
  ensure (irEnd + 32 ≤ bytes.length) (.cache "cache blob truncated")
  ensure ((host.sha256 (bytes.take irEnd)).bytes = slice bytes irEnd 32)
    (.cache "sha256 digest mismatch")
  let ir ← (host.decodeIr ((bytes.take irEnd).drop 16)).mapError
    fun e => .cache s!"deserialize ir: {e}"
  return { ir, sandbox := unpackSandbox sandboxBits }

end Relon.Cache
