import Relon.Cache.Load

/-! Loads addressed by content (`storage.rs`).

Without an installation key, `load` in `Strict` mode trusts only the key it is asked for: it
decodes whatever the file holds, hashes the object and the metadata that matter for security
again, and compares. `contentMessage` is what it hashes, and determines what it was made of. -/
namespace Relon.Cache
open Relon.Bytes Relon.Except List
open Abi (utf8Bytes)

/-! ### The key of an entry -/

def importMessage (imp : HostFnImport) : List UInt8 :=
  leBytes 8 (utf8Bytes imp.name).length ++ (utf8Bytes imp.name ++ (leBytes 4 imp.capBit.toNat ++
    (imp.paramsHash.bytes ++ imp.returnsHash.bytes)))

/-- What `content_key` feeds to the digest. -/
def contentMessage (objectBytes : List UInt8) (metadata : Metadata) : List UInt8 :=
  utf8Bytes "relon-object-cache/content-key/v1\x00" ++ (leBytes 8 objectBytes.length ++
    (objectBytes ++ (leBytes 8 metadata.capBitmap.toNat ++ (metadata.mainSignature.bytes ++
      (leBytes 8 metadata.hostFnImports.length ++ metadata.hostFnImports.flatMap importMessage)))))

/-- The lengths of its vectors and strings are `u64`s. -/
structure Metadata.Fits (metadata : Metadata) : Prop where
  imports : metadata.hostFnImports.length < 256 ^ 8
  names : ∀ imp ∈ metadata.hostFnImports, (utf8Bytes imp.name).length < 256 ^ 8

theorem importMessage_append_inj {a b : HostFnImport} {x y : List UInt8}
    (ha : (utf8Bytes a.name).length < 256 ^ 8) (hb : (utf8Bytes b.name).length < 256 ^ 8)
    (h : importMessage a ++ x = importMessage b ++ y) : a = b ∧ x = y := by
  simp only [importMessage, append_assoc] at h
  obtain ⟨length, h⟩ := leBytes_append_inj ha hb h
  obtain ⟨name, h⟩ := append_inj h length
  obtain ⟨bit, h⟩ := leBytes_append_inj a.capBit.toNat_lt b.capBit.toNat_lt h
  obtain ⟨params, h⟩ := append_inj h (a.paramsHash.size.trans b.paramsHash.size.symm)
  obtain ⟨returns, rest⟩ := append_inj h (a.returnsHash.size.trans b.returnsHash.size.symm)
  refine ⟨?_, rest⟩
  cases a
  cases b
  exact HostFnImport.mk.injEq .. ▸ ⟨utf8Bytes_injective name, UInt32.toNat_inj.mp bit,
    Digest.ext_bytes params, Digest.ext_bytes returns⟩

/-- As many imports as the count in front says. -/
theorem importMessages_inj {as bs : List HostFnImport} (length : as.length = bs.length)
    (ha : ∀ imp ∈ as, (utf8Bytes imp.name).length < 256 ^ 8)
    (hb : ∀ imp ∈ bs, (utf8Bytes imp.name).length < 256 ^ 8)
    (h : as.flatMap importMessage = bs.flatMap importMessage) : as = bs := by
  induction as generalizing bs with
  | nil => exact (length_eq_zero_iff.mp length.symm).symm
  | cons a as ih =>
    cases bs with
    | nil => cases length
    | cons b bs =>
      rw [forall_mem_cons] at ha hb
      rw [flatMap_cons, flatMap_cons] at h
      obtain ⟨rfl, rest⟩ := importMessage_append_inj ha.1 hb.1 h
      rw [ih (Nat.succ.inj length) ha.2 hb.2 rest]

theorem contentMessage_injective {o o' : List UInt8} {md md' : Metadata} (ho : o.length < 256 ^ 8)
    (ho' : o'.length < 256 ^ 8) (hm : md.Fits) (hm' : md'.Fits)
    (h : contentMessage o md = contentMessage o' md') :
    o = o' ∧ md.capBitmap = md'.capBitmap ∧ md.mainSignature = md'.mainSignature ∧
      md.hostFnImports = md'.hostFnImports := by
  rw [contentMessage, contentMessage, append_cancel_left_eq] at h
  obtain ⟨size, h⟩ := leBytes_append_inj ho ho' h
  obtain ⟨object, h⟩ := append_inj h size
  obtain ⟨caps, h⟩ := leBytes_append_inj md.capBitmap.toNat_lt md'.capBitmap.toNat_lt h
  obtain ⟨main, h⟩ := append_inj h (md.mainSignature.size.trans md'.mainSignature.size.symm)
  obtain ⟨count, h⟩ := leBytes_append_inj hm.imports hm'.imports h
  exact ⟨object, UInt64.toNat_inj.mp caps, Digest.ext_bytes main,
    importMessages_inj count hm.names hm'.names h⟩

/-! ### Loading -/

inductive IntegrityMode where
  | strict
  | hmacRequired
  deriving DecidableEq, Repr

/-- The primitives of the object cache: the digest, the tag under a given key, and the decoder
of the trailer, whose results are values of this machine. -/
structure ObjectStore where
  sha256 : List UInt8 → Digest
  hmac : Digest → List UInt8 → Digest
  decode : List UInt8 → Except String Metadata
  fits : ∀ bytes metadata, decode bytes = .ok metadata → metadata.Fits

variable (store : ObjectStore)

def ObjectStore.contentKey (objectBytes : List UInt8) (metadata : Metadata) : Digest :=
  store.sha256 (contentMessage objectBytes metadata)

def IntegrityMode.enforceHmacPresent (mode : IntegrityMode) (hmacKey : Option Digest) :
    Except CacheError Unit :=
  ensure (¬ (mode = .hmacRequired ∧ hmacKey = none)) .hmacRequired

def ObjectStore.load (read : FileName → Except IoError (List UInt8)) (sourceSha256 : Digest)
    (expectedTriple : String) (hmacKey : Option Digest) (integrity : IntegrityMode) :
    Except CacheError (Option CacheEntry) := do
  integrity.enforceHmacPresent hmacKey
  match read ⟨sourceSha256, .native⟩ with
  | .error .notFound => return none
  | .error .other => .error (.io "read")
  | .ok bytes =>
    let entry ← decodeBlobWith store.decode (hmacKey.map store.hmac) bytes expectedTriple
    if integrity = .strict then
      ensure (store.contentKey entry.objectBytes entry.metadata = sourceSha256) .sha256Mismatch
    return some entry

variable {store}

theorem decodeBlobWith_fits {bytes : List UInt8} {triple : String} {entry : CacheEntry}
    {hmac : Option (List UInt8 → Digest)}
    (h : decodeBlobWith store.decode hmac bytes triple = .ok entry) :
    entry.objectBytes.length < 256 ^ 8 ∧ entry.metadata.Fits := by
  simp only [decodeBlobWith, bind_eq_ok, mapError_eq_ok, ensure_eq_ok, pure_eq_iff] at h
  obtain ⟨-, -, -, -, -, -, -, -, _, -, -, -, -, -, -, -, metadata, decoded, -, -, rfl⟩ := h
  refine ⟨?_, store.fits _ _ decoded⟩
  -- the size of the object is read from four bytes
  have size := leNat_lt (slice bytes (9 + leNat (slice bytes 8 1)) 4)
  have four : (slice bytes (9 + leNat (slice bytes 8 1)) 4).length ≤ 4 := length_take_le ..
  calc _ ≤ leNat (slice bytes (9 + leNat (slice bytes 8 1)) 4) := length_take_le ..
    _ < 256 ^ (slice bytes (9 + leNat (slice bytes 8 1)) 4).length := size
    _ ≤ 256 ^ 8 := Nat.pow_le_pow_right (by decide) (by omega)

/-- What a load in `Strict` mode has checked of the entry it returns. -/
theorem load_strict_ok {read : FileName → Except IoError (List UInt8)} {k : Digest}
    {triple : String} {hmacKey : Option Digest} {entry : CacheEntry}
    (h : store.load read k triple hmacKey .strict = .ok (some entry)) :
    entry.objectBytes.length < 256 ^ 8 ∧ entry.metadata.Fits ∧
      store.contentKey entry.objectBytes entry.metadata = k := by
  rw [ObjectStore.load, bind_eq_ok] at h
  obtain ⟨-, -, h⟩ := h
  split at h
  · cases h
  · cases h
  · simp only [bind_eq_ok, if_true, ensure_eq_ok, pure_eq_iff, Option.some.injEq] at h
    obtain ⟨_, decoded, -, same, rfl⟩ := h
    exact ⟨(decodeBlobWith_fits decoded).1, (decodeBlobWith_fits decoded).2, same⟩

/-- Two loads under one key, whatever the files hold and whichever keys tag them, return the
same code, capabilities, signature and imports, unless the two messages are a collision of the
digest. -/
theorem load_content_addressed {read read' : FileName → Except IoError (List UInt8)} {k : Digest}
    {triple triple' : String} {hmacKey hmacKey' : Option Digest} {entry entry' : CacheEntry}
    (h : store.load read k triple hmacKey .strict = .ok (some entry))
    (h' : store.load read' k triple' hmacKey' .strict = .ok (some entry'))
    (collisionFree : Set.InjOn store.sha256 {contentMessage entry.objectBytes entry.metadata,
      contentMessage entry'.objectBytes entry'.metadata}) : entry.objectBytes = entry'.objectBytes ∧
      entry.metadata.capBitmap = entry'.metadata.capBitmap ∧
      entry.metadata.mainSignature = entry'.metadata.mainSignature ∧
      entry.metadata.hostFnImports = entry'.metadata.hostFnImports := by
  obtain ⟨size, fits, key⟩ := load_strict_ok h
  obtain ⟨size', fits', key'⟩ := load_strict_ok h'
  apply contentMessage_injective size size' fits fits'
  exact collisionFree (.inl rfl) (.inr rfl) (key.trans key'.symm)

/-! A store that takes every trailer for a build at the time its length says, and two files of
one object. -/

def zeroDigest : Digest := ⟨List.replicate 32 0, rfl⟩

def exampleStore : ObjectStore where
  sha256 _ := zeroDigest
  hmac _ _ := zeroDigest
  decode bytes := .ok ⟨[⟨"log", 3, zeroDigest, zeroDigest⟩], 8, zeroDigest, .ofNat bytes.length, ""⟩
  fits bytes metadata h := by
    cases h
    exact ⟨show 1 < 256 ^ 8 by decide, forall_mem_singleton.mpr (by decide +kernel)⟩

/-- A file with object `[7]` and a trailer of `n` bytes. -/
def exampleFile (n : Nat) : List UInt8 :=
  cacheMagic ++ leBytes 4 1 ++ leBytes 1 1 ++ [120] ++ leBytes 4 1 ++ [7] ++ leBytes 4 n ++
    List.replicate n 1 ++ List.replicate 32 0

/-- Two builds of one source differ in their trailers only, and strict loads tell the same of both. -/
theorem rebuilt_object_same_content :
    ∃ entry entry', exampleStore.load (fun _ => .ok (exampleFile 1)) zeroDigest "x" none .strict =
        .ok (some entry) ∧
      exampleStore.load (fun _ => .ok (exampleFile 2)) zeroDigest "x" (some zeroDigest) .strict =
        .ok (some entry') ∧ entry ≠ entry' ∧ entry.objectBytes = entry'.objectBytes ∧
      entry.metadata.capBitmap = entry'.metadata.capBitmap ∧
      entry.metadata.mainSignature = entry'.metadata.mainSignature ∧
      entry.metadata.hostFnImports = entry'.metadata.hostFnImports := by
  let entry (n : UInt64) : CacheEntry :=
    ⟨"x", [7], ⟨[⟨"log", 3, zeroDigest, zeroDigest⟩], 8, zeroDigest, n, ""⟩⟩
  have h : exampleStore.load (fun _ => .ok (exampleFile 1)) zeroDigest "x" none .strict =
      .ok (some (entry 1)) := by decide +kernel
  have h' : exampleStore.load (fun _ => .ok (exampleFile 2)) zeroDigest "x" (some zeroDigest)
      .strict = .ok (some (entry 2)) := by decide +kernel
  exact ⟨entry 1, entry 2, h, h', by decide, load_content_addressed h h' (by
    rw [show contentMessage (entry 2).objectBytes (entry 2).metadata =
      contentMessage (entry 1).objectBytes (entry 1).metadata from rfl, Set.pair_eq_singleton]
    exact Set.injOn_singleton ..)⟩

end Relon.Cache
