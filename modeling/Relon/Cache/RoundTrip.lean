import Relon.Cache.Load

/-! What is stored is loaded.

The three files of an entry are written by three encoders and read back by three decoders
with checks of their own. Whatever stood in the directory before, a load behind a complete
write passes them all, and runs the object and the schema entry that were written. -/
namespace Relon.Cache
open Relon.Bytes Relon.Except List
open Abi (utf8Bytes utf8Decode)

variable {Ir : Type} {host : Host Ir}

/-! ### Reading back -/

section
variable {bytes out xs : List UInt8} {tag : Digest} {p w n : Nat}

theorem slice_holds (h : Holds bytes p xs) (size : xs.length = n) : slice bytes p n = xs := by
  rw [← size]
  exact slice_of_holds h

theorem leNat_holds (h : Holds bytes p (leBytes w n)) (small : n < 256 ^ w) :
    leNat (slice bytes p w) = n := by
  rw [slice_holds h (by simp), leNat_leBytes small]

/-- The file is `out` and a digest behind it. -/
structure Closed (bytes out : List UInt8) (tag : Digest) : Prop where
  held : Holds bytes 0 out
  front : bytes.take out.length = out
  back : bytes.drop out.length = tag.bytes
  length : bytes.length = out.length + 32

theorem closed (out : List UInt8) (tag : Digest) : Closed (out ++ tag.bytes) out tag where
  held k x h := by
    rw [Nat.zero_add, getElem?_append_left (List.getElem?_eq_some_iff.mp h).1, h]
  front := take_left
  back := drop_left
  length := by rw [length_append, tag.size]

theorem Closed.tagAt (h : Closed bytes out tag) : slice bytes out.length 32 = tag.bytes := by
  rw [slice, h.back, take_of_length_le (Nat.le_of_eq tag.size)]

end

theorem decodeBlob_encodeBlob {triple : String} {object bytes : List UInt8} {metadata : Metadata}
    (h : encodeBlob host triple object metadata = .ok bytes) :
    decodeBlob host bytes triple = .ok ⟨triple, object, metadata⟩ := by
  simp only [encodeBlob, encodeBody, bind_eq_ok, mapError_eq_ok, ensure_eq_ok, pure_eq_iff] at h
  obtain ⟨out, ⟨-, shortTriple, -, shortObject, trailer, encoded, -, shortTrailer, made⟩, rfl⟩ := h
  have file := closed out (host.hmac out)
  generalize out ++ (host.hmac out).bytes = bytes at file
  have size : out.length = 9 + (utf8Bytes triple).length + 4 + object.length + 4 + trailer.length := by
    rw [← made]
    simp [cacheMagic]
    omega
  have total : bytes.length = out.length + hmacTagLen := file.length
  have held := file.held
  rw [← made] at held
  simp only [append_assoc, holds_append, length_leBytes, Nat.zero_add, Nat.reduceAdd,
    show cacheMagic.length = 4 from rfl] at held
  obtain ⟨magic, version, tripleLen, tripleAt, objectLen, objectAt, trailerLen, trailerAt⟩ := held
  have magic : bytes.take 4 = cacheMagic := slice_holds magic rfl
  simp only [decodeBlob, decodeBlobWith, bind_eq_ok, ensure_eq_ok, okOr_eq_ok, mapError_eq_ok,
    pure_eq_iff, Option.elim, leNat_holds version (by decide : cacheVersion < 256 ^ 4),
    leNat_holds tripleLen (by simpa using shortTriple), slice_holds tripleAt rfl,
    leNat_holds objectLen shortObject, slice_holds objectAt rfl, leNat_holds trailerLen shortTrailer,
    slice_holds trailerAt rfl, ← size, file.front, file.back]
  exact ⟨(), by omega, (), magic, (), trivial, (), by omega, triple,
    Abi.utf8Decode_utf8Bytes triple, (), rfl, (), by omega, (), by omega, metadata,
    host.metadata.inverts _ _ encoded, (), trivial, rfl⟩

theorem deserialize_serialize {entry : SchemaCacheEntry} {src obj : Digest} {bytes : List UInt8}
    (h : serialize host entry src obj = .ok bytes) : deserialize host bytes src obj = .ok entry := by
  simp only [serialize, sidecarBody, bind_eq_ok, mapError_eq_ok, ensure_eq_ok, pure_eq_iff] at h
  obtain ⟨out, ⟨body, encoded, -, short, made⟩, rfl⟩ := h
  have file := closed out (host.hmac (hmacInput out src obj entry.entryShape entry.entryArity))
  generalize out ++ Digest.bytes _ = bytes at file
  have size : out.length = 12 + body.length := by
    rw [← made]
    simp [schemaCacheMagic]
    omega
  have inner : out.drop 12 = body := by
    rw [← made]
    simp [schemaCacheMagic, drop_append]
  have total := file.length
  have held := file.held
  rw [← made] at held
  simp only [holds_append, length_leBytes, Nat.zero_add, Nat.reduceAdd,
    show schemaCacheMagic.length = 4 from rfl] at held
  obtain ⟨magic, version, bodyLen, -⟩ := held
  have magic : bytes.take 4 = schemaCacheMagic := slice_holds magic rfl
  simp only [deserialize, readSidecar, bind_eq_ok, ensure_eq_ok, mapError_eq_ok, pure_eq_iff,
    leNat_holds version (by decide : schemaCacheVersion < 256 ^ 4), leNat_holds bodyLen short,
    ← size, file.front, inner, file.tagAt]
  exact ⟨_, ⟨(), by omega, (), magic, (), trivial, (), by omega, entry,
    host.schema.inverts _ _ encoded, rfl⟩, (), rfl, rfl⟩

theorem deserializeIr_serializeIr {entry : IrCacheEntry Ir} {bytes : List UInt8}
    (readable : ∀ blob, host.encodeIr entry.ir = .ok blob → ∃ ir, host.decodeIr blob = .ok ir)
    (h : serializeIr host entry = .ok bytes) :
    ∃ ir, deserializeIr host bytes = .ok ⟨ir, entry.sandbox⟩ := by
  simp only [serializeIr, bind_eq_ok, mapError_eq_ok, ensure_eq_ok, pure_eq_iff] at h
  obtain ⟨blob, encoded, -, short, rfl⟩ := h
  generalize made : cacheMagic ++ leBytes 4 cacheFormatVersion ++
    leBytes 4 (packSandbox entry.sandbox) ++ leBytes 4 blob.length ++ blob = out
  have file := closed out (host.sha256 out)
  generalize out ++ (host.sha256 out).bytes = bytes at file
  have size : out.length = 16 + blob.length := by
    rw [← made]
    simp [cacheMagic]
    omega
  have inner : out.drop 16 = blob := by
    rw [← made]
    exact drop_left' (by simp [cacheMagic])
  have total := file.length
  have held := file.held
  rw [← made] at held
  simp only [append_assoc, holds_append, length_leBytes, Nat.zero_add, Nat.reduceAdd,
    show cacheMagic.length = 4 from rfl] at held
  obtain ⟨magic, version, bits, blobLen, -⟩ := held
  have magic : bytes.take 4 = cacheMagic := slice_holds magic rfl
  obtain ⟨ir, decoded⟩ := readable blob encoded
  refine ⟨ir, ?_⟩
  simp only [deserializeIr, bind_eq_ok, ensure_eq_ok, mapError_eq_ok, pure_eq_iff,
    leNat_holds version (by decide : cacheFormatVersion < 256 ^ 4),
    leNat_holds bits (packSandbox_lt _), leNat_holds blobLen short, ← size, file.front, inner,
    file.tagAt, unpackSandbox_packSandbox]
  exact ⟨(), by omega, (), magic, (), trivial, (), by omega, (), trivial, ir, decoded, rfl⟩

/-! ### Behind a write -/

section
variable {w : Write Ir} {past : List (Event Ir)}

theorem directory_store_other {s suffix : Suffix} (other : s ≠ suffix) :
    directory host (.store s w :: past) ⟨w.key host, suffix⟩ = directory host past ⟨w.key host, suffix⟩ := by
  rw [directory]
  split
  · exact if_neg fun same => other (congrArg FileName.suffix same)
  · rfl

theorem directory_store {suffix : Suffix} {bytes : List UInt8}
    (h : w.stored host suffix = some bytes) :
    directory host (.store suffix w :: past) ⟨w.key host, suffix⟩ = some bytes := by
  rw [directory, h]
  exact if_pos rfl

/-- The files a complete write leaves, whatever stood there before. -/
theorem directory_written {suffix : Suffix} {bytes : List UInt8}
    (h : w.stored host suffix = some bytes) :
    directory host (.store .schema w :: .store .ir w :: .store .native w :: past) ⟨w.key host, suffix⟩ =
      some bytes := by
  cases suffix with
  | native =>
    rw [directory_store_other (by decide), directory_store_other (by decide), directory_store h]
  | ir => rw [directory_store_other (by decide), directory_store h]
  | schema => exact directory_store h

theorem toOption_eq_some {ε α : Type} {x : Except ε α} {a : α} (h : x.toOption = some a) : x = .ok a := by
  cases x with
  | error e => cases h
  | ok b => exact congrArg Except.ok (Option.some.inj h)

/-- A load behind a complete write of the same source and build finds the three files in order
and runs what was written. The decoder has to accept what the encoder wrote of the IR, whatever
module it makes of it. -/
theorem written_entry_loads (usable : host.supported = true ∧ host.keyed = true)
    (sandbox : w.sandbox = .default) (build : w.build = host.build)
    (readable : ∀ blob, host.encodeIr w.ir = .ok blob → ∃ ir, host.decodeIr blob = .ok ir)
    (stores : ∀ suffix, (w.stored host suffix).isSome) (past : List (Event Ir)) (now : UInt64) :
    fromCacheDir host w.source now (fun name => okOr (directory host
      (.store .schema w :: .store .ir w :: .store .native w :: past) name) .notFound) =
    openObject host w.object w.entry := by
  have key : host.computeSourceHash w.source .default = w.key host := by
    simp [Write.key, Write.host, Host.computeSourceHash, sandbox, build]
  have compatible : ∀ a b, metadataCompatible (host.expectedMetadata w.source host.build a)
      (host.expectedMetadata w.source host.build b) = true := by
    simp [metadataCompatible, Host.expectedMetadata]
  obtain ⟨object, storedObject⟩ := Option.isSome_iff_exists.mp (stores .native)
  obtain ⟨ir, storedIr⟩ := Option.isSome_iff_exists.mp (stores .ir)
  obtain ⟨schema, storedSchema⟩ := Option.isSome_iff_exists.mp (stores .schema)
  have readObject := decodeBlob_encodeBlob (toOption_eq_some storedObject)
  obtain ⟨_, readIr⟩ := deserializeIr_serializeIr readable (toOption_eq_some storedIr)
  have readSchema := deserialize_serialize (toOption_eq_some storedSchema)
  rw [build] at readObject
  simp [fromCacheDir, tryLoadFromCache, loadObject, readOr, key, directory_written storedObject,
    directory_written storedIr, directory_written storedSchema, okOr, usable, readObject, readIr,
    readSchema, compatible, sandbox, ensure, Except.mapError, bind, Except.bind, pure, Except.pure]

end

/-- Behind a write, at a time of its own, and whatever file was dropped before it. -/
theorem small_write_loads :
    fromCacheDir Small.host Small.source 5 (fun name => okOr (directory Small.host
      [.store .schema Small.write, .store .ir Small.write, .store .native Small.write,
        .put ⟨Small.write.key Small.host, .native⟩ (some [])] name) .notFound) =
    openObject Small.host [7] Small.entry :=
  @written_entry_loads _ Small.host Small.write ⟨rfl, rfl⟩ rfl rfl (fun _ _ => ⟨(), rfl⟩)
    (by rintro (_ | _ | _) <;> decide +kernel) _ 5

end Relon.Cache
