import Relon.Abi.BuilderProofs

/-! Reading back what was written.

A session is a caller's use of a builder: any number of `write_value` calls, all
accepted. `Session.reads_back` says that a reader over the finished bytes gives
back the last value each field was written with, in normal form.

The one condition is `relocSafe`. When a record is written it is built apart and
pasted, and the relocation walk over it has no descriptor for lists nested three
deep over inline scalars: their innermost pointers stay relative to the detached
buffer. `nested_list_misread` is such a value. -/
namespace Relon.Abi
open Bytes Reloc Relon.Except

/-- The builder `b` is what a caller has after writing `writes` to a fresh one. -/
structure Session (s : Schema) (table : OffsetTable) (writes : List (String × TypeRepr × Value))
    (b : BufferBuilder) : Prop where
  layout : offsetsFor s = .ok table
  distinct : s.distinct = true
  run : writeAll (BufferBuilder.new table s.fields) writes = .ok b
  small : b.finish.length < 2 ^ 32

section Session
variable {s : Schema} {table : OffsetTable} {writes : List (String × TypeRepr × Value)}
  {b : BufferBuilder}

theorem Session.names (h : Session s table writes b) : (s.fields.map Field.name).Nodup :=
  (Schema.distinct_iff.mp h.distinct).1

/-- A session fills every field it writes. -/
theorem Session.filled (h : Session s table writes b) (mode : Mode) :
    ∃ m σ, BuilderInv mode s table b m σ ∧
      ∀ f ∈ s.fields, ∀ v, lastWrite f.name writes = some v → mode.Safe f.ty v →
        ∃ x, σ f.name = some x ∧ x.written = v := by
  have hspec : ∀ f ∈ s.fields, ∀ mode, SlotSpec mode f.ty := fun f hf =>
    slotSpec f.ty (layoutable_field h.layout hf) ((Schema.distinct_iff.mp h.distinct).2 f hf)
  obtain ⟨m, σ, hinv, -, hset⟩ :=
    (builderInv_new mode s table).writeAll h.layout h.names hspec h.run h.small
  exact ⟨m, σ, hinv, hset⟩

/-- A filled slot reads back. -/
theorem SlotHolds.reads {m : Image} {lo hi : Nat} {x : TypeRepr × Nat} {v : Value} {E : List Event}
    (h : SlotHolds .plain m lo hi x v E) (hhi : hi ≤ m.length) (hx : x.2 + slotSize x.1 ≤ m.length)
    (hlt : m.length < 2 ^ 32) : readFieldAt (render m) x.2 x.1 = .ok v := by
  have hstored := h.cons (Nat.zero_le lo) hhi (Nat.zero_le x.2) hx .nil
  have hdecodes := hstored.decodes hlt (Nat.le_refl _)
  cases hdecodes with
  | cons hslot _ => exact hslot.field

/-- **Round trip.** Over the finished bytes, `read_value` gives back the value each field was
last written with. -/
theorem Session.reads_back (h : Session s table writes b) :
    ∃ r, BufferReader.new table s.fields b.finish = .ok r ∧
      ∀ f ∈ s.fields, ∀ v, lastWrite f.name writes = some v → relocSafe false f.ty v = true →
        r.readValue f.name f.ty = .ok (normalise f.ty v) := by
  obtain ⟨m, σ, hinv, hset⟩ := h.filled .plain
  have hroot := hinv.filled.root
  have hbytes : b.finish = render m := hinv.bytes
  have hlt : m.length < 2 ^ 32 := by
    have := h.small
    rwa [hbytes, length_render] at this
  refine ⟨_, if_neg (by rw [hbytes, length_render]; omega), fun f hf v hlast hsafe => ?_⟩
  obtain ⟨x, hx, rfl⟩ := hset f hf v hlast hsafe
  obtain ⟨fo, hmem⟩ := exists_slot h.layout hf
  rw [BufferReader.readValue_eq 0 h.layout h.names rfl hmem, hbytes, Nat.zero_add]
  have hslot := slot_in_root h.layout h.names hmem
  exact (hinv.filled.held f fo x hmem hx).1.reads (hinv.filled.range _ x hx).2 (by simp only; omega) hlt

end Session

/-! ### Runs -/

/-- The table and the builder of a session, computed. -/
def runSession (s : Schema) (writes : List (String × TypeRepr × Value)) :
    Option (OffsetTable × BufferBuilder) := do
  let table ← (offsetsFor s).toOption
  let b ← (writeAll (BufferBuilder.new table s.fields) writes).toOption
  return (table, b)

theorem toOption_eq_some {ε α : Type} {x : Except ε α} {a : α} : x.toOption = some a ↔ x = .ok a := by
  cases x <;> simp [Except.toOption]

/-- What evaluation says about a run, said of its session. -/
theorem session_of_run (s : Schema) (writes : List (String × TypeRepr × Value)) {α : Type}
    {f : OffsetTable → BufferBuilder → α} {a : α} {n : Nat} (hd : s.distinct = true)
    (h : (runSession s writes).map (fun x => (x.2.finish.length, f x.1 x.2)) = some (n, a))
    (hn : n < 2 ^ 32) : ∃ table b, Session s table writes b ∧ b.finish.length = n ∧ f table b = a := by
  simp only [runSession, Option.bind_eq_bind, Option.map_eq_some_iff, Option.bind_eq_some_iff,
    toOption_eq_some, Option.pure_def, Option.some.injEq, Prod.mk.injEq] at h
  obtain ⟨x, ⟨table, ht, b, hb, rfl⟩, hlen, hf⟩ := h
  exact ⟨table, b, ⟨ht, hd, hb, hlen ▸ hn⟩, hlen, hf⟩

/-- One field of the finished bytes. -/
def readField (s : Schema) (name : String) (ty : TypeRepr) (table : OffsetTable) (b : BufferBuilder) :
    Except BufferError Value := do
  let r ← BufferReader.new table s.fields b.finish
  r.readValue name ty

/-- A record with a list nested three deep. -/
def cubeRecord : Schema :=
  { name := "R", generics := [], fields := [⟨"x", .list (.list (.list .int)), none⟩], isTuple := false }

def cube (items : List Value) : Value := .dict [("x", .list [.list [.list items]])] (some "R") none

/-- A root whose only field is such a record. -/
def cubeRoot : Schema :=
  { name := "Root", generics := [], fields := [⟨"r", .schema cubeRecord, none⟩], isTuple := false }

/-- The innermost pointer of a nested list still counts from the detached record. Written with
`1`, the list reads back with the pointer's own bytes as its integer. -/
theorem nested_list_misread :
    ∃ table b r, Session cubeRoot table [("r", .schema cubeRecord, cube [.int 1])] b ∧
      BufferReader.new table cubeRoot.fields b.finish = .ok r ∧
      normalise (.schema cubeRecord) (cube [.int 1]) = cube [.int 1] ∧
      r.readValue "r" (.schema cubeRecord) = .ok (cube [.int 4294967316]) := by
  obtain ⟨table, b, hs, -, hrun⟩ := session_of_run cubeRoot
    [("r", .schema cubeRecord, cube [.int 1])] (n := 40)
    (f := readField cubeRoot "r" (.schema cubeRecord)) (a := .ok (cube [.int 4294967316]))
    (by decide +kernel) (by decide +kernel) (by omega)
  obtain ⟨r, hr, hres⟩ := bind_eq_ok.mp hrun
  exact ⟨table, b, r, hs, hr, by decide +kernel, hres⟩

/-- A root with integers before such a record. -/
def paddedCubeRoot : Schema :=
  { name := "Root", generics := []
    fields := [⟨"a", .int, none⟩, ⟨"b", .int, none⟩, ⟨"c", .int, none⟩, ⟨"d", .int, none⟩,
      ⟨"r", .schema cubeRecord, none⟩]
    isTuple := false }

/-- A stale pointer need not show. Here it leads into the integers of the root, where an empty
list happens to stand. -/
theorem stale_pointer_reads_back : (runSession paddedCubeRoot
        [("a", .int, .int 0), ("b", .int, .int 0), ("c", .int, .int 0), ("d", .int, .int 0),
          ("r", .schema cubeRecord, cube [])]).map
        (fun x => readField paddedCubeRoot "r" (.schema cubeRecord) x.1 x.2) = some (.ok (cube [])) ∧
      relocSafe false (.schema cubeRecord) (cube []) = false := by
  decide +kernel

/-- A record that nests a list twice, an optional string and a tuple. -/
def nestedRecord : Schema :=
  { name := "R", generics := []
    fields := [⟨"xs", .list (.list .int), none⟩, ⟨"o", .option .string, none⟩,
      ⟨"t", .schema { name := "T", generics := []
                      fields := [⟨"0", .bool, none⟩, ⟨"1", .float, none⟩], isTuple := true }, none⟩]
    isTuple := false }

def nestedRoot : Schema :=
  { name := "Root", generics := [], fields := [⟨"r", .schema nestedRecord, none⟩], isTuple := false }

def nestedValue (x : Value) : Value :=
  .dict [("o", .optionSome (.string "é")), ("t", .tuple [.bool true, x]),
    ("xs", .list [.list [.int 1, .int (-2)], .list []])] (some "R") none

def nestedWrites : List (String × TypeRepr × Value) :=
  [("r", .schema nestedRecord, nestedValue (.int 3))]

theorem nestedValue_facts : nestedRoot.distinct = true ∧
      (runSession nestedRoot nestedWrites).map (fun x => (x.2.finish.length, ())) = some (96, ()) ∧
      normalise (.schema nestedRecord) (nestedValue (.int 3)) =
        nestedValue (.float 0x4008000000000000) ∧
      relocSafe false (.schema nestedRecord) (nestedValue (.int 3)) = true ∧
      relocSafe true (.schema nestedRecord) (nestedValue (.int 3)) = true ∧
      alignSafe (.schema nestedRecord) (nestedValue (.int 3)) = true ∧
      startAlignment (.schema nestedRecord) = some 4 := by
  decide +kernel

theorem nestedRoot_session : ∃ table b, Session nestedRoot table nestedWrites b ∧
      b.finish.length = 96 := by
  obtain ⟨hd, hrun, -⟩ := nestedValue_facts
  obtain ⟨table, b, hs, hlen, -⟩ := session_of_run nestedRoot nestedWrites
    (f := fun _ _ => ()) hd hrun (by omega)
  exact ⟨table, b, hs, hlen⟩

/-- The integer written to the tuple's float slot reads back as that float. -/
theorem Session.reads_back_nested : ∃ table b r, Session nestedRoot table nestedWrites b ∧
      BufferReader.new table nestedRoot.fields b.finish = .ok r ∧
      r.readValue "r" (.schema nestedRecord) = .ok (nestedValue (.float 0x4008000000000000)) := by
  obtain ⟨table, b, hs, -⟩ := nestedRoot_session
  obtain ⟨r, hr, hread⟩ := hs.reads_back
  obtain ⟨-, -, hnormal, hsafe, -⟩ := nestedValue_facts
  rw [← hnormal]
  exact ⟨table, b, r, hs, hr, hread ⟨"r", .schema nestedRecord, none⟩ (by simp [nestedRoot]) _ rfl hsafe⟩

end Relon.Abi
