import Relon.Abi.Stored

/-! Values as the writer takes them apart.

Writing `v` into a slot of type `ty` writes the `parts ty v` in turn: a list's
items, a record's fields, a variant's payload. `normalise` puts the normalised
parts together again and is what the codec gives back for `v`. The other
functions here are recursions over the same parts: where the relocation walk
would pass a pointer by (`relocSafe`), and whether every record below a pasted
one keeps its alignment (`alignSafe`). -/
namespace Relon.Abi
open Relon.Except List

/-! ### Variants -/

/-- The values a variant slot accepts, with their tag and payload. -/
inductive VariantShape : TypeRepr → Value → UInt8 → Option (TypeRepr × Value) → Prop
  | optionNone {inner : TypeRepr} {map : ValueMap} :
    VariantShape (.option inner) (.dict map (some "None") (some "Option")) 0 none
  | optionSome {inner : TypeRepr} {map : ValueMap} {p : Value} : map.get "value" = some p →
    VariantShape (.option inner) (.dict map (some "Some") (some "Option")) 1 (some (inner, p))
  | resultOk {ok err : TypeRepr} {map : ValueMap} {p : Value} : map.get "value" = some p →
    VariantShape (.result ok err) (.dict map (some "Ok") (some "Result")) 0 (some (ok, p))
  | resultErr {ok err : TypeRepr} {map : ValueMap} {p : Value} : map.get "error" = some p →
    VariantShape (.result ok err) (.dict map (some "Err") (some "Result")) 1 (some (err, p))
  | enumUnit {name : String} {variants : List EnumVariant} {variant : EnumVariant} :
    variants.find? (fun v => v.name == variant.name) = some variant → variant.fields = [] →
    VariantShape (.enum name variants) (.dict [] (some variant.name) (some name)) variant.tag none
  | enumPayload {name : String} {variants : List EnumVariant} {variant : EnumVariant} {s : Schema}
      {map : ValueMap} :
    variants.find? (fun v => v.name == variant.name) = some variant →
    variant.payloadSchema name = some s →
    VariantShape (.enum name variants) (.dict map (some variant.name) (some name)) variant.tag
      (some (.schema s, .dict map (some variant.name) (some name)))

variable {ty : TypeRepr} {v : Value} {tag : UInt8} {payload : Option (TypeRepr × Value)}
  {deep : Bool}

theorem variantPayloadForValue_eq_ok (name : String) :
    variantPayloadForValue name ty v = .ok (tag, payload) ↔ VariantShape ty v tag payload := by
  constructor
  · intro h
    unfold variantPayloadForValue at h
    split at h
    · split at h
      · split at h
        · rename_i hb
          obtain ⟨rfl, rfl⟩ := hb
          cases h
          exact .optionNone
        · split at h
          · rename_i hb
            obtain ⟨rfl, rfl⟩ := hb
            split at h <;> cases h
            exact .optionSome ‹_›
          · cases h
      · split at h
        · rename_i hb
          obtain ⟨rfl, rfl⟩ := hb
          split at h <;> cases h
          exact .resultOk ‹_›
        · split at h
          · rename_i hb
            obtain ⟨rfl, rfl⟩ := hb
            split at h <;> cases h
            exact .resultErr ‹_›
          · cases h
      · split at h
        · split at h
          · cases h
          · rename_i hname
            split at h
            · cases h
            · rename_i variant hv
              have hvn := List.find?_some hv
              rw [beq_iff_eq] at hvn
              rw [ne_eq, not_not] at hname
              subst hname hvn
              split at h
              · rename_i hempty
                split at h <;> cases h
                rename_i hmap
                rw [Bool.not_eq_true', Bool.not_eq_false, List.isEmpty_iff] at hmap
                subst hmap
                exact .enumUnit hv (List.isEmpty_iff.mp hempty)
              · split at h <;> cases h
                exact .enumPayload hv ‹_›
        · cases h
      · cases h
    · cases h
  · intro h
    cases h with
    | optionNone => simp [variantPayloadForValue]
    | optionSome hp => simp [variantPayloadForValue, hp]
    | resultOk hp => simp [variantPayloadForValue, hp]
    | resultErr hp => simp [variantPayloadForValue, hp]
    | enumUnit hv he => simp [variantPayloadForValue, hv, he]
    | @enumPayload _ _ variant _ _ hv hs =>
      have hne : ¬ variant.fields.isEmpty = true := by
        intro he
        rw [EnumVariant.payloadSchema, if_pos he] at hs
        cases hs
      simp only [variantPayloadForValue, hv, hs]
      rw [if_neg (by simp), if_neg hne]
/-! ### Parts -/

/-- The values a record's fields are written with, in declaration order. -/
def recordItems (s : Schema) : Value → Option (List Value)
  | .dict map _ _ => if s.isTuple then none else s.fields.mapM fun f => ValueMap.get map f.name
  | .tuple items => if s.isTuple && items.length == s.fields.length then some items else none
  | _ => none

def parts (ty : TypeRepr) (v : Value) : List (TypeRepr × Value) :=
  match ty with
  | .list el =>
    match v with
    | .list items => items.map fun item => (el, item)
    | _ => []
  | .schema s => (s.fields.map Field.ty).zip ((recordItems s v).getD [])
  | variant =>
    match variantPayloadForValue "" variant v with
    | .ok (_, some part) => [part]
    | _ => []

theorem parts_weight {ty : TypeRepr} {v : Value} {x : TypeRepr × Value} (h : x ∈ parts ty v) :
    x.1.weight < ty.weight := by
  unfold parts at h
  split at h
  · split at h
    · obtain ⟨item, -, rfl⟩ := mem_map.mp h
      simp [TypeRepr.weight]
    · cases h
  · rename_i s
    obtain ⟨f, hf, hx⟩ := mem_map.mp (of_mem_zip h).1
    have := field_ty_weight_lt hf
    rw [← hx, TypeRepr.weight, Schema.weight_eq]
    omega
  · split at h
    · rename_i part hpart
      rw [mem_singleton] at h
      subst h
      exact variantPayloadForValue_weight hpart
    · cases h

/-- The value made of the given parts. An `Int` in a `Float` slot becomes that float, a
record dict has exactly the declared fields and its schema's name as brand, and a
variant keeps its payload only. -/
def assemble (ty : TypeRepr) (v : Value) (vs : List Value) : Value :=
  match ty, v, vs with
  | .float, .int i, _ => .float (f64OfInt i)
  | .unit, _, _ => .optionNone
  | .list _, .list _, vs => .list vs
  | .schema s, _, vs => recordValue s vs
  | .option _, _, [payload] => .optionSome payload
  | .option _, _, _ => .optionNone
  | .result .., .dict _ brand _, [payload] =>
    if brand = some "Ok" then .resultOk payload else .resultErr payload
  | .enum name _, .dict _ (some variant) _, [.dict map _ _] => .variantDict map variant name
  | .enum name _, .dict _ (some variant) _, _ => .variantDict [] variant name
  | _, v, _ => v

/-- What reading back gives for a written value. -/
def normalise (ty : TypeRepr) (v : Value) : Value :=
  assemble ty v ((parts ty v).attach.map fun x => normalise x.val.1 x.val.2)
termination_by ty.weight
decreasing_by exact parts_weight x.property

theorem normalise_eq (ty : TypeRepr) (v : Value) :
    normalise ty v = assemble ty v ((parts ty v).map fun x => normalise x.1 x.2) := by
  rw [normalise, attach_map_val (f := fun x : TypeRepr × Value => normalise x.1 x.2)]

theorem VariantShape.parts_eq (h : VariantShape ty v tag payload) :
    parts ty v = payload.toList := by
  have hok := (variantPayloadForValue_eq_ok "").mpr h
  cases h <;> simp only [parts, hok] <;> rfl

/-- The record of an enum's payload decodes to a dict. -/
theorem normalise_record {s : Schema} (hs : s.isTuple = false) (v : Value) :
    ∃ map, normalise (.schema s) v = .dict map (some s.name) none := by
  rw [normalise_eq]
  simp [assemble, recordValue, hs, Value.brandedDict]

/-- The tag a written enum value gets is its variant's alone. -/
theorem enumVariant_of_tag {name : String} {variants : List EnumVariant} {variant : EnumVariant}
    (hd : (TypeRepr.enum name variants).distinct = true) (hv : variant ∈ variants) :
    variantSelectedPayload (.enum name variants) variant.tag =
      .ok ⟨variant.name, (variant.payloadSchema name).map fun s => ⟨.schema s, none⟩⟩ := by
  rw [TypeRepr.distinct, Bool.and_eq_true, Bool.and_eq_true, decide_eq_true_eq, decide_eq_true_eq] at hd
  rw [variantSelectedPayload, find?_of_nodup (g := EnumVariant.tag) hd.1.2 hv]

theorem VariantShape.unit_read (h : VariantShape ty v tag none) (hd : ty.distinct = true) :
    ∃ sel, variantSelectedPayload ty tag = .ok sel ∧ sel.payload = none ∧
      variantWithoutPayload ty sel = .ok (normalise ty v) := by
  have hnorm := normalise_eq ty v
  rw [h.parts_eq] at hnorm
  cases h with
  | optionNone => exact ⟨_, rfl, rfl, by rw [hnorm]; rfl⟩
  | enumUnit hv he =>
    refine ⟨_, enumVariant_of_tag hd (List.mem_of_find?_eq_some hv), ?_, by rw [hnorm]; rfl⟩
    simp [EnumVariant.payloadSchema, he]

theorem VariantShape.payload_read {ty pty : TypeRepr} {v pv : Value}
    (h : VariantShape ty v tag (some (pty, pv))) (hd : ty.distinct = true) :
    ∃ sel p, variantSelectedPayload ty tag = .ok sel ∧ sel.payload = some p ∧ p.ty = pty ∧
      variantWithPayload ty sel p (normalise pty pv) = .ok (normalise ty v) := by
  have hnorm := normalise_eq ty v
  rw [h.parts_eq, Option.toList_some, map_singleton] at hnorm
  cases h with
  | optionSome => exact ⟨_, _, rfl, rfl, rfl, by rw [hnorm]; rfl⟩
  | resultOk => exact ⟨_, _, rfl, rfl, rfl, by rw [hnorm]; rfl⟩
  | resultErr => exact ⟨_, _, rfl, rfl, rfl, by rw [hnorm]; rfl⟩
  | enumPayload hv hs =>
    obtain ⟨map, hmap⟩ := normalise_record (EnumVariant.payloadSchema_fields hs).2 _
    refine ⟨_, ⟨.schema _, none⟩, enumVariant_of_tag hd (List.mem_of_find?_eq_some hv), by rw [hs]; rfl,
      rfl, ?_⟩
    rw [hnorm, hmap]
    rfl

/-! ### Pointers the relocation walk passes by -/

/-- An array the walk does not look behind holds an item that has entries of its own. -/
def arrayStops (ty : TypeRepr) (v : Value) : Bool :=
  match ty, v with
  | .list el, .list items => stopsAt el && items.any (· ≠ .list [])
  | _, _ => false

def TypeRepr.isRecord : TypeRepr → Bool
  | .schema _ => true
  | _ => false

/-- No such array is written inside a record that is pasted; with `deep`, not outside
either. -/
def relocSafe (deep : Bool) (ty : TypeRepr) (v : Value) : Bool :=
  !(deep && arrayStops ty v) &&
    (parts ty v).attach.all fun x => relocSafe (deep || ty.isRecord) x.val.1 x.val.2
termination_by ty.weight
decreasing_by exact parts_weight x.property

theorem relocSafe_iff : relocSafe deep ty v = true ↔ (deep = true → arrayStops ty v = false) ∧
      ∀ x ∈ parts ty v, relocSafe (deep || ty.isRecord) x.1 x.2 = true := by
  rw [relocSafe, Bool.and_eq_true, all_eq_true]
  cases deep <;> simp

theorem relocSafe_of_parts_nil (hp : parts ty v = []) (ha : arrayStops ty v = false) :
    relocSafe deep ty v = true :=
  relocSafe_iff.mpr ⟨fun _ => ha, by simp [hp]⟩

/-- A value without a tail has nothing to relocate. -/
theorem relocSafe_of_not_isPointer (h : ty.isPointer = false) : relocSafe deep ty v = true := by
  cases ty with
  | unit | bool | int | float | closure _ _ =>
    exact relocSafe_of_parts_nil (by cases v <;> simp [parts, variantPayloadForValue]) rfl
  | _ => cases h

/-! ### Alignment -/

/-- The alignment the layout assigns to a record or a variant record. -/
def startAlignment : TypeRepr → Option Nat
  | .schema s => (offsetsFor s).toOption.map OffsetTable.rootAlign
  | ty => (variantRecordAlignment "" ty).toOption

/-- The alignments of the records and variant records in the tail of a value. -/
def startsIn (ty : TypeRepr) (v : Value) : List Nat :=
  (startAlignment ty).toList ++ (parts ty v).attach.flatMap fun x => startsIn x.val.1 x.val.2
termination_by ty.weight
decreasing_by exact parts_weight x.property

theorem mem_startsIn {a : Nat} :
    a ∈ startsIn ty v ↔ startAlignment ty = some a ∨ ∃ x ∈ parts ty v, a ∈ startsIn x.1 x.2 := by
  rw [startsIn, mem_append, mem_flatMap]
  simp

/-- The place a record is pasted at suits everything below it, and the place a variant
record is put at suits its own alignment. -/
def placeSafe (ty : TypeRepr) (v : Value) : Bool :=
  match ty with
  | .schema s =>
    match offsetsFor s with
    | .ok table =>
      (parts ty v).all fun x =>
        (startsIn x.1 x.2).all fun a => decide (a ∣ schemaPasteAlign table s.fields)
    | .error _ => true
  | ty => (startAlignment ty).all fun a => decide (a ∣ variantRecordAlignRuntime ty)

def alignSafe (ty : TypeRepr) (v : Value) : Bool :=
  placeSafe ty v && (parts ty v).attach.all fun x => alignSafe x.val.1 x.val.2
termination_by ty.weight
decreasing_by exact parts_weight x.property

theorem alignSafe_iff : alignSafe ty v = true ↔
      placeSafe ty v = true ∧ ∀ x ∈ parts ty v, alignSafe x.1 x.2 = true := by
  rw [alignSafe, Bool.and_eq_true, all_eq_true]
  simp

end Relon.Abi
