import Mathlib.Data.List.Basic

/-! Canonical schemas.

The type language of the buffer protocol, as `schema_canonical.rs` declares it:
`TypeRepr`, `Field`, `EnumVariant` and `Schema` are mutually recursive. A
default value is kept as its JSON text, which only equality looks at.

Every walk over a type below descends from a type to its element, its payloads
or its fields. `weight` bounds that descent: a payload record synthesised for an
enum variant weighs less than the enum. -/
namespace Relon.Abi

mutual
inductive TypeRepr where
  | unit
  | bool
  | int
  | float
  | string
  | list (element : TypeRepr)
  | option (inner : TypeRepr)
  | result (ok err : TypeRepr)
  | enum (name : String) (variants : List EnumVariant)
  | schema (schema : Schema)
  | closure (params : List TypeRepr) (ret : TypeRepr)

structure EnumVariant where
  name : String
  tag : UInt8
  fields : List Field
  isTuple : Bool

structure Field where
  name : String
  ty : TypeRepr
  default : Option String

structure Schema where
  name : String
  generics : List String
  fields : List Field
  isTuple : Bool
end

deriving instance Inhabited for TypeRepr, Field, EnumVariant, Schema

/-- The record a variant's payload is stored as. A unit variant has none. -/
def EnumVariant.payloadSchema (self : EnumVariant) (enumName : String) : Option Schema :=
  if self.fields.isEmpty then none
  else some
    { name := s!"{enumName}.{self.name}"
      generics := []
      fields := self.fields
      isTuple := false }

/-! ### Equality

Rust derives `PartialEq` for the four types; `type_matches` compares records and
enums with it. -/

mutual
def TypeRepr.beq : TypeRepr → TypeRepr → Bool
  | .unit, .unit => true
  | .bool, .bool => true
  | .int, .int => true
  | .float, .float => true
  | .string, .string => true
  | .list a, .list b => a.beq b
  | .option a, .option b => a.beq b
  | .result a b, .result c d => a.beq c && b.beq d
  | .enum n vs, .enum n' vs' => n == n' && variantsBeq vs vs'
  | .schema s, .schema s' => s.beq s'
  | .closure ps r, .closure ps' r' => typesBeq ps ps' && r.beq r'
  | _, _ => false
termination_by structural a => a

def typesBeq : List TypeRepr → List TypeRepr → Bool
  | [], [] => true
  | t :: ts, t' :: ts' => t.beq t' && typesBeq ts ts'
  | _, _ => false
termination_by structural a => a

def EnumVariant.beq : EnumVariant → EnumVariant → Bool
  | ⟨n, t, fs, p⟩, ⟨n', t', fs', p'⟩ => n == n' && t == t' && fieldsBeq fs fs' && p == p'
termination_by structural a => a

def variantsBeq : List EnumVariant → List EnumVariant → Bool
  | [], [] => true
  | v :: vs, v' :: vs' => v.beq v' && variantsBeq vs vs'
  | _, _ => false
termination_by structural a => a

def Field.beq : Field → Field → Bool
  | ⟨n, t, d⟩, ⟨n', t', d'⟩ => n == n' && t.beq t' && d == d'
termination_by structural a => a

def fieldsBeq : List Field → List Field → Bool
  | [], [] => true
  | f :: fs, f' :: fs' => f.beq f' && fieldsBeq fs fs'
  | _, _ => false
termination_by structural a => a

def Schema.beq : Schema → Schema → Bool
  | ⟨n, g, fs, p⟩, ⟨n', g', fs', p'⟩ => n == n' && g == g' && fieldsBeq fs fs' && p == p'
termination_by structural a => a
end

mutual
theorem TypeRepr.beq_refl : ∀ t : TypeRepr, t.beq t = true
  | .unit | .bool | .int | .float | .string => by rw [TypeRepr.beq]
  | .list e => by rw [TypeRepr.beq, e.beq_refl]
  | .option i => by rw [TypeRepr.beq, i.beq_refl]
  | .result a b => by rw [TypeRepr.beq, a.beq_refl, b.beq_refl]; rfl
  | .enum n vs => by rw [TypeRepr.beq, variantsBeq_refl vs, beq_self_eq_true]; rfl
  | .schema s => by rw [TypeRepr.beq, s.beq_refl]
  | .closure ps r => by rw [TypeRepr.beq, typesBeq_refl ps, r.beq_refl]; rfl

theorem typesBeq_refl : ∀ ts : List TypeRepr, typesBeq ts ts = true
  | [] => by rw [typesBeq]
  | t :: ts => by rw [typesBeq, t.beq_refl, typesBeq_refl ts]; rfl

theorem EnumVariant.beq_refl : ∀ v : EnumVariant, v.beq v = true
  | ⟨_, _, fs, _⟩ => by simp [EnumVariant.beq, fieldsBeq_refl fs]

theorem variantsBeq_refl : ∀ vs : List EnumVariant, variantsBeq vs vs = true
  | [] => by rw [variantsBeq]
  | v :: vs => by rw [variantsBeq, v.beq_refl, variantsBeq_refl vs]; rfl

theorem Field.beq_refl : ∀ f : Field, f.beq f = true
  | ⟨_, t, _⟩ => by simp [Field.beq, t.beq_refl]

theorem fieldsBeq_refl : ∀ fs : List Field, fieldsBeq fs fs = true
  | [] => by rw [fieldsBeq]
  | f :: fs => by rw [fieldsBeq, f.beq_refl, fieldsBeq_refl fs]; rfl

theorem Schema.beq_refl : ∀ s : Schema, s.beq s = true
  | ⟨_, _, fs, _⟩ => by simp [Schema.beq, fieldsBeq_refl fs]
end

mutual
theorem TypeRepr.eq_of_beq : ∀ {a b : TypeRepr}, a.beq b = true → a = b
  | .unit, .unit, _ | .bool, .bool, _ | .int, .int, _ | .float, .float, _ | .string, .string, _ => rfl
  | .list a, .list b, h | .option a, .option b, h => by
    rw [TypeRepr.beq] at h
    rw [TypeRepr.eq_of_beq h]
  | .result a b, .result c d, h => by
    rw [TypeRepr.beq, Bool.and_eq_true] at h
    rw [TypeRepr.eq_of_beq h.1, TypeRepr.eq_of_beq h.2]
  | .enum n vs, .enum n' vs', h => by
    rw [TypeRepr.beq, Bool.and_eq_true, beq_iff_eq] at h
    rw [h.1, eq_of_variantsBeq h.2]
  | .schema s, .schema s', h => by
    rw [TypeRepr.beq] at h
    rw [Schema.eq_of_beq h]
  | .closure ps r, .closure ps' r', h => by
    rw [TypeRepr.beq, Bool.and_eq_true] at h
    rw [eq_of_typesBeq h.1, TypeRepr.eq_of_beq h.2]

theorem eq_of_typesBeq : ∀ {a b : List TypeRepr}, typesBeq a b = true → a = b
  | [], [], _ => rfl
  | t :: ts, t' :: ts', h => by
    rw [typesBeq, Bool.and_eq_true] at h
    rw [TypeRepr.eq_of_beq h.1, eq_of_typesBeq h.2]

theorem EnumVariant.eq_of_beq : ∀ {a b : EnumVariant}, a.beq b = true → a = b
  | ⟨n, t, fs, p⟩, ⟨n', t', fs', p'⟩, h => by
    simp only [EnumVariant.beq, Bool.and_eq_true, beq_iff_eq] at h
    rw [h.1.1.1, h.1.1.2, eq_of_fieldsBeq h.1.2, h.2]

theorem eq_of_variantsBeq : ∀ {a b : List EnumVariant}, variantsBeq a b = true → a = b
  | [], [], _ => rfl
  | v :: vs, v' :: vs', h => by
    rw [variantsBeq, Bool.and_eq_true] at h
    rw [EnumVariant.eq_of_beq h.1, eq_of_variantsBeq h.2]

theorem Field.eq_of_beq : ∀ {a b : Field}, a.beq b = true → a = b
  | ⟨n, t, d⟩, ⟨n', t', d'⟩, h => by
    simp only [Field.beq, Bool.and_eq_true, beq_iff_eq] at h
    rw [h.1.1, TypeRepr.eq_of_beq h.1.2, h.2]

theorem eq_of_fieldsBeq : ∀ {a b : List Field}, fieldsBeq a b = true → a = b
  | [], [], _ => rfl
  | f :: fs, f' :: fs', h => by
    rw [fieldsBeq, Bool.and_eq_true] at h
    rw [Field.eq_of_beq h.1, eq_of_fieldsBeq h.2]

theorem Schema.eq_of_beq : ∀ {a b : Schema}, a.beq b = true → a = b
  | ⟨n, g, fs, p⟩, ⟨n', g', fs', p'⟩, h => by
    simp only [Schema.beq, Bool.and_eq_true, beq_iff_eq] at h
    rw [h.1.1.1, h.1.1.2, eq_of_fieldsBeq h.1.2, h.2]
end

/-! ### The weight of a type -/

mutual
def TypeRepr.weight : TypeRepr → Nat
  | .unit | .bool | .int | .float | .string | .closure .. => 1
  | .list e => 1 + e.weight
  | .option i => 1 + i.weight
  | .result a b => 1 + a.weight + b.weight
  | .enum _ vs => 1 + variantsWeight vs
  | .schema s => 1 + s.weight

def EnumVariant.weight : EnumVariant → Nat
  | ⟨_, _, fs, _⟩ => 2 + fieldsWeight fs

def variantsWeight : List EnumVariant → Nat
  | [] => 0
  | v :: vs => v.weight + variantsWeight vs

def Field.weight : Field → Nat
  | ⟨_, t, _⟩ => 1 + t.weight

def fieldsWeight : List Field → Nat
  | [] => 0
  | f :: fs => f.weight + fieldsWeight fs

def Schema.weight : Schema → Nat
  | ⟨_, _, fs, _⟩ => 1 + fieldsWeight fs
end

theorem Schema.weight_eq (s : Schema) : s.weight = 1 + fieldsWeight s.fields := by
  cases s; rfl

theorem EnumVariant.weight_eq (v : EnumVariant) : v.weight = 2 + fieldsWeight v.fields := by
  cases v; rfl

theorem Field.weight_eq (f : Field) : f.weight = 1 + f.ty.weight := by
  cases f; rfl

variable {f : Field} {fs : List Field} {v : EnumVariant} {n : String} {s : Schema}

theorem field_weight_le (h : f ∈ fs) : f.weight ≤ fieldsWeight fs := by
  induction fs with
  | nil => cases h
  | cons g gs ih =>
    rw [fieldsWeight]
    rcases List.mem_cons.mp h with rfl | h
    · omega
    · have := ih h
      omega

theorem field_ty_weight_lt (h : f ∈ fs) : f.ty.weight < fieldsWeight fs := by
  have := field_weight_le h
  rw [Field.weight_eq] at this
  omega

theorem variant_weight_le {vs : List EnumVariant} (h : v ∈ vs) : v.weight ≤ variantsWeight vs := by
  induction vs with
  | nil => cases h
  | cons w ws ih =>
    rw [variantsWeight]
    rcases List.mem_cons.mp h with rfl | h
    · omega
    · have := ih h
      omega

theorem EnumVariant.payloadSchema_fields (h : v.payloadSchema n = some s) :
    s.fields = v.fields ∧ s.isTuple = false := by
  unfold payloadSchema at h
  split at h
  · cases h
  · cases h; exact ⟨rfl, rfl⟩

theorem EnumVariant.payloadSchema_weight (h : v.payloadSchema n = some s) :
    s.weight + 1 = v.weight := by
  rw [s.weight_eq, v.weight_eq, (payloadSchema_fields h).1]
  omega

/-! ### Distinct names

The analyzer only produces records whose field names differ and enums whose
variant names and tags differ; the codec looks fields and variants up by name
and by tag. -/

mutual
def TypeRepr.distinct : TypeRepr → Bool
  | .unit | .bool | .int | .float | .string | .closure .. => true
  | .list e => e.distinct
  | .option i => i.distinct
  | .result a b => a.distinct && b.distinct
  | .enum _ vs =>
    decide ((vs.map EnumVariant.name).Nodup) && decide ((vs.map EnumVariant.tag).Nodup) &&
      variantsDistinct vs
  | .schema s => s.distinct

def variantsDistinct : List EnumVariant → Bool
  | [] => true
  | ⟨_, _, fs, _⟩ :: vs =>
    decide ((fs.map Field.name).Nodup) && fieldsDistinct fs && variantsDistinct vs

def fieldsDistinct : List Field → Bool
  | [] => true
  | ⟨_, t, _⟩ :: fs => t.distinct && fieldsDistinct fs

def Schema.distinct : Schema → Bool
  | ⟨_, _, fs, _⟩ => decide ((fs.map Field.name).Nodup) && fieldsDistinct fs
end

theorem fieldsDistinct_iff {fs : List Field} :
    fieldsDistinct fs = true ↔ ∀ f ∈ fs, f.ty.distinct = true := by
  induction fs with
  | nil => simp [fieldsDistinct]
  | cons f fs ih =>
    obtain ⟨n, t, d⟩ := f
    rw [fieldsDistinct, Bool.and_eq_true, ih]
    simp

theorem variantsDistinct_iff {vs : List EnumVariant} : variantsDistinct vs = true ↔
      ∀ v ∈ vs, (v.fields.map Field.name).Nodup ∧ fieldsDistinct v.fields = true := by
  induction vs with
  | nil => simp [variantsDistinct]
  | cons v vs ih =>
    obtain ⟨n, t, fs, p⟩ := v
    rw [variantsDistinct, Bool.and_eq_true, Bool.and_eq_true, ih]
    simp

theorem Schema.distinct_iff {s : Schema} :
    s.distinct = true ↔ (s.fields.map Field.name).Nodup ∧ ∀ f ∈ s.fields, f.ty.distinct = true := by
  obtain ⟨n, g, fs, p⟩ := s
  rw [Schema.distinct, Bool.and_eq_true, fieldsDistinct_iff, decide_eq_true_eq]

theorem EnumVariant.payloadSchema_distinct {v : EnumVariant} {vs : List EnumVariant} {n : String}
    {s : Schema} (hv : v ∈ vs) (hd : variantsDistinct vs = true) (h : v.payloadSchema n = some s) :
    s.distinct = true := by
  obtain ⟨hn, hf⟩ := variantsDistinct_iff.mp hd v hv
  rw [Schema.distinct_iff, (payloadSchema_fields h).1]
  exact ⟨hn, fieldsDistinct_iff.mp hf⟩

end Relon.Abi
