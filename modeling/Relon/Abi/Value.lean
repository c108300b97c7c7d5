import Relon.Lib.Bytes

/-! Runtime values.

The part of `relon_eval_api::Value` the buffer codec reads and builds. A float is
its bit pattern. A dict is an association list kept sorted by key, the contents
of the Rust `BTreeMap`. Closures, schemas and types never enter a buffer: the
codec only names them in its errors, so they carry no payload here. -/
namespace Relon.Abi
open Bytes

inductive Value where
  | bool (b : Bool)
  | int (i : Int64)
  | float (bits : UInt64)
  | string (s : String)
  | list (items : List Value)
  | tuple (items : List Value)
  | dict (map : List (String × Value)) (brand variantOf : Option String)
  | closure
  | schema
  | enumSchema
  | type
  | wildcard
  deriving Inhabited

abbrev ValueMap := List (String × Value)

/-- `BTreeMap::get`. -/
def ValueMap.get (m : ValueMap) (k : String) : Option Value := m.lookup k

/-- `BTreeMap::insert`. -/
def ValueMap.insert : ValueMap → String → Value → ValueMap
  | [], k, v => [(k, v)]
  | (k', v') :: rest, k, v =>
    if k = k' then (k, v) :: rest
    else if k < k' then (k, v) :: (k', v') :: rest
    else (k', v') :: ValueMap.insert rest k v

namespace Value

def brandedDict (map : ValueMap) (brand : Option String) : Value := .dict map brand none

def variantDict (map : ValueMap) (variant enumName : String) : Value :=
  .dict map (some variant) (some enumName)

def optionSome (v : Value) : Value := variantDict [("value", v)] "Some" "Option"
def optionNone : Value := variantDict [] "None" "Option"
def resultOk (v : Value) : Value := variantDict [("value", v)] "Ok" "Result"
def resultErr (e : Value) : Value := variantDict [("error", e)] "Err" "Result"

def isOptionNone : Value → Bool
  | .dict _ brand variantOf => variantOf == some "Option" && brand == some "None"
  | _ => false

def typeName : Value → String
  | .bool _ => "Bool"
  | .int _ => "Int"
  | .float _ => "Float"
  | .string _ => "String"
  | .list _ => "List"
  | .tuple _ => "Tuple"
  | .dict .. => "Dict"
  | .closure => "Closure"
  | .schema => "Schema"
  | .enumSchema => "EnumSchema"
  | .type => "Type"
  | .wildcard => "Wildcard"

/-! ### Equality -/

mutual
def beq : Value → Value → Bool
  | .bool a, .bool b => a == b
  | .int a, .int b => a == b
  | .float a, .float b => a == b
  | .string a, .string b => a == b
  | .list a, .list b => itemsBeq a b
  | .tuple a, .tuple b => itemsBeq a b
  | .dict a p q, .dict b p' q' => mapBeq a b && p == p' && q == q'
  | .closure, .closure => true
  | .schema, .schema => true
  | .enumSchema, .enumSchema => true
  | .type, .type => true
  | .wildcard, .wildcard => true
  | _, _ => false
termination_by structural a => a

def itemsBeq : List Value → List Value → Bool
  | [], [] => true
  | a :: as, b :: bs => a.beq b && itemsBeq as bs
  | _, _ => false
termination_by structural a => a

def mapBeq : List (String × Value) → List (String × Value) → Bool
  | [], [] => true
  | e :: as, e' :: bs => entryBeq e e' && mapBeq as bs
  | _, _ => false
termination_by structural a => a

def entryBeq : String × Value → String × Value → Bool
  | (k, v), (k', v') => k == k' && v.beq v'
termination_by structural a => a
end

mutual
theorem eq_of_beq : ∀ {a b : Value}, a.beq b = true → a = b
  | .bool a, .bool b, h | .int a, .int b, h | .float a, .float b, h | .string a, .string b, h => by
    simpa [beq] using h
  | .list a, .list b, h | .tuple a, .tuple b, h => by
    rw [beq] at h
    rw [eq_of_itemsBeq h]
  | .dict a p q, .dict b p' q', h => by
    simp only [beq, Bool.and_eq_true, beq_iff_eq] at h
    rw [eq_of_mapBeq h.1.1, h.1.2, h.2]
  | .closure, .closure, _ | .schema, .schema, _ | .enumSchema, .enumSchema, _ | .type, .type, _
  | .wildcard, .wildcard, _ => rfl

theorem eq_of_itemsBeq : ∀ {a b : List Value}, itemsBeq a b = true → a = b
  | [], [], _ => rfl
  | a :: as, b :: bs, h => by
    rw [itemsBeq, Bool.and_eq_true] at h
    rw [eq_of_beq h.1, eq_of_itemsBeq h.2]

theorem eq_of_mapBeq : ∀ {a b : List (String × Value)}, mapBeq a b = true → a = b
  | [], [], _ => rfl
  | e :: as, e' :: bs, h => by
    rw [mapBeq, Bool.and_eq_true] at h
    rw [eq_of_entryBeq h.1, eq_of_mapBeq h.2]

theorem eq_of_entryBeq : ∀ {a b : String × Value}, entryBeq a b = true → a = b
  | (k, v), (k', v'), h => by
    simp only [entryBeq, Bool.and_eq_true, beq_iff_eq] at h
    rw [h.1, eq_of_beq h.2]
end

mutual
theorem beq_refl : ∀ a : Value, a.beq a = true
  | .bool _ | .int _ | .float _ | .string _ => by simp [beq]
  | .list a | .tuple a => by rw [beq, itemsBeq_refl a]
  | .dict a _ _ => by simp [beq, mapBeq_refl a]
  | .closure | .schema | .enumSchema | .type | .wildcard => by rw [beq]

theorem itemsBeq_refl : ∀ a : List Value, itemsBeq a a = true
  | [] => by rw [itemsBeq]
  | a :: as => by rw [itemsBeq, beq_refl a, itemsBeq_refl as]; rfl

theorem mapBeq_refl : ∀ a : List (String × Value), mapBeq a a = true
  | [] => by rw [mapBeq]
  | e :: as => by rw [mapBeq, entryBeq_refl e, mapBeq_refl as]; rfl

theorem entryBeq_refl : ∀ a : String × Value, entryBeq a a = true
  | (_, v) => by simp [entryBeq, beq_refl v]
end

instance : DecidableEq Value := fun a b =>
  decidable_of_iff (a.beq b = true) ⟨eq_of_beq, fun h => h ▸ beq_refl a⟩

end Value

/-! ### Words -/

/-- `i64::to_le_bytes`. -/
def i64Bytes (i : Int64) : List UInt8 := leBytes 8 i.toUInt64.toNat

/-- `i64::from_le_bytes`. -/
def i64OfBytes (bs : List UInt8) : Int64 := (UInt64.ofNat (leNat bs)).toInt64

/-- `f64::to_le_bytes` of a bit pattern. -/
def f64Bytes (bits : UInt64) : List UInt8 := leBytes 8 bits.toNat

/-- `f64::from_le_bytes`, as a bit pattern. -/
def f64OfBytes (bs : List UInt8) : UInt64 := UInt64.ofNat (leNat bs)

/-- The magnitude `n` as the exponent and mantissa fields of a double, rounded to
nearest with ties to even. A mantissa that rounds up to `2^53` carries into the
exponent field. -/
def f64Magnitude (n : Nat) : Nat :=
  if n = 0 then 0
  else
    let e := Nat.log2 n
    if e ≤ 52 then (e + 1023) * 2 ^ 52 + (n * 2 ^ (52 - e) - 2 ^ 52)
    else
      let shift := e - 52
      let q := n / 2 ^ shift
      let r := n % 2 ^ shift
      let up := 2 ^ shift < 2 * r ∨ (2 * r = 2 ^ shift ∧ q % 2 = 1)
      (e + 1023) * 2 ^ 52 + (q - 2 ^ 52) + (if up then 1 else 0)

/-- `i as f64`, as a bit pattern. -/
def f64OfInt (i : Int64) : UInt64 :=
  UInt64.ofNat ((if i < 0 then 2 ^ 63 else 0) + f64Magnitude i.toInt.natAbs)

example : f64OfInt 1 = 0x3ff0000000000000 ∧ f64OfInt (-2) = 0xc000000000000000 ∧
    f64OfInt 9007199254740993 = 0x4340000000000000 := by decide

@[simp] theorem length_i64Bytes (i : Int64) : (i64Bytes i).length = 8 := length_leBytes 8 _

@[simp] theorem length_f64Bytes (bits : UInt64) : (f64Bytes bits).length = 8 := length_leBytes 8 _

theorem i64OfBytes_i64Bytes (i : Int64) : i64OfBytes (i64Bytes i) = i := by
  have h : i.toUInt64.toNat < 256 ^ 8 := by
    have := i.toUInt64.toNat_lt
    omega
  rw [i64OfBytes, i64Bytes, leNat_leBytes h]
  simp

theorem f64OfBytes_f64Bytes (bits : UInt64) : f64OfBytes (f64Bytes bits) = bits := by
  have h : bits.toNat < 256 ^ 8 := by
    have := bits.toNat_lt
    omega
  rw [f64OfBytes, f64Bytes, leNat_leBytes h]
  simp

/-! ### Text -/

/-- `str::as_bytes`. -/
def utf8Bytes (s : String) : List UInt8 := s.toByteArray.data.toList

/-- `std::str::from_utf8`. -/
def utf8Decode (bs : List UInt8) : Option String := String.fromUTF8? ⟨bs.toArray⟩

theorem utf8Decode_utf8Bytes (s : String) : utf8Decode (utf8Bytes s) = some s := by
  have h : (⟨(utf8Bytes s).toArray⟩ : ByteArray) = s.toByteArray := by
    simp [utf8Bytes]
  rw [utf8Decode, h, String.fromUTF8?, dif_pos s.isValidUTF8]
  rfl

end Relon.Abi
