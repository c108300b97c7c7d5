import Relon.Analyzer.Types

/-! Type inference (`infer/mod.rs`, `infer/walk.rs`): the type of an expression
from the types recorded for the names in scope.

What the analyzed tree and the workspace hold is read through tables: the names the
enclosing dicts and closures declare, schemas, enums and imports. References, calls
and closures are looked up in those too. -/
namespace Relon.Analyzer
open Eval

/-- What a `TypeScope` reads from the analyzed tree and the workspace. -/
structure Tables where
  /-- What the enclosing closures and dicts record for a name. -/
  frames : String → Option InferredType
  /-- The schema index: the declared types of each schema's fields. -/
  schemas : Option (Assoc (Assoc TypeNode))
  aliases : Aliases
  /-- `aliased_values`: the declared type of a value another module exports. -/
  aliasedValues : String → String → Option TypeNode
  /-- `schema_generic_params`. -/
  generics : String → List String
  /-- `schema_tuple_elements`. -/
  tupleElements : String → Option (List TypeNode)
  /-- The variants of the enum a dotted name stands for. -/
  variants : String → Option (List String)
  /-- The generics of an enum the program declares, and the payload of one of its variants. -/
  payload : String → String → Option (List String × Assoc TypeNode)
  /-- The type the program declares for the variable a scrutinee names. -/
  declared : Node → Option TypeNode
  /-- References, calls and closures. -/
  other : Node → List (Assoc InferredType) → Option InferredType

structure TypeScope where
  /-- The names bound inside the expression, the innermost map first. -/
  locals : List (Assoc InferredType)
  tables : Tables

namespace TypeScope

/-- `child_with_locals`. -/
def childWithLocals (Γ : TypeScope) (locals : Assoc InferredType) : TypeScope :=
  { Γ with locals := locals :: Γ.locals }

/-- `lookup`: locals, then frames, then a schema by its name. -/
def lookup (Γ : TypeScope) (name : String) : Option InferredType :=
  match Γ.locals.findSome? (List.lookup name) with
  | some t => some t
  | none =>
    match Γ.tables.frames name with
    | some t => some t
    | none =>
      if (Γ.tables.schemas.bind (List.lookup name)).isSome then some (.schema name) else none

/-- A declared type, with the imports in scope. -/
def lift (Γ : TypeScope) (t : TypeNode) : InferredType := inferFromTypeNode Γ.tables.aliases t

end TypeScope

/-! ### Paths -/

inductive WalkSeg where
  | name (s : String)
  | index (i : Nat)

/-- A segment the walk can follow, and whether it is written as a computed key. -/
def walkSegment : TokenKey → Option (WalkSeg × Bool)
  | .string s _ _ => some (.name s, false)
  | .index i _ => some (.index i, false)
  | .dynamic node _ =>
    match node.expr with
    | .int i => if i < 0 then none else some (.index i.toInt.toNat, true)
    | .string s => some (.name s, true)
    | _ => none
  | _ => none

/-- `walk_segments`: the path up to the first segment that cannot be followed. -/
def walkSegments : List TokenKey → List (WalkSeg × Bool)
  | [] => []
  | key :: rest =>
    match walkSegment key with
    | some seg => seg :: walkSegments rest
    | none => []

/-- `is_known_builtin_alt`. -/
def isKnownBuiltinAlt (s : String) : Bool :=
  ["Any", "Bool", "Int", "Float", "Number", "String", "List", "Dict", "Closure", "Fn"].contains s

mutual

/-- `qualify_type_node_for_alias`. -/
def qualify (owner : String) : TypeNode → TypeNode
  | ⟨path, generics, optional, range⟩ =>
    let path := match path with
      | [head] => if head != "Self" && !isKnownBuiltinAlt head then [owner, head] else [head]
      | path => path
    ⟨path, qualifyAll owner generics, optional, range⟩

def qualifyAll (owner : String) : List TypeNode → List TypeNode
  | [] => []
  | t :: rest => qualify owner t :: qualifyAll owner rest

end

/-- The part of a name before its first dot. -/
def namespaceOf (name : String) : Option String :=
  let (front, rest) := name.toList.span (· != '.')
  if rest.isEmpty then none else some (String.ofList front)

/-- Where a walk stands: the type reached, the type arguments of its schema and the alias its
names belong to. -/
structure Walk where
  current : InferredType
  subst : Assoc TypeNode
  ns : Option String

/-- A walk ends at once with a type, or goes on. -/
inductive WalkStep where
  | stop (t : InferredType)
  | go (w : Walk)

/-- The type arguments given to a schema. -/
def typeArguments (Γ : TypeScope) (schema : String) (t : TypeNode) : Assoc TypeNode :=
  ((Γ.tables.generics schema).zip t.generics).foldl (fun acc e => Assoc.put acc e.1 e.2) []

/-- A declared field or element type, seen from a walk. -/
def Walk.declared (w : Walk) (t : TypeNode) : TypeNode :=
  let t := if w.subst.isEmpty then t else t.substitute w.subst
  match w.ns with
  | some ns => qualify ns t
  | none => t

/-- On to a field of a schema. -/
def Walk.enterField (Γ : TypeScope) (w : Walk) (t : TypeNode) : Walk :=
  let t := w.declared t
  match Γ.lift t with
  | .schema name => ⟨.schema name, typeArguments Γ name t, (namespaceOf name).or w.ns⟩
  | current => ⟨current, [], none⟩

/-- One segment. A step that is not known leaves `Any`. -/
def walkStep (Γ : TypeScope) (w : Walk) (seg : WalkSeg) (computed : Bool) : WalkStep :=
  let current := match w.current with
    | .optional inner => inner
    | t => t
  match current, seg with
  | .any, _ => .stop .any
  | .schema name, .name field =>
    match Γ.tables.schemas.bind (List.lookup name) with
    | none => .stop .any
    | some fields =>
      match fields.lookup field with
      | some t => .go (w.enterField Γ t)
      | none => .stop (if computed then .schema name else .any)
  | .schema name, .index i =>
    match Γ.tables.tupleElements name with
    | none => .stop (if computed then .schema name else .any)
    | some elements =>
      match elements[i]? with
      | some t => .go ⟨Γ.lift (w.declared t), [], none⟩
      | none => .stop .any
  | .dict value, .name _ => .go { w with current := value }
  | .variantPayload _ _ fields, seg =>
    let field := match seg with
      | .name s => s
      | .index i => toString i
    match fields.lookup field with
    | some t => .go { w with current := Γ.lift t }
    | none => .stop .any
  | .tuple items, .index i =>
    match items[i]? with
    | some t => .go { w with current := t }
    | none => .stop .any
  | .list item, .index _ => .go { w with current := item }
  | _, _ => .stop .any

def walkRest (Γ : TypeScope) : List (WalkSeg × Bool) → Walk → InferredType
  | [], w => w.current
  | (seg, computed) :: rest, w =>
    match walkStep Γ w seg computed with
    | .stop t => t
    | .go w => walkRest Γ rest w

/-- The value another module exports, when the first two segments name one. -/
def aliasStart (Γ : TypeScope) (head field : String) : Option Walk :=
  (Γ.tables.aliasedValues head field).map fun hint =>
    let hint := qualify head hint
    match Γ.lift hint with
    | .schema name => ⟨.schema name, typeArguments Γ name hint, some head⟩
    | current => ⟨current, [], none⟩

/-- `infer_path_inferred`. -/
def inferPath (Γ : TypeScope) (path : List TokenKey) : Option InferredType :=
  match walkSegments path with
  | (.name head, _) :: rest =>
    let start := match rest with
      | (.name field, _) :: _ => aliasStart Γ head field
      | _ => none
    match start with
    | some w => some (walkRest Γ rest.tail w)
    | none => (Γ.lookup head).map fun t => walkRest Γ rest ⟨t, [], none⟩
  | _ => none

/-! ### Variants -/

/-- The segments of a path made of names only: `token_path_strings`. -/
def tokenPathStrings (path : List TokenKey) : Option (List String) :=
  path.mapM fun
    | .string s _ _ => some s
    | _ => none

/-- `prelude_unit_variant_type`. -/
def preludeUnitVariantType : List TokenKey → Option InferredType
  | [.string "None" _ _] => some (.variant "Option" "None")
  | [.string "Option" _ _, .string "None" _ _] => some (.variant "Option" "None")
  | _ => none

/-- `user_enum_variant_type`. -/
def userEnumVariantType (Γ : TypeScope) (path : List TokenKey) : Option InferredType :=
  (tokenPathStrings path).bind fun parts =>
    if parts.length < 2 then none
    else
      let name := ".".intercalate parts.dropLast
      let variant := parts.getLastD ""
      if ((Γ.tables.variants name).getD []).contains variant then some (.variant name variant)
      else none

/-- `prelude_variant_payload_fields`. -/
def preludeVariantPayloadFields (enumName variant : String) :
    Option (List String × Assoc TypeNode) :=
  match enumName, variant with
  | "Option", "Some" => some (["T"], [("value", .named "T" default)])
  | "Option", "None" => some (["T"], [])
  | "Result", "Ok" => some (["T", "E"], [("value", .named "T" default)])
  | "Result", "Err" => some (["T", "E"], [("error", .named "E" default)])
  | _, _ => none

/-- `single_variable_name`. -/
def singleVariableName (node : Node) : Option String :=
  match node.expr with
  | .variable [.string name _ _] => some name
  | _ => none

/-- `pattern_variant_name`. -/
def patternVariantName (node : Node) : Option String :=
  match node.expr with
  | .type t =>
    match t.path with
    | [name] => some name
    | _ => none
  | .variantPattern _ variant _ => some variant
  | _ => none

/-- `positional_field_name`. -/
def positionalFieldName (fields : Assoc TypeNode) (i : Nat) : Option String :=
  if (fields.lookup (toString i)).isSome then some (toString i)
  else match fields with
    | [(name, _)] => some name
    | _ => none

/-- `normalize_optional_type_node`. -/
def normalizeOptional (t : TypeNode) : TypeNode :=
  if t.isOptional then ⟨["Option"], [{ t with isOptional := false }], false, t.range⟩ else t

/-- The enum a scrutinee's type belongs to. -/
def InferredType.enumName : InferredType → Option String
  | .schema name => some name
  | .variant name _ => some name
  | .variantPayload name _ _ => some name
  | .optional _ => some "Option"
  | _ => none

/-- The payload of a variant, with the type arguments of the scrutinee in place. -/
def armFields (Γ : TypeScope) (scrutinee : Node) (enumName variant : String) :
    Option (Assoc TypeNode) :=
  ((preludeVariantPayloadFields enumName variant).or (Γ.tables.payload enumName variant)).map
    fun (generics, fields) =>
      match (singleVariableName scrutinee).bind fun _ => Γ.tables.declared scrutinee with
      | none => fields
      | some t =>
        let subst := (generics.zip (normalizeOptional t).generics).foldl
          (fun acc e => Assoc.put acc e.1 e.2) []
        if subst.isEmpty then fields else fields.map fun e => (e.1, e.2.substitute subst)

/-- The names a destructuring pattern binds. -/
def bindingLocals (Γ : TypeScope) (fields : Assoc TypeNode) :
    Nat → List PatternBinding → Assoc InferredType → Assoc InferredType
  | _, [], locals => locals
  | i, b :: rest, locals =>
    bindingLocals Γ fields (i + 1) rest <| match b.binding with
      | none => locals
      | some name =>
        let field := (b.field.or (positionalFieldName fields i)).getD (toString i)
        Assoc.put locals name (((fields.lookup field).map Γ.lift).getD .any)

/-- `match_arm_locals`, from the scrutinee's type. -/
def matchArmLocals (Γ : TypeScope) (scrutinee : Node) (type : Option InferredType)
    (pattern : Node) : Option (Assoc InferredType) := do
  let enumName ← type.bind InferredType.enumName
  let variant ← patternVariantName pattern
  let fields ← armFields Γ scrutinee enumName variant
  let locals : Assoc InferredType := match singleVariableName scrutinee with
    | some name => [(name, .variantPayload enumName variant fields)]
    | none => []
  match pattern.expr with
  | .variantPattern _ _ bindings => some (bindingLocals Γ fields 0 bindings locals)
  | _ => some locals

/-- The scope of an arm's body. -/
def armScope (Γ : TypeScope) (scrutinee : Node) (type : Option InferredType) (pattern : Node) :
    TypeScope :=
  match matchArmLocals Γ scrutinee type pattern with
  | some locals => Γ.childWithLocals locals
  | none => Γ

/-! ### Expressions -/

/-- What a comprehension's variable ranges over. -/
def itemType : InferredType → InferredType
  | .list t => t
  | .dict t => t
  | _ => .any

/-- What an element of a list literal contributes: a spread the elements of its source. -/
def itemContribution (element : Node) (t : Option InferredType) : InferredType :=
  match element.expr, t with
  | .spread _, some (.list item) => item
  | .spread _, _ => .any
  | _, t => t.getD .any

/-- The name a path's receiver is bound to while the rest is walked. -/
def receiverName : String := "\x00postfix_receiver"

mutual

/-- `infer_type`. -/
def inferType : Node → TypeScope → Option InferredType
  | .mk id e decorators directives hint range, Γ =>
    inferExpr e (.mk id e decorators directives hint range) Γ

def inferExpr : Expr → Node → TypeScope → Option InferredType
  | .bool _, _, _ => some .bool
  | .int _, _, _ => some .int
  | .float _, _, _ => some .float
  | .string _, _, _ => some .string
  | .fString _, _, _ => some .string
  | .list elements, _, Γ =>
    some (.list ((InferredType.joined (inferItems elements Γ)).getD .never))
  | .tuple elements, _, Γ => some (.tuple (inferNodes elements Γ))
  | .dict pairs, _, Γ => some (.dict ((InferredType.joined (inferValues pairs Γ)).getD .never))
  | .binary op left right, _, Γ =>
    (inferType left Γ).bind fun lt => (inferType right Γ).bind fun rt => inferBinary op lt rt
  | .unary op inner, _, Γ => (inferType inner Γ).bind (inferUnary op)
  | .ternary _ then_ els, _, Γ =>
    (inferType then_ Γ).bind fun tt => (inferType els Γ).bind fun et => ternaryType tt et
  | .variable path, _, Γ => inferVariablePath path Γ
  | .match_ scrutinee arms, _, Γ =>
    InferredType.joined (inferArms arms scrutinee (inferType scrutinee Γ) Γ)
  | .spread inner, _, Γ => inferType inner Γ
  | .comprehension element id iterable _, _, Γ =>
    let item := itemType ((inferType iterable Γ).getD .any)
    some (.list ((inferType element (Γ.childWithLocals [(id, item)])).getD .any))
  | .where_ expr bindings, _, Γ => inferType expr (Γ.childWithLocals (inferBindings bindings Γ))
  | .variantCtor (head :: _) variant _, _, _ => some (.variant head variant)
  | .reference .., node, Γ => Γ.tables.other node Γ.locals
  | .fnCall .., node, Γ => Γ.tables.other node Γ.locals
  | .closure .., node, Γ => Γ.tables.other node Γ.locals
  | _, _, _ => none

def inferItems : List Node → TypeScope → List InferredType
  | [], _ => []
  | node :: rest, Γ => itemContribution node (inferType node Γ) :: inferItems rest Γ

def inferNodes : List Node → TypeScope → List InferredType
  | [], _ => []
  | node :: rest, Γ => (inferType node Γ).getD .any :: inferNodes rest Γ

def inferValues : List (TokenKey × Node) → TypeScope → List InferredType
  | [], _ => []
  | (_, node) :: rest, Γ => (inferType node Γ).getD .any :: inferValues rest Γ

/-- The arms that have a type; the others are left out of account. -/
def inferArms : List (Node × Node) → Node → Option InferredType → TypeScope → List InferredType
  | [], _, _, _ => []
  | (pattern, body) :: rest, scrutinee, type, Γ =>
    match inferType body (armScope Γ scrutinee type pattern) with
    | some t => t :: inferArms rest scrutinee type Γ
    | none => inferArms rest scrutinee type Γ

/-- The names a `where` block binds; each value is typed outside of the block. -/
def inferBindings : Node → TypeScope → Assoc InferredType
  | .mk _ (.dict pairs) _ _ _ _, Γ => inferPairs pairs [] Γ
  | _, _ => []

def inferPairs : List (TokenKey × Node) → Assoc InferredType → TypeScope → Assoc InferredType
  | [], locals, _ => locals
  | (.string name _ _, node) :: rest, locals, Γ =>
    let t := match node.typeHint with
      | some hint => Γ.lift hint
      | none => (inferType node Γ).getD .any
    inferPairs rest (Assoc.put locals name t) Γ
  | (_, _) :: rest, locals, Γ => inferPairs rest locals Γ

/-- `infer_variable_path`. -/
def inferVariablePath : List TokenKey → TypeScope → Option InferredType
  | .dynamic receiver _ :: rest, Γ =>
    (inferType receiver Γ).bind fun t =>
      if rest.isEmpty then some t
      else inferPath (Γ.childWithLocals [(receiverName, t)]) (.plain receiverName :: rest)
  | path, Γ =>
    (preludeUnitVariantType path).or ((userEnumVariantType Γ path).or (inferPath Γ path))

end

end Relon.Analyzer
