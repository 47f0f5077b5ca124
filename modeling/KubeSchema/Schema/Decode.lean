import KubeSchema.Json.Printer
import KubeSchema.Schema.Basic

/-!
# Reading schemas

Every modeled keyword has a shape; one that is `null` counts as missing, except for `default`. Keywords are read in
the order of `Keyword.all`, whatever their order in the document, and the first one that does not have its shape is
the error. The keywords that are not modeled are kept in document order.

* `Node.decode`: reads a schema object.
* `Schema.decode`: reads a schema, which may also be a boolean.
-/

namespace KubeSchema

/-! ## Errors -/

/-- What the value of a keyword has to be. -/
inductive Shape
  | text
  | truth
  | list
  | object
  | textOrList
  | count
  | names
  deriving DecidableEq, Repr

/-- Why a value is not a schema. -/
inductive DecodeError
  | notObjectSchema (found : Json)
  | notSchema (found : Json)
  | misshapen (keyword : Keyword) (expected : Shape) (found : Json)
  | unknownType (found : Json)
  /-- A child schema is not one: the only one of a keyword, or the one at an index or name. -/
  | within (keyword : Keyword) (location : Option String) (cause : DecodeError)
  deriving DecidableEq, Repr

def Shape.description : Shape → String
  | .text => "a string"
  | .truth => "a boolean"
  | .list => "an array"
  | .object => "an object"
  | .textOrList => "a string or an array"
  | .count => "a non-negative integer"
  | .names => "an array of strings"

/-- What a message shows of a value without the shape: the value itself where its kind may be right. -/
def Shape.show (found : Json) : Shape → String
  | .count | .names => found.literal
  | _ => found.kindName

def DecodeError.message : DecodeError → String
  | .notObjectSchema found => s!"Expected a schema object, got {found.kindName}"
  | .notSchema found => s!"Expected a boolean or a schema object, got {found.kindName}"
  | .misshapen keyword expected found =>
    s!"'{keyword.name}' must be {expected.description}, got {expected.show found}"
  | .unknownType found => s!"Unknown instance type {found.literal}"
  | .within keyword none cause => s!"'{keyword.name}': {cause.message}"
  | .within keyword (some location) cause => s!"'{keyword.name}/{location}': {cause.message}"

/-! ## Keywords without child schemas -/

/-- The value of a keyword, unless it is missing or `null`. -/
def Keyword.valueIn (k : Keyword) (ms : Members Json) : Option Json :=
  match Members.get? ms k.name with
  | none | some .null => none
  | some v => some v

namespace Json

/-- The largest count that a schema may state. -/
def maxCount : Int := Int.pow 2 32 - 1

def asText (k : Keyword) : Json → Except DecodeError String
  | str s => .ok s
  | v => .error (.misshapen k .text v)

def asTruth (k : Keyword) : Json → Except DecodeError Bool
  | bool b => .ok b
  | v => .error (.misshapen k .truth v)

def asList (k : Keyword) : Json → Except DecodeError (List Json)
  | arr xs => .ok xs
  | v => .error (.misshapen k .list v)

def asCount (k : Keyword) : Json → Except DecodeError Int
  | int n => if 0 ≤ n ∧ n ≤ maxCount then .ok n else .error (.misshapen k .count (int n))
  | v => .error (.misshapen k .count v)

def text? : Json → Option String
  | str s => some s
  | _ => none

/-- The texts in a list, if it holds nothing else. -/
def texts? (xs : List Json) : Option (List String) := xs.mapM text?

def asNames (k : Keyword) : Json → Except DecodeError NameSet
  | arr xs =>
    match texts? xs with
    | some names => .ok (.ofList names)
    | none => .error (.misshapen k .names (arr xs))
  | v => .error (.misshapen k .names v)

def asType : Json → Except DecodeError PrimitiveType
  | str s =>
    match PrimitiveType.ofName? s with
    | some t => .ok t
    | none => .error (.unknownType (str s))
  | v => .error (.unknownType v)

def asTypes : Json → Except DecodeError (OneOrMany PrimitiveType)
  | str s => .one <$> asType (str s)
  | arr xs => .many <$> xs.mapM asType
  | v => .error (.misshapen .type .textOrList v)

end Json

/-- Reads a keyword that may be missing. -/
def Keyword.read {α : Type} (k : Keyword) (f : Json → Except DecodeError α) (ms : Members Json) :
    Except DecodeError (Option α) :=
  match k.valueIn ms with
  | none => .ok none
  | some v => some <$> f v

/-! ## Schemas -/

/-- A value as a schema, given how it reads as a schema object. -/
def Schema.ofReading (v : Json) (reading : Except DecodeError ObjectSchema) : Except DecodeError Schema :=
  match v with
  | .bool b => .ok (.bool b)
  | .obj _ => .object <$> reading
  | v => .error (.notSchema v)

mutual

/-- Reads a schema object. -/
def Node.decode : Json → Except DecodeError ObjectSchema
  | .obj ms => do
    let description ← Keyword.description.read (Json.asText .description) ms
    let default := Members.get? ms Keyword.default.name
    let types ← Keyword.type.read Json.asTypes ms
    let format ← Keyword.format.read (Json.asText .format) ms
    let enum ← Keyword.enum.read (Json.asList .enum) ms
    let anyOf ← readSchemas .anyOf ms
    let oneOf ← readSchemas .oneOf ms
    let items ← readSchemaOrList .items ms
    let additionalItems ← readSchema .additionalItems ms
    let maxItems ← Keyword.maxItems.read (Json.asCount .maxItems) ms
    let minItems ← Keyword.minItems.read (Json.asCount .minItems) ms
    let uniqueItems ← Keyword.uniqueItems.read (Json.asTruth .uniqueItems) ms
    let contains ← readSchema .contains ms
    let maxProperties ← Keyword.maxProperties.read (Json.asCount .maxProperties) ms
    let minProperties ← Keyword.minProperties.read (Json.asCount .minProperties) ms
    let required ← Keyword.required.read (Json.asNames .required) ms
    let properties ← readSchemaMap .properties ms
    let patternProperties ← readSchemaMap .patternProperties ms
    let additionalProperties ← readSchema .additionalProperties ms
    let propertyNames ← readSchema .propertyNames ms
    return {
      description, default, types, format, enum, anyOf, oneOf, items, additionalItems, maxItems, minItems,
      uniqueItems, contains, maxProperties, minProperties, required := required.getD .empty, properties,
      patternProperties, additionalProperties, propertyNames
      extensions := ms.filter (fun m => !isModeled m.1 && isVendor m.1)
      other := ms.filter (fun m => isOther m.1) }
  | v => .error (.notObjectSchema v)
  termination_by structural v => v

/-- The schema of a keyword. -/
def readSchema (k : Keyword) : List (String × Json) → Except DecodeError (Option Schema)
  | [] => .ok none
  | (name, v) :: r =>
    if name ≠ k.name then readSchema k r
    else if v = .null then .ok none
    else some <$> (Schema.ofReading v (Node.decode v)).mapError (.within k none)
  termination_by structural ms => ms

/-- The list of schemas of a keyword. -/
def readSchemas (k : Keyword) : List (String × Json) → Except DecodeError (Option (List Schema))
  | [] => .ok none
  | (name, v) :: r =>
    if name ≠ k.name then readSchemas k r
    else
      match v with
      | .null => .ok none
      | .arr xs => some <$> decodeItems k 0 xs
      | v => .error (.misshapen k .list v)
  termination_by structural ms => ms

/-- The schema of a keyword, or its list of schemas. -/
def readSchemaOrList (k : Keyword) : List (String × Json) → Except DecodeError (Option (OneOrMany Schema))
  | [] => .ok none
  | (name, v) :: r =>
    if name ≠ k.name then readSchemaOrList k r
    else
      match v with
      | .null => .ok none
      | .arr xs => some <$> .many <$> decodeItems k 0 xs
      | v => some <$> (.one <$> Schema.ofReading v (Node.decode v)).mapError (.within k none)
  termination_by structural ms => ms

/-- The schemas by name of a keyword. -/
def readSchemaMap (k : Keyword) : List (String × Json) → Except DecodeError (List (String × Schema))
  | [] => .ok []
  | (name, v) :: r =>
    if name ≠ k.name then readSchemaMap k r
    else
      match v with
      | .null => .ok []
      | .obj ms => decodeMembers k ms
      | v => .error (.misshapen k .object v)
  termination_by structural ms => ms

/-- Schemas in a list, the first of them at an index. -/
def decodeItems (k : Keyword) (index : Nat) : List Json → Except DecodeError (List Schema)
  | [] => .ok []
  | v :: r => do
    let s ← (Schema.ofReading v (Node.decode v)).mapError (.within k (some (toString index)))
    return s :: (← decodeItems k (index + 1) r)
  termination_by structural vs => vs

/-- Schemas under names. -/
def decodeMembers (k : Keyword) : List (String × Json) → Except DecodeError (List (String × Schema))
  | [] => .ok []
  | (name, v) :: r => do
    let s ← (Schema.ofReading v (Node.decode v)).mapError (.within k (some name))
    return (name, s) :: (← decodeMembers k r)
  termination_by structural ms => ms

end

/-- Reads a schema. -/
def Schema.decode (v : Json) : Except DecodeError Schema := ofReading v (Node.decode v)

/-! ## Reading by name

Each of the readers above finds its keyword by name and reads the value by the keyword's shape. -/

/-- A list of schemas. -/
def Schema.decodeList (k : Keyword) : Json → Except DecodeError (List Schema)
  | .arr xs => decodeItems k 0 xs
  | v => .error (.misshapen k .list v)

/-- A schema, or a list of schemas. -/
def Schema.decodeOneOrList (k : Keyword) : Json → Except DecodeError (OneOrMany Schema)
  | .arr xs => .many <$> decodeItems k 0 xs
  | v => (.one <$> Schema.decode v).mapError (.within k none)

/-- Schemas by name. -/
def Schema.decodeMap (k : Keyword) : Json → Except DecodeError (List (String × Schema))
  | .obj ms => decodeMembers k ms
  | v => .error (.misshapen k .object v)

theorem readSchema_eq (k : Keyword) (ms : Members Json) :
    readSchema k ms = k.read (fun v => (Schema.decode v).mapError (.within k none)) ms := by
  induction ms with
  | nil => rfl
  | cons m r ih =>
    obtain ⟨name, v⟩ := m
    by_cases h : name = k.name
    · cases v <;> simp [readSchema, h, Keyword.read, Keyword.valueIn, Members.get?, Schema.decode]
    · simp_all [readSchema, Keyword.read, Keyword.valueIn, Members.get?]

theorem readSchemas_eq (k : Keyword) (ms : Members Json) :
    readSchemas k ms = k.read (Schema.decodeList k) ms := by
  induction ms with
  | nil => rfl
  | cons m r ih =>
    obtain ⟨name, v⟩ := m
    by_cases h : name = k.name
    · cases v <;>
        simp [readSchemas, h, Keyword.read, Keyword.valueIn, Members.get?, Schema.decodeList, Functor.map,
          Except.map]
    · have step : readSchemas k ((name, v) :: r) = readSchemas k r := by cases v <;> exact if_pos h
      simp_all [Keyword.read, Keyword.valueIn, Members.get?]

theorem readSchemaOrList_eq (k : Keyword) (ms : Members Json) :
    readSchemaOrList k ms = k.read (Schema.decodeOneOrList k) ms := by
  induction ms with
  | nil => rfl
  | cons m r ih =>
    obtain ⟨name, v⟩ := m
    by_cases h : name = k.name
    · cases v <;>
        simp [readSchemaOrList, h, Keyword.read, Keyword.valueIn, Members.get?, Schema.decodeOneOrList,
          Schema.decode]
    · have step : readSchemaOrList k ((name, v) :: r) = readSchemaOrList k r := by cases v <;> exact if_pos h
      simp_all [Keyword.read, Keyword.valueIn, Members.get?]

theorem readSchemaMap_eq (k : Keyword) (ms : Members Json) :
    readSchemaMap k ms = (·.getD []) <$> k.read (Schema.decodeMap k) ms := by
  induction ms with
  | nil => rfl
  | cons m r ih =>
    obtain ⟨name, v⟩ := m
    by_cases h : name = k.name
    · cases v with
      | obj members =>
        cases outcome : decodeMembers k members <;>
          simp [readSchemaMap, h, Keyword.read, Keyword.valueIn, Members.get?, Schema.decodeMap, outcome,
            Functor.map, Except.map]
      | _ =>
        simp [readSchemaMap, h, Keyword.read, Keyword.valueIn, Members.get?, Schema.decodeMap, Functor.map,
          Except.map]
    · have step : readSchemaMap k ((name, v) :: r) = readSchemaMap k r := by cases v <;> exact if_pos h
      simp_all [Keyword.read, Keyword.valueIn, Members.get?]

end KubeSchema
