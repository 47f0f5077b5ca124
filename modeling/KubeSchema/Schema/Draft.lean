import KubeSchema.Schema.Encode

/-!
# Drafts

A draft is a schema object some of whose keywords hold any JSON value. Writing it checks those values; a value in the
place of a schema has to be a boolean.

* `Draft.encode`: the members of a draft. Without raw values it writes the schema object (`encode_ofSchema`).
-/

namespace KubeSchema

/-- A value that a keyword of a draft holds. -/
inductive Raw
  | value (v : Json)
  | one (v : Json)
  | many (vs : List Json)
  deriving DecidableEq, Repr

/-- A schema object with raw values for some of its keywords, the latest first. -/
structure Draft where
  base : ObjectSchema
  raw : List (Keyword × Raw)

namespace Json

/-- Whether a value is null, false, zero or empty. -/
def isVoid : Json → Bool
  | null | bool false | int 0 | double (.finite _ 0 _) | str "" | arr [] | obj [] => true
  | _ => false

/-- What a value consists of: items, characters or names. -/
def elements? : Json → Option (List Json)
  | arr xs => some xs
  | str s => some (s.toList.map (fun c => .str (String.ofList [c])))
  | obj ms => some (ms.map (fun m => .str m.1))
  | _ => none

def elements (v : Json) : Except EncodeError (List Json) :=
  match v.elements? with
  | some xs => .ok xs
  | none => .error (.noElements v)

/-- A boolean in the place of a schema. -/
def asRawSchema : Json → Except EncodeError Json
  | bool b => .ok (bool b)
  | v => .error (.notSchema v)

/-- A text that names a type. -/
def asRawType : Json → Except EncodeError Json
  | str s => if (PrimitiveType.ofName? s).isSome then .ok (str s) else .error (.unknownType (str s))
  | v => .error (.unknownType v)

end Json

/-- The names in order, repeated ones too. -/
def sortNames (names : List String) : List String :=
  Members.names (Members.sortByName (names.map (fun n => (n, ()))))

/-- A raw value, not null, as the value of a keyword. -/
def Keyword.encodeRaw (k : Keyword) (v : Json) : Except EncodeError (Option Json) :=
  match k with
  | .default => .ok (some v)
  | .description | .format =>
    match v with
    | .str s => .ok (some (.str s))
    | v => .error (.notText k v)
  | .type | .items => .error (.notOneOrMany k v)
  | .enum =>
    match v with
    | .arr xs => .ok (some (.arr xs))
    | v => .error (.notList k v)
  | .anyOf | .oneOf => do return some (.arr (← (← v.elements).mapM Json.asRawSchema))
  | .additionalItems | .contains | .additionalProperties | .propertyNames => some <$> v.asRawSchema
  | .maxItems | .minItems | .maxProperties | .minProperties =>
    match v with
    | .int n => encodeCount k (some n)
    | v => .error (.notCount k v)
  | .uniqueItems =>
    match v with
    | .bool b => .ok (some (.bool b))
    | _ => .error (.notTruth k)
  | .required =>
    if v.isVoid then .ok none
    else do
      match (← v.elements).mapM (fun x => match x with | .str s => some s | _ => none) with
      | some names => return some (.arr ((sortNames names).map .str))
      | none => .error (.notNames k)
  | .properties | .patternProperties =>
    if v.isVoid then .ok none
    else
      match v with
      | .obj ms => do return some (.obj (← ms.mapM (fun m => do return (m.1, ← m.2.asRawSchema))))
      | v => .error (.noMembers v)

/-- A raw value as the value of a keyword; null leaves the keyword out, unless it is the default. -/
def Raw.encode (k : Keyword) : Raw → Except EncodeError (Option Json)
  | .value v => if v = .null ∧ k ≠ .default then .ok none else k.encodeRaw v
  | .one v => some <$> v.asRawType
  | .many vs => (some ∘ .arr) <$> vs.mapM Json.asRawType

namespace Draft

/-- A schema object without raw values. -/
def ofSchema (n : ObjectSchema) : Draft := ⟨n, []⟩

/-- Puts a raw value into a keyword. -/
def set (d : Draft) (k : Keyword) (r : Raw) : Draft := { d with raw := (k, r) :: d.raw }

/-- Puts values under vendor keywords, whatever their names. -/
def setExtensions (d : Draft) (ms : Members Json) : Draft :=
  { d with base := { d.base with extensions := ms.foldl (fun e m => Members.set e m.1 m.2) d.base.extensions } }

/-- Puts values under other keywords, whatever their names. -/
def setOther (d : Draft) (ms : Members Json) : Draft :=
  { d with base := { d.base with other := ms.foldl (fun e m => Members.set e m.1 m.2) d.base.other } }

/-- The modeled keywords, raw values in the place of those of the schema object. -/
def entries (d : Draft) : List Entry :=
  (schemaEntries d.base).map (fun e =>
    match d.raw.lookup e.1 with
    | some r => (e.1, r.encode e.1)
    | none => e)

/-- The members of a draft. -/
def encode (d : Draft) : Except EncodeError (Members Json) := assemble d.entries d.base.extensions d.base.other

theorem encode_ofSchema (n : ObjectSchema) : (ofSchema n).encode = Node.encode n := by
  simp [encode, entries, ofSchema, Node.encode]

end Draft

end KubeSchema
