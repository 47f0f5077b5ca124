import KubeSchema.Proofs.Members
import KubeSchema.Proofs.Outcome
import KubeSchema.Schema.Decode
import KubeSchema.Schema.Encode

/-!
# Fields of schema objects

A schema object seen as a family of fields, one for each modeled keyword. A field is read from the value that stands
under the keyword's name (`Keyword.readField`) and written as such a value (`Keyword.writeField`).

* `Node.ext_field`: the fields, the vendor keywords and the others make up a schema object.
* `decode_eq_ok`: reading a schema object reads each field.
* `encode_eq_ok`: writing one writes each field, and then the other members, none of which may be there already.
-/

namespace KubeSchema

/-! ## Fields -/

theorem Keyword.name_of_ofName? {name : String} {k : Keyword} (h : ofName? name = some k) : name = k.name := by
  have hk := List.find?_some h
  exact (of_decide_eq_true hk).symm

/-- What a schema object holds for a keyword. -/
def Keyword.Value : Keyword → Type
  | .description | .format => Option String
  | .default => Option Json
  | .type => Option (OneOrMany PrimitiveType)
  | .enum => Option (List Json)
  | .anyOf | .oneOf => Option (List Schema)
  | .items => Option (OneOrMany Schema)
  | .additionalItems | .contains | .additionalProperties | .propertyNames => Option Schema
  | .maxItems | .minItems | .maxProperties | .minProperties => Option Int
  | .uniqueItems => Option Bool
  | .required => NameSet
  | .properties | .patternProperties => List (String × Schema)

namespace Node

/-- The field of a keyword. -/
def field (n : ObjectSchema) : (k : Keyword) → k.Value
  | .description => n.description
  | .default => n.default
  | .type => n.types
  | .format => n.format
  | .enum => n.enum
  | .anyOf => n.anyOf
  | .oneOf => n.oneOf
  | .items => n.items
  | .additionalItems => n.additionalItems
  | .maxItems => n.maxItems
  | .minItems => n.minItems
  | .uniqueItems => n.uniqueItems
  | .contains => n.contains
  | .maxProperties => n.maxProperties
  | .minProperties => n.minProperties
  | .required => n.required
  | .properties => n.properties
  | .patternProperties => n.patternProperties
  | .additionalProperties => n.additionalProperties
  | .propertyNames => n.propertyNames

/-- The schema object of a family of fields. -/
def ofFields (f : (k : Keyword) → k.Value) (extensions other : Members Json) : ObjectSchema where
  description := f .description
  default := f .default
  types := f .type
  format := f .format
  enum := f .enum
  anyOf := f .anyOf
  oneOf := f .oneOf
  items := f .items
  additionalItems := f .additionalItems
  maxItems := f .maxItems
  minItems := f .minItems
  uniqueItems := f .uniqueItems
  contains := f .contains
  maxProperties := f .maxProperties
  minProperties := f .minProperties
  required := f .required
  properties := f .properties
  patternProperties := f .patternProperties
  additionalProperties := f .additionalProperties
  propertyNames := f .propertyNames
  extensions
  other

@[simp] theorem field_ofFields (f : (k : Keyword) → k.Value) (extensions other : Members Json) (k : Keyword) :
    (ofFields f extensions other).field k = f k := by cases k <;> rfl

/-- The fields, the vendor keywords and the others make up a schema object. -/
theorem ext_field {n m : ObjectSchema} (hf : ∀ k, n.field k = m.field k) (he : n.extensions = m.extensions)
    (ho : n.other = m.other) : n = m := by
  have h : n = ofFields n.field n.extensions n.other := rfl
  have h' : m = ofFields m.field m.extensions m.other := rfl
  rw [h, h', show n.field = m.field from funext hf, he, ho]

end Node

/-! ## Reading a field -/

/-- A value that may be missing, as `null` is too. -/
def optional {α : Type} (f : Json → Except DecodeError α) : Option Json → Except DecodeError (Option α)
  | none | some .null => .ok none
  | some v => some <$> f v

theorem Keyword.read_eq {α : Type} (k : Keyword) (f : Json → Except DecodeError α) (ms : Members Json) :
    k.read f ms = optional f (Members.get? ms k.name) := by
  unfold Keyword.read Keyword.valueIn optional
  rcases Members.get? ms k.name with _ | v
  · rfl
  · cases v <;> rfl

/-- Reads the field of a keyword from the value under its name. -/
def Keyword.readField : (k : Keyword) → Option Json → Except DecodeError k.Value
  | .description, v => optional (Json.asText .description) v
  | .default, v => .ok v
  | .type, v => optional Json.asTypes v
  | .format, v => optional (Json.asText .format) v
  | .enum, v => optional (Json.asList .enum) v
  | .anyOf, v => optional (Schema.decodeList .anyOf) v
  | .oneOf, v => optional (Schema.decodeList .oneOf) v
  | .items, v => optional (Schema.decodeOneOrList .items) v
  | .additionalItems, v => optional (fun v => (Schema.decode v).mapError (.within .additionalItems none)) v
  | .maxItems, v => optional (Json.asCount .maxItems) v
  | .minItems, v => optional (Json.asCount .minItems) v
  | .uniqueItems, v => optional (Json.asTruth .uniqueItems) v
  | .contains, v => optional (fun v => (Schema.decode v).mapError (.within .contains none)) v
  | .maxProperties, v => optional (Json.asCount .maxProperties) v
  | .minProperties, v => optional (Json.asCount .minProperties) v
  | .required, v => (·.getD .empty) <$> optional (Json.asNames .required) v
  | .properties, v => (·.getD []) <$> optional (Schema.decodeMap .properties) v
  | .patternProperties, v => (·.getD []) <$> optional (Schema.decodeMap .patternProperties) v
  | .additionalProperties, v => optional (fun v => (Schema.decode v).mapError (.within .additionalProperties none)) v
  | .propertyNames, v => optional (fun v => (Schema.decode v).mapError (.within .propertyNames none)) v

/-- Reading a schema object reads each field; what is not modeled is kept. -/
theorem decode_eq_ok {ms : Members Json} {n : ObjectSchema} :
    Node.decode (.obj ms) = .ok n ↔
      (∀ k : Keyword, k.readField (Members.get? ms k.name) = .ok (n.field k)) ∧
        n.extensions = ms.filter (fun m => !isModeled m.1 && isVendor m.1) ∧
        n.other = ms.filter (fun m => isOther m.1) := by
  simp only [Node.decode, readSchema_eq, readSchemas_eq, readSchemaOrList_eq, readSchemaMap_eq, Keyword.read_eq,
    bind_eq_ok, map_eq_ok, pure_eq_ok]
  constructor
  · rintro ⟨_, h₁, _, h₂, _, h₃, _, h₄, _, h₅, _, h₆, _, h₇, _, h₈, _, h₉, _, h₁₀, _, h₁₁, _, h₁₂, _, h₁₃, _, h₁₄,
      _, h₁₅, _, ⟨_, h₁₆, rfl⟩, _, ⟨_, h₁₇, rfl⟩, _, h₁₈, _, h₁₉, rfl⟩
    refine ⟨fun k => ?_, rfl, rfl⟩
    cases k <;> first | assumption | rfl | exact map_eq_ok.2 ⟨_, ‹_›, rfl⟩
  · rintro ⟨hf, he, ho⟩
    obtain ⟨required, hr, hr'⟩ := map_eq_ok.1 (hf .required)
    obtain ⟨properties, hp, hp'⟩ := map_eq_ok.1 (hf .properties)
    obtain ⟨patterns, hq, hq'⟩ := map_eq_ok.1 (hf .patternProperties)
    refine ⟨_, hf .description, _, hf .type, _, hf .format, _, hf .enum, _, hf .anyOf, _, hf .oneOf, _, hf .items,
      _, hf .additionalItems, _, hf .maxItems, _, hf .minItems, _, hf .uniqueItems, _, hf .contains,
      _, hf .maxProperties, _, hf .minProperties, required, hr, _, ⟨properties, hp, rfl⟩, _, ⟨patterns, hq, rfl⟩,
      _, hf .additionalProperties, _, hf .propertyNames, Node.ext_field (fun k => ?_) he.symm ho.symm⟩
    cases k <;> first | rfl | assumption | exact Except.ok.inj (hf .default)

/-- A schema object reads if each of its fields does. -/
theorem exists_decode {ms : Members Json} (f : (k : Keyword) → k.Value)
    (h : ∀ k : Keyword, k.readField (Members.get? ms k.name) = .ok (f k)) :
    ∃ n, Node.decode (.obj ms) = .ok n ∧ n.field = f :=
  ⟨.ofFields f _ _, decode_eq_ok.2 ⟨fun k => by rw [h k, Node.field_ofFields], rfl, rfl⟩,
    funext (Node.field_ofFields f _ _)⟩

/-! ## Writing a field -/

/-- The value that a field is written as, if it is not left out. -/
def Keyword.writeField : (k : Keyword) → k.Value → Except EncodeError (Option Json)
  | .description, v => .ok (v.map .str)
  | .default, v => .ok v
  | .type, v => .ok (v.map encodeTypes)
  | .format, v => .ok (v.map .str)
  | .enum, v => .ok (v.map .arr)
  | .anyOf, v => encodeSchemas v
  | .oneOf, v => encodeSchemas v
  | .items, v => encodeSchemaOrList v
  | .additionalItems, v => encodeSchema v
  | .maxItems, v => encodeCount .maxItems v
  | .minItems, v => encodeCount .minItems v
  | .uniqueItems, v => .ok (v.map .bool)
  | .contains, v => encodeSchema v
  | .maxProperties, v => encodeCount .maxProperties v
  | .minProperties, v => encodeCount .minProperties v
  | .required, v => .ok (NameSet.encode v)
  | .properties, v => encodeMap <$> encodeMembers v
  | .patternProperties, v => encodeMap <$> encodeMembers v
  | .additionalProperties, v => encodeSchema v
  | .propertyNames, v => encodeSchema v

theorem schemaEntries_eq (n : ObjectSchema) :
    schemaEntries n = Keyword.all.map (fun k => (k, k.writeField (n.field k))) := by
  cases n; rfl

/-- The members of the fields that are written. -/
def fieldMembers (vals : Keyword → Option Json) (ks : List Keyword) : Members Json :=
  ks.filterMap (fun k => (vals k).map (fun v => (k.name, v)))

theorem modeledMembers_map {w : Keyword → Except EncodeError (Option Json)} {vals : Keyword → Option Json}
    {ks : List Keyword} (h : ∀ k ∈ ks, w k = .ok (vals k)) :
    modeledMembers (ks.map (fun k => (k, w k))) = .ok (fieldMembers vals ks) := by
  induction ks with
  | nil => rfl
  | cons k ks ih =>
    have hr := ih (fun k hk => h k (List.mem_cons_of_mem _ hk))
    have hk := h k List.mem_cons_self
    cases hv : vals k <;>
      simp [modeledMembers, hk, hv, hr, fieldMembers, bind, Except.bind, pure, Except.pure]

theorem exists_of_modeledMembers {w : Keyword → Except EncodeError (Option Json)} {ks : List Keyword}
    {ms : Members Json} (h : modeledMembers (ks.map (fun k => (k, w k))) = .ok ms) :
    ∀ k ∈ ks, ∃ v, w k = .ok v := by
  induction ks generalizing ms with
  | nil => simp
  | cons k ks ih =>
    obtain ⟨v, hv, h⟩ := bind_eq_ok.1 h
    refine List.forall_mem_cons.2 ⟨⟨v, hv⟩, ?_⟩
    cases v with
    | none => exact ih h
    | some v => obtain ⟨_, h, -⟩ := bind_eq_ok.1 h; exact ih h

theorem addMembers_eq_ok {ms l r : Members Json} :
    addMembers ms l = .ok r ↔ r = ms ++ l ∧ Members.Distinct l ∧ ∀ m ∈ l, m.1 ∉ Members.names ms := by
  induction l generalizing ms with
  | nil => simp [addMembers, Members.Distinct, Members.names, eq_comm]
  | cons m l ih =>
    obtain ⟨name, v⟩ := m
    simp only [addMembers, Members.has_iff_mem_names]
    split
    · next h => simp [h]
    · next h =>
      rw [ih, Members.names_append, List.append_assoc]
      simp only [Members.Distinct, Members.names, List.map_cons, List.nodup_cons, List.mem_append, not_or,
        List.forall_mem_cons, List.singleton_append, List.map_nil, List.mem_singleton] at h ⊢
      constructor
      · rintro ⟨rfl, hd, hl⟩
        exact ⟨rfl, ⟨fun hm => by obtain ⟨p, hp, he⟩ := List.mem_map.1 hm; exact (hl p hp).2 he, hd⟩, h,
          fun m hm => (hl m hm).1⟩
      · rintro ⟨rfl, ⟨hn, hd⟩, -, hl⟩
        exact ⟨rfl, hd, fun m hm => ⟨hl m hm, fun e => hn (e ▸ List.mem_map_of_mem hm)⟩⟩

/-- Writing a schema object writes each field, and then the other members, none of which may be there already. -/
theorem encode_eq_ok {n : ObjectSchema} {ms : Members Json} :
    n.encode = .ok ms ↔
      ∃ vals : Keyword → Option Json, (∀ k : Keyword, k.writeField (n.field k) = .ok (vals k)) ∧
        ms = fieldMembers vals Keyword.all ++ (n.extensions ++ n.other) ∧
        Members.Distinct (n.extensions ++ n.other) ∧
        ∀ m ∈ n.extensions ++ n.other, m.1 ∉ Members.names (fieldMembers vals Keyword.all) := by
  rw [Node.encode, schemaEntries_eq, assemble, bind_eq_ok]
  constructor
  · rintro ⟨modeled, hm, h⟩
    choose vals hv using exists_of_modeledMembers hm
    have hw (k : Keyword) : k.writeField (n.field k) = .ok (vals k (Keyword.mem_all k)) := hv k _
    rw [modeledMembers_map (fun k _ => hw k)] at hm
    cases hm
    exact ⟨_, hw, addMembers_eq_ok.1 h⟩
  · rintro ⟨vals, hw, h⟩
    exact ⟨_, modeledMembers_map (fun k _ => hw k), addMembers_eq_ok.2 h⟩

/-! ## Looking up a written field -/

theorem mem_fieldMembers {vals : Keyword → Option Json} {m : String × Json} :
    m ∈ fieldMembers vals Keyword.all ↔ ∃ k : Keyword, m.1 = k.name ∧ vals k = some m.2 := by
  obtain ⟨name, v⟩ := m
  simp only [fieldMembers, List.mem_filterMap, Keyword.mem_all, true_and, Option.map_eq_some_iff, Prod.mk.injEq]
  exact exists_congr fun k => ⟨fun ⟨_, h, hn, hv⟩ => ⟨hn.symm, hv ▸ h⟩, fun ⟨hn, h⟩ => ⟨v, h, hn.symm, rfl⟩⟩

theorem get?_fieldMembers (vals : Keyword → Option Json) (k : Keyword) :
    Members.get? (fieldMembers vals Keyword.all) k.name = vals k := by
  have h (ks : List Keyword) : Members.get? (fieldMembers vals ks) k.name = if k ∈ ks then vals k else none := by
    induction ks with
    | nil => rfl
    | cons l ks ih =>
      simp only [fieldMembers] at ih
      by_cases hl : l = k
      · subst hl
        cases hv : vals l <;> simp [fieldMembers, hv, ih, Members.get?]
      · have hn : l.name ≠ k.name := fun h => hl (Keyword.name_injective h)
        cases hv : vals l <;> simp [fieldMembers, hv, ih, Members.get?, hn, Ne.symm hl]
  rw [h, if_pos (Keyword.mem_all k)]

theorem distinct_fieldMembers (vals : Keyword → Option Json) : Members.Distinct (fieldMembers vals Keyword.all) := by
  have hs (ks : List Keyword) : (Members.names (fieldMembers vals ks)).Sublist (ks.map Keyword.name) := by
    induction ks with
    | nil => exact .refl _
    | cons k ks ih =>
      cases hv : vals k with
      | none => simpa [fieldMembers, hv] using ih.cons k.name
      | some v => simpa [fieldMembers, hv, Members.names] using ih.cons_cons k.name
  exact (show (Keyword.all.map Keyword.name).Nodup by decide).sublist (hs _)

theorem distinct_written {vals : Keyword → Option Json} {rest : Members Json} (hd : Members.Distinct rest)
    (hnames : ∀ m ∈ rest, m.1 ∉ Members.names (fieldMembers vals Keyword.all)) :
    Members.Distinct (fieldMembers vals Keyword.all ++ rest) := by
  rw [Members.Distinct, Members.names_append]
  refine List.nodup_append'.2 ⟨distinct_fieldMembers vals, hd, fun name h₁ h₂ => ?_⟩
  obtain ⟨m, hm, rfl⟩ := List.mem_map.1 h₂
  exact hnames m hm h₁

/-- No name is written twice. -/
theorem distinct_of_encode {n : ObjectSchema} {ms : Members Json} (h : n.encode = .ok ms) : Members.Distinct ms := by
  obtain ⟨vals, -, rfl, hd, hnames⟩ := encode_eq_ok.1 h
  exact distinct_written hd hnames

/-- What a field is written as stands under the name of its keyword. -/
theorem get?_written {vals : Keyword → Option Json} {k : Keyword} {v : Json} (h : vals k = some v)
    (rest : Members Json) : Members.get? (fieldMembers vals Keyword.all ++ rest) k.name = some v := by
  rw [Members.get?_append, get?_fieldMembers, h, Option.some_or]

/-- A field that is left out has nothing under its name, if the other members are not modeled. -/
theorem get?_written_of_other {vals : Keyword → Option Json} {rest : Members Json}
    (h : ∀ m ∈ rest, isModeled m.1 = false) (k : Keyword) :
    Members.get? (fieldMembers vals Keyword.all ++ rest) k.name = vals k := by
  have hr : Members.get? rest k.name = none := by
    refine Members.get?_eq_none_iff.2 fun hm => ?_
    obtain ⟨m, hm, he⟩ := List.mem_map.1 hm
    have := h m hm
    rw [he, isModeled, Keyword.ofName?_name] at this
    cases this
  rw [Members.get?_append, get?_fieldMembers, hr, Option.or_none]

end KubeSchema
