import KubeSchema.Proofs.Alike.Reading
import KubeSchema.Proofs.Schema.Nested
import KubeSchema.Proofs.Schema.Writing
import Mathlib.Data.Set.List

/-!
# The grammar of schemas

Which values are schemas, stated without reading them (`Json.IsSchema`): booleans, and objects each modeled keyword of
which has a value that it admits (`Keyword.Admits`).

* `exists_readField_iff`: a field reads from exactly the values that its keyword admits.
* `reads_iff_isSchema`: a value reads as a schema exactly if it is one.
* `decode_accepts_iff`: the same for schema objects, and what does not matter for them: the order of members, and the
  keywords that are not modeled.
-/

namespace KubeSchema

/-! ## The grammar -/

/-- The values that a keyword admits, given which values are schemas. -/
inductive Keyword.Admits (S : Json → Prop) : Keyword → Json → Prop
  /-- `null` counts as missing. -/
  | null (k : Keyword) : Admits S k .null
  | default (v : Json) : Admits S .default v
  | text {k : Keyword} (hk : k ∈ [.description, .format]) (s : String) : Admits S k (.str s)
  | type (t : PrimitiveType) : Admits S .type (.str t.name)
  | types {xs : List Json} (h : ∀ x ∈ xs, ∃ t : PrimitiveType, x = .str t.name) : Admits S .type (.arr xs)
  | enum (xs : List Json) : Admits S .enum (.arr xs)
  | schema {k : Keyword} (hk : k ∈ [.additionalItems, .contains, .additionalProperties, .propertyNames]) {v : Json}
      (h : S v) : Admits S k v
  /-- A list under `items` is one of schemas. -/
  | item {v : Json} (hv : ∀ xs, v ≠ .arr xs) (h : S v) : Admits S .items v
  | schemas {k : Keyword} (hk : k ∈ [.anyOf, .oneOf, .items]) {xs : List Json} (h : ∀ x ∈ xs, S x) :
      Admits S k (.arr xs)
  | schemasByName {k : Keyword} (hk : k ∈ [.properties, .patternProperties]) {ms : Members Json}
      (h : ∀ m ∈ ms, S m.2) : Admits S k (.obj ms)
  /-- A limit has 32 bits and no sign. -/
  | limit {k : Keyword} (hk : k ∈ [.maxItems, .minItems, .maxProperties, .minProperties]) {c : Int}
      (h : 0 ≤ c ∧ c ≤ 4294967295) : Admits S k (.int c)
  | truth (b : Bool) : Admits S .uniqueItems (.bool b)
  | names {xs : List Json} (h : ∀ x ∈ xs, ∃ s, x = .str s) : Admits S .required (.arr xs)

namespace Json

/-- The values that are schemas. -/
inductive IsSchema : Json → Prop
  | bool (b : Bool) : IsSchema (.bool b)
  | object {ms : Members Json} (h : ∀ (k : Keyword) (v : Json), Members.get? ms k.name = some v → k.Admits IsSchema v) :
      IsSchema (.obj ms)

/-- The values that are schema objects. -/
def IsSchemaObject (v : Json) : Prop := v.IsSchema ∧ ∃ ms, v = .obj ms

/-- A schema without the keywords that are not modeled, in every schema object in it. -/
def modeledPart (v : Json) : Json := v.mapSchemas (fun ms => ms.filter (fun m => isModeled m.1))

end Json

/-! ## What a keyword admits -/

/-- A value that a keyword admits may have the schemas in it replaced. -/
theorem Keyword.Admits.of_maps {S T : Json → Prop} {R : Json → Json → Prop} {k : Keyword} {v w : Json}
    (h : k.Admits S v) (hm : Slot.Maps R (Slot.ofKeyword? k.name) v w)
    (hR : ∀ c c', R c c' → (c = .null → c' = .null) ∧ (S c → T c')) : k.Admits T w := by
  -- Without a slot there are no schemas in the value, and nothing of it is replaced.
  have same (hk : Slot.ofKeyword? k.name = none) : w = v := by
    rw [hk] at hm
    exact hm.eq_of_noSlot
  have items {xs ys : List Json} (hxy : List.Forall₂ R xs ys) (hxs : ∀ x ∈ xs, S x) : ∀ y ∈ ys, T y := by
    intro y hy
    obtain ⟨x, hx, hr⟩ := exists_of_mem_right hxy hy
    exact (hR x y hr).2 (hxs x hx)
  cases h with
  | null =>
    have hw : w = .null := by
      generalize Slot.ofKeyword? k.name = s at hm
      cases hm with
      | schema h | item _ _ h => exact (hR _ _ h).1 rfl
      | noList | noMap | noSlot => rfl
    rw [hw]
    exact .null k
  | schema hk h =>
    cases k
    case additionalItems | contains | additionalProperties | propertyNames =>
      cases hm with
      | schema hr => exact .schema hk ((hR _ _ hr).2 h)
    all_goals exact absurd hk (by decide)
  | item hv h =>
    cases hm with
    | item _ hw hr => exact .item hw ((hR _ _ hr).2 h)
    | items => exact absurd rfl (hv _)
  | schemas hk h =>
    cases k
    case anyOf | oneOf =>
      cases hm with
      | list hr => exact .schemas hk (items hr h)
      | noList hv => exact absurd rfl (hv _)
    case items =>
      cases hm with
      | items hr => exact .schemas hk (items hr h)
      | item hv => exact absurd rfl (hv _)
    all_goals exact absurd hk (by decide)
  | schemasByName hk h =>
    cases k
    case properties | patternProperties =>
      cases hm with
      | map hr =>
        refine .schemasByName hk fun m hm => ?_
        obtain ⟨p, hp, -, hpm⟩ := exists_of_mem_right hr hm
        exact (hR _ _ hpm).2 (h p hp)
      | noMap hv => exact absurd rfl (hv _)
    all_goals exact absurd hk (by decide)
  | text hk s =>
    cases k
    case description | format => rw [same rfl]; exact .text hk s
    all_goals exact absurd hk (by decide)
  | limit hk h =>
    cases k
    case maxItems | minItems | maxProperties | minProperties => rw [same rfl]; exact .limit hk h
    all_goals exact absurd hk (by decide)
  | default => rw [same rfl]; exact .default v
  | type t => rw [same rfl]; exact .type t
  | types h => rw [same rfl]; exact .types h
  | enum xs => rw [same rfl]; exact .enum xs
  | truth b => rw [same rfl]; exact .truth b
  | names h => rw [same rfl]; exact .names h

/-- Which values a keyword admits depends on the schemas in its slot only. -/
theorem Keyword.Admits.imp {S T : Json → Prop} {k : Keyword} {v : Json} (h : k.Admits S v)
    (hST : ∀ c ∈ Slot.values (Slot.ofKeyword? k.name) v, S c → T c) : k.Admits T v :=
  h.of_maps (R := fun c c' => (c = .null → c' = .null) ∧ (S c → T c')) (.refl fun c hc => ⟨id, hST c hc⟩) fun _ _ h => h

/-! ## Counts, types and names -/

theorem maxCount_eq : Json.maxCount = 4294967295 := rfl

theorem asCount_iff {k : Keyword} {v : Json} {c : Int} :
    Json.asCount k v = .ok c ↔ v = .int c ∧ 0 ≤ c ∧ c ≤ Json.maxCount := by
  constructor
  · intro h
    have hrange := asCount_eq_ok h
    cases v with
    | int n =>
      rw [Json.asCount] at h
      split at h <;> cases h
      exact ⟨rfl, hrange⟩
    | _ => cases h
  · rintro ⟨rfl, hc⟩
    exact if_pos hc

theorem asType_eq_ok {v : Json} {t : PrimitiveType} : Json.asType v = .ok t ↔ v = .str t.name := by
  constructor
  · intro h
    cases v with
    | str s =>
      rw [Json.asType] at h
      split at h
      · next t' ht =>
        cases h
        have hname := List.find?_some ht
        rw [of_decide_eq_true hname]
      · cases h
    | _ => cases h
  · rintro rfl
    rw [Json.asType, PrimitiveType.ofName?_name]

theorem mapM_asType_eq_ok {xs : List Json} {ts : List PrimitiveType} :
    xs.mapM Json.asType = .ok ts ↔ xs = ts.map PrimitiveType.encode := by
  induction xs generalizing ts with
  | nil => cases ts <;> simp [List.mapM_nil, pure, Except.pure]
  | cons x xs ih =>
    simp only [List.mapM_cons, bind_eq_ok, pure_eq_ok, asType_eq_ok, ih]
    constructor
    · rintro ⟨t, rfl, ts, rfl, rfl⟩; rfl
    · intro h
      cases ts with
      | nil => cases h
      | cons t ts =>
        cases h
        exact ⟨t, rfl, ts, rfl, rfl⟩

/-- Types are read from what they are written as only. -/
theorem asTypes_eq_ok {v : Json} {t : OneOrMany PrimitiveType} : Json.asTypes v = .ok t ↔ v = encodeTypes t := by
  constructor
  · intro h
    cases v with
    | str s =>
      obtain ⟨t, ht, rfl⟩ := map_eq_ok.1 h
      exact asType_eq_ok.1 ht
    | arr xs =>
      obtain ⟨ts, hts, rfl⟩ := map_eq_ok.1 h
      rw [mapM_asType_eq_ok.1 hts]
      rfl
    | _ => cases h
  · rintro rfl
    exact asTypes_encodeTypes t

theorem texts?_eq_some {xs : List Json} {l : List String} : Json.texts? xs = some l ↔ xs = l.map .str := by
  constructor
  · intro h
    induction xs generalizing l with
    | nil => cases h; rfl
    | cons x xs ih =>
      simp only [Json.texts?, List.mapM_cons, Option.bind_eq_bind, Option.bind_eq_some_iff] at h ih
      obtain ⟨s, hs, l', hl', e⟩ := h
      cases e
      cases x with
      | str s' => cases hs; rw [ih hl']; rfl
      | _ => cases hs
  · rintro rfl
    exact texts?_map_str l

theorem asNames_eq_ok {k : Keyword} {v : Json} {s : NameSet} :
    Json.asNames k v = .ok s ↔ ∃ l : List String, v = .arr (l.map .str) ∧ s = .ofList l := by
  constructor
  · intro h
    cases v with
    | arr xs =>
      rw [Json.asNames] at h
      split at h
      · next l hl =>
        cases h
        exact ⟨l, by rw [texts?_eq_some.1 hl], rfl⟩
      · cases h
    | _ => cases h
  · rintro ⟨l, rfl, rfl⟩
    rw [Json.asNames, texts?_map_str]

/-! ## Fields -/

/-- Whether a value reads as a schema. -/
def Json.Reads (v : Json) : Prop := ∃ s, Schema.decode v = .ok s

theorem exists_items_of_reads {xs : List Json} (h : ∀ x ∈ xs, x.Reads) :
    ∃ l, List.Forall₂ (fun x s => Schema.decode x = .ok s) xs l := by
  induction xs with
  | nil => exact ⟨[], .nil⟩
  | cons x xs ih =>
    obtain ⟨⟨s, hs⟩, hxs⟩ := List.forall_mem_cons.1 h
    obtain ⟨l, hl⟩ := ih hxs
    exact ⟨s :: l, .cons hs hl⟩

theorem reads_of_items {xs : List Json} {l : List Schema} (h : List.Forall₂ (fun x s => Schema.decode x = .ok s) xs l) :
    ∀ x ∈ xs, x.Reads := fun _ hx =>
  let ⟨s, _, hs⟩ := exists_of_mem_left h hx
  ⟨s, hs⟩

/-- A field that is read has a value that its keyword admits. -/
theorem admits_of_readField {k : Keyword} {v : Json} {a : k.Value} (h : k.readField (some v) = .ok a) :
    k.Admits Json.Reads v := by
  have value {α : Type} {f : Json → Except DecodeError α} {a : Option α} (h : optional f (some v) = .ok a)
      (hf : ∀ b, f v = .ok b → k.Admits Json.Reads v) : k.Admits Json.Reads v := by
    rcases optional_eq_ok.1 h with ⟨e | e, -⟩ | ⟨w, b, e, -, -, hb⟩ <;> cases e
    · exact .null k
    · exact hf b hb
  cases k
  case default => exact .default v
  case description | format =>
    refine value h fun s hs => ?_
    cases v <;> first | exact .text (by decide) _ | cases hs
  case type =>
    refine value h fun t ht => ?_
    rw [asTypes_eq_ok.1 ht]
    cases t with
    | one t => exact .type t
    | many ts =>
      refine .types fun x hx => ?_
      obtain ⟨t, -, rfl⟩ := List.mem_map.1 hx
      exact ⟨t, rfl⟩
  case enum =>
    refine value h fun l hl => ?_
    cases v <;> first | exact .enum _ | cases hl
  case maxItems | minItems | maxProperties | minProperties =>
    refine value h fun c hc => ?_
    obtain ⟨rfl, hrange⟩ := asCount_iff.1 hc
    exact .limit (by decide) (maxCount_eq ▸ hrange)
  case uniqueItems =>
    refine value h fun b hb => ?_
    cases v <;> first | exact .truth _ | cases hb
  case required =>
    obtain ⟨names, hnames, -⟩ := map_eq_ok.1 h
    refine value hnames fun s hs => ?_
    obtain ⟨l, rfl, -⟩ := asNames_eq_ok.1 hs
    refine .names fun x hx => ?_
    obtain ⟨name, -, rfl⟩ := List.mem_map.1 hx
    exact ⟨name, rfl⟩
  case anyOf | oneOf =>
    rcases readList_eq_ok.1 h with ⟨e | e, -⟩ | ⟨xs, l, e, -, hl⟩ <;> cases e
    · exact .null _
    · exact .schemas (by decide) (reads_of_items hl)
  case items =>
    rcases readOneOrList_eq_ok.1 h with ⟨e | e, -⟩ | ⟨w, s, e, -, hw⟩ | ⟨xs, l, e, -, hl⟩ <;> cases e
    · exact .null _
    · exact .item (by rintro xs rfl; cases hw) ⟨s, hw⟩
    · exact .schemas (by decide) (reads_of_items hl)
  case additionalItems | contains | additionalProperties | propertyNames =>
    rcases readSchema_eq_ok.1 h with ⟨e | e, -⟩ | ⟨w, s, e, -, hw⟩ <;> cases e
    · exact .null _
    · exact .schema (by decide) ⟨s, hw⟩
  case properties | patternProperties =>
    rcases readMap_eq_ok.1 h with ⟨e | e, -⟩ | ⟨ms, e, hl⟩ <;> cases e
    · exact .null _
    · refine .schemasByName (by decide) fun m hm => ?_
      obtain ⟨p, -, -, hp⟩ := exists_of_mem_left hl hm
      exact ⟨p.2, hp⟩

theorem exists_readField_missing (k : Keyword) : ∃ a, k.readField none = .ok a := by
  cases k <;> exact ⟨_, rfl⟩

/-- A field is read from any value that its keyword admits. -/
theorem exists_readField_of_admits {k : Keyword} {v : Json} (h : k.Admits Json.Reads v) :
    ∃ a, k.readField (some v) = .ok a := by
  have value {α : Type} {f : Json → Except DecodeError α} {w : Json} {b : α} (hb : f w = .ok b) (hw : w ≠ .null) :
      optional f (some w) = .ok (some b) := optional_eq_ok.2 (.inr ⟨w, b, rfl, hw, rfl, hb⟩)
  cases h with
  | null => cases k <;> exact ⟨_, rfl⟩
  | default => exact ⟨_, rfl⟩
  | text hk s => cases k <;> first | exact absurd hk (by decide) | exact ⟨_, rfl⟩
  | type t => exact ⟨_, value (asTypes_encodeTypes (.one t)) nofun⟩
  | @types xs h =>
    obtain ⟨ts, rfl⟩ : ∃ ts : List PrimitiveType, ts.map PrimitiveType.encode = xs := by
      refine (Set.range_list_map PrimitiveType.encode).ge fun x hx => ?_
      obtain ⟨t, rfl⟩ := h x hx
      exact ⟨t, rfl⟩
    exact ⟨_, value (asTypes_encodeTypes (.many ts)) nofun⟩
  | enum xs => exact ⟨_, rfl⟩
  | schema hk h =>
    obtain ⟨s, hs⟩ := h
    cases k
    case additionalItems | contains | additionalProperties | propertyNames =>
      exact ⟨_, readSchema_eq_ok.2 (.inr ⟨_, s, rfl, rfl, hs⟩)⟩
    all_goals exact absurd hk (by decide)
  | item _ h =>
    obtain ⟨s, hs⟩ := h
    exact ⟨_, readOneOrList_eq_ok.2 (.inr (.inl ⟨_, s, rfl, rfl, hs⟩))⟩
  | schemas hk h =>
    obtain ⟨l, hl⟩ := exists_items_of_reads h
    cases k
    case anyOf | oneOf => exact ⟨_, readList_eq_ok.2 (.inr ⟨_, l, rfl, rfl, hl⟩)⟩
    case items => exact ⟨_, readOneOrList_eq_ok.2 (.inr (.inr ⟨_, l, rfl, rfl, hl⟩))⟩
    all_goals exact absurd hk (by decide)
  | schemasByName hk h =>
    obtain ⟨l, hl⟩ := Members.exists_forall₂_of_mem h
    cases k
    case properties | patternProperties => exact ⟨l, readMap_eq_ok.2 (.inr ⟨_, rfl, hl⟩)⟩
    all_goals exact absurd hk (by decide)
  | @limit _ hk c h =>
    have hread (l : Keyword) : Json.asCount l (.int c) = .ok c := asCount_iff.2 ⟨rfl, maxCount_eq ▸ h⟩
    cases k
    case maxItems | minItems | maxProperties | minProperties => exact ⟨_, value (hread _) nofun⟩
    all_goals exact absurd hk (by decide)
  | truth b => exact ⟨_, rfl⟩
  | @names xs h =>
    obtain ⟨l, rfl⟩ : ∃ l : List String, l.map Json.str = xs := by
      refine (Set.range_list_map Json.str).ge fun x hx => ?_
      obtain ⟨s, rfl⟩ := h x hx
      exact ⟨s, rfl⟩
    exact ⟨_, map_eq_ok.2 ⟨_, value (asNames_eq_ok.2 ⟨l, rfl, rfl⟩) nofun, rfl⟩⟩

/-- A field reads from exactly the values that its keyword admits. -/
theorem exists_readField_iff {k : Keyword} {v : Option Json} :
    (∃ a, k.readField v = .ok a) ↔ ∀ w, v = some w → k.Admits Json.Reads w := by
  constructor
  · rintro ⟨a, h⟩ w rfl
    exact admits_of_readField h
  · intro h
    cases v with
    | none => exact exists_readField_missing k
    | some w => exact exists_readField_of_admits (h w rfl)

/-! ## Schemas -/

theorem exists_decode_obj_iff {ms : Members Json} :
    (∃ n, Node.decode (.obj ms) = .ok n) ↔
      ∀ (k : Keyword) (v : Json), Members.get? ms k.name = some v → k.Admits Json.Reads v := by
  constructor
  · rintro ⟨n, hn⟩ k v hv
    exact admits_of_readField (hv ▸ (decode_eq_ok.1 hn).1 k)
  · intro h
    choose f hf using fun k : Keyword => exists_readField_iff.2 (h k)
    obtain ⟨n, hn, -⟩ := exists_decode f hf
    exact ⟨n, hn⟩

theorem Json.reads_obj_iff {ms : Members Json} : (obj ms).Reads ↔ ∃ n, Node.decode (.obj ms) = .ok n := by
  constructor
  · rintro ⟨s, hs⟩
    rcases Schema.decode_eq_ok.1 hs with ⟨b, e, -⟩ | ⟨_, n, -, hn, -⟩
    · cases e
    · exact ⟨n, hn⟩
  · rintro ⟨n, hn⟩
    exact ⟨_, Schema.decode_of_node hn⟩

theorem Json.isSchema_obj_iff {ms : Members Json} :
    (obj ms).IsSchema ↔ ∀ (k : Keyword) (v : Json), Members.get? ms k.name = some v → k.Admits IsSchema v := by
  constructor
  · rintro ⟨⟩
    assumption
  · exact .object

/-- A value reads as a schema exactly if it is one. -/
theorem reads_iff_isSchema (v : Json) : v.Reads ↔ v.IsSchema := by
  induction v using Json.induction with
  | h v ih =>
    cases v with
    | bool b => exact iff_of_true ⟨_, rfl⟩ (.bool b)
    | obj ms =>
      have below {k : Keyword} {w : Json} (hw : Members.get? ms k.name = some w) :
          ∀ c ∈ Slot.values (Slot.ofKeyword? k.name) w, c.Reads ↔ c.IsSchema := fun c hc =>
        ih c (Json.mem_children.2 ⟨_, Members.mem_of_get? hw, hc⟩)
      rw [Json.reads_obj_iff, exists_decode_obj_iff, Json.isSchema_obj_iff]
      refine forall₃_congr fun k w hw => ?_
      exact ⟨fun h => h.imp fun c hc => (below hw c hc).1, fun h => h.imp fun c hc => (below hw c hc).2⟩
    | _ => exact iff_of_false (fun ⟨_, h⟩ => by cases h) nofun

theorem exists_decode_iff {v : Json} : (∃ n, Node.decode v = .ok n) ↔ v.IsSchemaObject := by
  rw [Json.IsSchemaObject, ← reads_iff_isSchema]
  constructor
  · rintro ⟨n, hn⟩
    exact ⟨⟨_, Schema.decode_of_node hn⟩, Node.exists_obj_of_decode hn⟩
  · rintro ⟨h, ms, rfl⟩
    exact Json.reads_obj_iff.1 h

/-! ## What does not matter -/

/-- A change that leaves everything under modeled keywords leaves schemas schemas. -/
theorem isSchema_mapSchemas_iff {f : Members Json → Members Json}
    (hf : ∀ ms (k : Keyword), Members.get? (f ms) k.name = Members.get? ms k.name) (v : Json) :
    (v.mapSchemas f).IsSchema ↔ v.IsSchema := by
  induction v using Json.induction with
  | h v ih =>
    cases v with
    | obj ms =>
      rw [Json.mapSchemas_obj, Json.isSchema_obj_iff, Json.isSchema_obj_iff]
      refine forall_congr' fun k => ?_
      rw [hf, get?_mapSlots, modeledSlot?_name]
      cases hw : Members.get? ms k.name with
      | none => exact iff_of_true nofun nofun
      | some w =>
        have hmaps : Slot.Maps (fun c c' => (c = .null ↔ c' = .null) ∧ (c.IsSchema ↔ c'.IsSchema))
            (Slot.ofKeyword? k.name) w (Slot.mapValues (Json.mapSchemas f) (Slot.ofKeyword? k.name) w) := by
          refine (maps_mapValues _ w).imp fun c hc c' e => ?_
          rw [e]
          refine ⟨?_, (ih c (Json.mem_children.2 ⟨_, Members.mem_of_get? hw, hc⟩)).symm⟩
          cases c <;> simp [Json.mapSchemas]
        simp only [Option.map_some, Option.some.injEq, forall_eq']
        exact ⟨fun h => h.of_maps hmaps.flip fun _ _ hr => ⟨hr.1.2, hr.2.2⟩,
          fun h => h.of_maps hmaps fun _ _ hr => ⟨hr.1.1, hr.2.1⟩⟩
    | _ => rfl

theorem isSchema_modeledPart_iff (v : Json) : v.modeledPart.IsSchema ↔ v.IsSchema :=
  isSchema_mapSchemas_iff (fun ms k => by rw [Members.get?_filter, isModeled, Keyword.ofName?_name]; rfl) v

theorem isSchemaObject_modeledPart_iff (v : Json) : v.modeledPart.IsSchemaObject ↔ v.IsSchemaObject := by
  refine and_congr (isSchema_modeledPart_iff v) ?_
  cases v <;> simp [Json.modeledPart, Json.mapSchemas]

theorem hasDistinctNames_modeledPart {v : Json} (h : v.hasDistinctNames = true) :
    v.modeledPart.hasDistinctNames = true := by
  refine Json.hasDistinctNames_mapSchemas (fun ms hms => ?_) v h
  obtain ⟨hnames, hvalues⟩ := Json.hasDistinctNames_obj.1 hms
  have hfilter : Members.Distinct (ms.filter (fun m => isModeled m.1)) :=
    (List.filter_sublist.map Prod.fst).nodup hnames
  exact Json.hasDistinctNames_obj.2 ⟨hfilter, fun m hm => hvalues m (List.mem_of_mem_filter hm)⟩

theorem isSchemaObject_of_alike {v w : Json} (hv : v.hasDistinctNames = true) (hw : w.hasDistinctNames = true)
    (h : v.Alike w) (hs : v.IsSchemaObject) : w.IsSchemaObject := by
  obtain ⟨hs, ms, rfl⟩ := hs
  obtain ⟨ms', e, -⟩ := exists_obj_of_alike (.some h)
  obtain ⟨s, hs⟩ := (reads_iff_isSchema _).2 hs
  obtain ⟨s', hs', -⟩ := readsLike _ w hv hw h s hs
  exact ⟨(reads_iff_isSchema w).1 ⟨s', hs'⟩, ms', Option.some.inj e⟩

/-- Decoding accepts the schema objects and nothing else; and whether it does depends neither on the order of members
nor on the keywords that are not modeled. -/
theorem decode_accepts_iff (v w : Json) :
    ((∃ n, Node.decode v = .ok n) ↔ v.IsSchemaObject) ∧
      (v.hasDistinctNames = true → w.hasDistinctNames = true → v.modeledPart.Alike w.modeledPart →
        ((∃ n, Node.decode v = .ok n) ↔ ∃ n, Node.decode w = .ok n)) := by
  refine ⟨exists_decode_iff, fun hv hw h => ?_⟩
  rw [exists_decode_iff, exists_decode_iff, ← isSchemaObject_modeledPart_iff v, ← isSchemaObject_modeledPart_iff w]
  have hv := hasDistinctNames_modeledPart hv
  have hw := hasDistinctNames_modeledPart hw
  exact ⟨isSchemaObject_of_alike hv hw h, isSchemaObject_of_alike hw hv h.symm⟩

/-- Other keywords, in the schema and in the one below it, and another order of the members. -/
theorem decode_accepts_beside_other_keywords :
    let v : Json := .obj [
      ("x-order", .int 1),
      ("properties", .obj [
        ("port", .obj [("type", .str "integer"), ("title", .str "Port")]),
        ("host", .bool true)]),
      ("maxProperties", .int 4294967295)]
    let w : Json := .obj [
      ("maxProperties", .int 4294967295),
      ("properties", .obj [
        ("host", .bool true),
        ("port", .obj [("x-kind", .null), ("type", .str "integer")])]),
      ("not", .str "odd")]
    v.hasDistinctNames = true ∧ w.hasDistinctNames = true ∧ v.modeledPart.Alike w.modeledPart ∧
      ((∃ n, Node.decode v = .ok n) ↔ ∃ n, Node.decode w = .ok n) := by
  intro v w
  have hv : v.hasDistinctNames = true := rfl
  have hw : w.hasDistinctNames = true := rfl
  have h : v.modeledPart.Alike w.modeledPart := by decide +kernel
  exact ⟨hv, hw, h, (decode_accepts_iff v w).2 hv hw h⟩

end KubeSchema
