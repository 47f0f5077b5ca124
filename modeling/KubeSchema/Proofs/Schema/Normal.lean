import KubeSchema.Proofs.Schema.Grammar
import Mathlib.Data.List.Dedup
import Mathlib.Data.List.Sort

/-!
# The normal form of schemas

Reading a schema forgets which keywords are stated without saying anything: modeled ones that are `null`, and required
names, properties and pattern properties of which there are none. It also forgets the order and the repetitions of
required names, and among the keywords of a schema the order of the modeled ones. Nothing else is lost: what is written
for a schema that was read is its normal form (`Json.normal`), up to the order of keywords (`Json.SameKeywords`).

* `written_normal`: the value of a keyword.
* `exists_encode_of_decode`: a schema object.
-/

namespace KubeSchema

/-! ## The normal form -/

/-- The names in increasing order, each of them once. -/
def increasingNames (names : List String) : List String := names.dedup.insertionSort (· ≤ ·)

/-- The value of a keyword in normal form, if it says anything. -/
def Keyword.normal? : Keyword → Json → Option Json
  | .default, v => some v
  | _, .null => none
  | .required, .arr [] => none
  | .required, .arr xs => some (.arr ((increasingNames (xs.filterMap Json.text?)).map .str))
  | .properties, .obj [] => none
  | .patternProperties, .obj [] => none
  | _, v => some v

/-- The value under a name in normal form; what is not modeled stays. -/
def normalValue? (name : String) (v : Json) : Option Json :=
  match Keyword.ofName? name with
  | some k => k.normal? v
  | none => some v

/-- The members of a schema object in normal form. -/
def Members.normal (ms : Members Json) : Members Json :=
  ms.filterMap (fun m => (normalValue? m.1 m.2).map (fun v => (m.1, v)))

namespace Json

/-- A schema with all schema objects in normal form. -/
def normal (v : Json) : Json := v.mapSchemas Members.normal

/-- A schema with the keywords of all schema objects sorted. -/
def sortKeywords (v : Json) : Json := v.mapSchemas Members.sortByName

/-- Whether two schemas are the same up to the order of keywords in schema objects. The order of schemas under names
matters, and so does that of the members of other values. -/
def SameKeywords (v w : Json) : Prop := v.sortKeywords = w.sortKeywords

instance (v w : Json) : Decidable (SameKeywords v w) := inferInstanceAs (Decidable (v.sortKeywords = w.sortKeywords))

end Json

/-! ## Required names -/

theorem names_ofList (names : List String) : (NameSet.ofList names).names = increasingNames names := by
  have hsorted : (NameSet.ofList names).names.Pairwise (· < ·) := (NameSet.ofList names).increasing
  have hnodup : (NameSet.ofList names).names.Nodup := hsorted.imp (fun h => ne_of_lt h)
  have hperm : (NameSet.ofList names).names.Perm (increasingNames names) := by
    refine List.Perm.trans ?_ (List.perm_insertionSort _ _).symm
    refine (List.perm_ext_iff_of_nodup hnodup (List.nodup_dedup names)).2 fun name => ?_
    rw [NameSet.mem_ofList, List.mem_dedup]
  have hincreasing : (increasingNames names).Pairwise (· ≤ ·) :=
    List.pairwise_insertionSort _ _
  exact List.Perm.eq_of_pairwise (fun a b _ _ => le_antisymm) (hsorted.imp le_of_lt) hincreasing hperm

/-! ## Keywords -/

theorem Keyword.normal?_of_ne_null {k : Keyword} (hk : k ∉ [.required, .properties, .patternProperties]) {v : Json}
    (hv : v ≠ .null) : k.normal? v = some v := by
  cases k
  case required | properties | patternProperties => exact absurd hk (by decide)
  all_goals cases v <;> first | rfl | exact absurd rfl hv

theorem Keyword.normal?_null {k : Keyword} (hk : k ≠ .default) : k.normal? .null = none := by
  cases k <;> first | rfl | exact absurd rfl hk

/-- Whether what is written for a schema that was read is its normal form. -/
def Json.WritesNormal (v : Json) : Prop :=
  ∀ s w, Schema.decode v = .ok s → s.encode = .ok w → w.SameKeywords v.normal

theorem normal_of_decode {v : Json} {s : Schema} (h : Schema.decode v = .ok s) :
    v.normal ≠ .null ∧ ∀ xs, v.normal ≠ .arr xs := by
  rcases Schema.decode_eq_ok.1 h with ⟨b, rfl, -⟩ | ⟨ms, _, rfl, -⟩ <;> exact ⟨nofun, nofun⟩

theorem items_normal {xs ys : List Json} {l : List Schema} (hd : List.Forall₂ (fun x s => Schema.decode x = .ok s) xs l)
    (he : List.Forall₂ (fun s y => s.encode = .ok y) l ys) (hc : ∀ x ∈ xs, x.WritesNormal) :
    ys.map Json.sortKeywords = (xs.map Json.normal).map Json.sortKeywords := by
  induction hd generalizing ys with
  | nil => cases he; rfl
  | cons hs _ ih =>
    cases he with
    | cons hy he =>
      obtain ⟨hx, hc⟩ := List.forall_mem_cons.1 hc
      exact List.cons_eq_cons.2 ⟨hx _ _ hs hy, ih he hc⟩

theorem members_normal {ms ms' : Members Json} {l : List (String × Schema)}
    (hd : Members.Rel (fun x s => Schema.decode x = .ok s) ms l) (he : Members.Rel (fun s y => s.encode = .ok y) l ms')
    (hc : ∀ x ∈ ms.map Prod.snd, x.WritesNormal) :
    ms'.map (fun m => (m.1, m.2.sortKeywords)) =
      (ms.map (fun m => (m.1, m.2.normal))).map (fun m => (m.1, m.2.sortKeywords)) := by
  induction hd generalizing ms' with
  | nil => cases he; rfl
  | cons hs _ ih =>
    cases he with
    | cons hy he =>
      obtain ⟨hx, hc⟩ := List.forall_mem_cons.1 hc
      exact List.cons_eq_cons.2 ⟨Prod.ext (hy.1.symm.trans hs.1.symm) (hx _ _ hs.2 hy.2), ih he hc⟩

/-- The value of a keyword in normal form, once the schemas in it are. -/
def Keyword.normalAt? (k : Keyword) (v : Json) : Option Json :=
  k.normal? (Slot.mapValues Json.normal (Slot.ofKeyword? k.name) v)

theorem normalAt?_missing {k : Keyword} (hk : k ≠ .default) {v : Option Json} (hv : Json.IsMissing v) :
    v.bind k.normalAt? = none := by
  rcases hv with rfl | rfl
  · rfl
  · have hnull : Slot.mapValues Json.normal (Slot.ofKeyword? k.name) .null = .null := by
      rcases Slot.ofKeyword? k.name with _ | _ | _ | _ | _ <;> rfl
    rw [Option.bind_some, Keyword.normalAt?, hnull, Keyword.normal?_null hk]

section

variable {k : Keyword} {v w : Option Json}

/-- What a keyword without schemas is written as is the value that it was read from. -/
theorem plain_normal {α : Type} {f : Json → Except DecodeError α} {g : α → Json} {b : Option α}
    (hr : optional f v = .ok b) (hfg : ∀ x c, f x = .ok c → x = g c)
    (hk : k ∉ [.default, .required, .properties, .patternProperties]) (hslot : Slot.ofKeyword? k.name = none) :
    (b.map g).map (Slot.mapValues Json.sortKeywords (Slot.ofKeyword? k.name)) =
      (v.bind k.normalAt?).map (Slot.mapValues Json.sortKeywords (Slot.ofKeyword? k.name)) := by
  simp only [List.mem_cons, not_or] at hk
  rcases optional_eq_ok.1 hr with ⟨hv, rfl⟩ | ⟨x, c, rfl, hx, rfl, hc⟩
  · rw [normalAt?_missing hk.1 hv]
    rfl
  · have hnormal : k.normalAt? x = some x := by
      rw [Keyword.normalAt?, hslot]
      exact Keyword.normal?_of_ne_null (by simpa using hk.2) hx
    rw [Option.bind_some, hnormal, hfg x c hc]
    rfl

theorem required_normal {s : NameSet} (hr : (·.getD .empty) <$> optional (Json.asNames .required) v = .ok s) :
    s.encode = v.bind (Keyword.normal? .required) := by
  obtain ⟨b, hb, rfl⟩ := map_eq_ok.1 hr
  rcases optional_eq_ok.1 hb with ⟨hv, rfl⟩ | ⟨x, s, rfl, -, rfl, hx⟩
  · rcases hv with rfl | rfl <;> rfl
  · obtain ⟨names, rfl, rfl⟩ := asNames_eq_ok.1 hx
    have htexts : (names.map Json.str).filterMap Json.text? = names := by simp [Json.text?, Function.comp_def]
    cases names with
    | nil => rfl
    | cons name names =>
      have hmem : name ∈ (NameSet.ofList (name :: names)).names := NameSet.mem_ofList.2 List.mem_cons_self
      have hne : (NameSet.ofList (name :: names)).isEmpty = false := by
        rw [NameSet.isEmpty, List.isEmpty_eq_false_iff]
        exact List.ne_nil_of_mem hmem
      rw [Option.getD_some, NameSet.encode, hne, names_ofList]
      exact congrArg (fun l => some (Json.arr ((increasingNames l).map .str))) htexts.symm

end

/-- What a field that was read is written as is its normal form, if that goes for the schemas in it. -/
theorem written_normal {k : Keyword} {v w : Option Json} {a : k.Value} (hr : k.readField v = .ok a)
    (hw : k.writeField a = .ok w) (hc : ∀ x ∈ v, ∀ c ∈ Slot.values (Slot.ofKeyword? k.name) x, c.WritesNormal) :
    w.map (Slot.mapValues Json.sortKeywords (Slot.ofKeyword? k.name)) =
      (v.bind k.normalAt?).map (Slot.mapValues Json.sortKeywords (Slot.ofKeyword? k.name)) := by
  have missing (hk : k ≠ .default) (hv : Json.IsMissing v) (e : .ok none = (.ok w : Except EncodeError _)) :
      w.map (Slot.mapValues Json.sortKeywords (Slot.ofKeyword? k.name)) =
        (v.bind k.normalAt?).map (Slot.mapValues Json.sortKeywords (Slot.ofKeyword? k.name)) := by
    rw [← Except.ok.inj e, normalAt?_missing hk hv]
  cases k
  case default => cases hr; cases hw; cases v <;> rfl
  case description | format =>
    cases hw
    exact plain_normal hr (fun x c h => by cases x <;> cases h; rfl) (by decide) rfl
  case uniqueItems =>
    cases hw
    exact plain_normal hr (fun x c h => by cases x <;> cases h; rfl) (by decide) rfl
  case enum =>
    cases hw
    exact plain_normal hr (fun x c h => by cases x <;> cases h; rfl) (by decide) rfl
  case type =>
    cases hw
    exact plain_normal hr (fun x c h => asTypes_eq_ok.1 h) (by decide) rfl
  case maxItems | minItems | maxProperties | minProperties =>
    have hwritten : w = (a : Option Int).map .int := by
      cases a with
      | none => cases hw; rfl
      | some c =>
        rcases optional_eq_ok.1 hr with ⟨-, e⟩ | ⟨x, _, -, -, e, hx⟩ <;> cases e
        exact (Except.ok.inj ((if_pos (asCount_iff.1 hx).2.1).symm.trans hw)).symm
    rw [hwritten]
    exact plain_normal hr (fun x c h => (asCount_iff.1 h).1) (by decide) rfl
  case required =>
    cases hw
    rw [required_normal hr]
    rfl
  case anyOf | oneOf =>
    rcases readList_eq_ok.1 hr with ⟨hv, rfl⟩ | ⟨xs, l, rfl, rfl, hl⟩
    · exact missing nofun hv hw
    · obtain ⟨ys, hys, rfl⟩ := map_eq_ok.1 hw
      exact congrArg (some ∘ Json.arr) (items_normal hl (encodeItems_eq_ok.1 hys) (hc _ rfl))
  case items =>
    rcases readOneOrList_eq_ok.1 hr with ⟨hv, rfl⟩ | ⟨x, s, rfl, rfl, hs⟩ | ⟨xs, l, rfl, rfl, hl⟩
    · exact missing nofun hv hw
    · -- Neither the schema nor its normal form is a list, so that both stand in the slot by themselves.
      obtain ⟨y, hy, rfl⟩ := map_eq_ok.1 hw
      have hx : ∀ xs, x ≠ .arr xs := by rintro xs rfl; cases hs
      have hvalues : x ∈ Slot.values (some .schemaOrList) x := by
        rw [Slot.values_schemaOrList hx]
        exact List.mem_singleton.2 rfl
      show some (Slot.mapValues Json.sortKeywords (some .schemaOrList) y) =
        (Keyword.normal? .items (Slot.mapValues Json.normal (some .schemaOrList) x)).map
          (Slot.mapValues Json.sortKeywords (some .schemaOrList))
      obtain ⟨hnull, harr⟩ := normal_of_decode hs
      rw [Slot.mapValues_schemaOrList hx, Keyword.normal?_of_ne_null (by decide) hnull, Option.map_some,
        Slot.mapValues_schemaOrList harr, Slot.mapValues_schemaOrList (ne_arr_of_encode hy)]
      exact congrArg some (hc x rfl x hvalues s y hs hy)
    · obtain ⟨ys, hys, rfl⟩ := map_eq_ok.1 hw
      exact congrArg (some ∘ Json.arr) (items_normal hl (encodeItems_eq_ok.1 hys) (hc _ rfl))
  case additionalItems | contains | additionalProperties | propertyNames =>
    rcases readSchema_eq_ok.1 hr with ⟨hv, rfl⟩ | ⟨x, s, rfl, rfl, hs⟩
    · exact missing nofun hv hw
    · obtain ⟨y, hy, rfl⟩ := map_eq_ok.1 hw
      refine Eq.trans ?_ (congrArg (Option.map Json.sortKeywords)
        (Keyword.normal?_of_ne_null (by decide) (normal_of_decode hs).1).symm)
      exact congrArg some (hc x rfl x (List.mem_singleton.2 rfl) s y hs hy)
  case properties | patternProperties =>
    obtain ⟨ms', hms', rfl⟩ := map_eq_ok.1 hw
    rcases readMap_eq_ok.1 hr with ⟨hv, rfl⟩ | ⟨ms, rfl, hl⟩
    · cases hms'
      exact missing nofun hv rfl
    · have h := members_normal hl (encodeMembers_eq_ok.1 hms') (hc _ rfl)
      cases hl with
      | nil => cases hms'; rfl
      | cons hm hl =>
        cases encodeMembers_eq_ok.1 hms'
        exact congrArg (some ∘ Json.obj) h

/-! ## Schema objects -/

theorem normalValue?_name (k : Keyword) : normalValue? k.name = k.normal? := by
  funext v
  rw [normalValue?, Keyword.ofName?_name]

theorem normalValue?_of_not_modeled {name : String} (h : isModeled name = false) : normalValue? name = some := by
  funext v
  rw [normalValue?, Option.isNone_iff_eq_none.1 (Option.isSome_eq_false_iff.1 h)]

theorem sameKeywords_of_get? {ms ns : Members Json} (hm : Members.Distinct ms) (hn : Members.Distinct ns)
    (h : ∀ name, (Members.get? ms name).map (Slot.mapValues Json.sortKeywords (modeledSlot? name)) =
      (Members.get? ns name).map (Slot.mapValues Json.sortKeywords (modeledSlot? name))) :
    (Json.obj ms).SameKeywords (.obj ns) := by
  have hm := distinct_mapSlots (f := Members.sortByName).2 hm
  have hn := distinct_mapSlots (f := Members.sortByName).2 hn
  refine congrArg Json.obj (Members.sortByName_eq_of_mem hm hn fun m => List.Perm.mem_iff ?_)
  refine Members.perm_of_get? hm hn fun name => ?_
  rw [get?_mapSlots, get?_mapSlots]
  exact h name

/-- What is written for a schema that was read is its normal form, up to the order of keywords. -/
theorem writesNormal {v : Json} (hd : v.hasDistinctNames = true) : v.WritesNormal := by
  induction v using Json.induction with
  | h v ih =>
    intro s w hs hw
    rcases Schema.decode_eq_ok.1 hs with ⟨b, rfl, rfl⟩ | ⟨ms, n, rfl, hn, rfl⟩
    · cases hw
      rfl
    · have hregular := regular_of_decode hd hn
      obtain ⟨ws, hws, rfl⟩ := map_eq_ok.1 hw
      obtain ⟨hread, hext, hother⟩ := decode_eq_ok.1 hn
      obtain ⟨hext', hother'⟩ := filter_encode hregular.here.separated hws
      have hslots := distinct_mapSlots (f := Members.normal).2 (Json.hasDistinctNames_obj.1 hd).1
      have hnormal : Members.Distinct (Members.normal (mapSlots Members.normal ms)) :=
        (Members.names_filterMap normalValue? _).nodup hslots
      refine sameKeywords_of_get? (distinct_of_encode hws) hnormal fun name => ?_
      rw [Members.normal, Members.get?_filterMap normalValue? hslots, get?_mapSlots]
      cases hmodeled : isModeled name with
      | true =>
        obtain ⟨k, hk⟩ := Option.isSome_iff_exists.1 hmodeled
        obtain ⟨vals, hwrite, rfl, -⟩ := encode_eq_ok.1 hws
        rw [Keyword.name_of_ofName? hk, modeledSlot?_name, normalValue?_name,
          get?_written_of_other hregular.here.isModeled, Option.bind_map]
        refine written_normal (hread k) (hwrite k) fun x hx c hc => ?_
        have hchild : c ∈ (Json.obj ms).children := Json.mem_children.2 ⟨_, Members.mem_of_get? hx, hc⟩
        exact ih c hchild (Json.hasDistinctNames_child hd hchild)
      | false =>
        rw [normalValue?_of_not_modeled hmodeled, modeledSlot?_of_not_modeled hmodeled,
          get?_eq_of_not_modeled (hext'.trans hext) (hother'.trans hother) hmodeled]
        cases Members.get? ms name <;> rfl

/-- A schema object that was read can be written: as its normal form, up to the order of keywords. What is written reads
as the same schema object, and is written for that again. -/
theorem exists_encode_of_decode {v : Json} {n : ObjectSchema} (hd : v.hasDistinctNames = true)
    (h : Node.decode v = .ok n) :
    ∃ w, n.toJson = .ok w ∧ w.SameKeywords v.normal ∧
      ∃ n', Node.decode w = .ok n' ∧ n' = n ∧ n'.toJson = .ok w := by
  obtain ⟨w, hw, hread, -⟩ := exists_encode (regular_of_decode hd h)
  exact ⟨w, hw, writesNormal hd _ w (Schema.decode_of_node h) hw, n, Schema.decode_object hread, rfl, hw⟩

/-- A schema with keywords that say nothing, required names twice, and members of other values out of order. -/
theorem encode_of_decode_empty_keywords :
    let child : Json := .obj [("patternProperties", .obj []), ("type", .arr [.str "string"]), ("default", .null)]
    let v : Json := .obj [
      ("title", .null),
      ("properties", .obj [("b", child), ("a", .bool true)]),
      ("required", .arr [.str "b", .str "a", .str "b"]),
      ("maxItems", .null),
      ("enum", .arr [.obj [("y", .null), ("x", .arr [])]])]
    let w : Json := .obj [
      ("enum", .arr [.obj [("y", .null), ("x", .arr [])]]),
      ("required", .arr [.str "a", .str "b"]),
      ("properties", .obj [("b", .obj [("default", .null), ("type", .arr [.str "string"])]), ("a", .bool true)]),
      ("title", .null)]
    ∃ n, v.hasDistinctNames = true ∧ Node.decode v = .ok n ∧ n.toJson = .ok w ∧ w.SameKeywords v.normal ∧
      Node.decode w = .ok n := by
  intro child v w
  have hd : v.hasDistinctNames = true := rfl
  obtain ⟨n, hn, hw⟩ : ∃ n, Node.decode v = .ok n ∧ n.toJson = .ok w := ⟨_, rfl, rfl⟩
  obtain ⟨w', hw', hsame, n', hread, rfl, -⟩ := exists_encode_of_decode hd hn
  cases hw.symm.trans hw'
  exact ⟨n', hd, hn, hw, hsame, hread⟩

end KubeSchema
