import KubeSchema.Proofs.Position

/-!
# Schemas nested through modeled keywords

A schema object holds schemas below some of its modeled keywords: by themselves, in a list, or under names. A change to
the members of schema objects is made in every one that is reached that way (`Json.mapSchemas`); other values, and the
names and the order of schemas under names, stay.

* `mapSchemas_obj`: in a schema object, the schemas below it are changed first.
* `maps_mapValues`: the values in a slot are replaced by the changed ones.
* `get?_mapSlots`: what stands under a name afterwards.
-/

namespace KubeSchema

/-! ## Slots -/

/-- The shape of the schemas that a modeled keyword holds, if it holds any. -/
def modeledSlot? (name : String) : Option Slot := if isModeled name then Slot.ofKeyword? name else none

/-- Changes the values in a slot; a value that misses the shape of its slot stays. -/
def Slot.mapValues (g : Json → Json) : Option Slot → Json → Json
  | some .schema, v => g v
  | some .list, .arr xs => .arr (xs.map g)
  | some .map, .obj ms => .obj (ms.map (fun m => (m.1, g m.2)))
  | some .schemaOrList, .arr xs => .arr (xs.map g)
  | some .schemaOrList, v => g v
  | _, v => v

theorem Slot.mapValues_schemaOrList {g : Json → Json} {v : Json} (hv : ∀ xs, v ≠ .arr xs) :
    Slot.mapValues g (some .schemaOrList) v = g v := by
  cases v <;> first | rfl | exact absurd rfl (hv _)

/-! ## Schemas -/

mutual

/-- Changes the members of every schema object in a schema, those below another one first. -/
def Json.mapSchemas (f : Members Json → Members Json) : Json → Json
  | .obj ms => .obj (f (mapSlots f ms))
  | v => v
  termination_by structural v => v

def mapSlots (f : Members Json → Members Json) : List (String × Json) → List (String × Json)
  | [] => []
  | (name, v) :: r =>
    let w :=
      match modeledSlot? name, v with
      | some .schema, v => v.mapSchemas f
      | some .list, .arr xs => .arr (mapItems f xs)
      | some .map, .obj ms => .obj (mapEntries f ms)
      | some .schemaOrList, .arr xs => .arr (mapItems f xs)
      | some .schemaOrList, v => v.mapSchemas f
      | _, v => v
    (name, w) :: mapSlots f r
  termination_by structural ms => ms

def mapItems (f : Members Json → Members Json) : List Json → List Json
  | [] => []
  | v :: r => v.mapSchemas f :: mapItems f r
  termination_by structural vs => vs

def mapEntries (f : Members Json → Members Json) : List (String × Json) → List (String × Json)
  | [] => []
  | (name, v) :: r => (name, v.mapSchemas f) :: mapEntries f r
  termination_by structural ms => ms

end

variable {f : Members Json → Members Json}

theorem mapItems_eq_map (xs : List Json) : mapItems f xs = xs.map (Json.mapSchemas f) := by
  induction xs with
  | nil => rfl
  | cons x xs ih => rw [mapItems, ih, List.map_cons]

theorem mapEntries_eq_map (ms : Members Json) : mapEntries f ms = ms.map (fun m => (m.1, m.2.mapSchemas f)) := by
  induction ms with
  | nil => rfl
  | cons m ms ih => rw [mapEntries, ih, List.map_cons]

theorem mapSlots_cons (name : String) (v : Json) (ms : Members Json) :
    mapSlots f ((name, v) :: ms) =
      (name, Slot.mapValues (Json.mapSchemas f) (modeledSlot? name) v) :: mapSlots f ms := by
  conv_lhs => unfold mapSlots
  generalize modeledSlot? name = s
  rcases s with _ | s
  · rfl
  · cases s <;> cases v <;> simp only [Slot.mapValues, mapItems_eq_map, mapEntries_eq_map]

theorem mapSlots_eq_map (ms : Members Json) :
    mapSlots f ms = ms.map (fun m => (m.1, Slot.mapValues (Json.mapSchemas f) (modeledSlot? m.1) m.2)) := by
  induction ms with
  | nil => rfl
  | cons m ms ih => rw [mapSlots_cons, ih, List.map_cons]

theorem Json.mapSchemas_obj (ms : Members Json) : (obj ms).mapSchemas f = obj (f (mapSlots f ms)) := rfl

theorem Json.ne_arr_mapSchemas {v : Json} (hv : ∀ xs, v ≠ .arr xs) : ∀ xs, v.mapSchemas f ≠ .arr xs := by
  cases v with
  | obj ms => nofun
  | _ => exact hv

/-- The values in a slot are changed as schemas. -/
theorem maps_mapValues (s : Option Slot) (v : Json) :
    Slot.Maps (fun c c' => c' = c.mapSchemas f) s v (Slot.mapValues (Json.mapSchemas f) s v) := by
  rcases s with _ | _ | _ | _ | _
  · exact .noSlot
  · exact .schema rfl
  · cases v with
    | arr xs => exact .list (List.forall₂_map_right_iff.2 (List.forall₂_same.2 fun _ _ => rfl))
    | _ => exact .noList nofun
  · cases v with
    | obj ms => exact .map (List.forall₂_map_right_iff.2 (List.forall₂_same.2 fun _ _ => ⟨rfl, rfl⟩))
    | _ => exact .noMap nofun
  · cases v with
    | arr xs => exact .items (List.forall₂_map_right_iff.2 (List.forall₂_same.2 fun _ _ => rfl))
    | _ => exact .item nofun (Json.ne_arr_mapSchemas nofun) rfl

/-! ## Members -/

theorem names_mapSlots (ms : Members Json) : Members.names (mapSlots f ms) = Members.names ms := by
  simp [Members.names, mapSlots_eq_map, Function.comp_def]

theorem distinct_mapSlots {ms : Members Json} : Members.Distinct (mapSlots f ms) ↔ Members.Distinct ms := by
  rw [Members.Distinct, names_mapSlots]
  rfl

theorem get?_mapSlots (ms : Members Json) (name : String) :
    Members.get? (mapSlots f ms) name =
      (Members.get? ms name).map (Slot.mapValues (Json.mapSchemas f) (modeledSlot? name)) := by
  rw [mapSlots_eq_map]
  induction ms with
  | nil => rfl
  | cons m ms ih =>
    obtain ⟨k, v⟩ := m
    rw [List.map_cons, Members.get?_cons, Members.get?_cons, ih]
    split
    · next hk => rw [hk]; rfl
    · rfl

theorem modeledSlot?_name (k : Keyword) : modeledSlot? k.name = Slot.ofKeyword? k.name := by
  rw [modeledSlot?, isModeled, Keyword.ofName?_name]
  rfl

theorem modeledSlot?_of_not_modeled {name : String} (h : isModeled name = false) : modeledSlot? name = none := by
  rw [modeledSlot?, h]
  rfl

theorem Json.mem_children_of_modeledSlot {ms : Members Json} {m : String × Json} (hm : m ∈ ms) {c : Json}
    (hc : c ∈ Slot.values (modeledSlot? m.1) m.2) : c ∈ (obj ms).children := by
  rw [modeledSlot?] at hc
  split at hc
  · exact Json.mem_children.2 ⟨m, hm, hc⟩
  · cases hc

/-- A change that keeps names distinct in an object keeps them distinct in every one. -/
theorem Json.hasDistinctNames_mapSchemas
    (hf : ∀ ms, (obj ms).hasDistinctNames = true → (obj (f ms)).hasDistinctNames = true) (v : Json)
    (hv : v.hasDistinctNames = true) : (v.mapSchemas f).hasDistinctNames = true := by
  induction v using Json.induction with
  | h v ih =>
    cases v with
    | obj ms =>
      obtain ⟨hnames, hvalues⟩ := hasDistinctNames_obj.1 hv
      refine hf _ (hasDistinctNames_obj.2 ⟨distinct_mapSlots.2 hnames, fun m' hm' => ?_⟩)
      rw [mapSlots_eq_map] at hm'
      obtain ⟨m, hm, rfl⟩ := List.mem_map.1 hm'
      have hmaps : Slot.Maps (fun c c' => c.hasDistinctNames = true → c'.hasDistinctNames = true) (modeledSlot? m.1) m.2
          (Slot.mapValues (Json.mapSchemas f) (modeledSlot? m.1) m.2) :=
        (maps_mapValues _ m.2).imp fun c hc _ e => e ▸ ih c (mem_children_of_modeledSlot hm hc)
      exact hmaps.hasDistinctNames (hvalues m hm) fun _ _ h => h
    | _ => exact hv

end KubeSchema
