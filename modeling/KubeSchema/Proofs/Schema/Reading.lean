import KubeSchema.Proofs.Position
import KubeSchema.Proofs.Schema.Child

/-!
# What reading gives

* `exists_value_of_child`: each child of a field that was read is a schema read from a slot of the keyword's value.
* `exists_child_of_value`: and each value in the slot gives a child, unless it is `null`.
-/

namespace KubeSchema

/-! ## Schemas, lists and members -/

theorem Schema.decode_eq_ok {v : Json} {s : Schema} :
    Schema.decode v = .ok s ↔
      (∃ b, v = .bool b ∧ s = .bool b) ∨ ∃ ms n, v = .obj ms ∧ Node.decode v = .ok n ∧ s = .object n := by
  cases v with
  | bool b => simpa [Schema.decode, Schema.ofReading] using eq_comm
  | obj ms => simp [Schema.decode, Schema.ofReading, map_eq_ok, @eq_comm _ s]
  | _ => simp [Schema.decode, Schema.ofReading]

theorem Schema.decode_object {v : Json} {n : ObjectSchema} (h : Schema.decode v = .ok (.object n)) :
    Node.decode v = .ok n := by
  rcases Schema.decode_eq_ok.1 h with ⟨b, -, h⟩ | ⟨_, m, -, h, e⟩
  · cases h
  · cases e; exact h

theorem Node.exists_obj_of_decode {v : Json} {n : ObjectSchema} (h : Node.decode v = .ok n) : ∃ ms, v = .obj ms := by
  cases v with
  | obj ms => exact ⟨ms, rfl⟩
  | _ => rw [Node.decode] at h <;> cases h

theorem Schema.decode_of_node {v : Json} {n : ObjectSchema} (h : Node.decode v = .ok n) :
    Schema.decode v = .ok (.object n) := by
  obtain ⟨ms, rfl⟩ := Node.exists_obj_of_decode h
  exact Schema.decode_eq_ok.2 (.inr ⟨_, _, rfl, h, rfl⟩)

theorem decodeItems_eq_ok {k : Keyword} {index : Nat} {xs : List Json} {l : List Schema} :
    decodeItems k index xs = .ok l ↔ List.Forall₂ (fun x s => Schema.decode x = .ok s) xs l := by
  induction xs generalizing index l with
  | nil => simp [decodeItems, eq_comm]
  | cons x xs ih =>
    simp only [decodeItems, bind_eq_ok, mapError_eq_ok, pure_eq_ok, ih, List.forall₂_cons_left_iff, Schema.decode]
    constructor
    · rintro ⟨s, hs, r, hr, rfl⟩; exact ⟨s, r, hs, hr, rfl⟩
    · rintro ⟨s, r, hs, hr, rfl⟩; exact ⟨s, hs, r, hr, rfl⟩

theorem decodeMembers_eq_ok {k : Keyword} {ms : Members Json} {l : List (String × Schema)} :
    decodeMembers k ms = .ok l ↔ Members.Rel (fun x s => Schema.decode x = .ok s) ms l := by
  induction ms generalizing l with
  | nil => simp [decodeMembers, Members.Rel, eq_comm]
  | cons m ms ih =>
    obtain ⟨name, x⟩ := m
    simp only [Members.Rel] at ih
    simp only [decodeMembers, bind_eq_ok, mapError_eq_ok, pure_eq_ok, ih, Members.Rel, List.forall₂_cons_left_iff,
      Schema.decode]
    constructor
    · rintro ⟨s, hs, r, hr, rfl⟩; exact ⟨(name, s), r, ⟨rfl, hs⟩, hr, rfl⟩
    · rintro ⟨⟨_, s⟩, r, ⟨rfl, hs⟩, hr, rfl⟩; exact ⟨s, hs, r, hr, rfl⟩

/-! ## Optional values -/

theorem optional_eq_ok {α : Type} {f : Json → Except DecodeError α} {v : Option Json} {a : Option α} :
    optional f v = .ok a ↔
      ((v = none ∨ v = some .null) ∧ a = none) ∨ ∃ w b, v = some w ∧ w ≠ .null ∧ a = some b ∧ f w = .ok b := by
  rcases v with _ | v
  · simp [optional, @eq_comm _ a]
  · cases v <;> simp [optional, map_eq_ok, @eq_comm _ a, and_comm]

/-! ## Fields that hold schemas -/

/-- Whether a value counts as missing. -/
def Json.IsMissing (v : Option Json) : Prop := v = none ∨ v = some .null

theorem ne_null_of_decode {v : Json} {s : Schema} (h : Schema.decode v = .ok s) : v ≠ .null := by
  rintro rfl
  cases h

theorem readSchema_eq_ok {k : Keyword} {v : Option Json} {a : Option Schema} :
    optional (fun v => (Schema.decode v).mapError (.within k none)) v = .ok a ↔
      (Json.IsMissing v ∧ a = none) ∨ ∃ w s, v = some w ∧ a = some s ∧ Schema.decode w = .ok s := by
  rw [optional_eq_ok]
  refine or_congr_right (exists_congr fun w => exists_congr fun s => ?_)
  rw [mapError_eq_ok]
  exact ⟨fun ⟨hv, _, ha, h⟩ => ⟨hv, ha, h⟩, fun ⟨hv, ha, h⟩ => ⟨hv, ne_null_of_decode h, ha, h⟩⟩

theorem readList_eq_ok {k : Keyword} {v : Option Json} {a : Option (List Schema)} :
    optional (Schema.decodeList k) v = .ok a ↔
      (Json.IsMissing v ∧ a = none) ∨
        ∃ xs l, v = some (.arr xs) ∧ a = some l ∧ List.Forall₂ (fun x s => Schema.decode x = .ok s) xs l := by
  rw [optional_eq_ok]
  refine or_congr_right ⟨?_, ?_⟩
  · rintro ⟨w, l, rfl, -, rfl, h⟩
    cases w with
    | arr xs => exact ⟨xs, l, rfl, rfl, decodeItems_eq_ok.1 h⟩
    | _ => cases h
  · rintro ⟨xs, l, rfl, rfl, h⟩
    exact ⟨_, l, rfl, nofun, rfl, decodeItems_eq_ok.2 h⟩

theorem readOneOrList_eq_ok {k : Keyword} {v : Option Json} {a : Option (OneOrMany Schema)} :
    optional (Schema.decodeOneOrList k) v = .ok a ↔
      (Json.IsMissing v ∧ a = none) ∨ (∃ w s, v = some w ∧ a = some (.one s) ∧ Schema.decode w = .ok s) ∨
        ∃ xs l, v = some (.arr xs) ∧ a = some (.many l) ∧ List.Forall₂ (fun x s => Schema.decode x = .ok s) xs l := by
  rw [optional_eq_ok]
  refine or_congr_right ⟨?_, ?_⟩
  · rintro ⟨w, l, rfl, -, rfl, h⟩
    cases w with
    | arr xs =>
      rw [Schema.decodeOneOrList, map_eq_ok] at h
      obtain ⟨l, h, rfl⟩ := h
      exact .inr ⟨xs, l, rfl, rfl, decodeItems_eq_ok.1 h⟩
    | _ =>
      simp only [Schema.decodeOneOrList, mapError_eq_ok, map_eq_ok] at h
      obtain ⟨s, h, rfl⟩ := h
      exact .inl ⟨_, s, rfl, rfl, h⟩
  · rintro (⟨w, s, rfl, rfl, h⟩ | ⟨xs, l, rfl, rfl, h⟩)
    · refine ⟨w, _, rfl, ne_null_of_decode h, rfl, ?_⟩
      rcases Schema.decode_eq_ok.1 h with ⟨b, rfl, rfl⟩ | ⟨ms, n, rfl, -, rfl⟩ <;>
        simp only [Schema.decodeOneOrList, mapError_eq_ok, map_eq_ok] <;> exact ⟨_, h, rfl⟩
    · exact ⟨_, _, rfl, fun e => (by cases e), rfl, map_eq_ok.2 ⟨l, decodeItems_eq_ok.2 h, rfl⟩⟩

theorem readMap_eq_ok {k : Keyword} {v : Option Json} {a : List (String × Schema)} :
    (·.getD []) <$> optional (Schema.decodeMap k) v = .ok a ↔
      (Json.IsMissing v ∧ a = []) ∨
        ∃ ms, v = some (.obj ms) ∧ Members.Rel (fun x s => Schema.decode x = .ok s) ms a := by
  rw [map_eq_ok]
  constructor
  · rintro ⟨l, h, rfl⟩
    rcases optional_eq_ok.1 h with ⟨hv, rfl⟩ | ⟨w, l, rfl, -, rfl, hw⟩
    · exact .inl ⟨hv, rfl⟩
    · cases w with
      | obj ms => exact .inr ⟨ms, rfl, decodeMembers_eq_ok.1 hw⟩
      | _ => cases hw
  · rintro (⟨hv, rfl⟩ | ⟨ms, rfl, h⟩)
    · exact ⟨none, optional_eq_ok.2 (.inl ⟨hv, rfl⟩), rfl⟩
    · exact ⟨some a, optional_eq_ok.2 (.inr ⟨_, a, rfl, nofun, rfl, decodeMembers_eq_ok.2 h⟩), rfl⟩

/-- Each child of a field that was read is a schema read from the slot of the keyword. -/
theorem exists_value_of_child {k : Keyword} {v : Option Json} {a : k.Value} (h : k.readField v = .ok a) {c : Schema}
    (hc : c ∈ k.children a) :
    ∃ w x, v = some w ∧ x ∈ Slot.values (Slot.ofKeyword? k.name) w ∧ Schema.decode x = .ok c := by
  cases k
  case anyOf | oneOf =>
    rcases readList_eq_ok.1 h with ⟨-, rfl⟩ | ⟨xs, l, rfl, rfl, hl⟩
    · cases hc
    · obtain ⟨x, hx, hxc⟩ := exists_of_mem_right hl hc
      exact ⟨_, x, rfl, hx, hxc⟩
  case items =>
    rcases readOneOrList_eq_ok.1 h with ⟨-, rfl⟩ | ⟨w, s, rfl, rfl, hw⟩ | ⟨xs, l, rfl, rfl, hl⟩
    · cases hc
    · cases List.mem_singleton.1 hc
      rcases Schema.decode_eq_ok.1 hw with ⟨b, rfl, -⟩ | ⟨ms, n, rfl, -⟩ <;>
        exact ⟨_, _, rfl, List.mem_singleton.2 rfl, hw⟩
    · obtain ⟨x, hx, hxc⟩ := exists_of_mem_right hl hc
      exact ⟨_, x, rfl, hx, hxc⟩
  case additionalItems | contains | additionalProperties | propertyNames =>
    rcases readSchema_eq_ok.1 h with ⟨-, rfl⟩ | ⟨w, s, rfl, rfl, hw⟩
    · cases hc
    · cases List.mem_singleton.1 hc
      exact ⟨w, w, rfl, List.mem_singleton.2 rfl, hw⟩
  case properties | patternProperties =>
    rcases readMap_eq_ok.1 h with ⟨-, rfl⟩ | ⟨ms, rfl, hl⟩
    · cases hc
    · obtain ⟨m, hm, rfl⟩ := List.mem_map.1 hc
      obtain ⟨p, hp, -, hpc⟩ := exists_of_mem_right hl hm
      exact ⟨_, p.2, rfl, List.mem_map_of_mem hp, hpc⟩
  all_goals cases hc

/-- The children of a schema object that was read are schemas read from the slots of the object. -/
theorem exists_value_of_node_child {v : Json} {n : ObjectSchema} (h : Node.decode v = .ok n) {c : Schema}
    (hc : c ∈ n.children) : ∃ x ∈ v.children, Schema.decode x = .ok c := by
  obtain ⟨ms, rfl⟩ := Node.exists_obj_of_decode h
  obtain ⟨k, hk⟩ := Node.mem_children.1 hc
  obtain ⟨w, x, hw, hx, hxc⟩ := exists_value_of_child ((decode_eq_ok.1 h).1 k) hk
  exact ⟨x, Json.mem_children.2 ⟨_, Members.mem_of_get? hw, hx⟩, hxc⟩

/-- The value of a field holds a schema for each child, or is `null`. -/
theorem exists_child_of_value {k : Keyword} {v x : Json} {a : k.Value} (h : k.readField (some v) = .ok a)
    (hx : x ∈ Slot.values (Slot.ofKeyword? k.name) v) : x = .null ∨ ∃ c ∈ k.children a, Schema.decode x = .ok c := by
  cases k
  case anyOf | oneOf =>
    rcases readList_eq_ok.1 h with ⟨e | e, -⟩ | ⟨xs, l, e, rfl, hl⟩ <;> cases e
    · cases hx
    · obtain ⟨c, hc, hxc⟩ := exists_of_mem_left hl hx
      exact .inr ⟨c, hc, hxc⟩
  case items =>
    rcases readOneOrList_eq_ok.1 h with ⟨e | e, -⟩ | ⟨w, s, e, rfl, hw⟩ | ⟨xs, l, e, rfl, hl⟩ <;> cases e
    · exact .inl (List.mem_singleton.1 hx)
    · rcases Schema.decode_eq_ok.1 hw with ⟨b, rfl, rfl⟩ | ⟨ms, n, rfl, hn, rfl⟩
      · cases List.mem_singleton.1 hx
        exact .inr ⟨_, List.mem_singleton.2 rfl, hw⟩
      · cases List.mem_singleton.1 hx
        exact .inr ⟨_, List.mem_singleton.2 rfl, hw⟩
    · obtain ⟨c, hc, hxc⟩ := exists_of_mem_left hl hx
      exact .inr ⟨c, hc, hxc⟩
  case additionalItems | contains | additionalProperties | propertyNames =>
    cases List.mem_singleton.1 hx
    rcases readSchema_eq_ok.1 h with ⟨e | e, -⟩ | ⟨w, s, e, rfl, hw⟩ <;> cases e
    · exact .inl rfl
    · exact .inr ⟨s, List.mem_singleton.2 rfl, hw⟩
  case properties | patternProperties =>
    rcases readMap_eq_ok.1 h with ⟨e | e, -⟩ | ⟨ms, e, hl⟩ <;> cases e
    · cases hx
    · obtain ⟨m, hm, rfl⟩ := List.mem_map.1 hx
      obtain ⟨p, hp, -, hpc⟩ := exists_of_mem_left hl hm
      exact .inr ⟨p.2, List.mem_map_of_mem hp, hpc⟩
  all_goals cases hx

end KubeSchema
