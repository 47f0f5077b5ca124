import KubeSchema.Proofs.Alike.Schema
import KubeSchema.Proofs.Schema.Writing

/-!
# Writing schemas that are like each other

If a schema can be written, so can one like it, and what is written is alike.

* `exists_writeField_of_like`: the field of a keyword.
* `writesAlike`, `exists_encode_of_like`: a schema, and a schema object.
-/

namespace KubeSchema

open Json (Alike)

variable {ρ : Schema → Schema → Prop}

/-! ## Fields -/

/-- Related schemas are written alike. -/
def WritesAlike (ρ : Schema → Schema → Prop) : Prop :=
  ∀ c c', ρ c c' → ∀ x, c.encode = .ok x → ∃ x', c'.encode = .ok x' ∧ x.Alike x'

theorem exists_encodeItems_of_like (hρ : WritesAlike ρ) {l l' : List Schema} {xs : List Json}
    (h : List.Forall₂ ρ l l') (hxs : List.Forall₂ (fun s x => s.encode = .ok x) l xs) :
    ∃ ys, List.Forall₂ (fun s x => s.encode = .ok x) l' ys ∧ List.Forall₂ Alike xs ys := by
  induction h generalizing xs with
  | nil => cases hxs; exact ⟨[], .nil, .nil⟩
  | cons hs _ ih =>
    cases hxs with
    | cons hx hxs =>
      obtain ⟨y, hy, halike⟩ := hρ _ _ hs _ hx
      obtain ⟨ys, hys, halikes⟩ := ih hxs
      exact ⟨y :: ys, .cons hy hys, .cons halike halikes⟩

theorem exists_encodeMap_of_like (hρ : WritesAlike ρ) {l l' : List (String × Schema)} {v : Option Json}
    (h : Members.Like ρ l l') (hv : encodeMap <$> encodeMembers l = .ok v) :
    ∃ v', encodeMap <$> encodeMembers l' = .ok v' ∧ Option.Rel Alike v v' := by
  obtain ⟨ms, hms, rfl⟩ := map_eq_ok.1 hv
  obtain ⟨ms', hms', hlike⟩ := h.exists_rel (encodeMembers_eq_ok.1 hms) fun _ _ _ _ _ _ hs hx => hρ _ _ hs _ hx
  refine ⟨encodeMap ms', map_eq_ok.2 ⟨ms', encodeMembers_eq_ok.2 hms', rfl⟩, ?_⟩
  rw [encodeMap, encodeMap, hlike.isEmpty_eq]
  split
  · exact .none
  · exact .some ((Json.alike_obj hlike.left hlike.right).2 hlike)

/-- A field is written like one that is the same up to the order of members. -/
theorem exists_writeField_of_like (hρ : WritesAlike ρ) {k : Keyword} {a a' : k.Value} {v : Option Json}
    (h : k.Like ρ a a') (hv : k.writeField a = .ok v) :
    ∃ v', k.writeField a' = .ok v' ∧ Option.Rel Alike v v' := by
  have same {v : Option Json} : Option.Rel Alike v v := by
    cases v with
    | none => exact .none
    | some x => exact .some (.refl x)
  have list {a a' : Option (List Schema)} (h : Option.Rel (List.Forall₂ ρ) a a') (hv : encodeSchemas a = .ok v) :
      ∃ v', encodeSchemas a' = .ok v' ∧ Option.Rel Alike v v' := by
    cases h with
    | none => exact ⟨v, hv, same⟩
    | some h =>
      obtain ⟨xs, hxs, rfl⟩ := map_eq_ok.1 hv
      obtain ⟨ys, hys, halike⟩ := exists_encodeItems_of_like hρ h (encodeItems_eq_ok.1 hxs)
      exact ⟨_, map_eq_ok.2 ⟨ys, encodeItems_eq_ok.2 hys, rfl⟩, .some (Json.alike_arr.2 halike)⟩
  have items {a a' : Option (OneOrMany Schema)} (h : Option.Rel (OneOrMany.Rel ρ) a a')
      (hv : encodeSchemaOrList a = .ok v) : ∃ v', encodeSchemaOrList a' = .ok v' ∧ Option.Rel Alike v v' := by
    cases h with
    | none => exact ⟨v, hv, same⟩
    | some h =>
      cases h with
      | one h =>
        obtain ⟨x, hx, rfl⟩ := map_eq_ok.1 hv
        obtain ⟨y, hy, halike⟩ := hρ _ _ h _ hx
        exact ⟨_, map_eq_ok.2 ⟨y, hy, rfl⟩, .some halike⟩
      | many h =>
        obtain ⟨xs, hxs, rfl⟩ := map_eq_ok.1 hv
        obtain ⟨ys, hys, halike⟩ := exists_encodeItems_of_like hρ h (encodeItems_eq_ok.1 hxs)
        exact ⟨_, map_eq_ok.2 ⟨ys, encodeItems_eq_ok.2 hys, rfl⟩, .some (Json.alike_arr.2 halike)⟩
  have option {a a' : Option Schema} (h : Option.Rel ρ a a') (hv : encodeSchema a = .ok v) :
      ∃ v', encodeSchema a' = .ok v' ∧ Option.Rel Alike v v' := by
    cases h with
    | none => exact ⟨v, hv, same⟩
    | some h =>
      obtain ⟨x, hx, rfl⟩ := map_eq_ok.1 hv
      obtain ⟨y, hy, halike⟩ := hρ _ _ h _ hx
      exact ⟨_, map_eq_ok.2 ⟨y, hy, rfl⟩, .some halike⟩
  cases k
  case default =>
    cases hv
    exact ⟨a', rfl, h⟩
  case enum =>
    cases hv
    refine ⟨_, rfl, ?_⟩
    cases h with
    | none => exact .none
    | some h => exact .some (Json.alike_arr.2 h)
  case anyOf | oneOf => exact list h hv
  case items => exact items h hv
  case additionalItems | contains | additionalProperties | propertyNames => exact option h hv
  case properties | patternProperties => exact exists_encodeMap_of_like hρ h hv
  all_goals
    cases h
    exact ⟨v, hv, same⟩

/-! ## Schema objects -/

/-- Fields that are written alike give members that are. -/
theorem like_fieldMembers {vals vals' : Keyword → Option Json} (h : ∀ k, Option.Rel Alike (vals k) (vals' k)) :
    Members.Like Alike (fieldMembers vals Keyword.all) (fieldMembers vals' Keyword.all) := by
  refine .of_rel ?_ (distinct_fieldMembers vals)
  generalize Keyword.all = ks
  induction ks with
  | nil => exact .nil
  | cons k ks ih =>
    have hk := h k
    simp only [fieldMembers, List.filterMap_cons]
    revert hk
    generalize vals k = v, vals' k = v'
    rintro (hk | _)
    · exact .cons ⟨rfl, hk⟩ ih
    · exact ih

/-- The keywords that are not modeled are distinct together, if they are in a schema object like it. -/
theorem Node.Like.append {n m : ObjectSchema} (h : n.Like ρ m) (hd : Members.Distinct (n.extensions ++ n.other)) :
    Members.Like Alike (n.extensions ++ n.other) (m.extensions ++ m.other) := by
  refine h.extensions.append h.other fun p hp hmem => ?_
  rw [Members.Distinct, Members.names_append] at hd
  exact (List.nodup_append'.1 hd).2.2 hmem (List.mem_map_of_mem hp)

theorem exists_node_of_like (hρ : WritesAlike ρ) {n m : ObjectSchema} {ms : Members Json} (h : n.Like ρ m)
    (hms : n.encode = .ok ms) : ∃ ms', m.encode = .ok ms' ∧ Members.Like Alike ms ms' := by
  obtain ⟨vals, hw, rfl, hd, hnames⟩ := encode_eq_ok.1 hms
  choose vals' hw' hvals using fun k => exists_writeField_of_like hρ (h.fields k) (hw k)
  have hfields := like_fieldMembers hvals
  have hrest := h.append hd
  refine ⟨_, encode_eq_ok.2 ⟨vals', hw', rfl, hrest.right, fun p hp hmem => ?_⟩, hfields.append hrest hnames⟩
  obtain ⟨q, hq, he⟩ := List.mem_map.1 (hrest.mem_names_iff.2 (List.mem_map_of_mem hp))
  exact hnames q hq (hfields.mem_names_iff.2 (he ▸ hmem))

/-- Schemas that are like each other are written alike. -/
theorem writesAlike : WritesAlike Schema.Like := by
  intro s s' h
  induction h with
  | bool b =>
    intro x hx
    exact ⟨x, hx, .refl x⟩
  | object ρ _ h ih =>
    intro x hx
    obtain ⟨ms, hms, rfl⟩ := map_eq_ok.1 hx
    obtain ⟨ms', hms', hlike⟩ := exists_node_of_like ih h hms
    exact ⟨.obj ms', map_eq_ok.2 ⟨ms', hms', rfl⟩, (Json.alike_obj hlike.left hlike.right).2 hlike⟩

theorem exists_encode_of_like {n m : ObjectSchema} {ms : Members Json} (h : n.Like Schema.Like m)
    (hms : n.encode = .ok ms) : ∃ ms', m.encode = .ok ms' ∧ Members.Like Alike ms ms' :=
  exists_node_of_like writesAlike h hms

end KubeSchema
