import KubeSchema.Proofs.Alike.Schema
import KubeSchema.Proofs.Schema.Reading

/-!
# Reading values that are alike

Values that are alike, with distinct names in every object, read as schemas that are like each other; and if one of
them reads as a schema, so does the other.

* `exists_readField_of_alike`: the field of a keyword.
* `exists_decode_of_alike`: a schema object.
-/

namespace KubeSchema

open Json (Alike)

/-! ## Values without child schemas -/

theorem eq_null_of_alike {v v' : Option Json} (h : Option.Rel Alike v v') (hv : Json.IsMissing v) :
    Json.IsMissing v' := by
  cases h with
  | none => exact .inl rfl
  | some h =>
    rcases hv with hv | hv <;> cases hv
    rcases h.cases with ⟨_, _, e, -⟩ | ⟨_, _, e, -⟩ | rfl
    · cases e
    · cases e
    · exact .inr rfl

theorem exists_arr_of_alike {xs : List Json} {v' : Option Json} (h : Option.Rel Alike (some (.arr xs)) v') :
    ∃ ys, v' = some (.arr ys) ∧ List.Forall₂ Alike xs ys := by
  obtain ⟨w, rfl, hw⟩ := exists_of_rel_some h
  rcases hw.cases with ⟨_, ys, e, rfl⟩ | ⟨_, _, e, -⟩ | rfl
  · cases e
    exact ⟨ys, rfl, Json.alike_arr.1 hw⟩
  · cases e
  · exact ⟨xs, rfl, Json.alike_arr.1 hw⟩

theorem exists_obj_of_alike {ms : Members Json} {v' : Option Json} (h : Option.Rel Alike (some (.obj ms)) v') :
    ∃ ms', v' = some (.obj ms') ∧ (Json.obj ms).Alike (.obj ms') := by
  obtain ⟨w, rfl, hw⟩ := exists_of_rel_some h
  rcases hw.cases with ⟨_, _, e, -⟩ | ⟨_, ms', e, rfl⟩ | rfl
  · cases e
  · cases e
    exact ⟨ms', rfl, hw⟩
  · exact ⟨ms, rfl, hw⟩

theorem optional_of_alike {α : Type} {f : Json → Except DecodeError α} {v v' : Option Json} {a : Option α}
    (h : Option.Rel Alike v v') (hf : ∀ w w' b, w.Alike w' → f w = .ok b → f w' = .ok b)
    (ha : optional f v = .ok a) : optional f v' = .ok a := by
  rcases optional_eq_ok.1 ha with ⟨hv, rfl⟩ | ⟨w, b, rfl, hw, rfl, hb⟩
  · exact optional_eq_ok.2 (.inl ⟨eq_null_of_alike h hv, rfl⟩)
  · obtain ⟨w', rfl, hww'⟩ := exists_of_rel_some h
    refine optional_eq_ok.2 (.inr ⟨w', b, rfl, ?_, rfl, hf w w' b hww' hb⟩)
    rintro rfl
    rcases eq_null_of_alike (.some hww'.symm) (.inr rfl) with e | e <;> cases e
    exact hw rfl

/-- What is read neither from lists nor from objects is read from the same value. -/
theorem read_of_alike {α : Type} {f : Json → Except DecodeError α} (harr : ∀ xs b, f (.arr xs) ≠ .ok b)
    (hobj : ∀ ms b, f (.obj ms) ≠ .ok b) (w w' : Json) (b : α) (h : w.Alike w') (hb : f w = .ok b) : f w' = .ok b := by
  rcases h.cases with ⟨xs, _, rfl, -⟩ | ⟨ms, _, rfl, -⟩ | rfl
  · exact absurd hb (harr xs b)
  · exact absurd hb (hobj ms b)
  · exact hb

/-- A list of texts is only like itself. -/
theorem eq_of_alike_texts {xs ys : List Json} (h : List.Forall₂ Alike xs ys) (hxs : ∀ x ∈ xs, ∃ s, x = .str s) :
    ys = xs := by
  refine forall₂_eq_of_mem h fun x hx y hxy => ?_
  obtain ⟨s, rfl⟩ := hxs x hx
  rcases hxy.cases with ⟨_, _, e, -⟩ | ⟨_, _, e, -⟩ | e
  · cases e
  · cases e
  · exact e.symm

theorem exists_str_of_texts? {xs : List Json} {names : List String} (h : Json.texts? xs = some names) :
    ∀ x ∈ xs, ∃ s, x = .str s := by
  induction xs generalizing names with
  | nil => nofun
  | cons x xs ih =>
    simp only [Json.texts?, List.mapM_cons, Option.bind_eq_bind, Option.bind_eq_some_iff] at h ih
    obtain ⟨s, hs, names', hnames', -⟩ := h
    refine List.forall_mem_cons.2 ⟨?_, ih hnames'⟩
    cases x with
    | str s => exact ⟨s, rfl⟩
    | _ => cases hs

theorem exists_str_of_asType {xs : List Json} {ts : List PrimitiveType} (h : xs.mapM Json.asType = .ok ts) :
    ∀ x ∈ xs, ∃ s, x = .str s := by
  induction xs generalizing ts with
  | nil => nofun
  | cons x xs ih =>
    simp only [List.mapM_cons, bind_eq_ok] at h
    obtain ⟨t, ht, ts', hts', -⟩ := h
    refine List.forall_mem_cons.2 ⟨?_, ih hts'⟩
    cases x with
    | str s => exact ⟨s, rfl⟩
    | _ => cases ht

theorem asNames_of_alike {k : Keyword} {w w' : Json} {b : NameSet} (h : w.Alike w')
    (hb : Json.asNames k w = .ok b) : Json.asNames k w' = .ok b := by
  rcases h.cases with ⟨xs, ys, rfl, rfl⟩ | ⟨_, _, rfl, -⟩ | rfl
  · cases hx : Json.texts? xs with
    | none => rw [Json.asNames, hx] at hb; cases hb
    | some names => rwa [eq_of_alike_texts (Json.alike_arr.1 h) (exists_str_of_texts? hx)]
  · cases hb
  · exact hb

theorem asTypes_of_alike {w w' : Json} {b : OneOrMany PrimitiveType} (h : w.Alike w')
    (hb : Json.asTypes w = .ok b) : Json.asTypes w' = .ok b := by
  rcases h.cases with ⟨xs, ys, rfl, rfl⟩ | ⟨_, _, rfl, -⟩ | rfl
  · obtain ⟨ts, hts, -⟩ := map_eq_ok.1 hb
    rwa [eq_of_alike_texts (Json.alike_arr.1 h) (exists_str_of_asType hts)]
  · cases hb
  · exact hb

/-! ## Fields -/

variable {ρ : Schema → Schema → Prop}

/-- If a value reads as a schema, so do the values that are like it, as related ones. -/
def ReadsLike (ρ : Schema → Schema → Prop) (c : Json) : Prop :=
  ∀ c', c.hasDistinctNames = true → c'.hasDistinctNames = true → c.Alike c' →
    ∀ s, Schema.decode c = .ok s → ∃ s', Schema.decode c' = .ok s' ∧ ρ s s'

theorem exists_decodeItems_of_alike {xs ys : List Json} {l : List Schema} (h : List.Forall₂ Alike xs ys)
    (hd : ∀ x ∈ xs, x.hasDistinctNames = true) (hd' : ∀ y ∈ ys, y.hasDistinctNames = true)
    (hread : ∀ x ∈ xs, ReadsLike ρ x) (hl : List.Forall₂ (fun x s => Schema.decode x = .ok s) xs l) :
    ∃ l', List.Forall₂ (fun x s => Schema.decode x = .ok s) ys l' ∧ List.Forall₂ ρ l l' := by
  induction h generalizing l with
  | nil => cases hl; exact ⟨[], .nil, .nil⟩
  | cons hxy _ ih =>
    cases hl with
    | cons hs hl =>
      obtain ⟨hdx, hd⟩ := List.forall_mem_cons.1 hd
      obtain ⟨hdy, hd'⟩ := List.forall_mem_cons.1 hd'
      obtain ⟨hx, hread⟩ := List.forall_mem_cons.1 hread
      obtain ⟨s', hs', hρ⟩ := hx _ hdx hdy hxy _ hs
      obtain ⟨l', hl', hρl⟩ := ih hd hd' hread hl
      exact ⟨s' :: l', .cons hs' hl', .cons hρ hρl⟩

theorem exists_decodeMembers_of_alike {ms ms' : Members Json} {l : List (String × Schema)}
    (h : (Json.obj ms).Alike (.obj ms')) (hd : (Json.obj ms).hasDistinctNames = true)
    (hd' : (Json.obj ms').hasDistinctNames = true) (hread : ∀ m ∈ ms, ReadsLike ρ m.2)
    (hl : Members.Rel (fun x s => Schema.decode x = .ok s) ms l) :
    ∃ l', Members.Rel (fun x s => Schema.decode x = .ok s) ms' l' ∧ Members.Like ρ l l' := by
  obtain ⟨hn, hv⟩ := Json.hasDistinctNames_obj.1 hd
  obtain ⟨hn', hv'⟩ := Json.hasDistinctNames_obj.1 hd'
  refine ((Json.alike_obj hn hn').1 h).exists_rel hl fun name x x' s hx hx' hxx' hs => ?_
  exact hread _ hx x' (hv _ hx) (hv' _ hx') hxx' s hs

/-- A field reads from a value as from one like it. -/
theorem exists_readField_of_alike {k : Keyword} {v v' : Option Json} {a : k.Value} (h : Option.Rel Alike v v')
    (hd : ∀ x ∈ v, x.hasDistinctNames = true) (hd' : ∀ x ∈ v', x.hasDistinctNames = true)
    (hread : ∀ w ∈ v, ∀ c ∈ Slot.values (Slot.ofKeyword? k.name) w, ReadsLike ρ c) (ha : k.readField v = .ok a) :
    ∃ a', k.readField v' = .ok a' ∧ k.Like ρ a a' := by
  cases k
  case default =>
    cases ha
    exact ⟨v', rfl, h⟩
  case description | format => exact ⟨a, optional_of_alike h (read_of_alike nofun nofun) ha, rfl⟩
  case type => exact ⟨a, optional_of_alike h (fun _ _ _ => asTypes_of_alike) ha, rfl⟩
  case maxItems | minItems | maxProperties | minProperties =>
    exact ⟨a, optional_of_alike h (read_of_alike nofun nofun) ha, rfl⟩
  case uniqueItems => exact ⟨a, optional_of_alike h (read_of_alike nofun nofun) ha, rfl⟩
  case required =>
    obtain ⟨names, hnames, rfl⟩ := map_eq_ok.1 ha
    exact ⟨_, map_eq_ok.2 ⟨names, optional_of_alike h (fun _ _ _ => asNames_of_alike) hnames, rfl⟩, rfl⟩
  case enum =>
    rcases optional_eq_ok.1 ha with ⟨hv, rfl⟩ | ⟨w, l, rfl, -, rfl, hw⟩
    · exact ⟨none, optional_eq_ok.2 (.inl ⟨eq_null_of_alike h hv, rfl⟩), .none⟩
    · obtain ⟨w', rfl, hww'⟩ := exists_of_rel_some h
      rcases hww'.cases with ⟨xs, ys, rfl, rfl⟩ | ⟨_, _, rfl, -⟩ | rfl
      · cases hw
        exact ⟨some ys, rfl, .some (Json.alike_arr.1 hww')⟩
      · cases hw
      · exact ⟨some l, ha, .some (List.forall₂_same.2 fun x _ => .refl x)⟩
  case anyOf | oneOf =>
    rcases readList_eq_ok.1 ha with ⟨hv, rfl⟩ | ⟨xs, l, rfl, rfl, hl⟩
    · exact ⟨none, readList_eq_ok.2 (.inl ⟨eq_null_of_alike h hv, rfl⟩), .none⟩
    · obtain ⟨ys, rfl, hxy⟩ := exists_arr_of_alike h
      obtain ⟨l', hl', hρ⟩ := exists_decodeItems_of_alike hxy (Json.hasDistinctNames_arr.1 (hd _ rfl))
        (Json.hasDistinctNames_arr.1 (hd' _ rfl)) (hread _ rfl) hl
      exact ⟨some l', readList_eq_ok.2 (.inr ⟨ys, l', rfl, rfl, hl'⟩), .some hρ⟩
  case items =>
    rcases readOneOrList_eq_ok.1 ha with ⟨hv, rfl⟩ | ⟨w, s, rfl, rfl, hw⟩ | ⟨xs, l, rfl, rfl, hl⟩
    · exact ⟨none, readOneOrList_eq_ok.2 (.inl ⟨eq_null_of_alike h hv, rfl⟩), .none⟩
    · obtain ⟨w', rfl, hww'⟩ := exists_of_rel_some h
      have hvalue : w ∈ Slot.values (some .schemaOrList) w := by
        rw [Slot.values_schemaOrList (by rintro xs rfl; cases hw)]
        exact List.mem_singleton.2 rfl
      obtain ⟨s', hs', hρ⟩ := hread w rfl w hvalue w' (hd w rfl) (hd' w' rfl) hww' s hw
      exact ⟨some (.one s'), readOneOrList_eq_ok.2 (.inr (.inl ⟨w', s', rfl, rfl, hs'⟩)), .some (.one hρ)⟩
    · obtain ⟨ys, rfl, hxy⟩ := exists_arr_of_alike h
      obtain ⟨l', hl', hρ⟩ := exists_decodeItems_of_alike hxy (Json.hasDistinctNames_arr.1 (hd _ rfl))
        (Json.hasDistinctNames_arr.1 (hd' _ rfl)) (hread _ rfl) hl
      exact ⟨some (.many l'), readOneOrList_eq_ok.2 (.inr (.inr ⟨ys, l', rfl, rfl, hl'⟩)), .some (.many hρ)⟩
  case additionalItems | contains | additionalProperties | propertyNames =>
    rcases readSchema_eq_ok.1 ha with ⟨hv, rfl⟩ | ⟨w, s, rfl, rfl, hw⟩
    · exact ⟨none, readSchema_eq_ok.2 (.inl ⟨eq_null_of_alike h hv, rfl⟩), .none⟩
    · obtain ⟨w', rfl, hww'⟩ := exists_of_rel_some h
      obtain ⟨s', hs', hρ⟩ := hread w rfl w (List.mem_singleton.2 rfl) w' (hd w rfl) (hd' w' rfl) hww' s hw
      exact ⟨some s', readSchema_eq_ok.2 (.inr ⟨w', s', rfl, rfl, hs'⟩), .some hρ⟩
  case properties | patternProperties =>
    rcases readMap_eq_ok.1 ha with ⟨hv, rfl⟩ | ⟨ms, rfl, hl⟩
    · exact ⟨[], readMap_eq_ok.2 (.inl ⟨eq_null_of_alike h hv, rfl⟩), .nil⟩
    · obtain ⟨ms', rfl, hms⟩ := exists_obj_of_alike h
      obtain ⟨l', hl', hρ⟩ := exists_decodeMembers_of_alike hms (hd _ rfl) (hd' _ rfl)
        (fun m hm => hread _ rfl _ (List.mem_map_of_mem hm)) hl
      exact ⟨l', readMap_eq_ok.2 (.inr ⟨ms', rfl, hl'⟩), hρ⟩

/-! ## Schema objects -/

theorem exists_node_of_alike {ms ms' : Members Json} {n : ObjectSchema} (h : (Json.obj ms).Alike (.obj ms'))
    (hd : (Json.obj ms).hasDistinctNames = true) (hd' : (Json.obj ms').hasDistinctNames = true)
    (hread : ∀ c ∈ Members.children ms, ReadsLike ρ c) (hn : Node.decode (.obj ms) = .ok n) :
    ∃ n', Node.decode (.obj ms') = .ok n' ∧ n.Like ρ n' := by
  obtain ⟨hnames, hvalues⟩ := Json.hasDistinctNames_obj.1 hd
  obtain ⟨hnames', hvalues'⟩ := Json.hasDistinctNames_obj.1 hd'
  have hlike := (Json.alike_obj hnames hnames').1 h
  have hk (k : Keyword) := exists_readField_of_alike (ρ := ρ) (hlike.values k.name)
    (fun x hx => hvalues _ (Members.mem_of_get? hx)) (fun x hx => hvalues' _ (Members.mem_of_get? hx))
    (fun w hw c hc => hread c (List.mem_flatMap.2 ⟨_, Members.mem_of_get? hw, hc⟩)) ((decode_eq_ok.1 hn).1 k)
  choose f hf hρ using hk
  obtain ⟨n', hn', rfl⟩ := exists_decode f hf
  obtain ⟨-, hext, hother⟩ := decode_eq_ok.1 hn
  obtain ⟨-, hext', hother'⟩ := decode_eq_ok.1 hn'
  refine ⟨n', hn', hρ, ?_, ?_⟩
  · rw [hext, hext']
    exact hlike.filter (fun name => !isModeled name && isVendor name)
  · rw [hother, hother']
    exact hlike.filter isOther

/-- Values that are alike read as schemas that are like each other. -/
theorem readsLike (v : Json) : ReadsLike Schema.Like v := by
  induction v using Json.induction with
  | h v ih =>
    intro v' hd hd' halike s hs
    rcases Schema.decode_eq_ok.1 hs with ⟨b, rfl, rfl⟩ | ⟨ms, n, rfl, hn, rfl⟩
    · rcases halike.cases with ⟨_, _, e, -⟩ | ⟨_, _, e, -⟩ | rfl
      · cases e
      · cases e
      · exact ⟨.bool b, hs, .bool b⟩
    · obtain ⟨ms', e, hms⟩ := exists_obj_of_alike (.some halike)
      cases e
      obtain ⟨n', hn', hlike⟩ := exists_node_of_alike hms hd hd' (fun c hc => ih c hc) hn
      exact ⟨.object n', Schema.decode_of_node hn', .of_node hlike⟩

/-- Objects that are alike read as schema objects that are like each other. -/
theorem exists_decode_of_alike {ms ms' : Members Json} {n : ObjectSchema} (h : (Json.obj ms).Alike (.obj ms'))
    (hd : (Json.obj ms).hasDistinctNames = true) (hd' : (Json.obj ms').hasDistinctNames = true)
    (hn : Node.decode (.obj ms) = .ok n) : ∃ n', Node.decode (.obj ms') = .ok n' ∧ n.Like Schema.Like n' :=
  exists_node_of_alike h hd hd' (fun c _ => readsLike c) hn

end KubeSchema
