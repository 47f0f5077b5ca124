import KubeSchema.Proofs.Union.Agreement
import KubeSchema.Proofs.Union.Enum

/-!
# When hoisting succeeds

Variants are hoisted one after the other, each compared with what the ones before it left: a property with the one
that was declared first, a type with the type that was established first. Whether all of them can be hoisted depends on
which variants there are, but not on their order.

* `Mergeable.perm`: properties can be merged in any order, if in one.
* `exists_hoistProperties_iff`: the variants of a union can hand over their properties (`Hoistable`).
* `hoistEnumVariants_of_enums`: enums of one type.
* `exists_hoistEnumValues_iff`: enums among other variants, of one type with the parent (`OneType`).
-/

namespace KubeSchema

namespace Node

variable {u : Union} {path place : Pointer} {index : Nat} {n v : ObjectSchema} {ws ws' : List ObjectSchema}
  {l ps ps' : List (String × Schema)}

/-! ## Properties -/

/-- The order in which properties are merged does not matter. -/
theorem Mergeable.perm (h : Mergeable l ps) (hperm : ps.Perm ps') : Mergeable l ps' := by
  refine ⟨fun p hp => h.declared p (hperm.mem_iff.2 hp), ?_⟩
  refine (hperm.pairwise_iff ?_).1 h.pairwise
  intro p q hpq hname
  exact isAlike_symm (hpq hname.symm)

/-- A tagged variant hands over one property at most, an untagged one any number. -/
theorem handedProperties_iff : (handedProperties u place v).outcome = .ok l ↔
    l = handed u v ∧ (u = .oneOf → v.properties.length ≤ 1) := by
  refine ⟨handedProperties_eq_ok, ?_⟩
  rintro ⟨rfl, htag⟩
  cases u with
  | anyOf => rfl
  | oneOf =>
    have hlength := htag rfl
    unfold handedProperties handed
    rcases hp : v.properties with _ | ⟨⟨name, s⟩, _ | ⟨q, r⟩⟩
    · rfl
    · exact Traced.bind_eq_ok.2 ⟨_, outcome_describeTag .., rfl⟩
    · simp [hp] at hlength

/-- Variants that can hand over their properties: tagged ones have one at most, and those of one name are alike. -/
structure Hoistable (u : Union) (properties : List (String × Schema)) (ws : List ObjectSchema) : Prop where
  tags : u = .oneOf → ∀ w ∈ ws, w.properties.length ≤ 1
  mergeable : Mergeable properties (ws.flatMap (handed u))

theorem hoistable_cons {properties : List (String × Schema)} :
    Hoistable u properties (v :: ws) ↔
      (u = .oneOf → v.properties.length ≤ 1) ∧ Mergeable properties (handed u v) ∧
        Hoistable u ((handed u v).foldl addProperty properties) ws := by
  constructor
  · rintro ⟨htags, hmerge⟩
    obtain ⟨hv, hws⟩ := mergeable_append.1 hmerge
    exact ⟨fun hu => htags hu v List.mem_cons_self, hv, fun hu w hw => htags hu w (List.mem_cons_of_mem v hw), hws⟩
  · rintro ⟨htag, hv, htags, hws⟩
    exact ⟨fun hu => List.forall_mem_cons.2 ⟨htag hu, htags hu⟩, mergeable_append.2 ⟨hv, hws⟩⟩

theorem Hoistable.perm {properties : List (String × Schema)} (h : Hoistable u properties ws) (hperm : ws.Perm ws') :
    Hoistable u properties ws' :=
  ⟨fun hu w hw => h.tags hu w (hperm.mem_iff.2 hw), h.mergeable.perm (hperm.flatMap_right _)⟩

theorem hoistable_of_undeclaring {properties : List (String × Schema)} (h : ∀ w ∈ ws, w.properties = []) :
    Hoistable u properties ws := by
  refine ⟨fun _ w hw => by simp [h w hw], ?_⟩
  rw [flatMap_handed_of_undeclaring h]
  exact mergeable_nil

theorem exists_hoistVariants_iff (path : Pointer) (index : Nat) (n : ObjectSchema) :
    (∃ r, (hoistVariants u path index n (ws.map .object)).outcome = .ok r) ↔ Hoistable u n.properties ws := by
  induction ws generalizing index n with
  | nil =>
    have hempty : Hoistable u n.properties [] := ⟨fun _ _ hw => absurd hw List.not_mem_nil, mergeable_nil⟩
    exact ⟨fun _ => hempty, fun _ => ⟨_, rfl⟩⟩
  | cons w ws ih =>
    rw [List.map_cons, hoistVariants, hoistable_cons]
    cases hk : w.hasObjectKeywords with
    | true =>
      simp only [↓reduceIte]
      constructor
      · rintro ⟨r, hr⟩
        obtain ⟨_, hhanded, hr⟩ := Traced.bind_eq_ok.1 hr
        obtain ⟨_, hmerged, hr⟩ := Traced.bind_eq_ok.1 hr
        obtain ⟨rest, hrest, -⟩ := Traced.bind_eq_ok.1 hr
        obtain ⟨rfl, htag⟩ := handedProperties_iff.1 hhanded
        obtain ⟨rfl, hmerge⟩ := foldlM_mergeProperty_eq_ok.1 hmerged
        exact ⟨htag, hmerge, (ih _ _).1 ⟨rest, hrest⟩⟩
      · rintro ⟨htag, hmerge, h⟩
        obtain ⟨rest, hrest⟩ := (ih (index + 1) { n with
          properties := (handed u w).foldl addProperty n.properties, types := some (.one .object) }).2 h
        refine Traced.exists_bind (handedProperties_iff.2 ⟨rfl, htag⟩) ?_
        exact Traced.exists_bind (foldlM_mergeProperty_eq_ok.2 ⟨rfl, hmerge⟩) (Traced.exists_bind hrest ⟨_, rfl⟩)
    | false =>
      -- A variant without object keywords hands over nothing.
      have hlength : w.properties.length ≤ 1 := by simp [properties_eq_nil hk]
      rw [handed_of_not_hasObjectKeywords hk, List.foldl_nil]
      have hrest : (∃ r, (hoistVariants u path (index + 1) n (ws.map .object)).outcome = .ok r) ↔
          (u = .oneOf → w.properties.length ≤ 1) ∧ Mergeable n.properties [] ∧ Hoistable u n.properties ws :=
        (ih (index + 1) n).trans ⟨fun h => ⟨fun _ => hlength, mergeable_nil, h⟩, fun h => h.2.2⟩
      rw [← hrest]
      simp only [Bool.false_eq_true, ↓reduceIte]
      split
      · exact Traced.exists_bind_iff fun _ => ⟨_, rfl⟩
      · exact Traced.exists_bind_iff fun _ => ⟨_, rfl⟩

theorem exists_hoistProperties_iff (hws : (n.variants u).getD [] = ws.map .object) :
    (∃ r, (hoistProperties u path n).outcome = .ok r) ↔
      n.hasConflictingUnions = false ∧ Hoistable u n.properties ws := by
  unfold hoistProperties
  rw [hws, ← exists_hoistVariants_iff path 0]
  cases n.hasConflictingUnions with
  | true =>
    constructor
    · rintro ⟨r, hr⟩
      cases hr
    · rintro ⟨hconflict, -⟩
      cases hconflict
  | false =>
    simp only [Bool.false_eq_true, ↓reduceIte, true_and]
    refine Traced.exists_bind_iff fun hoisted => ?_
    split
    · exact ⟨_, rfl⟩
    · exact ⟨_, rfl⟩

/-! ## A union of enums only -/

theorem typedVariants_of_types {t : OneOrMany PrimitiveType} (h : ∀ w ∈ ws, w.types = some t) (path : Pointer)
    (index : Nat) :
    (typedVariants path index (ws.map .object)).outcome = .ok (ws.map (fun w => (t, w))) := by
  induction ws generalizing index with
  | nil => rfl
  | cons w ws ih =>
    obtain ⟨hw, hws⟩ := List.forall_mem_cons.1 h
    rw [List.map_cons, typedVariants, hw]
    exact Traced.bind_eq_ok.2 ⟨_, ih hws (index + 1), rfl⟩

theorem checkTypes_of_types (t : OneOrMany PrimitiveType) (ws : List ObjectSchema) :
    (checkTypes path (t, v) index (ws.map (fun w => (t, w)))).outcome = .ok () := by
  induction ws generalizing index with
  | nil => rfl
  | cons w ws ih =>
    rw [List.map_cons, checkTypes, if_pos rfl]
    exact ih

theorem collectValues_of_listed (h : ∀ w ∈ ws, (listedValues? w).isSome = true) (path : Pointer) (index : Nat)
    (t : OneOrMany PrimitiveType) :
    (collectValues path index (ws.map (fun w => (t, w)))).outcome =
      .ok (ws.flatMap (fun w => (listedValues? w).getD [])) := by
  induction ws generalizing index with
  | nil => rfl
  | cons w ws ih =>
    obtain ⟨hw, hws⟩ := List.forall_mem_cons.1 h
    obtain ⟨values, hvalues⟩ := Option.isSome_iff_exists.1 hw
    rw [List.map_cons, collectValues, hvalues, List.flatMap_cons, hvalues]
    exact Traced.bind_eq_ok.2 ⟨_, ih hws (index + 1), rfl⟩

/-- Variants that are enums, of one type, become the enum of the parent. -/
theorem hoistEnumVariants_of_enums {t : OneOrMany PrimitiveType} (hws : n.oneOf.getD [] = ws.map .object)
    (hne : ws ≠ [])
    (h : ∀ w ∈ ws, w.isAboutObjects = false ∧ w.types = some t ∧ (listedValues? w).isSome = true) :
    (hoistEnumVariants path n).outcome = .ok (some (n.enumerated t ws)) := by
  have hobjects : (ws.map Schema.object).any isObjectVariant = false := by
    refine List.any_eq_false.2 fun s hs => ?_
    obtain ⟨w, hw, rfl⟩ := List.mem_map.1 hs
    simp [isObjectVariant, (h w hw).1]
  have htyped := typedVariants_of_types (fun w hw => (h w hw).2.1) path 0
  have hvalues := collectValues_of_listed (fun w hw => (h w hw).2.2) path 0 t
  obtain ⟨w, ws, rfl⟩ := List.exists_cons_of_ne_nil hne
  unfold hoistEnumVariants
  rw [hws, List.map_cons]
  dsimp only
  rw [← List.map_cons, hobjects]
  refine Traced.bind_eq_ok.2 ⟨_, htyped, ?_⟩
  refine Traced.bind_eq_ok.2 ⟨(), checkTypes_of_types t ws, ?_⟩
  refine Traced.bind_eq_ok.2 ⟨_, hvalues, ?_⟩
  exact Traced.bind_eq_ok.2 ⟨(), rfl, rfl⟩

/-! ## Enums among other variants -/

/-- The types that are given, by the parent or the variants. -/
def givenTypes (types : Option (OneOrMany PrimitiveType)) (ws : List ObjectSchema) : List (OneOrMany PrimitiveType) :=
  types.toList ++ ws.filterMap Node.types

/-- All types that are given are the same. -/
def OneType (types : Option (OneOrMany PrimitiveType)) (ws : List ObjectSchema) : Prop :=
  (givenTypes types ws).Pairwise Eq

theorem oneType_nil (types : Option (OneOrMany PrimitiveType)) : OneType types [] := by
  cases types with
  | none => exact .nil
  | some t => exact List.pairwise_singleton Eq t

theorem oneType_cons {types : Option (OneOrMany PrimitiveType)} :
    OneType types (v :: ws) ↔ (∀ p ∈ types, ∀ t ∈ v.types, p = t) ∧ OneType (types.or v.types) ws := by
  unfold OneType givenTypes
  cases types with
  | none => cases hv : v.types <;> simp [hv]
  | some p =>
    cases hv : v.types with
    | none => simp [hv]
    | some t =>
      simp only [List.filterMap_cons, hv, Option.toList_some, List.singleton_append, List.pairwise_cons,
        List.forall_mem_cons, Option.mem_some_iff, forall_eq', Option.some_or]
      constructor
      · rintro ⟨⟨hpt, hp⟩, -, hrest⟩
        exact ⟨hpt, hp, hrest⟩
      · rintro ⟨rfl, hp, hrest⟩
        exact ⟨⟨rfl, hp⟩, hp, hrest⟩

theorem OneType.perm {types : Option (OneOrMany PrimitiveType)} (h : OneType types ws) (hperm : ws.Perm ws') :
    OneType types ws' :=
  (((hperm.filterMap Node.types).append_left types.toList).pairwise_iff fun hst => hst.symm).1 h

theorem takenType_eq_head? (types : Option (OneOrMany PrimitiveType)) (ws : List ObjectSchema) :
    takenType types ws = (givenTypes types ws).head? := by
  induction ws generalizing types with
  | nil => cases types <;> rfl
  | cons w ws ih =>
    have hstep : takenType types (w :: ws) = takenType (types.or w.types) ws := rfl
    rw [hstep, ih]
    unfold givenTypes
    cases types <;> cases hw : w.types <;> simp [hw]

/-- Where all types are the same, any variant may come first. -/
theorem OneType.takenType_eq {types : Option (OneOrMany PrimitiveType)} (h : OneType types ws)
    (hperm : ws.Perm ws') : takenType types ws = takenType types ws' := by
  have hgiven : givenTypes types ws = givenTypes types ws' :=
    List.Perm.eq_of_pairwise (fun _ _ _ _ hst _ => hst) h (h.perm hperm)
      ((hperm.filterMap Node.types).append_left types.toList)
  rw [takenType_eq_head?, takenType_eq_head?, hgiven]

theorem exists_agreedType_iff {values : List Json} :
    (∃ t, (agreedType path values n v).outcome = .ok t) ↔ ∀ p ∈ n.types, ∀ t ∈ v.types, p = t := by
  unfold agreedType
  cases n.types with
  | none => exact ⟨fun _ => nofun, fun _ => ⟨_, rfl⟩⟩
  | some p =>
    cases v.types with
    | none => exact ⟨fun _ _ _ => nofun, fun _ => ⟨_, rfl⟩⟩
    | some t =>
      simp only [Option.mem_some_iff, forall_eq']
      split
      · next hpt => exact ⟨fun _ => hpt, fun _ => ⟨_, rfl⟩⟩
      · next hpt =>
        refine iff_of_false ?_ hpt
        rintro ⟨s, hs⟩
        obtain ⟨_, -, hs⟩ := Traced.bind_eq_ok.1 hs
        obtain ⟨_, -, hs⟩ := Traced.bind_eq_ok.1 hs
        cases hs

theorem exists_takeEnums_iff (path : Pointer) (index : Nat) (n : ObjectSchema) {vs : List Schema} :
    (∃ r, (takeEnums path index n vs).outcome = .ok r) ↔ OneType n.types (enumVariants vs) := by
  induction vs generalizing index n with
  | nil => exact ⟨fun _ => oneType_nil n.types, fun _ => ⟨_, rfl⟩⟩
  | cons s vs ih =>
    have hskip : (∃ r, (takeEnums path (index + 1) n vs >>= fun p => pure (p.1, s :: p.2)).outcome = .ok r) ↔
        OneType n.types (enumVariants vs) :=
      (Traced.exists_bind_iff fun _ => ⟨_, rfl⟩).trans (ih (index + 1) n)
    cases s with
    | bool b =>
      have henums : enumVariants (.bool b :: vs) = enumVariants vs := rfl
      rw [henums]
      exact hskip
    | object v =>
      cases hv : v.enum with
      | none =>
        have henums : enumVariants (.object v :: vs) = enumVariants vs := by simp [enumVariants, hv]
        rw [henums, takeEnums, hv]
        exact hskip
      | some values =>
        have henums : enumVariants (.object v :: vs) = v :: enumVariants vs := by simp [enumVariants, hv]
        rw [henums, oneType_cons, takeEnums, hv]
        simp only [Traced.bind_eq_ok]
        constructor
        · rintro ⟨r, t, ht, hr⟩
          refine ⟨exists_agreedType_iff.1 ⟨t, ht⟩, ?_⟩
          rw [← agreedType_eq_ok ht]
          exact (ih _ _).1 ⟨r, hr⟩
        · rintro ⟨hagree, hrest⟩
          obtain ⟨t, ht⟩ := exists_agreedType_iff.2 hagree
          rw [← agreedType_eq_ok ht] at hrest
          obtain ⟨r, hr⟩ := (ih (index + 1) { n with
            types := t, enum := some (n.enum.getD [] ++ values) }).2 hrest
          exact ⟨r, t, ht, hr⟩

/-- The enums among the variants can be taken if they are of one type with the parent. -/
theorem exists_hoistEnumValues_iff :
    (∃ r, (hoistEnumValues path n).outcome = .ok r) ↔ OneType n.types (enumVariants (n.oneOf.getD [])) := by
  unfold hoistEnumValues
  dsimp only
  split
  · rw [← exists_takeEnums_iff path 0]
    exact Traced.exists_bind_iff fun _ => ⟨_, rfl⟩
  · next hany =>
    rw [enumVariants_eq_nil_iff.2 (Bool.eq_false_iff.2 hany)]
    exact ⟨fun _ => oneType_nil n.types, fun _ => ⟨_, rfl⟩⟩

end Node

end KubeSchema
