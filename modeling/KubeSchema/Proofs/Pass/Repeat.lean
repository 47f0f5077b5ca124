import KubeSchema.Pass
import KubeSchema.Proofs.Settle.Stepwise

/-!
# A pass on what it left

A pass leaves a schema object as it is (`Pass.Leaves`) if it succeeds on it and changes nothing. Each pass leaves its
own result as it is, except that the entry of an optional may be an optional again, which the next run hoists.

* `leaves_hoisted`: variants without their properties keep `required` and are hoisted again, to no effect.
* `leaves_of_apply`: the result of a pass, whatever the schema object was.
-/

namespace KubeSchema

namespace Node

variable {u v : Union} {path : Pointer} {n : ObjectSchema} {ws : List ObjectSchema}

/-! ## Variants that were hoisted -/

/-- A variant that was hoisted may still be about objects, but has nothing left to lose. -/
theorem hoistedVariant_hoistedVariant (w : ObjectSchema) : hoistedVariant (hoistedVariant w) = hoistedVariant w := by
  cases hk : w.hasObjectKeywords with
  | true =>
    rw [hoistedVariant_of_hasObjectKeywords hk]
    cases hs : (strippedVariant w).hasObjectKeywords with
    | true => exact hoistedVariant_of_hasObjectKeywords hs
    | false => exact hoistedVariant_self hs rfl
  | false =>
    cases ht : w.isOnly .object with
    | true =>
      rw [hoistedVariant_of_isOnly hk ht]
      exact hoistedVariant_self hk rfl
    | false =>
      have hself : hoistedVariant w = w := hoistedVariant_self hk ht
      rw [hself, hself]

theorem hasVariants_hoisted (hws : (n.variants u).getD [] = ws.map .object) :
    (n.hoisted u ws).hasVariants v = n.hasVariants v := by
  by_cases hv : v = u
  · subst hv
    simp [hasVariants, variants_hoisted hws, hws]
  · cases u <;> cases v <;> first | contradiction | rfl

theorem getD_variants_hoisted (hws : (n.variants u).getD [] = ws.map .object) :
    ((n.hoisted u ws).variants u).getD [] = (ws.map hoistedVariant).map .object := by
  rw [variants_hoisted hws, List.map_map]
  rfl

/-- The parent of a variant that is about objects is of type object. -/
theorem types_hoisted_of_hasObjectKeywords (h : ∃ w ∈ ws, w.hasObjectKeywords = true) :
    (n.hoisted u ws).types = some (.one .object) := by
  have hany : ws.any hasObjectKeywords = true := List.any_eq_true.2 h
  have htypes : (n.hoisted u ws).types = (receive u n ws).types := by cases u <;> rfl
  rw [htypes, receive, hany, if_pos rfl]

/-- Hoisting from variants that were hoisted gives the parent back. -/
theorem hoisted_hoisted (hws : (n.variants u).getD [] = ws.map .object) :
    (n.hoisted u ws).hoisted u (ws.map hoistedVariant) = n.hoisted u ws := by
  refine hoisted_of_settled (getD_variants_hoisted hws) ?_ ?_
  · intro w' hw'
    obtain ⟨w, -, rfl⟩ := List.mem_map.1 hw'
    exact hoistedVariant_hoistedVariant w
  · rintro ⟨w', hw', hk⟩
    obtain ⟨w, hw, rfl⟩ := List.mem_map.1 hw'
    exact types_hoisted_of_hasObjectKeywords ⟨w, hw, hasObjectKeywords_of_hoistedVariant hk⟩

/-- No enum is left among the variants. -/
theorem hasEnum_takenEnums : ∀ s ∈ (takenEnums n).oneOf.getD [], hasEnum s = false := by
  intro s hs
  unfold takenEnums at hs
  cases ho : n.oneOf with
  | none => simp [ho] at hs
  | some vs =>
    simp only [ho, Option.map_some, Option.getD_some, List.mem_filter, Bool.not_eq_eq_eq_not, Bool.not_true] at hs
    exact hs.2

end Node

namespace Pass

open Node

variable {o : Options} {path : Pointer} {n m : ObjectSchema} {p : Pass} {u : Union}

/-- A pass succeeds on a schema object and leaves it exactly as it is. -/
def Leaves (o : Options) (path : Pointer) (p : Pass) (n : ObjectSchema) : Prop :=
  ∃ r, (p.apply o path n).outcome = .ok r ∧ r.getD n = n

/-- A pass that has nothing to do. -/
theorem leaves_of_none (h : p.apply o path n = pure none) : p.Leaves o path n :=
  ⟨none, by rw [h]; rfl, rfl⟩

/-! ## The passes one by one -/

/-- What hoisting properties leaves is hoisted again without a fault: its variants declare no properties, so that none
can contradict another. -/
theorem leaves_hoisted {r : Option ObjectSchema} (h : ((properties u).apply o path n).outcome = .ok r) :
    (properties u).Leaves o path (r.getD n) := by
  obtain ⟨ws, hws, hr, -⟩ := hoistProperties_eq_ok h
  rw [hr]
  have hex : (n.hoisted u ws).hasConflictingUnions = false := by
    unfold hasConflictingUnions
    rw [hasVariants_hoisted hws, hasVariants_hoisted hws]
    exact ((exists_hoistProperties_iff hws).1 ⟨r, h⟩).1
  have hvariants := getD_variants_hoisted hws
  obtain ⟨r', hr'⟩ := exists_hoistProperties u path hex fun s hs => by
    rw [hvariants] at hs
    obtain ⟨w', hw', rfl⟩ := List.mem_map.1 hs
    obtain ⟨w, -, rfl⟩ := List.mem_map.1 hw'
    exact ⟨hoistedVariant w, rfl, properties_hoistedVariant w⟩
  refine ⟨r', hr', ?_⟩
  obtain ⟨ws', hws', hagain, -⟩ := hoistProperties_eq_ok hr'
  have hsame : ws' = ws.map hoistedVariant :=
    List.map_injective_iff.2 (fun _ _ => Schema.object.inj) (hws'.symm.trans hvariants)
  rw [hagain, hsame, hoisted_hoisted hws]

theorem leaves_enumVariants {r : Option ObjectSchema} (h : (enumVariants.apply o path n).outcome = .ok r) :
    enumVariants.Leaves o path (r.getD n) := by
  apply leaves_of_none
  rcases hoistEnumVariants_eq_ok h with ⟨rfl, hv⟩ | ⟨t, ws, -, -, -, rfl⟩
  · exact hoistEnumVariants_of_objects hv
  · -- Nothing is left of the union.
    rfl

theorem leaves_enumValues {r : Option ObjectSchema} (h : (enumValues.apply o path n).outcome = .ok r) :
    enumValues.Leaves o path (r.getD n) := by
  apply leaves_of_none
  rw [hoistEnumValues_eq_ok h]
  exact hoistEnumValues_of_enumless hasEnum_takenEnums

/-- Without `null` among its values, a schema object has none to lose. -/
theorem leaves_enumNull : enumNull.Leaves o path (n.dropEnumNull.getD n) := by
  apply leaves_of_none
  unfold dropEnumNull
  split
  · next hn => simp [apply, dropEnumNull, hn]
  · next values hn =>
    split
    · simp [apply, dropEnumNull]
    · next hkept => simp [apply, dropEnumNull, hn, hkept]

theorem leaves_unknownFields : unknownFields.Leaves o path ((n.preserveUnknownFields o.preserveKey).getD n) := by
  apply leaves_of_none
  unfold preserveUnknownFields
  split
  · simp [apply, preserveUnknownFields]
  · next hkept =>
    rw [Option.getD_none]
    show pure (n.preserveUnknownFields o.preserveKey) = _
    unfold preserveUnknownFields
    split
    · next hp ha => exact absurd ha (hkept _ _ hp)
    · rfl

theorem leaves_uniqueItems : uniqueItems.Leaves o path (n.dropUniqueItems.getD n) := by
  apply leaves_of_none
  unfold dropUniqueItems
  split
  · rfl
  · next hnone => simp [apply, dropUniqueItems, hnone]

/-! ## All of them -/

/-- A pass on a part of the keywords, on what it left: it succeeds again and changes nothing. Hoisting the properties
of variants that keep `required` counts as done every time, but what it writes is what is there. -/
theorem leaves_of_apply (hopt : p ≠ .optional) (hwhole : p ≠ .whole) {r : Option ObjectSchema}
    (h : (p.apply o path n).outcome = .ok r) : p.Leaves o path (r.getD n) := by
  cases p with
  | enumVariants => exact leaves_enumVariants h
  | optional => contradiction
  | enumValues => exact leaves_enumValues h
  | properties u => exact leaves_hoisted h
  | enumNull => cases h; exact leaves_enumNull
  | unknownFields => cases h; exact leaves_unknownFields
  | uniqueItems => cases h; exact leaves_uniqueItems
  | whole => contradiction

/-- A tagged variant that keeps its `required` is still about objects, and is hoisted again. -/
theorem leaves_required :
    let tag : ObjectSchema := { types := some (.one .string) }
    let variant : ObjectSchema :=
      { types := some (.one .object), required := .ofList ["kind"], properties := [("kind", .object tag)] }
    let n : ObjectSchema := { oneOf := some [.object variant] }
    let m : ObjectSchema := {
      types := some (.one .object)
      properties := [("kind", .object tag)]
      oneOf := some [.object { required := .ofList ["kind"] }] }
    ((properties .oneOf).apply {} [] n).outcome = .ok (some m) ∧
      ((properties .oneOf).apply {} [] m).outcome = .ok (some m) ∧ (properties .oneOf).Leaves {} [] m := by
  intro tag variant n m
  have hn : ((properties .oneOf).apply {} [] n).outcome = .ok (some m) := rfl
  exact ⟨hn, rfl, leaves_of_apply (p := properties .oneOf) nofun nofun hn⟩

end Pass

end KubeSchema
