import KubeSchema.Proofs.Settle.Drained
import KubeSchema.Proofs.Tidy
import KubeSchema.Proofs.Union.NullEntry

/-!
# Stable schema objects

What leaves a schema object of a result as it is when the result is restructured again (`Node.Stable`). Its variants
do not stay on the way: those with variants about objects get a type (`Node.retyped`), which hoisting takes away
again.

* `hoistedVariant_retyped`: a hoisting undoes the retyping of a variant.
* `hoisted_of_stable`: hoisting from a stable schema object whose variants were retyped gives it back, retyped.
* `settle_retypedVariants`: so it is settled to itself, retyped.
-/

namespace KubeSchema

/-! ## Retyping -/

namespace Node

/-- What leaves a tidy schema object as it is. -/
structure Stable (o : Options) (n : ObjectSchema) : Prop where
  oneOf : n.oneOf ≠ some []
  /-- A tagged union has a variant about objects, or one that becomes so by variants of its own. -/
  objects : n.oneOf.getD [] ≠ [] →
    ∃ w, .object w ∈ n.oneOf.getD [] ∧ (w.isAboutObjects = true ∨ w.hasKeyedVariant = true)
  /-- No pair of untagged variants is an optional. -/
  pair : ∀ a b, n.anyOf = some [a, b] → a.isNullEntry ≠ .ok true ∧ b.isNullEntry ≠ .ok true
  /-- No `null` is to be taken out of the values. -/
  values : o.dropEnumNull = true → n.isNullable = true → ∀ values, n.enum = some values → 1 < values.length →
    .null ∉ values
  /-- A variant that gets a type has no default value, which would go together with the type. -/
  defaults : ∀ w, .object w ∈ n.unionVariants → w.hasObjectKeywords = false → w.hasKeyedVariant = true →
    w.default = none

/-- A schema object with the type that it gets from its variants. -/
def retyped (n : ObjectSchema) : ObjectSchema :=
  if n.hasKeyedVariant then { n with types := some (.one .object) } else n

end Node

/-- A schema with the type that it gets from its variants. -/
def Schema.retyped : Schema → Schema
  | .bool b => .bool b
  | .object n => .object n.retyped

namespace Node

/-- A schema object whose variants are retyped. -/
def retypedVariants (n : ObjectSchema) : ObjectSchema :=
  { n with
    anyOf := n.anyOf.map (List.map Schema.retyped)
    oneOf := n.oneOf.map (List.map Schema.retyped) }

variable {o : Options} {n w : ObjectSchema} {ws : List ObjectSchema} {k : Keyword}

theorem retyped_of_keyed (h : n.hasKeyedVariant = true) : n.retyped = { n with types := some (.one .object) } :=
  if_pos h

theorem retyped_of_not_keyed (h : n.hasKeyedVariant = false) : n.retyped = n := by simp [retyped, h]

theorem IsTyped.retyped (h : n.IsTyped) : n.retyped = n := by
  cases hk : n.hasKeyedVariant with
  | true =>
    rw [retyped_of_keyed hk]
    have ht := h hk
    cases n
    cases ht
    rfl
  | false => exact retyped_of_not_keyed hk

theorem retyped_eq (n : ObjectSchema) : ∃ t, n.retyped = { n with types := t } := by
  unfold Node.retyped
  split
  · exact ⟨_, rfl⟩
  · exact ⟨n.types, rfl⟩

theorem field_retyped (n : ObjectSchema) (hk : k ≠ .type) : n.retyped.field k = n.field k := by
  obtain ⟨t, ht⟩ := retyped_eq n
  rw [ht]
  cases k <;> first | rfl | exact absurd rfl hk

theorem hasObjectKeywords_retyped (w : ObjectSchema) : w.retyped.hasObjectKeywords = w.hasObjectKeywords := by
  obtain ⟨t, ht⟩ := retyped_eq w
  rw [ht]
  rfl

theorem properties_retyped (w : ObjectSchema) : w.retyped.properties = w.properties :=
  field_retyped w (k := .properties) nofun

theorem isAboutObjects_retyped (h : w.isAboutObjects = true ∨ w.hasKeyedVariant = true) :
    w.retyped.isAboutObjects = true := by
  cases hk : w.hasKeyedVariant with
  | true =>
    rw [retyped_of_keyed hk]
    simp [isAboutObjects]
  | false =>
    rw [retyped_of_not_keyed hk]
    exact h.resolve_right (by simp [hk])

theorem hasEnum_retyped (s : Schema) : hasEnum s.retyped = hasEnum s := by
  cases s with
  | bool b => rfl
  | object w =>
    obtain ⟨t, ht⟩ := retyped_eq w
    rw [Schema.retyped, ht]
    rfl

theorem eq_nullNode_of_retyped (h : w.retyped = nullNode) : w = nullNode := by
  cases hk : w.hasKeyedVariant with
  | true =>
    rw [retyped_of_keyed hk] at h
    have ht : (none : Option (OneOrMany PrimitiveType)) = some (.one .object) := congrArg Node.types h.symm
    cases ht
  | false => rwa [retyped_of_not_keyed hk] at h

/-- Hoisting undoes the retyping of a loose variant that declares no properties. -/
theorem hoistedVariant_retyped (hw : w.Loose) (hp : w.properties = []) (ha : w.additionalProperties = none)
    (hd : w.hasObjectKeywords = false → w.hasKeyedVariant = true → w.default = none) :
    hoistedVariant w.retyped = w := by
  cases hk : w.hasObjectKeywords with
  | true =>
    obtain ⟨ht, hdesc⟩ := hw.untyped (.inl hk)
    rw [hoistedVariant_of_hasObjectKeywords (by rw [hasObjectKeywords_retyped, hk])]
    obtain ⟨t, hr⟩ := retyped_eq w
    rw [hr]
    cases w
    cases hp; cases ha; cases ht; cases hdesc
    rfl
  | false =>
    cases hv : w.hasKeyedVariant with
    | true =>
      obtain ⟨ht, hdesc⟩ := hw.untyped (.inr hv)
      have hdefault := hd hk hv
      have hk' : w.retyped.hasObjectKeywords = false := by rw [hasObjectKeywords_retyped, hk]
      rw [retyped_of_keyed hv] at hk' ⊢
      rw [hoistedVariant_of_isOnly hk' (by simp [isOnly])]
      cases w
      cases hdefault; cases ht; cases hdesc
      rfl
    | false =>
      rw [retyped_of_not_keyed hv]
      exact hoistedVariant_self hk (by simpa [isOnly] using hw.types)

/-! ## Variants that were retyped -/

theorem variants_retypedVariants (n : ObjectSchema) (v : Union) :
    (n.retypedVariants.variants v).getD [] = ((n.variants v).getD []).map Schema.retyped := by
  have hmap (l : Option (List Schema)) :
      (l.map (List.map Schema.retyped)).getD [] = (l.getD []).map Schema.retyped := by cases l <;> rfl
  cases v
  · exact hmap n.oneOf
  · exact hmap n.anyOf

theorem oneOf_retypedVariants (n : ObjectSchema) :
    n.retypedVariants.oneOf.getD [] = (n.oneOf.getD []).map Schema.retyped := variants_retypedVariants n .oneOf

theorem anyOf_retypedVariants (n : ObjectSchema) :
    n.retypedVariants.anyOf.getD [] = (n.anyOf.getD []).map Schema.retyped := variants_retypedVariants n .anyOf

theorem unionVariants_retypedVariants (n : ObjectSchema) :
    n.retypedVariants.unionVariants = n.unionVariants.map Schema.retyped := by
  rw [unionVariants, oneOf_retypedVariants, anyOf_retypedVariants, unionVariants, List.map_append]

theorem map_retyped_object (ws : List ObjectSchema) :
    (ws.map Schema.object).map Schema.retyped = (ws.map retyped).map .object := by
  rw [List.map_map, List.map_map]
  rfl

theorem types_retyped (n : ObjectSchema) :
    n.retyped.types = if n.hasKeyedVariant then some (.one .object) else n.types := by
  unfold Node.retyped
  split <;> rfl

/-- Variants that declare no properties hand over a type only. -/
theorem hoisted_of_undeclaring {v : Union} (hws : n.unionVariants = ws.map .object)
    (hp : ∀ w ∈ ws, w.properties = []) :
    (n.hoisted v ws).properties = n.properties ∧ (n.hoisted v ws).types = n.retyped.types := by
  have hkeyed : n.hasKeyedVariant = ws.any hasObjectKeywords := by
    rw [hasKeyedVariant, hws, List.any_map]
    rfl
  have hreceived : received v n.properties ws = n.properties := received_of_undeclaring hp
  rw [types_retyped, hkeyed]
  cases v <;> exact ⟨hreceived, rfl⟩

theorem hasKeyedVariant_retypedVariants (n : ObjectSchema) :
    n.retypedVariants.hasKeyedVariant = n.hasKeyedVariant := by
  rw [hasKeyedVariant, unionVariants_retypedVariants, List.any_map, hasKeyedVariant]
  refine List.any_congr rfl fun s => ?_
  cases s with
  | bool b => rfl
  | object w => exact hasObjectKeywords_retyped w

theorem map_retyped_of_nil {l : Option (List Schema)} (hl : l.getD [] = []) : l.map (List.map Schema.retyped) = l := by
  cases l with
  | none => rfl
  | some l =>
    have hl : l = [] := hl
    rw [hl]
    rfl

/-- A union is what hoisting from its retyped variants gives back. -/
theorem map_hoisted_of_getD {l : Option (List Schema)} (hl : l.getD [] = ws.map .object)
    (hback : ∀ w ∈ ws, hoistedVariant w.retyped = w) :
    (l.map (List.map Schema.retyped)).map
      (fun _ => (ws.map retyped).map (fun w => Schema.object (hoistedVariant w))) = l := by
  have hvariants : (ws.map retyped).map (fun w => Schema.object (hoistedVariant w)) = ws.map .object := by
    rw [List.map_map]
    exact List.map_congr_left fun w hw => congrArg Schema.object (hback w hw)
  rw [hvariants]
  cases l with
  | none => rfl
  | some l =>
    have hl : l = ws.map .object := hl
    rw [hl]
    rfl

/-- Hoisting from one union gives back the variants, and the type that the schema object gets from them. -/
theorem hoisted_retypedVariants {v : Union} (hws : (n.variants v).getD [] = ws.map .object)
    (hother : ∀ v', v' ≠ v → (n.variants v').getD [] = []) (hback : ∀ w ∈ ws, hoistedVariant w.retyped = w)
    (hp : ∀ w ∈ ws, w.properties = []) : n.retypedVariants.hoisted v (ws.map retyped) = n.retyped := by
  have hunion : n.retypedVariants.unionVariants = (ws.map retyped).map .object := by
    rw [unionVariants_retypedVariants, unionVariants_eq hws hother, map_retyped_object]
  have hprops : ∀ w ∈ ws.map retyped, w.properties = [] := by
    intro w' hw'
    obtain ⟨w, hw, rfl⟩ := List.mem_map.1 hw'
    rw [properties_retyped, hp w hw]
  obtain ⟨hproperties, htypes⟩ := hoisted_of_undeclaring (v := v) hunion hprops
  rw [types_retyped, hasKeyedVariant_retypedVariants] at htypes
  obtain ⟨t, ht⟩ := retyped_eq n
  refine ext_field (fun k => ?_) (by rw [ht]; cases v <;> rfl) (by rw [ht]; cases v <;> rfl)
  by_cases hk : k = .type
  · subst hk
    exact htypes.trans (types_retyped n).symm
  · rw [field_retyped n hk]
    cases v
    · cases k
      case oneOf => exact map_hoisted_of_getD hws hback
      case anyOf => exact map_retyped_of_nil (hother .anyOf nofun)
      case properties => exact hproperties
      all_goals first | rfl | exact absurd rfl hk
    · cases k
      case anyOf => exact map_hoisted_of_getD hws hback
      case oneOf => exact map_retyped_of_nil (hother .oneOf nofun)
      case properties => exact hproperties
      all_goals first | rfl | exact absurd rfl hk

end Node

/-! ## Settling -/

namespace Options

open Node

variable {o : Options} {path : Pointer} {n : ObjectSchema}

theorem cleanEnum_self (h : o.dropEnumNull = true → n.isNullable = true → ∀ values, n.enum = some values →
    1 < values.length → .null ∉ values) : o.cleanEnum n = n := by
  unfold cleanEnum Node.dropEnumNull
  split
  · next hdrop =>
    split
    · rfl
    · next values hv =>
      split
      · next hnull =>
        obtain ⟨hnullable, hlength, hmem⟩ := hnull
        exact absurd hmem (h hdrop hnullable values hv hlength)
      · rfl
  · rfl

theorem finish_self (hclosed : n.properties = [] ∨ n.additionalProperties ≠ some (.bool true))
    (hunordered : o.dropUniqueItems = true → n.uniqueItems = none) : o.finish n = n := by
  have hkeep : n.preserveUnknownFields o.preserveKey = none := by
    unfold Node.preserveUnknownFields
    split
    · next hp ha => exact absurd ha (hclosed.resolve_left (by simp [hp]))
    · rfl
  rw [finish, hkeep, Option.getD_none]
  unfold cleanItems Node.dropUniqueItems
  split
  · next hdrop =>
    simp [hunordered hdrop]
  · rfl

theorem isNullEntry_retyped {s : Schema} (hs : s.retyped.Regular) (h : s.isNullEntry ≠ .ok true) :
    s.retyped.isNullEntry = .ok false := by
  obtain ⟨b, hb⟩ := exists_isNullEntry hs
  cases b with
  | false => exact hb
  | true =>
    have hnull : s.retyped = .object nullNode := eq_nullNode_of_isNullEntry hs hb
    cases s with
    | bool b => cases hnull
    | object w =>
      rw [eq_nullNode_of_retyped (Schema.object.inj hnull)] at h
      exact absurd isNullEntry_nullNode h

/-- The unions of a tidy schema object have nothing to hand over, nor do the retyped variants of a stable one. -/
theorem drained_retypedVariants (ht : n.Tidy o) (hs : n.Stable o)
    (hreg : (Schema.object n.retypedVariants).Regular) : n.retypedVariants.Drained where
  exclusive := by
    have hex := ht.exclusive
    simp only [hasConflictingUnions, hasVariants, variants] at hex ⊢
    rw [oneOf_retypedVariants, anyOf_retypedVariants, List.isEmpty_map, List.isEmpty_map]
    exact hex
  variants s hmem := by
    rw [unionVariants_retypedVariants] at hmem
    obtain ⟨s', hs', rfl⟩ := List.mem_map.1 hmem
    cases s' with
    | bool b => exact absurd hs' (ht.objects b)
    | object w => exact ⟨w.retyped, rfl, by rw [properties_retyped, (ht.undeclaring w hs').1]⟩
  enumless s hmem := by
    rw [oneOf_retypedVariants] at hmem
    obtain ⟨s', hs', rfl⟩ := List.mem_map.1 hmem
    rw [hasEnum_retyped]
    cases s' with
    | bool b => rfl
    | object w => simp [hasEnum, ht.enumless w hs']
  objects := by
    rw [oneOf_retypedVariants]
    by_cases hone : n.oneOf.getD [] = []
    · exact .inl (by rw [hone, List.map_nil])
    · obtain ⟨w, hw, habout⟩ := hs.objects hone
      refine .inr (List.any_eq_true.2 ⟨.object w.retyped, List.mem_map.2 ⟨_, hw, rfl⟩, ?_⟩)
      exact isAboutObjects_retyped habout
  pair a b hab := by
    have hretyped : n.anyOf.map (List.map Schema.retyped) = some [a, b] := hab
    obtain ⟨l, hl, hmap⟩ := Option.map_eq_some_iff.1 hretyped
    obtain ⟨a, rest, rfl, rfl, hrest⟩ := List.map_eq_cons_iff.1 hmap
    obtain ⟨b, rest, rfl, rfl, hnil⟩ := List.map_eq_cons_iff.1 hrest
    cases List.map_eq_nil_iff.1 hnil
    have hentry {s : Schema} (hs : s ∈ [a.retyped, b.retyped]) : s.Regular :=
      hreg.child s (mem_children.2 ⟨.anyOf, by simpa [Keyword.children, field, hab] using hs⟩)
    obtain ⟨ha, hb⟩ := hs.pair a b hl
    exact ⟨isNullEntry_retyped (hentry (by simp)) ha, isNullEntry_retyped (hentry (by simp)) hb⟩

/-- Hoisting from one union of a stable schema object whose variants were retyped gives it back, retyped. -/
theorem hoisted_of_stable {v : Union} {ws : List ObjectSchema} (ht : n.Tidy o) (hs : n.Stable o)
    (hws : (n.retypedVariants.variants v).getD [] = ws.map .object)
    (hother : ∀ v', v' ≠ v → (n.retypedVariants.variants v').getD [] = []) :
    n.retypedVariants.hoisted v ws = n.retyped := by
  have hmem {s : Schema} (h : s ∈ (n.variants v).getD []) : s ∈ n.unionVariants := by
    cases v
    · exact List.mem_append_left _ h
    · exact List.mem_append_right _ h
  obtain ⟨ws', hws'⟩ := exists_objects fun b hb => ht.objects b (hmem hb)
  have hback : ∀ w ∈ ws', hoistedVariant w.retyped = w := by
    intro w hw
    have hw : .object w ∈ n.unionVariants := mem_unionVariants hws' hw
    obtain ⟨hp, ha⟩ := ht.undeclaring w hw
    exact hoistedVariant_retyped (ht.loose w hw) hp ha (hs.defaults w hw)
  have hp : ∀ w ∈ ws', w.properties = [] := fun w hw => (ht.undeclaring w (mem_unionVariants hws' hw)).1
  have hnone : ∀ v', v' ≠ v → (n.variants v').getD [] = [] := by
    intro v' hv
    have h := hother v' hv
    rw [variants_retypedVariants] at h
    exact List.map_eq_nil_iff.1 h
  rw [variants_retypedVariants, hws', map_retyped_object] at hws
  cases (List.map_injective_iff.2 fun _ _ => Schema.object.inj) hws
  exact hoisted_retypedVariants hws' hnone hback hp

/-- A stable schema object whose variants were retyped is settled to itself, retyped. -/
theorem settle_retypedVariants (path : Pointer) (ht : n.Tidy o) (hs : n.Stable o)
    (hreg : (Schema.object n.retypedVariants).Regular) :
    (o.settle path n.retypedVariants).outcome = .ok n.retyped := by
  have hdrained := drained_retypedVariants ht hs hreg
  obtain ⟨m, hm⟩ := exists_settle o path hdrained
  obtain ⟨u, hu, rfl⟩ := settle_eq_ok hreg hm
  have hclean : o.cleanEnum n.retypedVariants = n.retypedVariants := cleanEnum_self hs.values
  have hfinish : o.finish n.retyped = n.retyped := by
    obtain ⟨t, hr⟩ := retyped_eq n
    rw [hr]
    exact finish_self ht.closed ht.unordered
  have hone' : n.retyped.oneOf = n.oneOf := field_retyped n (k := .oneOf) nofun
  rw [hm]
  cases hu with
  | @enumerated t ws hone hany hne henums =>
    have hobjects : (n.retypedVariants.oneOf.getD []).any isObjectVariant = true :=
      hdrained.objects.resolve_left (by simpa [hone] using hne)
    rw [hone] at hobjects
    obtain ⟨s, hmem, habout⟩ := List.any_eq_true.1 hobjects
    obtain ⟨w, hw, rfl⟩ := List.mem_map.1 hmem
    have habout : w.isAboutObjects = true := habout
    cases habout.symm.trans (henums w hw).1
  | optional hone he =>
    obtain ⟨a, b, hab, h⟩ := he.entries
    obtain ⟨ha, hb⟩ := hdrained.pair a b hab
    rcases h with ⟨h, -⟩ | ⟨-, h⟩
    · cases h.symm.trans ha
    · cases h.symm.trans hb
  | @tagged ws hone hany =>
    have hhoisted : n.retypedVariants.hoisted .oneOf ws = n.retyped :=
      hoisted_of_stable ht hs hone fun v hv => by cases v <;> first | contradiction | exact hany
    have hkept : n.retyped.oneOf ≠ some [] := by rw [hone']; exact hs.oneOf
    have henumless : ∀ s ∈ n.retyped.oneOf.getD [], hasEnum s = false := by
      intro s hmem
      rw [hone'] at hmem
      cases s with
      | bool b => rfl
      | object w => simp [hasEnum, ht.enumless w hmem]
    rw [hclean, hhoisted, takenEnums_eq_self henumless, dropEmptyOneOf_self hkept, hfinish]
  | @untagged ws hone hany =>
    have hhoisted : n.retypedVariants.hoisted .anyOf ws = n.retyped :=
      hoisted_of_stable ht hs hany fun v hv => by cases v <;> first | contradiction | exact hone
    have hkept : n.retypedVariants.oneOf ≠ some [] := by
      intro he
      obtain ⟨l, hl, hl'⟩ := Option.map_eq_some_iff.1 he
      exact hs.oneOf (by rw [hl, List.map_eq_nil_iff.1 hl'])
    rw [hclean, dropEmptyOneOf_self hkept, hhoisted, hfinish]

end Options

end KubeSchema
