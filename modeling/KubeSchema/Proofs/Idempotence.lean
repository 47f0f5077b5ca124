import KubeSchema.Proofs.FixedPoints
import KubeSchema.Proofs.Malformed
import KubeSchema.Proofs.Nesting

/-!
# Restructuring a result again

A schema object comes back from a restructuring if the result is the schema object again, or hoisting takes the
result to it (`Node.IsHoistedFrom`). Then its unions were settled in a way that keeps it (`Node.Kept`), its children
come back too, and it is stable.

* `kept_of_settlesUnions`: neither a union of enums nor an optional comes back.
* `Returns.stable`: what comes back is stable.
* `restructure_again_iff`: a result is restructured as itself exactly if all its schema objects are stable.
* `restructure_not_idempotent`: there are results that are not.
-/

namespace KubeSchema

namespace Node

variable {o : Options} {n m u w : ObjectSchema} {ws : List ObjectSchema} {k : Keyword} {v : Union}

/-! ## Results that are hoisted back -/

/-- A schema object is another one, or this after hoisting. -/
def IsHoistedFrom (n m : ObjectSchema) : Prop := n = m ∨ n = hoistedVariant m

theorem IsHoistedFrom.eq (h : n.IsHoistedFrom m) : ∃ description default types properties additional,
    n = { m with description, default, types, properties, additionalProperties := additional } := by
  rcases h with rfl | rfl
  · exact ⟨n.description, n.default, n.types, n.properties, n.additionalProperties, rfl⟩
  · exact hoistedVariant_eq m

theorem IsHoistedFrom.variants (h : n.IsHoistedFrom m) (v : Union) : n.variants v = m.variants v := by
  obtain ⟨_, _, _, _, _, rfl⟩ := h.eq
  cases v <;> rfl

/-- A field that still holds children is the same. -/
theorem IsHoistedFrom.field_eq (h : n.IsHoistedFrom m) {c : Schema} (hc : c ∈ k.children (n.field k)) :
    n.field k = m.field k := by
  rcases h with rfl | rfl
  · rfl
  · have hp : (hoistedVariant m).properties = [] := properties_hoistedVariant m
    have ha : (hoistedVariant m).additionalProperties = none := additionalProperties_hoistedVariant m
    obtain ⟨_, _, _, properties, additional, he⟩ := hoistedVariant_eq m
    rw [he] at hc hp ha ⊢
    cases k
    case properties =>
      cases hp
      cases hc
    case additionalProperties =>
      cases ha
      cases hc
    all_goals first | rfl | cases hc

/-! ## Ways that keep a schema object -/

/-- What settling leaves of a schema object that comes back: all but its type and its variants, which are hoisted. -/
structure Kept (o : Options) (n u : ObjectSchema) : Prop where
  field : ∀ k : Keyword, k ≠ .type → k ≠ .enum → k ≠ .oneOf → k ≠ .anyOf → u.field k = n.field k
  other : u.other = n.other
  types : u.types = n.retyped.types
  enum : u.enum = (o.cleanEnum n).enum
  variants : ∀ v, ∃ ws : List ObjectSchema, (n.variants v).getD [] = ws.map .object ∧
    (u.variants v).getD [] = ws.map (fun w => .object (hoistedVariant w))
  oneOf : u.oneOf ≠ some []
  objects : n.oneOf.getD [] ≠ [] → ∃ w, .object w ∈ n.oneOf.getD [] ∧ w.isAboutObjects = true
  pair : ∀ a b, n.anyOf = some [a, b] → a.isNullEntry = .ok false ∧ b.isNullEntry = .ok false

/-- Hoisting from one union keeps a schema object, if the other union has no variants. -/
theorem kept_of_hoisted {l : Option (List Schema)} (hws : (n.variants v).getD [] = ws.map .object)
    (hother : ∀ v', v' ≠ v → (n.variants v').getD [] = []) (hp : ∀ w ∈ ws, w.properties = [])
    (hl : l.getD [] = ((o.cleanEnum n).hoisted v ws).oneOf.getD []) (hne : l ≠ some [])
    (hobjects : n.oneOf.getD [] ≠ [] → ∃ w, .object w ∈ n.oneOf.getD [] ∧ w.isAboutObjects = true)
    (hpair : ∀ a b, n.anyOf = some [a, b] → a.isNullEntry = .ok false ∧ b.isNullEntry = .ok false) :
    Kept o n { (o.cleanEnum n).hoisted v ws with oneOf := l } := by
  obtain ⟨values, hclean⟩ := Options.cleanEnum_eq o n
  rw [hclean] at hl ⊢
  have hunion : unionVariants { n with enum := values } = ws.map .object := unionVariants_eq (n := n) hws hother
  obtain ⟨hproperties, htypes⟩ := hoisted_of_undeclaring (v := v) hunion hp
  refine ⟨fun k ht he hone hany => ?_, by cases v <;> rfl, ?_, ?_, fun v' => ?_, hne, hobjects, hpair⟩
  · cases v <;> cases k <;> first | rfl | contradiction | exact hproperties
  · rw [types_retyped] at htypes ⊢
    exact htypes
  · rw [hclean]
    cases v <;> rfl
  · have hws' : (Node.variants { n with enum := values } v).getD [] = ws.map .object := by cases v <;> exact hws
    have hhoisted := variants_hoisted hws'
    by_cases hv : v' = v
    · subst hv
      refine ⟨ws, hws, ?_⟩
      cases v'
      · exact hl.trans hhoisted
      · exact hhoisted
    · refine ⟨[], hother v' hv, ?_⟩
      have hnone := hother v' hv
      cases v <;> cases v' <;> first | contradiction | exact hl.trans hnone | exact hnone

end Node

namespace Options

open Node

variable {o : Options} {n u : ObjectSchema}

/-- A schema object whose settling leaves as many tagged variants, and not the variants of an optional's entry, is
kept. -/
theorem kept_of_settlesUnions (h : o.SettlesUnions n u)
    (hlength : (u.oneOf.getD []).length = (n.oneOf.getD []).length) (hentry : ∀ e, n.IsOptional e → u.anyOf ≠ e.anyOf)
    (hp : ∀ w, .object w ∈ n.unionVariants → w.properties = []) : Kept o n u := by
  have hundeclaring {v : Union} {ws : List ObjectSchema} (hws : (n.variants v).getD [] = ws.map .object) :
      ∀ w ∈ ws, w.properties = [] := fun w hw => hp w (mem_unionVariants hws hw)
  cases h with
  | @enumerated t ws hone hany hne henums =>
    have hnone : (o.cleanEnum (n.enumerated t ws)).oneOf.getD [] = [] := by
      rw [oneOf_cleanEnum]
      rfl
    rw [hnone, hone, List.length_map, List.length_nil] at hlength
    exact absurd (List.length_eq_zero_iff.1 hlength.symm) hne
  | @optional e _ hone hany hagree hresult =>
    have hor : e.anyOf.or none = e.anyOf := by cases e.anyOf <;> rfl
    refine absurd ?_ (hentry e hany)
    rcases hresult with rfl | rfl
    · rw [anyOf_cleanEnum]
      exact hor
    · rw [anyOf_dropEmptyOneOf, anyOf_cleanEnum]
      exact hor
  | @tagged ws hone hany hobjects htags =>
    have hvariants : ((o.cleanEnum n).hoisted .oneOf ws).oneOf.getD [] =
        ws.map (fun w => .object (hoistedVariant w)) :=
      variants_hoisted (u := .oneOf) (by rw [variants, oneOf_cleanEnum, hone])
    rw [getD_filter_oneOf hvariants, hone, List.length_map,
      ← List.length_map (fun w => Schema.object (hoistedVariant w)), List.length_filter_eq_length_iff] at hlength
    have henumless : ∀ s ∈ ((o.cleanEnum n).hoisted .oneOf ws).oneOf.getD [], hasEnum s = false := by
      rw [hvariants]
      intro s hs
      simpa using hlength s hs
    rw [takenEnums_eq_self henumless]
    obtain ⟨l, hl, hd, hne⟩ := dropEmptyOneOf_eq ((o.cleanEnum n).hoisted .oneOf ws)
    rw [hl]
    refine kept_of_hoisted (v := .oneOf) hone (fun v hv => ?_) (hundeclaring (v := .oneOf) hone) hd hne
      (fun _ => ?_) ?_
    · cases v
      · exact absurd rfl hv
      · exact hany
    · obtain ⟨w, hw, habout⟩ := hobjects
      exact ⟨w, by rw [hone]; exact List.mem_map_of_mem hw, habout⟩
    · intro a b hab
      rw [hab] at hany
      cases hany
  | @untagged ws hone hany hpair =>
    obtain ⟨l, hl, hd, hne⟩ := dropEmptyOneOf_eq (o.cleanEnum n)
    rw [hl]
    refine kept_of_hoisted (v := .anyOf) hany (fun v hv => ?_) (hundeclaring (v := .anyOf) hany) hd hne
      (fun h => absurd hone h) hpair
    cases v
    · exact hone
    · exact absurd rfl hv

/-! ## What comes back is stable -/

/-- A schema object has object keywords exactly if another one has, and the type of that after retyping. -/
structure Retypes (n m : ObjectSchema) : Prop where
  keywords : m.hasObjectKeywords = n.hasObjectKeywords
  types : m.types = n.retyped.types

variable {ms : Members Json} {n' m w : ObjectSchema}

theorem hasObjectKeywords_of_rel {ρ : Schema → Schema → Prop} (h : ∀ k : Keyword, k.Rel ρ (n.field k) (n'.field k)) :
    n'.hasObjectKeywords = n.hasObjectKeywords := by
  have option {a b : Option Schema} (h : Option.Rel ρ a b) : b.isSome = a.isSome := by cases h <;> rfl
  have members {a b : List (String × Schema)} (h : Members.Rel ρ a b) : b.isEmpty = a.isEmpty := by cases h <;> rfl
  have hmax : n.maxProperties = n'.maxProperties := h .maxProperties
  have hmin : n.minProperties = n'.minProperties := h .minProperties
  have hrequired : n.required = n'.required := h .required
  have hproperties : n'.properties.isEmpty = n.properties.isEmpty := members (h .properties)
  have hpatterns : n'.patternProperties.isEmpty = n.patternProperties.isEmpty := members (h .patternProperties)
  have hadditional : n'.additionalProperties.isSome = n.additionalProperties.isSome :=
    option (h .additionalProperties)
  have hnames : n'.propertyNames.isSome = n.propertyNames.isSome := option (h .propertyNames)
  simp only [hasObjectKeywords, hmax, hmin, hrequired, hproperties, hpatterns, hadditional, hnames]

theorem hasObjectKeywords_of_finish (hk : Kept o n u) (h : (o.finish u).hasObjectKeywords = true) :
    n.hasObjectKeywords = true := by
  have hmax : u.maxProperties = n.maxProperties := hk.field .maxProperties nofun nofun nofun nofun
  have hmin : u.minProperties = n.minProperties := hk.field .minProperties nofun nofun nofun nofun
  have hrequired : u.required = n.required := hk.field .required nofun nofun nofun nofun
  have hproperties : u.properties = n.properties := hk.field .properties nofun nofun nofun nofun
  have hpatterns : u.patternProperties = n.patternProperties := hk.field .patternProperties nofun nofun nofun nofun
  have hadditional : u.additionalProperties = n.additionalProperties :=
    hk.field .additionalProperties nofun nofun nofun nofun
  have hnames : u.propertyNames = n.propertyNames := hk.field .propertyNames nofun nofun nofun nofun
  obtain ⟨a, x, he, ha⟩ := finish_eq o u
  rw [he] at h
  simp only [hasObjectKeywords, hmax, hmin, hrequired, hproperties, hpatterns, hnames] at h ⊢
  rcases ha with ⟨rfl, -, -⟩ | ⟨rfl, -⟩
  · rwa [hadditional] at h
  · simp only [Option.isSome_none, Bool.or_false, Bool.or_eq_true] at h ⊢
    exact h.imp .inl id

theorem variants_finish (u : ObjectSchema) (v : Union) : (o.finish u).variants v = u.variants v := by
  obtain ⟨a, x, h, -⟩ := finish_eq o u
  rw [h]
  cases v <;> rfl

/-- Restructuring takes the fields of a schema object to those of another one, which is kept when its unions are
settled, and hoisting from the result gives the first one back. -/
structure Returns (o : Options) (ms : Members Json) (n n' u : ObjectSchema) : Prop where
  rel : ∀ k : Keyword, k.Rel (o.Rewrites ms) (n.field k) (n'.field k)
  kept : Kept o n' u
  hoisted : n.IsHoistedFrom (o.finish u)

/-- The variants of a schema object that returns are hoisted from those of the one that is kept. -/
theorem Returns.variants (h : Returns o ms n n' u) (v : Union) :
    ∃ ws : List ObjectSchema, (n.variants v).getD [] = ws.map (fun w => .object (hoistedVariant w)) ∧
      (n'.variants v).getD [] = ws.map .object ∧
      ∀ w ∈ ws, o.Rewrites ms (.object (hoistedVariant w)) (.object w) := by
  obtain ⟨ws, hws, hhoisted⟩ := h.kept.variants v
  have hback : (n.variants v).getD [] = ws.map (fun w => .object (hoistedVariant w)) := by
    rw [h.hoisted.variants v, variants_finish, hhoisted]
  refine ⟨ws, hback, hws, ?_⟩
  have hall := forall₂_variants h.rel v
  rw [hback, hws, List.forall₂_map_left_iff, List.forall₂_map_right_iff, List.forall₂_same] at hall
  exact hall

theorem Returns.unionVariants (h : Returns o ms n n' u) :
    ∃ ws : List ObjectSchema, n.unionVariants = ws.map (fun w => .object (hoistedVariant w)) ∧
      n'.unionVariants = ws.map .object ∧ ∀ w ∈ ws, o.Rewrites ms (.object (hoistedVariant w)) (.object w) := by
  obtain ⟨ones, hone, hone', hrone⟩ := h.variants .oneOf
  obtain ⟨anys, hany, hany', hrany⟩ := h.variants .anyOf
  refine ⟨ones ++ anys, ?_, ?_, fun w hw => (List.mem_append.1 hw).elim (hrone w) (hrany w)⟩
  · rw [List.map_append, ← hone, ← hany]
    rfl
  · rw [List.map_append, ← hone', ← hany']
    rfl

/-- A field with children that is neither union is the same. -/
theorem Returns.field_eq (h : Returns o ms n n' u) {k : Keyword} {c : Schema} (hc : c ∈ k.children (n.field k))
    (hone : k ≠ .oneOf) (hany : k ≠ .anyOf) : n'.field k = n.field k := by
  have ht : k ≠ .type := by
    rintro rfl
    cases hc
  have he : k ≠ .enum := by
    rintro rfl
    cases hc
  have hfinish : (o.finish u).field k = u.field k := by
    have hmem : c ∈ k.children ((o.finish u).field k) := h.hoisted.field_eq hc ▸ hc
    obtain ⟨a, x, hf, ha⟩ := finish_eq o u
    rw [hf] at hmem ⊢
    cases k
    case additionalProperties =>
      rcases ha with ⟨rfl, -, -⟩ | ⟨rfl, -⟩
      · rfl
      · cases hmem
    all_goals first | rfl | cases hmem
  rw [h.hoisted.field_eq hc, hfinish, h.kept.field k ht he hone hany]

/-- The children of a schema object that returns are rewritten to themselves, or to what they are hoisted from. -/
theorem Returns.exists_child (h : Returns o ms n n' u) {c : Schema} (hc : c ∈ n.children) :
    ∃ c', o.Rewrites ms c c' ∧ (c' = c ∨ ∃ w, c = .object (hoistedVariant w) ∧ c' = .object w) := by
  have hvariant (v : Union) (hc : c ∈ (n.variants v).getD []) :
      ∃ c', o.Rewrites ms c c' ∧ (c' = c ∨ ∃ w, c = .object (hoistedVariant w) ∧ c' = .object w) := by
    obtain ⟨ws, hws, -, hr⟩ := h.variants v
    rw [hws] at hc
    obtain ⟨w, hw, rfl⟩ := List.mem_map.1 hc
    exact ⟨.object w, hr w hw, .inr ⟨w, rfl, rfl⟩⟩
  obtain ⟨k, hkc⟩ := mem_children.1 hc
  by_cases hone : k = .oneOf
  · subst hone
    exact hvariant .oneOf hkc
  by_cases hany : k = .anyOf
  · subst hany
    exact hvariant .anyOf hkc
  have hself : k.Rel (o.Rewrites ms) (n.field k) (n.field k) := h.field_eq hkc hone hany ▸ h.rel k
  exact ⟨c, hself.of_mem hkc, .inl rfl⟩

theorem Returns.other (h : Returns o ms n n' u) : n'.other = n.other := by
  obtain ⟨_, _, _, _, _, he⟩ := h.hoisted.eq
  rw [he, ← h.kept.other]
  exact other_finish.symm

/-- If nothing was taken out of the values, nothing is to be. -/
theorem values_of_cleanEnum (h : (o.cleanEnum n).enum = n.enum) : o.dropEnumNull = true → n.isNullable = true →
    ∀ values, n.enum = some values → 1 < values.length → .null ∉ values := by
  intro hdrop hnullable values hv hlength hnull
  have hclean : (o.cleanEnum n).enum = some (values.filter (· ≠ .null)) := by
    unfold cleanEnum Node.dropEnumNull
    rw [if_pos hdrop]
    simp only [hv, hnullable, hlength, hnull, and_self, ↓reduceIte, Option.getD_some]
  rw [hclean, hv] at h
  rw [← Option.some.inj h] at hnull
  simpa using (List.mem_filter.1 hnull).2

/-- A variant of which the result is about objects is about objects, or becomes so by variants of its own. -/
theorem isAboutObjects_of_retypes (h : Retypes n m) (hm : m.isAboutObjects = true) :
    n.isAboutObjects = true ∨ n.hasKeyedVariant = true := by
  cases hkeyed : n.hasKeyedVariant with
  | true => exact .inr rfl
  | false =>
    have htypes : m.types = n.types := by rw [h.types, retyped_of_not_keyed hkeyed]
    rw [isAboutObjects, h.keywords, htypes] at hm
    exact .inl hm

/-- The variants of a schema object that returns have the keywords and the type of what they are restructured as. -/
def RetypesVariants (o : Options) (ms : Members Json) : Prop :=
  ∀ w, o.Rewrites ms (.object (hoistedVariant w)) (.object w) → Retypes (hoistedVariant w) w

theorem Returns.hasKeyedVariant (h : Returns o ms n n' u) (hvariants : RetypesVariants o ms) :
    n'.hasKeyedVariant = n.hasKeyedVariant := by
  obtain ⟨ws, hws, hws', hr⟩ := h.unionVariants
  rw [Node.hasKeyedVariant, Node.hasKeyedVariant, hws, hws', List.any_map, List.any_map, Bool.eq_iff_iff,
    List.any_eq_true, List.any_eq_true]
  refine exists_congr fun w => and_congr_right fun hw => ?_
  exact Bool.eq_iff_iff.1 (hvariants w (hr w hw)).keywords

theorem Returns.objects (h : Returns o ms n n' u) (hvariants : RetypesVariants o ms) (hne : n.oneOf.getD [] ≠ []) :
    ∃ w, .object w ∈ n.oneOf.getD [] ∧ (w.isAboutObjects = true ∨ w.hasKeyedVariant = true) := by
  obtain ⟨ws, hws, hws', hr⟩ := h.variants .oneOf
  have hone : n.oneOf.getD [] = ws.map (fun w => .object (hoistedVariant w)) := hws
  have hone' : n'.oneOf.getD [] = ws.map .object := hws'
  have hne' : n'.oneOf.getD [] ≠ [] := by
    rw [hone] at hne
    rw [hone']
    simpa using hne
  obtain ⟨w, hw, habout⟩ := h.kept.objects hne'
  rw [hone'] at hw
  obtain ⟨w', hw, e⟩ := List.mem_map.1 hw
  cases e
  refine ⟨hoistedVariant w, ?_, isAboutObjects_of_retypes (hvariants w (hr w hw)) habout⟩
  rw [hone]
  exact List.mem_map_of_mem hw

/-- A null entry would be rewritten to itself. -/
theorem Returns.pair (h : Returns o ms n n' u) (hd : (Json.obj ms).hasDistinctNames = true)
    (hn : (Schema.object n).Regular) {a b : Schema} (hab : n.anyOf = some [a, b]) :
    a.isNullEntry ≠ .ok true ∧ b.isNullEntry ≠ .ok true := by
  have hentry {s s' : Schema} (hs : s ∈ [a, b]) (hr : o.Rewrites ms s s') (hs' : s'.isNullEntry = .ok false) :
      s.isNullEntry ≠ .ok true := by
    intro hnull
    have hreg : s.Regular :=
      hn.child s (mem_children.2 ⟨.anyOf, by simpa [Keyword.children, field, hab] using hs⟩)
    rw [eq_nullNode_of_isNullEntry hreg hnull] at hr
    rw [hr.nullNode hd] at hs'
    cases isNullEntry_nullNode.symm.trans hs'
  have hpair : Option.Rel (List.Forall₂ (o.Rewrites ms)) n.anyOf n'.anyOf := h.rel .anyOf
  rw [hab] at hpair
  cases hab' : n'.anyOf with
  | none =>
    rw [hab'] at hpair
    cases hpair
  | some l =>
    rw [hab'] at hpair
    cases hpair with
    | some hpair =>
      obtain ⟨a', l, ha, hl, rfl⟩ := List.forall₂_cons_left_iff.1 hpair
      obtain ⟨b', l, hb, hnil, rfl⟩ := List.forall₂_cons_left_iff.1 hl
      cases List.forall₂_nil_left_iff.1 hnil
      obtain ⟨hna, hnb⟩ := h.kept.pair a' b' hab'
      exact ⟨hentry (by simp) ha hna, hentry (by simp) hb hnb⟩

theorem Returns.values (h : Returns o ms n n' u) (hext : n'.extensions = n.extensions) :
    o.dropEnumNull = true → n.isNullable = true → ∀ values, n.enum = some values → 1 < values.length →
      .null ∉ values := by
  have henum : n.enum = n'.enum := h.rel .enum
  have hback : n.enum = (o.cleanEnum n').enum := by
    obtain ⟨_, _, _, _, _, he⟩ := h.hoisted.eq
    have hfinish : (o.finish u).enum = u.enum := field_finish (k := .enum) nofun nofun
    rw [he, ← h.kept.enum, ← hfinish]
  have hvalues := values_of_cleanEnum (hback.symm.trans henum)
  rw [← henum, isNullable, hext] at hvalues
  exact hvalues

/-- A variant that gets a type and no keyword hands its default value over with the type. -/
theorem Returns.default_eq_none (h : Returns o ms n n' u) (hvariants : RetypesVariants o ms)
    (hw : .object w ∈ n.unionVariants) (hkw : w.hasObjectKeywords = false) (hvw : w.hasKeyedVariant = true) :
    w.default = none := by
  obtain ⟨ws, hws, -, hr⟩ := h.unionVariants
  rw [hws] at hw
  obtain ⟨w', hw', e⟩ := List.mem_map.1 hw
  cases e
  have hretypes := hvariants w' (hr w' hw')
  have hkeywords : w'.hasObjectKeywords = false := hretypes.keywords.trans hkw
  have honly : w'.isOnly .object = true := by
    rw [isOnly, hretypes.types, retyped_of_keyed hvw]
    simp
  rw [hoistedVariant_of_isOnly hkeywords honly]
  rfl

/-- A schema object that returns is stable. -/
theorem Returns.stable (h : Returns o ms n n' u) (hd : (Json.obj ms).hasDistinctNames = true)
    (hn : (Schema.object n).Regular) (hext : n'.extensions = n.extensions) (hvariants : RetypesVariants o ms) :
    n.Stable o where
  oneOf := by
    have hone : n.oneOf = u.oneOf := (h.hoisted.variants .oneOf).trans (variants_finish u .oneOf)
    rw [hone]
    exact h.kept.oneOf
  objects := h.objects hvariants
  pair _ _ hab := h.pair hd hn hab
  values := h.values hext
  defaults _ hw hkw hvw := h.default_eq_none hvariants hw hkw hvw

/-- A schema object that returns is restructured as itself, retyped. -/
theorem Returns.retypes (h : Returns o ms n n' u) (hvariants : RetypesVariants o ms) : Retypes n (o.finish u) where
  keywords := by
    refine Bool.eq_iff_iff.2 ⟨fun hm => ?_, fun hm => ?_⟩
    · rw [← hasObjectKeywords_of_rel h.rel]
      exact hasObjectKeywords_of_finish h.kept hm
    · rcases h.hoisted with h | h
      · rwa [← h]
      · rw [h] at hm
        exact hasObjectKeywords_of_hoistedVariant hm
  types := by
    have htypes : n.types = n'.types := h.rel .type
    rw [types_finish, h.kept.types, types_retyped, types_retyped, h.hasKeyedVariant hvariants, htypes]

/-! ## Values that come back -/

theorem not_declares {name : String} (hn : (Schema.object n).Everywhere (Structural o)) (hp : n.properties = []) :
    ¬ n.Declares name := by
  intro h
  induction h with
  | own h =>
    rw [hp] at h
    cases h
  | variant hw _ ih =>
    exact ih (hn.child _ (unionVariants_subset_children hw)) (hn.here.undeclaring _ hw).1

/-- The result of a structural schema object without properties has none either. -/
theorem properties_of_rewrites (hkey : isVendor o.preserveKey = true) (hd : (Json.obj ms).hasDistinctNames = true)
    (hr : o.Rewrites ms (.object n) (.object m)) (hn : (Schema.object n).Everywhere (Structural o))
    (hp : n.properties = []) : m.properties = [] := by
  obtain ⟨x, hx, x', hr, hdx, hdx'⟩ := hr
  obtain ⟨m', hm', hiff⟩ :=
    hr.exists_properties hkey (Json.hasDistinctNames_child hd hx) (Schema.decode_object hdx)
  cases hm'.symm.trans (Schema.decode_object hdx')
  refine List.eq_nil_iff_forall_not_mem.2 fun p hmem => not_declares hn hp ((hiff p.1).1 ?_)
  exact List.mem_map_of_mem hmem

/-- A structural schema object that the result is hoisted to returns. -/
theorem returns_of_isHoistedFrom (hkey : isVendor o.preserveKey = true) (hd : (Json.obj ms).hasDistinctNames = true)
    (hn : (Schema.object n).Everywhere (Structural o))
    (hrel : ∀ k : Keyword, k.Rel (o.Rewrites ms) (n.field k) (n'.field k)) (hu : o.SettlesUnions n' u)
    (h : n.IsHoistedFrom (o.finish u)) : Returns o ms n n' u := by
  have hvariants (v : Union) : n.variants v = u.variants v := (h.variants v).trans (variants_finish u v)
  refine ⟨hrel, kept_of_settlesUnions hu ?_ (fun e he hany => ?_) fun w' hw' => ?_, h⟩
  · have hone : u.oneOf = n.oneOf := (hvariants .oneOf).symm
    rw [hone]
    exact (forall₂_variants hrel .oneOf).length_eq
  · have hanyOf : n.anyOf = e.anyOf := (hvariants .anyOf).trans hany
    obtain ⟨s, hs, hr⟩ := exists_of_mem_right (forall₂_variants hrel .anyOf) he.mem
    rcases hr.cases with ⟨b, -, hb⟩ | ⟨_, _, _, w, _, _, _, _, rfl, _⟩
    · cases hb
    · apply not_mem_of_rewrites hkey hd hr
      rw [← hanyOf]
      exact hs
  · obtain ⟨s, hs, hr⟩ := exists_of_mem_right (forall₂_unionVariants hrel) hw'
    rcases hr.cases with ⟨b, -, hb⟩ | ⟨_, _, _, w, _, _, _, _, rfl, _⟩
    · cases hb
    · exact properties_of_rewrites hkey hd hr (hn.child _ (unionVariants_subset_children hs))
        (hn.here.undeclaring w hs).1

/-- A value comes back: as it is, or as a schema object that hoisting takes to the one before. -/
def ComesBack (v r : Json) : Prop :=
  r = v ∨ ∃ n m, Node.decode v = .ok n ∧ Node.decode r = .ok m ∧ n.IsHoistedFrom m

theorem ComesBack.isHoistedFrom {v r : Json} (h : ComesBack v r) (hn : Node.decode v = .ok n)
    (hm : Node.decode r = .ok m) : n.IsHoistedFrom m := by
  rcases h with rfl | ⟨_, _, hn', hm', h⟩
  · cases hn.symm.trans hm
    exact .inl rfl
  · cases hn.symm.trans hn'
    cases hm.symm.trans hm'
    exact h

/-- A value is stable, and if it is a schema object then the result is that, retyped. -/
def StableThrough (o : Options) (v r : Json) : Prop :=
  v.Throughout (Stable o) ∧ ∀ n m, Node.decode v = .ok n → Node.decode r = .ok m → Retypes n m

/-- An object that does not read as a schema comes back as it is, and so do the values in its slots. -/
theorem stableThrough_of_unread {ms' : Members Json} (hunread : ∀ n, Node.decode (.obj ms) ≠ .ok n)
    (hslots : Members.SlotsMap o.Restructures ms ms') (hback : ComesBack (.obj ms) (.obj ms'))
    (hbelow : ∀ c ∈ (Json.obj ms).children, ∀ r, o.Restructures c r → ComesBack c r → o.StableThrough c r) :
    o.StableThrough (.obj ms) (.obj ms') := by
  refine ⟨Json.throughout_of_children (fun n hn => absurd hn (hunread n)) fun c hc => ?_,
    fun n _ hn => absurd hn (hunread n)⟩
  have hsame : ms' = ms := by
    rcases hback with hsame | ⟨n, -, hn, -⟩
    · exact Json.obj.inj hsame
    · exact absurd hn (hunread n)
  have hself := hslots.children
  rw [hsame, List.forall₂_same] at hself
  exact (hbelow c hc c (hself c hc) (.inl rfl)).1

/-- A schema that is rewritten to itself, or to what it is hoisted from, is stable if the value below is. -/
theorem everywhere_of_rewrites
    (hbelow : ∀ c ∈ (Json.obj ms).children, ∀ r, o.Restructures c r → ComesBack c r → o.StableThrough c r)
    {s s' : Schema} (hr : o.Rewrites ms s s') (hs : s' = s ∨ ∃ w, s = .object (hoistedVariant w) ∧ s' = .object w) :
    s.Everywhere (Node.Throughout (Stable o)) ∧ ∀ w w', s = .object w → s' = .object w' → Retypes w w' := by
  rcases hr.cases with ⟨b, rfl, rfl⟩ | ⟨x, hx, x', w, w', hxr, hw, hw', rfl, rfl⟩
  · exact ⟨.bool b, fun w _ e => by cases e⟩
  · have hcomes : ComesBack x x' := by
      refine .inr ⟨w, w', hw, hw', ?_⟩
      rcases hs with e | ⟨w'', e, e'⟩
      · cases e
        exact .inl rfl
      · cases e
        cases e'
        exact .inr rfl
    obtain ⟨hstable, hretypes⟩ := hbelow x hx x' hxr hcomes
    refine ⟨everywhere_of_throughout (Schema.decode_of_node hw) hstable, fun v v' e e' => ?_⟩
    cases e
    cases e'
    exact hretypes w w' hw hw'

/-- An object that reads as a schema object which returns is stable if the values in its slots are. -/
theorem stableThrough_of_returns {ms' : Members Json} {r : Json} (hd : (Json.obj ms).hasDistinctNames = true)
    (hn : Node.decode (.obj ms) = .ok n) (hslots : Members.SlotsMap o.Restructures ms ms')
    (hn' : Node.decode (.obj ms') = .ok n') (h : Returns o ms n n' u) (hr : Node.decode r = .ok (o.finish u))
    (hbelow : ∀ c ∈ (Json.obj ms).children, ∀ r, o.Restructures c r → ComesBack c r → o.StableThrough c r) :
    o.StableThrough (.obj ms) r := by
  have hvariants : RetypesVariants o ms := fun w hw =>
    (everywhere_of_rewrites hbelow hw (.inr ⟨w, rfl, rfl⟩)).2 _ _ rfl rfl
  have hstable : n.Stable o :=
    h.stable hd (regular_of_decode hd hn) (extensions_of_slotsMap hslots hn hn') hvariants
  refine ⟨throughout_of_decode hd (Schema.decode_of_node hn) (.object ⟨hstable, fun x hx => ?_⟩ fun c hc => ?_), ?_⟩
  · have hself := (other_of_slotsMap hslots hn hn').children
    rw [h.other, List.forall₂_same] at hself
    exact (hbelow x (mem_children_of_other hn hx) x (hself x hx) (.inl rfl)).1
  · obtain ⟨c', hc', hs⟩ := h.exists_child hc
    exact (everywhere_of_rewrites hbelow hc' hs).1
  · intro n₁ m₁ hn₁ hm₁
    cases hn.symm.trans hn₁
    cases hr.symm.trans hm₁
    exact h.retypes hvariants

/-- If a structural value comes back, then every schema object in it is stable. -/
theorem Restructures.stableThrough {v r : Json} (hkey : isVendor o.preserveKey = true)
    (hd : v.hasDistinctNames = true) (hv : v.Throughout (Structural o)) (h : o.Restructures v r)
    (hback : ComesBack v r) : o.StableThrough v r := by
  induction v using Json.induction generalizing r with
  | h v ih =>
    cases v with
    | obj ms =>
      have hbelow : ∀ c ∈ (Json.obj ms).children, ∀ r, o.Restructures c r → ComesBack c r → o.StableThrough c r :=
        fun c hc _ hr hcr => ih c hc (Json.hasDistinctNames_child hd hc) (hv.child c hc) hr hcr
      obtain ⟨ms', hslots, hms, hr⟩ := h.of_obj hkey hd
      rcases hr with ⟨e, he, rfl⟩ | ⟨path, n', m, hn', hm, -, hdec⟩
      · have hunread : ∀ n, Node.decode (.obj ms) ≠ .ok n := by
          intro n hn
          obtain ⟨n', hn', -⟩ := exists_decode_of_slots hslots hn
          cases he.symm.trans hn'
        exact stableThrough_of_unread hunread hslots hback hbelow
      · obtain ⟨n, hn⟩ := exists_decode_schema_iff.1 (h.decode_iff.2 ⟨_, Schema.decode_of_node hdec⟩)
        obtain ⟨n'', hn'', hrel⟩ := exists_decode_of_slots hslots hn
        cases hn''.symm.trans hn'
        obtain ⟨u, hu, rfl⟩ := settle_eq_ok (regular_of_decode hms hn') hm
        have hall : (Schema.object n).Everywhere (Structural o) :=
          (everywhere_of_throughout (Schema.decode_of_node hn) hv).imp fun _ h => h.1
        have hreturns : Returns o ms n n' u :=
          returns_of_isHoistedFrom hkey hd hall hrel hu (hback.isHoistedFrom hn hdec)
        exact stableThrough_of_returns hd hn hslots hn' hreturns hdec hbelow
    | _ =>
      refine ⟨Json.throughout_of_not_obj nofun, fun n _ hn => ?_⟩
      obtain ⟨_, e⟩ := exists_obj_of_decode hn
      cases e

/-! ## Results -/

/-- A result is restructured as itself exactly if every schema object at a schema position of it is stable. -/
theorem restructure_again_iff {v r : Json} (hkey : isVendor o.preserveKey = true) (hd : v.hasDistinctNames = true)
    (h : (o.restructure v).outcome = .ok r) :
    (o.restructure r).outcome = .ok r ↔ ∀ w, r.Position w → ∀ n, Node.decode w = .ok n → n.Stable o := by
  have hr : o.Restructures v r := ⟨[], h⟩
  constructor
  · intro hself
    have hagain : o.Restructures r r := ⟨[], hself⟩
    exact (hagain.stableThrough hkey (hr.hasDistinctNames hd) (hr.structural hkey hd) (.inl rfl)).1
  · intro hstable
    exact hr.yields_of_stable hkey hd hstable []

/-- A variant gets a type from the variants in it, and loses that to its parent. -/
theorem restructure_again_of_nested_variants :
    (Options.restructure {}
        (.obj [("anyOf", .arr [.obj [("anyOf", .arr [.obj [("required", .arr [.str "a"])]])]])])).outcome =
        .ok (.obj [("anyOf", .arr [.obj [("anyOf", .arr [.obj [("required", .arr [.str "a"])]])]])]) ↔
      ∀ w, Json.Position (.obj [("anyOf", .arr [.obj [("anyOf", .arr [.obj [("required", .arr [.str "a"])]])]])]) w →
        ∀ n, Node.decode w = .ok n → n.Stable {} :=
  restructure_again_iff
    (v := .obj [("anyOf", .arr [.obj [("anyOf",
      .arr [.obj [("properties", .obj []), ("required", .arr [.str "a"])]])]])])
    rfl rfl rfl

/-- A variant that is about objects by its type only loses that, and is no variant of a tagged union any more. -/
theorem restructure_not_idempotent :
    ¬ ∀ (o : Options) (v r : Json), isVendor o.preserveKey = true → v.hasDistinctNames = true →
      (o.restructure v).outcome = .ok r → (o.restructure r).outcome = .ok r := by
  intro h
  have hself := h {} (.obj [("oneOf", .arr [.obj [("type", .str "object")]])]) (.obj [("oneOf", .arr [.obj []])])
    rfl rfl rfl
  have hfails : (Options.restructure {} (.obj [("oneOf", .arr [.obj []])])).outcome =
      .error (.violation (.missingType (.obj [])) ["oneOf", "0"]) := rfl
  cases hfails.symm.trans hself

end Options

end KubeSchema
