import KubeSchema.Proofs.Structural

/-!
# Results are tidy

A schema object one of whose variants has an object keyword becomes about objects when it is settled
(`Node.hasKeyedVariant`, `Node.IsTyped`). In a result, every schema object is of that type where it should be, unless
it is a variant: from those the type has gone again (`Node.Loose`). A schema object of which this is true is tidy
(`Node.Tidy`).

* `Restructures.inherits_tidy`: results are tidy, and of the right type at the root.
-/

namespace KubeSchema

/-! ## Types that come from variants -/

namespace Node

/-- Whether a variant of the unions has an object keyword. -/
def hasKeyedVariant (n : ObjectSchema) : Bool :=
  n.unionVariants.any fun | .bool _ => false | .object w => w.hasObjectKeywords

/-- A schema object with such a variant is about objects. -/
def IsTyped (n : ObjectSchema) : Prop := n.hasKeyedVariant = true → n.types = some (.one .object)

/-- A variant without the type that it had or would get. -/
structure Loose (w : ObjectSchema) : Prop where
  types : w.types ≠ some (.one .object)
  untyped : (w.hasObjectKeywords = true ∨ w.hasKeyedVariant = true) → w.types = none ∧ w.description = none

/-- A structural schema object, its variants loose and its other children of the right type. -/
structure Tidy (o : Options) (n : ObjectSchema) : Prop extends Structural o n where
  typed : ∀ k : Keyword, k ≠ .oneOf → k ≠ .anyOf → ∀ c, .object c ∈ k.children (n.field k) → c.IsTyped
  loose : ∀ w, .object w ∈ n.unionVariants → w.Loose

variable {n m w : ObjectSchema} {ws : List ObjectSchema} {u : Union}

theorem hasKeyedVariant_iff :
    n.hasKeyedVariant = true ↔ ∃ w, .object w ∈ n.unionVariants ∧ w.hasObjectKeywords = true := by
  rw [hasKeyedVariant, List.any_eq_true]
  constructor
  · rintro ⟨s, hs, h⟩
    cases s with
    | bool b => cases h
    | object w => exact ⟨w, hs, h⟩
  · rintro ⟨w, hw, h⟩
    exact ⟨.object w, hw, h⟩

theorem unionVariants_of_getD (hone : m.oneOf.getD [] = n.oneOf.getD []) (hany : m.anyOf.getD [] = n.anyOf.getD []) :
    m.unionVariants = n.unionVariants := by
  rw [unionVariants, unionVariants, hone, hany]

theorem IsTyped.of_variants (h : n.IsTyped) (hv : m.unionVariants = n.unionVariants) (ht : m.types = n.types) :
    m.IsTyped := by
  intro hm
  rw [ht]
  apply h
  rwa [hasKeyedVariant, ← hv]

/-- A variant that had its type before is loose afterwards. -/
theorem loose_hoistedVariant (h : w.IsTyped) : (hoistedVariant w).Loose := by
  cases hk : w.hasObjectKeywords with
  | true =>
    rw [hoistedVariant_of_hasObjectKeywords hk]
    exact ⟨nofun, fun _ => ⟨rfl, rfl⟩⟩
  | false =>
    cases ht : w.isOnly .object with
    | true =>
      rw [hoistedVariant_of_isOnly hk ht]
      exact ⟨nofun, fun _ => ⟨rfl, rfl⟩⟩
    | false =>
      rw [hoistedVariant_self hk ht]
      have htypes : w.types ≠ some (.one .object) := by simpa [isOnly] using ht
      refine ⟨htypes, ?_⟩
      rintro (hw | hw)
      · cases hk.symm.trans hw
      · exact absurd (h hw) htypes

theorem unionVariants_hoistedVariant (w : ObjectSchema) : (hoistedVariant w).unionVariants = w.unionVariants := by
  obtain ⟨_, _, _, _, _, h⟩ := hoistedVariant_eq w
  rw [h]
  rfl

theorem hasObjectKeywords_of_hoistedVariant (h : (hoistedVariant w).hasObjectKeywords = true) :
    w.hasObjectKeywords = true := by
  unfold hoistedVariant at h
  split at h
  · assumption
  · split at h <;> exact h

theorem keptByHoisting_tidy (o : Options) : Options.KeptByHoisting (Tidy o) where
  variant w hw := by
    refine ⟨(keptByHoisting_structural o).variant w hw.toStructural, fun k hone hany c hc => ?_, ?_⟩
    · exact hw.typed k hone hany c (mem_children_hoistedVariant hc)
    · rw [unionVariants_hoistedVariant]
      exact hw.loose
  tag n text hn := by
    refine ⟨(keptByHoisting_structural o).tag n text hn.toStructural, fun k hone hany c hc => ?_, hn.loose⟩
    apply hn.typed k hone hany c
    cases k <;> exact hc

theorem isTyped_describedTag {description : Option String} {s : Schema}
    (hs : ∀ c, s = .object c → c.IsTyped) {c : ObjectSchema} (h : describedTag description s = .object c) :
    c.IsTyped := by
  cases s with
  | bool b => cases h
  | object tag =>
    have htag : tag.IsTyped := hs tag rfl
    cases description <;> cases h
    · exact htag
    · exact htag.of_variants rfl rfl

end Node

/-! ## Settling -/

namespace Options

open Node

variable {o : Options} {path : Pointer} {n m u w : ObjectSchema} {k : Keyword}

theorem unionVariants_finish : (o.finish n).unionVariants = n.unionVariants :=
  unionVariants_of_getD (by rw [show (o.finish n).oneOf = n.oneOf from field_finish (k := .oneOf) nofun nofun])
    (by rw [show (o.finish n).anyOf = n.anyOf from field_finish (k := .anyOf) nofun nofun])

/-- A child that settling leaves below no union is of the right type, if all children were. -/
theorem isTyped_of_passed (hc : ∀ c ∈ n.children, c.Everywhere (Tidy o) ∧ c.AtRoot IsTyped) (hone : k ≠ .oneOf)
    (hany : k ≠ .anyOf) (h : n.Passed k (.object w)) : w.IsTyped := by
  have hvariant {v : ObjectSchema} (hv : .object v ∈ n.unionVariants) : v.Tidy o :=
    (hc _ (unionVariants_subset_children hv)).1.here
  generalize hs : Schema.object w = s at h
  cases h with
  | own _ _ h =>
    subst hs
    exact (hc _ (mem_children.2 ⟨k, h⟩)).2
  | variant v hv => cases v <;> contradiction
  | @tag v q description hv hq =>
    refine isTyped_describedTag (fun c hqc => ?_) hs.symm
    refine (hvariant hv).typed .properties nofun nofun c ?_
    rw [← hqc]
    exact List.mem_map_of_mem hq
  | entry hv h =>
    subst hs
    exact (hvariant hv).typed k hone hany w h

/-- The variants that settling leaves are loose. -/
theorem loose_of_settlesUnions (hc : ∀ c ∈ n.children, c.Everywhere (Tidy o) ∧ c.AtRoot IsTyped)
    (h : o.SettlesUnions n u) (hw : .object w ∈ u.unionVariants) : w.Loose := by
  have hvariant {ws : List ObjectSchema} {v : Union} (hws : (n.variants v).getD [] = ws.map .object)
      (hw : .object w ∈ ws.map (fun w => Schema.object (hoistedVariant w))) : w.Loose := by
    obtain ⟨w', hw', e⟩ := List.mem_map.1 hw
    cases e
    exact loose_hoistedVariant (hc _ (unionVariants_subset_children (mem_unionVariants hws hw'))).2
  rcases unions_of_settlesUnions h with ⟨hone, hany⟩ | ⟨e, he, -, hone, hany⟩ | ⟨ws, hws, -, hany, hone⟩ |
    ⟨ws, hws, -, hone, hany⟩
  · rw [unionVariants, hone, hany] at hw
    cases hw
  · rw [unionVariants_of_getD hone (by rw [hany])] at hw
    exact (hc _ (unionVariants_subset_children (List.mem_append_right _ he.mem))).1.here.loose w hw
  · rw [unionVariants, hone, hany, List.append_nil] at hw
    exact hvariant (v := .oneOf) hws (List.mem_filter.1 hw).1
  · rw [unionVariants, hone, hany, List.nil_append] at hw
    exact hvariant (v := .anyOf) hws hw

/-- A settled schema object is of the right type. -/
theorem isTyped_of_settlesUnions (hc : ∀ c ∈ n.children, c.AtRoot IsTyped) (h : o.SettlesUnions n u) : u.IsTyped := by
  intro hkeyed
  obtain ⟨w, hw, hk⟩ := hasKeyedVariant_iff.1 hkeyed
  have hvariant {ws : List ObjectSchema} (hw : .object w ∈ ws.map (fun w => Schema.object (hoistedVariant w))) :
      ∃ w' ∈ ws, w'.hasObjectKeywords = true := by
    obtain ⟨w', hw', e⟩ := List.mem_map.1 hw
    cases e
    exact ⟨w', hw', hasObjectKeywords_of_hoistedVariant hk⟩
  rcases unions_of_settlesUnions h with ⟨hone, hany⟩ | ⟨e, he, ht, hone, hany⟩ | ⟨ws, -, ht, hany, hone⟩ |
    ⟨ws, -, ht, hone, hany⟩
  · rw [unionVariants, hone, hany] at hw
    cases hw
  · have hentry : e.IsTyped := hc _ (unionVariants_subset_children (List.mem_append_right _ he.mem))
    rw [unionVariants_of_getD hone (by rw [hany])] at hw
    rw [ht]
    exact hentry (hasKeyedVariant_iff.2 ⟨w, hw, hk⟩)
  · rw [unionVariants, hone, hany, List.append_nil] at hw
    obtain ⟨w', hw', hk'⟩ := hvariant (List.mem_filter.1 hw).1
    exact ht w' hw' hk'
  · rw [unionVariants, hone, hany, List.nil_append] at hw
    obtain ⟨w', hw', hk'⟩ := hvariant hw
    exact ht w' hw' hk'

/-- Settling gives a tidy schema object of the right type, if that goes for the children. -/
theorem tidy_of_settle (hn : (Schema.object n).Regular)
    (hc : ∀ c ∈ n.children, c.Everywhere (Tidy o) ∧ c.AtRoot IsTyped) (h : (o.settle path n).outcome = .ok m) :
    m.Tidy o ∧ m.IsTyped := by
  obtain ⟨u, hu, rfl⟩ := settle_eq_ok hn h
  have hstructural : u.StructuralUnions :=
    structuralUnions_of_settlesUnions (fun c hm => (hc c hm).1.imp (fun _ h => h.toStructural)) hu
  refine ⟨⟨structural_finish hstructural, fun k hone hany c hm => ?_, fun w hw => ?_⟩, ?_⟩
  · exact isTyped_of_passed hc hone hany (passed_of_settlesUnions hu (passed_of_finish hm))
  · rw [unionVariants_finish] at hw
    exact loose_of_settlesUnions hc hu hw
  · exact (isTyped_of_settlesUnions (fun c hm => (hc c hm).2) hu).of_variants unionVariants_finish types_finish

/-- Results are tidy, and of the right type at the root. -/
theorem Restructures.inherits_tidy {G : Json → Prop} (hkey : isVendor o.preserveKey = true)
    (hG : Inherited (Tidy o) IsTyped G) {v r : Json} (hd : v.hasDistinctNames = true) (h : o.Restructures v r) :
    G r ∧ ∀ m, Node.decode r = .ok m → (Schema.object m).Everywhere (Node.Both (Tidy o) G) ∧ m.IsTyped :=
  h.inherits (keptByHoisting_tidy o) hkey (fun _ _ _ hn hc hm => tidy_of_settle hn hc hm) hG hd

end Options

end KubeSchema
