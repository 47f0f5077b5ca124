import KubeSchema.Proofs.Throughout

/-!
# Results are structural

What a structural schema may not state (`Node.Structural`), and that no schema position of a result states it.

* `restructure_structural`: every schema object of a result is structural.
-/

namespace KubeSchema

/-! ## Structural schema objects -/

namespace Node

/-- The unions are structural: at most one has variants, which are schema objects that declare no properties. -/
structure StructuralUnions (n : ObjectSchema) : Prop where
  exclusive : n.hasConflictingUnions = false
  objects : ∀ b, .bool b ∉ n.unionVariants
  undeclaring : ∀ w, .object w ∈ n.unionVariants → w.properties = [] ∧ w.additionalProperties = none
  enumless : ∀ w, .object w ∈ n.oneOf.getD [] → w.enum = none

/-- A schema object is structural: so are its unions, no properties stand beside `additionalProperties: true`, and
there is no `uniqueItems` if that is taken out. -/
structure Structural (o : Options) (n : ObjectSchema) : Prop extends StructuralUnions n where
  closed : n.properties = [] ∨ n.additionalProperties ≠ some (.bool true)
  unordered : o.dropUniqueItems = true → n.uniqueItems = none

variable {n m : ObjectSchema}

/-- Only the variants matter. -/
theorem StructuralUnions.of_variants (h : n.StructuralUnions) (hone : m.oneOf.getD [] = n.oneOf.getD [])
    (hany : m.anyOf.getD [] = n.anyOf.getD []) : m.StructuralUnions := by
  have hv : m.unionVariants = n.unionVariants := by rw [unionVariants, unionVariants, hone, hany]
  refine ⟨?_, hv ▸ h.objects, hv ▸ h.undeclaring, hone ▸ h.enumless⟩
  have he := h.exclusive
  simp only [hasConflictingUnions, hasVariants, variants] at he ⊢
  rw [hone, hany, he]

theorem structuralUnions_of_nil (hone : n.oneOf.getD [] = []) (hany : n.anyOf.getD [] = []) :
    n.StructuralUnions := by
  have hv : n.unionVariants = [] := by rw [unionVariants, hone, hany, List.append_nil]
  refine ⟨by simp [hasConflictingUnions, hasVariants, variants, hone], fun b hb => ?_, fun w hw => ?_, fun w hw => ?_⟩
  · rw [hv] at hb; cases hb
  · rw [hv] at hw; cases hw
  · rw [hone] at hw; cases hw

/-- Hoisted variants in one union are structural, in `oneOf` without enums. -/
theorem structuralUnions_of_hoisted (h : n.oneOf.getD [] = [] ∨ n.anyOf.getD [] = [])
    (hv : ∀ s ∈ n.unionVariants, ∃ w, s = .object (hoistedVariant w))
    (he : ∀ s ∈ n.oneOf.getD [], hasEnum s = false) : n.StructuralUnions := by
  refine ⟨?_, fun b hb => ?_, fun w hw => ?_, fun w hw => ?_⟩
  · rcases h with h | h <;> simp [hasConflictingUnions, hasVariants, variants, h]
  · obtain ⟨w, hw⟩ := hv _ hb
    cases hw
  · obtain ⟨w', hw'⟩ := hv _ hw
    cases hw'
    exact ⟨properties_hoistedVariant w', additionalProperties_hoistedVariant w'⟩
  · have hn := he _ hw
    simpa [hasEnum] using hn

theorem keptByHoisting_structural (o : Options) : Options.KeptByHoisting (Structural o) where
  variant w hw := by
    obtain ⟨_, _, _, _, _, h⟩ := hoistedVariant_eq w
    refine ⟨hw.toStructuralUnions.of_variants ?_ ?_, .inl (properties_hoistedVariant w), fun ho => ?_⟩ <;> rw [h]
    exact hw.unordered ho
  tag n text hn := ⟨hn.toStructuralUnions.of_variants rfl rfl, hn.closed, hn.unordered⟩

end Node

/-! ## Settling -/

namespace Options

open Node

variable {o : Options} {path : Pointer} {n m u : ObjectSchema}

theorem structuralUnions_of_settlesUnions (hc : ∀ c ∈ n.children, c.Everywhere (Structural o))
    (h : o.SettlesUnions n u) : u.StructuralUnions := by
  rcases unions_of_settlesUnions h with ⟨hone, hany⟩ | ⟨e, he, -, hone, hany⟩ |
    ⟨ws, -, -, hany, hone⟩ | ⟨ws, -, -, hone, hany⟩
  · exact structuralUnions_of_nil hone hany
  · have hentry : e.Structural o := (hc _ (unionVariants_subset_children (List.mem_append_right _ he.mem))).here
    exact hentry.toStructuralUnions.of_variants hone (by rw [hany])
  · refine structuralUnions_of_hoisted (.inr hany) (fun s hs => ?_) (fun s hs => ?_)
    · rw [unionVariants, hone, hany, List.append_nil] at hs
      obtain ⟨w, -, rfl⟩ := List.mem_map.1 (List.mem_filter.1 hs).1
      exact ⟨w, rfl⟩
    · rw [hone] at hs
      simpa using (List.mem_filter.1 hs).2
  · refine structuralUnions_of_hoisted (.inl hone) (fun s hs => ?_) (fun s hs => by rw [hone] at hs; cases hs)
    rw [unionVariants, hone, hany, List.nil_append] at hs
    obtain ⟨w, -, rfl⟩ := List.mem_map.1 hs
    exact ⟨w, rfl⟩

theorem structural_finish (hu : u.StructuralUnions) : (o.finish u).Structural o := by
  obtain ⟨a, x, h, hx⟩ := finish_eq o u
  rw [h]
  refine ⟨hu.of_variants rfl rfl, ?_, fun ho => if_pos ho⟩
  rcases hx with ⟨rfl, -, hx⟩ | ⟨rfl, -⟩
  · exact hx
  · exact .inr nofun

theorem Restructures.structural {v r : Json} (hkey : isVendor o.preserveKey = true) (hd : v.hasDistinctNames = true)
    (h : o.Restructures v r) : r.Throughout (Structural o) := by
  refine h.throughout (keptByHoisting_structural o) hkey (fun path n m hn hc hm => ?_) hd
  obtain ⟨u, hu, rfl⟩ := settle_eq_ok hn hm
  exact structural_finish (structuralUnions_of_settlesUnions hc hu)

/-- Every schema object at a schema position of a result is structural. -/
theorem restructure_structural {v r : Json} (hkey : isVendor o.preserveKey = true) (hd : v.hasDistinctNames = true)
    (h : (o.restructure v).outcome = .ok r) {w : Json} (hw : r.Position w) {n : ObjectSchema}
    (hn : Node.decode w = .ok n) : n.Structural o :=
  Restructures.structural hkey hd ⟨[], h⟩ w hw n hn

/-- A tagged variant has handed its property to the parent. -/
theorem structural_of_tagged_variant :
    Node.Structural {} ({
      types := some (.one .object)
      oneOf := some [.object { required := .ofList ["a"] }]
      properties := [("a", .object {})] } : ObjectSchema) :=
  restructure_structural
    (v := .obj [("oneOf", .arr [.obj [("type", .str "object"), ("properties", .obj [("a", .obj [])]),
      ("required", .arr [.str "a"])]])])
    (r := .obj [("type", .str "object"), ("oneOf", .arr [.obj [("required", .arr [.str "a"])]]),
      ("properties", .obj [("a", .obj [])])])
    rfl rfl rfl (.root _) rfl

end Options

end KubeSchema
