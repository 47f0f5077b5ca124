import KubeSchema.Proofs.Settle.Children
import KubeSchema.Proofs.Union.Hoistable

/-!
# Settling that succeeds

A schema object whose unions have nothing to hand over (`Node.Drained`) is settled: no check that settling makes can
fail.

* `exists_settle`: a drained schema object is settled, in one of the four ways.
-/

namespace KubeSchema

namespace Node

/-- The unions have nothing to hand over: at most one has variants, which are schema objects without properties, none
of those in `oneOf` an enum but one of them about objects; and no pair in `anyOf` is an optional. -/
structure Drained (n : ObjectSchema) : Prop where
  exclusive : n.hasConflictingUnions = false
  variants : ∀ s ∈ n.unionVariants, ∃ w : ObjectSchema, s = .object w ∧ w.properties = []
  enumless : ∀ s ∈ n.oneOf.getD [], hasEnum s = false
  objects : n.oneOf.getD [] = [] ∨ (n.oneOf.getD []).any isObjectVariant = true
  pair : ∀ a b, n.anyOf = some [a, b] → a.isNullEntry = .ok false ∧ b.isNullEntry = .ok false

variable {path : Pointer} {n : ObjectSchema}

theorem hoistEnumVariants_of_objects
    (h : n.oneOf.getD [] = [] ∨ (n.oneOf.getD []).any isObjectVariant = true) :
    hoistEnumVariants path n = pure none := by
  unfold hoistEnumVariants
  split
  · rfl
  · next variant variants hv =>
    rw [hv] at h
    have hany : (variant :: variants).any isObjectVariant = true := h.resolve_left nofun
    rw [if_pos hany]

theorem hoistOptional_of_pair
    (h : ∀ a b, n.anyOf = some [a, b] → a.isNullEntry = .ok false ∧ b.isNullEntry = .ok false) :
    (hoistOptional path n).outcome = .ok none := by
  unfold hoistOptional
  split
  · next a b hab =>
    obtain ⟨ha, hb⟩ := h a b hab
    simp only [Traced.bind_eq_ok, Run.encoded_eq_ok]
    exact ⟨false, ha, false, hb, rfl⟩
  · rfl

/-- Variants none of which is a boolean schema are schema objects. -/
theorem exists_objects {vs : List Schema} (h : ∀ b, .bool b ∉ vs) : ∃ ws : List ObjectSchema, vs = ws.map .object := by
  induction vs with
  | nil => exact ⟨[], rfl⟩
  | cons s vs ih =>
    obtain ⟨ws, rfl⟩ := ih fun b hb => h b (List.mem_cons_of_mem _ hb)
    cases s with
    | bool b => exact absurd List.mem_cons_self (h b)
    | object w => exact ⟨w :: ws, rfl⟩

theorem exists_hoistProperties (u : Union) (path : Pointer) (hex : n.hasConflictingUnions = false)
    (hvs : ∀ s ∈ (n.variants u).getD [], ∃ w : ObjectSchema, s = .object w ∧ w.properties = []) :
    ∃ r, (hoistProperties u path n).outcome = .ok r := by
  obtain ⟨ws, hws⟩ := exists_objects fun b hb => by
    obtain ⟨w, hw, -⟩ := hvs _ hb
    cases hw
  have hundeclaring : ∀ w ∈ ws, w.properties = [] := by
    intro w hw
    obtain ⟨w', hw', hp⟩ := hvs (.object w) (hws ▸ List.mem_map_of_mem hw)
    cases hw'
    exact hp
  exact (exists_hoistProperties_iff hws).2 ⟨hex, hoistable_of_undeclaring hundeclaring⟩

theorem hoistEnumValues_of_enumless (h : ∀ s ∈ n.oneOf.getD [], hasEnum s = false) :
    hoistEnumValues path n = pure none := by
  unfold hoistEnumValues
  have hany : (n.oneOf.getD []).any hasEnum = false := List.any_eq_false.2 fun s hs => by simp [h s hs]
  simp [hany]

theorem hasEnum_hoistedVariant (w : ObjectSchema) : hasEnum (.object (hoistedVariant w)) = hasEnum (.object w) := by
  obtain ⟨_, _, _, _, _, h⟩ := hoistedVariant_eq w
  rw [h]
  rfl

end Node

namespace Options

open Node

variable {o : Options} {path : Pointer} {n : ObjectSchema}

theorem exists_hoistUnions (path : Pointer) (h : n.Drained) : ∃ u, (hoistUnions path n).outcome = .ok u := by
  have hone : ∀ s ∈ (n.variants .oneOf).getD [], ∃ w : ObjectSchema, s = .object w ∧ w.properties = [] :=
    fun s hs => h.variants s (List.mem_append_left _ hs)
  have hany : ∀ s ∈ (n.variants .anyOf).getD [], ∃ w : ObjectSchema, s = .object w ∧ w.properties = [] :=
    fun s hs => h.variants s (List.mem_append_right _ hs)
  obtain ⟨r, hr⟩ := exists_hoistProperties .oneOf path h.exclusive hone
  obtain ⟨ws, hws, hhoisted, -⟩ := hoistProperties_eq_ok hr
  have hvariants := variants_hoisted hws
  have henums : ∀ s ∈ (n.hoisted .oneOf ws).oneOf.getD [], hasEnum s = false := by
    intro s hs
    have hs : s ∈ ((n.hoisted .oneOf ws).variants .oneOf).getD [] := hs
    rw [hvariants] at hs
    obtain ⟨w, hw, rfl⟩ := List.mem_map.1 hs
    rw [hasEnum_hoistedVariant]
    exact h.enumless _ (by rw [show n.oneOf.getD [] = ws.map .object from hws]; exact List.mem_map_of_mem hw)
  have hex : (n.hoisted .oneOf ws).dropEmptyOneOf.hasConflictingUnions = false := by
    obtain ⟨l, hl, hd, -⟩ := dropEmptyOneOf_eq (n.hoisted .oneOf ws)
    have hd : l.getD [] = ws.map (fun w => .object (hoistedVariant w)) := hd.trans hvariants
    have hexclusive := h.exclusive
    simp only [hasConflictingUnions, hasVariants, hws] at hexclusive
    rw [hl]
    simp only [hasConflictingUnions, hasVariants, variants, hd]
    cases ws with
    | nil => rfl
    | cons w ws => exact hexclusive
  obtain ⟨r', hr'⟩ := exists_hoistProperties .anyOf path hex
    (by rw [variants, anyOf_dropEmptyOneOf]; exact hany)
  have hvalues : ((n.hoisted .oneOf ws).hoistEnumValues path).outcome = .ok none := by
    rw [hoistEnumValues_of_enumless henums]
    rfl
  apply Traced.exists_bind hr
  rw [hhoisted]
  exact Traced.exists_bind hvalues (Traced.exists_bind hr' ⟨_, rfl⟩)

theorem drained_cleanEnum (h : n.Drained) : (o.cleanEnum n).Drained := by
  obtain ⟨l, hl⟩ := cleanEnum_eq o n
  rw [hl]
  exact ⟨h.exclusive, h.variants, h.enumless, h.objects, h.pair⟩

/-- A schema object whose unions have nothing to hand over is settled. -/
theorem exists_settle (o : Options) (path : Pointer) (h : n.Drained) : ∃ m, (o.settle path n).outcome = .ok m := by
  obtain ⟨u, hu⟩ := exists_hoistUnions path (drained_cleanEnum (o := o) h)
  have hunions : ∃ u, (o.settleUnions path n).outcome = .ok u := by
    unfold settleUnions
    rw [hoistEnumVariants_of_objects h.objects]
    exact Traced.exists_bind rfl (Traced.exists_bind (hoistOptional_of_pair h.pair) ⟨u, hu⟩)
  obtain ⟨u, hu⟩ := hunions
  unfold settle
  rw [if_neg (by simp [h.exclusive])]
  exact Traced.exists_bind hu ⟨_, rfl⟩

end Options

end KubeSchema
