import KubeSchema.Proofs.Outcome
import KubeSchema.Union.Enum

/-!
# What hoisting enums does

Two successful hoistings without their checks: of a `oneOf` of enums only (`Node.enumerated`), and of the enums among
other variants (`Node.takenEnums`).

* `hoistEnumVariants_eq_ok`: the first one has nothing to do if a variant is about objects.
* `hoistEnumValues_eq_ok`: the second one leaves the variants without an enum.
-/

namespace KubeSchema.Node

/-! ## A union of enums only -/

/-- A schema object that states the values of its variants, all of one type, itself. -/
def enumerated (n : ObjectSchema) (t : OneOrMany PrimitiveType) (ws : List ObjectSchema) : ObjectSchema :=
  { n with
    enum := some (n.enum.getD [] ++ ws.flatMap (fun w => (listedValues? w).getD []))
    types := some t
    oneOf := none }

theorem typedVariants_eq_ok {path : Pointer} {index : Nat} {vs : List Schema}
    {l : List (OneOrMany PrimitiveType × ObjectSchema)} (h : (typedVariants path index vs).outcome = .ok l) :
    vs = l.map (fun p => .object p.2) ∧ ∀ p ∈ l, p.2.types = some p.1 := by
  induction vs generalizing index l with
  | nil => cases h; simp
  | cons s vs ih =>
    cases s with
    | bool b => cases h
    | object v =>
      rw [typedVariants] at h
      split at h
      · obtain ⟨_, -, h⟩ := Traced.bind_eq_ok.1 h
        cases h
      · next t ht =>
        simp only [Traced.bind_eq_ok, Traced.pure_eq_ok] at h
        obtain ⟨l, hl, rfl⟩ := h
        obtain ⟨rfl, htypes⟩ := ih hl
        exact ⟨rfl, List.forall_mem_cons.2 ⟨ht, htypes⟩⟩

theorem checkTypes_eq_ok {path : Pointer} {first : OneOrMany PrimitiveType × ObjectSchema} {index : Nat}
    {l : List (OneOrMany PrimitiveType × ObjectSchema)} {u : Unit}
    (h : (checkTypes path first index l).outcome = .ok u) : ∀ p ∈ l, p.1 = first.1 := by
  induction l generalizing index with
  | nil => simp
  | cons p l ih =>
    rw [checkTypes] at h
    split at h
    · next ht => exact List.forall_mem_cons.2 ⟨ht, ih h⟩
    · obtain ⟨_, -, h⟩ := Traced.bind_eq_ok.1 h
      obtain ⟨_, -, h⟩ := Traced.bind_eq_ok.1 h
      cases h

theorem collectValues_eq_ok {path : Pointer} {index : Nat} {l : List (OneOrMany PrimitiveType × ObjectSchema)}
    {values : List Json} (h : (collectValues path index l).outcome = .ok values) :
    values = l.flatMap (fun p => (listedValues? p.2).getD []) ∧ ∀ p ∈ l, (listedValues? p.2).isSome = true := by
  induction l generalizing index values with
  | nil => cases h; simp
  | cons p l ih =>
    rw [collectValues] at h
    split at h
    · next vs hvs =>
      simp only [Traced.bind_eq_ok, Traced.pure_eq_ok] at h
      obtain ⟨values, hv, rfl⟩ := h
      obtain ⟨rfl, hl⟩ := ih hv
      exact ⟨by simp [hvs], List.forall_mem_cons.2 ⟨by simp [hvs], hl⟩⟩
    · obtain ⟨_, -, h⟩ := Traced.bind_eq_ok.1 h
      cases h

/-- Either there is no variant or one that is about objects, or all of them are enums of one type. -/
theorem hoistEnumVariants_eq_ok {path : Pointer} {n : ObjectSchema} {r : Option ObjectSchema}
    (h : (hoistEnumVariants path n).outcome = .ok r) :
    (r = none ∧ (n.oneOf.getD [] = [] ∨ (n.oneOf.getD []).any isObjectVariant = true)) ∨
      ∃ t ws, n.oneOf.getD [] = ws.map .object ∧ ws ≠ [] ∧
        (∀ w ∈ ws, w.isAboutObjects = false ∧ w.types = some t ∧ (listedValues? w).isSome = true) ∧
        r = some (enumerated n t ws) := by
  unfold hoistEnumVariants at h
  split at h
  · next hv => cases h; exact .inl ⟨rfl, .inl hv⟩
  · next variant variants hv =>
    split at h
    · next ho => cases h; exact .inl ⟨rfl, .inr (hv ▸ ho)⟩
    · next ho =>
      obtain ⟨l, hl, h⟩ := Traced.bind_eq_ok.1 h
      obtain ⟨hvs, ht⟩ := typedVariants_eq_ok hl
      cases l with
      | nil => cases hvs
      | cons first l =>
        simp only [Traced.bind_eq_ok, Traced.pure_eq_ok] at h
        obtain ⟨_, hc, values, hvalues, -, -, rfl⟩ := h
        obtain ⟨rfl, hlisted⟩ := collectValues_eq_ok hvalues
        have htypes : ∀ p ∈ first :: l, p.1 = first.1 := List.forall_mem_cons.2 ⟨rfl, checkTypes_eq_ok hc⟩
        refine .inr ⟨first.1, (first :: l).map Prod.snd, by rw [hv, hvs, List.map_map]; rfl, by simp, ?_, ?_⟩
        · intro w hw
          obtain ⟨p, hp, rfl⟩ := List.mem_map.1 hw
          refine ⟨?_, htypes p hp ▸ ht p hp, hlisted p hp⟩
          rw [hvs, Bool.not_eq_true, List.any_eq_false] at ho
          exact Bool.eq_false_iff.2 (ho _ (List.mem_map_of_mem hp))
        · simp [enumerated, List.flatMap_map]

/-! ## Enums among other variants -/

/-- The variants that have an enum. -/
def enumVariants (vs : List Schema) : List ObjectSchema :=
  vs.filterMap fun | .bool _ => none | .object v => if v.enum.isSome then some v else none

theorem perm_enumVariants {vs vs' : List Schema} (h : vs.Perm vs') : (enumVariants vs).Perm (enumVariants vs') :=
  h.filterMap _

theorem enumVariants_eq_nil_iff {vs : List Schema} : enumVariants vs = [] ↔ vs.any hasEnum = false := by
  rw [enumVariants, List.filterMap_eq_nil_iff, List.any_eq_false]
  refine forall₂_congr fun s _ => ?_
  cases s <;> simp [hasEnum]

/-- The type of a parent, or else that of the first variant that has one. -/
def takenType (types : Option (OneOrMany PrimitiveType)) (ws : List ObjectSchema) :
    Option (OneOrMany PrimitiveType) := ws.foldl (fun t w => t.or w.types) types

/-- The values of a parent and those of its variants. -/
def takenValues (enum : Option (List Json)) (ws : List ObjectSchema) : Option (List Json) :=
  ws.foldl (fun l w => some (l.getD [] ++ w.enum.getD [])) enum

theorem takenValues_cons (enum : Option (List Json)) (w : ObjectSchema) (ws : List ObjectSchema) :
    takenValues enum (w :: ws) = some (enum.getD [] ++ (w :: ws).flatMap (fun w => w.enum.getD [])) := by
  induction ws generalizing enum w with
  | nil => simp [takenValues]
  | cons v ws ih =>
    have hstep : takenValues enum (w :: v :: ws) = takenValues (some (enum.getD [] ++ w.enum.getD [])) (v :: ws) := rfl
    rw [hstep, ih, Option.getD_some, List.append_assoc]
    rfl

/-- A schema object that takes the enums among its variants. -/
def takenEnums (n : ObjectSchema) : ObjectSchema :=
  { n with
    types := takenType n.types (enumVariants (n.oneOf.getD []))
    enum := takenValues n.enum (enumVariants (n.oneOf.getD []))
    oneOf := n.oneOf.map (List.filter (fun s => !hasEnum s)) }

theorem agreedType_eq_ok {path : Pointer} {values : List Json} {n v : ObjectSchema}
    {t : Option (OneOrMany PrimitiveType)} (h : (agreedType path values n v).outcome = .ok t) :
    t = n.types.or v.types := by
  unfold agreedType at h
  split at h
  · next hp ht =>
    split at h
    · cases h; simp [hp]
    · obtain ⟨_, -, h⟩ := Traced.bind_eq_ok.1 h
      obtain ⟨_, -, h⟩ := Traced.bind_eq_ok.1 h
      cases h
  · next hp => cases h; simp [hp]
  · next hp ht _ => cases h; simp [ht]

theorem takeEnums_eq_ok {path : Pointer} {index : Nat} {n : ObjectSchema} {vs : List Schema}
    {r : ObjectSchema × List Schema} (h : (takeEnums path index n vs).outcome = .ok r) :
    r = ({ n with types := takenType n.types (enumVariants vs), enum := takenValues n.enum (enumVariants vs) },
      vs.filter (fun s => !hasEnum s)) := by
  induction vs generalizing index n r with
  | nil => cases h; rfl
  | cons s vs ih =>
    cases s with
    | bool b =>
      rw [takeEnums] at h
      simp only [Traced.bind_eq_ok, Traced.pure_eq_ok] at h
      obtain ⟨_, hr, rfl⟩ := h
      cases ih hr
      simp [enumVariants, hasEnum]
    | object v =>
      rw [takeEnums] at h
      split at h
      · next values hv =>
        simp only [Traced.bind_eq_ok] at h
        obtain ⟨t, ht, hr⟩ := h
        rw [ih hr, agreedType_eq_ok ht]
        simp [enumVariants, hasEnum, hv, takenType, takenValues]
      · next hv =>
        simp only [Traced.bind_eq_ok, Traced.pure_eq_ok] at h
        obtain ⟨_, hr, rfl⟩ := h
        cases ih hr
        simp [enumVariants, hasEnum, hv]

/-- Without enums among the variants nothing is taken. -/
theorem takenEnums_eq_self {n : ObjectSchema} (h : ∀ s ∈ n.oneOf.getD [], hasEnum s = false) : takenEnums n = n := by
  have he : enumVariants (n.oneOf.getD []) = [] := by
    refine List.filterMap_eq_nil_iff.2 fun s hs => ?_
    have := h s hs
    cases s <;> simp_all [hasEnum]
  have hk : n.oneOf.map (List.filter (fun s => !hasEnum s)) = n.oneOf := by
    cases ho : n.oneOf with
    | none => rfl
    | some l =>
      rw [Option.map_some, List.filter_eq_self.2 (fun s hs => by simp [h s (by rwa [ho])])]
  rw [takenEnums, he, hk]
  rfl

/-- Taking the enums among the variants, whether there are any or not. -/
theorem hoistEnumValues_eq_ok {path : Pointer} {n : ObjectSchema} {r : Option ObjectSchema}
    (h : (hoistEnumValues path n).outcome = .ok r) : r.getD n = takenEnums n := by
  unfold hoistEnumValues at h
  dsimp only at h
  split at h
  · next hany =>
    simp only [Traced.bind_eq_ok, Traced.pure_eq_ok] at h
    obtain ⟨p, hp, rfl⟩ := h
    rw [takeEnums_eq_ok hp]
    cases ho : n.oneOf with
    | none => simp [ho] at hany
    | some l => simp [takenEnums, ho]
  · next hany =>
    cases h
    rw [Bool.not_eq_true, List.any_eq_false] at hany
    exact (takenEnums_eq_self (fun s hs => Bool.eq_false_iff.2 (hany s hs))).symm

/-- Hoisting enums has something to do if a variant has one. -/
theorem isSome_hoistEnumValues {path : Pointer} {n : ObjectSchema} {r : Option ObjectSchema}
    (h : (hoistEnumValues path n).outcome = .ok r) : r.isSome = (n.oneOf.getD []).any hasEnum := by
  unfold hoistEnumValues at h
  dsimp only at h
  split at h
  · next hany =>
    simp only [Traced.bind_eq_ok, Traced.pure_eq_ok] at h
    obtain ⟨_, -, rfl⟩ := h
    exact hany.symm
  · next hany =>
    cases h
    exact (Bool.eq_false_iff.2 hany).symm

theorem takenType_eq_or (types : Option (OneOrMany PrimitiveType)) (ws : List ObjectSchema) :
    takenType types ws = types.or (takenType none ws) := by
  induction ws generalizing types with
  | nil => simp [takenType]
  | cons w ws ih =>
    have step (t : Option (OneOrMany PrimitiveType)) : takenType t (w :: ws) = takenType (t.or w.types) ws := rfl
    rw [step, step, ih, ih (none.or w.types), Option.none_or, Option.or_assoc]

end KubeSchema.Node
