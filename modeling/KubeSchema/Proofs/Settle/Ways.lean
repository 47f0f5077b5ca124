import KubeSchema.Proofs.Union.Enum
import KubeSchema.Proofs.Union.Optional
import KubeSchema.Proofs.Union.Properties
import KubeSchema.Restructure

/-!
# What settling does

A successful restructuring of a schema object settles its unions in one of four ways (`Options.SettlesUnions`): a
`oneOf` of enums becomes an enum, an optional takes over its entry, a tagged union or an untagged one hands over its
properties. Then unknown fields and `uniqueItems` are stated differently (`Options.finish`).

* `settle_eq_ok`: a restructuring that succeeds is one of these.
-/

namespace KubeSchema

namespace Options

/-- The last changes: unknown fields and `uniqueItems`. -/
def finish (o : Options) (n : ObjectSchema) : ObjectSchema :=
  o.cleanItems ((n.preserveUnknownFields o.preserveKey).getD n)

/-- What a successful restructuring does to the unions of a schema object. -/
inductive SettlesUnions (o : Options) (n : ObjectSchema) : ObjectSchema → Prop
  /-- All variants are enums, of one type. -/
  | enumerated {t : OneOrMany PrimitiveType} {ws : List ObjectSchema} (oneOf : n.oneOf.getD [] = ws.map .object)
      (anyOf : n.anyOf.getD [] = []) (nonempty : ws ≠ [])
      (enums : ∀ w ∈ ws, w.isAboutObjects = false ∧ w.types = some t ∧ (Node.listedValues? w).isSome = true) :
      SettlesUnions o n (o.cleanEnum (n.enumerated t ws))
  /-- An optional takes over its entry. -/
  | optional {e u : ObjectSchema} (oneOf : n.oneOf.getD [] = []) (anyOf : n.IsOptional e)
      (agree : Node.Agree { n with anyOf := none } e)
      (result : u = o.cleanEnum (Node.overlay { n with anyOf := none } e) ∨
        u = (o.cleanEnum (Node.overlay { n with anyOf := none } e)).dropEmptyOneOf) :
      SettlesUnions o n u
  /-- Tagged variants hand over their properties, and enums among them their values. -/
  | tagged {ws : List ObjectSchema} (oneOf : n.oneOf.getD [] = ws.map .object) (anyOf : n.anyOf.getD [] = [])
      (objects : ∃ w ∈ ws, w.isAboutObjects = true) (tags : ∀ w ∈ ws, w.properties.length ≤ 1) :
      SettlesUnions o n ((o.cleanEnum n).hoisted .oneOf ws).takenEnums.dropEmptyOneOf
  /-- Untagged variants hand over their properties, if there are any. -/
  | untagged {ws : List ObjectSchema} (oneOf : n.oneOf.getD [] = []) (anyOf : n.anyOf.getD [] = ws.map .object)
      (pair : ∀ a b, n.anyOf = some [a, b] → a.isNullEntry = .ok false ∧ b.isNullEntry = .ok false) :
      SettlesUnions o n ((o.cleanEnum n).dropEmptyOneOf.hoisted .anyOf ws)

end Options

/-! ## Parts that change little -/

namespace Node

/-- The values of a nullable schema without `null`, if there are several. -/
def nonNullValues (nullable : Bool) (values : List Json) : List Json :=
  if nullable ∧ 1 < values.length ∧ .null ∈ values then values.filter (· ≠ .null) else values

theorem nonNullValues_subset (nullable : Bool) (values : List Json) : nonNullValues nullable values ⊆ values := by
  unfold nonNullValues
  split
  · exact List.filter_subset_self _
  · exact fun _ hx => hx

theorem getD_dropEnumNull (n : ObjectSchema) :
    n.dropEnumNull.getD n = { n with enum := n.enum.map (nonNullValues n.isNullable) } := by
  unfold dropEnumNull nonNullValues
  cases hn : n.enum with
  | none =>
    show n = { n with enum := none }
    rw [← hn]
  | some values =>
    dsimp only [Option.map_some]
    split
    · rfl
    · rw [Option.getD_none, ← hn]

end Node

namespace Options

theorem cleanEnum_eq (o : Options) (n : ObjectSchema) : ∃ l, o.cleanEnum n = { n with enum := l } := by
  unfold cleanEnum
  split
  · exact ⟨_, n.getD_dropEnumNull⟩
  · exact ⟨n.enum, rfl⟩

theorem cleanItems_eq (o : Options) (n : ObjectSchema) :
    o.cleanItems n = { n with uniqueItems := if o.dropUniqueItems then none else n.uniqueItems } := by
  unfold cleanItems Node.dropUniqueItems
  split
  · split
    · rfl
    · next h => rw [Option.getD_none, ← Option.not_isSome_iff_eq_none.1 h]
  · rfl

/-- Unknown fields are kept by the vendor keyword exactly where there are properties beside them. -/
theorem finish_eq (o : Options) (n : ObjectSchema) :
    ∃ a x, o.finish n = { n with
        additionalProperties := a, extensions := x
        uniqueItems := if o.dropUniqueItems then none else n.uniqueItems } ∧
      (a = n.additionalProperties ∧ x = n.extensions ∧
          (n.properties = [] ∨ n.additionalProperties ≠ some (.bool true)) ∨
        a = none ∧ x = Members.set n.extensions o.preserveKey (.bool true)) := by
  rw [finish, cleanItems_eq]
  unfold Node.preserveUnknownFields
  split
  · exact ⟨none, _, rfl, .inr ⟨rfl, rfl⟩⟩
  · next hno =>
    refine ⟨n.additionalProperties, n.extensions, rfl, .inl ⟨rfl, rfl, ?_⟩⟩
    cases hp : n.properties with
    | nil => exact .inl rfl
    | cons p r => exact .inr (fun ha => hno p r hp ha)

end Options

namespace Node

theorem dropEmptyOneOf_eq (n : ObjectSchema) :
    ∃ l, n.dropEmptyOneOf = { n with oneOf := l } ∧ l.getD [] = n.oneOf.getD [] ∧ l ≠ some [] := by
  unfold dropEmptyOneOf
  rcases h : n.oneOf with _ | _ | ⟨s, l⟩
  · exact ⟨n.oneOf, rfl, by rw [h], by simp [h]⟩
  · exact ⟨none, rfl, rfl, nofun⟩
  · exact ⟨n.oneOf, rfl, by rw [h], by simp [h]⟩

theorem dropEmptyOneOf_self {n : ObjectSchema} (h : n.oneOf ≠ some []) : n.dropEmptyOneOf = n := by
  unfold dropEmptyOneOf
  split
  · next he =>
    refine absurd ?_ h
    revert he
    rcases n.oneOf with _ | _ | ⟨s, l⟩ <;> simp
  · rfl

theorem hasConflictingUnions_eq_false_iff {n : ObjectSchema} :
    n.hasConflictingUnions = false ↔ n.oneOf.getD [] = [] ∨ n.anyOf.getD [] = [] := by
  simp [hasConflictingUnions, hasVariants, variants, or_iff_not_imp_left]

theorem hoistOptional_of_anyOf_nil {n : ObjectSchema} (h : n.anyOf.getD [] = []) (path : Pointer) :
    hoistOptional path n = pure none := by
  unfold hoistOptional
  split
  · next hab => simp [hab] at h
  · rfl

end Node

/-! ## The four ways -/

namespace Options

open Node

variable {o : Options} {path : Pointer} {n m u : ObjectSchema}

@[simp] theorem oneOf_cleanEnum : (o.cleanEnum n).oneOf = n.oneOf := by
  obtain ⟨l, hl⟩ := cleanEnum_eq o n
  rw [hl]

@[simp] theorem anyOf_cleanEnum : (o.cleanEnum n).anyOf = n.anyOf := by
  obtain ⟨l, hl⟩ := cleanEnum_eq o n
  rw [hl]

@[simp] theorem anyOf_dropEmptyOneOf : n.dropEmptyOneOf.anyOf = n.anyOf := by
  obtain ⟨l, hl, -⟩ := dropEmptyOneOf_eq n
  rw [hl]

theorem takenEnums_of_nil (h : n.oneOf.getD [] = []) : n.takenEnums = n :=
  takenEnums_eq_self (fun s hs => by rw [h] at hs; cases hs)

/-- A hoisting from a union without variants does nothing. -/
theorem hoisted_nil {v : Union} (h : (n.variants v).getD [] = []) : n.hoisted v [] = n :=
  hoisted_eq_self (by rw [h, List.map_nil]) (fun w hw => absurd hw List.not_mem_nil)

theorem hoistUnions_eq_ok (h : (hoistUnions path n).outcome = .ok u) :
    ∃ ws ws' : List ObjectSchema, n.oneOf.getD [] = ws.map .object ∧ n.anyOf.getD [] = ws'.map .object ∧
      (∀ w ∈ ws, w.properties.length ≤ 1) ∧
      u = (n.hoisted .oneOf ws).takenEnums.dropEmptyOneOf.hoisted .anyOf ws' := by
  simp only [hoistUnions, Traced.bind_eq_ok, Traced.pure_eq_ok] at h
  obtain ⟨r₁, h₁, r₂, h₂, r₃, h₃, rfl⟩ := h
  obtain ⟨ws, hws, h₁, ht⟩ := hoistProperties_eq_ok h₁
  rw [h₁] at h₂
  rw [h₁, hoistEnumValues_eq_ok h₂] at h₃ ⊢
  obtain ⟨ws', hws', h₃, -⟩ := hoistProperties_eq_ok h₃
  refine ⟨ws, ws', hws, ?_, ht rfl, h₃⟩
  rw [← hws', variants, anyOf_dropEmptyOneOf]
  rfl

/-- Without untagged variants the tagged ones are hoisted. -/
theorem hoistUnions_tagged (hany : n.anyOf.getD [] = []) (h : (hoistUnions path n).outcome = .ok u) :
    ∃ ws : List ObjectSchema, n.oneOf.getD [] = ws.map .object ∧ (∀ w ∈ ws, w.properties.length ≤ 1) ∧
      u = (n.hoisted .oneOf ws).takenEnums.dropEmptyOneOf := by
  obtain ⟨ws, ws', hws, hws', ht, rfl⟩ := hoistUnions_eq_ok h
  cases List.map_eq_nil_iff.1 (hws'.symm.trans hany)
  refine ⟨ws, hws, ht, hoisted_nil ?_⟩
  rw [variants, anyOf_dropEmptyOneOf]
  exact hany

/-- Without tagged variants the untagged ones are hoisted. -/
theorem hoistUnions_untagged (hone : n.oneOf.getD [] = []) (h : (hoistUnions path n).outcome = .ok u) :
    ∃ ws : List ObjectSchema, n.anyOf.getD [] = ws.map .object ∧ u = n.dropEmptyOneOf.hoisted .anyOf ws := by
  obtain ⟨ws, ws', hws, hws', -, rfl⟩ := hoistUnions_eq_ok h
  cases List.map_eq_nil_iff.1 (hws.symm.trans hone)
  rw [hoisted_nil (v := .oneOf) hone, takenEnums_of_nil hone]
  exact ⟨ws', hws', rfl⟩

/-- Hoisting the variants of a schema object that is neither a union of enums nor an optional. -/
theorem settlesUnions_of_hoistUnions (hnot : n.oneOf.getD [] = [] ∨ n.anyOf.getD [] = [])
    (hobjects : n.oneOf.getD [] = [] ∨ (n.oneOf.getD []).any isObjectVariant = true)
    (hpair : ∀ a b, n.anyOf = some [a, b] → a.isNullEntry = .ok false ∧ b.isNullEntry = .ok false)
    (h : (hoistUnions path (o.cleanEnum n)).outcome = .ok u) : o.SettlesUnions n u := by
  rcases hobjects with hone | hobj
  · obtain ⟨ws, hws, rfl⟩ := hoistUnions_untagged (by simpa using hone) h
    exact .untagged hone (by simpa using hws) hpair
  · obtain ⟨s, hs, hso⟩ := List.any_eq_true.1 hobj
    have hany : n.anyOf.getD [] = [] := hnot.resolve_left (List.ne_nil_of_mem hs)
    obtain ⟨ws, hws, ht, rfl⟩ := hoistUnions_tagged (by simpa using hany) h
    rw [oneOf_cleanEnum] at hws
    rw [hws] at hs
    obtain ⟨w, hw, rfl⟩ := List.mem_map.1 hs
    exact .tagged hws hany ⟨w, hw, hso⟩ ht

/-- A union of enums has nothing left to hoist. -/
theorem settlesUnions_of_enumerated {t : OneOrMany PrimitiveType} {ws : List ObjectSchema}
    (hws : n.oneOf.getD [] = ws.map .object) (hany : n.anyOf.getD [] = []) (hne : ws ≠ [])
    (henums : ∀ w ∈ ws, w.isAboutObjects = false ∧ w.types = some t ∧ (listedValues? w).isSome = true)
    (h : (hoistUnions path (o.cleanEnum (n.enumerated t ws))).outcome = .ok u) : o.SettlesUnions n u := by
  obtain ⟨vs, hvs, -, rfl⟩ := hoistUnions_tagged (by rw [anyOf_cleanEnum]; exact hany) h
  rw [oneOf_cleanEnum] at hvs
  cases List.map_eq_nil_iff.1 hvs.symm
  have hone : (o.cleanEnum (n.enumerated t ws)).oneOf = none := oneOf_cleanEnum
  have hnonempty : (o.cleanEnum (n.enumerated t ws)).oneOf ≠ some [] := by
    rw [hone]
    intro e
    cases e
  rw [hoisted_nil (by rw [variants, hone]; rfl), takenEnums_of_nil (by rw [hone]; rfl), dropEmptyOneOf_self hnonempty]
  exact .enumerated hws hany hne henums

theorem settleUnions_eq_ok (hn : (Schema.object n).Regular) (hnot : n.oneOf.getD [] = [] ∨ n.anyOf.getD [] = [])
    (h : (o.settleUnions path n).outcome = .ok u) : o.SettlesUnions n u := by
  simp only [settleUnions, Traced.bind_eq_ok] at h
  obtain ⟨r, hr, opt, hopt, hu⟩ := h
  rcases hoistEnumVariants_eq_ok hr with ⟨rfl, hobjects⟩ | ⟨t, ws, hws, hne, henums, rfl⟩
  · rw [Option.getD_none] at hopt hu
    rcases hoistOptional_eq_ok hn hopt with ⟨rfl, hpair⟩ | ⟨e, carried, he, ha, rfl⟩
    · exact settlesUnions_of_hoistUnions hnot hobjects hpair hu
    · refine .optional (hnot.resolve_right (List.ne_nil_of_mem he.mem)) he ha ?_
      cases carried <;> cases hu
      · exact .inr rfl
      · exact .inl rfl
  · have hany : n.anyOf.getD [] = [] := hnot.resolve_left (by simpa [hws] using hne)
    rw [Option.getD_some] at hopt hu
    rw [hoistOptional_of_anyOf_nil (by exact hany), Traced.pure_eq_ok] at hopt
    cases hopt
    exact settlesUnions_of_enumerated hws hany hne henums hu

/-- A restructuring that succeeds settles the unions, and then the rest. -/
theorem settle_eq_ok (hn : (Schema.object n).Regular) (h : (o.settle path n).outcome = .ok m) :
    ∃ u, o.SettlesUnions n u ∧ m = o.finish u := by
  unfold settle at h
  split at h
  · cases h
  · next hc =>
    have hnot := hasConflictingUnions_eq_false_iff.1 (Bool.eq_false_iff.2 hc)
    simp only [Traced.bind_eq_ok, Traced.pure_eq_ok] at h
    obtain ⟨u, hu, rfl⟩ := h
    exact ⟨u, settleUnions_eq_ok hn hnot hu, rfl⟩

end Options

end KubeSchema
