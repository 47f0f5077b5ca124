import KubeSchema.Proofs.Settle.Drained
import Mathlib.Data.List.Pairwise

/-!
# Variants that become values of their parent

Two loops make variants of a `oneOf` values of their parent's `enum`: one takes all variants or none, with their `const`
if they have no `enum`, and the other those that have an `enum`. Neither loses, repeats or reorders a value
(`Node.Consumes`), and where both apply they give the same.

* `consumes_enumerated`, `consumes_takenEnums`: what is left of the parent and its variants.
* `fails_hoistEnumValues_iff`: the second loop fails exactly if two types differ.
* `enums_conserved`: both loops, and that they agree.
-/

namespace KubeSchema

namespace Node

variable {path : Pointer} {n m : ObjectSchema} {ws : List ObjectSchema} {vs : List Schema}
  {t : OneOrMany PrimitiveType}

/-! ## What is left -/

/-- The parent of a `oneOf` after some of its variants, all of which list values, have become values of its own. These
follow the values that it had, in the order of the variants; the other variants stay as they were, in their order. -/
structure Consumes (consumed : Schema → Bool) (listed : ObjectSchema → Option (List Json)) (n m : ObjectSchema) :
    Prop where
  nonempty : ∃ s ∈ n.oneOf.getD [], consumed s = true
  values : ∃ ws lists, (n.oneOf.getD []).filter consumed = ws.map .object ∧
    List.Forall₂ (fun w values => listed w = some values) ws lists ∧
    m.enum = some (n.enum.getD [] ++ lists.flatten)
  variants : m.oneOf.getD [] = (n.oneOf.getD []).filter (fun s => !consumed s)
  rest : m = { n with types := m.types, enum := m.enum, oneOf := m.oneOf }

/-- A type that bears on the values: the parent's own, or one that a variant with an enum declares. -/
def DeclaresType (n : ObjectSchema) (t : OneOrMany PrimitiveType) : Prop :=
  n.types = some t ∨ ∃ w, .object w ∈ n.oneOf.getD [] ∧ w.enum.isSome = true ∧ w.types = some t

/-- Every variant of the `oneOf` is an enum of a type, and none is about objects. -/
def ListsOnly (n : ObjectSchema) (t : OneOrMany PrimitiveType) : Prop :=
  ∀ s ∈ n.oneOf.getD [], ∃ w : ObjectSchema,
    s = .object w ∧ w.isAboutObjects = false ∧ w.enum.isSome = true ∧ w.types = some t

/-- Values that every variant lists, one list for each. -/
theorem exists_lists (listed : ObjectSchema → Option (List Json)) (h : ∀ w ∈ ws, (listed w).isSome = true) :
    ∃ lists, List.Forall₂ (fun w values => listed w = some values) ws lists ∧
      lists.flatten = ws.flatMap (fun w => (listed w).getD []) := by
  refine ⟨ws.map (fun w => (listed w).getD []), ?_, List.flatMap_def.symm⟩
  rw [List.forall₂_map_right_iff, List.forall₂_same]
  intro w hw
  obtain ⟨values, hvalues⟩ := Option.isSome_iff_exists.1 (h w hw)
  rw [hvalues, Option.getD_some]

/-! ## All variants -/

theorem consumes_enumerated (hws : n.oneOf.getD [] = ws.map .object) (hne : ws ≠ [])
    (hlisted : ∀ w ∈ ws, (listedValues? w).isSome = true) :
    n.Consumes (fun _ => true) listedValues? (n.enumerated t ws) := by
  obtain ⟨lists, hlists, hflat⟩ := exists_lists listedValues? hlisted
  refine ⟨?_, ⟨ws, lists, ?_, hlists, ?_⟩, ?_, rfl⟩
  · obtain ⟨w, hw⟩ := List.exists_mem_of_ne_nil ws hne
    exact ⟨.object w, by rw [hws]; exact List.mem_map_of_mem hw, rfl⟩
  · rw [List.filter_true, hws]
  · rw [hflat]
    rfl
  · simp [enumerated]

/-! ## Variants with an enum -/

theorem mem_enumVariants_iff {w : ObjectSchema} : w ∈ enumVariants vs ↔ .object w ∈ vs ∧ w.enum.isSome = true := by
  rw [enumVariants, List.mem_filterMap]
  constructor
  · rintro ⟨s, hs, h⟩
    cases s with
    | bool b => cases h
    | object v =>
      dsimp only at h
      split at h <;> cases h
      exact ⟨hs, ‹_›⟩
  · rintro ⟨hw, henum⟩
    exact ⟨.object w, hw, by simp [henum]⟩

theorem filter_hasEnum (vs : List Schema) : vs.filter hasEnum = (enumVariants vs).map .object := by
  induction vs with
  | nil => rfl
  | cons s vs ih =>
    cases s with
    | bool b => exact ih
    | object v =>
      cases hv : v.enum with
      | none => simpa [enumVariants, hasEnum, hv] using ih
      | some values => simpa [enumVariants, hasEnum, hv] using ih

theorem consumes_takenEnums (hany : (n.oneOf.getD []).any hasEnum = true) : n.Consumes hasEnum enum n.takenEnums := by
  have hne : enumVariants (n.oneOf.getD []) ≠ [] := by
    rw [Ne, enumVariants_eq_nil_iff, hany]
    exact nofun
  obtain ⟨lists, hlists, hflat⟩ := exists_lists enum fun w hw => (mem_enumVariants_iff.1 hw).2
  refine ⟨List.any_eq_true.1 hany, ⟨_, lists, filter_hasEnum _, hlists, ?_⟩, ?_, rfl⟩
  · obtain ⟨w, ws, hws⟩ := List.exists_cons_of_ne_nil hne
    have hvalues : n.takenEnums.enum = takenValues n.enum (enumVariants (n.oneOf.getD [])) := rfl
    rw [hvalues, hflat, hws, takenValues_cons]
  · cases ho : n.oneOf <;> simp [takenEnums, ho]

/-- The enums can be taken if all types that bear on them are the same. -/
theorem exists_hoistEnumValues_iff_declared :
    (∃ r, (hoistEnumValues path n).outcome = .ok r) ↔ ∀ s t, n.DeclaresType s → n.DeclaresType t → s = t := by
  have hgiven (t : OneOrMany PrimitiveType) :
      t ∈ givenTypes n.types (enumVariants (n.oneOf.getD [])) ↔ n.DeclaresType t := by
    simp [givenTypes, DeclaresType, mem_enumVariants_iff, and_assoc]
  rw [exists_hoistEnumValues_iff]
  simp only [← hgiven]
  constructor
  · intro h s t hs ht
    exact List.Pairwise.forall_of_forall (fun _ _ => rfl) h hs ht
  · intro h
    exact List.pairwise_of_reflexive_of_forall_ne fun s hs t ht _ => h s t hs ht

/-- The enums cannot be taken exactly if two of the types that bear on them differ. -/
theorem fails_hoistEnumValues_iff :
    (∃ fault, (hoistEnumValues path n).outcome = .error fault) ↔
      ∃ s t, n.DeclaresType s ∧ n.DeclaresType t ∧ s ≠ t := by
  have hok : (∃ fault, (hoistEnumValues path n).outcome = .error fault) ↔
      ¬∃ r, (hoistEnumValues path n).outcome = .ok r := by
    cases (hoistEnumValues path n).outcome <;> simp
  rw [hok, exists_hoistEnumValues_iff_declared]
  push Not
  rfl

/-! ## Both -/

theorem enumVariants_map_object (h : ∀ w ∈ ws, w.enum.isSome = true) : enumVariants (ws.map .object) = ws := by
  rw [enumVariants, List.filterMap_map]
  refine (List.filterMap_congr fun w hw => ?_).trans List.filterMap_some
  simp [h w hw]

theorem takenType_of_types {types : Option (OneOrMany PrimitiveType)} (hne : ws ≠ [])
    (hws : ∀ w ∈ ws, w.types = some t) (htypes : ∀ p ∈ types, p = t) : takenType types ws = some t := by
  obtain ⟨w, ws, rfl⟩ := List.exists_cons_of_ne_nil hne
  have hw : w.types = some t := hws w List.mem_cons_self
  rw [takenType_eq_head?, givenTypes, List.filterMap_cons, hw]
  cases types with
  | none => rfl
  | some p => rw [htypes p rfl]; rfl

/-- Enums of one type, taken one by one, are what is stated when they are taken together, but for an empty `oneOf`. -/
theorem dropEmptyOneOf_takenEnums (hws : n.oneOf.getD [] = ws.map .object) (hne : ws ≠ [])
    (hlisted : ∀ w ∈ ws, w.enum.isSome = true) (htypes : ∀ w ∈ ws, w.types = some t)
    (hparent : ∀ p ∈ n.types, p = t) : n.takenEnums.dropEmptyOneOf = n.enumerated t ws := by
  have henums : enumVariants (n.oneOf.getD []) = ws := by rw [hws, enumVariants_map_object hlisted]
  have hvalues : takenValues n.enum ws = (n.enumerated t ws).enum := by
    have hsame : ws.flatMap (fun w => (listedValues? w).getD []) = ws.flatMap (fun w => w.enum.getD []) := by
      refine List.flatMap_congr fun w hw => ?_
      obtain ⟨values, hvalues⟩ := Option.isSome_iff_exists.1 (hlisted w hw)
      simp [listedValues?, hvalues]
    obtain ⟨w, ws, rfl⟩ := List.exists_cons_of_ne_nil hne
    rw [takenValues_cons, enumerated, hsame]
  have hkept : n.oneOf.map (List.filter (fun s => !hasEnum s)) = some [] := by
    cases ho : n.oneOf with
    | none =>
      rw [ho, Option.getD_none] at hws
      exact absurd (List.map_eq_nil_iff.1 hws.symm) hne
    | some vs =>
      rw [ho, Option.getD_some] at hws
      rw [Option.map_some, hws, List.filter_eq_nil_iff.2]
      intro s hs
      obtain ⟨w, hw, rfl⟩ := List.mem_map.1 hs
      simp [hasEnum, hlisted w hw]
  unfold takenEnums
  rw [henums, takenType_of_types hne htypes hparent, hvalues, hkept]
  rfl

/-- Where all variants are enums of one type and the parent is of that type or of none, it does not matter which of the
loops takes them. -/
theorem exists_of_listsOnly (hne : n.oneOf.getD [] ≠ []) (hlists : n.ListsOnly t) (hparent : ∀ p ∈ n.types, p = t) :
    ∃ m, (hoistEnumVariants path n).outcome = .ok (some m.dropEmptyOneOf) ∧
      (hoistEnumValues path n).outcome = .ok (some m) := by
  obtain ⟨ws, hws⟩ := exists_objects fun b hb => by
    obtain ⟨w, hw, -⟩ := hlists _ hb
    cases hw
  have hvariants : ∀ w ∈ ws, w.isAboutObjects = false ∧ w.enum.isSome = true ∧ w.types = some t := by
    intro w hw
    obtain ⟨w', e, h⟩ := hlists (.object w) (hws ▸ List.mem_map_of_mem hw)
    cases e
    exact h
  have hwsne : ws ≠ [] := by
    rintro rfl
    exact hne hws
  have henums : (hoistEnumVariants path n).outcome = .ok (some (n.enumerated t ws)) := by
    refine hoistEnumVariants_of_enums hws hwsne fun w hw => ⟨(hvariants w hw).1, (hvariants w hw).2.2, ?_⟩
    obtain ⟨values, hvalues⟩ := Option.isSome_iff_exists.1 (hvariants w hw).2.1
    simp [listedValues?, hvalues]
  have hdeclared : ∀ s, n.DeclaresType s → s = t := by
    rintro s (hs | ⟨w, hw, -, hs⟩)
    · exact hparent s hs
    · obtain ⟨w', e, -, -, ht⟩ := hlists _ hw
      cases e
      exact Option.some.inj (hs.symm.trans ht)
  have htaken : ∃ r, (hoistEnumValues path n).outcome = .ok r :=
    exists_hoistEnumValues_iff_declared.2 fun s s' hs hs' => (hdeclared s hs).trans (hdeclared s' hs').symm
  obtain ⟨r, hr⟩ := htaken
  have hany : (n.oneOf.getD []).any hasEnum = true := by
    obtain ⟨w, hw⟩ := List.exists_mem_of_ne_nil ws hwsne
    exact List.any_eq_true.2 ⟨.object w, hws ▸ List.mem_map_of_mem hw, (hvariants w hw).2.1⟩
  obtain ⟨m, rfl⟩ := Option.isSome_iff_exists.1 ((isSome_hoistEnumValues hr).trans hany)
  have hm : m = n.takenEnums := hoistEnumValues_eq_ok hr
  refine ⟨m, ?_, hr⟩
  rw [henums, hm, dropEmptyOneOf_takenEnums hws hwsne (fun w hw => (hvariants w hw).2.1)
    (fun w hw => (hvariants w hw).2.2) hparent]

/-- Both loops conserve the values of the variants that they take, all of them or those with an enum; the second one
fails exactly if two types differ; and where all variants are enums of one type, that of the parent if it has one, the
first gives what the second does, without the `oneOf` that has nothing left. -/
theorem enums_conserved (path : Pointer) (n : ObjectSchema) :
    (∀ m, (hoistEnumVariants path n).outcome = .ok (some m) →
      n.Consumes (fun _ => true) listedValues? m ∧ m.oneOf = none) ∧
    (∀ m, (hoistEnumValues path n).outcome = .ok (some m) → n.Consumes hasEnum enum m) ∧
    ((∃ fault, (hoistEnumValues path n).outcome = .error fault) ↔
      ∃ s t, n.DeclaresType s ∧ n.DeclaresType t ∧ s ≠ t) ∧
    ∀ t, n.oneOf.getD [] ≠ [] → n.ListsOnly t → (n.types = none ∨ n.types = some t) →
      ∃ m, (hoistEnumVariants path n).outcome = .ok (some m.dropEmptyOneOf) ∧
        (hoistEnumValues path n).outcome = .ok (some m) := by
  refine ⟨fun m hm => ?_, fun m hm => ?_, fails_hoistEnumValues_iff, fun t hne hlists htypes => ?_⟩
  · rcases hoistEnumVariants_eq_ok hm with ⟨hnone, -⟩ | ⟨t, ws, hws, hne, hvariants, e⟩
    · cases hnone
    · cases e
      exact ⟨consumes_enumerated hws hne fun w hw => (hvariants w hw).2.2, rfl⟩
  · have htaken : m = n.takenEnums := hoistEnumValues_eq_ok hm
    rw [htaken]
    exact consumes_takenEnums (isSome_hoistEnumValues hm).symm
  · refine exists_of_listsOnly hne hlists ?_
    rcases htypes with hnone | hsome
    · simp [hnone]
    · simp [hsome]

/-- Two enums of strings, one of them documented, below a parent with a value of its own. -/
theorem enums_conserved_of_strings :
    let string : OneOrMany PrimitiveType := .one .string
    let n : ObjectSchema := {
      types := some string
      enum := some [.str "a"]
      oneOf := some [
        .object { types := some string, enum := some [.str "b", .str "a"] },
        .object { description := some "Third.", types := some string, enum := some [.str "c"] }] }
    ∃ m, (hoistEnumVariants [] n).outcome = .ok (some m.dropEmptyOneOf) ∧
      (hoistEnumValues [] n).outcome = .ok (some m) ∧ n.Consumes hasEnum enum m ∧
      m.enum = some [.str "a", .str "b", .str "a", .str "c"] := by
  intro string n
  obtain ⟨-, hconsumes, -, hagree⟩ := enums_conserved [] n
  have hlists : n.ListsOnly string := by
    rintro s hs
    simp only [n, Option.getD_some, List.mem_cons, List.not_mem_nil, or_false] at hs
    rcases hs with rfl | rfl <;> exact ⟨_, rfl, rfl, rfl, rfl⟩
  obtain ⟨m, hall, hsome⟩ := hagree string nofun hlists (.inr rfl)
  refine ⟨m, hall, hsome, hconsumes m hsome, ?_⟩
  have hm : m = n.takenEnums := hoistEnumValues_eq_ok hsome
  rw [hm]
  rfl

end Node

end KubeSchema
