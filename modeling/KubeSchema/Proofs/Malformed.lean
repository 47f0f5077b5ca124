import KubeSchema.Proofs.DeclaredNames
import KubeSchema.Proofs.Violations

/-!
# Malformed unions

A schema object whose unions break a rule (`Node.Malformed`) is never restructured, wherever it stands in a document:
restructuring what is below it does not repair it.

* `not_malformed_of_settle`: settling a malformed schema object fails.
* `malformed_of_rel`: it stays malformed while its children are restructured.
* `restructure_malformed`: restructuring the whole document fails by a violation.
-/

namespace KubeSchema

open Node

/-- The unions of a schema object break a rule. -/
inductive Node.Malformed (n : ObjectSchema) : Prop
  /-- Both unions are stated. -/
  | bothUnions (hone : n.oneOf.getD [] ≠ []) (hany : n.anyOf.getD [] ≠ [])
  /-- A variant is `true` or `false`. -/
  | booleanVariant {b : Bool} (h : .bool b ∈ n.unionVariants)
  /-- Both entries of an optional only admit `null`. -/
  | onlyNull {a b : Schema} (h : n.anyOf = some [a, b]) (ha : a.isNullEntry = .ok true)
      (hb : b.isNullEntry = .ok true)
  /-- A tagged variant has several properties. -/
  | severalTags {w : ObjectSchema} (h : .object w ∈ n.oneOf.getD []) (hp : 2 ≤ w.properties.length)

/-! ## Settling -/

namespace Options

variable {o : Options} {path : Pointer} {n m u : ObjectSchema}

theorem objects_of_variants {ws : List ObjectSchema} (h : n.unionVariants = ws.map .object) :
    ∀ b, .bool b ∉ n.unionVariants := by
  intro b hb
  rw [h] at hb
  obtain ⟨w, -, e⟩ := List.mem_map.1 hb
  cases e

/-- What settles breaks no rule. -/
theorem not_malformed_of_settlesUnions (hn : (Schema.object n).Regular) (h : o.SettlesUnions n u) :
    ¬ n.Malformed := by
  have hempty : n.oneOf.getD [] = [] ∨ n.anyOf.getD [] = [] := by
    cases h with
    | enumerated _ hany => exact .inr hany
    | optional hone => exact .inl hone
    | tagged _ hany => exact .inr hany
    | untagged hone => exact .inl hone
  have hobjects : ∀ b, .bool b ∉ n.unionVariants := by
    cases h with
    | enumerated hone hany => exact objects_of_variants (by rw [unionVariants, hone, hany, List.append_nil])
    | optional hone he =>
      intro b hb
      rw [unionVariants, hone, List.nil_append] at hb
      rcases he.eq_of_mem hn hb with e | e <;> cases e
    | tagged hone hany => exact objects_of_variants (by rw [unionVariants, hone, hany, List.append_nil])
    | untagged hone hany => exact objects_of_variants (by rw [unionVariants, hone, hany, List.nil_append])
  rintro (⟨hone, hany⟩ | hb | ⟨hab, ha, hb⟩ | ⟨hw, hp⟩)
  · exact hempty.elim hone hany
  · exact hobjects _ hb
  · cases h with
    | enumerated _ hany => simp [hab] at hany
    | optional _ he =>
      obtain ⟨a', b', hab', ⟨-, rfl⟩ | ⟨rfl, -⟩⟩ := he.entries <;> cases hab.symm.trans hab'
      · cases hb.symm.trans he.entry
      · cases ha.symm.trans he.entry
    | tagged _ hany => simp [hab] at hany
    | untagged _ _ hpair => cases ha.symm.trans (hpair _ _ hab).1
  · cases h with
    | @enumerated t ws hone _ _ henums =>
      rw [hone] at hw
      obtain ⟨w', hw', e⟩ := List.mem_map.1 hw
      cases e
      have habout := (henums _ hw').1
      rw [isAboutObjects, Bool.or_eq_false_iff] at habout
      simp [properties_eq_nil habout.1] at hp
    | optional hone => rw [hone] at hw; cases hw
    | @tagged ws hone _ _ htags =>
      rw [hone] at hw
      obtain ⟨w', hw', e⟩ := List.mem_map.1 hw
      cases e
      have := htags _ hw'
      omega
    | untagged hone => rw [hone] at hw; cases hw

theorem not_malformed_of_settle (hn : (Schema.object n).Regular) (h : (o.settle path n).outcome = .ok m) :
    ¬ n.Malformed := by
  obtain ⟨u, hu, -⟩ := settle_eq_ok hn h
  exact not_malformed_of_settlesUnions hn hu

/-! ## What restructuring leaves of a variant -/

theorem eq_none_of_rel {α β : Type} {ρ : α → β → Prop} {b : Option β} (h : Option.Rel ρ none b) : b = none := by
  cases h
  rfl

/-- The entry that only admits `null` has no children: it stays while those are restructured. -/
theorem eq_nullNode_of_rel {ρ : Schema → Schema → Prop} (hf : ∀ k : Keyword, k.Rel ρ (nullNode.field k) (n.field k))
    (he : n.extensions = nullNode.extensions) (ho : n.other = nullNode.other) : n = nullNode := by
  refine ext_field (fun k => ?_) he ho
  have hk := hf k
  cases k
  case anyOf | oneOf | items | additionalItems | contains | additionalProperties | propertyNames =>
    exact eq_none_of_rel hk
  case properties | patternProperties => exact List.forall₂_nil_left_iff.1 hk
  all_goals exact Eq.symm hk

theorem settle_nullNode (h : (o.settle path nullNode).outcome = .ok m) : m = nullNode := by
  obtain ⟨u, hu, rfl⟩ := settle_eq_ok regular_nullNode h
  have hclean : o.cleanEnum nullNode = nullNode := by
    unfold cleanEnum
    split <;> rfl
  have hfinish : o.finish nullNode = nullNode := by
    unfold finish cleanItems
    split <;> rfl
  cases hu with
  | enumerated hone _ hne => exact absurd (List.map_eq_nil_iff.1 hone.symm) hne
  | optional _ he => cases he.mem
  | tagged hone _ hobjects =>
    obtain ⟨w, hw, -⟩ := hobjects
    rw [List.map_eq_nil_iff.1 hone.symm] at hw
    cases hw
  | untagged _ hany =>
    rw [List.map_eq_nil_iff.1 hany.symm, hclean]
    exact hfinish

/-- A value that reads as the entry that only admits `null` is restructured as one. -/
theorem Restructures.nullNode {v r : Json} (hd : v.hasDistinctNames = true) (hv : Node.decode v = .ok nullNode)
    (h : o.Restructures v r) : Node.decode r = .ok KubeSchema.nullNode := by
  obtain ⟨ms, rfl⟩ := exists_obj_of_decode hv
  obtain ⟨path, ms', r', hslots, hr, rfl⟩ := h.slots
  obtain ⟨n, hn, hrel⟩ := exists_decode_of_slots hslots hv
  have hother : Members.SlotsMap o.Restructures [] n.other := other_of_slotsMap hslots hv hn
  obtain rfl := eq_nullNode_of_rel hrel (extensions_of_slotsMap hslots hv hn) (List.forall₂_nil_left_iff.1 hother)
  rcases restructureMembers_eq_ok hr with ⟨e, -, rfl⟩ | ⟨n', m, hn', hm, hread | ⟨-, rfl⟩⟩
  · exact hn
  · cases hn.symm.trans hn'
    obtain rfl := settle_nullNode hm
    cases (readable_eq_ok.1 hread).1
    rfl
  · exact hn

theorem Rewrites.nullNode {ms : Members Json} {s : Schema} (hd : (Json.obj ms).hasDistinctNames = true)
    (h : o.Rewrites ms (.object KubeSchema.nullNode) s) : s = .object KubeSchema.nullNode := by
  rcases h.cases with ⟨b, e, -⟩ | ⟨x, hx, x', n, n', hr, hn, hn', e, rfl⟩
  · cases e
  · cases e
    cases hn'.symm.trans (hr.nullNode (Json.hasDistinctNames_child hd hx) hn)
    rfl

/-- Settling takes no property away. -/
theorem length_properties_of_settle (hn : (Schema.object n).Regular) (h : (o.settle path n).outcome = .ok m) :
    n.properties.length ≤ m.properties.length := by
  have hd : (Members.names n.properties).Nodup := hn.here.fits .properties
  have hsub : Members.names n.properties ⊆ Members.names m.properties := fun _ hname =>
    (mem_names_of_settle hn h).2 (.inl hname)
  simpa [Members.names] using (List.subperm_of_subset hd hsub).length_le

/-- Restructuring takes no property away. -/
theorem Restructures.length_properties {v r : Json} (hd : v.hasDistinctNames = true) (hv : Node.decode v = .ok n)
    (h : o.Restructures v r) (hr : Node.decode r = .ok m) : n.properties.length ≤ m.properties.length := by
  obtain ⟨ms, rfl⟩ := exists_obj_of_decode hv
  obtain ⟨path, ms', r', hslots, hmembers, rfl⟩ := h.slots
  obtain ⟨n', hn', hrel⟩ := exists_decode_of_slots hslots hv
  have hd' := hslots.hasDistinctNames hd (fun _ _ h => h.hasDistinctNames)
  have hlength : n.properties.length = n'.properties.length := List.Forall₂.length_eq (hrel .properties)
  rcases restructureMembers_eq_ok hmembers with ⟨e, he, rfl⟩ | ⟨n'', m', hn'', hm, hread | ⟨-, rfl⟩⟩
  · cases he.symm.trans hn'
  · cases hn''.symm.trans hn'
    have hreg := regular_of_decode hd' hn'
    have hle := length_properties_of_settle hreg hm
    rw [← properties_of_written hreg hm (readable_eq_ok.1 hread).1 hr] at hle
    omega
  · cases hr.symm.trans hn'
    omega

/-! ## Positions -/

/-- If a document is restructured, then so is the value at each position. -/
theorem Restructures.exists_of_position {v w r : Json} (hw : v.Position w) (h : o.Restructures v r) :
    ∃ r', o.Restructures w r' := by
  induction hw generalizing r with
  | root => exact ⟨r, h⟩
  | @inside v c w hc _ ih =>
    cases v with
    | obj ms =>
      obtain ⟨path, ms', r', hslots, -, rfl⟩ := h.slots
      obtain ⟨c', -, hr⟩ := exists_of_mem_left hslots.children hc
      exact ih hr
    | _ => cases hc

theorem hasDistinctNames_of_position {v w : Json} (hw : v.Position w) (hd : v.hasDistinctNames = true) :
    w.hasDistinctNames = true := by
  induction hw with
  | root => exact hd
  | inside hc _ ih => exact ih (Json.hasDistinctNames_child hd hc)

/-- A malformed schema object stays malformed while its children are restructured. -/
theorem malformed_of_rel {ms : Members Json} {n' : ObjectSchema} (hd : (Json.obj ms).hasDistinctNames = true)
    (hn : (Schema.object n).Regular) (hrel : ∀ k : Keyword, k.Rel (o.Rewrites ms) (n.field k) (n'.field k))
    (h : n.Malformed) : n'.Malformed := by
  have hone : List.Forall₂ (o.Rewrites ms) (n.oneOf.getD []) (n'.oneOf.getD []) := forall₂_variants hrel .oneOf
  have hany : List.Forall₂ (o.Rewrites ms) (n.anyOf.getD []) (n'.anyOf.getD []) := forall₂_variants hrel .anyOf
  cases h with
  | bothUnions h h' =>
    refine .bothUnions (fun e => h ?_) (fun e => h' ?_)
    · rw [e] at hone
      exact List.forall₂_nil_right_iff.1 hone
    · rw [e] at hany
      exact List.forall₂_nil_right_iff.1 hany
  | @booleanVariant b hb =>
    obtain ⟨s', hs', hρ⟩ := exists_of_mem_left (forall₂_unionVariants hrel) hb
    rcases hρ.cases with ⟨b', e, rfl⟩ | ⟨_, _, _, _, _, _, _, _, e, _⟩
    · exact .booleanVariant hs'
    · cases e
  | @onlyNull a b hab ha hb =>
    have hreg {s : Schema} (hs : s ∈ [a, b]) : s.Regular :=
      hn.child s (mem_children.2 ⟨.anyOf, by simpa [Keyword.children, field, hab] using hs⟩)
    rw [hab, Option.getD_some, eq_nullNode_of_isNullEntry (hreg (by simp)) ha,
      eq_nullNode_of_isNullEntry (hreg (by simp)) hb] at hany
    cases h' : n'.anyOf with
    | none => rw [h'] at hany; cases hany
    | some l =>
      rw [h', Option.getD_some] at hany
      obtain ⟨a', l, ha', hl, rfl⟩ := List.forall₂_cons_left_iff.1 hany
      obtain ⟨b', l, hb', hnil, rfl⟩ := List.forall₂_cons_left_iff.1 hl
      cases List.forall₂_nil_left_iff.1 hnil
      obtain rfl := ha'.nullNode hd
      obtain rfl := hb'.nullNode hd
      exact .onlyNull h' isNullEntry_nullNode isNullEntry_nullNode
  | @severalTags w hw hp =>
    obtain ⟨s', hs', hρ⟩ := exists_of_mem_left hone hw
    rcases hρ.cases with ⟨b', e, -⟩ | ⟨x, hx, x', w', w'', hr, hw', hw'', e, rfl⟩
    · cases e
    · cases e
      have := hr.length_properties (Json.hasDistinctNames_child hd hx) hw' hw''
      exact .severalTags hs' (by omega)

/-- A document with a malformed schema object at some position is not restructured: it fails by a violation. -/
theorem restructure_malformed {v w : Json} (hd : v.hasDistinctNames = true) (hw : v.Position w)
    (hn : Node.decode w = .ok n) (h : n.Malformed) :
    ∃ cause path, (o.restructure v).outcome = .error (.violation cause path) := by
  cases hr : (o.restructure v).outcome with
  | error e =>
    obtain ⟨cause, path, rfl⟩ := onlyViolates_restructureAt hd [] e hr
    exact ⟨cause, path, rfl⟩
  | ok r =>
    obtain ⟨r', hr'⟩ := Restructures.exists_of_position hw ⟨[], hr⟩
    have hdw := hasDistinctNames_of_position hw hd
    obtain ⟨ms, rfl⟩ := exists_obj_of_decode hn
    obtain ⟨path, ms', r'', hslots, hmembers, rfl⟩ := hr'.slots
    obtain ⟨n', hn', hrel⟩ := exists_decode_of_slots hslots hn
    have hd' := hslots.hasDistinctNames hdw (fun _ _ h => h.hasDistinctNames)
    rcases restructureMembers_eq_ok hmembers with ⟨e, he, rfl⟩ | ⟨n'', m, hn'', hm, -⟩
    · cases he.symm.trans hn'
    · cases hn''.symm.trans hn'
      refine absurd ?_ (not_malformed_of_settle (regular_of_decode hd' hn') hm)
      exact malformed_of_rel hdw (regular_of_decode hdw hn) hrel h

/-- A boolean variant is found below keywords that are modeled and that are not. -/
theorem boolean_variant_fails :
    ∃ cause path,
      (Options.restructure {} (.obj [("not", .obj [("items", .obj [("anyOf", .arr [.bool true])])])])).outcome =
        .error (.violation cause path) :=
  restructure_malformed (w := .obj [("anyOf", .arr [.bool true])]) rfl
    (.inside (c := .obj [("items", .obj [("anyOf", .arr [.bool true])])]) (by decide)
      (.inside (c := .obj [("anyOf", .arr [.bool true])]) (by decide) (.root _)))
    rfl (.booleanVariant (b := true) (by simp [Node.unionVariants]))

end Options

end KubeSchema
