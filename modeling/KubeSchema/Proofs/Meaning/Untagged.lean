import KubeSchema.Proofs.Meaning.Tagged

/-!
# Untagged unions admit what they did

An untagged union states closed objects, each with properties of its own. Once the properties are hoisted, those of all
variants bind every instance. An instance that one variant admits has no members but those that this variant declares,
and the parent's schema of such a member, which may be another variant's, agrees with the schema of this one.

* `admits_untaggedUnion_iff`, `admits_hoistedUntagged_iff`: what the union admits, and what it does after hoisting.
* `admits_untagged`: what the union admits before its properties are hoisted, it admits afterwards.
-/

namespace KubeSchema

variable {valid : Schema → Json → Bool} {n : ObjectSchema} {cs : List Closed} {ms : Members Json}

/-! ## The union -/

/-- Some variant admits an instance. -/
theorem admits_untaggedUnion_iff (hn : n.IsUnion .anyOf (cs.map Closed.variant)) {x : Json} :
    (Schema.object n).admits valid x = true ↔ ∃ c ∈ cs, c.variant.admits valid x = true := by
  rw [Schema.admits_object]
  have hunion : n.oneOf = none ∧ n.anyOf = some (cs.map Closed.variant) ∧ n.types = none := by
    rw [hn]
    exact ⟨rfl, rfl, rfl⟩
  simp [hunion, hn.admitsMembers]

/-- The parent receives the properties of all variants, and what one of the variants requires must be there. -/
theorem admits_hoistedUntagged_iff (hn : n.IsUnion .anyOf (cs.map Closed.variant)) :
    (Schema.object (n.hoisted .anyOf (cs.map Closed.node))).admits valid (.obj ms) = true ↔
      (∀ p ∈ Node.received .anyOf [] (cs.map Closed.node), ∀ y, Members.get? ms p.1 = some y → valid p.2 y = true) ∧
        ∃ c ∈ cs, ∀ name ∈ c.required.names, Members.has ms name = true := by
  have hunion : (n.hoisted .anyOf (cs.map Closed.node)).oneOf = none ∧
      (n.hoisted .anyOf (cs.map Closed.node)).anyOf =
        some (cs.map fun c => .object (Node.hoistedVariant c.node)) := by
    rw [hn]
    simp [Node.hoisted, Node.receive, Node.annotations, Node.setVariants, Node.variants, Function.comp_def]
  rw [Schema.admits_object, hn.admitsMembers_hoisted, hunion.1, hunion.2]
  constructor
  · rintro ⟨-, hmeets, -, hany⟩
    obtain ⟨s, hs, hadmits⟩ := hany _ rfl
    obtain ⟨c, hc, rfl⟩ := List.mem_map.1 hs
    exact ⟨hmeets, c, hc, admits_hoistedClosed_iff.1 hadmits⟩
  · rintro ⟨hmeets, c, hc, hrequired⟩
    refine ⟨fun t ht => ?_, hmeets, fun l hl => ?_, fun l hl => ?_⟩
    · rw [hn.eq_of_types_hoisted ht]
      rfl
    · cases hl
    · cases hl
      exact ⟨_, List.mem_map_of_mem hc, admits_hoistedClosed_iff.2 hrequired⟩

/-! ## Before and after -/

/-- Hoisting that succeeds gives the parent a schema for each property of a variant, which means what the variant's
does. -/
theorem exists_hoisted_of_untagged {path : Pointer} {r : Option ObjectSchema} (hw : RespectsWriting valid)
    (hn : n.IsUnion .anyOf (cs.map Closed.variant)) (h : (n.hoistProperties .anyOf path).outcome = .ok r) :
    r.getD n = n.hoisted .anyOf (cs.map Closed.node) ∧
      ∀ c ∈ cs, ∀ p ∈ c.properties, ∃ s,
        Members.get? (Node.received .anyOf [] (cs.map Closed.node)) p.1 = some s ∧ ∀ x, valid s x = valid p.2 x := by
  have hvariants : cs.map Closed.variant = (cs.map Closed.node).map Schema.object := by
    rw [List.map_map]
    rfl
  obtain ⟨hr, hagree⟩ := Node.IsUnion.exists_hoisted (hvariants ▸ hn) h
  refine ⟨hr, fun c hc p hp => ?_⟩
  obtain ⟨s, hs, hagrees⟩ := hagree c.node (List.mem_map_of_mem hc) p hp
  exact ⟨s, hs, fun x => hw.agrees hagrees x⟩

/-- The members of an instance of one variant are declared by this variant, so that they meet what the parent received
for their names, from whichever variant. -/
theorem valid_of_admits_closed {properties : List (String × Schema)} {c : Closed}
    (hdistinct : Members.Distinct properties)
    (hdeclares : ∀ p ∈ c.properties, ∃ s, Members.get? properties p.1 = some s ∧ ∀ x, valid s x = valid p.2 x)
    (h : c.variant.admits valid (.obj ms) = true) :
    ∀ p ∈ properties, ∀ y, Members.get? ms p.1 = some y → valid p.2 y = true := by
  intro p hp y hy
  obtain ⟨-, hvalid, hdeclared⟩ := admits_closed_iff.1 h
  obtain ⟨own, hown⟩ := Option.isSome_iff_exists.1 (hdeclared _ (Members.mem_of_get? hy))
  have hmem : (p.1, own) ∈ c.properties := Members.mem_of_get? hown
  obtain ⟨s, hs, hmeans⟩ := hdeclares _ hmem
  rw [Members.get?_of_mem hdistinct hp] at hs
  cases hs
  rw [hmeans]
  exact hvalid _ hmem y hy

/-- What an untagged union of closed objects admits, it admits after its properties were hoisted. -/
theorem admits_untagged {path : Pointer} {r : Option ObjectSchema} (hw : RespectsWriting valid)
    (hn : n.IsUnion .anyOf (cs.map Closed.variant)) (h : (n.hoistProperties .anyOf path).outcome = .ok r) :
    ∀ x, (Schema.object n).admits valid x = true → (Schema.object (r.getD n)).admits valid x = true := by
  intro x hx
  obtain ⟨hr, hdeclares⟩ := exists_hoisted_of_untagged hw hn h
  obtain ⟨c, hc, hadmits⟩ := (admits_untaggedUnion_iff hn).1 hx
  obtain ⟨ms, rfl⟩ := exists_obj_of_admits_closed hadmits
  obtain ⟨hrequired, -⟩ := admits_closed_iff.1 hadmits
  have hdistinct : Members.Distinct (Node.received .anyOf [] (cs.map Closed.node)) :=
    Node.distinct_foldl_addProperty (l := []) List.nodup_nil _
  rw [hr, admits_hoistedUntagged_iff hn]
  exact ⟨valid_of_admits_closed hdistinct (hdeclares c hc) hadmits, c, hc, hrequired⟩

/-- Two of three variants declare a property, whose schemas are written alike. -/
theorem admits_untagged_of_shared_property :
    let meets (s : Schema) (x : Json) : Bool :=
      match s with
      | .bool b => b
      | .object _ => x ≠ .null
    let text : Schema := .object { types := some (.one .string) }
    let endpoint (properties : List (String × Schema)) : Schema :=
      .object { types := some (.one .object), properties }
    let cs : List Closed :=
      [⟨some "elsewhere", [("port", text), ("at", endpoint [("host", text), ("zone", text)])], .ofList ["at"]⟩,
        ⟨none, [("at", endpoint [("zone", text), ("host", text)])], .ofList ["at"]⟩,
        ⟨none, [("here", .bool true)], .empty⟩]
    let n : ObjectSchema := { description := some "a place", anyOf := some (cs.map Closed.variant) }
    let m := n.hoisted .anyOf (cs.map Closed.node)
    (n.hoistProperties .anyOf []).outcome = .ok (some m) ∧
      ∀ x, (Schema.object n).admits meets x = true → (Schema.object m).admits meets x = true := by
  intro meets text endpoint cs n m
  have hw : RespectsWriting meets := respectsWriting_of_objects fun _ _ _ => rfl
  have hn : n.IsUnion .anyOf (cs.map Closed.variant) := rfl
  have hm : (n.hoistProperties .anyOf []).outcome = .ok (some m) := rfl
  exact ⟨hm, admits_untagged hw hn hm⟩

end KubeSchema
