import KubeSchema.Proofs.Permuted.Unions
import KubeSchema.Proofs.Violations

/-!
# What hoisting properties comes to

Variants hand over their properties one after the other, each compared with what was declared under its name before.
Together this is a condition on all declarations of a union (`Node.Unanimous`), and what the parent has afterwards is
the first declaration of each name (`Node.HandsOver`).

* `foldl_addProperty_eq`: properties put after those that are there.
* `hoistable_iff_unanimous`: the comparisons one after the other, as one condition.
* `hoistProperties_hands_over`: when a union hands over its properties, and what that gives.
-/

namespace KubeSchema

namespace Members

variable {α : Type}

/-- Of the members under each name, the first. -/
def firsts : Members α → Members α
  | [] => []
  | m :: ms => m :: (firsts ms).filter (fun p => p.1 ≠ m.1)

end Members

/-- A variant without what it hands over. -/
def Schema.hoisted : Schema → Schema
  | .bool b => .bool b
  | .object w => .object w.hoistedVariant

namespace Node

variable {u : Union} {path : Pointer} {n w : ObjectSchema} {ws : List ObjectSchema} {l ps : List (String × Schema)}

/-! ## Declarations -/

/-- The properties that the variants of a union declare, tags with the descriptions of their variants. -/
def offered (u : Union) (n : ObjectSchema) : List (String × Schema) :=
  ((n.variants u).getD []).flatMap fun
    | .bool _ => []
    | .object w => handed u w

/-- Whoever declares a property, the schema object or a variant of the union, declares it alike. -/
def Unanimous (u : Union) (n : ObjectSchema) : Prop :=
  ∀ p ∈ n.properties ++ n.offered u, ∀ q ∈ n.properties ++ n.offered u, p.1 = q.1 → p.2.isAlike q.2 = .ok true

theorem offered_eq (h : (n.variants u).getD [] = ws.map .object) : n.offered u = ws.flatMap (handed u) := by
  rw [offered, h, List.flatMap_map]

/-- Properties are put after those that are there, the first one of each new name. -/
theorem foldl_addProperty_eq (l ps : List (String × Schema)) :
    ps.foldl addProperty l = l ++ (Members.firsts ps).filter (fun p => p.1 ∉ Members.names l) := by
  induction ps generalizing l with
  | nil => simp [Members.firsts]
  | cons p ps ih =>
    rw [List.foldl_cons, ih, Members.firsts, List.filter_cons, List.filter_filter]
    by_cases hp : p.1 ∈ Members.names l
    · have hadd : addProperty l p = l := if_pos ((Members.has_iff_mem_names _ _).2 hp)
      rw [hadd, if_neg (by simpa using hp)]
      refine congrArg _ (List.filter_congr fun q _ => ?_)
      by_cases hq : q.1 = p.1 <;> simp [hq, hp]
    · have hadd : addProperty l p = l ++ [p] := by
        rw [addProperty, if_neg (by rwa [Members.has_iff_mem_names]), Members.set_of_not_mem hp]
      rw [hadd, if_pos (by simpa using hp), List.append_assoc, List.singleton_append]
      refine congrArg (l ++ p :: ·) (List.filter_congr fun q _ => ?_)
      have hmem : q.1 ∈ Members.names (l ++ [p]) ↔ q.1 ∈ Members.names l ∨ q.1 = p.1 := by
        rw [Members.names_append, List.mem_append]
        exact or_congr_right List.mem_singleton
      simp [hmem, not_or]

/-- Compared one after the other, properties can be merged exactly if all declarations of one name are alike. -/
theorem mergeable_iff_pairwise (hd : Members.Distinct l) :
    Mergeable l ps ↔ (l ++ ps).Pairwise (fun p q => p.1 = q.1 → p.2.isAlike q.2 = .ok true) := by
  have hown : l.Pairwise (fun p q => p.1 = q.1 → p.2.isAlike q.2 = .ok true) :=
    (List.pairwise_map.1 hd).imp fun hne hname => absurd hname hne
  rw [List.pairwise_append]
  constructor
  · intro h
    exact ⟨hown, h.pairwise, fun p hp q hq hname => h.declared q hq p.2 (hname ▸ Members.get?_of_mem hd hp)⟩
  · rintro ⟨-, hps, hboth⟩
    exact ⟨fun q hq s hs => hboth (q.1, s) (Members.mem_of_get? hs) q hq rfl, hps⟩

/-- The variants of a union can hand over their properties if all declarations of one name are alike. -/
theorem hoistable_iff_unanimous (hn : (Schema.object n).Regular) (hws : (n.variants u).getD [] = ws.map .object) :
    Hoistable u n.properties ws ↔ (u = .oneOf → ∀ w ∈ ws, w.properties.length ≤ 1) ∧ n.Unanimous u := by
  have hregular : ∀ p ∈ n.properties ++ n.offered u, p.2.Regular := by
    intro p hp
    rcases List.mem_append.1 hp with hp | hp
    · exact hn.child _ (mem_children.2 ⟨.properties, List.mem_map_of_mem hp⟩)
    · rw [offered_eq hws] at hp
      obtain ⟨w, hw, hp⟩ := List.mem_flatMap.1 hp
      exact regular_handed (hn.child _ (unionVariants_subset_children (mem_unionVariants hws hw))) p hp
  have hdistinct : Members.Distinct n.properties := hn.here.fits .properties
  have hmerge : Mergeable n.properties (ws.flatMap (handed u)) ↔ _ := mergeable_iff_pairwise hdistinct
  have hall : (n.properties ++ n.offered u).Pairwise (fun p q => p.1 = q.1 → p.2.isAlike q.2 = .ok true) ↔
      n.Unanimous u := by
    refine ⟨fun h => ?_, List.pairwise_of_forall_mem_list⟩
    have hflip : (n.properties ++ n.offered u).Pairwise (flip fun p q => p.1 = q.1 → p.2.isAlike q.2 = .ok true) :=
      h.imp fun hpq hname => isAlike_symm (hpq hname.symm)
    have h := h.forall_of_forall_of_flip (fun p hp _ => isAlike_refl (hregular p hp)) hflip
    exact fun p hp q hq => h hp hq
  rw [offered_eq hws] at hall
  exact ⟨fun h => ⟨h.tags, hall.1 (hmerge.1 h.mergeable)⟩, fun h => ⟨h.1, hmerge.2 (hall.2 h.2)⟩⟩

/-! ## The parent and its variants -/

/-- What handing over the properties of a union leaves: the parent has the first declaration of each name, its own
before those of the variants, and the type of objects if a variant has an object keyword; the variants have lost what
they handed over, and nothing else is different. -/
structure HandsOver (u : Union) (n m : ObjectSchema) : Prop where
  properties : m.properties =
    n.properties ++ (Members.firsts (n.offered u)).filter (fun p => p.1 ∉ Members.names n.properties)
  typed : ∀ w, .object w ∈ (n.variants u).getD [] → w.hasObjectKeywords = true → m.types = some (.one .object)
  untyped : (∀ w, .object w ∈ (n.variants u).getD [] → w.hasObjectKeywords = false) → m.types = n.types
  variants : m.variants u = (n.variants u).map (List.map Schema.hoisted)
  others : m = ({ n with properties := m.properties, types := m.types } : ObjectSchema).setVariants u (m.variants u)
  /-- A tag has the description of its variant, whoever else declares it. -/
  descriptions : u = .oneOf → ∀ w text name tag, .object w ∈ (n.variants u).getD [] → w.description = some text →
    w.properties = [(name, .object tag)] →
      ∃ tag' : ObjectSchema, Members.get? m.properties name = some (.object tag') ∧ tag'.description = some text

/-- What a tagged variant hands over is the tag with the description of the variant, and so is what the parent has. -/
theorem description_of_tag {r : Option ObjectSchema} (hn : (Schema.object n).Regular)
    (h : (hoistProperties .oneOf path n).outcome = .ok r) {text name : String} {tag : ObjectSchema}
    (hw : .object w ∈ n.oneOf.getD []) (ht : w.description = some text) (hp : w.properties = [(name, .object tag)]) :
    ∃ tag' : ObjectSchema,
      Members.get? (r.getD n).properties name = some (.object tag') ∧ tag'.description = some text := by
  have hhanded : (name, .object { tag with description := some text }) ∈ handed .oneOf w := by
    simp [handed, hp, ht, describedTag]
  obtain ⟨s, hs, hsame | halike⟩ := hoistProperties_agrees h hw hhanded
  · cases hsame
    exact ⟨_, hs, rfl⟩
  · obtain ⟨ws, hws, hr, -⟩ := hoistProperties_eq_ok h
    have hreg : (Schema.object (r.getD n)).Regular := hr ▸ Options.regular_hoisted hn hws
    have hsreg : s.Regular := hreg.child _
      (mem_children.2 ⟨.properties, List.mem_map_of_mem (f := Prod.snd) (Members.mem_of_get? hs)⟩)
    have htag := regular_handed (hn.child _ (mem_children.2 ⟨.oneOf, hw⟩)) _ hhanded
    rcases (like_of_isAlike hsreg htag halike).cases with ⟨b, -, e⟩ | ⟨tag', _, rfl, e, hlike⟩
    · cases e
    · cases e
      exact ⟨tag', hs, hlike.description_eq⟩

theorem handsOver_of_hoistProperties {r : Option ObjectSchema} (hn : (Schema.object n).Regular)
    (h : (hoistProperties u path n).outcome = .ok r) : n.HandsOver u (r.getD n) := by
  obtain ⟨ws, hws, hr, -⟩ := hoistProperties_eq_ok h
  have htypes : (r.getD n).types = if ws.any hasObjectKeywords then some (.one .object) else n.types := by
    rw [hr]
    cases u <;> rfl
  refine ⟨?_, fun w hw hk => ?_, fun hno => ?_, ?_, ?_, fun hu w text name tag hw ht hp => ?_⟩
  · rw [hr, offered_eq hws, ← foldl_addProperty_eq]
    cases u <;> rfl
  · rw [hws] at hw
    obtain ⟨w', hw', e⟩ := List.mem_map.1 hw
    cases e
    rw [htypes, if_pos (List.any_eq_true.2 ⟨w, hw', hk⟩)]
  · have hnone : ws.any hasObjectKeywords = false :=
      List.any_eq_false.2 fun w hw => by simp [hno w (hws ▸ List.mem_map_of_mem hw)]
    rw [htypes, hnone, if_neg Bool.false_ne_true]
  · have hvariants : (n.hoisted u ws).variants u =
        (n.variants u).map (fun _ => ws.map (fun w => .object (hoistedVariant w))) := by cases u <;> rfl
    rw [hr, hvariants]
    refine Option.map_congr fun vs hvs => ?_
    have hvs : vs = ws.map .object := by rw [← hws, hvs, Option.getD_some]
    rw [hvs, List.map_map]
    rfl
  · rw [hr]
    cases u <;> rfl
  · subst hu
    exact description_of_tag hn h hw ht hp

/-- Something is handed over, or at least a type taken off, if a variant is about objects. -/
theorem isSome_hoistProperties {r : Option ObjectSchema} (h : (hoistProperties u path n).outcome = .ok r) :
    r.isSome = true ↔ ∃ w, .object w ∈ (n.variants u).getD [] ∧ (w.hasObjectKeywords || w.isOnly .object) = true := by
  unfold hoistProperties at h
  split at h
  · cases h
  · obtain ⟨hoist, hvariants, h⟩ := Traced.bind_eq_ok.1 h
    obtain ⟨ws, hws, -, -, hchanged, -⟩ := hoistVariants_eq_ok hvariants
    have hsome : r.isSome = hoist.changed := by
      split at h
      · next hc =>
        obtain ⟨-, -, h⟩ := Traced.bind_eq_ok.1 h
        cases h
        exact hc.symm
      · next hc =>
        cases h
        exact (Bool.eq_false_iff.2 hc).symm
    rw [hsome, hchanged, hws, List.any_eq_true]
    simp

/-- A union hands over its properties if the other one has no variants, its own are schema objects, each of them with
one property at most if they are tagged, and all declarations of a property are alike. -/
theorem hoistProperties_hands_over {v : Json} (hd : v.hasDistinctNames = true) (hn : Node.decode v = .ok n)
    (u : Union) (path : Pointer) :
    ((∃ r, (hoistProperties u path n).outcome = .ok r) ↔
      n.hasConflictingUnions = false ∧ (∀ b, .bool b ∉ (n.variants u).getD []) ∧
        (u = .oneOf → ∀ w, .object w ∈ (n.variants u).getD [] → w.properties.length ≤ 1) ∧ n.Unanimous u) ∧
      ∀ r, (hoistProperties u path n).outcome = .ok r → n.HandsOver u (r.getD n) ∧
        (r.isSome = true ↔
          ∃ w, .object w ∈ (n.variants u).getD [] ∧ (w.hasObjectKeywords || w.isOnly .object) = true) := by
  have hreg := regular_of_decode hd hn
  refine ⟨?_, fun r hr => ⟨handsOver_of_hoistProperties hreg hr, isSome_hoistProperties hr⟩⟩
  by_cases hobjects : ∃ b, .bool b ∈ (n.variants u).getD []
  · obtain ⟨b, hb⟩ := hobjects
    refine iff_of_false ?_ fun h => h.2.1 b hb
    rintro ⟨r, hr⟩
    obtain ⟨ws, hws, -⟩ := hoistProperties_eq_ok hr
    rw [hws] at hb
    obtain ⟨w, -, e⟩ := List.mem_map.1 hb
    cases e
  · have hobjects : ∀ b, .bool b ∉ (n.variants u).getD [] := not_exists.1 hobjects
    obtain ⟨ws, hws⟩ := exists_objects hobjects
    have htags : (u = .oneOf → ∀ w ∈ ws, w.properties.length ≤ 1) ↔
        (u = .oneOf → ∀ w, .object w ∈ (n.variants u).getD [] → w.properties.length ≤ 1) := by
      simp [hws]
    rw [exists_hoistProperties_iff hws, hoistable_iff_unanimous hreg hws, htags]
    exact and_congr_right fun _ => (and_iff_right hobjects).symm

/-- A tag that two variants share, one of which describes the tag itself. -/
theorem handsOver_shared_tag :
    let values : Json := .arr [.str "a", .str "b"]
    let v : Json := .obj [("oneOf", .arr [
      .obj [("description", .str "Which."), ("properties", .obj [("kind", .obj [("enum", values)])])],
      .obj [("properties", .obj [("kind", .obj [("description", .str "Which."), ("enum", values)])])]])]
    let tag : ObjectSchema := { enum := some [.str "a", .str "b"] }
    let described : ObjectSchema := { tag with description := some "Which." }
    let n : ObjectSchema := { oneOf := some [
      .object { description := some "Which.", properties := [("kind", .object tag)] },
      .object { properties := [("kind", .object described)] }] }
    v.hasDistinctNames = true ∧ Node.decode v = .ok n ∧
      ∃ r, (hoistProperties .oneOf [] n).outcome = .ok r ∧ n.HandsOver .oneOf (r.getD n) := by
  intro values v tag described n
  have hd : v.hasDistinctNames = true := rfl
  have hn : Node.decode v = .ok n := rfl
  obtain ⟨hiff, hresult⟩ := hoistProperties_hands_over hd hn .oneOf []
  have hunanimous : n.Unanimous .oneOf := by
    unfold Unanimous
    decide
  obtain ⟨r, hr⟩ := hiff.2 ⟨rfl, by simp [n, variants], by simp [n, variants], hunanimous⟩
  exact ⟨hd, hn, r, hr, (hresult r hr).1⟩

end Node

end KubeSchema
