import KubeSchema.Proofs.Meaning.Values
import KubeSchema.Proofs.Union.Enum

/-!
# Enums stated as unions keep their meaning

A `oneOf` of enums admits what exactly one of its variants lists. Once the variants are an enum of the parent, whatever
one of them lists is admitted, so that nothing is lost. If the variants state nothing else, and no two of them list the
same value, nothing is gained.

* `Schema.accepts`: the meaning of `type`, `enum`, `const` and `oneOf`, all other keywords meaning whatever a predicate
  says.
* `accepts_enumerated_iff`: what a union of enums accepts once it is an enum.
* `accepts_enumerated`: the union before and after.
-/

namespace KubeSchema

/-! ## The meaning of a list of values -/

namespace Node

/-- The keywords of a schema object but `type`, `enum`, `const` and `oneOf`. -/
def besidesValues (n : ObjectSchema) : ObjectSchema :=
  { n with types := none, enum := none, oneOf := none, other := n.other.filter (fun m => m.1 ≠ "const") }

/-- Whether an instance is of the type of a schema object and among its values. -/
def acceptsValue (n : ObjectSchema) (x : Json) : Bool :=
  n.types.all (·.admits x) && n.enum.all (·.any (fun value => decide (value.Equals x))) &&
    (Members.get? n.other "const").all (fun value => decide (value.Equals x))

end Node

/-- Whether a schema accepts an instance, keywords other than `type`, `enum`, `const` and `oneOf` being given a
meaning. -/
def Schema.accepts (others : ObjectSchema → Json → Bool) (x : Json) : Schema → Bool :=
  Schema.judge fun n oneOf _ => n.acceptsValue x && oneOf.all (·.count true == 1) && others n.besidesValues x

variable {others : ObjectSchema → Json → Bool} {x : Json} {n : ObjectSchema}

theorem Schema.accepts_object : (Schema.object n).accepts others x = true ↔
    n.acceptsValue x = true ∧ (∀ l, n.oneOf = some l → l.countP (·.accepts others x) = 1) ∧
      others n.besidesValues x = true := by
  rw [Schema.accepts, Schema.judge_object]
  simp [Option.all_eq_true, List.count_eq_countP, List.countP_map, Function.comp_def, and_assoc]

theorem Node.acceptsValue_iff : n.acceptsValue x = true ↔
    (∀ t, n.types = some t → t.admits x = true) ∧
      (∀ values, n.enum = some values → ∃ value ∈ values, value.Equals x) ∧
      ∀ value, Members.get? n.other "const" = some value → value.Equals x := by
  simp [Node.acceptsValue, Option.all_eq_true, and_assoc]

/-! ## A union of enums -/

/-- The values that a variant lists. -/
def Node.listed (n : ObjectSchema) : List Json := n.listedValues?.getD []

/-- What a variant accepts is among the values that it lists. -/
theorem exists_listed_of_acceptsValue {w : ObjectSchema} (hlisted : w.listedValues?.isSome = true)
    (h : w.acceptsValue x = true) : ∃ value ∈ w.listed, value.Equals x := by
  obtain ⟨-, henum, hconst⟩ := Node.acceptsValue_iff.1 h
  unfold Node.listed Node.listedValues? at *
  cases he : w.enum with
  | some values => exact henum values he
  | none =>
    rw [he, Option.isSome_map] at hlisted
    obtain ⟨value, hvalue⟩ := Option.isSome_iff_exists.1 hlisted
    simpa [hvalue] using hconst value hvalue

/-- A union that has become an enum accepts the values of its variants beside its own, if they are of the type. -/
theorem accepts_enumerated_iff {t : OneOrMany PrimitiveType} {ws : List ObjectSchema} :
    (Schema.object (n.enumerated t ws)).accepts others x = true ↔
      t.admits x = true ∧ (∃ value ∈ n.enum.getD [] ++ ws.flatMap Node.listed, value.Equals x) ∧
        (∀ value, Members.get? n.other "const" = some value → value.Equals x) ∧
        others n.besidesValues x = true := by
  have hkept : (n.enumerated t ws).besidesValues = n.besidesValues := rfl
  have hunion : (n.enumerated t ws).oneOf = none := rfl
  rw [Schema.accepts_object, Node.acceptsValue_iff, hkept, hunion]
  simp [Node.enumerated, Node.listed, and_assoc]

/-- What one of the variants accepts is of their type and listed by that variant. -/
theorem accepts_enumerated_of_union {t : OneOrMany PrimitiveType} {ws : List ObjectSchema}
    (hunion : n.oneOf = some (ws.map .object))
    (hws : ∀ w ∈ ws, w.types = some t ∧ w.listedValues?.isSome = true)
    (h : (Schema.object n).accepts others x = true) :
    (Schema.object (n.enumerated t ws)).accepts others x = true := by
  obtain ⟨hvalue, hone, hothers⟩ := Schema.accepts_object.1 h
  obtain ⟨s, hs, haccepts⟩ := List.countP_pos_iff.1 (hone _ hunion ▸ Nat.one_pos)
  obtain ⟨w, hw, rfl⟩ := List.mem_map.1 hs
  obtain ⟨htypes, hlisted⟩ := hws w hw
  obtain ⟨hvariant, -⟩ := Schema.accepts_object.1 haccepts
  obtain ⟨value, hmem, hequals⟩ := exists_listed_of_acceptsValue hlisted hvariant
  have hmem : value ∈ n.enum.getD [] ++ ws.flatMap Node.listed :=
    List.mem_append_right _ (List.mem_flatMap.2 ⟨w, hw, hmem⟩)
  exact accepts_enumerated_iff.2 ⟨(Node.acceptsValue_iff.1 hvariant).1 t htypes, ⟨value, hmem, hequals⟩,
    (Node.acceptsValue_iff.1 hvalue).2.2, hothers⟩

/-! ## Variants that state values only -/

/-- A variant that states nothing but a type and values: one value by itself as `const`, or a list as `enum`. -/
structure Listing where
  description : Option String
  types : OneOrMany PrimitiveType
  values : OneOrMany Json

namespace Listing

def node (l : Listing) : ObjectSchema :=
  match l.values with
  | .one value => { description := l.description, types := some l.types, other := [("const", value)] }
  | .many values => { description := l.description, types := some l.types, enum := some values }

def variant (l : Listing) : Schema := .object l.node

theorem types_node (l : Listing) : l.node.types = some l.types := by
  rw [node]
  split <;> rfl

theorem accepts_variant_iff {l : Listing} (hothers : ∀ description, others { description } x = true) :
    l.variant.accepts others x = true ↔ l.types.admits x = true ∧ ∃ value ∈ l.node.listed, value.Equals x := by
  obtain ⟨description, types, value | values⟩ := l
  all_goals
    have hbesides : others { description } x = true := hothers description
    rw [Listing.variant, Schema.accepts_object, Node.acceptsValue_iff]
    simp [Listing.node, Node.listed, Node.listedValues?, Node.besidesValues, Members.get?, hbesides]

end Listing

/-- If at most one element satisfies a predicate, and some element does, then exactly one does. -/
theorem countP_eq_one_of_pairwise {α : Type} {p : α → Bool} {l : List α}
    (h : l.Pairwise fun a b => p a = true → p b = false) (hex : ∃ a ∈ l, p a = true) : l.countP p = 1 := by
  induction h with
  | nil =>
    obtain ⟨a, ha, -⟩ := hex
    cases ha
  | @cons a l hhead _ ih =>
    rw [List.countP_cons]
    cases ha : p a with
    | true =>
      have hnone : l.countP p = 0 := List.countP_eq_zero.2 fun b hb => Bool.eq_false_iff.1 (hhead b hb ha)
      rw [hnone]
      rfl
    | false =>
      obtain ⟨b, hb, hpb⟩ := hex
      rcases List.mem_cons.1 hb with rfl | hb
      · rw [ha] at hpb
        cases hpb
      · exact ih ⟨b, hb, hpb⟩

/-- If no two variants list the same value, an instance among the values is accepted by exactly one variant. -/
theorem accepts_union_of_enumerated {t : OneOrMany PrimitiveType} {ls : List Listing}
    (hothers : ∀ description, others { description } x = true) (htypes : n.types = none) (henum : n.enum = none)
    (hunion : n.oneOf = some (ls.map Listing.variant)) (hls : ∀ l ∈ ls, l.types = t)
    (hdistinct : ls.Pairwise fun l l' => ∀ v ∈ l.node.listed, ∀ w ∈ l'.node.listed, ¬v.Equals w)
    (h : (Schema.object (n.enumerated t (ls.map Listing.node))).accepts others x = true) :
    (Schema.object n).accepts others x = true := by
  obtain ⟨htype, ⟨value, hmem, hequals⟩, hconst, hbesides⟩ := accepts_enumerated_iff.1 h
  rw [henum, Option.getD_none, List.nil_append, List.mem_flatMap] at hmem
  obtain ⟨_, hw, hmem⟩ := hmem
  obtain ⟨l, hl, rfl⟩ := List.mem_map.1 hw
  have hvariant (l : Listing) : l.variant.accepts others x = true ↔
      l.types.admits x = true ∧ ∃ value ∈ l.node.listed, value.Equals x := Listing.accepts_variant_iff hothers
  have hcount : ls.countP (fun l => l.variant.accepts others x) = 1 := by
    refine countP_eq_one_of_pairwise (hdistinct.imp fun {l l'} hne hl => ?_) ⟨l, hl, ?_⟩
    · obtain ⟨-, v, hv, hvx⟩ := (hvariant l).1 hl
      refine Bool.eq_false_iff.2 fun hl' => ?_
      obtain ⟨-, w, hw, hwx⟩ := (hvariant l').1 hl'
      exact hne v hv w hw (hvx.trans hwx.symm)
    · exact (hvariant l).2 ⟨hls l hl ▸ htype, value, hmem, hequals⟩
  refine Schema.accepts_object.2 ⟨?_, fun l' hl' => ?_, hbesides⟩
  · rw [Node.acceptsValue_iff, htypes, henum]
    exact ⟨nofun, nofun, hconst⟩
  · rw [hunion] at hl'
    cases hl'
    rwa [List.countP_map]

/-! ## Before and after -/

/-- The union before and after it became an enum: what was accepted still is. Where the parent has no type and no values
of its own, the variants state values only, and no two of them list the same value, nothing else is accepted. -/
theorem accepts_enumerated {path : Pointer} {m : ObjectSchema}
    (h : (n.hoistEnumVariants path).outcome = .ok (some m)) :
    (∀ x, (Schema.object n).accepts others x = true → (Schema.object m).accepts others x = true) ∧
      ∀ ls : List Listing, (∀ description x, others { description } x = true) →
        n.types = none → n.enum = none → n.oneOf = some (ls.map Listing.variant) →
        (ls.Pairwise fun l l' => ∀ v ∈ l.node.listed, ∀ w ∈ l'.node.listed, ¬v.Equals w) →
        ∀ x, (Schema.object n).accepts others x = true ↔ (Schema.object m).accepts others x = true := by
  obtain ⟨hnone, -⟩ | ⟨t, ws, hvariants, hne, hws, hm⟩ := Node.hoistEnumVariants_eq_ok h
  · cases hnone
  cases hm
  have hunion : n.oneOf = some (ws.map .object) := by
    cases hone : n.oneOf with
    | none =>
      rw [hone] at hvariants
      exact absurd (List.map_eq_nil_iff.1 hvariants.symm) hne
    | some l => rw [← hvariants, hone, Option.getD_some]
  have hwider (x : Json) : (Schema.object n).accepts others x = true →
      (Schema.object (n.enumerated t ws)).accepts others x = true :=
    accepts_enumerated_of_union hunion fun w hw => (hws w hw).2
  refine ⟨hwider, fun ls hothers htypes henum hls hdistinct x => ⟨hwider x, fun hx => ?_⟩⟩
  have hnodes : ws = ls.map Listing.node := by
    have hmap : ls.map Listing.variant = (ls.map Listing.node).map Schema.object := by
      rw [List.map_map]
      rfl
    rw [hunion, Option.some.injEq, hmap] at hls
    exact (List.map_inj_right (fun _ _ => Schema.object.inj)).1 hls
  subst hnodes
  refine accepts_union_of_enumerated (hothers · x) htypes henum hls (fun l hl => ?_) hdistinct hx
  have hsame : l.node.types = some t := (hws _ (List.mem_map_of_mem hl)).2.1
  rw [Listing.types_node] at hsame
  exact Option.some.inj hsame

/-- A union of numbers, one of which is listed twice, by the same variant; the parent has a maximum. -/
theorem accepts_enumerated_of_numbers :
    let others (m : ObjectSchema) (x : Json) : Bool :=
      match Members.get? m.other "maximum", x with
      | some (.int maximum), .int value => value ≤ maximum
      | _, _ => true
    let ls : List Listing :=
      [⟨some "small", .one .number, .many [.int 1, .int 2]⟩,
        ⟨none, .one .number, .one (.double (.finite false 25 (-1)))⟩,
        ⟨some "large", .one .number, .many [.double (.finite false 1 2), .int 100]⟩]
    let n : ObjectSchema :=
      { description := some "a size", oneOf := some (ls.map Listing.variant), other := [("maximum", .int 50)] }
    let m := n.enumerated (.one .number) (ls.map Listing.node)
    (n.hoistEnumVariants []).outcome = .ok (some m) ∧
      (∀ x, (Schema.object n).accepts others x = true → (Schema.object m).accepts others x = true) ∧
      ∀ x, (Schema.object n).accepts others x = true ↔ (Schema.object m).accepts others x = true := by
  intro others ls n m
  have hm : (n.hoistEnumVariants []).outcome = .ok (some m) := rfl
  have hothers : ∀ description x, others { description } x = true := fun _ _ => rfl
  have hdistinct : ls.Pairwise fun l l' => ∀ v ∈ l.node.listed, ∀ w ∈ l'.node.listed, ¬v.Equals w := by decide
  obtain ⟨hwider, hexact⟩ := @accepts_enumerated others n [] m hm
  exact ⟨hm, hwider, hexact ls hothers rfl rfl rfl hdistinct⟩

end KubeSchema
