import KubeSchema.Proofs.Meaning.Closed
import KubeSchema.Proofs.Union.Agreement

/-!
# Tagged unions keep their meaning

A tagged union states an object of one property, the tag, for each variant. Once the properties are hoisted, a variant
only says that its tag is there. An object that has one of the tags and no other member is admitted as before, also if
several variants share a tag: these agree about its schema, so that they admit the same and never exactly one does.

* `admits_variant_iff`, `admits_hoisted_iff`: what a tagged variant admits, and what the parent does after hoisting.
* `admits_tagged`: the union before and after its properties were hoisted.
-/

namespace KubeSchema

/-! ## The meaning of the schemas of properties -/

/-- Schemas that are written alike mean the same. -/
def RespectsWriting (valid : Schema → Json → Bool) : Prop :=
  ∀ s s', s.isAlike s' = .ok true → ∀ x, valid s x = valid s' x

/-- A description means nothing. -/
def IgnoresDescriptions (valid : Schema → Json → Bool) : Prop :=
  ∀ (n : ObjectSchema) description x, valid (.object { n with description }) x = valid (.object n) x

theorem RespectsWriting.agrees {valid : Schema → Json → Bool} (h : RespectsWriting valid) {s s' : Schema}
    (hs : s.Agrees s') (x : Json) : valid s x = valid s' x := by
  rcases hs with rfl | hs
  · rfl
  · exact h s s' hs x

/-- A meaning that tells no two schema objects apart. -/
theorem respectsWriting_of_objects {valid : Schema → Json → Bool}
    (h : ∀ (n n' : ObjectSchema) x, valid (.object n) x = valid (.object n') x) : RespectsWriting valid := by
  intro s s' halike x
  obtain ⟨a, b, ha, hb, hab⟩ := isAlike_eq_ok_true.1 halike
  cases s <;> cases s'
  · cases ha
    cases hb
    cases hab
    rfl
  · obtain ⟨ms, -, rfl⟩ := map_eq_ok.1 hb
    cases ha
    cases hab
  · obtain ⟨ms, -, rfl⟩ := map_eq_ok.1 ha
    cases hb
    cases hab
  · exact h _ _ x

theorem IgnoresDescriptions.describedTag {valid : Schema → Json → Bool} (h : IgnoresDescriptions valid)
    (description : Option String) (s : Schema) (x : Json) :
    valid (Node.describedTag description s) x = valid s x := by
  cases s with
  | bool b => rfl
  | object n =>
    cases description with
    | none => rfl
    | some text => exact h n (some text) x

/-! ## Tagged variants -/

/-- The annotations of a schema object, and the keywords that are not modeled. -/
def Node.annotations (n : ObjectSchema) : ObjectSchema :=
  { description := n.description, default := n.default, extensions := n.extensions, other := n.other }

/-- A schema object states a union, and otherwise annotations only. -/
def Node.IsUnion (n : ObjectSchema) (u : Union) (vs : List Schema) : Prop := n = n.annotations.setVariants u (some vs)

/-- A tag with the schema of its value. -/
structure Tagged where
  description : Option String
  tag : String
  schema : Schema

namespace Tagged

/-- The object with the tag and nothing else. -/
def node (t : Tagged) : ObjectSchema :=
  { description := t.description
    types := some (.one .object)
    properties := [(t.tag, t.schema)]
    required := .ofList [t.tag]
    additionalProperties := some (.bool false) }

def variant (t : Tagged) : Schema := .object t.node

end Tagged

variable {valid : Schema → Json → Bool} {n : ObjectSchema} {ts : List Tagged}

/-- A tagged variant is a closed object, of its tag. -/
def Tagged.closed (t : Tagged) : Closed :=
  { description := t.description, properties := [(t.tag, t.schema)], required := .ofList [t.tag] }

theorem Tagged.variant_eq (t : Tagged) : t.variant = t.closed.variant := rfl

theorem required_tag (t : Tagged) : t.closed.required.names = [t.tag] := rfl

/-- A tagged variant admits an object with a value under the tag that meets the schema, and nothing else. -/
theorem admits_variant_iff {t : Tagged} {ms : Members Json} : t.variant.admits valid (.obj ms) = true ↔
    (∃ x, Members.get? ms t.tag = some x ∧ valid t.schema x = true) ∧ ∀ name ∈ Members.names ms, name = t.tag := by
  have hdeclared (name : String) : Members.has t.closed.properties name = true ↔ name = t.tag := by
    simp [Members.has_iff_mem_names, Members.names, Tagged.closed]
  simp only [t.variant_eq, admits_closed_iff, required_tag, hdeclared]
  constructor
  · rintro ⟨hrequired, hvalid, hnames⟩
    obtain ⟨x, hx⟩ := Option.isSome_iff_exists.1 (hrequired t.tag (List.mem_singleton.2 rfl))
    refine ⟨⟨x, hx, hvalid (t.tag, t.schema) (List.mem_singleton.2 rfl) x hx⟩, fun name hname => ?_⟩
    obtain ⟨m, hm, rfl⟩ := List.mem_map.1 hname
    exact hnames m hm
  · rintro ⟨⟨x, hx, hvalid⟩, hnames⟩
    refine ⟨fun name hname => ?_, fun p hp y hy => ?_, fun m hm => hnames m.1 (List.mem_map_of_mem hm)⟩
    · cases List.mem_singleton.1 hname
      exact Option.isSome_iff_exists.2 ⟨x, hx⟩
    · cases List.mem_singleton.1 hp
      cases hx.symm.trans hy
      exact hvalid

theorem not_admits_variant {t : Tagged} {x : Json} (h : ∀ ms, x ≠ .obj ms) : t.variant.admits valid x = false := by
  refine Bool.eq_false_iff.2 fun hx => ?_
  obtain ⟨ms, rfl⟩ := exists_obj_of_admits_closed (t.variant_eq ▸ hx)
  exact h ms rfl

/-- A variant after hoisting admits an object that has its tag. -/
theorem admits_hoistedVariant_iff {t : Tagged} {ms : Members Json} :
    (Schema.object (Node.hoistedVariant t.node)).admits valid (.obj ms) = true ↔ Members.has ms t.tag = true := by
  refine (admits_hoistedClosed_iff (c := t.closed)).trans ?_
  rw [required_tag]
  exact List.forall_mem_singleton

/-! ## The union -/

/-- Of the keywords that mean something, there is only `oneOf`. -/
theorem Node.IsUnion.fields {vs : List Schema} (hn : n.IsUnion .oneOf vs) :
    n.oneOf = some vs ∧ n.anyOf = none ∧ n.types = none ∧ n.required = .empty ∧ n.properties = [] ∧
      n.additionalProperties = none := by
  rw [hn]
  exact ⟨rfl, rfl, rfl, rfl, rfl, rfl⟩

section

variable {u : Union} {vs : List Schema} {ws : List ObjectSchema}

/-- A union demands nothing of members. -/
theorem Node.IsUnion.admitsMembers (hn : n.IsUnion u vs) (x : Json) : n.admitsMembers valid x = true := by
  rw [hn]
  cases u <;> cases x <;> rfl

/-- The members of what a union admits after hoisting meet the schemas that the parent has received. -/
theorem Node.IsUnion.admitsMembers_hoisted (hn : n.IsUnion u vs) {ms : Members Json} :
    (n.hoisted u ws).admitsMembers valid (.obj ms) = true ↔
      ∀ p ∈ Node.received u [] ws, ∀ x, Members.get? ms p.1 = some x → valid p.2 x = true := by
  rw [hn]
  cases u <;> simp [Node.admitsMembers, Node.hoisted, Node.receive, Node.annotations, Node.setVariants, NameSet.empty,
    Node.isClosed, Option.all_eq_true]

/-- After hoisting, a union has no type or is about objects. -/
theorem Node.IsUnion.eq_of_types_hoisted (hn : n.IsUnion u vs) {t : OneOrMany PrimitiveType}
    (h : (n.hoisted u ws).types = some t) : t = .one .object := by
  rw [hn] at h
  cases u <;> simp only [Node.hoisted, Node.receive, Node.annotations, Node.setVariants] at h <;> split at h <;> cases h
  all_goals rfl

/-- A union whose properties are hoisted has received a schema for each property that a variant hands over, and the two
agree. -/
theorem Node.IsUnion.exists_hoisted (hn : n.IsUnion u (ws.map .object)) {path : Pointer} {r : Option ObjectSchema}
    (h : (n.hoistProperties u path).outcome = .ok r) :
    r.getD n = n.hoisted u ws ∧
      ∀ w ∈ ws, ∀ p ∈ Node.handed u w, ∃ s, Members.get? (Node.received u [] ws) p.1 = some s ∧ s.Agrees p.2 := by
  have hvariants : (n.variants u).getD [] = ws.map .object := by
    rw [hn]
    cases u <;> rfl
  have hproperties : n.properties = [] := by
    rw [hn]
    cases u <;> rfl
  obtain ⟨ws', hws, hr, -⟩ := Node.hoistProperties_eq_ok h
  rw [hvariants, List.map_inj_right (fun _ _ => Schema.object.inj)] at hws
  subst hws
  refine ⟨hr, fun w hw p hp => ?_⟩
  have hmem : .object w ∈ (n.variants u).getD [] := by
    rw [hvariants]
    exact List.mem_map_of_mem hw
  obtain ⟨s, hs, hagrees⟩ := Node.hoistProperties_agrees h hmem hp
  have hreceived : (n.hoisted u ws).properties = Node.received u [] ws := by
    rw [← hproperties]
    cases u <;> rfl
  rw [hr, hreceived] at hs
  exact ⟨s, hs, hagrees⟩

end

/-- Exactly one of the variants admits an instance. -/
theorem admits_union_iff (hn : n.IsUnion .oneOf (ts.map Tagged.variant)) {x : Json} :
    (Schema.object n).admits valid x = true ↔ ts.countP (fun t => t.variant.admits valid x) = 1 := by
  obtain ⟨hone, hany, htypes, -⟩ := hn.fields
  simp [Schema.admits_object, hone, hany, htypes, hn.admitsMembers, List.countP_map, Function.comp_def]

/-- The parent receives the schemas of the tags, and exactly one of the tags must be there. -/
theorem admits_hoisted_iff (hn : n.IsUnion .oneOf (ts.map Tagged.variant)) {ms : Members Json} :
    (Schema.object (n.hoisted .oneOf (ts.map Tagged.node))).admits valid (.obj ms) = true ↔
      (∀ p ∈ Node.received .oneOf [] (ts.map Tagged.node), ∀ x, Members.get? ms p.1 = some x → valid p.2 x = true) ∧
        ts.countP (fun t => Members.has ms t.tag) = 1 := by
  obtain ⟨hone, hany, -⟩ := hn.fields
  have hvariant (t : Tagged) : (Schema.object (Node.hoistedVariant t.node)).admits valid (.obj ms) =
      Members.has ms t.tag := Bool.eq_iff_iff.2 admits_hoistedVariant_iff
  have hunion : (n.hoisted .oneOf (ts.map Tagged.node)).oneOf =
      some (ts.map fun t => .object (Node.hoistedVariant t.node)) := by
    simp [Node.hoisted, Node.setVariants, Node.variants, hone, Function.comp_def]
  have hother : (n.hoisted .oneOf (ts.map Tagged.node)).anyOf = none := hany
  have hcount : (ts.map fun t => Schema.object (Node.hoistedVariant t.node)).countP (·.admits valid (.obj ms)) =
      ts.countP (fun t => Members.has ms t.tag) := by
    simp [List.countP_map, Function.comp_def, hvariant]
  rw [Schema.admits_object, hn.admitsMembers_hoisted, hunion, hother, ← hcount]
  constructor
  · rintro ⟨-, hmeets, hunion, -⟩
    exact ⟨hmeets, hunion _ rfl⟩
  · rintro ⟨hmeets, hcount⟩
    refine ⟨fun t ht => ?_, hmeets, fun l hl => ?_, fun l hl => ?_⟩
    · rw [hn.eq_of_types_hoisted ht]
      rfl
    · cases hl
      exact hcount
    · cases hl

theorem not_admits_union (hn : n.IsUnion .oneOf (ts.map Tagged.variant)) {x : Json} (hx : ∀ ms, x ≠ .obj ms) :
    (Schema.object n).admits valid x = false := by
  refine Bool.eq_false_iff.2 fun h => ?_
  obtain ⟨t, -, ht⟩ := List.countP_pos_iff.1 ((admits_union_iff hn).1 h ▸ Nat.one_pos)
  rw [not_admits_variant hx] at ht
  cases ht

/-- With variants, the parent is about objects; without, it admits nothing. -/
theorem not_admits_hoisted (hn : n.IsUnion .oneOf (ts.map Tagged.variant)) {x : Json} (hx : ∀ ms, x ≠ .obj ms) :
    (Schema.object (n.hoisted .oneOf (ts.map Tagged.node))).admits valid x = false := by
  refine Bool.eq_false_iff.2 fun h => ?_
  obtain ⟨htype, -, hunion, -⟩ := (Schema.admits_object _).1 h
  cases ts with
  | nil =>
    have hempty : (n.hoisted .oneOf []).oneOf = some [] := by
      simp [Node.hoisted, Node.setVariants, Node.variants, hn.fields.1]
    exact absurd (hunion [] hempty) (by simp)
  | cons t ts =>
    obtain ⟨ms, rfl⟩ := admits_object_iff.1 (htype (.one .object) rfl)
    exact hx ms rfl

/-! ## Before and after -/

/-- The parent's schema of a tag means what the variant's does. -/
def DeclaresTag (valid : Schema → Json → Bool) (properties : List (String × Schema)) (t : Tagged) : Prop :=
  ∃ s, Members.get? properties t.tag = some s ∧ ∀ x, valid s x = valid t.schema x

/-- An object that one variant admits has the tag of that variant only. Another variant with this tag would admit the
object as well, so that no other variant has it. -/
theorem countP_tags {properties : List (String × Schema)} {ms : Members Json}
    (hdeclares : ∀ t ∈ ts, DeclaresTag valid properties t)
    (h : ts.countP (fun t => t.variant.admits valid (.obj ms)) = 1) :
    ts.countP (fun t => Members.has ms t.tag) = 1 := by
  obtain ⟨t, ht, hadmits⟩ := List.countP_pos_iff.1 (h ▸ Nat.one_pos)
  obtain ⟨⟨x, hx, hvalid⟩, hnames⟩ := admits_variant_iff.1 hadmits
  rw [← h]
  refine List.countP_congr fun t' ht' => ⟨fun hhas => ?_, fun hadmits' => ?_⟩
  · have htag : t'.tag = t.tag := hnames _ ((Members.has_iff_mem_names _ _).1 hhas)
    obtain ⟨s, hs, hmeans⟩ := hdeclares t ht
    obtain ⟨s', hs', hmeans'⟩ := hdeclares t' ht'
    rw [htag, hs] at hs'
    cases hs'
    refine admits_variant_iff.2 ⟨⟨x, htag ▸ hx, ?_⟩, fun name hname => (hnames name hname).trans htag.symm⟩
    rw [← hmeans', hmeans, hvalid]
  · obtain ⟨⟨y, hy, -⟩, -⟩ := admits_variant_iff.1 hadmits'
    simp [Members.has, hy]

theorem eq_of_countP_eq_one {α : Type} {p : α → Bool} {l : List α} (h : l.countP p = 1) {a b : α} (ha : a ∈ l)
    (hb : b ∈ l) (hpa : p a = true) (hpb : p b = true) : a = b := by
  rw [List.countP_eq_length_filter, List.length_eq_one_iff] at h
  obtain ⟨c, hc⟩ := h
  have hmem {d : α} (hd : d ∈ l) (hpd : p d = true) : d = c := by
    have : d ∈ l.filter p := List.mem_filter.2 ⟨hd, hpd⟩
    rw [hc] at this
    exact List.mem_singleton.1 this
  rw [hmem ha hpa, hmem hb hpb]

/-- An object that one variant admits has members that the parent's schemas of tags admit. -/
theorem valid_of_countP_variants {properties : List (String × Schema)} {ms : Members Json}
    (hdistinct : Members.Distinct properties) (hdeclares : ∀ t ∈ ts, DeclaresTag valid properties t)
    (h : ts.countP (fun t => t.variant.admits valid (.obj ms)) = 1) :
    ∀ p ∈ properties, ∀ x, Members.get? ms p.1 = some x → valid p.2 x = true := by
  intro p hp y hy
  obtain ⟨t, ht, hadmits⟩ := List.countP_pos_iff.1 (h ▸ Nat.one_pos)
  obtain ⟨⟨x, hx, hvalid⟩, hnames⟩ := admits_variant_iff.1 hadmits
  have htag : p.1 = t.tag := hnames _ (List.mem_map_of_mem (Members.mem_of_get? hy))
  obtain ⟨s, hs, hmeans⟩ := hdeclares t ht
  have hp : Members.get? properties p.1 = some p.2 := Members.get?_of_mem hdistinct hp
  rw [htag, hs] at hp
  rw [htag, hx] at hy
  cases hp
  cases hy
  rw [hmeans, hvalid]

/-- If all members of an object are tags and only one tag is there, then the variants with that tag admit it. -/
theorem countP_variants {properties : List (String × Schema)} {ms : Members Json}
    (hdeclares : ∀ t ∈ ts, DeclaresTag valid properties t)
    (hvalid : ∀ p ∈ properties, ∀ x, Members.get? ms p.1 = some x → valid p.2 x = true)
    (htags : ∀ name ∈ Members.names ms, name ∈ ts.map Tagged.tag)
    (h : ts.countP (fun t => Members.has ms t.tag) = 1) :
    ts.countP (fun t => t.variant.admits valid (.obj ms)) = 1 := by
  rw [← h]
  refine List.countP_congr fun t ht => ⟨fun hadmits => ?_, fun hhas => ?_⟩
  · obtain ⟨⟨x, hx, -⟩, -⟩ := admits_variant_iff.1 hadmits
    simp [Members.has, hx]
  · obtain ⟨x, hx⟩ := Option.isSome_iff_exists.1 hhas
    obtain ⟨s, hs, hmeans⟩ := hdeclares t ht
    refine admits_variant_iff.2 ⟨⟨x, hx, ?_⟩, fun name hname => ?_⟩
    · rw [← hmeans]
      exact hvalid _ (Members.mem_of_get? hs) x hx
    · obtain ⟨t', ht', rfl⟩ := List.mem_map.1 (htags name hname)
      rw [eq_of_countP_eq_one h ht' ht ((Members.has_iff_mem_names _ _).2 hname) hhas]

/-- Hoisting that succeeds, and what it declares. -/
theorem exists_hoisted_of_tagged {path : Pointer} {r : Option ObjectSchema} (hw : RespectsWriting valid)
    (hd : IgnoresDescriptions valid) (hn : n.IsUnion .oneOf (ts.map Tagged.variant))
    (h : (n.hoistProperties .oneOf path).outcome = .ok r) :
    r.getD n = n.hoisted .oneOf (ts.map Tagged.node) ∧
      ∀ t ∈ ts, DeclaresTag valid (Node.received .oneOf [] (ts.map Tagged.node)) t := by
  have hvariants : ts.map Tagged.variant = (ts.map Tagged.node).map Schema.object := by
    rw [List.map_map]
    rfl
  obtain ⟨hr, hagree⟩ := Node.IsUnion.exists_hoisted (hvariants ▸ hn) h
  refine ⟨hr, fun t ht => ?_⟩
  obtain ⟨s, hs, hagrees⟩ := hagree t.node (List.mem_map_of_mem ht)
    (t.tag, Node.describedTag t.description t.schema) (List.mem_singleton.2 rfl)
  refine ⟨s, hs, fun x => ?_⟩
  rw [hw.agrees hagrees, hd.describedTag]

theorem admits_hoisted_of_union (hn : n.IsUnion .oneOf (ts.map Tagged.variant))
    (hdeclares : ∀ t ∈ ts, DeclaresTag valid (Node.received .oneOf [] (ts.map Tagged.node)) t) {ms : Members Json}
    (h : (Schema.object n).admits valid (.obj ms) = true) :
    (Schema.object (n.hoisted .oneOf (ts.map Tagged.node))).admits valid (.obj ms) = true := by
  have hcount := (admits_union_iff hn).1 h
  have hdistinct : Members.Distinct (Node.received .oneOf [] (ts.map Tagged.node)) :=
    Node.distinct_foldl_addProperty (l := []) List.nodup_nil _
  exact (admits_hoisted_iff hn).2 ⟨valid_of_countP_variants hdistinct hdeclares hcount, countP_tags hdeclares hcount⟩

/-- The union before and after its properties were hoisted: what was admitted still is, only objects are, and on objects
without members other than tags nothing changes. -/
theorem admits_tagged {path : Pointer} {r : Option ObjectSchema} (hw : RespectsWriting valid)
    (hd : IgnoresDescriptions valid) (hn : n.IsUnion .oneOf (ts.map Tagged.variant))
    (h : (n.hoistProperties .oneOf path).outcome = .ok r) :
    (∀ x, (Schema.object n).admits valid x = true → (Schema.object (r.getD n)).admits valid x = true) ∧
      (∀ x, (∀ ms, x ≠ .obj ms) →
        (Schema.object n).admits valid x = false ∧ (Schema.object (r.getD n)).admits valid x = false) ∧
      (∀ ms, (∀ name ∈ Members.names ms, name ∈ ts.map Tagged.tag) →
        (Schema.object n).admits valid (.obj ms) = (Schema.object (r.getD n)).admits valid (.obj ms)) := by
  obtain ⟨hr, hdeclares⟩ := exists_hoisted_of_tagged hw hd hn h
  rw [hr]
  refine ⟨fun x hx => ?_, fun x hx => ⟨not_admits_union hn hx, not_admits_hoisted hn hx⟩, fun ms htags => ?_⟩
  · cases x with
    | obj ms => exact admits_hoisted_of_union hn hdeclares hx
    | _ => exact absurd hx (Bool.eq_false_iff.1 (not_admits_union hn nofun))
  · refine Bool.eq_iff_iff.2 ⟨admits_hoisted_of_union hn hdeclares, fun hx => ?_⟩
    obtain ⟨hvalid, hcount⟩ := (admits_hoisted_iff hn).1 hx
    exact (admits_union_iff hn).2 (countP_variants hdeclares hvalid htags hcount)

/-- Two of three variants share a tag, whose schemas agree once the description of the first variant is moved. -/
theorem admits_tagged_of_shared_tag :
    let meets (s : Schema) (x : Json) : Bool :=
      match s with
      | .bool b => b
      | .object _ => x ≠ .null
    let text : ObjectSchema := { types := some (.one .string) }
    let ts : List Tagged :=
      [⟨some "by name", "name", .object text⟩, ⟨none, "default", .bool true⟩,
        ⟨none, "name", .object { text with description := some "by name" }⟩]
    let n : ObjectSchema := { description := some "a port", oneOf := some (ts.map Tagged.variant) }
    let m := n.hoisted .oneOf (ts.map Tagged.node)
    (n.hoistProperties .oneOf []).outcome = .ok (some m) ∧
      (∀ x, (Schema.object n).admits meets x = true → (Schema.object m).admits meets x = true) ∧
      (∀ x, (∀ ms, x ≠ .obj ms) →
        (Schema.object n).admits meets x = false ∧ (Schema.object m).admits meets x = false) ∧
      (∀ ms, (∀ name ∈ Members.names ms, name ∈ ts.map Tagged.tag) →
        (Schema.object n).admits meets (.obj ms) = (Schema.object m).admits meets (.obj ms)) := by
  intro meets text ts n m
  have hw : RespectsWriting meets := respectsWriting_of_objects fun _ _ _ => rfl
  have hd : IgnoresDescriptions meets := fun _ _ _ => rfl
  have hn : n.IsUnion .oneOf (ts.map Tagged.variant) := rfl
  have hm : (n.hoistProperties .oneOf []).outcome = .ok (some m) := rfl
  exact ⟨hm, admits_tagged hw hd hn hm⟩

end KubeSchema
