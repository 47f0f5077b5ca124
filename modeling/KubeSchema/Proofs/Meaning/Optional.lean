import KubeSchema.Cleanup
import KubeSchema.Proofs.Meaning.Tagged
import KubeSchema.Proofs.Meaning.Values
import KubeSchema.Proofs.Union.NullEntry

/-!
# Optionals keep their meaning

An optional admits `null` and what its entry admits. Once the entry has moved to the parent, the parent is nullable
and states all keywords of the entry; to take `null` out of its values changes nothing, since a nullable schema admits
`null` whatever else it states.

* `Schema.allows`: the meaning of `enum`, `anyOf` and `nullable`; annotations mean nothing, and all other keywords
  whatever a predicate says.
* `demands_overlay`: a parent that states annotations only takes over what its entry demands.
* `allows_overlay_iff`, `allows_dropEnumNull`: the parent after the entry has moved, and after `null` was taken out.
* `allows_optional`: the optional before and after.
-/

namespace KubeSchema

/-! ## The meaning of nullable schemas -/

/-- Whether a keyword that is not modeled constrains instances, apart from `null`. -/
def isDemand (annotates : String → Bool) (name : String) : Bool := name ≠ nullableKeyword && !annotates name

/-- The keywords of a schema object but `enum`, `anyOf`, `nullable` and annotations. -/
def Node.demands (annotates : String → Bool) (n : ObjectSchema) : ObjectSchema :=
  { n with
    description := none
    default := none
    enum := none
    anyOf := none
    extensions := n.extensions.filter (fun m => isDemand annotates m.1)
    other := n.other.filter (fun m => isDemand annotates m.1) }

/-- The modeled keywords that are annotations. -/
def annotationKeywords : List Keyword := [.description, .default]

theorem Node.field_demands {annotates : String → Bool} {n : ObjectSchema} {k : Keyword}
    (hk : ¬(k ∈ annotationKeywords ∨ k = .enum ∨ k = .anyOf)) : (n.demands annotates).field k = n.field k := by
  cases k <;> first | rfl | exact absurd (by decide) hk

/-- Whether a schema allows an instance. All keywords but `enum`, `anyOf`, `nullable` and annotations are given a
meaning, and it is said which of those that are not modeled are annotations. -/
def Schema.allows (annotates : String → Bool) (others : ObjectSchema → Json → Bool) (x : Json) : Schema → Bool :=
  Schema.judge fun n _ anyOf => (n.isNullable && x = .null) ||
    (n.enum.all (·.any (fun value => decide (value.Equals x))) && anyOf.all (·.any id) &&
      others (n.demands annotates) x)

variable {annotates : String → Bool} {others : ObjectSchema → Json → Bool} {x : Json} {n e : ObjectSchema}

/-- A schema object that is nullable allows `null`; any allows what all its keywords do. -/
theorem Schema.allows_object : (Schema.object n).allows annotates others x = true ↔
    n.isNullable = true ∧ x = .null ∨
      (∀ values, n.enum = some values → ∃ value ∈ values, value.Equals x) ∧
        (∀ l, n.anyOf = some l → ∃ s ∈ l, s.allows annotates others x = true) ∧
        others (n.demands annotates) x = true := by
  rw [Schema.allows, Schema.judge_object]
  simp [Option.all_eq_true, and_assoc]

/-- The entry that only admits `null`. -/
theorem allows_nullNode : (Schema.object nullNode).allows annotates others x = true ↔ x = .null := by
  rw [Schema.allows_object]
  constructor
  · rintro (⟨-, hx⟩ | ⟨henum, -⟩)
    · exact hx
    · obtain ⟨value, hmem, hequals⟩ := henum _ rfl
      cases List.mem_singleton.1 hmem
      exact Json.null_equals_iff.1 hequals
  · exact fun hx => .inl ⟨rfl, hx⟩

/-! ## The parent -/

section

variable {vs : List Schema} (hn : n.IsUnion .anyOf vs)
  (hannotated : ∀ m ∈ n.extensions ++ n.other, annotates m.1 = true)

include hannotated in
/-- No keyword of the parent that is not modeled is a demand. -/
theorem not_isDemand : (∀ m ∈ n.extensions, isDemand annotates m.1 = false) ∧
    ∀ m ∈ n.other, isDemand annotates m.1 = false := by
  refine List.forall_mem_append.1 fun m hm => ?_
  rw [isDemand, hannotated m hm, Bool.not_true, Bool.and_false]

include hn hannotated

/-- The parent demands nothing beside the union. -/
theorem Node.IsUnion.demands : n.demands annotates = {} := by
  obtain ⟨hextensions, hother⟩ := not_isDemand hannotated
  rw [Node.demands, List.filter_eq_nil_iff.2 fun m hm => Bool.eq_false_iff.1 (hextensions m hm),
    List.filter_eq_nil_iff.2 fun m hm => Bool.eq_false_iff.1 (hother m hm), hn]
  rfl

theorem allows_union_iff (hothers : others {} x = true) : (Schema.object n).allows annotates others x = true ↔
    n.isNullable = true ∧ x = .null ∨ ∃ s ∈ vs, s.allows annotates others x = true := by
  have hunion : n.enum = none ∧ n.anyOf = some vs := by
    rw [hn]
    exact ⟨rfl, rfl⟩
  rw [Schema.allows_object, hn.demands hannotated]
  simp [hunion, hothers]

/-! ## The entry in place of the parent -/

/-- The parent takes over what its entry demands. -/
theorem demands_overlay (he : e.Regular) :
    (Node.overlay { n with anyOf := none } e).demands annotates = e.demands annotates := by
  obtain ⟨hextensions, hother⟩ := not_isDemand hannotated
  obtain ⟨hdistinct, hdistinct'⟩ := he.distinct_parts
  have hmissing (k : Keyword) (hk : k ∉ annotationKeywords) :
      Node.field { n with anyOf := none } k = ({} : ObjectSchema).field k := by
    rw [hn]
    cases k <;> first | rfl | exact absurd (by decide) hk
  have hfield (k : Keyword) (hk : k ∉ annotationKeywords) :
      (Node.overlay { n with anyOf := none } e).field k = e.field k := by
    by_cases hreplaced : k.name ∈ Node.replacedKeywords
    · cases k <;> first | rfl | exact absurd hreplaced (by decide)
    · rw [← Node.field_overlay hreplaced, hmissing k hk, Keyword.over_missing]
  have hnullable : isDemand annotates nullableKeyword = false := by simp [isDemand]
  refine Node.ext_field (fun k => ?_) ?_ (Members.filter_setAll_of_distinct hother hdistinct')
  · by_cases hk : k ∈ annotationKeywords ∨ k = .enum ∨ k = .anyOf
    · cases k <;> first | rfl | exact absurd hk (by decide)
    · rw [Node.field_demands hk, Node.field_demands hk, hfield k fun h => hk (.inl h)]
  · refine (Members.filter_set (isDemand annotates) _ _ _).trans ?_
    rw [hnullable]
    exact Members.filter_setAll_of_distinct hextensions hdistinct

/-- With the entry in its place, the parent allows `null` and what the entry does. -/
theorem allows_overlay_iff (he : e.Regular) :
    (Schema.object (Node.overlay { n with anyOf := none } e)).allows annotates others x = true ↔
      x = .null ∨ (Schema.object e).allows annotates others x = true := by
  have hnullable : (Node.overlay { n with anyOf := none } e).isNullable = true :=
    decide_eq_true ((Members.get?_set _ _ _ _).trans (if_pos rfl))
  have hunion : (Node.overlay { n with anyOf := none } e).anyOf = e.anyOf := Option.or_none
  have henum : (Node.overlay { n with anyOf := none } e).enum = e.enum := rfl
  rw [Schema.allows_object, Schema.allows_object, hnullable, hunion, henum, demands_overlay hn hannotated he]
  constructor
  · rintro (⟨-, hx⟩ | hmeets)
    · exact .inl hx
    · exact .inr (.inr hmeets)
  · rintro (hx | ⟨-, hx⟩ | hmeets)
    · exact .inl ⟨rfl, hx⟩
    · exact .inl ⟨rfl, hx⟩
    · exact .inr hmeets

end

/-- Without `null` among its values, a nullable schema allows the same. -/
theorem allows_dropEnumNull {m : ObjectSchema} (h : n.dropEnumNull = some m) :
    (Schema.object m).allows annotates others x = true ↔ (Schema.object n).allows annotates others x = true := by
  unfold Node.dropEnumNull at h
  split at h
  · cases h
  · next values henum =>
    split at h
    · next hdrop =>
      cases h
      have hkept : ({ n with enum := some (values.filter (· ≠ .null)) } : ObjectSchema).demands annotates =
          n.demands annotates := rfl
      have hnullable : ({ n with enum := some (values.filter (· ≠ .null)) } : ObjectSchema).isNullable = true :=
        hdrop.1
      rw [Schema.allows_object, Schema.allows_object, hkept, hnullable, hdrop.1, henum]
      by_cases hx : x = .null
      · simp [hx]
      · -- An instance other than `null` equals no value that was taken out.
        have hvalues : (∃ value ∈ values.filter (· ≠ .null), value.Equals x) ↔ ∃ value ∈ values, value.Equals x := by
          constructor
          · rintro ⟨value, hmem, hequals⟩
            exact ⟨value, List.mem_of_mem_filter hmem, hequals⟩
          · rintro ⟨value, hmem, hequals⟩
            refine ⟨value, List.mem_filter.2 ⟨hmem, decide_eq_true ?_⟩, hequals⟩
            rintro rfl
            exact hx (Json.null_equals_iff.1 hequals)
        simp only [hx, and_false, false_or, Option.some.injEq, forall_eq', hvalues]
    · cases h

/-! ## Before and after -/

/-- Of a pair with an entry that only admits `null`, the other entry moves to the parent. -/
theorem exists_overlay_of_pair {path : Pointer} {r : Option Optional} {s : Schema} (hreg : (Schema.object n).Regular)
    (hpair : n.anyOf = some [.object e, s] ∨ n.anyOf = some [s, .object e]) (hs : s.isNullEntry = .ok true)
    (h : (n.hoistOptional path).outcome = .ok r) :
    ∃ carried, r = some ⟨Node.overlay { n with anyOf := none } e, carried⟩ := by
  obtain ⟨-, hnone⟩ | ⟨e', carried, ⟨⟨a, b, hab, hentries⟩, hentry⟩, -, rfl⟩ := Node.hoistOptional_eq_ok hreg h
  · rcases hpair with hpair | hpair
    · cases hs.symm.trans (hnone _ _ hpair).2
    · cases hs.symm.trans (hnone _ _ hpair).1
  · have hother : s ≠ .object e' := by
      rintro rfl
      cases hs.symm.trans hentry
    have heq : e = e' := by
      rcases hpair with hpair | hpair <;> cases hpair.symm.trans hab <;> rcases hentries with ⟨-, hb⟩ | ⟨ha, -⟩
      · exact absurd hb hother
      · exact Schema.object.inj ha
      · exact Schema.object.inj hb
      · exact absurd ha hother
    exact ⟨carried, by rw [heq]⟩

/-- An optional before and after its entry has moved to the parent and `null` was taken out of the values there: it
allows `null` and what the entry does. -/
theorem allows_optional {path : Pointer} {r : Option Optional} {vs : List Schema} {s : Schema}
    (hothers : ∀ x, others {} x = true) (hreg : (Schema.object n).Regular) (hn : n.IsUnion .anyOf vs)
    (hannotated : ∀ m ∈ n.extensions ++ n.other, annotates m.1 = true)
    (hvs : vs = [.object e, s] ∨ vs = [s, .object e]) (hs : s.isNullEntry = .ok true)
    (h : (n.hoistOptional path).outcome = .ok r) :
    ∃ o, r = some o ∧ ∀ x,
      ((Schema.object (o.node.dropEnumNull.getD o.node)).allows annotates others x = true ↔
        (Schema.object n).allows annotates others x = true) ∧
      ((Schema.object n).allows annotates others x = true ↔
        x = .null ∨ (Schema.object e).allows annotates others x = true) := by
  have hunion : n.anyOf = some vs := by
    rw [hn]
    rfl
  have hmem : ∀ v, v ∈ vs ↔ v = .object e ∨ v = s := by
    rcases hvs with rfl | rfl <;> simp [or_comm]
  have hregular : ∀ v ∈ vs, v.Regular := fun v hv =>
    hreg.child v (Node.mem_children.2 ⟨.anyOf, by simpa [Keyword.children, Node.field, hunion] using hv⟩)
  have hnull : s = .object nullNode := Node.eq_nullNode_of_isNullEntry (hregular s ((hmem s).2 (.inr rfl))) hs
  have hentry : e.Regular := (hregular _ ((hmem _).2 (.inl rfl))).here
  have hpair : n.anyOf = some [.object e, s] ∨ n.anyOf = some [s, .object e] := by
    rcases hvs with rfl | rfl
    · exact .inl hunion
    · exact .inr hunion
  obtain ⟨carried, rfl⟩ := exists_overlay_of_pair hreg hpair hs h
  refine ⟨_, rfl, fun x => ?_⟩
  have hbefore : (Schema.object n).allows annotates others x = true ↔
      x = .null ∨ (Schema.object e).allows annotates others x = true := by
    rw [allows_union_iff hn hannotated (hothers x)]
    constructor
    · rintro (⟨-, hx⟩ | ⟨v, hv, hallows⟩)
      · exact .inl hx
      · rcases (hmem v).1 hv with rfl | rfl
        · exact .inr hallows
        · exact .inl (allows_nullNode.1 (hnull ▸ hallows))
    · rintro (hx | hallows)
      · exact .inr ⟨s, (hmem s).2 (.inr rfl), hnull ▸ allows_nullNode.2 hx⟩
      · exact .inr ⟨_, (hmem _).2 (.inl rfl), hallows⟩
  refine ⟨?_, hbefore⟩
  rw [hbefore, ← allows_overlay_iff hn hannotated hentry]
  cases hdrop : (Node.overlay { n with anyOf := none } e).dropEnumNull with
  | none => rw [Option.getD_none]
  | some m => exact allows_dropEnumNull hdrop

/-- The entry is nullable, lists `null` twice and has a union of its own, and parent and entry have the same title. -/
theorem allows_optional_of_nullable_entry :
    let annotates (name : String) : Bool := name = "title"
    let others (m : ObjectSchema) (x : Json) : Bool := m.types.all (·.admits x)
    let e : ObjectSchema :=
      { description := some "a colour"
        types := some (.many [.string, .null])
        enum := some [.null, .str "red", .str "blue", .null]
        anyOf := some [.object { types := some (.one .string) }, .bool false]
        extensions := [(nullableKeyword, .bool true)]
        other := [("title", .str "Colour")] }
    let n : ObjectSchema :=
      { description := some "the background"
        anyOf := some [.object e, .object nullNode]
        other := [("title", .str "Colour")] }
    ∃ o, (n.hoistOptional []).outcome = .ok (some o) ∧ ∀ x,
      ((Schema.object (o.node.dropEnumNull.getD o.node)).allows annotates others x = true ↔
        (Schema.object n).allows annotates others x = true) ∧
      ((Schema.object n).allows annotates others x = true ↔
        x = .null ∨ (Schema.object e).allows annotates others x = true) := by
  intro annotates others e n
  let entry : Json := .obj
    [("description", .str "a colour"), ("type", .arr [.str "string", .str "null"]),
      ("enum", .arr [.null, .str "red", .str "blue", .null]),
      ("anyOf", .arr [.obj [("type", .str "string")], .bool false]), (nullableKeyword, .bool true),
      ("title", .str "Colour")]
  let document : Json := .obj
    [("description", .str "the background"), ("anyOf", .arr [entry, nullEntry]), ("title", .str "Colour")]
  have hreg : (Schema.object n).Regular := regular_of_decode (v := document) rfl rfl
  have hothers : ∀ x, others {} x = true := fun _ => rfl
  have hn : n.IsUnion .anyOf [.object e, .object nullNode] := rfl
  have hannotated : ∀ m ∈ n.extensions ++ n.other, annotates m.1 = true := by decide
  have hm : (n.hoistOptional []).outcome =
      .ok (some ⟨Node.overlay { n with anyOf := none } e, true⟩) := rfl
  obtain ⟨o, ho, hallows⟩ :=
    allows_optional hothers hreg hn hannotated (.inl rfl) isNullEntry_nullNode hm
  exact ⟨o, ho ▸ hm, hallows⟩

end KubeSchema
