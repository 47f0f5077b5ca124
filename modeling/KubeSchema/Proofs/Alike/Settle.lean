import KubeSchema.Proofs.Alike.Unions
import KubeSchema.Proofs.Violations

/-!
# Settling schemas that are like each other

The restructuring of a schema object follows the restructuring of one like it, and what can be written and read back in
one order of members can be in the other.

* `follows_settle`: the restructuring of a schema object.
* `exists_readable_of_like`: writing and reading back.
* `follows_restructureMembers`: an object in the place of a schema, after the schemas below it.
-/

namespace KubeSchema

open Json (Alike)

namespace Node

variable {n m : ObjectSchema}

/-! ## Parts that change little -/

theorem alike_null_iff {x y : Json} (h : x.Alike y) : x = .null ↔ y = .null := by
  rcases h.cases with ⟨_, _, rfl, rfl⟩ | ⟨_, _, rfl, rfl⟩ | rfl <;> simp

theorem mem_null_iff {xs ys : List Json} (h : List.Forall₂ Alike xs ys) : .null ∈ xs ↔ .null ∈ ys := by
  constructor
  · intro hx
    obtain ⟨y, hy, hxy⟩ := exists_of_mem_left h hx
    exact (alike_null_iff hxy).1 rfl ▸ hy
  · intro hy
    obtain ⟨x, hx, hxy⟩ := exists_of_mem_right h hy
    exact (alike_null_iff hxy).2 rfl ▸ hx

theorem forall₂_filter_null {xs ys : List Json} (h : List.Forall₂ Alike xs ys) :
    List.Forall₂ Alike (xs.filter (· ≠ .null)) (ys.filter (· ≠ .null)) := by
  induction h with
  | nil => exact .nil
  | @cons x y _ _ hxy _ ih =>
    have hnull : decide (x ≠ .null) = decide (y ≠ .null) := decide_eq_decide.2 (not_congr (alike_null_iff hxy))
    rw [List.filter_cons, List.filter_cons, hnull]
    split
    · exact .cons hxy ih
    · exact ih

theorem like_with_enum {l l' : Option (List Json)} (h : n.Like Schema.Like m)
    (hl : Option.Rel (List.Forall₂ Alike) l l') :
    Node.Like Schema.Like { n with enum := l } { m with enum := l' } := by
  refine h.of_fields h.extensions h.other fun k => ?_
  cases k
  case enum => exact .inr hl
  all_goals exact .inl ⟨rfl, rfl⟩

theorem forall₂_nonNullValues {xs ys : List Json} (nullable : Bool) (h : List.Forall₂ Alike xs ys) :
    List.Forall₂ Alike (nonNullValues nullable xs) (nonNullValues nullable ys) := by
  unfold nonNullValues
  simp only [h.length_eq, mem_null_iff h]
  split
  · exact forall₂_filter_null h
  · exact h

theorem like_dropEnumNull (h : n.Like Schema.Like m) :
    (n.dropEnumNull.getD n).Like Schema.Like (m.dropEnumNull.getD m) := by
  rw [getD_dropEnumNull, getD_dropEnumNull, ← h.isNullable_eq]
  refine like_with_enum h ?_
  have henum := h.enum
  revert henum
  generalize n.enum = a, m.enum = b
  rintro (h | _)
  · exact .some (forall₂_nonNullValues _ h)
  · exact .none

theorem like_dropEmptyOneOf (h : n.Like Schema.Like m) : n.dropEmptyOneOf.Like Schema.Like m.dropEmptyOneOf := by
  have hone : Option.Rel (List.Forall₂ Schema.Like) n.oneOf m.oneOf := h.fields .oneOf
  by_cases hn : n.oneOf = some []
  · obtain ⟨l, hm, hl⟩ := exists_of_rel_some (hn ▸ hone)
    cases List.forall₂_nil_left_iff.1 hl
    unfold dropEmptyOneOf
    rw [hn, hm]
    exact like_with_oneOf h .none
  · have hm : m.oneOf ≠ some [] := fun hm => by
      obtain ⟨l, hl, hl'⟩ := exists_of_rel_some (hm ▸ rel_flip hone)
      cases hl'
      exact hn hl
    rw [dropEmptyOneOf_self hn, dropEmptyOneOf_self hm]
    exact h

theorem preserveUnknownFields_of_open {key : String} (hp : n.properties ≠ [])
    (ha : n.additionalProperties = some (.bool true)) : n.preserveUnknownFields key =
      some { n with additionalProperties := none, extensions := Members.set n.extensions key (.bool true) } := by
  obtain ⟨p, l, hl⟩ := List.exists_cons_of_ne_nil hp
  unfold preserveUnknownFields
  rw [hl, ha]

theorem preserveUnknownFields_of_not_open {key : String}
    (h : ¬(n.properties ≠ [] ∧ n.additionalProperties = some (.bool true))) : n.preserveUnknownFields key = none := by
  unfold preserveUnknownFields
  split
  · next hp ha => exact absurd ⟨by simp [hp], ha⟩ h
  · rfl

/-- Unknown fields are kept under the same keyword by both. -/
theorem like_preserveUnknownFields (key : String) (h : n.Like Schema.Like m) :
    ((n.preserveUnknownFields key).getD n).Like Schema.Like ((m.preserveUnknownFields key).getD m) := by
  have hopen : (n.properties ≠ [] ∧ n.additionalProperties = some (.bool true)) ↔
      (m.properties ≠ [] ∧ m.additionalProperties = some (.bool true)) := by
    refine and_congr ?_ ?_
    · rw [← List.isEmpty_eq_false_iff, ← List.isEmpty_eq_false_iff, h.properties.isEmpty_eq]
    · have ha := h.additionalProperties
      revert ha
      generalize n.additionalProperties = a, m.additionalProperties = b
      rintro (hab | _)
      · rcases hab.cases with ⟨b, rfl, rfl⟩ | ⟨v, w, rfl, rfl, -⟩ <;> simp
      · rfl
  by_cases hn : n.properties ≠ [] ∧ n.additionalProperties = some (.bool true)
  · have hm := hopen.1 hn
    rw [preserveUnknownFields_of_open hn.1 hn.2, preserveUnknownFields_of_open hm.1 hm.2]
    refine h.of_fields (h.extensions.set key (.refl _)) h.other fun k => ?_
    cases k
    case additionalProperties => exact .inr .none
    all_goals exact .inl ⟨rfl, rfl⟩
  · rw [preserveUnknownFields_of_not_open hn, preserveUnknownFields_of_not_open (mt hopen.2 hn)]
    exact h

theorem like_dropUniqueItems (h : n.Like Schema.Like m) :
    (n.dropUniqueItems.getD n).Like Schema.Like (m.dropUniqueItems.getD m) := by
  have hitems : n.uniqueItems = m.uniqueItems := h.fields .uniqueItems
  unfold dropUniqueItems
  rw [← hitems]
  split
  · refine h.of_fields h.extensions h.other fun k => ?_
    cases k
    case uniqueItems => exact .inr rfl
    all_goals exact .inl ⟨rfl, rfl⟩
  · exact h

end Node

/-! ## Schema objects -/

namespace Options

open Node Run

variable {o : Options} {path path' : Pointer} {n m : ObjectSchema}

theorem like_cleanEnum (h : n.Like Schema.Like m) : (o.cleanEnum n).Like Schema.Like (o.cleanEnum m) := by
  unfold cleanEnum
  split
  · exact like_dropEnumNull h
  · exact h

theorem like_finish (h : n.Like Schema.Like m) : (o.finish n).Like Schema.Like (o.finish m) := by
  have hkept := like_preserveUnknownFields o.preserveKey h
  unfold finish cleanItems
  split
  · exact like_dropUniqueItems hkept
  · exact hkept

theorem like_getD {r r' : Option ObjectSchema} (hr : Option.Rel (Node.Like Schema.Like) r r')
    (h : n.Like Schema.Like m) : (r.getD n).Like Schema.Like (r'.getD m) := by
  cases hr with
  | none => exact h
  | some hr => exact hr

theorem follows_hoistUnions (h : n.Like Schema.Like m) :
    Follows (Node.Like Schema.Like) (hoistUnions path n) (hoistUnions path' m) := by
  refine (follows_hoistProperties h).bind fun _ _ hr => ?_
  have h := like_getD hr h
  refine (follows_hoistEnumValues h).bind fun _ _ hr => ?_
  have h := like_dropEmptyOneOf (like_getD hr h)
  exact (follows_hoistProperties h).bind fun _ _ hr => follows_pure (like_getD hr h)

theorem regular_getD_hoistEnumVariants {r : Option ObjectSchema} (hn : (Schema.object n).Regular)
    (h : (hoistEnumVariants path n).outcome = .ok r) : (Schema.object (r.getD n)).Regular := by
  rcases hoistEnumVariants_eq_ok h with ⟨rfl, -⟩ | ⟨t, ws, hws, -, -, rfl⟩
  · exact hn
  · exact regular_enumerated hn hws

theorem follows_settleUnions (hn : (Schema.object n).Regular) (hm : (Schema.object m).Regular)
    (h : n.Like Schema.Like m) : Follows (Node.Like Schema.Like) (o.settleUnions path n) (o.settleUnions path' m) := by
  refine (follows_hoistEnumVariants h).bind_of_mem fun r r' hr hr' hlike => ?_
  have h := like_getD hlike h
  have hn := regular_getD_hoistEnumVariants hn hr
  have hm := regular_getD_hoistEnumVariants hm hr'
  refine (follows_hoistOptional hn hm h).bind fun opt opt' hopt => ?_
  rcases hopt with ⟨hnode, hcarried⟩ | _
  · dsimp only
    rw [hcarried]
    split
    · exact follows_pure (like_cleanEnum hnode)
    · exact follows_pure (like_dropEmptyOneOf (like_cleanEnum hnode))
  · exact follows_hoistUnions (like_cleanEnum h)

/-- Whenever a schema object can be restructured, so can one like it, into one like the other's result. -/
theorem follows_settle (hn : (Schema.object n).Regular) (hm : (Schema.object m).Regular) (h : n.Like Schema.Like m) :
    Follows (Node.Like Schema.Like) (o.settle path n) (o.settle path' m) := by
  unfold settle
  rw [← h.hasConflictingUnions_eq]
  split
  · exact (fails_violate _ _).follows
  · exact (follows_settleUnions hn hm h).bind fun _ _ hr => follows_pure (like_finish hr)

/-! ## Objects in the place of a schema -/

/-- If a settled schema object can be written and read back, so can one like it. -/
theorem exists_readable_of_like {u u' : ObjectSchema} {ms : Members Json} (hn : (Schema.object n).Regular)
    (hm : (Schema.object m).Regular) (hu : (o.settle path n).outcome = .ok u)
    (hu' : (o.settle path' m).outcome = .ok u') (h : u.Like Schema.Like u') (hms : readable u = .ok ms) :
    ∃ ms', readable u' = .ok ms' ∧ (Json.obj ms).Alike (.obj ms') := by
  obtain ⟨hencode, w, hw⟩ := readable_eq_ok.1 hms
  obtain ⟨ms', hencode', hlike⟩ := exists_encode_of_like h hencode
  have halike := (Json.alike_obj hlike.left hlike.right).2 hlike
  obtain ⟨w', hw', -⟩ := exists_decode_of_alike halike (hasDistinctNames_of_settle hn hu hencode)
    (hasDistinctNames_of_settle hm hu' hencode') hw
  exact ⟨ms', readable_eq_ok.2 ⟨hencode', w', hw'⟩, halike⟩

theorem restructureMembers_of_decode_error {ms : Members Json} {e : DecodeError}
    (h : Node.decode (.obj ms) = .error e) : (o.restructureMembers path ms).outcome = .ok ms := by
  unfold restructureMembers
  rw [h]
  rfl

theorem restructureMembers_of_settle {ms : Members Json} {u : ObjectSchema} (hn : Node.decode (.obj ms) = .ok n)
    (hu : (o.settle path n).outcome = .ok u) :
    (o.restructureMembers path ms).outcome = .ok (match readable u with | .ok r => r | .error _ => ms) := by
  unfold restructureMembers
  rw [hn]
  refine Traced.bind_eq_ok.2 ⟨u, hu, ?_⟩
  cases readable u with
  | ok r => rfl
  | error e => rfl

/-- An object in the place of a schema is restructured like an object that is alike. -/
theorem follows_restructureMembers {ms ms' : Members Json} (hd : (Json.obj ms).hasDistinctNames = true)
    (hd' : (Json.obj ms').hasDistinctNames = true) (h : (Json.obj ms).Alike (.obj ms')) :
    Follows (fun r r' => (Json.obj r).Alike (.obj r')) (o.restructureMembers path ms)
      (o.restructureMembers path' ms') := by
  intro r hr
  rcases restructureMembers_eq_ok hr with ⟨e, he, rfl⟩ | ⟨n, u, hn, hu, hread⟩
  · cases hm : Node.decode (.obj ms') with
    | error e' => exact ⟨ms', restructureMembers_of_decode_error hm, h⟩
    | ok m =>
      obtain ⟨n, hn, -⟩ := exists_decode_of_alike h.symm hd' hd hm
      cases he.symm.trans hn
  · obtain ⟨m, hm, hlike⟩ := exists_decode_of_alike h hd hd' hn
    have hnreg := regular_of_decode hd hn
    have hmreg := regular_of_decode hd' hm
    have hfollows : Follows (Node.Like Schema.Like) (o.settle path n) (o.settle path' m) :=
      follows_settle hnreg hmreg hlike
    obtain ⟨u', hu', hulike⟩ := hfollows u hu
    refine ⟨_, restructureMembers_of_settle hm hu', ?_⟩
    rcases hread with hread | ⟨⟨e, he⟩, rfl⟩
    · obtain ⟨r', hread', halike⟩ := exists_readable_of_like hnreg hmreg hu hu' hulike hread
      rw [hread']
      exact halike
    · -- What cannot be written or read back in one order cannot in the other.
      cases hread' : readable u' with
      | ok r' =>
        obtain ⟨r, hread, -⟩ := exists_readable_of_like hmreg hnreg hu' hu hulike.symm hread'
        cases he.symm.trans hread
      | error e' => exact h

end Options

end KubeSchema
