import KubeSchema.Proofs.Permuted.Unions

/-!
# Settling schema objects in any order

The restructuring of a schema object follows the restructuring of the same one with its variants in another order, and
what can be written and read back in one order can be in the other.

* `follows_settle_of_permutes`: the restructuring of a schema object.
* `exists_readable_of_reordered`: writing and reading back.
* `follows_restructureMembers_of_permutes`: an object in the place of a schema, after the schemas below it.
-/

namespace KubeSchema

open Json (Alike)

namespace Node

variable {n m : ObjectSchema}

/-! ## Parts that change little -/

theorem perm_nonNullValues {xs ys : List Json} (nullable : Bool) (h : xs.Perm ys) :
    (nonNullValues nullable xs).Perm (nonNullValues nullable ys) := by
  unfold nonNullValues
  simp only [h.length_eq, h.mem_iff]
  split
  · exact h.filter _
  · exact h

theorem permutes_dropEnumNull (h : n.Permutes m) : (n.dropEnumNull.getD n).Permutes (m.dropEnumNull.getD m) := by
  obtain @⟨oneOf, anyOf, enum, hone, hany, henum⟩ := h
  rw [getD_dropEnumNull, getD_dropEnumNull]
  refine .intro hone hany ?_
  show Option.Rel List.Perm (n.enum.map (nonNullValues n.isNullable)) (enum.map (nonNullValues n.isNullable))
  revert henum
  generalize n.enum = a
  rintro (h | _)
  · exact .some (perm_nonNullValues _ h)
  · exact .none

theorem rel_perm_of_getD {α : Type} {a b : Option (List α)} (ha : a ≠ some []) (hb : b ≠ some [])
    (h : (a.getD []).Perm (b.getD [])) : Option.Rel List.Perm a b := by
  rcases a with _ | _ | ⟨x, a⟩
  · rcases b with _ | _ | ⟨y, b⟩
    · exact .none
    · exact absurd rfl hb
    · exact absurd (List.nil_perm.1 h) (List.cons_ne_nil y b)
  · exact absurd rfl ha
  · cases b with
    | none => exact absurd (List.perm_nil.1 h) (List.cons_ne_nil x a)
    | some b => exact .some h

theorem permutes_dropEmptyOneOf (h : n.Permutes m) : n.dropEmptyOneOf.Permutes m.dropEmptyOneOf := by
  obtain ⟨hone, hany, henum⟩ := h
  obtain ⟨l, hl, hd, hne⟩ := dropEmptyOneOf_eq n
  obtain ⟨l', hl', hd', hne'⟩ := dropEmptyOneOf_eq { n with oneOf := _, anyOf := _, enum := _ }
  rw [hl, hl']
  refine .intro (rel_perm_of_getD hne hne' ?_) hany henum
  rw [hd, hd']
  exact perm_getD hone

theorem permutes_preserveUnknownFields (key : String) (h : n.Permutes m) :
    ((n.preserveUnknownFields key).getD n).Permutes ((m.preserveUnknownFields key).getD m) := by
  obtain ⟨hone, hany, henum⟩ := h
  unfold preserveUnknownFields
  dsimp only
  split
  · exact .intro hone hany henum
  · exact .intro hone hany henum

theorem permutes_dropUniqueItems (h : n.Permutes m) :
    (n.dropUniqueItems.getD n).Permutes (m.dropUniqueItems.getD m) := by
  obtain ⟨hone, hany, henum⟩ := h
  unfold dropUniqueItems
  dsimp only
  split
  · exact .intro hone hany henum
  · exact .intro hone hany henum

end Node

/-! ## Schema objects -/

namespace Options

open Node Run

variable {o : Options} {path path' : Pointer} {n m : ObjectSchema}

theorem permutes_cleanEnum (h : n.Permutes m) : (o.cleanEnum n).Permutes (o.cleanEnum m) := by
  unfold cleanEnum
  split
  · exact permutes_dropEnumNull h
  · exact h

theorem permutes_finish (h : n.Permutes m) : (o.finish n).Permutes (o.finish m) := by
  have hkept := permutes_preserveUnknownFields o.preserveKey h
  unfold finish cleanItems
  split
  · exact permutes_dropUniqueItems hkept
  · exact hkept

theorem follows_hoistProperties_of_reordered {u : Union} (hn : (Schema.object n).Regular) (h : n.Reordered m) :
    Follows (fun r r' => (r.getD n).Reordered (r'.getD m)) (hoistProperties u path n) (hoistProperties u path' m) := by
  obtain ⟨l, hl, hlike⟩ := h
  have hpermuted : Follows _ (hoistProperties u path n) (hoistProperties u path l) :=
    follows_hoistProperties_of_permutes hn hl
  exact hpermuted.trans (follows_hoistProperties hlike) fun _ _ _ hr hr' => hr.trans_like (like_getD hr' hlike)

theorem follows_hoistEnumValues_of_reordered (h : n.Reordered m) :
    Follows (fun r r' => (r.getD n).Reordered (r'.getD m)) (hoistEnumValues path n) (hoistEnumValues path' m) := by
  obtain ⟨l, hl, hlike⟩ := h
  have hpermuted : Follows _ (hoistEnumValues path n) (hoistEnumValues path l) :=
    follows_hoistEnumValues_of_permutes hl
  exact hpermuted.trans (follows_hoistEnumValues hlike) fun _ _ _ hr hr' => ⟨_, hr, like_getD hr' hlike⟩

theorem reordered_dropEmptyOneOf (h : n.Reordered m) : n.dropEmptyOneOf.Reordered m.dropEmptyOneOf := by
  obtain ⟨l, hl, hlike⟩ := h
  exact ⟨_, permutes_dropEmptyOneOf hl, like_dropEmptyOneOf hlike⟩

theorem reordered_finish (h : n.Reordered m) : (o.finish n).Reordered (o.finish m) := by
  obtain ⟨l, hl, hlike⟩ := h
  exact ⟨_, permutes_finish hl, like_finish hlike⟩

/-- What is hoisted from variants in another order is the same, pass by pass. -/
theorem follows_hoistUnions_of_reordered (hn : (Schema.object n).Regular) (h : n.Reordered m) :
    Follows Reordered (hoistUnions path n) (hoistUnions path' m) := by
  refine (follows_hoistProperties_of_reordered hn h).bind_of_mem fun r _ hr _ h => ?_
  have hn : (Schema.object (r.getD n)).Regular := by
    obtain ⟨ws, hws, e, -⟩ := hoistProperties_eq_ok hr
    rw [e]
    exact regular_hoisted hn hws
  refine (follows_hoistEnumValues_of_reordered h).bind_of_mem fun r' _ hr' _ h => ?_
  have hn : (Schema.object (r'.getD (r.getD n)).dropEmptyOneOf).Regular := by
    rw [hoistEnumValues_eq_ok hr']
    exact regular_dropEmptyOneOf (regular_takenEnums hn)
  exact (follows_hoistProperties_of_reordered hn (reordered_dropEmptyOneOf h)).bind fun _ _ hr => follows_pure hr

theorem follows_settleUnions_of_permutes (hn : (Schema.object n).Regular) (h : n.Permutes m)
    (hnot : n.oneOf.getD [] = [] ∨ n.anyOf.getD [] = []) (henum : m.enum = n.enum) :
    Follows Reordered (o.settleUnions path n) (o.settleUnions path' m) := by
  refine (follows_hoistEnumVariants_of_permutes h).bind_of_mem fun r r' hr _ hrr' => ?_
  have hreg := regular_getD_hoistEnumVariants hn hr
  have hpermutes : (r.getD n).Permutes (r'.getD m) := by
    cases hrr' with
    | none => exact h
    | some hrr' => exact hrr'
  -- A union of enums has no second union: then there is no optional.
  have hsame : (r.getD n).anyOf.getD [] = [] ∨ (r.getD n).oneOf.getD [] = [] ∧ (r'.getD m).enum = (r.getD n).enum := by
    rcases hoistEnumVariants_eq_ok hr with ⟨rfl, -⟩ | ⟨t, ws, hws, hne, -, rfl⟩
    · cases hrr'
      exact hnot.symm.imp_right fun hone => ⟨hone, henum⟩
    · exact .inl (hnot.resolve_left (by simpa [hws] using hne))
  refine (follows_hoistOptional_of_permutes hreg hpermutes hsame).bind fun opt opt' hopt => ?_
  rcases hopt with ⟨hnode, hcarried⟩ | _
  · have hclean : Reordered (o.cleanEnum _) (o.cleanEnum _) := ⟨_, .refl _, like_cleanEnum hnode⟩
    dsimp only
    rw [hcarried]
    split
    · exact follows_pure hclean
    · exact follows_pure (reordered_dropEmptyOneOf hclean)
  · have hclean := permutes_cleanEnum (o := o) hpermutes
    have hregular := regular_everywhere_cleanEnum (o := o) hreg
    exact follows_hoistUnions_of_reordered hregular ⟨_, hclean, .refl (hclean.regular hregular)⟩

/-- Whenever a schema object can be restructured, so can the same one with its variants in another order. -/
theorem follows_settle_of_permutes (hn : (Schema.object n).Regular) (h : n.Permutes m) (henum : m.enum = n.enum) :
    Follows Reordered (o.settle path n) (o.settle path' m) := by
  unfold settle
  rw [← h.hasConflictingUnions_eq]
  split
  · exact (fails_violate _ _).follows
  · next hconflict =>
    have hnot := hasConflictingUnions_eq_false_iff.1 (Bool.eq_false_iff.2 hconflict)
    exact (follows_settleUnions_of_permutes hn h hnot henum).bind fun _ _ hr => follows_pure (reordered_finish hr)

/-! ## Objects in the place of a schema -/

/-- If a settled schema object can be written and read back, so can the same one in another order. -/
theorem exists_readable_of_reordered {u u' : ObjectSchema} {ms : Members Json} (hn : (Schema.object n).Regular)
    (hm : (Schema.object m).Regular) (hu : (o.settle path n).outcome = .ok u)
    (hu' : (o.settle path' m).outcome = .ok u') (h : u.Reordered u') (hms : readable u = .ok ms) :
    ∃ ms', readable u' = .ok ms' ∧ ms.Reordered ms' := by
  obtain ⟨hencode, w, hw⟩ := readable_eq_ok.1 hms
  obtain ⟨v, hv, hlike⟩ := h
  obtain ⟨l, hl, hpermutes⟩ := exists_encode_of_permutes hv hencode
  obtain ⟨ms', hencode', hmslike⟩ := exists_encode_of_like hlike hl
  have halike := (Json.alike_obj hmslike.left hmslike.right).2 hmslike
  obtain ⟨w', hw', -⟩ := exists_decode_of_permutes hpermutes (fun _ h => h) hw
  obtain ⟨w'', hw'', -⟩ := exists_decode_of_alike halike
    (hpermutes.hasDistinctNames (hasDistinctNames_of_settle hn hu hencode))
    (hasDistinctNames_of_settle hm hu' hencode') hw'
  exact ⟨ms', readable_eq_ok.2 ⟨hencode', w'', hw''⟩, l, hpermutes, halike⟩

/-- An object in the place of a schema is restructured like the same one with its variants in another order. -/
theorem follows_restructureMembers_of_permutes {ms ms' : Members Json} (hd : (Json.obj ms).hasDistinctNames = true)
    (h : ms.Permutes variantNames ms') :
    Follows Members.Reordered (o.restructureMembers path ms) (o.restructureMembers path' ms') := by
  have hsub : variantNames ⊆ listNames := List.subset_cons_self _ _
  have hd' := h.hasDistinctNames hd
  have hsame : ms.Reordered ms' := ⟨ms', h.imp hsub, .refl _⟩
  intro r hr
  rcases restructureMembers_eq_ok hr with ⟨e, he, rfl⟩ | ⟨n, u, hn, hu, hread⟩
  · cases hm : Node.decode (.obj ms') with
    | error e' => exact ⟨ms', restructureMembers_of_decode_error hm, hsame⟩
    | ok m =>
      obtain ⟨n, hn, -⟩ := exists_decode_of_permutes h.symm hsub hm
      cases he.symm.trans hn
  · obtain ⟨m, hm, hpermutes, henum⟩ := exists_decode_of_permutes h hsub hn
    obtain ⟨n', hn', hpermutes', henum'⟩ := exists_decode_of_permutes h.symm hsub hm
    cases hn.symm.trans hn'
    have hnreg := regular_of_decode hd hn
    have hmreg := regular_of_decode hd' hm
    have hfollows : Follows Reordered (o.settle path n) (o.settle path' m) :=
      follows_settle_of_permutes hnreg hpermutes (henum (by decide))
    obtain ⟨u', hu', hreordered⟩ := hfollows u hu
    refine ⟨_, restructureMembers_of_settle hm hu', ?_⟩
    rcases hread with hread | ⟨⟨e, he⟩, rfl⟩
    · obtain ⟨r', hread', hmembers⟩ := exists_readable_of_reordered hnreg hmreg hu hu' hreordered hread
      rw [hread']
      exact hmembers
    · -- What cannot be written or read back in one order cannot in the other.
      cases hread' : readable u' with
      | error e' => exact hsame
      | ok r' =>
        have hback : Follows Reordered (o.settle path' m) (o.settle path n) :=
          follows_settle_of_permutes hmreg hpermutes' (henum' (by decide))
        obtain ⟨u₁, hu₁, hreordered'⟩ := hback u' hu'
        cases hu.symm.trans hu₁
        obtain ⟨r, hread, -⟩ := exists_readable_of_reordered hmreg hnreg hu' hu hreordered' hread'
        cases he.symm.trans hread

end Options

end KubeSchema
