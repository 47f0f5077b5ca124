import KubeSchema.Proofs.Alike.Settle
import KubeSchema.Proofs.Permuted.Schema
import KubeSchema.Proofs.Settle.Drained
import KubeSchema.Proofs.Union.Hoistable
import Mathlib.Data.List.Permutation

/-!
# Hoisting variants in any order

What is hoisted from variants in one order follows what is hoisted from them in another. Enums and variants stay the
same but for their order; of properties that are written alike the one that comes first is kept, so that the schema
objects are the same up to the order of members as well (`Node.Reordered`).

* `follows_hoistEnumVariants_of_permutes`, `follows_hoistEnumValues_of_permutes`: enums.
* `follows_hoistProperties_of_permutes`: properties.
* `follows_hoistOptional_of_permutes`: optionals.
-/

namespace KubeSchema

/-! ## Regular schemas that are written alike -/

/-- Regular schemas that are written alike are like each other. -/
theorem like_of_isAlike {s t : Schema} (hs : s.Regular) (ht : t.Regular) (h : s.isAlike t = .ok true) : s.Like t := by
  obtain ⟨x, y, hx, hy, halike⟩ := isAlike_eq_ok_true.1 h
  obtain ⟨x', hx', hdx, hnx⟩ := exists_encode hs
  obtain ⟨y', hy', hdy, hny⟩ := exists_encode ht
  cases hx.symm.trans hx'
  cases hy.symm.trans hy'
  obtain ⟨t', ht', hlike⟩ := readsLike x y hnx hny halike s hdx
  cases hdy.symm.trans ht'
  exact hlike

theorem isAlike_refl {s : Schema} (hs : s.Regular) : s.isAlike s = .ok true := by
  obtain ⟨x, hx, -⟩ := exists_encode hs
  exact isAlike_eq_ok_true.2 ⟨x, x, hx, hx, .refl x⟩

theorem Schema.Like.refl {s : Schema} (hs : s.Regular) : s.Like s := like_of_isAlike hs hs (isAlike_refl hs)

theorem Node.Like.refl {n : ObjectSchema} (hn : (Schema.object n).Regular) : n.Like Schema.Like n := by
  rcases (Schema.Like.refl hn).cases with ⟨b, e, -⟩ | ⟨n', m, e, e', h⟩
  · cases e
  · cases e
    cases e'
    exact h

namespace Node

open Run

variable {path path' : Pointer} {n m k : ObjectSchema} {u : Union} {ws ws' : List ObjectSchema}

/-- The same schema object up to the order of variants, of values and of members. -/
def Reordered (n m : ObjectSchema) : Prop := ∃ l, n.Permutes l ∧ l.Like Schema.Like m

theorem Reordered.trans_like (h : n.Reordered m) (h' : m.Like Schema.Like k) : n.Reordered k := by
  obtain ⟨l, hl, hlike⟩ := h
  exact ⟨l, hl, hlike.trans h' fun _ _ _ h h' => h.trans h'⟩

/-- Variants that are schema objects are so in any order. -/
theorem exists_objects_of_perm {vs : List Schema} (h : (ws.map Schema.object).Perm vs) :
    ∃ ws', vs = ws'.map .object ∧ ws.Perm ws' := by
  have hobjects : List.Forall₂ (fun s w => s = Schema.object w) (ws.map .object) ws :=
    List.forall₂_map_left_iff.2 (List.forall₂_same.2 fun _ _ => rfl)
  obtain ⟨ws', hws', hperm⟩ := List.perm_comp_forall₂ h.symm hobjects
  refine ⟨ws', ?_, hperm.symm⟩
  rw [← List.forall₂_eq_eq_eq, List.forall₂_map_right_iff]
  exact hws'

/-! ## A union of enums only -/

theorem permutes_enumerated (h : n.Permutes m) (t : OneOrMany PrimitiveType) (hperm : ws.Perm ws') :
    (n.enumerated t ws).Permutes (m.enumerated t ws') := by
  obtain ⟨-, hany, henum⟩ := h
  exact .intro .none hany (.some ((perm_getD henum).append (hperm.flatMap_right _)))

theorem follows_hoistEnumVariants_of_permutes (h : n.Permutes m) :
    Follows (Option.Rel Permutes) (hoistEnumVariants path n) (hoistEnumVariants path' m) := by
  have hone : (n.oneOf.getD []).Perm (m.oneOf.getD []) := h.getD_variants .oneOf
  intro r hr
  rcases hoistEnumVariants_eq_ok hr with ⟨rfl, hobjects⟩ | ⟨t, ws, hws, hne, henums, rfl⟩
  · refine ⟨none, ?_, .none⟩
    rw [hoistEnumVariants_of_objects]
    · rfl
    · rw [← hone.any_eq]
      refine hobjects.imp_left fun hnil => List.nil_perm.1 ?_
      rwa [hnil] at hone
  · obtain ⟨ws', hws', hperm⟩ := exists_objects_of_perm (hws ▸ hone)
    have hne' : ws' ≠ [] := by
      rintro rfl
      exact hne (List.perm_nil.1 hperm)
    exact ⟨_, hoistEnumVariants_of_enums hws' hne' fun w hw => henums w (hperm.mem_iff.2 hw),
      .some (permutes_enumerated h t hperm)⟩

/-! ## Enums among other variants -/

theorem perm_takenValues {enum enum' : Option (List Json)} (h : Option.Rel List.Perm enum enum')
    (hperm : ws.Perm ws') : Option.Rel List.Perm (takenValues enum ws) (takenValues enum' ws') := by
  cases ws with
  | nil =>
    rw [List.nil_perm.1 hperm]
    exact h
  | cons w ws =>
    cases ws' with
    | nil => exact absurd (List.perm_nil.1 hperm) (List.cons_ne_nil w ws)
    | cons w' ws' =>
      rw [takenValues_cons, takenValues_cons]
      exact .some ((perm_getD h).append (hperm.flatMap_right _))

theorem permutes_takenEnums (h : n.Permutes m) (htypes : OneType n.types (enumVariants (n.oneOf.getD []))) :
    n.takenEnums.Permutes m.takenEnums := by
  obtain @⟨oneOf, anyOf, enum, hone, hany, henum⟩ := h
  have henums := perm_enumVariants (perm_getD hone)
  unfold takenEnums
  rw [htypes.takenType_eq henums]
  refine .intro ?_ hany (perm_takenValues henum henums)
  revert hone
  generalize n.oneOf = a
  rintro (hone | _)
  · exact .some (hone.filter _)
  · exact .none

theorem follows_hoistEnumValues_of_permutes (h : n.Permutes m) :
    Follows (fun r r' => (r.getD n).Permutes (r'.getD m)) (hoistEnumValues path n) (hoistEnumValues path' m) := by
  intro r hr
  have htypes := exists_hoistEnumValues_iff.1 ⟨r, hr⟩
  have htypes' : OneType m.types (enumVariants (m.oneOf.getD [])) := by
    obtain ⟨hone, -, -⟩ := h
    exact htypes.perm (perm_enumVariants (perm_getD hone))
  obtain ⟨r', hr'⟩ := exists_hoistEnumValues_iff.2 htypes'
  refine ⟨r', hr', ?_⟩
  show (r.getD n).Permutes (r'.getD m)
  rw [hoistEnumValues_eq_ok hr, hoistEnumValues_eq_ok hr']
  exact permutes_takenEnums h htypes

/-! ## Properties -/

/-- Those of one name among properties that can be merged are written alike, whichever comes first. -/
theorem Mergeable.isAlike {l ps : List (String × Schema)} (h : Mergeable l ps) (hreg : ∀ p ∈ ps, p.2.Regular) :
    ∀ p ∈ ps, ∀ q ∈ ps, p.1 = q.1 → p.2.isAlike q.2 = .ok true := by
  have hflip := h.pairwise.imp (S := fun p q => q.1 = p.1 → q.2.isAlike p.2 = .ok true)
    fun hpq hname => isAlike_symm (hpq hname.symm)
  intro p hp q hq
  exact h.pairwise.forall_of_forall_of_flip (fun p hp _ => isAlike_refl (hreg p hp)) hflip hp hq

/-- Merging properties in another order gives the same ones, up to the order of members. -/
theorem like_foldl_addProperty {l ps ps' : List (String × Schema)} (hd : Members.Distinct l)
    (hl : ∀ p ∈ l, p.2.Regular) (hps : ∀ p ∈ ps, p.2.Regular) (h : Mergeable l ps) (hperm : ps.Perm ps') :
    Members.Like Schema.Like (ps.foldl addProperty l) (ps'.foldl addProperty l) := by
  refine ⟨distinct_foldl_addProperty hd ps, distinct_foldl_addProperty hd ps', fun name => ?_⟩
  have hown : Option.Rel Schema.Like (Members.get? l name) (Members.get? l name) := by
    cases hs : Members.get? l name with
    | none => exact .none
    | some s => exact .some (.refl (hl _ (Members.mem_of_get? hs)))
  have hnames : (Members.names ps).Perm (Members.names ps') := hperm.map Prod.fst
  have hfirst : Option.Rel Schema.Like (Members.get? ps name) (Members.get? ps' name) := by
    cases hs : Members.get? ps name with
    | none =>
      rw [Members.get?_eq_none_iff, hnames.mem_iff, ← Members.get?_eq_none_iff] at hs
      rw [hs]
      exact .none
    | some s =>
      have hp : (name, s) ∈ ps := Members.mem_of_get? hs
      cases ht : Members.get? ps' name with
      | none =>
        rw [Members.get?_eq_none_iff, ← hnames.mem_iff] at ht
        exact absurd (List.mem_map_of_mem hp) ht
      | some t =>
        have hq : (name, t) ∈ ps := hperm.mem_iff.2 (Members.mem_of_get? ht)
        exact .some (like_of_isAlike (hps _ hp) (hps _ hq) (h.isAlike hps _ hp _ hq rfl))
  rw [get?_foldl_addProperty, get?_foldl_addProperty]
  exact rel_or hown hfirst

theorem like_received (hn : (Schema.object n).Regular) (hws : (n.variants u).getD [] = ws.map .object)
    (h : Hoistable u n.properties ws) (hperm : ws.Perm ws') :
    Members.Like Schema.Like (received u n.properties ws) (received u n.properties ws') := by
  refine like_foldl_addProperty (hn.here.fits .properties) (fun p hp => ?_) (fun p hp => ?_) h.mergeable
    (hperm.flatMap_right _)
  · exact hn.child _ (mem_children.2 ⟨.properties, List.mem_map_of_mem hp⟩)
  · obtain ⟨w, hw, hp⟩ := List.mem_flatMap.1 hp
    exact regular_handed (hn.child _ (unionVariants_subset_children (mem_unionVariants hws hw))) p hp

theorem permutes_hoisted (h : n.Permutes m) (hperm : ws.Perm ws') :
    (n.hoisted u ws).Permutes { m.hoisted u ws' with properties := received u n.properties ws } := by
  obtain ⟨hone, hany, henum⟩ := h
  have hmap {a b : Option (List Schema)} (h : Option.Rel List.Perm a b) :
      Option.Rel List.Perm (a.map fun _ => ws.map (fun w => Schema.object (hoistedVariant w)))
        (b.map fun _ => ws'.map (fun w => Schema.object (hoistedVariant w))) := by
    cases h with
    | none => exact .none
    | some _ => exact .some (hperm.map _)
  unfold hoisted receive
  rw [hperm.any_eq]
  cases u with
  | oneOf => exact .intro (hmap hone) hany henum
  | anyOf => exact .intro hone (hmap hany) henum

theorem reordered_hoisted (hn : (Schema.object n).Regular) (h : n.Permutes m)
    (hws : (n.variants u).getD [] = ws.map .object) (hws' : (m.variants u).getD [] = ws'.map .object)
    (hperm : ws.Perm ws') (hh : Hoistable u n.properties ws) : (n.hoisted u ws).Reordered (m.hoisted u ws') := by
  have hp : Members.Like Schema.Like (received u n.properties ws) (m.hoisted u ws').properties := by
    have hreceived := like_received hn hws hh hperm
    obtain ⟨-, -, -⟩ := h
    cases u <;> exact hreceived
  have hself : (m.hoisted u ws').Like Schema.Like (m.hoisted u ws') :=
    .refl (Options.regular_hoisted (h.regular hn) hws')
  refine ⟨_, permutes_hoisted h hperm, hself.of_fields hself.extensions hself.other fun k => ?_⟩
  cases k
  case properties => exact .inr hp
  all_goals exact .inl ⟨rfl, rfl⟩

theorem follows_hoistProperties_of_permutes (hn : (Schema.object n).Regular) (h : n.Permutes m) :
    Follows (fun r r' => (r.getD n).Reordered (r'.getD m)) (hoistProperties u path n) (hoistProperties u path' m) := by
  intro r hr
  obtain ⟨ws, hws, hrn, -⟩ := hoistProperties_eq_ok hr
  obtain ⟨hconflict, hh⟩ := (exists_hoistProperties_iff hws).1 ⟨r, hr⟩
  obtain ⟨ws', hws', hperm⟩ := exists_objects_of_perm (hws ▸ h.getD_variants u)
  have hh' : Hoistable u m.properties ws' := by
    obtain ⟨-, -, -⟩ := h
    exact hh.perm hperm
  rw [h.hasConflictingUnions_eq] at hconflict
  obtain ⟨r', hr'⟩ := (exists_hoistProperties_iff hws').2 ⟨hconflict, hh'⟩
  obtain ⟨ws'', hws'', hrm, -⟩ := hoistProperties_eq_ok hr'
  have heq : ws'' = ws' := List.map_injective_iff.2 (fun _ _ => Schema.object.inj) (hws''.symm.trans hws')
  refine ⟨r', hr', ?_⟩
  show (r.getD n).Reordered (r'.getD m)
  rw [hrn, hrm, heq]
  exact reordered_hoisted hn h hws hws' hperm hh

/-! ## Optionals -/

/-- The entry of an optional moves to the parent from either place. -/
theorem follows_hoistEntry_of_anyOf {anyOf : Option (List Schema)} {i j : Nat} {s : Schema}
    (hn : (Schema.object n).Regular) (hs : s.Regular) :
    Follows OptionalLike (hoistEntry path n i s) (hoistEntry path' { n with anyOf } j s) := by
  have hown := regular_without_anyOf hn
  have hfollows : Follows OptionalLike (hoistEntry path { n with anyOf := none } i s)
      (hoistEntry path' { n with anyOf := none } j s) :=
    follows_hoistEntry hown hown (.refl hown) hs hs (.refl hs)
  cases s with
  | bool b => exact hfollows
  | object e => exact hfollows

/-- A pair in another order is the same or swapped. -/
theorem pair_of_rel_perm {a b : Schema} {anyOf : Option (List Schema)} (h : Option.Rel List.Perm (some [a, b]) anyOf) :
    anyOf = some [a, b] ∨ anyOf = some [b, a] := by
  obtain ⟨l, rfl, hl⟩ := exists_of_rel_some h
  exact (List.perm_pair.1 hl.symm).imp (congrArg some) (congrArg some)

theorem eq_of_rel_perm_of_nil {a b : Option (List Schema)} (h : Option.Rel List.Perm a b) (ha : a.getD [] = []) :
    b = a := by
  cases h with
  | none => rfl
  | some h =>
    cases ha
    rw [List.nil_perm.1 h]

/-- An optional is the same with its entries swapped, if nothing else is in another order. -/
theorem follows_hoistOptional_of_permutes (hn : (Schema.object n).Regular) (h : n.Permutes m)
    (hsame : n.anyOf.getD [] = [] ∨ n.oneOf.getD [] = [] ∧ m.enum = n.enum) :
    Follows (Option.Rel OptionalLike) (hoistOptional path n) (hoistOptional path' m) := by
  by_cases hpair : ∃ a b, n.anyOf = some [a, b]
  · obtain ⟨a, b, hab⟩ := hpair
    have hentries : ∀ s ∈ [a, b], s.Regular := fun s hs =>
      hn.child s (mem_children.2 ⟨.anyOf, by simpa [Keyword.children, field, hab] using hs⟩)
    obtain ⟨ha, hb⟩ : a.Regular ∧ b.Regular := by simpa using hentries
    obtain ⟨p, hp⟩ := exists_isNullEntry ha
    obtain ⟨q, hq⟩ := exists_isNullEntry hb
    obtain ⟨hnone, henum⟩ := hsame.resolve_left (by simp [hab])
    obtain @⟨oneOf, anyOf, enum, hone, hany, -⟩ := h
    cases eq_of_rel_perm_of_nil hone hnone
    cases henum
    have hentry (i j : Nat) {s : Schema} (hs : s.Regular) : Follows (Option.Rel OptionalLike)
        (some <$> hoistEntry path n i s) (some <$> hoistEntry path' { n with anyOf } j s) :=
      (follows_hoistEntry_of_anyOf hn hs).map fun _ _ hr => .some hr
    rcases pair_of_rel_perm (hab ▸ hany) with rfl | rfl
    · rw [hoistOptional_pair hab hp hq, hoistOptional_pair rfl hp hq]
      cases p <;> cases q
      · exact follows_pure .none
      · exact hentry 0 0 ha
      · exact hentry 1 1 hb
      · exact (fails_violate _ _).follows
    · rw [hoistOptional_pair hab hp hq, hoistOptional_pair rfl hq hp]
      cases p <;> cases q
      · exact follows_pure .none
      · exact hentry 0 1 ha
      · exact hentry 1 0 hb
      · exact (fails_violate _ _).follows
  · have hnone : (hoistOptional path n).outcome = .ok none :=
      hoistOptional_of_pair fun a b hab => absurd ⟨a, b, hab⟩ hpair
    have hnone' : (hoistOptional path' m).outcome = .ok none := by
      refine hoistOptional_of_pair fun a b hab => absurd ?_ hpair
      have hany : Option.Rel List.Perm m.anyOf n.anyOf := rel_perm_symm (h.variants .anyOf)
      rcases pair_of_rel_perm (hab ▸ hany) with h | h
      · exact ⟨a, b, h⟩
      · exact ⟨b, a, h⟩
    intro r hr
    cases hnone.symm.trans hr
    exact ⟨none, hnone', .none⟩

end Node

end KubeSchema
