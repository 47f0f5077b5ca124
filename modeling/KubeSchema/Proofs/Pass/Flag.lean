import KubeSchema.Pass
import KubeSchema.Proofs.Permuted.Unions
import KubeSchema.Proofs.Union.Merging

/-!
# What a pass says it did

A pass says that it has nothing to do by giving no schema object. Two of them find that out only while they rewrite the
schema object, variant by variant (`Pass.inPlace`): they must then have put back what was there. A pass that says that
it did something must have done what shows in what is written.

* `outcome_inPlace`: rewriting in place leaves what the pass gives, or everything as it was.
* `not_like_of_apply`: what a pass gives is not like what it was given.
* `changed_iff_of_inPlace`: so it is written otherwise exactly if the pass says so.
-/

namespace KubeSchema

namespace Node

variable {u : Union} {path : Pointer} {n m e : ObjectSchema} {vs : List Schema} {index : Nat}

/-! ## Rewriting in place -/

/-- Hoisting properties by a loop that rewrites the schema object and its variants as it goes, together with whether
any variant was about objects. -/
def hoistPropertiesInPlace (u : Union) (path : Pointer) (n : ObjectSchema) : Run (Bool × ObjectSchema) :=
  if n.hasConflictingUnions then Run.violate .conflictingUnions path
  else match (n.variants u).getD [] with
    | [] => pure (false, n)
    | variants => do
      let hoisted ← hoistVariants u path 0 n variants
      return (hoisted.changed, hoisted.parent.setVariants u (some hoisted.variants))

/-- Hoisting enums by a loop that rewrites the schema object as it goes and puts back the variants that remain,
together with whether any variant had an enum. -/
def hoistEnumValuesInPlace (path : Pointer) (n : ObjectSchema) : Run (Bool × ObjectSchema) :=
  match n.oneOf.getD [] with
  | [] => pure (false, n)
  | variants => do
    let (m, kept) ← takeEnums path 0 n variants
    return (variants.any hasEnum, { m with oneOf := some kept })

/-- Variants none of which is about objects are put back as they were. -/
theorem setVariants_of_unchanged (hv : n.variants u = some vs) {h : Hoisted}
    (hr : (hoistVariants u path index n vs).outcome = .ok h) (hc : h.changed = false) :
    h.parent.setVariants u (some h.variants) = n := by
  obtain ⟨ws, hws, hp, hkept, hchanged, -⟩ := hoistVariants_eq_ok hr
  have hidle : ∀ w ∈ ws, w.hasObjectKeywords = false ∧ w.isOnly .object = false := by
    rw [hc] at hchanged
    intro w hw
    simpa using List.any_eq_false.1 hchanged.symm w hw
  have hself := hoisted_eq_self (u := u) (n := n) (by rw [hv]; exact hws) hidle
  rw [hoisted, hv, Option.map_some, ← hp, ← hkept] at hself
  exact hself

theorem outcome_hoistPropertiesInPlace (u : Union) (path : Pointer) (n : ObjectSchema) :
    (hoistPropertiesInPlace u path n).outcome =
      (fun r => (r.isSome, r.getD n)) <$> (hoistProperties u path n).outcome := by
  unfold hoistPropertiesInPlace hoistProperties
  split
  · rfl
  · rcases hv : n.variants u with _ | _ | ⟨s, vs⟩
    · rfl
    · rfl
    · simp only [Option.getD_some, Traced.outcome_bind]
      cases hr : (hoistVariants u path 0 n (s :: vs)).outcome with
      | error fault => rfl
      | ok h =>
        cases hc : h.changed with
        | true => simp [bind, Except.bind, hc]
        | false => simp [bind, Except.bind, hc, setVariants_of_unchanged hv hr hc]

/-- Variants none of which has an enum are put back as they were. -/
theorem takeEnums_of_enumless (h : ∀ s ∈ vs, hasEnum s = false) : (takeEnums path index n vs).outcome = .ok (n, vs) := by
  induction vs generalizing index with
  | nil => rfl
  | cons s vs ih =>
    obtain ⟨hs, hvs⟩ := List.forall_mem_cons.1 h
    cases s with
    | bool b =>
      rw [takeEnums, Traced.bind_eq_ok]
      exact ⟨_, ih hvs, rfl⟩
    | object v =>
      have hv : v.enum = none := by simpa [hasEnum] using hs
      rw [takeEnums, hv, Traced.bind_eq_ok]
      exact ⟨_, ih hvs, rfl⟩

theorem outcome_hoistEnumValuesInPlace (path : Pointer) (n : ObjectSchema) :
    (hoistEnumValuesInPlace path n).outcome =
      (fun r => (r.isSome, r.getD n)) <$> (hoistEnumValues path n).outcome := by
  unfold hoistEnumValuesInPlace hoistEnumValues
  rcases hv : n.oneOf with _ | _ | ⟨s, vs⟩
  · rfl
  · rfl
  · dsimp only [Option.getD_some]
    cases hany : (s :: vs).any hasEnum with
    | true =>
      simp only [↓reduceIte, Traced.outcome_bind]
      cases (takeEnums path 0 n (s :: vs)).outcome <;> rfl
    | false =>
      have hidle : (takeEnums path 0 n (s :: vs)).outcome = .ok (n, s :: vs) :=
        takeEnums_of_enumless fun s hs => by simpa using List.any_eq_false.1 hany s hs
      simp [hidle, ← hv, bind]

/-! ## Changes that show -/

/-- Schema objects that are written alike are like each other. -/
theorem like_of_alike (hn : (Schema.object n).Regular) (hm : (Schema.object m).Regular) {ns ms : Members Json}
    (hns : n.encode = .ok ns) (hms : m.encode = .ok ms) (h : (Json.obj ns).Alike (.obj ms)) :
    n.Like Schema.Like m := by
  have halike : (Schema.object n).isAlike (.object m) = .ok true :=
    isAlike_eq_ok_true.2 ⟨_, _, map_eq_ok.2 ⟨ns, hns, rfl⟩, map_eq_ok.2 ⟨ms, hms, rfl⟩, h⟩
  rcases (like_of_isAlike hn hm halike).cases with ⟨b, e, -⟩ | ⟨_, _, e, e', hlike⟩
  · cases e
  · cases e
    cases e'
    exact hlike

/-- The entries of an `anyOf` are never like those of one of them: they would have to go on forever. -/
theorem not_like_entries {s : Schema} : ∀ (e : ObjectSchema) (vs : List Schema), s = .object e → s ∈ vs →
    ¬Option.Rel (List.Forall₂ Schema.Like) (some vs) e.anyOf := by
  induction s using Schema.induction with
  | bool b => exact fun e vs he => by cases he
  | object n ih =>
    intro e vs he hmem hrel
    cases he
    obtain ⟨us, hus, hall⟩ := exists_of_rel_some hrel
    obtain ⟨c, hc, hlike⟩ := exists_of_mem_left hall hmem
    rcases hlike.cases with ⟨b, e, -⟩ | ⟨k, k', e, rfl, hlike⟩
    · cases e
    · cases e
      have hentries : Option.Rel (List.Forall₂ Schema.Like) (some us) k'.anyOf := hus ▸ hlike.variants .anyOf
      have hchild : Schema.object k' ∈ n.children :=
        mem_children.2 ⟨.anyOf, by simpa [Keyword.children, field, hus] using hc⟩
      exact ih _ hchild k' us rfl hc hentries

/-- A list that lost an element is not like what it was. -/
theorem not_forall₂_filter {α : Type} {ρ : α → α → Prop} {p : α → Bool} {l : List α} {a : α} (ha : a ∈ l)
    (hp : p a = false) : ¬List.Forall₂ ρ l (l.filter p) := by
  intro hall
  have hlt : (l.filter p).length < l.length := List.length_filter_lt_length_iff_exists.2 ⟨a, ha, by simp [hp]⟩
  exact hlt.ne hall.length_eq.symm

theorem not_like_takenEnums (h : (n.oneOf.getD []).any hasEnum = true) : ¬n.Like Schema.Like n.takenEnums := by
  intro hlike
  obtain ⟨s, hs, henum⟩ := List.any_eq_true.1 h
  have hrel : Option.Rel (List.Forall₂ Schema.Like) n.oneOf (n.oneOf.map (List.filter (fun s => !hasEnum s))) :=
    hlike.variants .oneOf
  cases ho : n.oneOf with
  | none => simp [ho] at hs
  | some vs =>
    rw [ho] at hs hrel
    obtain ⟨_, e, hall⟩ := exists_of_rel_some hrel
    cases e
    exact not_forall₂_filter hs (by simp [henum]) hall

theorem not_like_dropEnumNull (h : n.dropEnumNull = some m) : ¬n.Like Schema.Like m := by
  intro hlike
  unfold dropEnumNull at h
  split at h
  · cases h
  · next values hvalues =>
    split at h
    · next hnull =>
      cases h
      have hrel := hlike.enum
      rw [hvalues] at hrel
      obtain ⟨_, e, hall⟩ := exists_of_rel_some hrel
      cases e
      exact not_forall₂_filter hnull.2.2 (by simp) hall
    · cases h

theorem not_like_preserveUnknownFields {key : String} (h : n.preserveUnknownFields key = some m) :
    ¬n.Like Schema.Like m := by
  intro hlike
  unfold preserveUnknownFields at h
  split at h
  · next ha =>
    cases h
    have hrel := hlike.additionalProperties
    rw [ha] at hrel
    cases hrel
  · cases h

theorem not_like_dropUniqueItems (h : n.dropUniqueItems = some m) : ¬n.Like Schema.Like m := by
  intro hlike
  unfold dropUniqueItems at h
  split at h
  · next hsome =>
    cases h
    have hnone : n.uniqueItems = none := hlike.fields .uniqueItems
    rw [hnone] at hsome
    cases hsome
  · cases h

end Node

namespace Pass

open Node Options

variable {o : Options} {path : Pointer} {n m : ObjectSchema} {p : Pass}

/-- A pass on a schema object that it rewrites as it goes: whether it says that it changed something, and what is
there afterwards. -/
def inPlace (o : Options) (path : Pointer) (n : ObjectSchema) : Pass → Run (Bool × ObjectSchema)
  | properties u => n.hoistPropertiesInPlace u path
  | enumValues => n.hoistEnumValuesInPlace path
  | p => (fun r => (r.isSome, r.getD n)) <$> p.apply o path n

/-- What is there afterwards is the result of the pass, or what was there before if it has nothing to do. -/
theorem outcome_inPlace (o : Options) (path : Pointer) (n : ObjectSchema) (p : Pass) :
    (p.inPlace o path n).outcome = (fun r => (r.isSome, r.getD n)) <$> (p.apply o path n).outcome := by
  cases p
  case properties u => exact outcome_hoistPropertiesInPlace u path n
  case enumValues => exact outcome_hoistEnumValuesInPlace path n
  all_goals exact Traced.outcome_map _ _

/-- Every pass keeps schema objects regular. -/
theorem regular_of_apply (hkey : isVendor o.preserveKey = true) (hn : (Schema.object n).Regular)
    {r : Option ObjectSchema} (h : (p.apply o path n).outcome = .ok r) : (Schema.object (r.getD n)).Regular := by
  cases p with
  | enumVariants =>
    rcases hoistEnumVariants_eq_ok h with ⟨rfl, -⟩ | ⟨t, ws, hws, -, -, rfl⟩
    · exact hn
    · exact regular_enumerated hn hws
  | optional =>
    simp only [apply, Traced.bind_eq_ok, Traced.pure_eq_ok] at h
    obtain ⟨r, hr, rfl⟩ := h
    rcases hoistOptional_eq_ok hn hr with ⟨rfl, -⟩ | ⟨e, carried, he, -, rfl⟩
    · exact hn
    · exact regular_overlay (regular_without_anyOf hn) (hn.child _ (mem_children.2 ⟨.anyOf, he.mem⟩))
  | enumValues =>
    rw [hoistEnumValues_eq_ok h]
    exact regular_takenEnums hn
  | properties u =>
    obtain ⟨ws, hws, hr, -⟩ := hoistProperties_eq_ok h
    rw [hr]
    exact regular_hoisted hn hws
  | enumNull =>
    cases h
    exact regular_everywhere_cleanEnum (o := { dropEnumNull := true }) hn
  | unknownFields =>
    cases h
    have hfinish : (n.preserveUnknownFields o.preserveKey).getD n = { o with dropUniqueItems := false }.finish n := rfl
    rw [hfinish]
    refine regular_of_children (regular_finish hkey hn.here) fun k c hc => ?_
    exact hn.child c (mem_children.2 ⟨k, passed_of_finish hc⟩)
  | uniqueItems =>
    cases h
    show (Schema.object (cleanItems {} n)).Regular
    rw [cleanItems_eq]
    refine regular_of_children (hn.here.of_fields rfl rfl fun k => ?_) fun k c hc =>
      hn.child c (mem_children.2 ⟨k, ?_⟩)
    · cases k <;> first | exact .inl rfl | exact .inr trivial
    · cases k <;> exact hc
  | whole =>
    obtain ⟨m, hm, rfl⟩ := Traced.map_eq_ok.1 h
    exact regular_of_settle hkey hn hm

/-- What a pass gives is not like what it was given, if it is a part other than the hoisting of properties. -/
theorem not_like_of_apply (hproperties : ∀ u, p ≠ .properties u) (hwhole : p ≠ .whole)
    (hn : (Schema.object n).Regular) (h : (p.apply o path n).outcome = .ok (some m)) : ¬n.Like Schema.Like m := by
  cases p with
  | enumVariants =>
    rcases hoistEnumVariants_eq_ok h with ⟨hnone, -⟩ | ⟨t, ws, hws, hne, -, e⟩
    · cases hnone
    · cases e
      intro hlike
      have hrel : Option.Rel (List.Forall₂ Schema.Like) n.oneOf none := hlike.variants .oneOf
      cases ho : n.oneOf with
      | none =>
        rw [ho, Option.getD_none] at hws
        exact hne (List.map_eq_nil_iff.1 hws.symm)
      | some vs =>
        rw [ho] at hrel
        cases hrel
  | optional =>
    simp only [apply, Traced.bind_eq_ok, Traced.pure_eq_ok] at h
    obtain ⟨r, hr, hm⟩ := h
    rcases hoistOptional_eq_ok hn hr with ⟨rfl, -⟩ | ⟨e, carried, he, -, rfl⟩
    · cases hm
    · cases hm
      intro hlike
      obtain ⟨a, b, hab, -⟩ := he.entries
      have hentries : (overlay { n with anyOf := none } e).anyOf = e.anyOf :=
        (field_overlay (k := .anyOf) (by decide)).symm.trans Option.or_none
      have hrel := hlike.variants .anyOf
      have hmem := he.mem
      rw [hab] at hmem
      simp only [variants, hab, hentries] at hrel
      exact not_like_entries e [a, b] rfl hmem hrel
  | enumValues =>
    have hany := isSome_hoistEnumValues h
    have htaken := hoistEnumValues_eq_ok h
    cases htaken
    exact not_like_takenEnums hany.symm
  | properties u => exact absurd rfl (hproperties u)
  | enumNull => exact not_like_dropEnumNull (Except.ok.inj h)
  | unknownFields => exact not_like_preserveUnknownFields (Except.ok.inj h)
  | uniqueItems => exact not_like_dropUniqueItems (Except.ok.inj h)
  | whole => contradiction

/-- A pass says the truth about itself: where it says that it changed nothing, everything is as it was, and where it
says that it changed something, what is written is different, other than in the order of members. Only the hoisting of
properties may say so while writing what was there. -/
theorem changed_iff_of_inPlace {v : Json} (hkey : isVendor o.preserveKey = true) (hd : v.hasDistinctNames = true)
    (hn : Node.decode v = .ok n) (hwhole : p ≠ .whole) {changed : Bool}
    (h : (p.inPlace o path n).outcome = .ok (changed, m)) :
    (changed = false → m = n) ∧
      ∃ ns ms, n.encode = .ok ns ∧ m.encode = .ok ms ∧
        ((∀ u, p ≠ .properties u) → (changed = true ↔ ¬(Json.obj ns).Alike (.obj ms))) := by
  have hreg := regular_of_decode hd hn
  rw [outcome_inPlace] at h
  obtain ⟨r, hr, hresult⟩ := map_eq_ok.1 h
  cases hresult
  have hsame : r.isSome = false → r.getD n = n := by
    cases r with
    | none => exact fun _ => rfl
    | some m => exact nofun
  have hm := regular_of_apply hkey hreg hr
  obtain ⟨ns, hns, -⟩ := exists_encode_node hreg
  obtain ⟨ms, hms, -⟩ := exists_encode_node hm
  refine ⟨hsame, ns, ms, hns, hms, fun hproperties => ?_⟩
  cases r with
  | none =>
    cases hns.symm.trans hms
    exact iff_of_false nofun (not_not_intro (.refl _))
  | some m =>
    refine iff_of_true rfl fun halike => ?_
    exact not_like_of_apply hproperties hwhole hreg hr (like_of_alike hreg hm hns hms halike)

/-- An optional whose entry is an optional: the entry's `anyOf` takes the place of the parent's, and is another one. -/
theorem changed_iff_of_nested_optional :
    let inner : Json := .obj [("anyOf", .arr [.obj [("type", .str "string")], nullEntry])]
    let v : Json := .obj [("anyOf", .arr [inner, nullEntry])]
    let entry : ObjectSchema := { anyOf := some [.object { types := some (.one .string) }, .object nullNode] }
    let n : ObjectSchema := { anyOf := some [.object entry, .object nullNode] }
    let m : ObjectSchema := { anyOf := entry.anyOf, extensions := [(nullableKeyword, .bool true)] }
    Node.decode v = .ok n ∧ (optional.inPlace {} [] n).outcome = .ok (true, m) ∧
      ∃ ns ms, n.encode = .ok ns ∧ m.encode = .ok ms ∧ ¬(Json.obj ns).Alike (.obj ms) := by
  intro inner v entry n m
  have hn : Node.decode v = .ok n := rfl
  have hm : (optional.inPlace {} [] n).outcome = .ok (true, m) := rfl
  have hd : v.hasDistinctNames = true := rfl
  obtain ⟨-, ns, ms, hns, hms, hiff⟩ := changed_iff_of_inPlace (p := optional) (by decide) hd hn nofun hm
  exact ⟨hn, hm, ns, ms, hns, hms, (hiff nofun).1 rfl⟩

end Pass

end KubeSchema
