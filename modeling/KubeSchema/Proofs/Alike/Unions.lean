import KubeSchema.Proofs.Alike.Reading
import KubeSchema.Proofs.Alike.Writing
import KubeSchema.Proofs.Union.Agreement
import KubeSchema.Proofs.Union.Enum
import KubeSchema.Proofs.Union.Optional

/-!
# Hoisting in schemas that are like each other

One computation follows another (`Run.Follows`) if it succeeds whenever that does, with a related result. What is
hoisted in a schema object follows what is hoisted in one like it.

* `follows_hoistEnumVariants`, `follows_hoistEnumValues`: enums.
* `follows_hoistProperties`: properties.
* `follows_hoistOptional`: optionals.
-/

namespace KubeSchema

open Json (Alike)

/-! ## Computations that follow each other -/

namespace Run

variable {α β γ δ : Type} {ρ : α → β → Prop} {σ : γ → δ → Prop}

/-- Whenever the one computation gives a result, the other one gives a related result. -/
def Follows (ρ : α → β → Prop) (x : Run α) (y : Run β) : Prop :=
  ∀ a, x.outcome = .ok a → ∃ b, y.outcome = .ok b ∧ ρ a b

theorem follows_pure {a : α} {b : β} (h : ρ a b) : Follows ρ (pure a) (pure b) := by
  rintro _ ⟨⟩
  exact ⟨b, rfl, h⟩

theorem follows_encoded {x : Except EncodeError α} {y : Except EncodeError β}
    (h : ∀ a, x = .ok a → ∃ b, y = .ok b ∧ ρ a b) : Follows ρ (encoded x) (encoded y) := by
  intro a ha
  obtain ⟨b, hb, hr⟩ := h a (encoded_eq_ok.1 ha)
  exact ⟨b, encoded_eq_ok.2 hb, hr⟩

theorem follows_report (event event' : Event) :
    Follows (fun _ _ => True) (Traced.report event : Run Unit) (Traced.report event' : Run Unit) :=
  fun _ _ => ⟨(), rfl, trivial⟩

theorem Follows.bind_of_mem {x : Run α} {y : Run β} {f : α → Run γ} {g : β → Run δ} (h : Follows ρ x y)
    (hfg : ∀ a b, x.outcome = .ok a → y.outcome = .ok b → ρ a b → Follows σ (f a) (g b)) :
    Follows σ (x >>= f) (y >>= g) := by
  intro c hc
  obtain ⟨a, ha, hc⟩ := Traced.bind_eq_ok.1 hc
  obtain ⟨b, hb, hr⟩ := h a ha
  obtain ⟨d, hd, hs⟩ := hfg a b ha hb hr c hc
  exact ⟨d, Traced.bind_eq_ok.2 ⟨b, hb, hd⟩, hs⟩

theorem Follows.bind {x : Run α} {y : Run β} {f : α → Run γ} {g : β → Run δ} (h : Follows ρ x y)
    (hfg : ∀ a b, ρ a b → Follows σ (f a) (g b)) : Follows σ (x >>= f) (y >>= g) :=
  h.bind_of_mem fun a b _ _ => hfg a b

theorem Follows.map {x : Run α} {y : Run β} {f : α → γ} {g : β → δ} (h : Follows ρ x y)
    (hfg : ∀ a b, ρ a b → σ (f a) (g b)) : Follows σ (f <$> x) (g <$> y) := by
  rw [← bind_pure_comp, ← bind_pure_comp]
  exact h.bind fun a b hr => follows_pure (hfg a b hr)

/-- What follows the second computation follows the first. -/
theorem Follows.trans {ε : Type} {x : Run α} {y : Run β} {z : Run ε} {ρ' : β → ε → Prop} {τ : α → ε → Prop}
    (h : Follows ρ x y) (h' : Follows ρ' y z) (hτ : ∀ a b c, ρ a b → ρ' b c → τ a c) : Follows τ x z := by
  intro a ha
  obtain ⟨b, hb, hab⟩ := h a ha
  obtain ⟨c, hc, hbc⟩ := h' b hb
  exact ⟨c, hc, hτ a b c hab hbc⟩

/-- A computation without a result. -/
def Fails (x : Run α) : Prop := ∀ a, x.outcome ≠ .ok a

theorem fails_violate (cause : Violation) (path : Pointer) : Fails (violate cause path : Run α) := nofun

theorem fails_bind {x : Run α} {f : α → Run β} (h : ∀ a, Fails (f a)) : Fails (x >>= f) := by
  intro b hb
  obtain ⟨a, -, hb⟩ := Traced.bind_eq_ok.1 hb
  exact h a b hb

theorem Fails.follows {x : Run α} {y : Run β} (h : Fails x) : Follows ρ x y := fun a ha => absurd ha (h a)

end Run

namespace Node

open Run

variable {path path' : Pointer} {n m v w : ObjectSchema} {vs ws : List Schema}

theorem any_eq_of_forall₂ {α β : Type} {ρ : α → β → Prop} {l : List α} {l' : List β} {p : α → Bool} {q : β → Bool}
    (h : List.Forall₂ ρ l l') (hp : ∀ a b, ρ a b → p a = q b) : l.any p = l'.any q := by
  induction h with
  | nil => rfl
  | cons hr _ ih => rw [List.any_cons, List.any_cons, hp _ _ hr, ih]

/-! ## Unions of enums -/

/-- Variants with the same type that are like each other. -/
def TypedLike (p q : OneOrMany PrimitiveType × ObjectSchema) : Prop := p.1 = q.1 ∧ p.2.Like Schema.Like q.2

theorem follows_typedVariants {index index' : Nat} (h : List.Forall₂ Schema.Like vs ws) :
    Follows (List.Forall₂ TypedLike) (typedVariants path index vs) (typedVariants path' index' ws) := by
  induction h generalizing index index' with
  | nil => exact follows_pure .nil
  | cons hs _ ih =>
    rcases hs.cases with ⟨b, rfl, rfl⟩ | ⟨v, w, rfl, rfl, hvw⟩
    · exact (fails_violate _ _).follows
    · rw [typedVariants, typedVariants, ← hvw.types_eq]
      cases v.types with
      | none => exact (fails_bind fun _ => fails_violate _ _).follows
      | some t => exact ih.bind fun _ _ hr => follows_pure (.cons ⟨rfl, hvw⟩ hr)

theorem follows_checkTypes {first first' : OneOrMany PrimitiveType × ObjectSchema} {index index' : Nat}
    {l l' : List (OneOrMany PrimitiveType × ObjectSchema)} (hfirst : TypedLike first first')
    (h : List.Forall₂ TypedLike l l') :
    Follows (fun _ _ => True) (checkTypes path first index l) (checkTypes path' first' index' l') := by
  induction h generalizing index index' with
  | nil => exact follows_pure trivial
  | cons hp _ ih =>
    rw [checkTypes, checkTypes, ← hfirst.1, ← hp.1]
    split
    · exact ih
    · exact (fails_bind fun _ => fails_bind fun _ => fails_violate _ _).follows

theorem listedValues?_of_like (h : v.Like Schema.Like w) :
    Option.Rel (List.Forall₂ Alike) (listedValues? v) (listedValues? w) := by
  have henum := h.enum
  have hconst := h.other.values "const"
  unfold listedValues?
  revert henum hconst
  generalize v.enum = a, w.enum = b, Members.get? v.other "const" = c, Members.get? w.other "const" = d
  rintro (hab | _) (hcd | _)
  · exact .some hab
  · exact .some hab
  · exact .some (.cons hcd .nil)
  · exact .none

theorem follows_collectValues {index index' : Nat} {l l' : List (OneOrMany PrimitiveType × ObjectSchema)}
    (h : List.Forall₂ TypedLike l l') :
    Follows (List.Forall₂ Alike) (collectValues path index l) (collectValues path' index' l') := by
  induction h generalizing index index' with
  | nil => exact follows_pure .nil
  | cons hp _ ih =>
    rw [collectValues, collectValues]
    have hvalues := listedValues?_of_like hp.2
    revert hvalues
    generalize listedValues? _ = a, listedValues? _ = b
    rintro (hab | _)
    · exact ih.bind fun _ _ hr => follows_pure (List.rel_append hab hr)
    · exact (fails_bind fun _ => fails_violate _ _).follows

theorem isObjectVariant_of_like {s s' : Schema} (h : s.Like s') : isObjectVariant s = isObjectVariant s' := by
  rcases h.cases with ⟨b, rfl, rfl⟩ | ⟨v, w, rfl, rfl, hvw⟩
  · rfl
  · exact hvw.isAboutObjects_eq

theorem like_with_values {types types' : Option (OneOrMany PrimitiveType)} {values values' : List Json}
    {oneOf oneOf' : Option (List Schema)} (h : n.Like Schema.Like m) (htypes : types = types')
    (hvalues : List.Forall₂ Alike values values') (hone : Option.Rel (List.Forall₂ Schema.Like) oneOf oneOf') :
    Node.Like Schema.Like { n with enum := some (n.enum.getD [] ++ values), types, oneOf }
      { m with enum := some (m.enum.getD [] ++ values'), types := types', oneOf := oneOf' } := by
  have henum : Option.Rel (List.Forall₂ Alike) (some (n.enum.getD [] ++ values)) (some (m.enum.getD [] ++ values')) :=
    .some (List.rel_append (forall₂_getD h.enum) hvalues)
  refine h.of_fields h.extensions h.other fun k => ?_
  cases k
  case enum => exact .inr henum
  case type => exact .inr htypes
  case oneOf => exact .inr hone
  all_goals exact .inl ⟨rfl, rfl⟩

theorem follows_hoistEnumVariants (h : n.Like Schema.Like m) :
    Follows (Option.Rel (Node.Like Schema.Like)) (hoistEnumVariants path n) (hoistEnumVariants path' m) := by
  have hone := h.getD_variants .oneOf
  unfold hoistEnumVariants
  simp only [Node.variants] at hone
  revert hone
  generalize n.oneOf.getD [] = l, m.oneOf.getD [] = l'
  rintro (_ | ⟨hs, hl⟩)
  · exact follows_pure .none
  · have hall := List.Forall₂.cons hs hl
    dsimp only
    rw [any_eq_of_forall₂ hall fun _ _ => isObjectVariant_of_like]
    split
    · exact follows_pure .none
    · refine (follows_typedVariants hall).bind fun l l' hl => ?_
      cases hl with
      | nil => exact follows_pure .none
      | cons hfirst hl =>
        refine (follows_checkTypes hfirst hl).bind fun _ _ _ => ?_
        refine (follows_collectValues (.cons hfirst hl)).bind fun values values' hvalues => ?_
        refine (follows_report _ _).bind fun _ _ _ => follows_pure (.some ?_)
        exact like_with_values h (congrArg some hfirst.1) hvalues .none

/-! ## Enums among other variants -/

theorem follows_agreedType {values values' : List Json} (h : n.Like Schema.Like m) (hv : v.Like Schema.Like w) :
    Follows Eq (agreedType path values n v) (agreedType path' values' m w) := by
  unfold agreedType
  rw [← h.types_eq, ← hv.types_eq]
  split
  · split
    · exact follows_pure rfl
    · exact (fails_bind fun _ => fails_bind fun _ => fails_violate _ _).follows
  · exact follows_pure rfl
  · exact follows_pure rfl

theorem follows_takeEnums {index index' : Nat} (h : n.Like Schema.Like m) (hvs : List.Forall₂ Schema.Like vs ws) :
    Follows (fun r r' => r.1.Like Schema.Like r'.1 ∧ List.Forall₂ Schema.Like r.2 r'.2)
      (takeEnums path index n vs) (takeEnums path' index' m ws) := by
  induction hvs generalizing index index' n m with
  | nil => exact follows_pure ⟨h, .nil⟩
  | cons hs _ ih =>
    rcases hs.cases with ⟨b, rfl, rfl⟩ | ⟨v, w, rfl, rfl, hvw⟩
    · exact (ih h).bind fun _ _ hr => follows_pure ⟨hr.1, .cons hs hr.2⟩
    · rw [takeEnums, takeEnums]
      have henum := hvw.enum
      revert henum
      generalize v.enum = a, w.enum = b
      rintro (hab | _)
      · refine (follows_agreedType h hvw).bind fun types types' htypes => ih ?_
        exact like_with_values h htypes hab (h.fields .oneOf)
      · exact (ih h).bind fun _ _ hr => follows_pure ⟨hr.1, .cons hs hr.2⟩

theorem hasEnum_of_like {s s' : Schema} (h : s.Like s') : hasEnum s = hasEnum s' := by
  rcases h.cases with ⟨b, rfl, rfl⟩ | ⟨v, w, rfl, rfl, hvw⟩
  · rfl
  · exact isSome_eq_of_rel hvw.enum

theorem like_with_oneOf {oneOf oneOf' : Option (List Schema)} (h : n.Like Schema.Like m)
    (hone : Option.Rel (List.Forall₂ Schema.Like) oneOf oneOf') :
    Node.Like Schema.Like { n with oneOf } { m with oneOf := oneOf' } := by
  refine h.of_fields h.extensions h.other fun k => ?_
  cases k
  case oneOf => exact .inr hone
  all_goals exact .inl ⟨rfl, rfl⟩

theorem follows_hoistEnumValues (h : n.Like Schema.Like m) :
    Follows (Option.Rel (Node.Like Schema.Like)) (hoistEnumValues path n) (hoistEnumValues path' m) := by
  have hone : List.Forall₂ Schema.Like (n.oneOf.getD []) (m.oneOf.getD []) := h.getD_variants .oneOf
  unfold hoistEnumValues
  dsimp only
  rw [any_eq_of_forall₂ hone fun _ _ => hasEnum_of_like]
  split
  · exact (follows_takeEnums h hone).bind fun _ _ hr => follows_pure (.some (like_with_oneOf hr.1 (.some hr.2)))
  · exact follows_pure .none

/-! ## Properties -/

theorem isAlike_of_like {s s' t t' : Schema} (hs : s.Like s') (ht : t.Like t') (h : s.isAlike t = .ok true) :
    s'.isAlike t' = .ok true := by
  obtain ⟨x, y, hx, hy, halike⟩ := isAlike_eq_ok_true.1 h
  obtain ⟨x', hx', hxx'⟩ := writesAlike _ _ hs x hx
  obtain ⟨y', hy', hyy'⟩ := writesAlike _ _ ht y hy
  exact isAlike_eq_ok_true.2 ⟨x', y', hx', hy', (hxx'.congr hyy').1 halike⟩

theorem like_describedTag {description : Option String} {s s' : Schema} (h : s.Like s') :
    (describedTag description s).Like (describedTag description s') := by
  rcases h.cases with ⟨b, rfl, rfl⟩ | ⟨v, w, rfl, rfl, hvw⟩
  · exact .bool b
  · cases description with
    | none => exact h
    | some text =>
      refine .of_node (hvw.of_fields hvw.extensions hvw.other fun k => ?_)
      cases k
      case description => exact .inr rfl
      all_goals exact .inl ⟨rfl, rfl⟩

theorem follows_describeTag {description : Option String} {name name' : String} {s s' : Schema} (h : s.Like s') :
    Follows Schema.Like (describeTag path description name s) (describeTag path' description name' s') := by
  intro t ht
  rw [outcome_describeTag] at ht
  cases ht
  exact ⟨_, outcome_describeTag .., like_describedTag h⟩

/-- A single property is like a single property of the same name. -/
theorem exists_singleton_of_like {name : String} {s : Schema} {l : List (String × Schema)}
    (h : Members.Like Schema.Like [(name, s)] l) : ∃ s', l = [(name, s')] ∧ s.Like s' := by
  have hs : Members.get? [(name, s)] name = some s := by simp [Members.get?]
  obtain ⟨s', hs', hlike⟩ := h.exists_right hs
  obtain ⟨p, rfl⟩ := List.length_eq_one_iff.1 h.length_eq.symm
  cases List.mem_singleton.1 (Members.mem_of_get? hs')
  exact ⟨s', rfl, hlike⟩

theorem like_singleton {name : String} {s s' : Schema} (h : s.Like s') :
    Members.Like Schema.Like [(name, s)] [(name, s')] :=
  .of_rel (.cons ⟨rfl, h⟩ .nil) (List.nodup_singleton name)

theorem follows_handedProperties {u : Union} (h : v.Like Schema.Like w) :
    Follows (Members.Like Schema.Like) (handedProperties u path v) (handedProperties u path' w) := by
  have hp := h.properties
  unfold handedProperties
  rw [← h.description_eq]
  cases u with
  | anyOf => exact follows_pure hp
  | oneOf =>
    revert hp
    generalize v.properties = l, w.properties = l'
    intro hp
    rcases l with _ | ⟨⟨name, s⟩, _ | ⟨p, l⟩⟩
    · rw [List.length_eq_zero_iff.1 hp.length_eq.symm]
      exact follows_pure .nil
    · obtain ⟨s', rfl, hs⟩ := exists_singleton_of_like hp
      exact (follows_describeTag hs).bind fun _ _ hr => follows_pure (like_singleton hr)
    · exact (fails_violate _ _).follows

theorem follows_mergeProperties {l l' handed handed' : List (String × Schema)} (h : Members.Like Schema.Like l l')
    (hh : Members.Like Schema.Like handed handed') :
    Follows (Members.Like Schema.Like) (handed.foldlM (mergeProperty path) l)
      (handed'.foldlM (mergeProperty path') l') := by
  intro r hr
  obtain ⟨rfl, hmerge⟩ := foldlM_mergeProperty_eq_ok.1 hr
  have hmerge' : Mergeable l' handed' := by
    refine (mergeable_iff_of_distinct hh.right).2 fun p hp s' hs' => ?_
    obtain ⟨t, ht, hpt⟩ := hh.flip.exists_right (Members.get?_of_mem hh.right hp)
    obtain ⟨s, hs, hss'⟩ := h.flip.exists_right hs'
    exact isAlike_of_like hss' hpt (hmerge.declared _ (Members.mem_of_get? ht) s hs)
  refine ⟨handed'.foldl addProperty l', foldlM_mergeProperty_eq_ok.2 ⟨rfl, hmerge'⟩, ?_⟩
  refine ⟨distinct_foldl_addProperty h.left handed, distinct_foldl_addProperty h.right handed', fun name => ?_⟩
  rw [get?_foldl_addProperty, get?_foldl_addProperty]
  exact rel_or (h.values name) (hh.values name)

theorem like_hoistedVariant (h : v.Like Schema.Like w) :
    Schema.Like (.object (strippedVariant v)) (.object (strippedVariant w)) ∧
      Schema.Like (.object (bareVariant v)) (.object (bareVariant w)) := by
  constructor
  · refine .of_node (h.of_fields h.extensions h.other fun k => ?_)
    cases k
    case description | type => exact .inr rfl
    case properties => exact .inr .nil
    case additionalProperties => exact .inr .none
    all_goals exact .inl ⟨rfl, rfl⟩
  · refine .of_node (h.of_fields h.extensions h.other fun k => ?_)
    cases k
    case description | type => exact .inr rfl
    case default => exact .inr .none
    all_goals exact .inl ⟨rfl, rfl⟩

theorem like_with_properties {properties properties' : List (String × Schema)}
    {types : Option (OneOrMany PrimitiveType)} (h : n.Like Schema.Like m)
    (hp : Members.Like Schema.Like properties properties') :
    Node.Like Schema.Like { n with properties, types } { m with properties := properties', types } := by
  refine h.of_fields h.extensions h.other fun k => ?_
  cases k
  case properties => exact .inr hp
  case type => exact .inr rfl
  all_goals exact .inl ⟨rfl, rfl⟩

/-- What comes of hoisting variants is like each other. -/
def HoistedLike (r r' : Hoisted) : Prop :=
  r.parent.Like Schema.Like r'.parent ∧ List.Forall₂ Schema.Like r.variants r'.variants ∧ r.changed = r'.changed

theorem follows_hoistVariants {u : Union} {index index' : Nat} (h : n.Like Schema.Like m)
    (hvs : List.Forall₂ Schema.Like vs ws) :
    Follows HoistedLike (hoistVariants u path index n vs) (hoistVariants u path' index' m ws) := by
  induction hvs generalizing index index' n m with
  | nil => exact follows_pure ⟨h, .nil, rfl⟩
  | cons hs _ ih =>
    rcases hs.cases with ⟨b, rfl, rfl⟩ | ⟨v, w, rfl, rfl, hvw⟩
    · exact (fails_violate _ _).follows
    · rw [hoistVariants, hoistVariants, ← hvw.hasObjectKeywords_eq, ← hvw.isOnly_eq]
      split
      · refine (follows_handedProperties hvw).bind fun _ _ hhanded => ?_
        refine (follows_mergeProperties h.properties hhanded).bind fun _ _ hp => ?_
        refine (ih (like_with_properties h hp)).bind fun _ _ hr => ?_
        exact follows_pure ⟨hr.1, .cons (like_hoistedVariant hvw).1 hr.2.1, rfl⟩
      · split
        · exact (ih h).bind fun _ _ hr => follows_pure ⟨hr.1, .cons (like_hoistedVariant hvw).2 hr.2.1, rfl⟩
        · exact (ih h).bind fun _ _ hr => follows_pure ⟨hr.1, .cons hs hr.2.1, hr.2.2⟩

theorem like_setVariants {u : Union} {l l' : Option (List Schema)} (h : n.Like Schema.Like m)
    (hl : Option.Rel (List.Forall₂ Schema.Like) l l') : (n.setVariants u l).Like Schema.Like (m.setVariants u l') := by
  cases u with
  | oneOf => exact like_with_oneOf h hl
  | anyOf =>
    refine h.of_fields h.extensions h.other fun k => ?_
    cases k
    case anyOf => exact .inr hl
    all_goals exact .inl ⟨rfl, rfl⟩

theorem follows_hoistProperties {u : Union} (h : n.Like Schema.Like m) :
    Follows (Option.Rel (Node.Like Schema.Like)) (hoistProperties u path n) (hoistProperties u path' m) := by
  unfold hoistProperties
  rw [← h.hasConflictingUnions_eq]
  split
  · exact (fails_violate _ _).follows
  · refine (follows_hoistVariants h (h.getD_variants u)).bind fun r r' hr => ?_
    rw [← hr.2.2]
    split
    · exact (follows_report _ _).bind fun _ _ _ => follows_pure (.some (like_setVariants hr.1 (.some hr.2.1)))
    · exact follows_pure .none

/-! ## Optionals -/

theorem exists_foldlM_mergeKeyword {ms l : Members Json} (hd : Members.Distinct l)
    (h : ∀ p ∈ l, ∀ existing, Members.get? ms p.1 = some existing → existing.Alike p.2) :
    (l.foldlM (mergeKeyword path) ms).outcome = .ok (Members.setAll ms l) := by
  induction l generalizing ms with
  | nil => rfl
  | cons p l ih =>
    obtain ⟨hp, hd⟩ := List.nodup_cons.1 hd
    obtain ⟨hhead, htail⟩ := List.forall_mem_cons.1 h
    have hmerge : (mergeKeyword path ms p).outcome = .ok (Members.set ms p.1 p.2) := by
      unfold mergeKeyword
      split
      · next existing hg => rw [if_pos (hhead existing hg)]; rfl
      · rfl
    rw [List.foldlM_cons, Traced.bind_eq_ok]
    refine ⟨_, hmerge, ih hd fun q hq existing hg => htail q hq existing ?_⟩
    have hne : p.1 ≠ q.1 := fun e => hp (e ▸ List.mem_map_of_mem hq)
    rwa [Members.get?_set, if_neg hne] at hg

theorem hasDistinctNames_setAll {ms l : Members Json} (h : (Json.obj ms).hasDistinctNames = true)
    (hl : (Json.obj l).hasDistinctNames = true) : (Json.obj (Members.setAll ms l)).hasDistinctNames = true := by
  obtain ⟨hd, hv⟩ := Json.hasDistinctNames_obj.1 h
  obtain ⟨-, hvl⟩ := Json.hasDistinctNames_obj.1 hl
  refine Json.hasDistinctNames_obj.2 ⟨Members.distinct_setAll hd l, fun p hp => ?_⟩
  exact (Members.mem_setAll hp).elim (hv p) (hvl p)

theorem follows_mergeKeywords {l l' : Members Json} (hn : (Schema.object n).Regular) (hm : (Schema.object m).Regular)
    (h : n.Like Schema.Like m) (hl : (Json.obj l).hasDistinctNames = true)
    (hl' : (Json.obj l').hasDistinctNames = true) (hlike : Members.Like Alike l l') :
    Follows (Node.Like Schema.Like) (mergeKeywords path n l) (mergeKeywords path' m l') := by
  intro r hr
  obtain ⟨own, hown, hr⟩ := Traced.bind_eq_ok.1 hr
  obtain ⟨merged, hmerged, hr⟩ := Traced.bind_eq_ok.1 hr
  have hown := Run.encoded_eq_ok.1 hown
  obtain ⟨rfl, hagree⟩ := foldlM_mergeKeyword_eq_ok hlike.left hmerged
  obtain ⟨own', hown', hownlike⟩ := exists_encode_of_like h hown
  have hmerged' : (l'.foldlM (mergeKeyword path') own').outcome = .ok (Members.setAll own' l') := by
    refine exists_foldlM_mergeKeyword hlike.right fun p hp existing' hex' => ?_
    obtain ⟨existing, hex, hee'⟩ := hownlike.flip.exists_right hex'
    obtain ⟨x, hx, hxp⟩ := hlike.flip.exists_right (Members.get?_of_mem hlike.right hp)
    exact (hee'.congr hxp).1 (hagree _ (Members.mem_of_get? hx) existing hex)
  have hset := hownlike.setAll hlike
  obtain ⟨r', hr', hrlike⟩ := exists_decode_of_alike ((Json.alike_obj hset.left hset.right).2 hset)
    (hasDistinctNames_setAll (hasDistinctNames_written_node hn hown) hl)
    (hasDistinctNames_setAll (hasDistinctNames_written_node hm hown') hl') (Run.decoded_eq_ok.1 hr)
  refine ⟨r', Traced.bind_eq_ok.2 ⟨own', Run.encoded_eq_ok.2 hown', ?_⟩, hrlike⟩
  exact Traced.bind_eq_ok.2 ⟨_, hmerged', Run.decoded_eq_ok.2 hr'⟩

/-- Optionals that are like each other, with keywords carried along by both or by none. -/
def OptionalLike (p q : Optional) : Prop := p.node.Like Schema.Like q.node ∧ p.carried = q.carried

theorem hasDistinctNames_eraseAll {ms : Members Json} (h : (Json.obj ms).hasDistinctNames = true)
    (gone : List String) : (Json.obj (Members.eraseAll ms gone)).hasDistinctNames = true := by
  obtain ⟨hd, hv⟩ := Json.hasDistinctNames_obj.1 h
  exact Json.hasDistinctNames_obj.2 ⟨hd.eraseAll gone, fun p hp => hv p (List.mem_of_mem_filter hp)⟩

theorem like_hoistedEntry {merged merged' : ObjectSchema} (h : merged.Like Schema.Like merged')
    (hvw : v.Like Schema.Like w) :
    Node.Like Schema.Like
      { merged with
        description := v.description
        types := v.types
        enum := v.enum
        extensions := Members.set merged.extensions nullableKeyword (.bool true) }
      { merged' with
        description := w.description
        types := w.types
        enum := w.enum
        extensions := Members.set merged'.extensions nullableKeyword (.bool true) } := by
  refine h.of_fields (h.extensions.set nullableKeyword (.refl _)) h.other fun k => ?_
  cases k
  case description | type | enum => exact .inr (hvw.fields _)
  all_goals exact .inl ⟨rfl, rfl⟩

theorem follows_hoistEntry {index index' : Nat} {s s' : Schema} (hn : (Schema.object n).Regular)
    (hm : (Schema.object m).Regular) (h : n.Like Schema.Like m) (hs : s.Regular) (hs' : s'.Regular)
    (hlike : s.Like s') : Follows OptionalLike (hoistEntry path n index s) (hoistEntry path' m index' s') := by
  rcases hlike.cases with ⟨b, rfl, rfl⟩ | ⟨v, w, rfl, rfl, hvw⟩
  · exact (fails_violate _ _).follows
  · have hown : Node.Like Schema.Like { n with anyOf := none } { m with anyOf := none } :=
      like_setVariants (u := .anyOf) h .none
    refine (follows_encoded fun _ => exists_encode_of_like hvw).bind_of_mem fun ms ms' hms hms' hmslike => ?_
    have herased := hmslike.eraseAll replacedKeywords
    dsimp only
    rw [herased.isEmpty_eq]
    split
    · refine (follows_report _ _).bind fun _ _ _ => follows_pure ⟨like_hoistedEntry hown hvw, rfl⟩
    · have hd := hasDistinctNames_written_node hs (Run.encoded_eq_ok.1 hms)
      have hd' := hasDistinctNames_written_node hs' (Run.encoded_eq_ok.1 hms')
      refine (follows_mergeKeywords (regular_without_anyOf hn) (regular_without_anyOf hm) hown
        (hasDistinctNames_eraseAll hd _) (hasDistinctNames_eraseAll hd' _) herased).bind fun _ _ hr => ?_
      exact (follows_report _ _).bind fun _ _ _ => follows_pure ⟨like_hoistedEntry hr hvw, rfl⟩

theorem follows_isNullEntry {s s' : Schema} (h : s.Like s') :
    Follows Eq (Run.encoded s.isNullEntry) (Run.encoded s'.isNullEntry) := by
  refine follows_encoded fun b hb => ?_
  obtain ⟨x, hx, hb⟩ := bind_eq_ok.1 hb
  cases hb
  obtain ⟨x', hx', halike⟩ := writesAlike _ _ h x hx
  refine ⟨_, bind_eq_ok.2 ⟨x', hx', rfl⟩, ?_⟩
  exact decide_eq_decide.2 (halike.congr (.refl nullEntry))

theorem follows_hoistOptional (hn : (Schema.object n).Regular) (hm : (Schema.object m).Regular)
    (h : n.Like Schema.Like m) :
    Follows (Option.Rel OptionalLike) (hoistOptional path n) (hoistOptional path' m) := by
  have hentries : ∀ s ∈ n.anyOf.getD [], s.Regular := fun s hs => hn.child s (mem_children.2 ⟨.anyOf, hs⟩)
  have hentries' : ∀ s ∈ m.anyOf.getD [], s.Regular := fun s hs => hm.child s (mem_children.2 ⟨.anyOf, hs⟩)
  have hany : Option.Rel (List.Forall₂ Schema.Like) n.anyOf m.anyOf := h.fields .anyOf
  unfold hoistOptional
  revert hany hentries hentries'
  generalize n.anyOf = l, m.anyOf = l'
  rintro hreg hreg' (hl | _)
  · rcases hl with _ | ⟨ha, _ | ⟨hb, _ | ⟨_, _⟩⟩⟩
    · exact follows_pure .none
    · exact follows_pure .none
    · simp only [Option.getD_some, List.forall_mem_cons] at hreg hreg'
      refine (follows_isNullEntry ha).bind fun p _ hp => (follows_isNullEntry hb).bind fun q _ hq => ?_
      subst hp hq
      cases p <;> cases q
      · exact follows_pure .none
      · exact (follows_hoistEntry hn hm h hreg.1 hreg'.1 ha).map fun _ _ hr => .some hr
      · exact (follows_hoistEntry hn hm h hreg.2.1 hreg'.2.1 hb).map fun _ _ hr => .some hr
      · exact (fails_violate _ _).follows
    · exact follows_pure .none
  · exact follows_pure .none

end Node

end KubeSchema
