import KubeSchema.Proofs.DeclaredNames
import KubeSchema.Proofs.Faults

/-!
# What violations point at

A violation stands at a schema object, at one of its unions or at a variant, and one about a property at that property
of a variant (`Node.Blames`). All of these stand in the document, except that a variant may have taken the property over
from its own variants.

* `blames_settle`: where settling fails.
* `restructure_blames`: where a restructuring fails, in the document.
* `restructure_blames_nothing`: the property need not be there.
-/

namespace KubeSchema

/-- The property that a violation is about. -/
def Violation.property? : Violation → Option String
  | propertyConflict name _ _ => some name
  | _ => none

/-! ## Computations that violate -/

namespace Run

variable {α β : Type} {P : Violation → Pointer → Prop}

/-- If a computation fails by a violation, then by one of these. -/
def Violates (P : Violation → Pointer → Prop) (x : Run α) : Prop :=
  ∀ cause place, x.outcome = .error (.violation cause place) → P cause place

theorem violates_pure (a : α) : Violates P (pure a : Run α) := nofun

theorem violates_report (event : Event) : Violates P (Traced.report event : Run Unit) := nofun

theorem violates_encoded (x : Except EncodeError α) : Violates P (encoded x) := by
  intro cause place h
  cases x <;> cases h

theorem violates_decoded (x : Except DecodeError α) : Violates P (decoded x) := by
  intro cause place h
  cases x <;> cases h

theorem violates_violate {cause : Violation} {place : Pointer} (h : P cause place) :
    Violates P (violate cause place : Run α) := by
  rintro _ _ ⟨⟩
  exact h

theorem Violates.bind {x : Run α} {f : α → Run β} (hx : Violates P x)
    (hf : ∀ a, x.outcome = .ok a → Violates P (f a)) : Violates P (x >>= f) := by
  intro cause place h
  rw [Traced.outcome_bind] at h
  cases hr : x.outcome with
  | error e =>
    rw [hr] at h
    cases h
    exact hx cause place hr
  | ok a =>
    rw [hr] at h
    exact hf a hr cause place h

theorem Violates.map {x : Run α} (hx : Violates P x) (f : α → β) : Violates P (f <$> x) := by
  rw [← bind_pure_comp]
  exact hx.bind fun _ _ => violates_pure _

theorem Violates.imp {Q : Violation → Pointer → Prop} {x : Run α} (hx : Violates P x)
    (h : ∀ cause place, P cause place → Q cause place) : Violates Q x :=
  fun cause place he => h cause place (hx cause place he)

theorem violates_foldlM {f : β → α → Run β} {l : List α} (h : ∀ b, ∀ a ∈ l, Violates P (f b a)) (b : β) :
    Violates P (l.foldlM f b) := by
  induction l generalizing b with
  | nil => exact violates_pure b
  | cons a l ih =>
    rw [List.foldlM_cons]
    exact (h b a List.mem_cons_self).bind fun b' _ => ih (fun b a ha => h b a (List.mem_cons_of_mem _ ha)) b'

end Run

/-! ## Unions -/

namespace Node

open Run

/-- A violation at one of the variants of a union, the first of them at an index, or at a property of a variant. -/
inductive BlamesVariant (u : Union) (start : Nat) (vs : List Schema) : Violation → Pointer → Prop
  | variant {i : Nat} {s : Schema} {cause : Violation} (h : vs[i]? = some s) (hc : cause.property? = none) :
      BlamesVariant u start vs cause [u.name, Pointer.index (start + i)]
  | property {i : Nat} {w : ObjectSchema} {cause : Violation} {name : String} (h : vs[i]? = some (.object w))
      (hc : cause.property? = some name) (hname : name ∈ Members.names w.properties) :
      BlamesVariant u start vs cause [u.name, Pointer.index (start + i), Keyword.properties.name, name]

variable {u : Union} {start : Nat} {n v : ObjectSchema} {vs : List Schema} {cause : Violation} {place : Pointer}

theorem BlamesVariant.cons {s : Schema} (h : BlamesVariant u (start + 1) vs cause place) :
    BlamesVariant u start (s :: vs) cause place := by
  have hshift (i : Nat) : start + 1 + i = start + (i + 1) := by omega
  cases h with
  | variant h hc =>
    rw [hshift]
    exact .variant (i := _ + 1) h hc
  | property h hc hname =>
    rw [hshift]
    exact .property (i := _ + 1) h hc hname

theorem blames_first (s : Schema) (hc : cause.property? = none) :
    BlamesVariant u start (s :: vs) cause [u.name, Pointer.index start] := .variant (i := 0) rfl hc

theorem blames_first_property {name : String} (hc : cause.property? = some name)
    (hname : name ∈ Members.names v.properties) :
    BlamesVariant u start (.object v :: vs) cause
      [u.name, Pointer.index start, Keyword.properties.name, name] := .property (i := 0) rfl hc hname

theorem violates_typedVariants (start : Nat) (vs : List Schema) :
    Violates (BlamesVariant .oneOf start vs) (typedVariants [] start vs) := by
  induction vs generalizing start with
  | nil => exact violates_pure _
  | cons s vs ih =>
    cases s with
    | bool b => exact violates_violate (blames_first _ rfl)
    | object v =>
      rw [typedVariants]
      split
      · exact (violates_encoded _).bind fun _ _ => violates_violate (blames_first _ rfl)
      · exact ((ih (start + 1)).imp fun _ _ => .cons).bind fun _ _ => violates_pure _

theorem violates_writtenType {P : Violation → Pointer → Prop} : Violates P (writtenType n) := by
  refine (violates_encoded _).bind fun ms _ => ?_
  split
  · exact violates_pure _
  · exact violates_encoded _

theorem violates_checkTypes (first : OneOrMany PrimitiveType × ObjectSchema) (start : Nat)
    (l : List (OneOrMany PrimitiveType × ObjectSchema)) :
    Violates (BlamesVariant .oneOf start (l.map fun p => .object p.2)) (checkTypes [] first start l) := by
  induction l generalizing start with
  | nil => exact violates_pure _
  | cons p l ih =>
    rw [checkTypes]
    split
    · exact (ih (start + 1)).imp fun _ _ => .cons
    · exact violates_writtenType.bind fun _ _ => violates_writtenType.bind fun _ _ =>
        violates_violate (blames_first _ rfl)

theorem violates_collectValues (start : Nat) (l : List (OneOrMany PrimitiveType × ObjectSchema)) :
    Violates (BlamesVariant .oneOf start (l.map fun p => .object p.2)) (collectValues [] start l) := by
  induction l generalizing start with
  | nil => exact violates_pure _
  | cons p l ih =>
    rw [collectValues]
    split
    · exact ((ih (start + 1)).imp fun _ _ => .cons).bind fun _ _ => violates_pure _
    · exact (violates_encoded _).bind fun _ _ => violates_violate (blames_first _ rfl)

/-- A violation at a schema object, one of its unions, or a variant. -/
inductive Blames (n : ObjectSchema) : Violation → Pointer → Prop
  | here {cause : Violation} (hc : cause.property? = none) : Blames n cause []
  | union {u : Union} {cause : Violation} (h : (n.variants u).getD [] ≠ []) (hc : cause.property? = none) :
      Blames n cause [u.name]
  | variant {u : Union} {cause : Violation} {place : Pointer}
      (h : BlamesVariant u 0 ((n.variants u).getD []) cause place) : Blames n cause place

theorem BlamesVariant.ne_nil (h : BlamesVariant u start vs cause place) : vs ≠ [] := by
  rintro rfl
  cases h with
  | variant h => cases h
  | property h => cases h

/-- Where unions have gone, none of their variants is to blame. -/
theorem Blames.of_variants {n' : ObjectSchema} (h : n'.Blames cause place)
    (hvariants : ∀ u, (n'.variants u).getD [] ≠ [] → (n'.variants u).getD [] = (n.variants u).getD []) :
    n.Blames cause place := by
  cases h with
  | here hc => exact .here hc
  | union hne hc => exact .union (hvariants _ hne ▸ hne) hc
  | variant h => exact .variant (hvariants _ h.ne_nil ▸ h)

theorem violates_hoistEnumVariants : Violates n.Blames (hoistEnumVariants [] n) := by
  unfold hoistEnumVariants
  split
  · exact violates_pure _
  · next s vs hvs =>
    have hvariant {cause : Violation} {place : Pointer} (h : BlamesVariant .oneOf 0 (s :: vs) cause place) :
        n.Blames cause place := .variant (u := .oneOf) (by rwa [variants, hvs])
    split
    · exact violates_pure _
    · refine ((violates_typedVariants 0 (s :: vs)).imp fun _ _ => hvariant).bind fun l hl => ?_
      obtain ⟨he, -⟩ := typedVariants_eq_ok hl
      rw [he] at hvariant
      cases l with
      | nil => exact violates_pure _
      | cons first l =>
        refine ((violates_checkTypes first 1 l).imp fun _ _ h => hvariant h.cons).bind fun _ _ => ?_
        refine ((violates_collectValues 0 (first :: l)).imp fun _ _ => hvariant).bind fun _ _ => ?_
        exact (violates_report _).bind fun _ _ => violates_pure _

theorem violates_agreedType {P : Violation → Pointer → Prop} {values : List Json}
    (h : ∀ cause : Violation, cause.property? = none → P cause place) :
    Violates P (agreedType place values n v) := by
  unfold agreedType
  split
  · split
    · exact violates_pure _
    · exact violates_writtenType.bind fun _ _ => violates_writtenType.bind fun _ _ => violates_violate (h _ rfl)
  · exact violates_pure _
  · exact violates_pure _

/-- A violation that is not about a property is at one of the variants whatever these are. -/
theorem BlamesVariant.of_length {vs' : List Schema} (h : BlamesVariant u start vs cause place)
    (hc : cause.property? = none) (hlength : vs.length = vs'.length) : BlamesVariant u start vs' cause place := by
  cases h with
  | @variant i _ _ h =>
    obtain ⟨hi, -⟩ := List.getElem?_eq_some_iff.1 h
    exact .variant (List.getElem?_eq_getElem (hlength ▸ hi)) hc
  | property _ hc' => cases hc.symm.trans hc'

theorem violates_takeEnums (start : Nat) (n : ObjectSchema) (vs : List Schema) :
    Violates (fun cause place => BlamesVariant .oneOf start vs cause place ∧ cause.property? = none)
      (takeEnums [] start n vs) := by
  induction vs generalizing start n with
  | nil => exact violates_pure _
  | cons s vs ih =>
    have hrest (n : ObjectSchema) : Violates (fun cause place =>
        BlamesVariant .oneOf start (s :: vs) cause place ∧ cause.property? = none) (takeEnums [] (start + 1) n vs) :=
      (ih (start + 1) n).imp fun _ _ h => ⟨h.1.cons, h.2⟩
    cases s with
    | bool b => exact (hrest n).bind fun _ _ => violates_pure _
    | object v =>
      rw [takeEnums]
      split
      · exact (violates_agreedType fun cause hc => ⟨blames_first _ hc, hc⟩).bind fun _ _ => hrest _
      · exact (hrest n).bind fun _ _ => violates_pure _

/-- The enums among hoisted variants are taken from as many variants as there were. -/
theorem violates_hoistEnumValues {m : ObjectSchema} (h : (n.oneOf.getD []).length = (m.oneOf.getD []).length) :
    Violates m.Blames (hoistEnumValues [] n) := by
  unfold hoistEnumValues
  dsimp only
  split
  · exact ((violates_takeEnums 0 n _).imp fun _ _ hb => .variant (u := .oneOf) (hb.1.of_length hb.2 h)).bind
      fun _ _ => violates_pure _
  · exact violates_pure _

theorem violates_describeTag {P : Violation → Pointer → Prop} {description : Option String} {name : String}
    {s : Schema} : Violates P (describeTag place description name s) := by
  unfold describeTag
  split
  · exact violates_pure _
  · exact (violates_report _).bind fun _ _ => violates_pure _
  · split
    · exact (violates_report _).bind fun _ _ => violates_pure _
    · exact violates_pure _

theorem violates_handedProperties {P : Violation → Pointer → Prop}
    (h : ∀ cause : Violation, cause.property? = none → P cause place) :
    Violates P (handedProperties u place v) := by
  unfold handedProperties
  split
  · exact violates_pure _
  · exact violates_pure _
  · exact violates_describeTag.bind fun _ _ => violates_pure _
  · exact violates_violate (h _ rfl)

theorem violates_mergeProperty {P : Violation → Pointer → Prop} {properties : List (String × Schema)}
    {p : String × Schema}
    (h : ∀ cause : Violation, cause.property? = some p.1 → P cause (place ++ [Keyword.properties.name, p.1])) :
    Violates P (mergeProperty place properties p) := by
  unfold mergeProperty
  split
  · exact violates_pure _
  · refine (violates_encoded _).bind fun _ _ => (violates_encoded _).bind fun _ _ => ?_
    split
    · exact violates_pure _
    · exact violates_violate (h _ rfl)

theorem violates_hoistVariants (start : Nat) (n : ObjectSchema) (vs : List Schema) :
    Violates (BlamesVariant u start vs) (hoistVariants u [] start n vs) := by
  induction vs generalizing start n with
  | nil => exact violates_pure _
  | cons s vs ih =>
    have hrest (n : ObjectSchema) : Violates (BlamesVariant u start (s :: vs)) (hoistVariants u [] (start + 1) n vs) :=
      (ih (start + 1) n).imp fun _ _ => .cons
    cases s with
    | bool b => exact violates_violate (blames_first _ rfl)
    | object v =>
      rw [hoistVariants]
      split
      · refine (violates_handedProperties fun _ => blames_first _).bind fun handed hhanded => ?_
        obtain ⟨rfl, -⟩ := handedProperties_eq_ok hhanded
        have hname : ∀ p ∈ handed u v, p.1 ∈ Members.names v.properties := fun p hp =>
          names_handed u v ▸ List.mem_map_of_mem hp
        refine (violates_foldlM (fun _ p hp => violates_mergeProperty fun _ hc =>
          blames_first_property hc (hname p hp)) _).bind fun _ _ => ?_
        exact (hrest _).bind fun _ _ => violates_pure _
      · split
        · exact (hrest n).bind fun _ _ => violates_pure _
        · exact (hrest n).bind fun _ _ => violates_pure _

theorem violates_hoistProperties {m : ObjectSchema} (h : (n.variants u).getD [] = (m.variants u).getD []) :
    Violates m.Blames (hoistProperties u [] n) := by
  unfold hoistProperties
  split
  · exact violates_violate (.here rfl)
  · refine ((violates_hoistVariants 0 n _).imp fun _ _ hb => .variant (u := u) (h ▸ hb)).bind fun _ _ => ?_
    split
    · exact (violates_report _).bind fun _ _ => violates_pure _
    · exact violates_pure _

theorem violates_mergeKeywords {P : Violation → Pointer → Prop} {keywords : Members Json}
    (h : ∀ cause : Violation, cause.property? = none → P cause place) :
    Violates P (mergeKeywords place n keywords) := by
  refine (violates_encoded _).bind fun _ _ => ?_
  refine (violates_foldlM (fun _ m _ => ?_) _).bind fun _ _ => violates_decoded _
  unfold mergeKeyword
  split
  · split
    · exact violates_pure _
    · exact violates_violate (h _ rfl)
  · exact violates_pure _

theorem violates_hoistEntry {P : Violation → Pointer → Prop} {index : Nat} {entry : Schema}
    (h : ∀ cause : Violation, cause.property? = none → P cause [Union.anyOf.name, Pointer.index index]) :
    Violates P (hoistEntry [] n index entry) := by
  unfold hoistEntry
  cases entry with
  | bool b => exact violates_violate (h _ rfl)
  | object e =>
    refine (violates_encoded _).bind fun _ _ => ?_
    dsimp only
    split
    · exact (violates_pure _).bind fun _ _ => (violates_report _).bind fun _ _ => violates_pure _
    · exact (violates_mergeKeywords h).bind fun _ _ => (violates_report _).bind fun _ _ => violates_pure _

theorem violates_hoistOptional {m : ObjectSchema} (h : n.anyOf = m.anyOf) : Violates m.Blames (hoistOptional [] n) := by
  unfold hoistOptional
  split
  · next a b hab =>
    have hentries : (m.variants .anyOf).getD [] = [a, b] := by rw [variants, ← h, hab, Option.getD_some]
    have hentry {i : Nat} {s : Schema} (hs : [a, b][i]? = some s) (cause : Violation) (hc : cause.property? = none) :
        m.Blames cause [Union.anyOf.name, Pointer.index i] := by
      have hblames : BlamesVariant .anyOf 0 [a, b] cause [Union.anyOf.name, Pointer.index (0 + i)] := .variant hs hc
      rw [Nat.zero_add] at hblames
      exact .variant (u := .anyOf) (hentries ▸ hblames)
    refine (violates_encoded _).bind fun x _ => (violates_encoded _).bind fun y _ => ?_
    cases x <;> cases y
    · exact violates_pure _
    · exact (violates_hoistEntry (hentry rfl)).map _
    · exact (violates_hoistEntry (hentry rfl)).map _
    · exact violates_violate (.union (u := .anyOf) (hentries ▸ List.cons_ne_nil _ _) rfl)
  · exact violates_pure _

end Node

/-! ## Schema objects -/

namespace Options

open Node Run

variable {o : Options} {n m : ObjectSchema}

theorem violates_hoistUnions (hone : n.oneOf = m.oneOf) (hany : n.anyOf = m.anyOf) :
    Violates m.Blames (hoistUnions [] n) := by
  -- Every step is held against the schema object before the first: hoisting leaves as many variants as there were.
  refine (violates_hoistProperties (u := .oneOf) (congrArg (Option.getD · []) hone)).bind fun r₁ h₁ => ?_
  obtain ⟨ws, hws, h₁, -⟩ := hoistProperties_eq_ok h₁
  have hlength : (((n.hoisted .oneOf ws)).oneOf.getD []).length = (m.oneOf.getD []).length := by
    have hhoisted : (n.hoisted .oneOf ws).oneOf.getD [] = ws.map (fun w => .object (hoistedVariant w)) :=
      variants_hoisted hws
    have hown : m.oneOf.getD [] = ws.map .object := hone ▸ hws
    rw [hhoisted, hown, List.length_map, List.length_map]
  rw [h₁]
  refine (violates_hoistEnumValues hlength).bind fun r₂ h₂ => ?_
  rw [hoistEnumValues_eq_ok h₂]
  refine (violates_hoistProperties (u := .anyOf) ?_).bind fun _ _ => violates_pure _
  rw [variants, anyOf_dropEmptyOneOf]
  exact congrArg (Option.getD · []) hany

theorem violates_settleUnions : Violates n.Blames (o.settleUnions [] n) := by
  refine violates_hoistEnumVariants.bind fun r hr => ?_
  have hown {cause : Violation} {place : Pointer} (h : (r.getD n).Blames cause place) : n.Blames cause place := by
    rcases hoistEnumVariants_eq_ok hr with ⟨rfl, -⟩ | ⟨t, ws, -, -, -, rfl⟩
    · exact h
    · refine h.of_variants fun u hne => ?_
      cases u with
      | oneOf => exact absurd rfl hne
      | anyOf => rfl
  refine ((violates_hoistOptional rfl).imp fun _ _ => hown).bind fun optional _ => ?_
  cases optional with
  | none => exact (violates_hoistUnions oneOf_cleanEnum anyOf_cleanEnum).imp fun _ _ => hown
  | some r => exact violates_pure _

/-- Settling fails at the schema object, at one of its unions, or at a variant. -/
theorem blames_settle : Violates n.Blames (o.settle [] n) := by
  unfold settle
  split
  · exact violates_violate (.here rfl)
  · exact violates_settleUnions.bind fun _ _ => violates_pure _

theorem blames_restructureMembers {ms : Members Json} {cause : Violation} {place : Pointer}
    (h : (o.restructureMembers [] ms).outcome = .error (.violation cause place)) :
    ∃ n, Node.decode (.obj ms) = .ok n ∧ n.Blames cause place := by
  unfold restructureMembers at h
  split at h
  · cases h
  · next n hn =>
    refine ⟨n, hn, Violates.bind blames_settle (fun m _ => ?_) cause place h⟩
    split
    · exact violates_pure _
    · exact (violates_report _).bind fun _ _ => violates_pure _

/-! ## Documents -/

/-- A violation stands at a value of a document; one about a property stands at that property of a schema object that
declares it, itself or in variants at any depth. -/
def Locates (v : Json) (cause : Violation) (place : Pointer) : Prop :=
  (cause.property? = none → ∃ w, v.find? place = some w) ∧
    ∀ name, cause.property? = some name → ∃ p w n, place = p ++ [Keyword.properties.name, name] ∧
      v.find? p = some w ∧ Node.decode w = .ok n ∧ n.Declares name

variable {cause : Violation} {place : Pointer}

theorem locates_of_find? {v w : Json} (hc : cause.property? = none) (h : v.find? place = some w) :
    Locates v cause place := by
  refine ⟨fun _ => ⟨w, h⟩, fun name hname => ?_⟩
  cases hc.symm.trans hname

theorem Locates.inside {v c : Json} {t : Pointer} (ht : v.find? t = some c) (h : Locates c cause place) :
    Locates v cause (t ++ place) := by
  have hfind (p : Pointer) : v.find? (t ++ p) = c.find? p := by rw [Json.find?_append, ht, Option.bind_some]
  refine ⟨fun hc => (hfind place).symm ▸ h.1 hc, fun name hname => ?_⟩
  obtain ⟨p, w, n, rfl, hw, hn, hdeclares⟩ := h.2 name hname
  exact ⟨t ++ p, w, n, (List.append_assoc _ _ _).symm, (hfind p).trans hw, hn, hdeclares⟩

/-- The variants of a union stand in a list under its keyword. -/
theorem find?_variant {ms : Members Json} (hn : Node.decode (.obj ms) = .ok n) {u : Union} {i : Nat} {s : Schema}
    (h : ((n.variants u).getD [])[i]? = some s) :
    ∃ x, (Json.obj ms).find? [u.name, Pointer.index i] = some x ∧ Schema.decode x = .ok s := by
  have hread : optional (Schema.decodeList u.keyword) (Members.get? ms u.name) = .ok (n.variants u) := by
    cases u
    · exact (decode_eq_ok.1 hn).1 .oneOf
    · exact (decode_eq_ok.1 hn).1 .anyOf
  rcases readList_eq_ok.1 hread with ⟨-, hnone⟩ | ⟨xs, l, hget, hl, hxs⟩
  · rw [hnone] at h
    cases h
  · rw [hl, Option.getD_some] at h
    obtain ⟨x, hx, hdec⟩ := exists_of_getElem?_right hxs h
    refine ⟨x, ?_, hdec⟩
    rw [Json.find?, Json.step?, hget, Option.bind_some, Json.find?_index, hx]
    rfl

/-- A violation at a schema object whose children were restructured stands at the object that it was read from. -/
theorem locates_of_blames {ms ms' : Members Json} (hd : (Json.obj ms).hasDistinctNames = true)
    (hslots : Members.SlotsMap o.Restructures ms ms') (hm : Node.decode (.obj ms') = .ok m)
    (h : m.Blames cause place) : Locates (.obj ms) cause place := by
  obtain ⟨n, hn⟩ := (exists_decode_iff hslots (fun _ _ => Restructures.eq_null) fun _ _ _ hc => hc.decode_iff).2 ⟨m, hm⟩
  obtain ⟨m', hm', hrel⟩ := exists_decode_of_slots hslots hn
  cases hm.symm.trans hm'
  cases h with
  | here hc => exact locates_of_find? hc rfl
  | @union u _ hne hc =>
    obtain ⟨s, vs, hvs⟩ := List.exists_cons_of_ne_nil hne
    have hfirst : ((m.variants u).getD [])[0]? = some s := by rw [hvs]; rfl
    obtain ⟨s', hs', -⟩ := exists_of_getElem?_right (forall₂_variants hrel u) hfirst
    obtain ⟨x, hx, -⟩ := find?_variant hn hs'
    obtain ⟨w, hw, -⟩ := Option.bind_eq_some_iff.1 ((Json.find?_append _ [u.name] _).symm.trans hx)
    exact locates_of_find? hc hw
  | @variant u _ _ h =>
    cases h with
    | @variant i s _ h hc =>
      obtain ⟨s', hs', -⟩ := exists_of_getElem?_right (forall₂_variants hrel u) h
      obtain ⟨x, hx, -⟩ := find?_variant hn hs'
      rw [Nat.zero_add]
      exact locates_of_find? hc hx
    | @property i w' _ name h hc hname =>
      obtain ⟨s', hs', hρ⟩ := exists_of_getElem?_right (forall₂_variants hrel u) h
      obtain ⟨x, hx, hdec⟩ := find?_variant hn hs'
      rcases hρ.cases with ⟨b, -, e⟩ | ⟨y, hy, y', w, w'', hr, hw, hw'', rfl, e⟩
      · cases e
      · cases e
        -- The variant may have taken the property over, so what it was read from need not state it.
        have hdeclares : w.Declares name := hr.declares (Json.hasDistinctNames_child hd hy) hw hw'' hname
        rw [Nat.zero_add]
        refine ⟨fun hno => ?_, fun name' hname' => ?_⟩
        · cases hc.symm.trans hno
        · cases hc.symm.trans hname'
          exact ⟨_, x, w, rfl, hx, Schema.decode_object hdec, hdeclares⟩

theorem locates_of_restructure {v : Json} (hd : v.hasDistinctNames = true)
    (h : (o.restructure v).outcome = .error (.violation cause place)) : Locates v cause place := by
  induction v using Json.induction generalizing place with
  | h v ih =>
    cases v with
    | obj ms =>
      rcases fault_of_obj h with ⟨before, t, c, after, e, hsplit, -, he, hplace⟩ | ⟨-, ms', hslots, hown⟩
      · have hmem : (t, c) ∈ Members.located ms := hsplit ▸ List.mem_append_right _ List.mem_cons_self
        have hchild := Members.mem_children_of_located hmem
        cases e with
        | misfit e => cases hplace
        | violation cause' place' =>
          cases hplace
          exact (ih c hchild (Json.hasDistinctNames_child hd hchild) he).inside (Members.find?_of_located hd hmem)
      · obtain ⟨m, hm, hblames⟩ := blames_restructureMembers hown
        exact locates_of_blames hd (restructureSlots_eq_ok hslots) hm hblames
    | _ => cases h

/-- A property of an object stands where the object states it. -/
theorem exists_find?_property {w : Json} (hn : Node.decode w = .ok n) (name : String) :
    (∃ x, w.find? [Keyword.properties.name, name] = some x) ↔ name ∈ Members.names n.properties := by
  obtain ⟨ms, rfl⟩ := exists_obj_of_decode hn
  have hread : Keyword.properties.readField (Members.get? ms Keyword.properties.name) = .ok n.properties :=
    (decode_eq_ok.1 hn).1 .properties
  rw [Json.find?, Json.step?]
  rcases readMap_eq_ok.1 hread with ⟨hv | hv, hnil⟩ | ⟨properties, hv, hr⟩
  · rw [hv, hnil]
    exact iff_of_false (not_exists.2 fun _ => (Option.some_ne_none _).symm) List.not_mem_nil
  · rw [hv, hnil]
    exact iff_of_false (not_exists.2 fun _ => (Option.some_ne_none _).symm) List.not_mem_nil
  · have hfind : (Json.obj properties).find? [name] = Members.get? properties name := Option.bind_fun_some _
    rw [hv, Option.bind_some, hfind, hr.names, ← Members.has_iff_mem_names, Members.has, Option.isSome_iff_exists]

/-- Where the violations of a document stand: at a value of the document, or at a property of a schema object in it that
declares the property. That property is a value of the document exactly if the schema object has it and not only its
variants do. -/
theorem restructure_blames (o : Options) {v : Json} (hd : v.hasDistinctNames = true)
    (h : (o.restructure v).outcome = .error (.violation cause place)) :
    (cause.property? = none → ∃ w, v.follow? place.render = some w) ∧
      ∀ name, cause.property? = some name → ∃ p w n, place = p ++ [Keyword.properties.name, name] ∧
        v.follow? p.render = some w ∧ Node.decode w = .ok n ∧ n.Declares name ∧
        ((∃ x, v.follow? place.render = some x) ↔ name ∈ Members.names n.properties) := by
  simp only [Json.follow?_render]
  obtain ⟨hplace, hproperty⟩ := locates_of_restructure hd h
  refine ⟨hplace, fun name hname => ?_⟩
  obtain ⟨p, w, n, rfl, hw, hn, hdeclares⟩ := hproperty name hname
  refine ⟨p, w, n, rfl, hw, hn, hdeclares, ?_⟩
  rw [Json.find?_append, hw, Option.bind_some]
  exact exists_find?_property hn name

/-- A property that a variant declares differently stands where the variant states it. -/
theorem blames_stated_property :
    let v : Json := .obj
      [("properties", .obj [("a", .obj [("type", .str "integer")])]),
        ("anyOf", .arr [.obj [("properties", .obj [("a", .obj [("type", .str "string")])])]])]
    let cause : Violation :=
      .propertyConflict "a" (.obj [("type", .str "integer")]) (.obj [("type", .str "string")])
    let place : Pointer := ["anyOf", "0", "properties", "a"]
    (Options.restructure {} v).outcome = .error (.violation cause place) ∧
      ∃ p w n, place = p ++ [Keyword.properties.name, "a"] ∧ v.follow? p.render = some w ∧
        Node.decode w = .ok n ∧ n.Declares "a" ∧
        ((∃ x, v.follow? place.render = some x) ↔ "a" ∈ Members.names n.properties) := by
  intro v cause place
  have hv : (Options.restructure {} v).outcome = .error (.violation cause place) := rfl
  exact ⟨hv, (restructure_blames {} rfl hv).2 "a" rfl⟩

/-- A property that a variant took over from its own variants stands nowhere. -/
theorem restructure_blames_nothing :
    ¬ ∀ (o : Options) (v : Json) (cause : Violation) (place : Pointer), v.hasDistinctNames = true →
      (o.restructure v).outcome = .error (.violation cause place) → ∃ w, v.follow? place.render = some w := by
  intro h
  let v : Json := .obj
    [("properties", .obj [("a", .obj [("type", .str "integer")])]),
      ("anyOf", .arr [.obj [("anyOf", .arr [.obj [("properties", .obj [("a", .obj [("type", .str "string")])])]])]])]
  let cause : Violation :=
    .propertyConflict "a" (.obj [("type", .str "integer")]) (.obj [("type", .str "string")])
  let place : Pointer := ["anyOf", "0", "properties", "a"]
  have hv : (Options.restructure {} v).outcome = .error (.violation cause place) := rfl
  have hnone : v.find? place = none := rfl
  obtain ⟨w, hw⟩ := h {} v cause place rfl hv
  rw [Json.follow?_render, hnone] at hw
  cases hw

end Options

end KubeSchema
