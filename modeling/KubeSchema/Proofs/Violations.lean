import KubeSchema.Proofs.Restructuring

/-!
# Failures are violations

A restructuring fails by the violation of a rule of unions only: on the way, nothing has to be written that cannot be,
and nothing is read that does not read. If the keyword for unknown fields is a vendor's, what settling makes of a schema
object can be written and read back (`exists_readable`), so that no result is discarded either, whether the run fails or
not. Both are shown together (`Run.Safe`).

* `safe_settle`: the restructuring of a regular schema object.
* `safe_restructureAt`: the restructuring of a document.
* `restructureAt_safe`: a run gives a result or fails by a violation, and discards nothing.
-/

namespace KubeSchema

namespace Run

variable {α β : Type} {d : Prop}

/-- If a computation fails, then by a violation. -/
def OnlyViolates (x : Run α) : Prop := ∀ e, x.outcome = .error e → ∃ cause path, e = .violation cause path

/-- A computation fails by a violation only, and reports that it discarded a result only if `d`. -/
structure Safe (d : Prop) (x : Run α) : Prop where
  violates : OnlyViolates x
  discards : ∀ cause place, .resultDiscarded cause place ∈ x.log → d

theorem safe_pure (a : α) : Safe d (pure a : Run α) := ⟨nofun, nofun⟩

theorem safe_violate (cause : Violation) (path : Pointer) : Safe d (violate cause path : Run α) := by
  refine ⟨?_, nofun⟩
  rintro e ⟨⟩
  exact ⟨cause, path, rfl⟩

/-- Of all events, only that a result was discarded is a warning. -/
theorem safe_report {event : Event} (h : event.level = .debug) : Safe d (Traced.report event : Run Unit) := by
  refine ⟨nofun, fun cause place hmem => ?_⟩
  cases List.mem_singleton.1 hmem
  cases h

theorem safe_report_of (h : d) (event : Event) : Safe d (Traced.report event : Run Unit) := ⟨nofun, fun _ _ _ => h⟩

theorem safe_encoded {x : Except EncodeError α} {a : α} (h : x = .ok a) : Safe d (encoded x) := by
  subst h
  exact ⟨nofun, nofun⟩

theorem safe_decoded {x : Except DecodeError α} {a : α} (h : x = .ok a) : Safe d (decoded x) := by
  subst h
  exact ⟨nofun, nofun⟩

theorem Safe.bind {x : Run α} {f : α → Run β} (hx : Safe d x) (hf : ∀ a, x.outcome = .ok a → Safe d (f a)) :
    Safe d (x >>= f) := by
  constructor
  · intro e he
    rw [Traced.outcome_bind] at he
    cases h : x.outcome with
    | error e' =>
      rw [h] at he
      cases he
      exact hx.violates _ h
    | ok a =>
      rw [h] at he
      exact (hf a h).violates e he
  · intro cause place h
    rcases Traced.mem_log_bind.1 h with h | ⟨a, ha, h⟩
    · exact hx.discards cause place h
    · exact (hf a ha).discards cause place h

theorem Safe.map {x : Run α} (hx : Safe d x) (f : α → β) : Safe d (f <$> x) := by
  rw [← bind_pure_comp]
  exact hx.bind (fun a _ => safe_pure (f a))

end Run

/-! ## Unions of enums -/

namespace Node

open Run

variable {d : Prop} {path : Pointer} {n v : ObjectSchema}

theorem exists_encode_node (hn : (Schema.object n).Regular) :
    ∃ ms, n.encode = .ok ms ∧ n.toJson = .ok (.obj ms) ∧ Node.decode (.obj ms) = .ok n := by
  obtain ⟨x, hx, hd, -⟩ := exists_encode hn
  obtain ⟨ms, hms, rfl⟩ := map_eq_ok.1 hx
  exact ⟨ms, hms, hx, Schema.decode_object hd⟩

/-- A schema object with a type is written with it. -/
theorem get?_type_of_encode {ms : Members Json} {t : OneOrMany PrimitiveType} (h : n.encode = .ok ms)
    (ht : n.types = some t) : Members.get? ms Keyword.type.name = some (encodeTypes t) := by
  obtain ⟨vals, hw, rfl, -⟩ := encode_eq_ok.1 h
  have htype : Keyword.type.writeField (n.field .type) = .ok (some (encodeTypes t)) := by
    show Except.ok (n.types.map encodeTypes) = _
    rw [ht]
    rfl
  exact get?_written (Except.ok.inj ((hw .type).symm.trans htype)) _

theorem safe_writtenType {t : OneOrMany PrimitiveType} (hn : (Schema.object n).Regular)
    (ht : n.types = some t) : Safe d (writtenType n) := by
  obtain ⟨ms, hms, -⟩ := exists_encode_node hn
  refine (safe_encoded hms).bind fun ms' hms' => ?_
  cases hms.symm.trans (encoded_eq_ok.1 hms')
  rw [get?_type_of_encode hms ht]
  exact safe_pure _

theorem safe_typedVariants {index : Nat} {vs : List Schema} (hvs : ∀ s ∈ vs, s.Regular) :
    Safe d (typedVariants path index vs) := by
  induction vs generalizing index with
  | nil => exact safe_pure _
  | cons s vs ih =>
    obtain ⟨hs, hrest⟩ := List.forall_mem_cons.1 hvs
    cases s with
    | bool b => exact safe_violate _ _
    | object v =>
      rw [typedVariants]
      split
      · obtain ⟨ms, -, hjson, -⟩ := exists_encode_node hs
        exact (safe_encoded hjson).bind (fun _ _ => safe_violate _ _)
      · exact (ih hrest).bind (fun _ _ => safe_pure _)

theorem safe_checkTypes {first : OneOrMany PrimitiveType × ObjectSchema} {index : Nat}
    {l : List (OneOrMany PrimitiveType × ObjectSchema)}
    (hfirst : (Schema.object first.2).Regular ∧ first.2.types = some first.1)
    (hl : ∀ p ∈ l, (Schema.object p.2).Regular ∧ p.2.types = some p.1) :
    Safe d (checkTypes path first index l) := by
  induction l generalizing index with
  | nil => exact safe_pure _
  | cons p l ih =>
    obtain ⟨hp, hl⟩ := List.forall_mem_cons.1 hl
    rw [checkTypes]
    split
    · exact ih hl
    · exact (safe_writtenType hp.1 hp.2).bind fun _ _ =>
        (safe_writtenType hfirst.1 hfirst.2).bind fun _ _ => safe_violate _ _

theorem safe_collectValues {index : Nat} {l : List (OneOrMany PrimitiveType × ObjectSchema)}
    (hl : ∀ p ∈ l, (Schema.object p.2).Regular) : Safe d (collectValues path index l) := by
  induction l generalizing index with
  | nil => exact safe_pure _
  | cons p l ih =>
    obtain ⟨hp, hl⟩ := List.forall_mem_cons.1 hl
    rw [collectValues]
    split
    · exact (ih hl).bind (fun _ _ => safe_pure _)
    · obtain ⟨ms, -, hjson, -⟩ := exists_encode_node hp
      exact (safe_encoded hjson).bind (fun _ _ => safe_violate _ _)

theorem safe_hoistEnumVariants (hn : ∀ s ∈ n.oneOf.getD [], s.Regular) :
    Safe d (hoistEnumVariants path n) := by
  unfold hoistEnumVariants
  split
  · exact safe_pure _
  · next variant variants hv =>
    rw [hv] at hn
    split
    · exact safe_pure _
    · refine (safe_typedVariants hn).bind fun l hl => ?_
      obtain ⟨hvs, htypes⟩ := typedVariants_eq_ok hl
      have hreg : ∀ p ∈ l, (Schema.object p.2).Regular ∧ p.2.types = some p.1 := fun p hp =>
        ⟨hn _ (hvs ▸ List.mem_map_of_mem hp), htypes p hp⟩
      cases l with
      | nil => exact safe_pure _
      | cons first l =>
        obtain ⟨hfirst, hl⟩ := List.forall_mem_cons.1 hreg
        exact (safe_checkTypes hfirst hl).bind fun _ _ =>
          (safe_collectValues fun p hp => (hreg p hp).1).bind fun _ _ =>
            (safe_report rfl).bind fun _ _ => safe_pure _

/-! ## Enums among other variants -/

theorem safe_agreedType {values : List Json} (hn : (Schema.object n).Regular)
    (hv : (Schema.object v).Regular) : Safe d (agreedType path values n v) := by
  unfold agreedType
  split
  · next hp ht =>
    split
    · exact safe_pure _
    · exact (safe_writtenType hv ht).bind fun _ _ =>
        (safe_writtenType hn hp).bind fun _ _ => safe_violate _ _
  · exact safe_pure _
  · exact safe_pure _

theorem regular_with_values {types : Option (OneOrMany PrimitiveType)} {values : List Json}
    (hn : (Schema.object n).Regular) (hv : v.Regular) (he : v.enum = some values) :
    (Schema.object { n with types, enum := some (n.enum.getD [] ++ values) }).Regular := by
  have hfits : Keyword.enum.Fits (some (n.enum.getD [] ++ values)) := by
    have h : Keyword.enum.Fits (takenValues n.enum [v]) := fits_takenValues (hn.here.fits .enum) (by simpa using hv)
    simpa [takenValues, he] using h
  refine .object (hn.here.of_fields rfl rfl fun k => ?_) fun c hc => hn.child c ?_
  · cases k
    case enum => exact .inr hfits
    case type => exact .inr trivial
    all_goals exact .inl rfl
  · obtain ⟨k, hk⟩ := mem_children.1 hc
    refine mem_children.2 ⟨k, ?_⟩
    cases k <;> exact hk

theorem safe_takeEnums {index : Nat} {vs : List Schema} (hn : (Schema.object n).Regular)
    (hvs : ∀ s ∈ vs, s.Regular) : Safe d (takeEnums path index n vs) := by
  induction vs generalizing index n with
  | nil => exact safe_pure _
  | cons s vs ih =>
    obtain ⟨hs, hrest⟩ := List.forall_mem_cons.1 hvs
    cases s with
    | bool b =>
      rw [takeEnums]
      exact (ih hn hrest).bind (fun _ _ => safe_pure _)
    | object v =>
      rw [takeEnums]
      split
      · next values he =>
        exact (safe_agreedType hn hs).bind fun types _ => ih (regular_with_values hn hs.here he) hrest
      · exact (ih hn hrest).bind (fun _ _ => safe_pure _)

theorem safe_hoistEnumValues (hn : (Schema.object n).Regular) : Safe d (hoistEnumValues path n) := by
  unfold hoistEnumValues
  dsimp only
  split
  · exact (safe_takeEnums hn fun s hs => hn.child s (mem_children.2 ⟨.oneOf, hs⟩)).bind
      (fun _ _ => safe_pure _)
  · exact safe_pure _

/-! ## Properties -/

theorem regular_describedTag {description : Option String} {s : Schema} (h : s.Regular) :
    (describedTag description s).Regular :=
  everywhere_describedTag
    (fun n _ hn => hn.of_fields rfl rfl (fun k => by cases k <;> first | exact .inl rfl | exact .inr trivial)) h

theorem safe_describeTag {description : Option String} {name : String} {s : Schema} :
    Safe d (describeTag path description name s) := by
  unfold describeTag
  split
  · exact safe_pure _
  · exact (safe_report rfl).bind (fun _ _ => safe_pure _)
  · split
    · exact (safe_report rfl).bind (fun _ _ => safe_pure _)
    · exact safe_pure _

theorem safe_handedProperties {u : Union} : Safe d (handedProperties u path v) := by
  unfold handedProperties
  split
  · exact safe_pure _
  · exact safe_pure _
  · exact safe_describeTag.bind (fun _ _ => safe_pure _)
  · exact safe_violate _ _

theorem safe_mergeProperty {l : List (String × Schema)} {p : String × Schema}
    (hl : ∀ q ∈ l, q.2.Regular) (hp : p.2.Regular) : Safe d (mergeProperty path l p) := by
  unfold mergeProperty
  split
  · exact safe_pure _
  · next declared hg =>
    obtain ⟨x, hx, -⟩ := exists_encode (hl _ (Members.mem_of_get? hg))
    obtain ⟨y, hy, -⟩ := exists_encode hp
    refine (safe_encoded hx).bind fun _ _ => (safe_encoded hy).bind fun _ _ => ?_
    split
    · exact safe_pure _
    · exact safe_violate _ _

theorem safe_mergeProperties {l handed : List (String × Schema)} (hl : ∀ q ∈ l, q.2.Regular)
    (hh : ∀ q ∈ handed, q.2.Regular) : Safe d (handed.foldlM (mergeProperty path) l) := by
  induction handed generalizing l with
  | nil => exact safe_pure _
  | cons p handed ih =>
    obtain ⟨hp, hh⟩ := List.forall_mem_cons.1 hh
    rw [List.foldlM_cons]
    refine (safe_mergeProperty hl hp).bind fun l' hl' => ih (fun q hq => ?_) hh
    rw [mergeProperty_eq_ok hl'] at hq
    have hq : q ∈ [p].foldl addProperty l := hq
    rcases mem_foldl_addProperty hq with hq | hq
    · exact hl q hq
    · cases List.mem_singleton.1 hq
      exact hp

theorem regular_handed {u : Union} (hv : (Schema.object v).Regular) : ∀ q ∈ handed u v, q.2.Regular := by
  have hp : ∀ q ∈ v.properties, q.2.Regular := fun q hq =>
    hv.child _ (mem_children.2 ⟨.properties, List.mem_map_of_mem hq⟩)
  intro q hq
  cases u with
  | oneOf =>
    obtain ⟨p, hmem, rfl⟩ := List.mem_map.1 hq
    exact regular_describedTag (hp p hmem)
  | anyOf => exact hp q hq

theorem safe_hoistVariants {u : Union} {index : Nat} {vs : List Schema}
    (hn : ∀ q ∈ n.properties, q.2.Regular) (hvs : ∀ s ∈ vs, s.Regular) :
    Safe d (hoistVariants u path index n vs) := by
  induction vs generalizing index n with
  | nil => exact safe_pure _
  | cons s vs ih =>
    obtain ⟨hs, hrest⟩ := List.forall_mem_cons.1 hvs
    cases s with
    | bool b => exact safe_violate _ _
    | object v =>
      rw [hoistVariants]
      split
      · refine safe_handedProperties.bind fun l hl => ?_
        have hreg : ∀ q ∈ l, q.2.Regular := (handedProperties_eq_ok hl).1 ▸ regular_handed hs
        refine (safe_mergeProperties hn hreg).bind fun l' hl' => ?_
        refine Safe.bind (ih (fun q hq => ?_) hrest) (fun _ _ => safe_pure _)
        rw [mergeProperties_eq_ok hl'] at hq
        exact (mem_foldl_addProperty hq).elim (hn q) (hreg q)
      · split
        · exact (ih hn hrest).bind (fun _ _ => safe_pure _)
        · exact (ih hn hrest).bind (fun _ _ => safe_pure _)

theorem safe_hoistProperties {u : Union} (hn : (Schema.object n).Regular) :
    Safe d (hoistProperties u path n) := by
  unfold hoistProperties
  split
  · exact safe_violate _ _
  · have hvariants : ∀ s ∈ (n.variants u).getD [], s.Regular := by
      intro s hs
      refine hn.child s (mem_children.2 ⟨u.keyword, ?_⟩)
      cases u <;> exact hs
    refine (safe_hoistVariants (fun q hq => ?_) hvariants).bind fun r _ => ?_
    · exact hn.child _ (mem_children.2 ⟨.properties, List.mem_map_of_mem hq⟩)
    · split
      · exact (safe_report rfl).bind (fun _ _ => safe_pure _)
      · exact safe_pure _

/-! ## Optionals -/

theorem safe_foldlM_mergeKeyword {ms l : Members Json} : Safe d (l.foldlM (mergeKeyword path) ms) := by
  induction l generalizing ms with
  | nil => exact safe_pure _
  | cons m l ih =>
    rw [List.foldlM_cons]
    refine Safe.bind ?_ (fun _ _ => ih)
    unfold mergeKeyword
    split
    · split
      · exact safe_pure _
      · exact safe_violate _ _
    · exact safe_pure _

theorem safe_mergeKeywords {e : ObjectSchema} {ms : Members Json} (hn : (Schema.object n).Regular)
    (he : (Schema.object e).Regular) (hms : e.encode = .ok ms) :
    Safe d (mergeKeywords path n (Members.eraseAll ms replacedKeywords)) := by
  obtain ⟨own, hown, -⟩ := exists_encode_node hn
  refine (safe_encoded hown).bind fun own' hown' => safe_foldlM_mergeKeyword.bind fun merged hm => ?_
  cases hown.symm.trans (encoded_eq_ok.1 hown')
  rw [(foldlM_mergeKeyword_eq_ok ((distinct_of_encode hms).eraseAll _) hm).1]
  obtain ⟨m, hdec, -⟩ := exists_decode _ (readField_merged hn he hown hms)
  exact safe_decoded hdec

theorem safe_hoistEntry {index : Nat} {entry : Schema} (hn : (Schema.object n).Regular)
    (hentry : entry.Regular) : Safe d (hoistEntry path n index entry) := by
  cases entry with
  | bool b => exact safe_violate _ _
  | object e =>
    obtain ⟨ms, hms, -⟩ := exists_encode_node hentry
    unfold hoistEntry
    refine (safe_encoded hms).bind fun ms' hms' => ?_
    cases hms.symm.trans (encoded_eq_ok.1 hms')
    dsimp only
    split
    · exact (safe_report rfl).bind (fun _ _ => safe_pure _)
    · exact (safe_mergeKeywords (regular_without_anyOf hn) hentry hms).bind fun _ _ =>
        (safe_report rfl).bind fun _ _ => safe_pure _

theorem safe_hoistOptional (hn : (Schema.object n).Regular) : Safe d (hoistOptional path n) := by
  unfold hoistOptional
  split
  · next a b hab =>
    have hentries : ∀ s ∈ [a, b], s.Regular := fun s hs =>
      hn.child s (mem_children.2 ⟨.anyOf, by simpa [Keyword.children, field, hab] using hs⟩)
    obtain ⟨x, hx⟩ := exists_isNullEntry (hentries a (by simp))
    obtain ⟨y, hy⟩ := exists_isNullEntry (hentries b (by simp))
    refine (safe_encoded hx).bind fun p _ => (safe_encoded hy).bind fun q _ => ?_
    cases p <;> cases q
    · exact safe_pure _
    · exact (safe_hoistEntry hn (hentries a (by simp))).map _
    · exact (safe_hoistEntry hn (hentries b (by simp))).map _
    · exact safe_violate _ _
  · exact safe_pure _

end Node

/-! ## Schema objects -/

namespace Options

open Node Run

variable {d : Prop} {o : Options} {path : Pointer} {n m : ObjectSchema}

theorem regular_of_children {m : ObjectSchema} (hm : m.Regular)
    (hc : ∀ (k : Keyword), ∀ c ∈ k.children (m.field k), c.Regular) : (Schema.object m).Regular :=
  .object hm fun c h => by
    obtain ⟨k, hk⟩ := mem_children.1 h
    exact hc k c hk

theorem regular_hoisted {v : Union} {ws : List ObjectSchema} (hn : (Schema.object n).Regular)
    (hws : (n.variants v).getD [] = ws.map .object) : (Schema.object (n.hoisted v ws)).Regular := by
  have hw {w : ObjectSchema} (hw : w ∈ ws) : (Schema.object w).Regular :=
    hn.child _ (unionVariants_subset_children (mem_unionVariants hws hw))
  refine regular_of_children hn.here.hoisted fun k c hc => ?_
  rcases mem_children_hoisted hws hc with ⟨-, hc⟩ | ⟨-, w, h, rfl⟩ | ⟨-, w, h, q, hq, description, rfl⟩
  · exact hn.child c (mem_children.2 ⟨k, hc⟩)
  · exact everywhere_hoistedVariant (hw h).here.hoistedVariant (hw h)
  · exact regular_describedTag ((hw h).child _ (mem_children.2 ⟨.properties, List.mem_map_of_mem hq⟩))

theorem regular_takenEnums (hn : (Schema.object n).Regular) : (Schema.object n.takenEnums).Regular :=
  regular_of_children (hn.here.takenEnums fun _ hw => (hn.child _ (mem_children.2 ⟨.oneOf, hw⟩)).here)
    fun k c hc => hn.child c (mem_children.2 ⟨k, mem_children_takenEnums hc⟩)

theorem regular_dropEmptyOneOf (hn : (Schema.object n).Regular) : (Schema.object n.dropEmptyOneOf).Regular :=
  regular_of_children hn.here.dropEmptyOneOf fun k c hc =>
    hn.child c (mem_children.2 ⟨k, mem_children_dropEmptyOneOf hc⟩)

theorem safe_hoistUnions (hn : (Schema.object n).Regular) : Safe d (hoistUnions path n) := by
  refine (safe_hoistProperties hn).bind fun r₁ h₁ => ?_
  obtain ⟨ws, hws, hr₁, -⟩ := hoistProperties_eq_ok h₁
  rw [hr₁]
  have hreg := regular_hoisted hn hws
  refine (safe_hoistEnumValues hreg).bind fun r₂ h₂ => ?_
  rw [hoistEnumValues_eq_ok h₂]
  exact (safe_hoistProperties (regular_dropEmptyOneOf (regular_takenEnums hreg))).bind (fun _ _ => safe_pure _)

theorem regular_everywhere_cleanEnum (hn : (Schema.object n).Regular) : (Schema.object (o.cleanEnum n)).Regular :=
  regular_of_children (regular_cleanEnum hn.here) fun k c hc =>
    hn.child c (mem_children.2 ⟨k, mem_children_cleanEnum hc⟩)

theorem regular_enumerated {t : OneOrMany PrimitiveType} {ws : List ObjectSchema} (hn : (Schema.object n).Regular)
    (hws : n.oneOf.getD [] = ws.map .object) : (Schema.object (n.enumerated t ws)).Regular := by
  refine regular_of_children (hn.here.enumerated fun w hw => ?_) fun k c hc => hn.child c (mem_children.2 ⟨k, ?_⟩)
  · exact (hn.child _ (unionVariants_subset_children (mem_unionVariants (v := .oneOf) hws hw))).here
  · cases k <;> first | exact hc | cases hc

theorem safe_settleUnions (hn : (Schema.object n).Regular) : Safe d (o.settleUnions path n) := by
  have hone : ∀ s ∈ n.oneOf.getD [], s.Regular := fun s hs => hn.child s (mem_children.2 ⟨.oneOf, hs⟩)
  refine (safe_hoistEnumVariants hone).bind fun r hr => ?_
  have hreg : (Schema.object (r.getD n)).Regular := by
    rcases hoistEnumVariants_eq_ok hr with ⟨rfl, -⟩ | ⟨t, ws, hws, -, -, rfl⟩
    · exact hn
    · exact regular_enumerated hn hws
  refine (safe_hoistOptional hreg).bind fun opt _ => ?_
  rcases opt with _ | ⟨m, carried⟩
  · exact safe_hoistUnions (regular_everywhere_cleanEnum hreg)
  · exact safe_pure _

/-- If the restructuring of a regular schema object fails, then by a violation. -/
theorem safe_settle (hn : (Schema.object n).Regular) : Safe d (o.settle path n) := by
  unfold settle
  split
  · exact safe_violate _ _
  · exact (safe_settleUnions hn).bind (fun _ _ => safe_pure _)

/-- What settling makes of a regular schema object can be written and read back. -/
theorem exists_readable (hkey : isVendor o.preserveKey = true) (hn : (Schema.object n).Regular)
    (h : (o.settle path n).outcome = .ok m) : ∃ ms, readable m = .ok ms := by
  obtain ⟨ms, hms, -, hdec⟩ := exists_encode_node (regular_of_settle hkey hn h)
  exact ⟨ms, readable_eq_ok.2 ⟨hms, m, hdec⟩⟩

theorem safe_restructureMembers {ms : Members Json} (hkey : isVendor o.preserveKey ≠ true → d)
    (hd : (Json.obj ms).hasDistinctNames = true) : Safe d (o.restructureMembers path ms) := by
  unfold restructureMembers
  split
  · exact (safe_report rfl).bind (fun _ _ => safe_pure _)
  · next n hn =>
    have hreg := regular_of_decode hd hn
    refine (safe_settle hreg).bind fun m hm => ?_
    split
    · exact safe_pure _
    · next e he =>
      have hd : d := hkey fun hvendor => by
        obtain ⟨ms', hms'⟩ := exists_readable hvendor hreg hm
        cases he.symm.trans hms'
      exact (safe_report_of hd _).bind (fun _ _ => safe_pure _)

/-! ## Documents -/

theorem safe_restructureItems {index : Nat} {xs : List Json}
    (h : ∀ x ∈ xs, ∀ path, Safe d (o.restructureAt path x)) :
    Safe d (o.restructureItems path index xs) := by
  induction xs generalizing index with
  | nil => exact safe_pure _
  | cons x xs ih =>
    obtain ⟨hx, hxs⟩ := List.forall_mem_cons.1 h
    exact (hx _).bind fun _ _ => (ih hxs).bind fun _ _ => safe_pure _

theorem safe_restructureEntries {ms : Members Json}
    (h : ∀ x ∈ ms.map Prod.snd, ∀ path, Safe d (o.restructureAt path x)) :
    Safe d (o.restructureEntries path ms) := by
  induction ms with
  | nil => exact safe_pure _
  | cons m ms ih =>
    obtain ⟨hm, hms⟩ := List.forall_mem_cons.1 h
    exact (hm _).bind fun _ _ => (ih hms).bind fun _ _ => safe_pure _

theorem safe_restructureSlot {keyword : String} {v : Json}
    (h : ∀ c ∈ Slot.values (Slot.ofKeyword? keyword) v, ∀ path, Safe d (o.restructureAt path c)) :
    Safe d (o.restructureSlot path keyword v) := by
  unfold restructureSlot
  split
  · next hs =>
    rw [hs] at h
    exact h _ (List.mem_singleton.2 rfl) _
  · next hs =>
    rw [hs] at h
    exact (safe_restructureItems h).map _
  · next hs =>
    rw [hs] at h
    exact (safe_restructureEntries h).map _
  · next hs =>
    rw [hs] at h
    exact (safe_restructureItems h).map _
  · next hs hv =>
    rw [hs, Slot.values_schemaOrList hv] at h
    exact h _ (List.mem_singleton.2 rfl) _
  · exact safe_pure _

theorem safe_restructureSlots {ms : Members Json}
    (h : ∀ c ∈ Members.children ms, ∀ path, Safe d (o.restructureAt path c)) :
    Safe d (o.restructureSlots path ms) := by
  induction ms with
  | nil => exact safe_pure _
  | cons m ms ih =>
    obtain ⟨keyword, v⟩ := m
    rw [restructureSlots_cons]
    refine (safe_restructureSlot fun c hc => h c (List.mem_append_left _ hc)).bind fun _ _ => ?_
    exact (ih fun c hc => h c (List.mem_append_right _ hc)).bind fun _ _ => safe_pure _

theorem safe_restructureAt {v : Json} (hkey : isVendor o.preserveKey ≠ true → d) (hd : v.hasDistinctNames = true)
    (path : Pointer) : Safe d (o.restructureAt path v) := by
  induction v using Json.induction generalizing path with
  | h v ih =>
    cases v with
    | obj ms =>
      rw [restructureAt]
      refine (safe_restructureSlots fun c hc => ih c hc (Json.hasDistinctNames_child hd hc)).bind fun ms' hms' => ?_
      have hd' := (restructureSlots_eq_ok hms').hasDistinctNames hd (fun _ _ h => h.hasDistinctNames)
      exact (safe_restructureMembers hkey hd').bind (fun _ _ => safe_pure _)
    | _ => exact safe_pure _

/-- If the restructuring of a document fails, then by a violation. -/
theorem onlyViolates_restructureAt {v : Json} (hd : v.hasDistinctNames = true) (path : Pointer) :
    OnlyViolates (o.restructureAt path v) :=
  (safe_restructureAt (d := True) (fun _ => trivial) hd path).violates

/-- A restructuring gives a result or fails by a violation, whatever the keyword for unknown fields; if that is a
vendor's, no result for a schema object is discarded on the way. -/
theorem restructureAt_safe (o : Options) (path : Pointer) {v : Json} (hd : v.hasDistinctNames = true) :
    ((∃ r, (o.restructureAt path v).outcome = .ok r) ∨
      ∃ cause place, (o.restructureAt path v).outcome = .error (.violation cause place)) ∧
    (isVendor o.preserveKey = true → ∀ cause place, .resultDiscarded cause place ∉ (o.restructureAt path v).log) := by
  refine ⟨?_, fun hkey cause place hmem => (safe_restructureAt id hd path).discards cause place hmem hkey⟩
  cases h : (o.restructureAt path v).outcome with
  | ok r => exact .inl ⟨r, rfl⟩
  | error e =>
    obtain ⟨cause, place, rfl⟩ := onlyViolates_restructureAt hd path e h
    exact .inr ⟨cause, place, rfl⟩

/-- The entry of the optional is an open map with properties: its keywords are written into the parent and read back. -/
theorem optional_map_safe :
    let v : Json := .obj [("anyOf", .arr [
      .obj [("properties", .obj [("name", .obj [("type", .str "string")])]), ("additionalProperties", .bool true)],
      nullEntry])]
    v.hasDistinctNames = true ∧ isVendor (Options.preserveKey {}) = true ∧
      ((∃ r, (Options.restructureAt {} ["spec"] v).outcome = .ok r) ∨
        ∃ cause place, (Options.restructureAt {} ["spec"] v).outcome = .error (.violation cause place)) ∧
      ∀ cause place, .resultDiscarded cause place ∉ (Options.restructureAt {} ["spec"] v).log :=
  ⟨rfl, by decide, (restructureAt_safe {} ["spec"] rfl).imp_right fun h => h (by decide)⟩

/-- Under another keyword, what is written need not read as a schema. -/
example :
    (Options.restructureAt { preserveKey := "type" } []
      (.obj [("properties", .obj [("name", .bool true)]), ("additionalProperties", .bool true)])).log =
      [.resultDiscarded (.decode (.misshapen .type .textOrList (.bool true))) []] := by
  decide

end Options

end KubeSchema
