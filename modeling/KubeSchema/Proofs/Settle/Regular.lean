import KubeSchema.Proofs.Settle.Children

/-!
# Regular schemas stay regular

Settling keeps schema objects regular, if the vendor keyword for unknown fields is one (`regular_of_settle`).
-/

namespace KubeSchema

namespace Node

variable {n e w : ObjectSchema} {ws : List ObjectSchema} {v : Union}

/-! ## Enums -/

theorem fits_listedValues (hw : w.Regular) : Keyword.enum.Fits (listedValues? w) := by
  intro l hl x hx
  unfold listedValues? at hl
  split at hl
  · next values hv =>
    cases hl
    exact hw.fits .enum l hv x hx
  · cases hc : Members.get? w.other "const" with
    | none => simp [hc] at hl
    | some value =>
      simp only [hc, Option.map_some, Option.mem_some_iff] at hl
      subst hl
      cases List.mem_singleton.1 hx
      exact hw.values _ (List.mem_append_right _ (Members.mem_of_get? hc))

theorem Regular.enumerated {t : OneOrMany PrimitiveType} (hn : n.Regular) (hws : ∀ w ∈ ws, w.Regular) :
    (n.enumerated t ws).Regular := by
  refine hn.of_fields rfl rfl fun k => ?_
  cases k
  case enum =>
    right
    rintro l hl x hx
    cases hl
    rcases List.mem_append.1 hx with hx | hx
    · cases he : n.enum with
      | none => simp [he] at hx
      | some values => exact hn.fits .enum values he x (by simpa [he] using hx)
    · obtain ⟨w, hw, hx⟩ := List.mem_flatMap.1 hx
      cases hl : listedValues? w with
      | none => simp [hl] at hx
      | some values => exact fits_listedValues (hws w hw) values hl x (by simpa [hl] using hx)
  case type | oneOf => exact .inr trivial
  all_goals exact .inl rfl

theorem fits_takenValues {enum : Option (List Json)} (he : Keyword.enum.Fits enum) (hws : ∀ w ∈ ws, w.Regular) :
    Keyword.enum.Fits (takenValues enum ws) := by
  induction ws generalizing enum with
  | nil => exact he
  | cons w ws ih =>
    obtain ⟨hw, hws⟩ := List.forall_mem_cons.1 hws
    refine ih ?_ hws
    rintro l hl x hx
    cases hl
    rcases List.mem_append.1 hx with hx | hx
    · cases hn : enum with
      | none => simp [hn] at hx
      | some values => exact he values hn x (by simpa [hn] using hx)
    · cases hn : w.enum with
      | none => simp [hn] at hx
      | some values => exact hw.fits .enum values hn x (by simpa [hn] using hx)

theorem mem_enumVariants {vs : List Schema} (h : w ∈ enumVariants vs) : .object w ∈ vs := by
  obtain ⟨s, hs, h⟩ := List.mem_filterMap.1 h
  cases s with
  | bool b => cases h
  | object v =>
    dsimp only at h
    split at h <;> cases h
    exact hs

theorem Regular.takenEnums (hn : n.Regular) (hws : ∀ w, .object w ∈ n.oneOf.getD [] → w.Regular) :
    n.takenEnums.Regular := by
  refine hn.of_fields rfl rfl fun k => ?_
  cases k
  case enum => exact .inr (fits_takenValues (hn.fits .enum) (fun w hw => hws w (mem_enumVariants hw)))
  case type | oneOf => exact .inr trivial
  all_goals exact .inl rfl

/-! ## Properties -/

theorem Regular.hoisted (hn : n.Regular) : (n.hoisted v ws).Regular := by
  have hp : Members.Distinct (received v n.properties ws) := distinct_foldl_addProperty (hn.fits .properties) _
  cases v <;> refine hn.of_fields rfl rfl fun k => ?_ <;> cases k <;>
    first
      | exact .inr hp
      | exact .inl rfl
      | exact .inr trivial

theorem Regular.dropEmptyOneOf (hn : n.Regular) : n.dropEmptyOneOf.Regular := by
  obtain ⟨l, hl, -⟩ := dropEmptyOneOf_eq n
  rw [hl]
  refine hn.of_fields rfl rfl fun k => ?_
  cases k <;> first | exact .inl rfl | exact .inr trivial

theorem Regular.hoistedVariant (hw : w.Regular) : w.hoistedVariant.Regular := by
  unfold Node.hoistedVariant
  have hp : Members.Distinct ([] : List (String × Schema)) := List.nodup_nil
  split
  · refine hw.of_fields rfl rfl fun k => ?_
    cases k <;> first | exact .inl rfl | exact .inr trivial | exact .inr hp
  · split
    · refine hw.of_fields rfl rfl fun k => ?_
      cases k <;> first | exact .inl rfl | exact .inr trivial | exact .inr nofun
    · exact hw

/-! ## Optionals -/

theorem Regular.overlay (hn : n.Regular) (he : e.Regular) : (n.overlay e).Regular := by
  have hvendor : ∀ m ∈ Members.setAll n.extensions e.extensions, isVendor m.1 = true := fun m hm =>
    (Members.mem_setAll hm).elim (hn.extensions m) (he.extensions m)
  obtain ⟨hde, hdo⟩ := hn.distinct_parts
  have hvendor' : ∀ m ∈ (n.overlay e).extensions, isVendor m.1 = true := fun m hm =>
    (Members.mem_set hm).elim (hvendor m) (fun e => e ▸ by decide)
  have hother : ∀ m ∈ (n.overlay e).other, isOther m.1 = true := fun m hm =>
    (Members.mem_setAll hm).elim (hn.other m) (he.other m)
  refine ⟨hvendor', hother, ?_, fun m hm => ?_, fun k => ?_⟩
  · exact distinct_append hvendor' hother ((Members.distinct_setAll hde _).set _ _)
      (Members.distinct_setAll hdo _)
  · have hvalues {l : Members Json} (hl : m ∈ l)
        (h : ∀ m ∈ l, m ∈ n.extensions ++ n.other ∨ m ∈ e.extensions ++ e.other) :
        m.2.hasDistinctNames = true := (h m hl).elim (hn.values m) (he.values m)
    rcases List.mem_append.1 hm with hm | hm
    · rcases Members.mem_set hm with hm | rfl
      · exact hvalues hm (fun m hm => (Members.mem_setAll hm).imp (List.mem_append_left _) (List.mem_append_left _))
      · rfl
    · exact hvalues hm (fun m hm => (Members.mem_setAll hm).imp (List.mem_append_right _) (List.mem_append_right _))
  · by_cases hk : k.name ∈ replacedKeywords
    · have hk : k = .description ∨ k = .type ∨ k = .enum := by revert hk; cases k <;> decide
      rcases hk with rfl | rfl | rfl
      · trivial
      · trivial
      · exact he.fits .enum
    · rw [← field_overlay hk]
      rcases k.over_eq_or (e.field k) (n.field k) with h | h
      · rw [h]
        exact he.fits k
      · rw [h]
        exact hn.fits k

end Node

namespace Options

open Node

variable {o : Options} {n m u : ObjectSchema}

theorem fits_cleanEnum (hn : n.Regular) : Keyword.enum.Fits (o.cleanEnum n).enum := by
  unfold cleanEnum
  split
  · rw [getD_dropEnumNull]
    intro l hl x hx
    obtain ⟨values, hvalues, rfl⟩ := Option.map_eq_some_iff.1 hl
    exact hn.fits .enum values hvalues x (nonNullValues_subset _ values hx)
  · exact hn.fits .enum

theorem regular_cleanEnum (hn : n.Regular) : (o.cleanEnum n).Regular := by
  have hf := fits_cleanEnum (o := o) hn
  obtain ⟨l, hl⟩ := cleanEnum_eq o n
  rw [hl] at hf ⊢
  refine hn.of_fields rfl rfl fun k => ?_
  cases k <;> first | exact .inl rfl | exact .inr hf

theorem regular_settlesUnions (hn : (Schema.object n).Regular) (h : o.SettlesUnions n u) : u.Regular := by
  have hvariants {w : ObjectSchema} (hw : .object w ∈ n.unionVariants) : w.Regular :=
    (hn.child _ (unionVariants_subset_children hw)).here
  cases h with
  | @enumerated t ws hone hany hne henums =>
    refine regular_cleanEnum (hn.here.enumerated fun w hw => hvariants (List.mem_append_left _ ?_))
    rw [hone]
    exact List.mem_map_of_mem hw
  | @optional e _ hone hany hagree hresult =>
    have hover : (Node.overlay { n with anyOf := none } e).Regular :=
      (regular_without_anyOf hn).here.overlay (hvariants (List.mem_append_right _ hany.mem))
    rcases hresult with rfl | rfl
    · exact regular_cleanEnum hover
    · exact (regular_cleanEnum hover).dropEmptyOneOf
  | @tagged ws hone hany hobjects htags =>
    refine ((regular_cleanEnum hn.here).hoisted.takenEnums fun w hw => ?_).dropEmptyOneOf
    have hw : Schema.object w ∈ (((o.cleanEnum n).hoisted .oneOf ws).variants .oneOf).getD [] := hw
    rw [variants_hoisted (by rw [variants, oneOf_cleanEnum, hone])] at hw
    obtain ⟨v, hv, e⟩ := List.mem_map.1 hw
    cases e
    refine (hvariants (List.mem_append_left _ ?_)).hoistedVariant
    rw [hone]
    exact List.mem_map_of_mem hv
  | @untagged ws hone hany hpair => exact (regular_cleanEnum hn.here).dropEmptyOneOf.hoisted

theorem fits_finish (hn : n.Regular) (k : Keyword) : k.Fits ((o.finish n).field k) := by
  obtain ⟨a, x, h, -⟩ := finish_eq o n
  rw [h]
  cases k <;> first | trivial | exact hn.fits _

theorem mem_extensions_finish {m : String × Json} (h : m ∈ (o.finish n).extensions) :
    m ∈ n.extensions ∨ m = (o.preserveKey, .bool true) := by
  obtain ⟨a, x, he, ⟨-, rfl, -⟩ | ⟨-, rfl⟩⟩ := finish_eq o n
  · rw [he] at h
    exact .inl h
  · rw [he] at h
    exact Members.mem_set h

theorem other_finish : (o.finish n).other = n.other := by
  obtain ⟨a, x, he, -⟩ := finish_eq o n
  rw [he]

theorem values_finish (hn : n.Regular) :
    ∀ m ∈ (o.finish n).extensions ++ (o.finish n).other, m.2.hasDistinctNames = true := by
  intro m hm
  rcases List.mem_append.1 hm with hm | hm
  · rcases mem_extensions_finish hm with hm | rfl
    · exact hn.values m (List.mem_append_left _ hm)
    · rfl
  · exact hn.values m (List.mem_append_right _ (other_finish ▸ hm))

theorem regular_finish (hkey : isVendor o.preserveKey = true) (hn : n.Regular) : (o.finish n).Regular := by
  have hvendor : ∀ m ∈ (o.finish n).extensions, isVendor m.1 = true := fun m hm =>
    (mem_extensions_finish hm).elim (hn.extensions m) (fun e => e ▸ hkey)
  have hother : ∀ m ∈ (o.finish n).other, isOther m.1 = true := fun m hm => hn.other m (other_finish ▸ hm)
  obtain ⟨hde, hdo⟩ := hn.distinct_parts
  have hdo' : Members.Distinct (o.finish n).other := by rw [other_finish]; exact hdo
  refine ⟨hvendor, hother, distinct_append hvendor hother ?_ hdo', values_finish hn, fits_finish hn⟩
  obtain ⟨a, x, he, ⟨-, rfl, -⟩ | ⟨-, rfl⟩⟩ := finish_eq o n
  · rw [he]
    exact hde
  · rw [he]
    exact Members.Distinct.set hde _ _

theorem regular_object_settlesUnions (hn : (Schema.object n).Regular) (h : o.SettlesUnions n u) :
    (Schema.object u).Regular := by
  refine .object (regular_settlesUnions hn h) fun c hc => ?_
  obtain ⟨k, hk⟩ := mem_children.1 hc
  exact (passed_of_settlesUnions h hk).everywhere (fun _ hw => hw.hoistedVariant)
    (fun n _ hn => hn.of_fields rfl rfl (fun k => by cases k <;> first | exact .inl rfl | exact .inr trivial))
    hn.child

/-- Where a settled schema object comes from: one that is regular, whatever the vendor keyword. -/
theorem exists_regular_of_settle {path : Pointer} (hn : (Schema.object n).Regular)
    (h : (o.settle path n).outcome = .ok m) : ∃ u, (Schema.object u).Regular ∧ m = o.finish u := by
  obtain ⟨u, hu, rfl⟩ := settle_eq_ok hn h
  exact ⟨u, regular_object_settlesUnions hn hu, rfl⟩

/-- Settling keeps schema objects regular. -/
theorem regular_of_settle {path : Pointer} (hkey : isVendor o.preserveKey = true) (hn : (Schema.object n).Regular)
    (h : (o.settle path n).outcome = .ok m) : (Schema.object m).Regular := by
  obtain ⟨u, hu, rfl⟩ := exists_regular_of_settle hn h
  refine .object (regular_finish hkey hu.here) fun c hc => ?_
  obtain ⟨k, hk⟩ := mem_children.1 hc
  exact hu.child c (mem_children.2 ⟨k, passed_of_finish hk⟩)

/-- What a settled schema object is written as names no member twice, whatever the vendor keyword. -/
theorem hasDistinctNames_of_settle {path : Pointer} {ms : Members Json} (hn : (Schema.object n).Regular)
    (h : (o.settle path n).outcome = .ok m) (hms : m.encode = .ok ms) : (Json.obj ms).hasDistinctNames = true := by
  obtain ⟨u, hu, rfl⟩ := exists_regular_of_settle hn h
  refine hasDistinctNames_of_encode (fits_finish hu.here) (fun c hc => ?_) (values_finish hu.here) hms
  obtain ⟨k, hk⟩ := mem_children.1 hc
  exact hu.child c (mem_children.2 ⟨k, passed_of_finish hk⟩)

end Options

end KubeSchema
