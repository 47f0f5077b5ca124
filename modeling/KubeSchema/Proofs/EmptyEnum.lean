import KubeSchema.Proofs.NullFree

/-!
# Enums without values

Restructuring takes `null` out of several values, and nothing else out of an enum. So an enum is left without values
where a nullable schema gathers several values that are all `null` (`Node.LosesValues`), and nowhere else.

* `enum_settle_iff`: whether settling leaves a schema object with an enum without values.
* `restructure_enums`: whether a result has one.
* `restructure_empties_enum`: there are results that do.
-/

namespace KubeSchema

/-- There are several values, and all of them are `null`. -/
def OnlyNulls (values : List Json) : Prop := 1 < values.length ∧ ∀ x ∈ values, x = .null

instance (values : List Json) : Decidable (OnlyNulls values) := inferInstanceAs (Decidable (_ ∧ _))

/-- An object lists no values. -/
def Json.EmptyEnum (v : Json) : Prop := ∃ ms, v = .obj ms ∧ Members.get? ms Keyword.enum.name = some (.arr [])

namespace Node

/-- A schema object comes to list several values that are all `null` where it is nullable: its own, those of a union of
enums with them, or those of the entry of an optional. -/
inductive LosesValues (n : ObjectSchema) : Prop
  | own (nullable : n.isNullable = true) (values : OnlyNulls (n.enum.getD []))
      (union : n.oneOf.getD [] = [] ∨ (n.oneOf.getD []).any isObjectVariant = true)
      (handed : (n.oneOf.getD []).any hasEnum = false) (optional : ∀ e, ¬n.IsOptional e) : LosesValues n
  | union {ws : List ObjectSchema} (nullable : n.isNullable = true) (oneOf : n.oneOf.getD [] = ws.map .object)
      (nonempty : ws ≠ []) (enums : (n.oneOf.getD []).any isObjectVariant = false)
      (values : OnlyNulls (n.enum.getD [] ++ ws.flatMap (fun w => (listedValues? w).getD []))) : LosesValues n
  | entry {e : ObjectSchema} (optional : n.IsOptional e) (values : OnlyNulls (e.enum.getD [])) : LosesValues n

variable {n e : ObjectSchema} {ws : List ObjectSchema}

/-- A union of enums loses its values with those of its variants. -/
theorem losesValues_union_iff (hone : n.oneOf.getD [] = ws.map .object) (hany : n.anyOf.getD [] = []) (hne : ws ≠ [])
    (hobjects : (n.oneOf.getD []).any isObjectVariant = false) :
    n.LosesValues ↔
      n.isNullable = true ∧ OnlyNulls (n.enum.getD [] ++ ws.flatMap (fun w => (listedValues? w).getD [])) := by
  refine ⟨fun hlose => ?_, fun h => .union h.1 hone hne hobjects h.2⟩
  cases hlose with
  | own _ _ hunion =>
    rcases hunion with hnil | hobject
    · exact absurd (List.map_eq_nil_iff.1 (hone.symm.trans hnil)) hne
    · cases hobjects.symm.trans hobject
  | @union ws' hnullable hone' _ _ hvalues =>
    cases List.map_injective_iff.2 (fun _ _ => Schema.object.inj) (hone.symm.trans hone')
    exact ⟨hnullable, hvalues⟩
  | entry he => exact absurd (hany ▸ he.mem) List.not_mem_nil

/-- An optional loses the values of its entry. -/
theorem losesValues_entry_iff (hone : n.oneOf.getD [] = []) (he : n.IsOptional e) :
    n.LosesValues ↔ OnlyNulls (e.enum.getD []) := by
  refine ⟨fun hlose => ?_, .entry he⟩
  cases hlose with
  | own _ _ _ _ hno => exact absurd he (hno e)
  | union _ hone' hne => exact absurd (List.map_eq_nil_iff.1 (hone'.symm.trans hone)) hne
  | entry he' hvalues => exact he.eq he' ▸ hvalues

/-- Any other schema object loses its own values, unless enums among its variants have more. -/
theorem losesValues_own_iff (hunion : n.oneOf.getD [] = [] ∨ (n.oneOf.getD []).any isObjectVariant = true)
    (hno : ∀ e, ¬n.IsOptional e) :
    n.LosesValues ↔ (n.oneOf.getD []).any hasEnum = false ∧ n.isNullable = true ∧ OnlyNulls (n.enum.getD []) := by
  refine ⟨fun hlose => ?_, fun h => .own h.2.1 h.2.2 hunion h.1 hno⟩
  cases hlose with
  | own hnullable hvalues _ hhanded => exact ⟨hhanded, hnullable, hvalues⟩
  | union _ hone hne hobjects =>
    rcases hunion with hnil | hobject
    · exact absurd (List.map_eq_nil_iff.1 (hone.symm.trans hnil)) hne
    · cases hobjects.symm.trans hobject
  | entry he => exact absurd he (hno _)

/-- Taking `null` out of values leaves none exactly if all of several are `null`. -/
theorem enum_dropEnumNull_iff (hn : n.enum ≠ some []) :
    (n.dropEnumNull.getD n).enum = some [] ↔ n.isNullable = true ∧ OnlyNulls (n.enum.getD []) := by
  unfold dropEnumNull
  split
  · next henum => simp [henum, OnlyNulls]
  · next values henum =>
    rw [henum, Option.getD_some]
    split
    · next hclean =>
      simp only [Option.getD_some, Option.some.injEq, List.filter_eq_nil_iff, decide_eq_true_eq, not_not]
      exact ⟨fun h => ⟨hclean.1, hclean.2.1, h⟩, fun h => h.2.2⟩
    · next hkeep =>
      rw [Option.getD_none]
      refine iff_of_false hn fun ⟨hnullable, hseveral, hnulls⟩ => hkeep ⟨hnullable, hseveral, ?_⟩
      cases values with
      | nil => cases hseveral
      | cons x values =>
        rw [hnulls x List.mem_cons_self]
        exact List.mem_cons_self

/-- A variant that lists values lists some, if its enum does. -/
theorem listedValues?_ne_nil (h : e.enum ≠ some []) : listedValues? e ≠ some [] := by
  unfold listedValues?
  split
  · next values henum => rwa [henum] at h
  · cases Members.get? e.other "const" <;> simp

theorem takenValues_eq_nil_iff {enum : Option (List Json)} (h : ∀ w ∈ ws, w.enum.getD [] ≠ []) :
    takenValues enum ws = some [] ↔ ws = [] ∧ enum = some [] := by
  cases ws with
  | nil => simp [takenValues]
  | cons w ws =>
    refine iff_of_false (fun hnil => ?_) fun hnil => absurd hnil.1 (List.cons_ne_nil w ws)
    have hall := getD_takenValues enum (w :: ws)
    rw [hnil, Option.getD_some, List.flatMap_cons] at hall
    exact h w List.mem_cons_self (List.append_eq_nil_iff.1 (List.append_eq_nil_iff.1 hall.symm).2).1

theorem isSome_enum_of_mem {vs : List Schema} (h : e ∈ enumVariants vs) : e.enum.isSome = true := by
  obtain ⟨s, -, hs⟩ := List.mem_filterMap.1 h
  cases s with
  | bool b => cases hs
  | object v =>
    dsimp only at hs
    split at hs <;> cases hs
    assumption

theorem enum_hoistedVariant (w : ObjectSchema) : (hoistedVariant w).enum = w.enum := by
  obtain ⟨_, _, _, _, _, h⟩ := hoistedVariant_eq w
  rw [h]

end Node

/-! ## Settling -/

namespace Options

open Node

variable {o : Options} {path : Pointer} {n m u : ObjectSchema} {ws : List ObjectSchema}

theorem enum_cleanEnum_iff (hn : n.enum ≠ some []) :
    (o.cleanEnum n).enum = some [] ↔ o.dropEnumNull = true ∧ n.isNullable = true ∧ OnlyNulls (n.enum.getD []) := by
  rw [cleanEnum]
  split
  · next hdrop => rw [enum_dropEnumNull_iff hn, and_iff_right hdrop]
  · next hkeep => exact iff_of_false hn fun h => hkeep h.1

theorem enum_finish : (o.finish n).enum = n.enum := by
  obtain ⟨a, x, h, -⟩ := finish_eq o n
  rw [h]

theorem enum_dropEmptyOneOf : n.dropEmptyOneOf.enum = n.enum := by
  obtain ⟨l, hl, -⟩ := dropEmptyOneOf_eq n
  rw [hl]

/-- A union of enums lists the values of all. -/
theorem enum_enumerated_ne_nil {t : OneOrMany PrimitiveType} (hne : ws ≠ [])
    (hlisted : ∀ w ∈ ws, (listedValues? w).isSome = true) (hws : ∀ w ∈ ws, w.enum ≠ some []) :
    (enumerated n t ws).enum ≠ some [] := by
  intro hnil
  obtain ⟨w, hw⟩ := List.exists_mem_of_ne_nil ws hne
  obtain ⟨values, hvalues⟩ := Option.isSome_iff_exists.1 (hlisted w hw)
  have hall := List.flatMap_eq_nil_iff.1 (List.append_eq_nil_iff.1 (Option.some.inj hnil)).2 w hw
  rw [hvalues, Option.getD_some] at hall
  exact listedValues?_ne_nil (hws w hw) (hall ▸ hvalues)

/-- Beside other variants of a tagged union, enums hand over values. -/
theorem enum_tagged_iff (hone : n.oneOf.getD [] = ws.map .object) (hws : ∀ w ∈ ws, w.enum ≠ some []) :
    ((o.cleanEnum n).hoisted .oneOf ws).takenEnums.enum = some [] ↔
      (n.oneOf.getD []).any hasEnum = false ∧ (o.cleanEnum n).enum = some [] := by
  let vs : List Schema := ws.map (fun w => .object (hoistedVariant w))
  have hvariants : ((o.cleanEnum n).hoisted .oneOf ws).oneOf.getD [] = vs :=
    variants_hoisted (u := .oneOf) (by rw [variants, oneOf_cleanEnum, hone])
  have henum : ((o.cleanEnum n).hoisted .oneOf ws).takenEnums.enum =
      takenValues (o.cleanEnum n).enum (enumVariants vs) := by
    rw [takenEnums, hvariants]
    rfl
  have hlisting : ∀ w ∈ enumVariants vs, w.enum.getD [] ≠ [] := by
    intro w hw
    obtain ⟨values, hvalues⟩ := Option.isSome_iff_exists.1 (isSome_enum_of_mem hw)
    obtain ⟨w', hw', e⟩ := List.mem_map.1 (mem_enumVariants hw)
    cases e
    rw [enum_hoistedVariant] at hvalues ⊢
    rw [hvalues, Option.getD_some]
    exact fun hnil => hws w' hw' (hnil ▸ hvalues)
  have hany : vs.any hasEnum = (n.oneOf.getD []).any hasEnum := by
    rw [hone, List.any_map, List.any_map]
    exact congrArg (ws.any) (funext fun w => congrArg Option.isSome (enum_hoistedVariant w))
  rw [henum, takenValues_eq_nil_iff hlisting, enumVariants_eq_nil_iff, hany]

/-- The values of an optional are those of its entry, and it is nullable. -/
theorem enum_overlay_iff {e : ObjectSchema} (he : e.enum ≠ some []) :
    (o.cleanEnum (overlay n e)).enum = some [] ↔ o.dropEnumNull = true ∧ OnlyNulls (e.enum.getD []) := by
  have hextensions : (overlay n e).extensions =
      Members.set (Members.setAll n.extensions e.extensions) nullableKeyword (.bool true) := rfl
  have hnullable : (overlay n e).isNullable = true := by
    rw [isNullable, hextensions, Members.get?_set, if_pos rfl, decide_eq_true rfl]
  have henum : (overlay n e).enum = e.enum := rfl
  rw [enum_cleanEnum_iff (henum ▸ he), hnullable, henum, and_iff_right rfl]

/-- Settling leaves an enum without values exactly where values are lost. -/
theorem enum_settle_iff (hn : (Schema.object n).Regular) (hown : n.enum ≠ some [])
    (hvariants : ∀ w, .object w ∈ n.unionVariants → w.enum ≠ some []) (h : (o.settle path n).outcome = .ok m) :
    m.enum = some [] ↔ o.dropEnumNull = true ∧ n.LosesValues := by
  obtain ⟨u, hu, rfl⟩ := settle_eq_ok hn h
  rw [enum_finish]
  cases hu with
  | @enumerated t ws hone hany hne henums =>
    have hws : ∀ w ∈ ws, w.enum ≠ some [] := fun w hw =>
      hvariants w (List.mem_append_left _ (hone ▸ List.mem_map_of_mem hw))
    have hobjects : (n.oneOf.getD []).any isObjectVariant = false := by
      rw [hone, List.any_map, List.any_eq_false]
      exact fun w hw => Bool.eq_false_iff.1 (henums w hw).1
    rw [losesValues_union_iff hone hany hne hobjects]
    exact enum_cleanEnum_iff (enum_enumerated_ne_nil hne (fun w hw => (henums w hw).2.2) hws)
  | @optional e _ hone he _ hresult =>
    have hentry : u.enum = (o.cleanEnum (overlay { n with anyOf := none } e)).enum := by
      rcases hresult with rfl | rfl
      · rfl
      · exact enum_dropEmptyOneOf
    rw [losesValues_entry_iff hone he, hentry]
    exact enum_overlay_iff (hvariants e (List.mem_append_right _ he.mem))
  | @tagged ws hone hany hobjects =>
    obtain ⟨w, hw, hobject⟩ := hobjects
    have hunion : (n.oneOf.getD []).any isObjectVariant = true :=
      List.any_eq_true.2 ⟨.object w, hone ▸ List.mem_map_of_mem hw, hobject⟩
    have hws : ∀ w ∈ ws, w.enum ≠ some [] := fun w hw =>
      hvariants w (List.mem_append_left _ (hone ▸ List.mem_map_of_mem hw))
    have hno : ∀ e, ¬n.IsOptional e := fun e he => absurd (hany ▸ he.mem) List.not_mem_nil
    rw [losesValues_own_iff (.inr hunion) hno, enum_dropEmptyOneOf, enum_tagged_iff hone hws, enum_cleanEnum_iff hown]
    exact and_left_comm
  | @untagged ws hone _ hpair =>
    have henum : ((o.cleanEnum n).dropEmptyOneOf.hoisted .anyOf ws).enum = (o.cleanEnum n).enum :=
      enum_dropEmptyOneOf (n := o.cleanEnum n)
    have hnone : (n.oneOf.getD []).any hasEnum = false := by rw [hone, List.any_nil]
    rw [losesValues_own_iff (.inl hone) (fun _ => not_isOptional hpair), henum, hnone, and_iff_right rfl]
    exact enum_cleanEnum_iff hown

/-! ## Documents -/

theorem emptyEnum_obj {ms : Members Json} :
    (Json.obj ms).EmptyEnum ↔ Members.get? ms Keyword.enum.name = some (.arr []) := by
  constructor
  · rintro ⟨_, e, hget⟩
    cases e
    exact hget
  · exact fun hget => ⟨ms, rfl, hget⟩

/-- A schema object reads an enum without values from an object that lists none. -/
theorem emptyEnum_iff {v : Json} (hn : Node.decode v = .ok n) : v.EmptyEnum ↔ n.enum = some [] := by
  obtain ⟨ms, rfl⟩ := exists_obj_of_decode hn
  have hread : optional (Json.asList .enum) (Members.get? ms Keyword.enum.name) = .ok n.enum :=
    (decode_eq_ok.1 hn).1 .enum
  rw [emptyEnum_obj]
  constructor
  · intro hget
    rw [hget] at hread
    exact (Except.ok.inj hread).symm
  · intro hnil
    rw [hnil] at hread
    rcases optional_eq_ok.1 hread with ⟨-, hnone⟩ | ⟨w, values, hget, -, hsome, hlist⟩
    · cases hnone
    · cases hsome
      cases w <;> cases hlist
      exact hget

/-- No schema stands below `enum`. -/
theorem emptyEnum_of_slotsMap {R : Json → Json → Prop} {ms ms' : Members Json} (h : Members.SlotsMap R ms ms')
    (hempty : (Json.obj ms').EmptyEnum) : (Json.obj ms).EmptyEnum := by
  have hmaps := h.get? Keyword.enum.name
  rw [emptyEnum_obj.1 hempty] at hmaps
  generalize hown : Members.get? ms Keyword.enum.name = own at hmaps
  cases hmaps with
  | some hmap => exact emptyEnum_obj.2 (hown.trans (congrArg some (Slot.Maps.eq_of_noSlot hmap).symm))

theorem not_emptyEnum_of_not_obj {v : Json} (hv : ∀ ms, v ≠ .obj ms) : ¬v.EmptyEnum :=
  fun ⟨ms, e, _⟩ => hv ms e

theorem keptByHoisting_enum : KeptByHoisting (fun n => n.enum ≠ some []) where
  variant w h := by rwa [enum_hoistedVariant]
  tag _ _ h := h

/-- In what is made of a document whose objects all list values, an object that reads as no schema lists some too. -/
theorem inherited_enums {v : Json} (hv : v.Wherever (fun w => ¬w.EmptyEnum)) :
    InheritedIn o (fun n => n.enum ≠ some []) (fun _ => True) (Json.Wherever (fun w => ¬w.EmptyEnum)) v where
  plain _ _ hw := Json.wherever_of_not_obj hw (not_emptyEnum_of_not_obj hw)
  unread _ _ _ hms hslots _ hc :=
    Json.wherever_of_children (fun hempty => hv _ hms (emptyEnum_of_slotsMap hslots hempty)) hc
  written _ _ _ hm _ hd _ hdec :=
    wherever_of_decode (fun _ => not_emptyEnum_of_not_obj) (fun _ _ hn h => mt (emptyEnum_iff hn).1 h) hd
      (Schema.decode_of_node hdec) hm

/-- The enums without values in a result of a document whose enums all have values. There is none, unless a schema
object of the document loses its values; and that one has it where it stands. -/
theorem restructure_enums {v r : Json} (hkey : ['x', '-'].isPrefixOf o.preserveKey.toList = true)
    (hd : v.hasDistinctNames = true) (hv : v.Wherever (fun w => ¬w.EmptyEnum)) (h : (o.restructure v).outcome = .ok r) :
    ((∀ w, v.Position w → ∀ n, o.ReadsAs w n → ¬(o.dropEnumNull = true ∧ n.LosesValues)) →
      r.Wherever (fun w => ¬w.EmptyEnum)) ∧
    ∀ n m, o.ReadsAs v n → Node.decode r = .ok m → (∀ w, .object w ∈ n.unionVariants → w.enum ≠ some []) →
      (m.enum = some [] ↔ o.dropEnumNull = true ∧ n.LosesValues) := by
  have hvendor : isVendor o.preserveKey = true := by simp [isVendor, hkey]
  have hr : o.Restructures v r := ⟨[], h⟩
  have hown {ms ms' : Members Json} {n : ObjectSchema} (hms : v.Position (.obj ms))
      (hslots : Members.SlotsMap o.Restructures ms ms') (hn : Node.decode (.obj ms') = .ok n) : n.enum ≠ some [] :=
    fun hnil => hv _ hms (emptyEnum_of_slotsMap hslots ((emptyEnum_iff hn).2 hnil))
  refine ⟨fun hlose => ?_, fun n m hread hm hvariants => ?_⟩
  · have hsettle : o.EstablishedIn (fun n => n.enum ≠ some []) (fun _ => True) v := by
      intro ms ms' hms hslots path n m hn hreg hc hm
      refine ⟨fun hnil => hlose _ hms n ⟨ms, ms', rfl, restructureSlots_of_slotsMap hslots [], hn⟩ ?_, trivial⟩
      exact (enum_settle_iff hreg (hown hms hslots hn)
        (fun w hw => (hc _ (unionVariants_subset_children hw)).1.here) hm).1 hnil
    exact (hr.inherits_within keptByHoisting_enum hvendor (inherited_enums hv) hsettle hd).1
  · obtain ⟨path, hreg, hsettle⟩ := hread.settles hvendor hd hr hm
    obtain ⟨ms, ms', rfl, hslots, hn⟩ := hread
    exact enum_settle_iff hreg (hown (.root _) (restructureSlots_eq_ok hslots) hn) hvariants hsettle

/-- Of two values that are `null` and one that is not, the latter stays. -/
theorem enums_of_nullable :
    let v : Json := .obj [("nullable", .bool true), ("enum", .arr [.null, .str "a", .null])]
    let r : Json := .obj [("enum", .arr [.str "a"]), ("nullable", .bool true)]
    (Options.restructure {} v).outcome = .ok r ∧ r.Wherever (fun w => ¬w.EmptyEnum) := by
  intro v r
  have hr : (Options.restructure {} v).outcome = .ok r := rfl
  let nullable : ObjectSchema :=
    { enum := some [.null, .str "a", .null], extensions := [(nullableKeyword, .bool true)] }
  have hnullable : Options.ReadsAs {} v nullable := ⟨_, _, rfl, rfl, rfl⟩
  have hv : v.Wherever (fun w => ¬w.EmptyEnum) := Json.wherever_of_children (mt emptyEnum_obj.1 (by decide)) nofun
  refine ⟨hr, (restructure_enums rfl rfl hv hr).1 fun w hw n hn => ?_⟩
  rintro ⟨-, hlose⟩
  cases hw with
  | inside hc => cases hc
  | root =>
    cases hn.eq hnullable
    cases hlose with
    | own _ hvalues => exact absurd hvalues (by decide)
    | union _ hone hne => exact hne (List.map_eq_nil_iff.1 hone.symm)
    | entry he => exact List.not_mem_nil he.mem

/-- A nullable schema and its variant that both only list `null` are left without values. -/
theorem restructure_empties_enum :
    ¬ ∀ (o : Options) (v r : Json), ['x', '-'].isPrefixOf o.preserveKey.toList = true →
      v.hasDistinctNames = true → v.Wherever (fun w => ¬w.EmptyEnum) → (o.restructure v).outcome = .ok r →
      r.Wherever (fun w => ¬w.EmptyEnum) := by
  intro h
  let variant : Json := .obj [("type", .str "null"), ("enum", .arr [.null])]
  let v : Json := .obj [("nullable", .bool true), ("enum", .arr [.null]), ("oneOf", .arr [variant])]
  let r : Json := .obj [("type", .str "null"), ("enum", .arr []), ("nullable", .bool true)]
  have hr : (Options.restructure {} v).outcome = .ok r := rfl
  have hv : v.Wherever (fun w => ¬w.EmptyEnum) := by
    refine Json.wherever_of_children (mt emptyEnum_obj.1 (by decide)) fun c hc => ?_
    rw [List.mem_singleton.1 hc]
    exact Json.wherever_of_children (mt emptyEnum_obj.1 (by decide)) nofun
  exact h {} v r rfl rfl hv hr r (.root _) (emptyEnum_obj.2 rfl)

end Options

end KubeSchema
