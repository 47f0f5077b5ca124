import KubeSchema.Proofs.Relocation
import KubeSchema.Proofs.Throughout

/-!
# Values of nullable schemas

A nullable schema need not list `null` among several values (`Node.NullFree`), and `null` is taken out of them. Enums
among the variants of a tagged union hand over their values only afterwards, so that theirs may bring it back
(`Node.KeepsNull`). This is the one way in which it stays.

* `nullFree_settle_iff`: whether settling leaves a schema object free of `null`.
* `restructure_nullFree`: whether a result is.
* `restructure_keeps_null`: there are results that are not.
-/

namespace KubeSchema

/-! ## Lists of values -/

/-- The values of a schema. -/
def Schema.values : Schema → List Json
  | .bool _ => []
  | .object n => n.enum.getD []

namespace Node

/-- A nullable schema object does not list `null` among several values. -/
def NullFree (n : ObjectSchema) : Prop :=
  n.isNullable = true → 1 < (n.enum.getD []).length → .null ∉ n.enum.getD []

/-- The values that enums among the variants of a tagged union hand over. -/
def handedValues (n : ObjectSchema) : List Json :=
  if (n.oneOf.getD []).any isObjectVariant then (n.oneOf.getD []).flatMap Schema.values else []

/-- The values of a schema object, without `null` if there are several of a nullable one, and those handed over. -/
def gatheredValues (n : ObjectSchema) : List Json := (n.dropEnumNull.getD n).enum.getD [] ++ n.handedValues

/-- `null` is among several values that a nullable schema object gathers. -/
def KeepsNull (n : ObjectSchema) : Prop :=
  n.isNullable = true ∧ 1 < n.gatheredValues.length ∧ .null ∈ n.gatheredValues

instance (n : ObjectSchema) : Decidable n.NullFree := inferInstanceAs (Decidable (_ → _ → _))

instance (n : ObjectSchema) : Decidable n.KeepsNull := inferInstanceAs (Decidable (_ ∧ _ ∧ _))

variable {n m : ObjectSchema} {ws : List ObjectSchema}

theorem isNullable_dropEnumNull : (n.dropEnumNull.getD n).isNullable = n.isNullable := by
  rw [getD_dropEnumNull]
  rfl

theorem nullFree_dropEnumNull : (n.dropEnumNull.getD n).NullFree := by
  unfold dropEnumNull
  split
  · next henum => simp [NullFree, henum]
  · next values henum =>
    split
    · simp [NullFree]
    · next hkeep =>
      intro hnullable hseveral hnull
      simp only [Option.getD_none, henum, Option.getD_some] at hnullable hseveral hnull
      exact hkeep ⟨hnullable, hseveral, hnull⟩

/-- Nothing is handed over unless a variant is about objects. -/
theorem not_keepsNull (h : (n.oneOf.getD []).any isObjectVariant = false) : ¬n.KeepsNull := by
  have hgathered : n.gatheredValues = (n.dropEnumNull.getD n).enum.getD [] := by
    rw [gatheredValues, handedValues, h, if_neg Bool.false_ne_true, List.append_nil]
  rintro ⟨hnullable, hseveral, hnull⟩
  rw [hgathered] at hseveral hnull
  exact nullFree_dropEnumNull (isNullable_dropEnumNull.trans hnullable) hseveral hnull

/-! ## Hoisting -/

theorem nullFree_hoistedVariant (w : ObjectSchema) (h : w.NullFree) : (hoistedVariant w).NullFree := by
  obtain ⟨_, _, _, _, _, heq⟩ := hoistedVariant_eq w
  rw [heq]
  exact h

theorem keptByHoisting_nullFree : Options.KeptByHoisting NullFree where
  variant := nullFree_hoistedVariant
  tag _ _ h := h

theorem getD_takenValues (enum : Option (List Json)) (ws : List ObjectSchema) :
    (takenValues enum ws).getD [] = enum.getD [] ++ ws.flatMap (fun w => w.enum.getD []) := by
  cases ws with
  | nil => simp [takenValues]
  | cons w ws => rw [takenValues_cons, Option.getD_some]

/-- Variants without an enum have no values to hand over. -/
theorem flatMap_enumVariants (vs : List Schema) :
    (enumVariants vs).flatMap (fun w => w.enum.getD []) = vs.flatMap Schema.values := by
  induction vs with
  | nil => rfl
  | cons s vs ih =>
    cases s with
    | bool b => exact ih
    | object w =>
      cases hw : w.enum with
      | none => simpa [enumVariants, Schema.values, hw] using ih
      | some values => simpa [enumVariants, Schema.values, hw] using ih

end Node

/-! ## Settling -/

namespace Options

open Node

variable {o : Options} {path : Pointer} {n m u : ObjectSchema}

theorem nullFree_finish_iff (hkey : o.preserveKey ≠ nullableKeyword) : (o.finish u).NullFree ↔ u.NullFree := by
  obtain ⟨a, x, h, ⟨-, rfl, -⟩ | ⟨-, rfl⟩⟩ := finish_eq o u
  · rw [h]
    rfl
  · rw [h, NullFree, NullFree, isNullable, isNullable, Members.get?_set, if_neg hkey]

theorem nullFree_cleanEnum (hdrop : o.dropEnumNull = true) : (o.cleanEnum n).NullFree := by
  rw [cleanEnum, if_pos hdrop]
  exact nullFree_dropEnumNull

theorem nullFree_dropEmptyOneOf_iff : n.dropEmptyOneOf.NullFree ↔ n.NullFree := by
  obtain ⟨l, hl, -⟩ := dropEmptyOneOf_eq n
  rw [hl]
  rfl

/-- A tagged union lists the values that it gathers. -/
theorem values_of_tagged (hdrop : o.dropEnumNull = true) {ws : List ObjectSchema}
    (hws : n.oneOf.getD [] = ws.map .object) (hobjects : (n.oneOf.getD []).any isObjectVariant = true) :
    ((o.cleanEnum n).hoisted .oneOf ws).takenEnums.enum.getD [] = n.gatheredValues := by
  have hvariants : ((o.cleanEnum n).hoisted .oneOf ws).oneOf.getD [] =
      ws.map (fun w => .object (hoistedVariant w)) :=
    variants_hoisted (u := .oneOf) (by rw [variants, oneOf_cleanEnum, hws])
  have henum (w : ObjectSchema) : (hoistedVariant w).enum = w.enum := by
    obtain ⟨_, _, _, _, _, h⟩ := hoistedVariant_eq w
    rw [h]
  have hown : ((o.cleanEnum n).hoisted .oneOf ws).enum = (n.dropEnumNull.getD n).enum := by
    rw [cleanEnum, if_pos hdrop]
    rfl
  have htaken : ((o.cleanEnum n).hoisted .oneOf ws).takenEnums.enum =
      takenValues (n.dropEnumNull.getD n).enum (enumVariants (ws.map (fun w => .object (hoistedVariant w)))) := by
    rw [takenEnums, hvariants, hown]
  rw [htaken, getD_takenValues, flatMap_enumVariants, gatheredValues, handedValues, if_pos hobjects, hws]
  simp [List.flatMap_map, Schema.values, henum]

/-- Settling leaves a schema object without `null` among several values exactly if it does not gather `null`. -/
theorem nullFree_settle_iff (hkey : o.preserveKey ≠ nullableKeyword) (hdrop : o.dropEnumNull = true)
    (hn : (Schema.object n).Regular) (h : (o.settle path n).outcome = .ok m) : m.NullFree ↔ ¬n.KeepsNull := by
  obtain ⟨u, hu, rfl⟩ := settle_eq_ok hn h
  rw [nullFree_finish_iff hkey]
  cases hu with
  | @enumerated t ws hone _ _ henums =>
    refine iff_of_true (nullFree_cleanEnum hdrop) (not_keepsNull ?_)
    rw [hone, List.any_map, List.any_eq_false]
    exact fun w hw => Bool.eq_false_iff.1 (henums w hw).1
  | optional hone _ _ hresult =>
    refine iff_of_true ?_ (not_keepsNull (by rw [hone]; rfl))
    rcases hresult with rfl | rfl
    · exact nullFree_cleanEnum hdrop
    · exact nullFree_dropEmptyOneOf_iff.2 (nullFree_cleanEnum hdrop)
  | @untagged ws hone =>
    refine iff_of_true ?_ (not_keepsNull (by rw [hone]; rfl))
    exact nullFree_dropEmptyOneOf_iff.2 (nullFree_cleanEnum hdrop)
  | @tagged ws hone _ hobjects =>
    obtain ⟨w, hw, hobject⟩ := hobjects
    have hany : (n.oneOf.getD []).any isObjectVariant = true :=
      List.any_eq_true.2 ⟨.object w, hone ▸ List.mem_map_of_mem hw, hobject⟩
    have hnullable : ((o.cleanEnum n).hoisted .oneOf ws).takenEnums.isNullable = n.isNullable := by
      obtain ⟨l, hl⟩ := cleanEnum_eq o n
      rw [hl]
      rfl
    rw [nullFree_dropEmptyOneOf_iff, NullFree, KeepsNull, values_of_tagged hdrop hone hany, hnullable]
    simp only [not_and]

/-! ## Documents -/

/-- A value reads as a schema object, once the values in its slots are restructured. -/
def ReadsAs (o : Options) (v : Json) (n : ObjectSchema) : Prop :=
  ∃ ms ms', v = .obj ms ∧ (o.restructureSlots [] ms).outcome = .ok ms' ∧ Node.decode (.obj ms') = .ok n

theorem ReadsAs.eq {v : Json} (h : o.ReadsAs v n) (h' : o.ReadsAs v m) : n = m := by
  obtain ⟨ms, slots, rfl, hslots, hn⟩ := h
  obtain ⟨_, _, e, hslots', hm⟩ := h'
  cases e
  cases hslots.symm.trans hslots'
  exact Except.ok.inj (hn.symm.trans hm)

/-- What a result reads as is what settling gives. -/
theorem ReadsAs.settles {v r : Json} (h : o.ReadsAs v n) (hkey : isVendor o.preserveKey = true)
    (hd : v.hasDistinctNames = true) (hr : o.Restructures v r) (hm : Node.decode r = .ok m) :
    ∃ path, (Schema.object n).Regular ∧ (o.settle path n).outcome = .ok m := by
  obtain ⟨ms, ms', rfl, hslots, hn⟩ := h
  obtain ⟨ms'', hslots', hms, ⟨e, he, -⟩ | ⟨path, n', m', hn', hsettle, -, hdec⟩⟩ := hr.of_obj hkey hd
  all_goals cases hslots.symm.trans (restructureSlots_of_slotsMap hslots' [])
  · cases he.symm.trans hn
  · cases hn.symm.trans hn'
    cases hm.symm.trans hdec
    exact ⟨path, regular_of_decode hms hn, hsettle⟩

/-- The values of nullable schemas in a result. No schema object lists `null` among several values, unless one of the
document keeps it; and that one lists it where it stands. -/
theorem restructure_nullFree {v r : Json} (hkey : ['x', '-'].isPrefixOf o.preserveKey.toList = true)
    (hdrop : o.dropEnumNull = true) (hd : v.hasDistinctNames = true) (h : (o.restructure v).outcome = .ok r) :
    ((∀ w, v.Position w → ∀ n, o.ReadsAs w n → ¬n.KeepsNull) → r.Throughout NullFree) ∧
      ∀ n m, o.ReadsAs v n → Node.decode r = .ok m → (m.NullFree ↔ ¬n.KeepsNull) := by
  have hvendor : isVendor o.preserveKey = true := by simp [isVendor, hkey]
  have hne : o.preserveKey ≠ nullableKeyword := by
    intro e
    rw [e] at hkey
    exact absurd hkey (by decide)
  have hr : o.Restructures v r := ⟨[], h⟩
  refine ⟨fun hv => ?_, fun n m hread hm => ?_⟩
  · have hsettle : o.EstablishedIn NullFree (fun _ => True) v := fun ms ms' hms hslots path n m hn hreg _ hm =>
      ⟨(nullFree_settle_iff hne hdrop hreg hm).2
        (hv _ hms n ⟨ms, ms', rfl, restructureSlots_of_slotsMap hslots [], hn⟩), trivial⟩
    exact (hr.inherits_of_established keptByHoisting_nullFree hvendor inherited_throughout hsettle hd).1
  · obtain ⟨ms, ms', rfl, hslots, hn⟩ := hread
    obtain ⟨ms'', hslots', hms, ⟨e, he, -⟩ | ⟨path, n', m', hn', hsettle, -, hdec⟩⟩ := hr.of_obj hvendor hd
    all_goals cases hslots.symm.trans (restructureSlots_of_slotsMap hslots' [])
    · cases he.symm.trans hn
    · cases hn.symm.trans hn'
      cases hm.symm.trans hdec
      exact nullFree_settle_iff hne hdrop (regular_of_decode hms hn) hsettle

/-- A tagged union takes up a value beside its own, which are left without `null`. -/
theorem nullFree_of_tagged_union :
    let v : Json := .obj
      [("nullable", .bool true), ("enum", .arr [.null, .int 1]),
        ("oneOf", .arr [.obj [("type", .str "object")], .obj [("enum", .arr [.int 2])]])]
    let r : Json := .obj
      [("enum", .arr [.int 1, .int 2]), ("oneOf", .arr [.obj []]), ("nullable", .bool true)]
    (Options.restructure {} v).outcome = .ok r ∧ r.Throughout NullFree := by
  intro v r
  have hr : (Options.restructure {} v).outcome = .ok r := rfl
  let bare : ObjectSchema := { types := some (.one .object) }
  let listing : ObjectSchema := { enum := some [.int 2] }
  let union : ObjectSchema :=
    { enum := some [.null, .int 1], oneOf := some [.object bare, .object listing]
      extensions := [(nullableKeyword, .bool true)] }
  have hunion : Options.ReadsAs {} v union := ⟨_, _, rfl, rfl, rfl⟩
  have hbare : Options.ReadsAs {} (.obj [("type", .str "object")]) bare := ⟨_, _, rfl, rfl, rfl⟩
  have hlisting : Options.ReadsAs {} (.obj [("enum", .arr [.int 2])]) listing := ⟨_, _, rfl, rfl, rfl⟩
  refine ⟨hr, (restructure_nullFree rfl rfl rfl hr).1 fun w hw n hn => ?_⟩
  cases hw with
  | root =>
    rw [hn.eq hunion]
    decide
  | inside hc hw =>
    rcases List.mem_pair.1 hc with rfl | rfl
    · cases hw with
      | root =>
        rw [hn.eq hbare]
        decide
      | inside hc => cases hc
    · cases hw with
      | root =>
        rw [hn.eq hlisting]
        decide
      | inside hc => cases hc

/-- A tagged union takes up `null` after it was taken out of the values. -/
theorem restructure_keeps_null :
    ¬ ∀ (o : Options) (v r : Json), ['x', '-'].isPrefixOf o.preserveKey.toList = true → o.dropEnumNull = true →
      v.hasDistinctNames = true → (o.restructure v).outcome = .ok r → r.Throughout NullFree := by
  intro h
  let v : Json := .obj
    [("nullable", .bool true),
      ("oneOf", .arr [.obj [("type", .str "object")], .obj [("enum", .arr [.null, .int 1])]])]
  let r : Json := .obj
    [("enum", .arr [.null, .int 1]), ("oneOf", .arr [.obj []]), ("nullable", .bool true)]
  let m : ObjectSchema :=
    { enum := some [.null, .int 1], oneOf := some [.object {}], extensions := [(nullableKeyword, .bool true)] }
  have hr : (Options.restructure {} v).outcome = .ok r := rfl
  have hm : Node.decode r = .ok m := rfl
  have hfree : m.NullFree := h {} v r rfl rfl rfl hr r (.root _) m hm
  exact absurd hfree (by decide)

end Options

end KubeSchema
