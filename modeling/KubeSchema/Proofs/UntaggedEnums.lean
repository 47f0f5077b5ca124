import KubeSchema.Proofs.NullFree
import KubeSchema.Proofs.Settle.Drained

/-!
# Enums among untagged variants

Settling moves the values of an optional, and of the enums among tagged variants, to the parent. Enums among the
variants of an untagged union stay where they are, and so do those that the entry of an optional has in an `anyOf` of
its own (`Node.KeepsUntaggedEnum`).

* `untaggedEnum_settle_iff`: whether settling leaves an enum below an `anyOf`.
* `restructure_untaggedEnums`: whether a result has one.
* `restructure_keeps_untaggedEnum`: there are results that do.
-/

namespace KubeSchema

namespace Node

/-- Whether one of the untagged variants lists values. -/
def hasUntaggedEnum (n : ObjectSchema) : Bool := (n.anyOf.getD []).any hasEnum

/-- An untagged variant lists values: one of its own, or of the entry if it is an optional. -/
def KeepsUntaggedEnum (n : ObjectSchema) : Prop :=
  (∃ e, n.IsOptional e ∧ e.hasUntaggedEnum = true) ∨ (∀ e, ¬n.IsOptional e) ∧ n.hasUntaggedEnum = true

variable {n e : ObjectSchema}

/-- Without untagged variants there is nothing to keep. -/
theorem not_keepsUntaggedEnum (h : n.anyOf.getD [] = []) : ¬n.KeepsUntaggedEnum := by
  rintro (⟨e, he, -⟩ | ⟨-, henum⟩)
  · exact List.ne_nil_of_mem he.mem h
  · rw [hasUntaggedEnum, h] at henum
    cases henum

theorem IsOptional.keepsUntaggedEnum_iff (he : n.IsOptional e) :
    n.KeepsUntaggedEnum ↔ e.hasUntaggedEnum = true := by
  constructor
  · rintro (⟨e', he', henum⟩ | ⟨hno, -⟩)
    · rwa [he.eq he']
    · exact absurd he (hno e)
  · exact fun henum => .inl ⟨e, he, henum⟩

theorem keepsUntaggedEnum_iff_of_pair
    (hpair : ∀ a b, n.anyOf = some [a, b] → a.isNullEntry = .ok false ∧ b.isNullEntry = .ok false) :
    n.KeepsUntaggedEnum ↔ n.hasUntaggedEnum = true := by
  constructor
  · rintro (⟨e, he, -⟩ | ⟨-, henum⟩)
    · exact absurd he (not_isOptional hpair)
    · exact henum
  · exact fun henum => .inr ⟨fun _ => not_isOptional hpair, henum⟩

/-- Hoisting properties takes no values from a variant. -/
theorem any_hasEnum_hoisted (ws : List ObjectSchema) :
    (ws.map (fun w => Schema.object (hoistedVariant w))).any hasEnum = (ws.map Schema.object).any hasEnum := by
  rw [List.any_map, List.any_map]
  exact List.any_congr rfl hasEnum_hoistedVariant

end Node

/-! ## Settling -/

namespace Options

open Node

variable {o : Options} {path : Pointer} {n m : ObjectSchema}

/-- Settling leaves an enum below an `anyOf` exactly if it keeps one. -/
theorem untaggedEnum_settle_iff (hn : (Schema.object n).Regular) (h : (o.settle path n).outcome = .ok m) :
    m.hasUntaggedEnum = true ↔ n.KeepsUntaggedEnum := by
  obtain ⟨u, hu, rfl⟩ := settle_eq_ok hn h
  have hfinish : (o.finish u).hasUntaggedEnum = u.hasUntaggedEnum := by
    obtain ⟨a, x, h, -⟩ := finish_eq o u
    rw [h]
    rfl
  rw [hfinish]
  cases hu with
  | enumerated hone hany =>
    refine iff_of_false ?_ (not_keepsUntaggedEnum hany)
    rw [hasUntaggedEnum, anyOf_cleanEnum, Node.enumerated, hany]
    exact Bool.false_ne_true
  | @optional e _ hone he hagree hresult =>
    have hany : u.anyOf = e.anyOf := by
      have hover : (overlay { n with anyOf := none } e).anyOf = e.anyOf := Option.or_none
      rcases hresult with rfl | rfl
      · rw [anyOf_cleanEnum, hover]
      · rw [anyOf_dropEmptyOneOf, anyOf_cleanEnum, hover]
    rw [he.keepsUntaggedEnum_iff, hasUntaggedEnum, hasUntaggedEnum, hany]
  | @tagged ws hone hany =>
    refine iff_of_false ?_ (not_keepsUntaggedEnum hany)
    have hnone : ((o.cleanEnum n).hoisted .oneOf ws).takenEnums.dropEmptyOneOf.anyOf = n.anyOf := by
      rw [anyOf_dropEmptyOneOf]
      exact anyOf_cleanEnum
    rw [hasUntaggedEnum, hnone, hany]
    exact Bool.false_ne_true
  | @untagged ws hone hany hpair =>
    have hvariants : (o.cleanEnum n).dropEmptyOneOf.anyOf.getD [] = ws.map .object := by
      rw [anyOf_dropEmptyOneOf, anyOf_cleanEnum, hany]
    have hhoisted : ((o.cleanEnum n).dropEmptyOneOf.hoisted .anyOf ws).anyOf.getD [] =
        ws.map (fun w => .object (hoistedVariant w)) := variants_hoisted (u := .anyOf) hvariants
    rw [keepsUntaggedEnum_iff_of_pair hpair, hasUntaggedEnum, hasUntaggedEnum, hhoisted, any_hasEnum_hoisted, hany]

theorem keptByHoisting_untaggedEnum : KeptByHoisting (fun n => n.hasUntaggedEnum = false) where
  variant w h := by
    obtain ⟨_, _, _, _, _, heq⟩ := hoistedVariant_eq w
    rw [heq]
    exact h
  tag _ _ h := h

/-! ## Documents -/

/-- The enums below an `anyOf` in a result. No schema object has one, unless one of the document keeps one; and that
has it where it stands. -/
theorem restructure_untaggedEnums {v r : Json} (hkey : ['x', '-'].isPrefixOf o.preserveKey.toList = true)
    (hd : v.hasDistinctNames = true) (h : (o.restructure v).outcome = .ok r) :
    ((∀ w, v.Position w → ∀ n, o.ReadsAs w n → ¬n.KeepsUntaggedEnum) →
        r.Throughout (fun n => n.hasUntaggedEnum = false)) ∧
      ∀ n m, o.ReadsAs v n → Node.decode r = .ok m → (m.hasUntaggedEnum = true ↔ n.KeepsUntaggedEnum) := by
  have hvendor : isVendor o.preserveKey = true := by simp [isVendor, hkey]
  have hr : o.Restructures v r := ⟨[], h⟩
  refine ⟨fun hv => ?_, fun n m hread hm => ?_⟩
  · have hsettle : o.EstablishedIn (fun n => n.hasUntaggedEnum = false) (fun _ => True) v := by
      intro ms ms' hms hslots path n m hn hreg _ hm
      have hread : o.ReadsAs (.obj ms) n := ⟨ms, ms', rfl, restructureSlots_of_slotsMap hslots [], hn⟩
      exact ⟨Bool.eq_false_iff.2 fun henum => hv _ hms n hread ((untaggedEnum_settle_iff hreg hm).1 henum), trivial⟩
    exact (hr.inherits_of_established keptByHoisting_untaggedEnum hvendor inherited_throughout hsettle hd).1
  · obtain ⟨path, hreg, hsettle⟩ := hread.settles hvendor hd hr hm
    exact untaggedEnum_settle_iff hreg hsettle

/-- The enum of an optional moves to its parent. -/
theorem untaggedEnums_of_optional :
    let text : Json := .obj [("type", .str "string"), ("enum", .arr [.str "a"])]
    let v : Json := .obj [("anyOf", .arr [text, nullEntry])]
    let r : Json := .obj [("type", .str "string"), ("enum", .arr [.str "a"]), ("nullable", .bool true)]
    (Options.restructure {} v).outcome = .ok r ∧ r.Throughout (fun n => n.hasUntaggedEnum = false) := by
  intro text v r
  have hr : (Options.restructure {} v).outcome = .ok r := rfl
  let entry : ObjectSchema := { types := some (.one .string), enum := some [.str "a"] }
  let marker : ObjectSchema := { enum := some [.null], extensions := [(nullableKeyword, .bool true)] }
  let optional : ObjectSchema := { anyOf := some [.object entry, .object marker] }
  have hoptional : Options.ReadsAs {} v optional := ⟨_, _, rfl, rfl, rfl⟩
  have hentry : Options.ReadsAs {} text entry := ⟨_, _, rfl, rfl, rfl⟩
  have hmarker : Options.ReadsAs {} nullEntry marker := ⟨_, _, rfl, rfl, rfl⟩
  have hpair : optional.IsOptional entry := ⟨⟨_, _, rfl, .inr ⟨rfl, rfl⟩⟩, rfl⟩
  refine ⟨hr, (restructure_untaggedEnums rfl rfl hr).1 fun w hw n hn => ?_⟩
  cases hw with
  | root =>
    rw [hn.eq hoptional, hpair.keepsUntaggedEnum_iff]
    decide
  | inside hc hw =>
    rcases List.mem_pair.1 hc with rfl | rfl
    · cases hw with
      | root =>
        rw [hn.eq hentry]
        exact not_keepsUntaggedEnum rfl
      | inside hc => cases hc
    · cases hw with
      | root =>
        rw [hn.eq hmarker]
        exact not_keepsUntaggedEnum rfl
      | inside hc => cases hc

/-- Two enums of one type, which would be the values of their parent below a `oneOf`, stay below an `anyOf`. -/
theorem restructure_keeps_untaggedEnum :
    ¬ ∀ (o : Options) (v r : Json), ['x', '-'].isPrefixOf o.preserveKey.toList = true →
      v.hasDistinctNames = true → (o.restructure v).outcome = .ok r →
        r.Throughout (fun n => n.hasUntaggedEnum = false) := by
  intro h
  let v : Json := .obj [("anyOf", .arr [
    .obj [("type", .str "string"), ("enum", .arr [.str "A"])],
    .obj [("type", .str "string"), ("enum", .arr [.str "B"])]])]
  let m : ObjectSchema := { anyOf := some [
    .object { types := some (.one .string), enum := some [.str "A"] },
    .object { types := some (.one .string), enum := some [.str "B"] }] }
  have hr : (Options.restructure {} v).outcome = .ok v := rfl
  have hm : Node.decode v = .ok m := rfl
  exact absurd (h {} v v rfl rfl hr v (.root _) m hm) (by decide)

end Options

end KubeSchema
