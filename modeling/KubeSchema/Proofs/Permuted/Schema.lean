import KubeSchema.Proofs.Alike.Reading
import KubeSchema.Proofs.Alike.Writing
import KubeSchema.Proofs.Permuted.Members
import KubeSchema.Proofs.Violations

/-!
# Schema objects with their lists in another order

Two schema objects may differ in the order of their variants and of their values only (`Node.Permutes`), as what they
are read from and written as may (`Members.Permutes`).

* `exists_decode_of_permutes`, `exists_encode_of_permutes`: reading and writing.
* `Node.Permutes.regular`: a regular schema object is regular in any order.
-/

namespace KubeSchema

/-- The same schema object, but for the order of its variants and that of its values. -/
inductive Node.Permutes (n : ObjectSchema) : ObjectSchema → Prop
  | intro {oneOf anyOf : Option (List Schema)} {enum : Option (List Json)} (oneOfs : Option.Rel List.Perm n.oneOf oneOf)
      (anyOfs : Option.Rel List.Perm n.anyOf anyOf) (enums : Option.Rel List.Perm n.enum enum) :
      Permutes n { n with oneOf, anyOf, enum }

theorem isModeled_of_mem_listNames : ∀ name ∈ listNames, isModeled name = true := by decide

/-! ## Lists that may be missing -/

section

variable {α : Type} {a b : Option (List α)}

theorem rel_perm_refl (a : Option (List α)) : Option.Rel List.Perm a a := by
  cases a with
  | none => exact .none
  | some l => exact .some (.refl l)

theorem rel_perm_symm (h : Option.Rel List.Perm a b) : Option.Rel List.Perm b a :=
  rel_imp (rel_flip h) fun _ _ h => h.symm

theorem perm_getD (h : Option.Rel List.Perm a b) : (a.getD []).Perm (b.getD []) := by
  cases h with
  | none => exact .nil
  | some h => exact h

end

namespace Node.Permutes

variable {n m : ObjectSchema}

theorem refl (n : ObjectSchema) : n.Permutes n :=
  .intro (rel_perm_refl n.oneOf) (rel_perm_refl n.anyOf) (rel_perm_refl n.enum)

theorem variants (h : n.Permutes m) (u : Union) : Option.Rel List.Perm (n.variants u) (m.variants u) := by
  obtain ⟨hone, hany, -⟩ := h
  cases u
  · exact hone
  · exact hany

theorem getD_variants (h : n.Permutes m) (u : Union) : ((n.variants u).getD []).Perm ((m.variants u).getD []) :=
  perm_getD (h.variants u)

theorem hasVariants_eq (h : n.Permutes m) (u : Union) : n.hasVariants u = m.hasVariants u :=
  congrArg Bool.not (h.getD_variants u).isEmpty_eq

theorem hasConflictingUnions_eq (h : n.Permutes m) : n.hasConflictingUnions = m.hasConflictingUnions := by
  rw [hasConflictingUnions, hasConflictingUnions, h.hasVariants_eq, h.hasVariants_eq]

/-- A regular schema object is regular in any order. -/
theorem regular (h : n.Permutes m) (hn : (Schema.object n).Regular) : (Schema.object m).Regular := by
  obtain @⟨oneOf, anyOf, enum, hone, hany, henum⟩ := h
  refine Options.regular_of_children (hn.here.of_fields rfl rfl fun k => ?_) fun k c hc => ?_
  · cases k
    case enum =>
      right
      rintro l rfl x hx
      obtain ⟨l', hl', hperm⟩ := exists_of_rel_some (rel_perm_symm henum)
      exact hn.here.fits .enum l' hl' x (hperm.mem_iff.1 hx)
    case oneOf | anyOf => exact .inr trivial
    all_goals exact .inl rfl
  · refine hn.child c (mem_children.2 ⟨k, ?_⟩)
    cases k
    case oneOf => exact (perm_getD hone).mem_iff.2 hc
    case anyOf => exact (perm_getD hany).mem_iff.2 hc
    all_goals exact hc

end Node.Permutes

/-! ## Reading -/

theorem exists_readList_of_permutes {k : Keyword} {P : Prop} {v v' : Option Json} {a : Option (List Schema)}
    (h : Option.Rel (fun v w => v = w ∨ P ∧ v.Permutes w) v v') (ha : optional (Schema.decodeList k) v = .ok a) :
    ∃ a', optional (Schema.decodeList k) v' = .ok a' ∧ Option.Rel List.Perm a a' := by
  rcases h with ⟨rfl | ⟨-, hperm⟩⟩ | _
  · exact ⟨a, ha, rel_perm_refl a⟩
  · obtain ⟨hperm⟩ := hperm
    rcases readList_eq_ok.1 ha with ⟨e | e, -⟩ | ⟨xs, l, e, rfl, hl⟩ <;> cases e
    obtain ⟨l', hl', hl⟩ := List.perm_comp_forall₂ hperm.symm hl
    exact ⟨some l', readList_eq_ok.2 (.inr ⟨_, l', rfl, rfl, hl'⟩), .some hl.symm⟩
  · exact ⟨a, ha, rel_perm_refl a⟩

theorem exists_readEnum_of_permutes {P : Prop} {v v' : Option Json} {a : Option (List Json)}
    (h : Option.Rel (fun v w => v = w ∨ P ∧ v.Permutes w) v v') (ha : optional (Json.asList .enum) v = .ok a) :
    ∃ a', optional (Json.asList .enum) v' = .ok a' ∧ Option.Rel List.Perm a a' := by
  rcases h with ⟨rfl | ⟨-, hperm⟩⟩ | _
  · exact ⟨a, ha, rel_perm_refl a⟩
  · obtain @⟨xs, ys, hperm⟩ := hperm
    cases ha
    exact ⟨some ys, rfl, .some hperm⟩
  · exact ⟨a, ha, rel_perm_refl a⟩

/-- The same members in another order of lists read as the same schema object in another order. -/
theorem exists_decode_of_permutes {names : List String} {ms ms' : Members Json} {n : ObjectSchema}
    (h : ms.Permutes names ms') (hsub : names ⊆ listNames) (hn : Node.decode (.obj ms) = .ok n) :
    ∃ n', Node.decode (.obj ms') = .ok n' ∧ n.Permutes n' ∧ (Keyword.enum.name ∉ names → n'.enum = n.enum) := by
  obtain ⟨hf, hext, hother⟩ := decode_eq_ok.1 hn
  obtain ⟨oneOf, hone, hones⟩ := exists_readList_of_permutes (h.get? Keyword.oneOf.name) (hf .oneOf)
  obtain ⟨anyOf, hany, hanys⟩ := exists_readList_of_permutes (h.get? Keyword.anyOf.name) (hf .anyOf)
  obtain ⟨enum, henum, henums⟩ := exists_readEnum_of_permutes (h.get? Keyword.enum.name) (hf .enum)
  have hrest (k : Keyword) (hk : k.name ∉ listNames) :
      k.readField (Members.get? ms' k.name) = .ok (n.field k) := by
    rw [← h.get?_eq fun hmem => hk (hsub hmem)]
    exact hf k
  have hmodeled : ∀ name ∈ names, isModeled name = true := fun name hname =>
    isModeled_of_mem_listNames name (hsub hname)
  refine ⟨{ n with oneOf, anyOf, enum }, decode_eq_ok.2 ⟨fun k => ?_, ?_, ?_⟩, .intro hones hanys henums,
    fun hname => ?_⟩
  · cases k
    case oneOf => exact hone
    case anyOf => exact hany
    case enum => exact henum
    all_goals exact hrest _ (by decide)
  · exact hext.trans (h.filter_eq (p := fun name => !isModeled name && isVendor name) fun name hname => by
      simp [hmodeled name hname])
  · exact hother.trans (h.filter_eq (p := isOther) fun name hname => by simp [isOther, hmodeled name hname])
  · rw [← h.get?_eq hname] at henum
    exact Except.ok.inj (henum.symm.trans (hf .enum))

/-! ## Writing -/

theorem exists_encodeSchemas_of_permutes {a a' : Option (List Schema)} {v : Option Json}
    (h : Option.Rel List.Perm a a') (hv : encodeSchemas a = .ok v) :
    ∃ v', encodeSchemas a' = .ok v' ∧ Option.Rel Json.Permutes v v' := by
  cases h with
  | none =>
    cases hv
    exact ⟨none, rfl, .none⟩
  | some h =>
    obtain ⟨xs, hxs, rfl⟩ := map_eq_ok.1 hv
    obtain ⟨ys, hys, hperm⟩ := List.perm_comp_forall₂ h.symm (encodeItems_eq_ok.1 hxs)
    exact ⟨some (.arr ys), map_eq_ok.2 ⟨ys, encodeItems_eq_ok.2 hys, rfl⟩, .some (.arr hperm.symm)⟩

theorem permutes_map_arr {a b : Option (List Json)} (h : Option.Rel List.Perm a b) :
    Option.Rel Json.Permutes (a.map .arr) (b.map .arr) := by
  cases h with
  | none => exact .none
  | some h => exact .some (.arr h)

theorem permutes_fieldMembers {vals vals' : Keyword → Option Json}
    (h : ∀ k : Keyword, Option.Rel (fun v w => v = w ∨ k.name ∈ listNames ∧ v.Permutes w) (vals k) (vals' k)) :
    Members.Permutes listNames (fieldMembers vals Keyword.all) (fieldMembers vals' Keyword.all) := by
  generalize Keyword.all = ks
  induction ks with
  | nil => exact .nil
  | cons k ks ih =>
    have hk := h k
    simp only [fieldMembers, List.filterMap_cons]
    revert hk
    generalize vals k = v, vals' k = v'
    rintro (hk | _)
    · exact .cons ⟨rfl, hk⟩ ih
    · exact ih

/-- The same schema object in another order is written as the same members in another order of lists. -/
theorem exists_encode_of_permutes {n m : ObjectSchema} {ms : Members Json} (h : n.Permutes m)
    (hms : n.encode = .ok ms) : ∃ ms', m.encode = .ok ms' ∧ ms.Permutes listNames ms' := by
  obtain ⟨vals, hw, rfl, hd, hnames⟩ := encode_eq_ok.1 hms
  obtain @⟨oneOf, anyOf, enum, hone, hany, henum⟩ := h
  have hfield (k : Keyword) : ∃ v', k.writeField (Node.field { n with oneOf, anyOf, enum } k) = .ok v' ∧
      Option.Rel (fun v w => v = w ∨ k.name ∈ listNames ∧ v.Permutes w) (vals k) v' := by
    have hk := hw k
    cases k
    case oneOf =>
      obtain ⟨v', hv', hperm⟩ := exists_encodeSchemas_of_permutes hone hk
      exact ⟨v', hv', rel_imp hperm fun _ _ h => .inr ⟨by decide, h⟩⟩
    case anyOf =>
      obtain ⟨v', hv', hperm⟩ := exists_encodeSchemas_of_permutes hany hk
      exact ⟨v', hv', rel_imp hperm fun _ _ h => .inr ⟨by decide, h⟩⟩
    case enum =>
      refine ⟨enum.map .arr, rfl, ?_⟩
      rw [← Except.ok.inj hk]
      exact rel_imp (permutes_map_arr henum) fun _ _ h => .inr ⟨by decide, h⟩
    all_goals
      refine ⟨_, hk, ?_⟩
      generalize vals _ = v
      cases v with
      | none => exact .none
      | some x => exact .some (.inl rfl)
  choose vals' hw' hvals using hfield
  have hfields := permutes_fieldMembers hvals
  refine ⟨_, encode_eq_ok.2 ⟨vals', hw', rfl, hd, ?_⟩, hfields.append (.refl _ _)⟩
  rw [hfields.names_eq]
  exact hnames

end KubeSchema
