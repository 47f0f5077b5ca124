import KubeSchema.Proofs.Alike.Members
import KubeSchema.Proofs.Position
import KubeSchema.Schema.Union

/-!
# Lists in another order

Members and the same members with the elements of some of their lists in another order (`Members.Permutes`): of the
lists of variants (`variantNames`), and after a restructuring also of the list of values (`listNames`).

* `Permutes.exists_slotsMap`: what becomes of the values in slots, element by element, keeps to the order.
* `Permutes.hasDistinctNames`, `Permutes.symm`: what does not depend on the order.
-/

namespace KubeSchema

/-- A list and another one with the same elements in some order. -/
inductive Json.Permutes : Json → Json → Prop
  | arr {xs ys : List Json} (h : xs.Perm ys) : Permutes (.arr xs) (.arr ys)

theorem Json.Permutes.symm {v w : Json} (h : v.Permutes w) : w.Permutes v := by
  cases h with
  | arr h => exact .arr h.symm

theorem Json.Permutes.hasDistinctNames {v w : Json} (h : v.Permutes w) (hv : v.hasDistinctNames = true) :
    w.hasDistinctNames = true := by
  cases h with
  | arr h => exact Json.hasDistinctNames_arr.2 fun x hx => Json.hasDistinctNames_arr.1 hv x (h.mem_iff.2 hx)

/-- The keywords whose lists hold the variants of unions. -/
def variantNames : List String := [Union.oneOf.name, Union.anyOf.name]

/-- The keywords whose lists hold variants or values. -/
def listNames : List String := Keyword.enum.name :: variantNames

namespace Members

/-- The same members in the same order, but for the order of the lists under some names. -/
def Permutes (names : List String) : Members Json → Members Json → Prop :=
  List.Forall₂ (fun m m' => m.1 = m'.1 ∧ (m.2 = m'.2 ∨ m.1 ∈ names ∧ m.2.Permutes m'.2))

namespace Permutes

variable {names names' : List String} {ms ms' l : Members Json}

theorem refl (names : List String) (ms : Members Json) : Permutes names ms ms :=
  List.forall₂_same.2 fun _ _ => ⟨rfl, .inl rfl⟩

theorem symm (h : Permutes names ms ms') : Permutes names ms' ms := by
  refine h.flip.imp fun m' m hm => ?_
  obtain ⟨hname, hv⟩ := hm
  refine ⟨hname.symm, ?_⟩
  rcases hv with hv | ⟨hmem, hv⟩
  · exact .inl hv.symm
  · exact .inr ⟨hname ▸ hmem, hv.symm⟩

theorem imp (h : Permutes names ms ms') (hsub : names ⊆ names') : Permutes names' ms ms' :=
  List.Forall₂.imp (fun _ _ hm => ⟨hm.1, hm.2.imp_right fun hv => ⟨hsub hv.1, hv.2⟩⟩) h

theorem names_eq (h : Permutes names ms ms') : Members.names ms' = Members.names ms := by
  have hrel : Rel (fun _ _ => True) ms ms' := List.Forall₂.imp (fun _ _ hm => ⟨hm.1, trivial⟩) h
  exact hrel.names

theorem hasDistinctNames (h : Permutes names ms ms') (hd : (Json.obj ms).hasDistinctNames = true) :
    (Json.obj ms').hasDistinctNames = true := by
  obtain ⟨hn, hv⟩ := Json.hasDistinctNames_obj.1 hd
  refine Json.hasDistinctNames_obj.2 ⟨by rw [Distinct, h.names_eq]; exact hn, fun m' hm' => ?_⟩
  obtain ⟨m, hm, -, heq | ⟨-, hperm⟩⟩ := exists_of_mem_right h hm'
  · rw [← heq]
    exact hv m hm
  · exact hperm.hasDistinctNames (hv m hm)

/-- The values under a name are the same, or permuted if the name is one of those. -/
theorem get? (h : Permutes names ms ms') (name : String) :
    Option.Rel (fun v w => v = w ∨ name ∈ names ∧ v.Permutes w) (Members.get? ms name) (Members.get? ms' name) :=
  get?_of_forall₂ (R := fun name v w => v = w ∨ name ∈ names ∧ Json.Permutes v w) h name

/-- Under any other name stands the same value. -/
theorem get?_eq (h : Permutes names ms ms') {name : String} (hname : name ∉ names) :
    Members.get? ms name = Members.get? ms' name := by
  have hget := h.get? name
  revert hget
  generalize Members.get? ms name = a, Members.get? ms' name = b
  rintro (hvw | _)
  · exact congrArg some (hvw.resolve_right fun hmem => hname hmem.1)
  · rfl

theorem filter_eq (h : Permutes names ms ms') {p : String → Bool} (hp : ∀ name ∈ names, p name = false) :
    ms.filter (fun m => p m.1) = ms'.filter (fun m => p m.1) := by
  induction h with
  | nil => rfl
  | @cons m m' r r' hm _ ih =>
    obtain ⟨k, v⟩ := m
    obtain ⟨k', w⟩ := m'
    obtain ⟨rfl, rfl | ⟨hk, -⟩⟩ := hm
    · rw [List.filter_cons, List.filter_cons, ih]
    · rw [List.filter_cons, List.filter_cons, ih, hp k hk]
      rfl

theorem append {r r' : Members Json} (h : Permutes names ms ms') (hr : Permutes names r r') :
    Permutes names (ms ++ r) (ms' ++ r') := List.rel_append h hr

/-- What becomes of the elements of a list keeps to their order. -/
theorem exists_slotsMap {R : Json → Json → Prop} (h : Permutes names ms ms')
    (hnames : ∀ name ∈ names, Slot.ofKeyword? name = some .list) (hl : SlotsMap R ms l) :
    ∃ l', SlotsMap R ms' l' ∧ Permutes names l l' := by
  induction h generalizing l with
  | nil =>
    cases hl
    exact ⟨[], .nil, .nil⟩
  | @cons m m' r r' hm _ ih =>
    obtain ⟨k, v⟩ := m
    obtain ⟨k', w⟩ := m'
    obtain ⟨rfl, hv⟩ := hm
    obtain _ | @⟨_, ⟨k', a⟩, _, r₁, ⟨hk', hslot⟩, hr⟩ := hl
    obtain ⟨r₁', hr₁', hp⟩ := ih hr
    rcases hv with rfl | ⟨hk, ⟨hperm⟩⟩
    · exact ⟨(k', a) :: r₁', .cons ⟨hk', hslot⟩ hr₁', .cons ⟨rfl, .inl rfl⟩ hp⟩
    · dsimp only at hk' hslot hk
      subst hk'
      rw [hnames k hk] at hslot
      cases hslot with
      | list hys =>
        obtain ⟨zs, hzs, hzperm⟩ := List.perm_comp_forall₂ hperm.symm hys
        refine ⟨(k, .arr zs) :: r₁', .cons ⟨rfl, ?_⟩ hr₁', .cons ⟨rfl, .inr ⟨hk, .arr hzperm.symm⟩⟩ hp⟩
        rw [hnames k hk]
        exact .list hzs
      | noList hv => exact absurd rfl (hv _)

end Permutes

/-- The same members in any order, and with the lists of variants and values in any order. -/
def Reordered (ms ms' : Members Json) : Prop := ∃ l, Permutes listNames ms l ∧ (Json.obj l).Alike (.obj ms')

end Members

theorem ofKeyword?_of_mem_variantNames : ∀ name ∈ variantNames, Slot.ofKeyword? name = some .list := by decide

end KubeSchema
