import KubeSchema.Keyword
import KubeSchema.Proofs.Members

/-!
# Schema positions

The places of a document where a schema may stand: its root, and whatever the slots of an object at such a place
hold (`Json.Position`).

* `Json.induction`: what holds of a value if it holds of the values in its slots holds of every value.
* `Json.hasDistinctNames`: no object inside a value names a member twice. A document is such a value.
* `Slot.Maps`, `Members.SlotsMap`: the values in a slot, or in all slots of an object, are replaced by related ones.
-/

namespace KubeSchema

/-! ## Values in slots -/

/-- The values that stand in a slot of a shape; none if the shape is missed. -/
def Slot.values : Option Slot → Json → List Json
  | some .schema, v => [v]
  | some .list, .arr xs => xs
  | some .map, .obj ms => ms.map Prod.snd
  | some .schemaOrList, .arr xs => xs
  | some .schemaOrList, v => [v]
  | _, _ => []

/-- Vendor keywords are no slots. -/
theorem ofKeyword?_of_isVendor {name : String} (h : isVendor name = true) : Slot.ofKeyword? name = none := by
  have hvendor : ∀ p ∈ Slot.table, isVendor p.1 = false := by decide
  rw [Slot.ofKeyword?, List.lookup_eq_none_iff]
  intro p hp
  have hne : name ≠ p.1 := fun e => by simp [e, hvendor p hp] at h
  simpa using hne

/-- The values in the slots of members. -/
def Members.children (ms : Members Json) : List Json :=
  ms.flatMap (fun m => Slot.values (Slot.ofKeyword? m.1) m.2)

namespace Json

/-- The values in the slots of an object. -/
def children : Json → List Json
  | obj ms => Members.children ms
  | _ => []

/-- The values at the schema positions of a document. -/
inductive Position : Json → Json → Prop
  | root (v : Json) : Position v v
  | inside {v c w : Json} (hc : c ∈ v.children) (h : Position c w) : Position v w

theorem mem_children {ms : Members Json} {c : Json} :
    c ∈ (obj ms).children ↔ ∃ m ∈ ms, c ∈ Slot.values (Slot.ofKeyword? m.1) m.2 := List.mem_flatMap

theorem sizeOf_of_mem_values {s : Option Slot} {v c : Json} (h : c ∈ Slot.values s v) : sizeOf c ≤ sizeOf v := by
  unfold Slot.values at h
  split at h
  · cases List.mem_singleton.1 h; exact Nat.le_refl _
  · have := List.sizeOf_lt_of_mem h; simp; omega
  · obtain ⟨⟨name, x⟩, hm, rfl⟩ := List.mem_map.1 h
    have := List.sizeOf_lt_of_mem hm
    simp at this ⊢
    omega
  · have := List.sizeOf_lt_of_mem h; simp; omega
  · cases List.mem_singleton.1 h; exact Nat.le_refl _
  · cases h

/-- A value in a slot is smaller than the object. -/
theorem sizeOf_child {v c : Json} (h : c ∈ v.children) : sizeOf c < sizeOf v := by
  cases v with
  | obj ms =>
    obtain ⟨⟨name, x⟩, hm, hc⟩ := mem_children.1 h
    have hx : sizeOf c ≤ sizeOf x := sizeOf_of_mem_values hc
    have hm := List.sizeOf_lt_of_mem hm
    simp at hm ⊢
    omega
  | _ => cases h

/-- What holds of a value if it holds of the values in its slots holds of every value. -/
theorem induction {P : Json → Prop} (h : ∀ v, (∀ c ∈ v.children, P c) → P v) (v : Json) : P v :=
  h v (fun c hc =>
    have : sizeOf c < sizeOf v := sizeOf_child hc
    induction h c)
  termination_by sizeOf v

/-! ## Distinct names -/

end Json

mutual

/-- Whether no object inside a value names a member twice. -/
def Json.hasDistinctNames : Json → Bool
  | .arr xs => itemsHaveDistinctNames xs
  | .obj ms => decide (Members.Distinct ms) && membersHaveDistinctNames ms
  | _ => true
  termination_by structural v => v

def itemsHaveDistinctNames : List Json → Bool
  | [] => true
  | x :: xs => x.hasDistinctNames && itemsHaveDistinctNames xs
  termination_by structural xs => xs

def membersHaveDistinctNames : List (String × Json) → Bool
  | [] => true
  | (_, x) :: ms => x.hasDistinctNames && membersHaveDistinctNames ms
  termination_by structural ms => ms

end

namespace Json

theorem hasDistinctNames_arr {xs : List Json} :
    (arr xs).hasDistinctNames = true ↔ ∀ x ∈ xs, x.hasDistinctNames = true := by
  rw [hasDistinctNames]
  induction xs with
  | nil => simp [itemsHaveDistinctNames]
  | cons x xs ih => simp [itemsHaveDistinctNames, ih]

theorem hasDistinctNames_obj {ms : Members Json} :
    (obj ms).hasDistinctNames = true ↔ Members.Distinct ms ∧ ∀ m ∈ ms, m.2.hasDistinctNames = true := by
  have h (ms : Members Json) : membersHaveDistinctNames ms = true ↔ ∀ m ∈ ms, m.2.hasDistinctNames = true := by
    induction ms with
    | nil => simp [membersHaveDistinctNames]
    | cons m ms ih =>
      obtain ⟨name, x⟩ := m
      rw [membersHaveDistinctNames, Bool.and_eq_true, ih, List.forall_mem_cons]
  rw [hasDistinctNames, Bool.and_eq_true, decide_eq_true_iff, h]

theorem hasDistinctNames_of_mem_values {s : Option Slot} {v c : Json} (hv : v.hasDistinctNames = true)
    (h : c ∈ Slot.values s v) : c.hasDistinctNames = true := by
  unfold Slot.values at h
  split at h
  · cases List.mem_singleton.1 h; exact hv
  · exact hasDistinctNames_arr.1 hv c h
  · obtain ⟨m, hm, rfl⟩ := List.mem_map.1 h
    exact (hasDistinctNames_obj.1 hv).2 m hm
  · exact hasDistinctNames_arr.1 hv c h
  · cases List.mem_singleton.1 h; exact hv
  · cases h

theorem hasDistinctNames_child {v c : Json} (hv : v.hasDistinctNames = true) (h : c ∈ v.children) :
    c.hasDistinctNames = true := by
  cases v with
  | obj ms =>
    obtain ⟨m, hm, hc⟩ := mem_children.1 h
    exact hasDistinctNames_of_mem_values ((hasDistinctNames_obj.1 hv).2 m hm) hc
  | _ => cases h

end Json

/-! ## Replacing the values in slots -/

/-- The values in a slot are replaced by related ones; a value that misses the shape of its slot stays. -/
inductive Slot.Maps (R : Json → Json → Prop) : Option Slot → Json → Json → Prop
  | schema {v v' : Json} (h : R v v') : Maps R (some .schema) v v'
  | list {xs ys : List Json} (h : List.Forall₂ R xs ys) : Maps R (some .list) (.arr xs) (.arr ys)
  | map {ms ms' : Members Json} (h : Members.Rel R ms ms') : Maps R (some .map) (.obj ms) (.obj ms')
  | items {xs ys : List Json} (h : List.Forall₂ R xs ys) : Maps R (some .schemaOrList) (.arr xs) (.arr ys)
  | item {v v' : Json} (hv : ∀ xs, v ≠ .arr xs) (hv' : ∀ xs, v' ≠ .arr xs) (h : R v v') :
      Maps R (some .schemaOrList) v v'
  | noList {v : Json} (hv : ∀ xs, v ≠ .arr xs) : Maps R (some .list) v v
  | noMap {v : Json} (hv : ∀ ms, v ≠ .obj ms) : Maps R (some .map) v v
  | noSlot {v : Json} : Maps R none v v

/-- The values in the slots of an object are replaced by related ones. -/
def Members.SlotsMap (R : Json → Json → Prop) : Members Json → Members Json → Prop :=
  List.Forall₂ (fun m m' => m.1 = m'.1 ∧ Slot.Maps R (Slot.ofKeyword? m.1) m.2 m'.2)

namespace Slot

variable {R S : Json → Json → Prop} {s : Option Slot} {v v' : Json}

theorem values_schemaOrList (hv : ∀ xs, v ≠ .arr xs) : values (some .schemaOrList) v = [v] := by
  cases v <;> first | rfl | exact absurd rfl (hv _)

theorem Maps.eq_of_noSlot (h : Maps R none v v') : v' = v := by
  cases h
  rfl

theorem Maps.imp (h : Maps R s v v') (hRS : ∀ c ∈ values s v, ∀ c', R c c' → S c c') : Maps S s v v' := by
  cases h with
  | schema h => exact .schema (hRS _ (List.mem_singleton.2 rfl) _ h)
  | list h => exact .list (forall₂_of_mem h hRS)
  | map h => exact .map (forall₂_of_mem h (fun m hm _ hr => ⟨hr.1, hRS _ (List.mem_map_of_mem hm) _ hr.2⟩))
  | items h => exact .items (forall₂_of_mem h hRS)
  | item hv hv' h => exact .item hv hv' (hRS _ (by rw [values_schemaOrList hv]; exact List.mem_singleton.2 rfl) _ h)
  | noList hv => exact .noList hv
  | noMap hv => exact .noMap hv
  | noSlot => exact .noSlot

theorem Maps.refl (h : ∀ c ∈ values s v, R c c) : Maps R s v v := by
  rcases s with _ | _ | _ | _ | _
  · exact .noSlot
  · exact .schema (h v (List.mem_singleton.2 rfl))
  · cases v with
    | arr xs => exact .list (List.forall₂_same.2 h)
    | _ => exact .noList nofun
  · cases v with
    | obj ms => exact .map (List.forall₂_same.2 fun m hm => ⟨rfl, h m.2 (List.mem_map_of_mem hm)⟩)
    | _ => exact .noMap nofun
  · cases v with
    | arr xs => exact .items (List.forall₂_same.2 h)
    | _ => exact .item nofun nofun (h _ (List.mem_singleton.2 rfl))

theorem Maps.eq_of_values (h : Maps R s v v') (hR : ∀ c ∈ values s v, ∀ c', R c c' → c' = c) : v' = v := by
  cases h with
  | schema h => exact hR _ (List.mem_singleton.2 rfl) _ h
  | list h | items h => rw [forall₂_eq_of_mem h hR]
  | map h => rw [forall₂_eq_of_mem h fun m hm m' hr => Prod.ext hr.1.symm (hR _ (List.mem_map_of_mem hm) _ hr.2)]
  | item hv hv' h => exact hR _ (by rw [values_schemaOrList hv]; exact List.mem_singleton.2 rfl) _ h
  | noList | noMap | noSlot => rfl

theorem Maps.hasDistinctNames (h : Maps R s v v') (hv : v.hasDistinctNames = true)
    (hR : ∀ c c', R c c' → c.hasDistinctNames = true → c'.hasDistinctNames = true) : v'.hasDistinctNames = true := by
  cases h with
  | schema h => exact hR _ _ h hv
  | list h | items h =>
    refine Json.hasDistinctNames_arr.2 fun y hy => ?_
    obtain ⟨x, hx, hr⟩ := exists_of_mem_right h hy
    exact hR _ _ hr (Json.hasDistinctNames_arr.1 hv x hx)
  | map h =>
    obtain ⟨hn, hm⟩ := Json.hasDistinctNames_obj.1 hv
    refine Json.hasDistinctNames_obj.2 ⟨by rw [Members.Distinct, h.names]; exact hn, fun m' hm' => ?_⟩
    obtain ⟨m, hmem, hr⟩ := exists_of_mem_right h hm'
    exact hR _ _ hr.2 (hm m hmem)
  | item _ _ h => exact hR _ _ h hv
  | noList => exact hv
  | noMap => exact hv
  | noSlot => exact hv

theorem Maps.flip (h : Maps R s v v') : Maps (fun a b => R b a) s v' v := by
  cases h with
  | schema h => exact .schema h
  | list h => exact .list h.flip
  | map h => exact .map (h.flip.imp (fun _ _ hr => ⟨hr.1.symm, hr.2⟩))
  | items h => exact .items h.flip
  | item hv hv' h => exact .item hv' hv h
  | noList hv => exact .noList hv
  | noMap hv => exact .noMap hv
  | noSlot => exact .noSlot

theorem Maps.values (h : Maps R s v v') : List.Forall₂ R (Slot.values s v) (Slot.values s v') := by
  cases h with
  | schema h => exact .cons h .nil
  | list h => exact h
  | map h =>
    have hr := h.imp (fun _ _ hr => hr.2)
    exact List.forall₂_map_left_iff.2 (List.forall₂_map_right_iff.2 hr)
  | items h => exact h
  | item hv hv' h =>
    rw [values_schemaOrList hv, values_schemaOrList hv']
    exact .cons h .nil
  | noList hv => cases v <;> first | exact .nil | exact absurd rfl (hv _)
  | noMap hv => cases v <;> first | exact .nil | exact absurd rfl (hv _)
  | noSlot => exact .nil

end Slot

namespace Members

variable {R S : Json → Json → Prop} {ms ms' : Members Json}

theorem SlotsMap.imp (h : SlotsMap R ms ms') (hRS : ∀ c ∈ children ms, ∀ c', R c c' → S c c') : SlotsMap S ms ms' :=
  forall₂_of_mem h (fun m hm _ hr => ⟨hr.1, hr.2.imp (fun c hc => hRS c (List.mem_flatMap.2 ⟨m, hm, hc⟩))⟩)

theorem SlotsMap.flip (h : SlotsMap R ms ms') : SlotsMap (fun a b => R b a) ms' ms := by
  induction h with
  | nil => exact .nil
  | cons hm _ ih => exact .cons ⟨hm.1.symm, hm.1 ▸ hm.2.flip⟩ ih

theorem SlotsMap.names (h : SlotsMap R ms ms') : Members.names ms' = Members.names ms := by
  induction h with
  | nil => rfl
  | cons hm _ ih =>
    simp only [Members.names] at ih
    simp [Members.names, hm.1, ih]

theorem SlotsMap.children (h : SlotsMap R ms ms') : List.Forall₂ R (children ms) (children ms') := by
  induction h with
  | nil => exact .nil
  | @cons m m' r r' hm _ ih =>
    have hv : List.Forall₂ R (Slot.values (Slot.ofKeyword? m.1) m.2) (Slot.values (Slot.ofKeyword? m'.1) m'.2) := by
      rw [← hm.1]
      exact hm.2.values
    exact List.rel_append hv ih

theorem SlotsMap.eq_of_children (h : SlotsMap R ms ms') (hR : ∀ c ∈ Members.children ms, ∀ c', R c c' → c' = c) :
    ms' = ms :=
  forall₂_eq_of_mem h fun m hm _ hr =>
    Prod.ext hr.1.symm (hr.2.eq_of_values fun c hc => hR c (List.mem_flatMap.2 ⟨m, hm, hc⟩))

theorem SlotsMap.hasDistinctNames (h : SlotsMap R ms ms') (hv : (Json.obj ms).hasDistinctNames = true)
    (hR : ∀ c c', R c c' → c.hasDistinctNames = true → c'.hasDistinctNames = true) :
    (Json.obj ms').hasDistinctNames = true := by
  obtain ⟨hn, hm⟩ := Json.hasDistinctNames_obj.1 hv
  refine Json.hasDistinctNames_obj.2 ⟨by rw [Distinct, h.names]; exact hn, fun m' hm' => ?_⟩
  obtain ⟨m, hmem, hr⟩ := exists_of_mem_right h hm'
  exact hr.2.hasDistinctNames (hm m hmem) hR

theorem SlotsMap.filter (p : String → Bool) (h : SlotsMap R ms ms') :
    SlotsMap R (ms.filter (fun m => p m.1)) (ms'.filter (fun m => p m.1)) := by
  induction h with
  | nil => exact .nil
  | cons hm _ ih =>
    rw [List.filter_cons, List.filter_cons, ← hm.1]
    split
    · exact .cons hm ih
    · exact ih

theorem SlotsMap.get? (h : SlotsMap R ms ms') (name : String) :
    Option.Rel (Slot.Maps R (Slot.ofKeyword? name)) (Members.get? ms name) (Members.get? ms' name) := by
  induction h with
  | nil => exact .none
  | @cons m m' r r' hm _ ih =>
    obtain ⟨k, v⟩ := m
    obtain ⟨k', v'⟩ := m'
    obtain ⟨rfl, hv⟩ := hm
    by_cases hk : k = name
    · subst hk
      simpa [Members.get?] using Option.Rel.some hv
    · simpa [Members.get?, hk] using ih

end Members

end KubeSchema
