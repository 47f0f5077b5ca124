import KubeSchema.Proofs.Location
import KubeSchema.Proofs.Violations
import KubeSchema.Proofs.Relocation

/-!
# Faults of a document

A document fails with the fault of the first value in its slots that fails, and else with the fault of its own
settling. On its own, a value fails with the same violation, at the place where it stands in the value.

* `fault?_restructureSlots`: the slots of an object fail as the first of their values does.
* `restructureAt_fault`: the fault of a document, wherever it stands, and what it is made of.
-/

namespace KubeSchema

/-! ## Faults of computations -/

namespace Run

variable {α β γ : Type}

/-- The fault that a computation fails with. -/
def fault? (x : Run α) : Option Fault :=
  match x.outcome with
  | .error e => some e
  | .ok _ => none

theorem fault?_eq_some {x : Run α} {e : Fault} : x.fault? = some e ↔ x.outcome = .error e := by
  unfold fault?
  cases x.outcome <;> simp

theorem fault?_eq_none {x : Run α} : x.fault? = none ↔ ∃ a, x.outcome = .ok a := by
  unfold fault?
  cases x.outcome <;> simp

@[simp] theorem fault?_pure (a : α) : (pure a : Run α).fault? = none := rfl

@[simp] theorem fault?_map (f : α → β) (x : Run α) : (f <$> x).fault? = x.fault? := by
  unfold fault?
  rw [Traced.outcome_map]
  cases x.outcome <;> rfl

theorem fault?_bind_of_ok {x : Run α} {f : α → Run β} {a : α} (h : x.outcome = .ok a) :
    (x >>= f).fault? = (f a).fault? := by
  unfold fault?
  rw [Traced.outcome_bind, h]
  rfl

theorem fault?_bind_of_error {x : Run α} {f : α → Run β} {e : Fault} (h : x.outcome = .error e) :
    (x >>= f).fault? = some e := by
  rw [fault?_eq_some, Traced.outcome_bind, h]
  rfl

/-- Of two computations, the first that fails makes the fault. -/
theorem fault?_pair (x : Run α) (y : Run β) (g : α → β → γ) :
    (x >>= fun a => y >>= fun b => pure (g a b)).fault? = x.fault?.or y.fault? := by
  cases h : x.outcome with
  | error e => rw [fault?_bind_of_error h, fault?_eq_some.2 h, Option.some_or]
  | ok a => rw [fault?_bind_of_ok h, bind_pure_comp, fault?_map, fault?_eq_none.2 ⟨a, h⟩, Option.none_or]

theorem fault?_relocate (p : Pointer) (x : Run α) : (relocate p x).fault? = x.fault?.map (Fault.relocate p) := by
  unfold fault? relocate
  cases x.outcome <;> rfl

end Run

/-! ## Faults of slots -/

namespace Options

open Run

variable {o : Options}

/-- The fault of a value below a place, which a pointer leads to. -/
def faultBelow? (o : Options) (path : Pointer) (c : Pointer × Json) : Option Fault :=
  (o.restructureAt (path ++ c.1) c.2).fault?

theorem faultBelow?_eq_map (path : Pointer) (c : Pointer × Json) :
    o.faultBelow? path c = (o.restructure c.2).fault?.map (Fault.relocate (path ++ c.1)) := by
  have h := restructureAt_append (o := o) (path ++ c.1) [] c.2
  rw [List.append_nil] at h
  rw [faultBelow?, h, fault?_relocate]
  rfl

theorem faultBelow?_append (path : Pointer) (token : String) :
    o.faultBelow? (path ++ [token]) = o.faultBelow? path ∘ fun c => (token :: c.1, c.2) := by
  funext c
  rw [Function.comp_apply, faultBelow?, faultBelow?, List.append_assoc]
  rfl

theorem fault?_restructureItems (path : Pointer) (index : Nat) (xs : List Json) :
    (o.restructureItems path index xs).fault? = (locatedItems index xs).findSome? (o.faultBelow? path) := by
  induction xs generalizing index with
  | nil => rfl
  | cons x xs ih =>
    rw [restructureItems, fault?_pair, ih, locatedItems, List.findSome?_cons]
    cases h : o.faultBelow? path ([Pointer.index index], x) <;> rw [faultBelow?] at h <;> simp [h]

theorem fault?_restructureEntries (path : Pointer) (ms : Members Json) :
    (o.restructureEntries path ms).fault? =
      (ms.map (fun m => ([m.1], m.2))).findSome? (o.faultBelow? path) := by
  induction ms with
  | nil => rfl
  | cons m ms ih =>
    rw [restructureEntries, fault?_pair, ih, List.map_cons, List.findSome?_cons]
    cases h : o.faultBelow? path ([m.1], m.2) <;> rw [faultBelow?] at h <;> simp [h]

theorem fault?_restructureSlot (path : Pointer) (keyword : String) (v : Json) :
    (o.restructureSlot path keyword v).fault? =
      (Slot.located (Slot.ofKeyword? keyword) v).findSome? (o.faultBelow? (path ++ [keyword])) := by
  have item (v : Json) : (o.restructureAt (path ++ [keyword]) v).fault? =
      [(([] : Pointer), v)].findSome? (o.faultBelow? (path ++ [keyword])) := by
    rw [List.findSome?_singleton, faultBelow?, List.append_nil]
  unfold restructureSlot
  rcases Slot.ofKeyword? keyword with _ | shape
  · cases v <;> rfl
  · cases shape <;> cases v
    case list.arr xs => exact (fault?_map _ _).trans (fault?_restructureItems _ 0 xs)
    case schemaOrList.arr xs => exact (fault?_map _ _).trans (fault?_restructureItems _ 0 xs)
    case map.obj ms => exact (fault?_map _ _).trans (fault?_restructureEntries _ ms)
    all_goals first | rfl | exact item _

/-- The slots of an object fail as the first of their values does. -/
theorem fault?_restructureSlots (path : Pointer) (ms : Members Json) :
    (o.restructureSlots path ms).fault? = (Members.located ms).findSome? (o.faultBelow? path) := by
  induction ms with
  | nil => rfl
  | cons m ms ih =>
    obtain ⟨keyword, v⟩ := m
    rw [restructureSlots_cons, fault?_pair, fault?_restructureSlot, ih, Members.located_cons,
      List.findSome?_append, List.findSome?_map, faultBelow?_append]

/-! ## Faults of documents -/

theorem outcome_restructureAt_eq_error {v : Json} {path : Pointer} {e : Fault} :
    (o.restructureAt path v).outcome = .error e ↔
      ∃ e', (o.restructure v).outcome = .error e' ∧ e'.relocate path = e := by
  have h := faultBelow?_eq_map (o := o) path ([], v)
  rw [faultBelow?, List.append_nil] at h
  rw [← fault?_eq_some, h, Option.map_eq_some_iff]
  simp only [fault?_eq_some]

/-- An object fails as its slots do, and else as its own settling. -/
theorem fault?_restructureAt_obj (path : Pointer) (ms : Members Json) {e : Fault} :
    (o.restructureAt path (.obj ms)).fault? = some e ↔
      (o.restructureSlots path ms).fault? = some e ∨
        ∃ ms', (o.restructureSlots path ms).outcome = .ok ms' ∧ (o.restructureMembers path ms').fault? = some e := by
  rw [restructureAt]
  cases h : (o.restructureSlots path ms).outcome with
  | error e' =>
    rw [fault?_bind_of_error h, fault?_eq_some.2 h]
    simp
  | ok ms' =>
    rw [fault?_bind_of_ok h, bind_pure_comp, fault?_map, fault?_eq_none.2 ⟨ms', h⟩]
    simp

theorem faultBelow?_eq_none {path : Pointer} {c : Pointer × Json} :
    o.faultBelow? path c = none ↔ ∃ r, (o.restructure c.2).outcome = .ok r := by
  rw [faultBelow?_eq_map, Option.map_eq_none_iff, fault?_eq_none]

/-- An object fails if a value in a slot fails on its own. -/
theorem exists_fault_of_located {ms : Members Json} {c : Pointer × Json} {e : Fault} (hc : c ∈ Members.located ms)
    (he : (o.restructure c.2).outcome = .error e) (path : Pointer) :
    ∃ e', (o.restructureAt path (.obj ms)).outcome = .error e' := by
  cases hslots : (o.restructureSlots path ms).fault? with
  | none =>
    rw [fault?_restructureSlots] at hslots
    obtain ⟨r, hr⟩ := faultBelow?_eq_none.1 (List.findSome?_eq_none_iff.1 hslots c hc)
    cases he.symm.trans hr
  | some e' => exact ⟨e', fault?_eq_some.1 ((fault?_restructureAt_obj path ms).2 (.inl hslots))⟩

/-- The fault of an object is that of the first value in a slot that fails, or its own if none does. -/
theorem fault_of_obj {ms : Members Json} {path : Pointer} {e : Fault}
    (he : (o.restructureAt path (.obj ms)).outcome = .error e) :
    (∃ before t c after e', Members.located ms = before ++ (t, c) :: after ∧
      (∀ b ∈ before, ∃ r, (o.restructure b.2).outcome = .ok r) ∧
      (o.restructure c).outcome = .error e' ∧ e'.relocate (path ++ t) = e) ∨
    (∀ c ∈ Members.located ms, ∃ r, (o.restructure c.2).outcome = .ok r) ∧
      ∃ ms', (o.restructureSlots path ms).outcome = .ok ms' ∧ (o.restructureMembers path ms').outcome = .error e := by
  rcases (fault?_restructureAt_obj path ms).1 (fault?_eq_some.2 he) with hslots | ⟨ms', hslots, hown⟩
  · left
    rw [fault?_restructureSlots] at hslots
    obtain ⟨before, ⟨t, c⟩, after, hsplit, hc, hbefore⟩ := List.findSome?_eq_some_iff.1 hslots
    rw [faultBelow?_eq_map, Option.map_eq_some_iff] at hc
    obtain ⟨e', he', hplace⟩ := hc
    exact ⟨before, t, c, after, e', hsplit, fun b hb => faultBelow?_eq_none.1 (hbefore b hb), fault?_eq_some.1 he',
      hplace⟩
  · right
    have hnone : (o.restructureSlots path ms).fault? = none := fault?_eq_none.2 ⟨ms', hslots⟩
    rw [fault?_restructureSlots] at hnone
    exact ⟨fun c hc => faultBelow?_eq_none.1 (List.findSome?_eq_none_iff.1 hnone c hc), ms', hslots,
      fault?_eq_some.1 hown⟩

/-- Where a document stands decides on nothing but the place of its fault, which is a violation at a place inside the
document. An object fails if a value in a slot fails on its own. Its fault is either that of the first such value, found
at the place of that value, or its own, and then every value in a slot has a result. -/
theorem restructureAt_fault (o : Options) (p q : Pointer) {v : Json} (hd : v.hasDistinctNames = true) :
    (∀ r, (o.restructureAt p v).outcome = .ok r ↔ (o.restructureAt q v).outcome = .ok r) ∧
    (∀ e, (o.restructureAt p v).outcome = .error e → ∃ cause place, e = .violation cause (p ++ place) ∧
      (o.restructureAt q v).outcome = .error (.violation cause (q ++ place))) ∧
    ∀ ms, v = .obj ms →
      (∀ c ∈ Members.located ms, ∀ e, (o.restructure c.2).outcome = .error e →
        ∃ e', (o.restructureAt p v).outcome = .error e') ∧
      ∀ e, (o.restructureAt p v).outcome = .error e →
        (∃ before t c after cause place, Members.located ms = before ++ (t, c) :: after ∧
          (∀ b ∈ before, ∃ r, (o.restructure b.2).outcome = .ok r) ∧
          (o.restructure c).outcome = .error (.violation cause place) ∧ e = .violation cause (p ++ t ++ place)) ∨
        (∀ c ∈ Members.located ms, ∃ r, (o.restructure c.2).outcome = .ok r) ∧
          ∃ ms', (o.restructureSlots p ms).outcome = .ok ms' ∧ (o.restructureMembers p ms').outcome = .error e := by
  refine ⟨fun r => (restructureAt_eq_ok_iff p).trans (restructureAt_eq_ok_iff q).symm, fun e he => ?_, ?_⟩
  · obtain ⟨e', he', rfl⟩ := outcome_restructureAt_eq_error.1 he
    obtain ⟨cause, place, rfl⟩ := onlyViolates_restructureAt hd [] e' he'
    exact ⟨cause, place, rfl, outcome_restructureAt_eq_error.2 ⟨_, he', rfl⟩⟩
  · rintro ms rfl
    refine ⟨fun c hc e he => exists_fault_of_located hc he p, fun e he => ?_⟩
    refine (fault_of_obj he).imp_left ?_
    rintro ⟨before, t, c, after, e', hsplit, hbefore, he', rfl⟩
    have hmem : (t, c) ∈ Members.located ms := hsplit ▸ List.mem_append_right _ List.mem_cons_self
    have hdc : c.hasDistinctNames = true := Json.hasDistinctNames_child hd (Members.mem_children_of_located hmem)
    obtain ⟨cause, place, rfl⟩ := onlyViolates_restructureAt hdc [] e' he'
    exact ⟨before, t, c, after, cause, place, hsplit, hbefore, he', rfl⟩

/-- A property with both unions fails in an object as on its own, below the place of the object. -/
theorem restructureAt_fault_property :
    let c : Json := .obj [("oneOf", .arr [.obj []]), ("anyOf", .arr [.obj []])]
    let v : Json := .obj [("properties", .obj [("a", c)])]
    v.hasDistinctNames = true ∧
      (Options.restructure {} c).outcome = .error (.violation .conflictingUnions []) ∧
      (Options.restructureAt {} ["spec"] v).outcome =
        .error (.violation .conflictingUnions ["spec", "properties", "a"]) ∧
      (∃ cause place, Fault.violation .conflictingUnions ["spec", "properties", "a"] =
          .violation cause (["spec"] ++ place) ∧
        (Options.restructureAt {} ["status"] v).outcome = .error (.violation cause (["status"] ++ place))) ∧
      ∃ e, (Options.restructureAt {} ["spec"] v).outcome = .error e := by
  intro c v
  have hc : (Options.restructure {} c).outcome = .error (.violation .conflictingUnions []) := rfl
  have hv : (Options.restructureAt {} ["spec"] v).outcome =
      .error (.violation .conflictingUnions ["spec", "properties", "a"]) := rfl
  obtain ⟨-, hplaces, hslots⟩ := restructureAt_fault {} ["spec"] ["status"] (v := v) rfl
  obtain ⟨hchild, -⟩ := hslots _ rfl
  exact ⟨rfl, hc, hv, hplaces _ hv, hchild (["properties", "a"], c) (List.mem_singleton.2 rfl) _ hc⟩

end Options

end KubeSchema
