import KubeSchema.Proofs.Permuted.Settle
import KubeSchema.Proofs.Relocation

/-!
# The order of variants does not matter

An object is restructured in the same way whatever the order of its variants: either none of the orders can be, or the
results are the same but for the order of members and, in the object itself, that of the variants that remain and of the
values. The variants are hoisted one after the other, so which of several violations is reported may differ.

* `restructureAt_of_permutes`: an object at any place, and the same one with its variants in another order.
-/

namespace KubeSchema

namespace Options

variable {o : Options} {path : Pointer} {ms ms' : Members Json}

/-- Whatever comes of an object comes of it with its variants in another order as well. -/
theorem exists_restructureAt_of_permutes {r : Json} (hd : (Json.obj ms).hasDistinctNames = true)
    (h : ms.Permutes variantNames ms') (hr : (o.restructureAt path (.obj ms)).outcome = .ok r) :
    ∃ s s' : Members Json, r = .obj s ∧ (o.restructureAt path (.obj ms')).outcome = .ok (.obj s') ∧ s.Reordered s' := by
  -- The variants are restructured before it is asked which of them is hoisted, each for itself.
  obtain ⟨l, s, hslots, hs, rfl⟩ := restructureAt_obj_eq_ok hr
  have hl := restructureSlots_eq_ok hslots
  obtain ⟨l', hl', hpermutes⟩ := h.exists_slotsMap ofKeyword?_of_mem_variantNames hl
  have hdl := hl.hasDistinctNames hd fun _ _ hc => hc.hasDistinctNames
  have hfollows : Run.Follows Members.Reordered (o.restructureMembers path l) (o.restructureMembers path l') :=
    follows_restructureMembers_of_permutes hdl hpermutes
  obtain ⟨s', hs', hreordered⟩ := hfollows s hs
  refine ⟨s, s', rfl, ?_, hreordered⟩
  rw [restructureAt, Traced.bind_eq_ok]
  exact ⟨l', restructureSlots_of_slotsMap hl' path, Traced.bind_eq_ok.2 ⟨s', hs', rfl⟩⟩

/-- An object is restructured as the same one with its variants in another order, or both violate a rule. -/
theorem restructureAt_of_permutes (o : Options) (path : Pointer) (hd : (Json.obj ms).hasDistinctNames = true)
    (h : ms.Permutes variantNames ms') :
    (∃ r r' : Members Json, (o.restructureAt path (.obj ms)).outcome = .ok (.obj r) ∧
        (o.restructureAt path (.obj ms')).outcome = .ok (.obj r') ∧ r.Reordered r') ∨
      ∃ cause place cause' place', (o.restructureAt path (.obj ms)).outcome = .error (.violation cause place) ∧
        (o.restructureAt path (.obj ms')).outcome = .error (.violation cause' place') := by
  have hd' := h.hasDistinctNames hd
  cases hr : (o.restructureAt path (.obj ms)).outcome with
  | ok r =>
    obtain ⟨s, s', rfl, hs', hreordered⟩ := exists_restructureAt_of_permutes hd h hr
    exact .inl ⟨s, s', rfl, hs', hreordered⟩
  | error e =>
    cases hr' : (o.restructureAt path (.obj ms')).outcome with
    | ok r' =>
      obtain ⟨_, s, -, hs, -⟩ := exists_restructureAt_of_permutes hd' h.symm hr'
      cases hr.symm.trans hs
    | error e' =>
      obtain ⟨cause, place, rfl⟩ := onlyViolates_restructureAt hd path e hr
      obtain ⟨cause', place', rfl⟩ := onlyViolates_restructureAt hd' path e' hr'
      exact .inr ⟨cause, place, cause', place', rfl, rfl⟩

/-- Two tagged variants that declare one tag with its members in two orders, the first of which is kept. -/
theorem restructureAt_of_permutes_tags :
    let left : Json := .obj [
      ("properties", .obj [("at", .obj [("type", .str "string"), ("title", .str "Place")])]),
      ("required", .arr [.str "at"])]
    let right : Json := .obj [
      ("properties", .obj [("at", .obj [("title", .str "Place"), ("type", .str "string")])]),
      ("maxProperties", .int 1)]
    let ms : Members Json := [("oneOf", .arr [left, right])]
    let ms' : Members Json := [("oneOf", .arr [right, left])]
    ms ≠ ms' ∧ (Json.obj ms).hasDistinctNames = true ∧ ms.Permutes variantNames ms' ∧
      ∃ r r' : Members Json, (Options.restructureAt {} ["spec"] (.obj ms)).outcome = .ok (.obj r) ∧
        (Options.restructureAt {} ["spec"] (.obj ms')).outcome = .ok (.obj r') ∧ r.Reordered r' := by
  intro left right ms ms'
  have hne : ms ≠ ms' := by simp [ms, ms', left, right]
  have hd : (Json.obj ms).hasDistinctNames = true := rfl
  have h : ms.Permutes variantNames ms' := .cons ⟨rfl, .inr ⟨by decide, .arr (.swap right left [])⟩⟩ .nil
  refine ⟨hne, hd, h, ?_⟩
  have hok : (Options.restructureAt {} ["spec"] (.obj ms)).outcome.isOk = true := by decide +kernel
  rcases restructureAt_of_permutes {} ["spec"] hd h with hpermuted | ⟨cause, place, _, _, hviolation, -⟩
  · exact hpermuted
  · rw [hviolation] at hok
    cases hok

-- The variant that is found at fault is the first one that does not go along with those before it.
example :
    let run (variants : List Json) := (Options.restructureAt {} [] (.obj [("oneOf", .arr variants)])).outcome
    run [.bool true, .obj [("minProperties", .int 1)]] ≠ run [.obj [("minProperties", .int 1)], .bool true] := by
  decide

end Options

end KubeSchema
