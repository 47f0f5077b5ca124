import KubeSchema.Proofs.Alike.Settle
import KubeSchema.Proofs.Relocation

/-!
# The order of members does not matter

Documents that are alike are restructured into documents that are alike, or none of them is restructured. The values in
slots are visited in the order of the members, so which of several violations is reported may differ.

* `exists_maps_of_alike`, `exists_slotsMap_of_alike`: the values in one slot, and in all the slots of an object.
* `restructuresAlike`: a document, by induction on the values in slots.
* `restructure_of_alike`: two documents that are alike.
-/

namespace KubeSchema

open Json (Alike)

namespace Options

variable {o : Options}

/-- Whatever is like a value with distinct names is restructured like that value. -/
def RestructuresAlike (o : Options) (v : Json) : Prop :=
  ∀ v' r, v.hasDistinctNames = true → v'.hasDistinctNames = true → v.Alike v' → o.Restructures v r →
    ∃ r', o.Restructures v' r' ∧ r.Alike r'

/-! ## Values in slots -/

theorem exists_items_of_alike {xs xs' ys : List Json} (h : List.Forall₂ Alike xs xs')
    (hd : ∀ x ∈ xs, x.hasDistinctNames = true) (hd' : ∀ x ∈ xs', x.hasDistinctNames = true)
    (hstep : ∀ x ∈ xs, o.RestructuresAlike x) (hy : List.Forall₂ o.Restructures xs ys) :
    ∃ ys', List.Forall₂ o.Restructures xs' ys' ∧ List.Forall₂ Alike ys ys' := by
  induction h generalizing ys with
  | nil => cases hy; exact ⟨[], .nil, .nil⟩
  | cons hxx' _ ih =>
    cases hy with
    | cons hr hy =>
      obtain ⟨hdx, hd⟩ := List.forall_mem_cons.1 hd
      obtain ⟨hdx', hd'⟩ := List.forall_mem_cons.1 hd'
      obtain ⟨hx, hstep⟩ := List.forall_mem_cons.1 hstep
      obtain ⟨y', hr', hyy'⟩ := hx _ _ hdx hdx' hxx' hr
      obtain ⟨ys', hy', hlike⟩ := ih hd hd' hstep hy
      exact ⟨y' :: ys', .cons hr' hy', .cons hyy' hlike⟩

/-- A list in a slot for lists, and one that is alike. -/
theorem exists_arr_of_items {xs ys : List Json} {v' : Json} (h : (Json.arr xs).Alike v')
    (hd : (Json.arr xs).hasDistinctNames = true) (hd' : v'.hasDistinctNames = true)
    (hstep : ∀ x ∈ xs, o.RestructuresAlike x) (hy : List.Forall₂ o.Restructures xs ys) :
    ∃ xs' ys', v' = .arr xs' ∧ List.Forall₂ o.Restructures xs' ys' ∧ (Json.arr ys).Alike (.arr ys') := by
  obtain ⟨xs', hv', hxs⟩ := exists_arr_of_alike (.some h)
  cases hv'
  obtain ⟨ys', hys', hlike⟩ :=
    exists_items_of_alike hxs (Json.hasDistinctNames_arr.1 hd) (Json.hasDistinctNames_arr.1 hd') hstep hy
  exact ⟨xs', ys', rfl, hys', Json.alike_arr.2 hlike⟩

theorem not_arr_of_alike {v v' : Json} (h : v.Alike v') (hv : ∀ xs, v ≠ .arr xs) : ∀ xs, v' ≠ .arr xs := by
  rintro xs rfl
  obtain ⟨ys, hys, -⟩ := exists_arr_of_alike (.some h.symm)
  exact hv ys (Option.some.inj hys)

theorem not_obj_of_alike {v v' : Json} (h : v.Alike v') (hv : ∀ ms, v ≠ .obj ms) : ∀ ms, v' ≠ .obj ms := by
  rintro ms rfl
  obtain ⟨ms', hms', -⟩ := exists_obj_of_alike (.some h.symm)
  exact hv ms' (Option.some.inj hms')

theorem exists_maps_of_alike {s : Option Slot} {v v' w : Json} (h : v.Alike v') (hd : v.hasDistinctNames = true)
    (hd' : v'.hasDistinctNames = true) (hstep : ∀ c ∈ Slot.values s v, o.RestructuresAlike c)
    (hw : Slot.Maps o.Restructures s v w) : ∃ w', Slot.Maps o.Restructures s v' w' ∧ w.Alike w' := by
  cases hw with
  | schema hr =>
    obtain ⟨w', hr', hww'⟩ := hstep _ (List.mem_singleton.2 rfl) _ _ hd hd' h hr
    exact ⟨w', .schema hr', hww'⟩
  | list hys =>
    obtain ⟨xs', ys', rfl, hys', hlike⟩ := exists_arr_of_items h hd hd' hstep hys
    exact ⟨.arr ys', .list hys', hlike⟩
  | items hys =>
    obtain ⟨xs', ys', rfl, hys', hlike⟩ := exists_arr_of_items h hd hd' hstep hys
    exact ⟨.arr ys', .items hys', hlike⟩
  | map hms =>
    obtain ⟨ms', hv', -⟩ := exists_obj_of_alike (.some h)
    cases hv'
    obtain ⟨hn, hdv⟩ := Json.hasDistinctNames_obj.1 hd
    obtain ⟨hn', hdv'⟩ := Json.hasDistinctNames_obj.1 hd'
    have hentry : ∀ name a b c, (name, a) ∈ _ → (name, b) ∈ ms' → a.Alike b → o.Restructures a c →
        ∃ d, o.Restructures b d ∧ c.Alike d := fun name a b c ha hb hab hr =>
      hstep a (List.mem_map_of_mem ha) b c (hdv _ ha) (hdv' _ hb) hab hr
    obtain ⟨l', hl', hlike⟩ := ((Json.alike_obj hn hn').1 h).exists_rel hms hentry
    exact ⟨.obj l', .map hl', (Json.alike_obj hlike.left hlike.right).2 hlike⟩
  | item hv _ hr =>
    have hvalue : v ∈ Slot.values (some .schemaOrList) v := by
      rw [Slot.values_schemaOrList hv]
      exact List.mem_singleton.2 rfl
    obtain ⟨w', hr', hww'⟩ := hstep v hvalue _ _ hd hd' h hr
    have hv' := not_arr_of_alike h hv
    exact ⟨w', .item hv' (hr'.ne_arr hv') hr', hww'⟩
  | noList hv => exact ⟨v', .noList (not_arr_of_alike h hv), h⟩
  | noMap hv => exact ⟨v', .noMap (not_obj_of_alike h hv), h⟩
  | noSlot => exact ⟨v', .noSlot, h⟩

/-- The values in the slots of an object are restructured like the ones in the slots of an object that is alike. -/
theorem exists_slotsMap_of_alike {ms ms' l : Members Json} (h : (Json.obj ms).Alike (.obj ms'))
    (hd : (Json.obj ms).hasDistinctNames = true) (hd' : (Json.obj ms').hasDistinctNames = true)
    (hstep : ∀ c ∈ Members.children ms, o.RestructuresAlike c) (hl : Members.SlotsMap o.Restructures ms l) :
    ∃ l', Members.SlotsMap o.Restructures ms' l' ∧ (Json.obj l).Alike (.obj l') := by
  obtain ⟨hn, hdv⟩ := Json.hasDistinctNames_obj.1 hd
  obtain ⟨hn', hdv'⟩ := Json.hasDistinctNames_obj.1 hd'
  -- What becomes of a value depends on the keyword it is under, so that the relation does as well.
  let R (name : String) := Slot.Maps o.Restructures (Slot.ofKeyword? name)
  have hslot : ∀ name a b c, (name, a) ∈ ms → (name, b) ∈ ms' → a.Alike b → R name a c →
      ∃ d, R name b d ∧ c.Alike d := fun name a b c ha hb hab hac =>
    exists_maps_of_alike hab (hdv _ ha) (hdv' _ hb) (fun x hx => hstep x (List.mem_flatMap.2 ⟨_, ha, hx⟩)) hac
  obtain ⟨l', hl', hlike⟩ := Members.Like.exists_forall₂ (R := R) (S := R) ((Json.alike_obj hn hn').1 h) hl hslot
  exact ⟨l', hl', (Json.alike_obj hlike.left hlike.right).2 hlike⟩

/-! ## Documents -/

theorem restructureAt_of_slotsMap {path : Pointer} {ms ms' r : Members Json}
    (h : Members.SlotsMap o.Restructures ms ms') (hr : (o.restructureMembers path ms').outcome = .ok r) :
    o.Restructures (.obj ms) (.obj r) := by
  refine ⟨path, ?_⟩
  simp only [restructureAt, Traced.bind_eq_ok, Traced.pure_eq_ok]
  exact ⟨ms', restructureSlots_of_slotsMap h path, r, hr, rfl⟩

theorem restructuresAlike (v : Json) : o.RestructuresAlike v := by
  induction v using Json.induction with
  | h v ih =>
    intro v' r hd hd' h hr
    cases v with
    | obj ms =>
      -- The values in slots come first: whether the objects read as schemas is asked of what comes of them.
      obtain ⟨ms', hv', -⟩ := exists_obj_of_alike (.some h)
      cases hv'
      obtain ⟨path, l, r, hl, hmembers, rfl⟩ := hr.slots
      obtain ⟨l', hl', hlike⟩ := exists_slotsMap_of_alike h hd hd' ih hl
      have hdl := hl.hasDistinctNames hd fun _ _ hc => hc.hasDistinctNames
      have hdl' := hl'.hasDistinctNames hd' fun _ _ hc => hc.hasDistinctNames
      have hfollows : Run.Follows (fun r r' => (Json.obj r).Alike (.obj r')) (o.restructureMembers path l)
          (o.restructureMembers path l') := follows_restructureMembers hdl hdl' hlike
      obtain ⟨r', hr', hrlike⟩ := hfollows r hmembers
      exact ⟨.obj r', restructureAt_of_slotsMap hl' hr', hrlike⟩
    | _ =>
      have hv' := not_obj_of_alike h nofun
      rw [hr.of_not_obj nofun]
      exact ⟨v', ⟨[], by rw [restructureAt_of_not_obj hv']; rfl⟩, h⟩

/-- Two documents that are the same up to the order of members are both restructured, into documents that are again, or
both violate a rule. -/
theorem restructure_of_alike {v w : Json} (hv : v.hasDistinctNames = true) (hw : w.hasDistinctNames = true)
    (h : v.Alike w) :
    (∃ r s, (o.restructure v).outcome = .ok r ∧ (o.restructure w).outcome = .ok s ∧ r.Alike s) ∨
      ∃ cause path cause' path', (o.restructure v).outcome = .error (.violation cause path) ∧
        (o.restructure w).outcome = .error (.violation cause' path') := by
  cases hr : (o.restructure v).outcome with
  | ok r =>
    obtain ⟨s, hs, halike⟩ := restructuresAlike v w r hv hw h (restructures_iff.2 hr)
    exact .inl ⟨r, s, rfl, restructures_iff.1 hs, halike⟩
  | error e =>
    cases hs : (o.restructure w).outcome with
    | ok s =>
      obtain ⟨r, hr', -⟩ := restructuresAlike w v s hw hv h.symm (restructures_iff.2 hs)
      cases hr.symm.trans (restructures_iff.1 hr')
    | error e' =>
      obtain ⟨cause, path, rfl⟩ := onlyViolates_restructureAt hv [] e hr
      obtain ⟨cause', path', rfl⟩ := onlyViolates_restructureAt hw [] e' hs
      exact .inr ⟨cause, path, cause', path', rfl, rfl⟩

/-- An optional whose entry carries a title along, with the members in two orders. -/
theorem restructure_of_alike_optional :
    let v : Json := .obj [
      ("description", .str "port"),
      ("anyOf", .arr [
        .obj [("type", .str "string"), ("title", .str "Port")],
        .obj [("enum", .arr [.null]), ("nullable", .bool true)]])]
    let w : Json := .obj [
      ("anyOf", .arr [
        .obj [("title", .str "Port"), ("type", .str "string")],
        .obj [("nullable", .bool true), ("enum", .arr [.null])]]),
      ("description", .str "port")]
    v ≠ w ∧ v.hasDistinctNames = true ∧ w.hasDistinctNames = true ∧ v.Alike w ∧
      ∃ r s, (Options.restructure {} v).outcome = .ok r ∧ (Options.restructure {} w).outcome = .ok s ∧ r.Alike s := by
  intro v w
  have hne : v ≠ w := by simp [v, w]
  have hv : v.hasDistinctNames = true := rfl
  have hw : w.hasDistinctNames = true := rfl
  have h : v.Alike w := rfl
  refine ⟨hne, hv, hw, h, ?_⟩
  rcases restructure_of_alike (o := {}) hv hw h with hok | ⟨cause, path, _, _, hv, -⟩
  · exact hok
  · cases hv

-- The violation that comes first in the order of the members is the one that is reported.
example :
    let odd : Json := .obj [("anyOf", .arr [.bool true, .obj []]), ("oneOf", .arr [.obj [], .obj []])]
    let run (properties : Members Json) := (Options.restructure {} (.obj [("properties", .obj properties)])).outcome
    run [("a", odd), ("b", odd)] ≠ run [("b", odd), ("a", odd)] := by
  decide

end Options

end KubeSchema
