import KubeSchema.Proofs.Schema.Transport
import KubeSchema.Proofs.Settle.Regular

/-!
# What restructuring does

A value is restructured after the values in its slots (`Options.Restructures`).

* `Restructures.of_obj`: an object is restructured as a schema object, or only below if it does not read as one.
* `Restructures.hasDistinctNames`: names stay distinct.
* `Restructures.decode_iff`: a value reads as a schema exactly if its result does.
-/

namespace KubeSchema

/-! ## Successful runs -/

namespace Options

/-- A value is restructured, at some place. -/
def Restructures (o : Options) (v r : Json) : Prop := ∃ path, (o.restructureAt path v).outcome = .ok r

variable {o : Options}

theorem restructureItems_eq_ok {path : Pointer} {index : Nat} {xs ys : List Json}
    (h : (o.restructureItems path index xs).outcome = .ok ys) : List.Forall₂ o.Restructures xs ys := by
  induction xs generalizing index ys with
  | nil => cases h; exact .nil
  | cons x xs ih =>
    simp only [restructureItems, Traced.bind_eq_ok, Traced.pure_eq_ok] at h
    obtain ⟨y, hy, ys, hys, rfl⟩ := h
    exact .cons ⟨_, hy⟩ (ih hys)

theorem restructureEntries_eq_ok {path : Pointer} {ms ms' : Members Json}
    (h : (o.restructureEntries path ms).outcome = .ok ms') : Members.Rel o.Restructures ms ms' := by
  induction ms generalizing ms' with
  | nil => cases h; exact .nil
  | cons m ms ih =>
    simp only [restructureEntries, Traced.bind_eq_ok, Traced.pure_eq_ok] at h
    obtain ⟨y, hy, ms', hms, rfl⟩ := h
    exact .cons ⟨rfl, _, hy⟩ (ih hms)

theorem restructureAt_of_not_obj {path : Pointer} {v : Json} (h : ∀ ms, v ≠ .obj ms) :
    o.restructureAt path v = pure v := by
  cases v <;> first | rfl | exact absurd rfl (h _)

theorem restructureAt_obj_eq_ok {path : Pointer} {ms : Members Json} {r : Json}
    (h : (o.restructureAt path (.obj ms)).outcome = .ok r) :
    ∃ ms' ms'', (o.restructureSlots path ms).outcome = .ok ms' ∧ (o.restructureMembers path ms').outcome = .ok ms'' ∧
      r = .obj ms'' := by
  simp only [restructureAt, Traced.bind_eq_ok, Traced.pure_eq_ok] at h
  obtain ⟨ms', hslots, ms'', hmembers, rfl⟩ := h
  exact ⟨ms', ms'', hslots, hmembers, rfl⟩

theorem Restructures.of_not_obj {v r : Json} (h : o.Restructures v r) (hv : ∀ ms, v ≠ .obj ms) : r = v := by
  obtain ⟨path, h⟩ := h
  rw [restructureAt_of_not_obj hv] at h
  cases h
  rfl

theorem Restructures.exists_obj {ms : Members Json} {r : Json} (h : o.Restructures (.obj ms) r) :
    ∃ ms', r = .obj ms' := by
  obtain ⟨path, h⟩ := h
  obtain ⟨_, ms'', -, -, rfl⟩ := restructureAt_obj_eq_ok h
  exact ⟨ms'', rfl⟩

theorem Restructures.ne_arr {v r : Json} (h : o.Restructures v r) (hv : ∀ xs, v ≠ .arr xs) : ∀ xs, r ≠ .arr xs := by
  cases v with
  | obj ms =>
    obtain ⟨ms', rfl⟩ := h.exists_obj
    nofun
  | _ =>
    rw [h.of_not_obj nofun]
    exact hv

/-- Restructures the values in the slot of a keyword. -/
def restructureSlot (o : Options) (path : Pointer) (keyword : String) (v : Json) : Run Json :=
  match Slot.ofKeyword? keyword, v with
  | some .schema, v => o.restructureAt (path ++ [keyword]) v
  | some .list, .arr xs => .arr <$> o.restructureItems (path ++ [keyword]) 0 xs
  | some .map, .obj ms => .obj <$> o.restructureEntries (path ++ [keyword]) ms
  | some .schemaOrList, .arr xs => .arr <$> o.restructureItems (path ++ [keyword]) 0 xs
  | some .schemaOrList, v => o.restructureAt (path ++ [keyword]) v
  | _, v => pure v

theorem restructureSlots_cons (path : Pointer) (keyword : String) (v : Json) (ms : Members Json) :
    o.restructureSlots path ((keyword, v) :: ms) = do
      let v ← o.restructureSlot path keyword v
      return (keyword, v) :: (← o.restructureSlots path ms) := by
  conv_lhs => unfold restructureSlots
  unfold restructureSlot
  generalize Slot.ofKeyword? keyword = s
  rcases s with _ | s
  · rfl
  · cases s <;> cases v <;> rfl

theorem restructureSlot_eq_ok {path : Pointer} {keyword : String} {v w : Json}
    (h : (o.restructureSlot path keyword v).outcome = .ok w) :
    Slot.Maps o.Restructures (Slot.ofKeyword? keyword) v w := by
  unfold restructureSlot at h
  split at h
  · next hs => rw [hs]; exact .schema ⟨_, h⟩
  · next hs =>
    obtain ⟨ys, hys, rfl⟩ := Traced.map_eq_ok.1 h
    rw [hs]
    exact .list (restructureItems_eq_ok hys)
  · next hs =>
    obtain ⟨ms', hms', rfl⟩ := Traced.map_eq_ok.1 h
    rw [hs]
    exact .map (restructureEntries_eq_ok hms')
  · next hs =>
    obtain ⟨ys, hys, rfl⟩ := Traced.map_eq_ok.1 h
    rw [hs]
    exact .items (restructureItems_eq_ok hys)
  · next hs hv =>
    rw [hs]
    exact .item hv (Restructures.ne_arr ⟨_, h⟩ hv) ⟨_, h⟩
  · next hschema hitem hlist hmap _ =>
    cases h
    rcases hs : Slot.ofKeyword? keyword with _ | _ | _ | _ | _
    · exact .noSlot
    · exact absurd hs hschema
    · exact .noList (fun xs => hlist xs hs)
    · exact .noMap (fun ms => hmap ms hs)
    · exact absurd hs hitem

theorem restructureSlots_eq_ok {path : Pointer} {ms ms' : Members Json}
    (h : (o.restructureSlots path ms).outcome = .ok ms') : Members.SlotsMap o.Restructures ms ms' := by
  induction ms generalizing ms' with
  | nil => cases h; exact .nil
  | cons m ms ih =>
    obtain ⟨keyword, v⟩ := m
    simp only [restructureSlots_cons, Traced.bind_eq_ok, Traced.pure_eq_ok] at h
    obtain ⟨w, hw, ms', hms, rfl⟩ := h
    exact .cons ⟨rfl, restructureSlot_eq_ok hw⟩ (ih hms)

theorem restructureMembers_eq_ok {path : Pointer} {ms r : Members Json}
    (h : (o.restructureMembers path ms).outcome = .ok r) :
    (∃ e, Node.decode (.obj ms) = .error e ∧ r = ms) ∨
      ∃ n m, Node.decode (.obj ms) = .ok n ∧ (o.settle path n).outcome = .ok m ∧
        (readable m = .ok r ∨ (∃ e, readable m = .error e) ∧ r = ms) := by
  unfold restructureMembers at h
  split at h
  · next e he =>
    obtain ⟨-, -, h⟩ := Traced.bind_eq_ok.1 h
    cases h
    exact .inl ⟨e, he, rfl⟩
  · next n hn =>
    obtain ⟨m, hm, h⟩ := Traced.bind_eq_ok.1 h
    refine .inr ⟨n, m, hn, hm, ?_⟩
    split at h
    · next hr => cases h; exact .inl hr
    · next e he =>
      obtain ⟨-, -, h⟩ := Traced.bind_eq_ok.1 h
      cases h
      exact .inr ⟨⟨e, he⟩, rfl⟩

/-- An object is restructured after the values in its slots. -/
theorem Restructures.slots {ms : Members Json} {r : Json} (h : o.Restructures (.obj ms) r) :
    ∃ path ms' r', Members.SlotsMap o.Restructures ms ms' ∧ (o.restructureMembers path ms').outcome = .ok r' ∧
      r = .obj r' := by
  obtain ⟨path, h⟩ := h
  obtain ⟨ms', r', hslots, hr, rfl⟩ := restructureAt_obj_eq_ok h
  exact ⟨path, ms', r', restructureSlots_eq_ok hslots, hr, rfl⟩

theorem readable_eq_ok {n : ObjectSchema} {ms : Members Json} :
    readable n = .ok ms ↔ n.encode = .ok ms ∧ ∃ m, Node.decode (.obj ms) = .ok m := by
  simp only [readable, bind_eq_ok, mapError_eq_ok, pure_eq_ok]
  constructor
  · rintro ⟨_, he, m, hm, rfl⟩
    exact ⟨he, m, hm⟩
  · rintro ⟨he, m, hm⟩
    exact ⟨ms, he, m, hm, rfl⟩

/-! ## Reading before and after -/

theorem Restructures.eq_null {v r : Json} (h : o.Restructures v r) : v = .null ↔ r = .null := by
  cases v with
  | obj ms =>
    obtain ⟨ms', rfl⟩ := h.exists_obj
    simp
  | _ => rw [h.of_not_obj nofun]

/-- Reading a value as a schema, before its restructuring and afterwards. -/
theorem exists_decode_iff {R : Json → Json → Prop} {ms ms' : Members Json} (h : Members.SlotsMap R ms ms')
    (hnull : ∀ c c', R c c' → (c = .null ↔ c' = .null))
    (hR : ∀ c ∈ Members.children ms, ∀ c', R c c' →
      ((∃ s, Schema.decode c = .ok s) ↔ ∃ s, Schema.decode c' = .ok s)) :
    (∃ n, Node.decode (.obj ms) = .ok n) ↔ ∃ n, Node.decode (.obj ms') = .ok n := by
  let S (c c' : Json) : Prop := R c c' ∧ ((∃ s, Schema.decode c = .ok s) ↔ ∃ s, Schema.decode c' = .ok s)
  have hS : Members.SlotsMap S ms ms' := h.imp (fun c hc c' hr => ⟨hr, hR c hc c' hr⟩)
  constructor
  · rintro ⟨n, hn⟩
    have halike : ReadsAlike S (fun _ _ => True) := fun c c' hr =>
      ⟨(hnull c c' hr.1).1, fun s hs => (hr.2.1 ⟨s, hs⟩).imp fun _ hs' => ⟨hs', trivial⟩⟩
    obtain ⟨n', hn', -⟩ := exists_decode_of_slotsMap halike hS hn
    exact ⟨n', hn'⟩
  · rintro ⟨n, hn⟩
    have halike : ReadsAlike (fun c' c => S c c') (fun _ _ => True) := fun c' c hr =>
      ⟨(hnull c c' hr.1).2, fun s hs => (hr.2.2 ⟨s, hs⟩).imp fun _ hs' => ⟨hs', trivial⟩⟩
    obtain ⟨n', hn', -⟩ := exists_decode_of_slotsMap halike hS.flip hn
    exact ⟨n', hn'⟩

theorem exists_decode_schema_iff {ms : Members Json} :
    (∃ s, Schema.decode (.obj ms) = .ok s) ↔ ∃ n, Node.decode (.obj ms) = .ok n := by
  constructor
  · rintro ⟨s, hs⟩
    rcases Schema.decode_eq_ok.1 hs with ⟨b, h, -⟩ | ⟨_, n, -, hn, -⟩
    · cases h
    · exact ⟨n, hn⟩
  · rintro ⟨n, hn⟩
    exact ⟨_, Schema.decode_of_node hn⟩

/-- A value reads as a schema exactly if its result does. -/
theorem Restructures.decode_iff {v r : Json} (h : o.Restructures v r) :
    (∃ s, Schema.decode v = .ok s) ↔ ∃ s, Schema.decode r = .ok s := by
  induction v using Json.induction generalizing r with
  | h v ih =>
    cases v with
    | obj ms =>
      obtain ⟨path, ms', r', hslots, hr, rfl⟩ := h.slots
      have hms : (∃ n, Node.decode (.obj ms) = .ok n) ↔ ∃ n, Node.decode (.obj ms') = .ok n :=
        exists_decode_iff hslots (fun _ _ => eq_null) (fun c hc _ hr => ih c hc hr)
      rw [exists_decode_schema_iff, exists_decode_schema_iff, hms]
      rcases restructureMembers_eq_ok hr with ⟨e, -, rfl⟩ | ⟨n, m, hn, -, hread | ⟨-, rfl⟩⟩
      · rfl
      · exact iff_of_true ⟨n, hn⟩ (readable_eq_ok.1 hread).2
      · rfl
    | _ => rw [h.of_not_obj nofun]

/-- The result names no member twice, if the value does not. -/
theorem Restructures.hasDistinctNames {v r : Json} (h : o.Restructures v r) (hv : v.hasDistinctNames = true) :
    r.hasDistinctNames = true := by
  induction v using Json.induction generalizing r with
  | h v ih =>
    cases v with
    | obj ms =>
      obtain ⟨path, ms', r', hslots, hr, rfl⟩ := h.slots
      have hS := hslots.imp (S := fun c c' => c.hasDistinctNames = true → c'.hasDistinctNames = true)
        (fun c hc c' hr => ih c hc hr)
      have hms : (Json.obj ms').hasDistinctNames = true := hS.hasDistinctNames hv (fun _ _ h => h)
      rcases restructureMembers_eq_ok hr with ⟨e, -, rfl⟩ | ⟨n, m, hn, hm, hread | ⟨-, rfl⟩⟩
      · exact hms
      · exact hasDistinctNames_of_settle (regular_of_decode hms hn) hm (readable_eq_ok.1 hread).1
      · exact hms
    | _ => rw [h.of_not_obj nofun]; exact hv

/-! ## Objects -/

/-- The children before and after the values in slots were restructured. -/
def Rewrites (o : Options) (ms : Members Json) (s s' : Schema) : Prop :=
  ∃ x ∈ Members.children ms, ∃ x', o.Restructures x x' ∧ Schema.decode x = .ok s ∧ Schema.decode x' = .ok s'

/-- An object that reads as a schema object still does after the values in its slots were restructured. -/
theorem exists_decode_of_slots {ms ms' : Members Json} {n : ObjectSchema}
    (h : Members.SlotsMap o.Restructures ms ms') (hn : Node.decode (.obj ms) = .ok n) :
    ∃ n', Node.decode (.obj ms') = .ok n' ∧ ∀ k : Keyword, k.Rel (o.Rewrites ms) (n.field k) (n'.field k) := by
  have hS := h.imp (S := fun c c' => o.Restructures c c' ∧ c ∈ Members.children ms) (fun c hc c' hr => ⟨hr, hc⟩)
  refine exists_decode_of_slotsMap (fun c c' hr => ⟨hr.1.eq_null.1, fun s hs => ?_⟩) hS hn
  obtain ⟨s', hs'⟩ := hr.1.decode_iff.1 ⟨s, hs⟩
  exact ⟨s', hs', c, hr.2, c', hr.1, hs, hs'⟩

/-- A boolean schema stays, and a schema object stays one. -/
theorem Rewrites.cases {ms : Members Json} {s s' : Schema} (h : o.Rewrites ms s s') :
    (∃ b, s = .bool b ∧ s' = .bool b) ∨
      ∃ x ∈ Members.children ms, ∃ x' n n', o.Restructures x x' ∧ Node.decode x = .ok n ∧ Node.decode x' = .ok n' ∧
        s = .object n ∧ s' = .object n' := by
  obtain ⟨x, hx, x', hr, hs, hs'⟩ := h
  rcases Schema.decode_eq_ok.1 hs with ⟨b, rfl, rfl⟩ | ⟨_, n, rfl, hn, rfl⟩
  · cases hr.of_not_obj nofun
    cases hs'
    exact .inl ⟨b, rfl, rfl⟩
  · obtain ⟨_, rfl⟩ := hr.exists_obj
    rcases Schema.decode_eq_ok.1 hs' with ⟨b, h, -⟩ | ⟨_, n', -, hn', rfl⟩
    · cases h
    · exact .inr ⟨_, hx, _, n, n', hr, hn, hn', rfl, rfl⟩

/-- An object is restructured as a schema object, or only below if it does not read as one. -/
theorem Restructures.of_obj {ms : Members Json} {r : Json} (hkey : isVendor o.preserveKey = true)
    (hd : (Json.obj ms).hasDistinctNames = true) (h : o.Restructures (.obj ms) r) :
    ∃ ms', Members.SlotsMap o.Restructures ms ms' ∧ (Json.obj ms').hasDistinctNames = true ∧
      ((∃ e, Node.decode (.obj ms') = .error e ∧ r = .obj ms') ∨
        ∃ path n m, Node.decode (.obj ms') = .ok n ∧ (o.settle path n).outcome = .ok m ∧
          m.toJson = .ok r ∧ Node.decode r = .ok m) := by
  obtain ⟨path, ms', r', hslots, hr, rfl⟩ := h.slots
  have hms : (Json.obj ms').hasDistinctNames = true :=
    hslots.hasDistinctNames hd (fun _ _ h => h.hasDistinctNames)
  refine ⟨ms', hslots, hms, ?_⟩
  rcases restructureMembers_eq_ok hr with ⟨e, he, rfl⟩ | ⟨n, m, hn, hm, hread⟩
  · exact .inl ⟨e, he, rfl⟩
  · refine .inr ⟨path, n, m, hn, hm, ?_⟩
    obtain ⟨x, hx, hdx, -⟩ := exists_encode (regular_of_settle hkey (regular_of_decode hms hn) hm)
    obtain ⟨ms'', he, rfl⟩ := map_eq_ok.1 hx
    have hdm : Node.decode (.obj ms'') = .ok m := Schema.decode_object hdx
    rcases hread with hread | ⟨⟨e, hread⟩, -⟩
    · cases he.symm.trans (readable_eq_ok.1 hread).1
      exact ⟨hx, hdm⟩
    · rw [readable_eq_ok.2 ⟨he, m, hdm⟩] at hread
      cases hread

end Options

end KubeSchema
