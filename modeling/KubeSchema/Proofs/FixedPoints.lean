import KubeSchema.Proofs.Stable

/-!
# Results that are restructured as themselves

A value yields another one if it is restructured as that at every place (`Options.Yields`). What a stable schema is
written as yields the retyped schema; at the root of a result there is nothing to retype.

* `exists_restructureSlots`: the values in the slots of an object yield others one by one.
* `yields_of_encode`: what a stable schema yields.
* `Restructures.yields_of_stable`: a result all of whose schema objects are stable yields itself.
-/

namespace KubeSchema

namespace Options

open Node

variable {o : Options}

/-! ## Values that yield others -/

/-- A value is restructured as another one, whatever the place. -/
def Yields (o : Options) (v r : Json) : Prop := ∀ path, (o.restructureAt path v).outcome = .ok r

theorem Yields.eq {v r r' : Json} (h : o.Yields v r) (h' : o.Yields v r') : r' = r :=
  Except.ok.inj ((h' []).symm.trans (h []))

theorem Yields.restructures {v r : Json} (h : o.Yields v r) : o.Restructures v r := ⟨[], h []⟩

theorem yields_of_not_obj {v : Json} (h : ∀ ms, v ≠ .obj ms) : o.Yields v v := by
  intro path
  rw [restructureAt_of_not_obj h]
  rfl

theorem exists_restructureItems {xs : List Json} (h : ∀ x ∈ xs, ∃ y, o.Yields x y) :
    ∃ ys, List.Forall₂ o.Yields xs ys ∧ ∀ path index, (o.restructureItems path index xs).outcome = .ok ys := by
  induction xs with
  | nil => exact ⟨[], .nil, fun _ _ => rfl⟩
  | cons x xs ih =>
    obtain ⟨⟨y, hy⟩, hrest⟩ := List.forall_mem_cons.1 h
    obtain ⟨ys, hys, hrun⟩ := ih hrest
    refine ⟨y :: ys, .cons hy hys, fun path index => ?_⟩
    simp only [restructureItems, Traced.bind_eq_ok, Traced.pure_eq_ok]
    exact ⟨y, hy _, ys, hrun _ _, rfl⟩

theorem exists_restructureEntries {ms : Members Json} (h : ∀ x ∈ ms.map Prod.snd, ∃ y, o.Yields x y) :
    ∃ ms', Members.Rel o.Yields ms ms' ∧ ∀ path, (o.restructureEntries path ms).outcome = .ok ms' := by
  induction ms with
  | nil => exact ⟨[], .nil, fun _ => rfl⟩
  | cons m ms ih =>
    obtain ⟨name, x⟩ := m
    obtain ⟨⟨y, hy⟩, hrest⟩ := List.forall_mem_cons.1 h
    obtain ⟨ms', hms, hrun⟩ := ih hrest
    refine ⟨(name, y) :: ms', .cons ⟨rfl, hy⟩ hms, fun path => ?_⟩
    simp only [restructureEntries, Traced.bind_eq_ok, Traced.pure_eq_ok]
    exact ⟨y, hy _, ms', hrun _, rfl⟩

theorem exists_restructureSlot {keyword : String} {v : Json}
    (h : ∀ x ∈ Slot.values (Slot.ofKeyword? keyword) v, ∃ y, o.Yields x y) :
    ∃ w, Slot.Maps o.Yields (Slot.ofKeyword? keyword) v w ∧
      ∀ path, (o.restructureSlot path keyword v).outcome = .ok w := by
  unfold restructureSlot
  split
  · next hs =>
    rw [hs] at h
    obtain ⟨w, hw⟩ := h _ (List.mem_singleton.2 rfl)
    exact ⟨w, hs ▸ .schema hw, fun path => hw _⟩
  · next hs =>
    rw [hs] at h
    obtain ⟨ys, hys, hrun⟩ := exists_restructureItems h
    exact ⟨_, hs ▸ .list hys, fun path => Traced.map_eq_ok.2 ⟨ys, hrun _ _, rfl⟩⟩
  · next hs =>
    rw [hs] at h
    obtain ⟨ms', hms, hrun⟩ := exists_restructureEntries h
    exact ⟨_, hs ▸ .map hms, fun path => Traced.map_eq_ok.2 ⟨ms', hrun _, rfl⟩⟩
  · next hs =>
    rw [hs] at h
    obtain ⟨ys, hys, hrun⟩ := exists_restructureItems h
    exact ⟨_, hs ▸ .items hys, fun path => Traced.map_eq_ok.2 ⟨ys, hrun _ _, rfl⟩⟩
  · next hs hv =>
    rw [hs, Slot.values_schemaOrList hv] at h
    obtain ⟨w, hw⟩ := h _ (List.mem_singleton.2 rfl)
    exact ⟨w, hs ▸ .item hv (hw.restructures.ne_arr hv) hw, fun path => hw _⟩
  · next hschema hitem hlist hmap _ =>
    refine ⟨_, ?_, fun path => rfl⟩
    rcases hs : Slot.ofKeyword? keyword with _ | _ | _ | _ | _
    · exact .noSlot
    · exact absurd hs hschema
    · exact .noList (fun xs => hlist xs hs)
    · exact .noMap (fun ms => hmap ms hs)
    · exact absurd hs hitem

/-- The values in the slots of an object yield others one by one. -/
theorem exists_restructureSlots {ms : Members Json} (h : ∀ x ∈ Members.children ms, ∃ y, o.Yields x y) :
    ∃ ms', Members.SlotsMap o.Yields ms ms' ∧ ∀ path, (o.restructureSlots path ms).outcome = .ok ms' := by
  induction ms with
  | nil => exact ⟨[], .nil, fun _ => rfl⟩
  | cons m ms ih =>
    obtain ⟨keyword, v⟩ := m
    obtain ⟨w, hw, hslot⟩ := exists_restructureSlot fun x hx => h x (List.mem_append_left _ hx)
    obtain ⟨ms', hms, hrun⟩ := ih fun x hx => h x (List.mem_append_right _ hx)
    refine ⟨(keyword, w) :: ms', .cons ⟨rfl, hw⟩ hms, fun path => ?_⟩
    simp only [restructureSlots_cons, Traced.bind_eq_ok, Traced.pure_eq_ok]
    exact ⟨w, hslot _, ms', hrun _, rfl⟩

/-! ## Stable schemas -/

/-- What a schema is written as yields what the retyped schema is written as. -/
def Refreshes (o : Options) (s : Schema) : Prop :=
  ∃ x y, s.encode = .ok x ∧ Schema.decode x = .ok s ∧ s.retyped.encode = .ok y ∧ Schema.decode y = .ok s.retyped ∧
    o.Yields x y

/-- What lets a schema object be restructured as itself, retyped: it is regular, tidy and stable, and the values below
its other keywords yield themselves. -/
structure Settled (o : Options) (n : ObjectSchema) : Prop where
  regular : n.Regular
  tidy : n.Tidy o
  stable : n.Stable o
  other : ∀ x ∈ Members.children n.other, o.Yields x x

variable {n : ObjectSchema}

/-- After its children have yielded what they do, a field reads as that of the retyped ones. -/
theorem exists_readField_of_yields {k : Keyword} {a : k.Value} {v v' : Option Json} (hw : k.writeField a = .ok v)
    (hr : k.readField v = .ok a) (h : Option.Rel (Slot.Maps o.Yields (Slot.ofKeyword? k.name)) v v')
    (hc : ∀ c ∈ k.children a, o.Refreshes c) :
    ∃ a', k.readField v' = .ok a' ∧ k.Rel (fun c c' => c ∈ k.children a ∧ c' = c.retyped) a a' := by
  let S (x y : Json) : Prop := ∃ c ∈ k.children a, Schema.decode x = .ok c ∧ Schema.decode y = .ok c.retyped
  have hS : ReadsAlike S (fun c c' => c ∈ k.children a ∧ c' = c.retyped) := by
    rintro x y ⟨c, hmem, hx, hy⟩
    refine ⟨fun e => absurd e (ne_null_of_decode hx), fun s hs => ?_⟩
    cases hx.symm.trans hs
    exact ⟨_, hy, hmem, rfl⟩
  refine exists_readField_of_maps hS ?_ hr
  cases h with
  | none => exact .none
  | some h =>
    refine .some (h.imp fun x hx y hyield => ?_)
    obtain ⟨c, hmem, hcx⟩ := exists_child_of_written hw hx
    obtain ⟨x', y', hx', hdx, -, hdy, hall⟩ := hc c hmem
    cases hcx.symm.trans hx'
    rw [hall.eq hyield]
    exact ⟨c, hmem, hdx, hdy⟩

theorem retyped_of_child {k : Keyword} (hn : n.Tidy o) (hone : k ≠ .oneOf) (hany : k ≠ .anyOf) {c : Schema}
    (hc : c ∈ k.children (n.field k)) : c.retyped = c := by
  cases c with
  | bool b => rfl
  | object c => exact congrArg Schema.object (hn.typed k hone hany c hc).retyped

theorem eq_map_of_rel {P : Schema → Prop} {a a' : Option (List Schema)}
    (h : Option.Rel (List.Forall₂ (fun c c' => P c ∧ c' = c.retyped)) a a') :
    a' = a.map (List.map Schema.retyped) := by
  cases h with
  | none => rfl
  | some h =>
    refine congrArg some ?_
    induction h with
    | nil => rfl
    | cons hc _ ih => rw [hc.2, ih, List.map_cons]

/-- A tidy schema object reads as the one with retyped variants after its children have yielded what they do. -/
theorem decode_of_yields (hn : (Schema.object n).Everywhere o.Settled) (hc : ∀ c ∈ n.children, o.Refreshes c)
    {ms ms' : Members Json} (hms : n.encode = .ok ms) (hdec : Node.decode (.obj ms) = .ok n)
    (h : Members.SlotsMap o.Yields ms ms') : Node.decode (.obj ms') = .ok n.retypedVariants := by
  obtain ⟨vals, hw, hmembers, -⟩ := encode_eq_ok.1 hms
  have hget (k : Keyword) : Members.get? ms k.name = vals k := by
    rw [hmembers]
    exact get?_written_of_other hn.here.regular.isModeled k
  have hk (k : Keyword) : ∃ a', k.readField (Members.get? ms' k.name) = .ok a' ∧
      k.Rel (fun c c' => c ∈ k.children (n.field k) ∧ c' = c.retyped) (n.field k) a' := by
    have hmaps := h.get? k.name
    rw [hget k] at hmaps
    refine exists_readField_of_yields (hw k) ?_ hmaps fun c hc' => hc c (mem_children.2 ⟨k, hc'⟩)
    rw [← hget k]
    exact (decode_eq_ok.1 hdec).1 k
  choose f hf hrel using hk
  obtain ⟨n', hn', rfl⟩ := exists_decode f hf
  have hext : n'.extensions = n.extensions := extensions_of_slotsMap h hdec hn'
  have hother : n'.other = n.other := by
    refine forall₂_eq_of_mem (other_of_slotsMap h hdec hn') fun m hm m' hr => Prod.ext hr.1.symm ?_
    refine hr.2.eq_of_values fun x hx y hyield => ?_
    exact (hn.here.other x (List.mem_flatMap.2 ⟨m, hm, hx⟩)).eq hyield
  have heq : n' = n.retypedVariants := by
    refine ext_field (fun k => ?_) hext hother
    by_cases hone : k = .oneOf
    · subst hone
      exact eq_map_of_rel (hrel .oneOf)
    · by_cases hany : k = .anyOf
      · subst hany
        exact eq_map_of_rel (hrel .anyOf)
      · have hfield : n'.field k = n.field k := by
          refine (hrel k).eq_of_children fun c _ c' hcc => ?_
          rw [hcc.2, retyped_of_child hn.here.tidy hone hany hcc.1]
        rw [hfield]
        cases k <;> first | rfl | contradiction
  rw [hn', heq]

theorem regular_retyped (hn : (Schema.object n).Regular) : (Schema.object n.retyped).Regular := by
  obtain ⟨t, ht⟩ := retyped_eq n
  rw [ht]
  refine .object (hn.here.of_fields rfl rfl fun k => ?_) fun c hc => hn.child c ?_
  · cases k <;> first | exact .inl rfl | exact .inr trivial
  · obtain ⟨k, hk⟩ := mem_children.1 hc
    refine mem_children.2 ⟨k, ?_⟩
    cases k <;> exact hk

/-- What a stable schema is written as yields the retyped schema. -/
theorem refreshes_of_settled {s : Schema} (h : s.Everywhere o.Settled) : o.Refreshes s := by
  induction h with
  | bool b => exact ⟨.bool b, .bool b, rfl, rfl, rfl, rfl, yields_of_not_obj nofun⟩
  | @object n here below ih =>
    have hn : (Schema.object n).Everywhere o.Settled := .object here below
    have hreg : (Schema.object n).Regular := hn.imp fun _ h => h.regular
    obtain ⟨x, hx, hdx, hdistinct⟩ := exists_encode hreg
    obtain ⟨y, hy, hdy, -⟩ := exists_encode (regular_retyped hreg)
    obtain ⟨ms, hms, rfl⟩ := map_eq_ok.1 hx
    obtain ⟨ms', hms', rfl⟩ := map_eq_ok.1 hy
    refine ⟨_, _, hx, hdx, hy, hdy, ?_⟩
    have hbelow : ∀ x ∈ Members.children ms, ∃ y, o.Yields x y := by
      intro x hx
      rcases exists_child_of_encode here.regular hms hx with ⟨c, hc, hcx⟩ | hx
      · obtain ⟨x', y', hx', -, -, -, hyield⟩ := ih c hc
        cases hcx.symm.trans hx'
        exact ⟨y', hyield⟩
      · exact ⟨x, here.other x hx⟩
    obtain ⟨slots, hslots, hrun⟩ := exists_restructureSlots hbelow
    have hdec : Node.decode (.obj slots) = .ok n.retypedVariants :=
      decode_of_yields hn ih hms (Schema.decode_object hdx) hslots
    have hregular : (Schema.object n.retypedVariants).Regular := by
      refine regular_of_decode (hslots.hasDistinctNames hdistinct fun _ _ hyield => ?_) hdec
      exact hyield.restructures.hasDistinctNames
    intro path
    rw [restructureAt, Traced.bind_eq_ok]
    refine ⟨slots, hrun path, Traced.bind_eq_ok.2 ⟨ms', ?_, rfl⟩⟩
    unfold restructureMembers
    rw [hdec]
    refine Traced.bind_eq_ok.2 ⟨n.retyped, settle_retypedVariants path here.tidy here.stable hregular, ?_⟩
    rw [readable_eq_ok.2 ⟨hms', n.retyped, Schema.decode_object hdy⟩]
    rfl

/-! ## Results -/

/-- A value yields itself if all schema objects in it are stable. -/
def YieldsIfStable (o : Options) (r : Json) : Prop := r.Throughout (Stable o) → o.Yields r r

theorem inherited_yieldsIfStable : Inherited (Tidy o) IsTyped o.YieldsIfStable where
  plain v hv _ := yields_of_not_obj hv
  unread ms e he hc hstable := by
    have hbelow : ∀ x ∈ Members.children ms, o.Yields x x := fun x hx => hc x hx (hstable.child x hx)
    obtain ⟨ms', hslots, hrun⟩ := exists_restructureSlots fun x hx => ⟨x, hbelow x hx⟩
    have hms : ms' = ms := hslots.eq_of_children fun x hx y hyield => (hbelow x hx).eq hyield
    intro path
    rw [restructureAt, Traced.bind_eq_ok]
    refine ⟨ms', hrun path, Traced.bind_eq_ok.2 ⟨ms, ?_, rfl⟩⟩
    rw [hms]
    unfold restructureMembers
    rw [he]
    rfl
  written m r hm hall htyped _ hjson hdec hstable := by
    have hthroughout := everywhere_of_throughout (Schema.decode_of_node hdec) hstable
    have hsettled : (Schema.object m).Everywhere o.Settled := by
      refine (hm.and (hall.and hthroughout)).imp fun n h => ⟨h.1, h.2.1.1, h.2.2.1, fun x hx => ?_⟩
      exact h.2.1.2 x hx (h.2.2.2 x hx)
    obtain ⟨x, y, hx, -, hy, -, hyield⟩ := refreshes_of_settled hsettled
    rw [Schema.retyped, htyped.retyped] at hy
    cases hjson.symm.trans hx
    cases hjson.symm.trans hy
    exact hyield

/-- A result all of whose schema objects are stable yields itself. -/
theorem Restructures.yields_of_stable {v r : Json} (hkey : isVendor o.preserveKey = true)
    (hd : v.hasDistinctNames = true) (h : o.Restructures v r) (hstable : r.Throughout (Stable o)) : o.Yields r r :=
  (h.inherits_tidy hkey inherited_yieldsIfStable hd).1 hstable

end Options

end KubeSchema
