import KubeSchema.Proofs.Restructuring

/-!
# Documents at other places

The path of a schema is handed down for reports and errors only. Below a place, a restructuring does the same as on
its own: it reports the same events and gives the same result or the same fault, all of them below that place.

* `Run.relocate`: a computation below a place.
* `restructureAt_append`: the restructuring of a document below a place.
* `restructures_iff`: so a result does not depend on the place.
* `restructure_skips`: an object that does not read as a schema is restructured in its slots, each value there as on
  its own, and nowhere else.
-/

namespace KubeSchema

/-! ## Computations below a place -/

/-- The same fault below a place. -/
def Fault.relocate (p : Pointer) : Fault → Fault
  | violation cause path => violation cause (p ++ path)
  | misfit cause => misfit cause

/-- The same event below a place. -/
def Event.relocate (p : Pointer) : Event → Event
  | variantsHoisted count path => variantsHoisted count (p ++ path)
  | optionalHoisted path => optionalHoisted (p ++ path)
  | propertiesHoisted u path => propertiesHoisted u (p ++ path)
  | descriptionDropped property path => descriptionDropped property (p ++ path)
  | descriptionReplaced property path => descriptionReplaced property (p ++ path)
  | schemaSkipped cause path => schemaSkipped cause (p ++ path)
  | resultDiscarded cause path => resultDiscarded cause (p ++ path)

namespace Run

variable {α β : Type} (p : Pointer)

/-- The same computation below a place. -/
def relocate (x : Run α) : Run α := ⟨x.log.map (Event.relocate p), x.outcome.mapError (Fault.relocate p)⟩

@[simp] theorem relocate_pure (a : α) : relocate p (pure a : Run α) = pure a := rfl

@[simp] theorem relocate_report (event : Event) :
    relocate p (Traced.report event) = Traced.report (event.relocate p) := rfl

@[simp] theorem relocate_violate (cause : Violation) (path : Pointer) :
    relocate p (violate cause path : Run α) = violate cause (p ++ path) := rfl

@[simp] theorem relocate_encoded (x : Except EncodeError α) : relocate p (encoded x) = encoded x := by
  cases x <;> rfl

@[simp] theorem relocate_decoded (x : Except DecodeError α) : relocate p (decoded x) = decoded x := by
  cases x <;> rfl

@[simp] theorem relocate_bind (x : Run α) (f : α → Run β) :
    relocate p (x >>= f) = relocate p x >>= fun a => relocate p (f a) := by
  obtain ⟨log, outcome⟩ := x
  cases outcome with
  | error e => rfl
  | ok a => simp [relocate, bind, Except.mapError]

@[simp] theorem relocate_map (f : α → β) (x : Run α) : relocate p (f <$> x) = f <$> relocate p x := by
  simp only [← bind_pure_comp, relocate_bind, relocate_pure]

theorem relocate_foldlM {f g : β → α → Run β} (h : ∀ b a, relocate p (f b a) = g b a) (l : List α) (b : β) :
    relocate p (l.foldlM f b) = l.foldlM g b := by
  induction l generalizing b with
  | nil => rfl
  | cons a l ih => simp only [List.foldlM_cons, relocate_bind, h, ih]

@[simp] theorem relocate_ite (c : Prop) [Decidable c] (x y : Run α) :
    relocate p (if c then x else y) = if c then relocate p x else relocate p y := by
  split <;> rfl

theorem outcome_relocate_eq_ok {x : Run α} {a : α} : (relocate p x).outcome = .ok a ↔ x.outcome = .ok a :=
  mapError_eq_ok

end Run

/-! ## Unions -/

namespace Node

open Run

variable (p path : Pointer) (n v : ObjectSchema)

@[simp] theorem relocate_writtenType : relocate p (writtenType n) = writtenType n := by
  simp only [writtenType, relocate_bind, relocate_encoded]
  congr 1
  funext ms
  split <;> simp

theorem relocate_typedVariants (index : Nat) (vs : List Schema) :
    relocate p (typedVariants path index vs) = typedVariants (p ++ path) index vs := by
  induction vs generalizing index with
  | nil => rfl
  | cons s vs ih =>
    cases s with
    | bool b => simp [typedVariants]
    | object v =>
      simp only [typedVariants]
      split <;> simp [ih]

theorem relocate_checkTypes (first : OneOrMany PrimitiveType × ObjectSchema) (index : Nat)
    (l : List (OneOrMany PrimitiveType × ObjectSchema)) :
    relocate p (checkTypes path first index l) = checkTypes (p ++ path) first index l := by
  induction l generalizing index with
  | nil => rfl
  | cons q l ih => simp [checkTypes, ih]

theorem relocate_collectValues (index : Nat) (l : List (OneOrMany PrimitiveType × ObjectSchema)) :
    relocate p (collectValues path index l) = collectValues (p ++ path) index l := by
  induction l generalizing index with
  | nil => rfl
  | cons q l ih =>
    simp only [collectValues]
    split <;> simp [ih]

theorem relocate_hoistEnumVariants :
    relocate p (hoistEnumVariants path n) = hoistEnumVariants (p ++ path) n := by
  unfold hoistEnumVariants
  split
  · rfl
  · rw [relocate_ite, relocate_bind, relocate_typedVariants]
    congr 2
    funext l
    cases l <;> simp [relocate_checkTypes, relocate_collectValues, Event.relocate]

theorem relocate_agreedType (values : List Json) :
    relocate p (agreedType path values n v) = agreedType (p ++ path) values n v := by
  unfold agreedType
  split <;> simp

theorem relocate_takeEnums (index : Nat) (vs : List Schema) :
    relocate p (takeEnums path index n vs) = takeEnums (p ++ path) index n vs := by
  induction vs generalizing index n with
  | nil => rfl
  | cons s vs ih =>
    cases s with
    | bool b => simp [takeEnums, ih]
    | object v =>
      simp only [takeEnums]
      split <;> simp [ih, relocate_agreedType]

theorem relocate_hoistEnumValues : relocate p (hoistEnumValues path n) = hoistEnumValues (p ++ path) n := by
  simp [hoistEnumValues, relocate_takeEnums]

theorem relocate_describeTag (description : Option String) (name : String) (s : Schema) :
    relocate p (describeTag path description name s) = describeTag (p ++ path) description name s := by
  unfold describeTag
  split <;> simp [Event.relocate]

theorem relocate_handedProperties (u : Union) :
    relocate p (handedProperties u path v) = handedProperties u (p ++ path) v := by
  unfold handedProperties
  split <;> simp [relocate_describeTag]

theorem relocate_mergeProperty (properties : List (String × Schema)) (q : String × Schema) :
    relocate p (mergeProperty path properties q) = mergeProperty (p ++ path) properties q := by
  unfold mergeProperty
  split <;> simp

theorem relocate_hoistVariants (u : Union) (index : Nat) (vs : List Schema) :
    relocate p (hoistVariants u path index n vs) = hoistVariants u (p ++ path) index n vs := by
  induction vs generalizing index n with
  | nil => rfl
  | cons s vs ih =>
    cases s with
    | bool b => simp [hoistVariants]
    | object v =>
      simp [hoistVariants, ih, relocate_handedProperties, relocate_foldlM p (relocate_mergeProperty p _)]

theorem relocate_hoistProperties (u : Union) :
    relocate p (hoistProperties u path n) = hoistProperties u (p ++ path) n := by
  simp [hoistProperties, relocate_hoistVariants, Event.relocate]

theorem relocate_mergeKeyword (ms : Members Json) (m : String × Json) :
    relocate p (mergeKeyword path ms m) = mergeKeyword (p ++ path) ms m := by
  unfold mergeKeyword
  split <;> simp

theorem relocate_mergeKeywords (keywords : Members Json) :
    relocate p (mergeKeywords path n keywords) = mergeKeywords (p ++ path) n keywords := by
  simp [mergeKeywords, relocate_foldlM p (relocate_mergeKeyword p _)]

theorem relocate_hoistEntry (index : Nat) (entry : Schema) :
    relocate p (hoistEntry path n index entry) = hoistEntry (p ++ path) n index entry := by
  cases entry <;> simp [hoistEntry, relocate_mergeKeywords, Event.relocate]

theorem relocate_hoistOptional : relocate p (hoistOptional path n) = hoistOptional (p ++ path) n := by
  unfold hoistOptional
  split
  · simp only [relocate_bind, relocate_encoded]
    congr 1
    funext a
    congr 1
    funext b
    cases a <;> cases b <;> simp [relocate_hoistEntry]
  · rfl

end Node

/-! ## Schema objects -/

namespace Options

open Node Run

variable (o : Options) (p path : Pointer) (n : ObjectSchema)

theorem relocate_hoistUnions : relocate p (hoistUnions path n) = hoistUnions (p ++ path) n := by
  simp [hoistUnions, relocate_hoistProperties, relocate_hoistEnumValues]

theorem relocate_settleUnions : relocate p (o.settleUnions path n) = o.settleUnions (p ++ path) n := by
  simp only [settleUnions, relocate_bind, relocate_hoistEnumVariants, relocate_hoistOptional]
  congr 1
  funext r
  congr 1
  funext opt
  rcases opt with _ | ⟨m, carried⟩
  · exact relocate_hoistUnions p path _
  · rfl

theorem relocate_settle : relocate p (o.settle path n) = o.settle (p ++ path) n := by
  simp [settle, relocate_settleUnions]

theorem relocate_restructureMembers (ms : Members Json) :
    relocate p (o.restructureMembers path ms) = o.restructureMembers (p ++ path) ms := by
  unfold restructureMembers
  split
  · rfl
  · rw [relocate_bind, relocate_settle]
    congr 1
    funext m
    split <;> rfl

/-! ## Documents -/

variable {o}

theorem relocate_restructureItems {index : Nat} {xs : List Json}
    (h : ∀ x ∈ xs, ∀ path, relocate p (o.restructureAt path x) = o.restructureAt (p ++ path) x) :
    relocate p (o.restructureItems path index xs) = o.restructureItems (p ++ path) index xs := by
  induction xs generalizing index with
  | nil => rfl
  | cons x xs ih =>
    obtain ⟨hx, hxs⟩ := List.forall_mem_cons.1 h
    simp [restructureItems, hx, ih hxs]

theorem relocate_restructureEntries {ms : Members Json}
    (h : ∀ x ∈ ms.map Prod.snd, ∀ path, relocate p (o.restructureAt path x) = o.restructureAt (p ++ path) x) :
    relocate p (o.restructureEntries path ms) = o.restructureEntries (p ++ path) ms := by
  induction ms with
  | nil => rfl
  | cons m ms ih =>
    obtain ⟨hm, hms⟩ := List.forall_mem_cons.1 h
    simp [restructureEntries, hm, ih hms]

theorem relocate_restructureSlot {keyword : String} {v : Json}
    (h : ∀ c ∈ Slot.values (Slot.ofKeyword? keyword) v, ∀ path,
      relocate p (o.restructureAt path c) = o.restructureAt (p ++ path) c) :
    relocate p (o.restructureSlot path keyword v) = o.restructureSlot (p ++ path) keyword v := by
  unfold restructureSlot
  split
  · next hs =>
    rw [hs] at h
    rw [h _ (List.mem_singleton.2 rfl), List.append_assoc]
  · next xs hs =>
    rw [hs] at h
    rw [relocate_map, relocate_restructureItems p _ (show ∀ c ∈ xs, _ from h), List.append_assoc]
  · next hs =>
    rw [hs] at h
    rw [relocate_map, relocate_restructureEntries p _ h, List.append_assoc]
  · next xs hs =>
    rw [hs] at h
    rw [relocate_map, relocate_restructureItems p _ (show ∀ c ∈ xs, _ from h), List.append_assoc]
  · next hs hv =>
    rw [hs, Slot.values_schemaOrList hv] at h
    rw [h _ (List.mem_singleton.2 rfl), List.append_assoc]
  · rfl

theorem relocate_restructureSlots {ms : Members Json}
    (h : ∀ c ∈ Members.children ms, ∀ path,
      relocate p (o.restructureAt path c) = o.restructureAt (p ++ path) c) :
    relocate p (o.restructureSlots path ms) = o.restructureSlots (p ++ path) ms := by
  induction ms with
  | nil => rfl
  | cons m ms ih =>
    obtain ⟨keyword, v⟩ := m
    rw [restructureSlots_cons, restructureSlots_cons, relocate_bind,
      relocate_restructureSlot p path fun c hc => h c (List.mem_append_left _ hc)]
    simp only [relocate_bind, relocate_pure, ih fun c hc => h c (List.mem_append_right _ hc)]

/-- Below a place, a document is restructured as on its own. -/
theorem restructureAt_append (v : Json) : o.restructureAt (p ++ path) v = relocate p (o.restructureAt path v) := by
  induction v using Json.induction generalizing path with
  | h v ih =>
    cases v with
    | obj ms =>
      simp only [restructureAt, relocate_bind, relocate_pure, relocate_restructureMembers,
        relocate_restructureSlots p path fun c hc path => (ih c hc path).symm]
    | _ => rfl

theorem outcome_restructureAt_eq_ok {v r : Json} (path : Pointer) :
    (o.restructureAt path v).outcome = .ok r ↔ (o.restructure v).outcome = .ok r := by
  conv_lhs => rw [← List.append_nil path]
  rw [restructureAt_append, outcome_relocate_eq_ok]
  rfl

theorem restructures_iff {v r : Json} : o.Restructures v r ↔ (o.restructure v).outcome = .ok r :=
  ⟨fun ⟨path, h⟩ => (outcome_restructureAt_eq_ok path).1 h, fun h => ⟨[], h⟩⟩

theorem restructureAt_eq_ok_iff {v r : Json} (path : Pointer) :
    (o.restructureAt path v).outcome = .ok r ↔ o.Restructures v r := by
  rw [outcome_restructureAt_eq_ok, restructures_iff]

theorem restructureItems_of_forall₂ {xs ys : List Json} (h : List.Forall₂ o.Restructures xs ys) (path : Pointer)
    (index : Nat) : (o.restructureItems path index xs).outcome = .ok ys := by
  induction h generalizing index with
  | nil => rfl
  | cons hx _ ih =>
    simp only [restructureItems, Traced.bind_eq_ok, Traced.pure_eq_ok]
    exact ⟨_, (restructureAt_eq_ok_iff _).2 hx, _, ih _, rfl⟩

theorem restructureEntries_of_rel {ms ms' : Members Json} (h : Members.Rel o.Restructures ms ms') (path : Pointer) :
    (o.restructureEntries path ms).outcome = .ok ms' := by
  induction h with
  | nil => rfl
  | @cons m m' r r' hm _ ih =>
    obtain ⟨name, x⟩ := m
    obtain ⟨name', y⟩ := m'
    obtain ⟨rfl, hxy⟩ := hm
    simp only [restructureEntries, Traced.bind_eq_ok, Traced.pure_eq_ok]
    exact ⟨y, (restructureAt_eq_ok_iff _).2 hxy, _, ih, rfl⟩

theorem restructureSlot_of_maps {keyword : String} {v w : Json}
    (h : Slot.Maps o.Restructures (Slot.ofKeyword? keyword) v w) (path : Pointer) :
    (o.restructureSlot path keyword v).outcome = .ok w := by
  unfold restructureSlot
  revert h
  generalize Slot.ofKeyword? keyword = s
  intro h
  cases h with
  | schema h => exact (restructureAt_eq_ok_iff _).2 h
  | list h => exact Traced.map_eq_ok.2 ⟨_, restructureItems_of_forall₂ h _ _, rfl⟩
  | map h => exact Traced.map_eq_ok.2 ⟨_, restructureEntries_of_rel h _, rfl⟩
  | items h => exact Traced.map_eq_ok.2 ⟨_, restructureItems_of_forall₂ h _ _, rfl⟩
  | item hv _ h =>
    have hr := (restructureAt_eq_ok_iff (path ++ [keyword])).2 h
    cases v <;> first | exact hr | exact absurd rfl (hv _)
  | noList hv => cases v <;> first | rfl | exact absurd rfl (hv _)
  | noMap hv => cases v <;> first | rfl | exact absurd rfl (hv _)
  | noSlot => rfl

/-- Each value in a slot is restructured as on its own. -/
theorem restructureSlots_of_slotsMap {ms ms' : Members Json} (h : Members.SlotsMap o.Restructures ms ms')
    (path : Pointer) : (o.restructureSlots path ms).outcome = .ok ms' := by
  induction h with
  | nil => rfl
  | @cons m m' r r' hm _ ih =>
    obtain ⟨keyword, v⟩ := m
    obtain ⟨keyword', w⟩ := m'
    obtain ⟨rfl, hvw⟩ := hm
    simp only [restructureSlots_cons, Traced.bind_eq_ok, Traced.pure_eq_ok]
    exact ⟨w, restructureSlot_of_maps hvw path, _, ih, rfl⟩

/-! ## Objects that do not read as schemas -/

/-- An object reads as a schema exactly if its result does. If it does not, the result has the same members in the same
order, but with the values in slots restructured, each of them as on its own. -/
theorem restructure_skips {ms : Members Json} {r : Json} (h : (o.restructure (.obj ms)).outcome = .ok r) :
    ∃ ms', r = .obj ms' ∧
      ((∃ n, Node.decode (.obj ms) = .ok n) ↔ ∃ n, Node.decode (.obj ms') = .ok n) ∧
      ((∀ n, Node.decode (.obj ms) ≠ .ok n) →
        Members.SlotsMap (fun c c' => (o.restructure c).outcome = .ok c') ms ms') := by
  have hr := restructures_iff.2 h
  obtain ⟨path, slots, ms', hslots, hmembers, rfl⟩ := hr.slots
  have hread : (∃ n, Node.decode (.obj ms) = .ok n) ↔ ∃ n, Node.decode (.obj ms') = .ok n := by
    rw [← exists_decode_schema_iff, ← exists_decode_schema_iff]
    exact hr.decode_iff
  refine ⟨ms', rfl, hread, fun hskip => ?_⟩
  have hslotsread : (∃ n, Node.decode (.obj ms) = .ok n) ↔ ∃ n, Node.decode (.obj slots) = .ok n :=
    exists_decode_iff hslots (fun _ _ => Restructures.eq_null) (fun _ _ _ hc => hc.decode_iff)
  rcases restructureMembers_eq_ok hmembers with ⟨e, -, rfl⟩ | ⟨n, m, hn, -⟩
  · exact hslots.imp fun _ _ _ hc => restructures_iff.1 hc
  · obtain ⟨n', hn'⟩ := hslotsread.2 ⟨n, hn⟩
    exact absurd hn' (hskip n')

/-- A type that is no type keeps the object from reading as a schema, but not its items from being restructured. -/
theorem restructure_skips_odd_type :
    let ms : Members Json := [("type", .str "text"), ("items", .obj [("uniqueItems", .bool true)])]
    let r : Json := .obj [("type", .str "text"), ("items", .obj [])]
    (Options.restructure {} (.obj ms)).outcome = .ok r ∧
      (∀ n, Node.decode (.obj ms) ≠ .ok n) ∧
      ∃ ms', r = .obj ms' ∧ Members.SlotsMap (fun c c' => (Options.restructure {} c).outcome = .ok c') ms ms' := by
  intro ms r
  have hr : (Options.restructure {} (.obj ms)).outcome = .ok r := rfl
  have hread : Node.decode (.obj ms) = .error (.unknownType (.str "text")) := rfl
  have hskip : ∀ n, Node.decode (.obj ms) ≠ .ok n := fun n hn => by cases hread.symm.trans hn
  obtain ⟨ms', h, -, hslots⟩ := restructure_skips hr
  exact ⟨hr, hskip, ms', h, hslots hskip⟩

end Options

end KubeSchema
