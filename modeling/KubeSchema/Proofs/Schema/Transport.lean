import KubeSchema.Proofs.Schema.Reading

/-!
# Reading what was replaced

If the values in the slots of an object are replaced by values that are read alike (`ReadsAlike`), the object still
reads as a schema object, with corresponding children.

* `exists_decode_of_slotsMap`: reading after the replacement.
-/

namespace KubeSchema

/-- Related values are read as related schemas, and `null` stays. -/
def ReadsAlike (S : Json → Json → Prop) (ρ : Schema → Schema → Prop) : Prop :=
  ∀ c c', S c c' → (c = .null → c' = .null) ∧
    ∀ s, Schema.decode c = .ok s → ∃ s', Schema.decode c' = .ok s' ∧ ρ s s'

section

variable {S : Json → Json → Prop} {ρ : Schema → Schema → Prop}

/-! ## Fields -/

theorem exists_decodeItems_of_forall₂ (hS : ReadsAlike S ρ) {xs ys : List Json} {l : List Schema}
    (h : List.Forall₂ S xs ys) (hl : List.Forall₂ (fun x s => Schema.decode x = .ok s) xs l) :
    ∃ l', List.Forall₂ (fun x s => Schema.decode x = .ok s) ys l' ∧ List.Forall₂ ρ l l' := by
  induction h generalizing l with
  | nil => cases hl; exact ⟨[], .nil, .nil⟩
  | cons hxy _ ih =>
    cases hl with
    | cons hs hl =>
      obtain ⟨s', hs', hρ⟩ := (hS _ _ hxy).2 _ hs
      obtain ⟨l', hl', hρl⟩ := ih hl
      exact ⟨s' :: l', .cons hs' hl', .cons hρ hρl⟩

theorem exists_decodeMembers_of_rel (hS : ReadsAlike S ρ) {ms ms' : Members Json} {l : List (String × Schema)}
    (h : Members.Rel S ms ms') (hl : Members.Rel (fun x s => Schema.decode x = .ok s) ms l) :
    ∃ l', Members.Rel (fun x s => Schema.decode x = .ok s) ms' l' ∧ Members.Rel ρ l l' := by
  induction h generalizing l with
  | nil => cases hl; exact ⟨[], .nil, .nil⟩
  | cons hm _ ih =>
    cases hl with
    | cons hs hl =>
      obtain ⟨s', hs', hρ⟩ := (hS _ _ hm.2).2 _ hs.2
      obtain ⟨l', hl', hρl⟩ := ih hl
      exact ⟨(_, s') :: l', .cons ⟨hm.1.symm.trans hs.1, hs'⟩ hl', .cons ⟨rfl, hρ⟩ hρl⟩

theorem isMissing_of_maps (hS : ReadsAlike S ρ) {s : Slot} {v v' : Option Json}
    (h : Option.Rel (Slot.Maps S (some s)) v v') (hv : Json.IsMissing v) : Json.IsMissing v' := by
  rcases hv with rfl | rfl
  · cases h
    exact .inl rfl
  · right
    cases h with
    | some h =>
      cases h with
      | schema h => rw [(hS _ _ h).1 rfl]
      | item _ _ h => rw [(hS _ _ h).1 rfl]
      | noList => rfl
      | noMap => rfl

/-- A field reads as before, its children as related schemas. -/
theorem exists_readField_of_maps (hS : ReadsAlike S ρ) {k : Keyword} {v v' : Option Json} {a : k.Value}
    (h : Option.Rel (Slot.Maps S (Slot.ofKeyword? k.name)) v v') (ha : k.readField v = .ok a) :
    ∃ a', k.readField v' = .ok a' ∧ k.Rel ρ a a' := by
  have same (hk : Slot.ofKeyword? k.name = none) : v' = v := by
    rw [hk] at h
    cases h with
    | none => rfl
    | some h => rw [h.eq_of_noSlot]
  cases k
  case anyOf | oneOf =>
    rcases readList_eq_ok.1 ha with ⟨hv, rfl⟩ | ⟨xs, l, rfl, rfl, hl⟩
    · exact ⟨none, readList_eq_ok.2 (.inl ⟨isMissing_of_maps hS h hv, rfl⟩), .none⟩
    · cases h with
      | some h =>
        cases h with
        | list h =>
          obtain ⟨l', hl', hρ⟩ := exists_decodeItems_of_forall₂ hS h hl
          exact ⟨some l', readList_eq_ok.2 (.inr ⟨_, l', rfl, rfl, hl'⟩), .some hρ⟩
        | noList hv => exact absurd rfl (hv _)
  case items =>
    rcases readOneOrList_eq_ok.1 ha with ⟨hv, rfl⟩ | ⟨w, s, rfl, rfl, hw⟩ | ⟨xs, l, rfl, rfl, hl⟩
    · exact ⟨none, readOneOrList_eq_ok.2 (.inl ⟨isMissing_of_maps hS h hv, rfl⟩), .none⟩
    · cases h with
      | some h =>
        cases h with
        | items => cases hw
        | item _ _ h =>
          obtain ⟨s', hs', hρ⟩ := (hS _ _ h).2 _ hw
          exact ⟨some (.one s'), readOneOrList_eq_ok.2 (.inr (.inl ⟨_, s', rfl, rfl, hs'⟩)), .some (.one hρ)⟩
    · cases h with
      | some h =>
        cases h with
        | items h =>
          obtain ⟨l', hl', hρ⟩ := exists_decodeItems_of_forall₂ hS h hl
          exact ⟨some (.many l'), readOneOrList_eq_ok.2 (.inr (.inr ⟨_, l', rfl, rfl, hl'⟩)), .some (.many hρ)⟩
        | item hv => exact absurd rfl (hv _)
  case additionalItems | contains | additionalProperties | propertyNames =>
    rcases readSchema_eq_ok.1 ha with ⟨hv, rfl⟩ | ⟨w, s, rfl, rfl, hw⟩
    · exact ⟨none, readSchema_eq_ok.2 (.inl ⟨isMissing_of_maps hS h hv, rfl⟩), .none⟩
    · cases h with
      | some h =>
        cases h with
        | schema h =>
          obtain ⟨s', hs', hρ⟩ := (hS _ _ h).2 _ hw
          exact ⟨some s', readSchema_eq_ok.2 (.inr ⟨_, s', rfl, rfl, hs'⟩), .some hρ⟩
  case properties | patternProperties =>
    rcases readMap_eq_ok.1 ha with ⟨hv, rfl⟩ | ⟨ms, rfl, hl⟩
    · exact ⟨[], readMap_eq_ok.2 (.inl ⟨isMissing_of_maps hS h hv, rfl⟩), .nil⟩
    · cases h with
      | some h =>
        cases h with
        | map h =>
          obtain ⟨l', hl', hρ⟩ := exists_decodeMembers_of_rel hS h hl
          exact ⟨l', readMap_eq_ok.2 (.inr ⟨_, rfl, hl'⟩), hρ⟩
        | noMap hv => exact absurd rfl (hv _)
  all_goals
    cases same rfl
    exact ⟨a, ha, rfl⟩

/-! ## Schema objects -/

/-- An object whose values in slots are replaced by such that are read alike still reads. -/
theorem exists_decode_of_slotsMap (hS : ReadsAlike S ρ) {ms ms' : Members Json} {n : ObjectSchema}
    (h : Members.SlotsMap S ms ms') (hn : Node.decode (.obj ms) = .ok n) :
    ∃ n', Node.decode (.obj ms') = .ok n' ∧ ∀ k : Keyword, k.Rel ρ (n.field k) (n'.field k) := by
  have hk (k : Keyword) := exists_readField_of_maps hS (h.get? k.name) ((decode_eq_ok.1 hn).1 k)
  choose f hf hρ using hk
  obtain ⟨n', hn', rfl⟩ := exists_decode f hf
  exact ⟨n', hn', hρ⟩

/-- Vendor keywords are no slots: they stay. -/
theorem extensions_of_slotsMap {ms ms' : Members Json} {n n' : ObjectSchema} (h : Members.SlotsMap S ms ms')
    (hn : Node.decode (.obj ms) = .ok n) (hn' : Node.decode (.obj ms') = .ok n') : n'.extensions = n.extensions := by
  have he := h.filter (fun name => !isModeled name && isVendor name)
  rw [← (decode_eq_ok.1 hn).2.1, ← (decode_eq_ok.1 hn').2.1] at he
  have hvendor : ∀ m ∈ n.extensions, isVendor m.1 = true := by
    rw [(decode_eq_ok.1 hn).2.1]
    intro m hm
    simp only [List.mem_filter, Bool.and_eq_true] at hm
    exact hm.2.2
  refine forall₂_eq_of_mem he fun m hm m' hr => ?_
  obtain ⟨hname, hmaps⟩ := hr
  rw [ofKeyword?_of_isVendor (hvendor m hm)] at hmaps
  exact Prod.ext hname.symm hmaps.eq_of_noSlot

/-- The other keywords stay, apart from the values in their slots. -/
theorem other_of_slotsMap {ms ms' : Members Json} {n n' : ObjectSchema} (h : Members.SlotsMap S ms ms')
    (hn : Node.decode (.obj ms) = .ok n) (hn' : Node.decode (.obj ms') = .ok n') :
    Members.SlotsMap S n.other n'.other := by
  rw [(decode_eq_ok.1 hn).2.2, (decode_eq_ok.1 hn').2.2]
  exact h.filter isOther

end

end KubeSchema
