import KubeSchema.Proofs.Members
import Mathlib.Data.Option.Basic
import Mathlib.Data.String.Basic

/-!
# Members in any order

Two lists of members are like each other (`Members.Like`) if the same names lead to related values, in whatever order.
Values that are alike are the same but for the order of the members of objects.

* `alike_arr`, `alike_obj`: what being alike means for lists, and for objects with distinct names.
* `Like.set`, `Like.setAll`, `Like.filter`, `Like.append`: operations that keep lists of members like each other.
* `Like.exists_forall₂`: what corresponds to one list of members, name by name, has its like for the other.
-/

namespace KubeSchema

variable {α β : Type} {ρ : α → β → Prop}

/-! ## Values that may be missing -/

section

variable {a c : Option α} {b d : Option β}

theorem rel_imp {σ : α → β → Prop} (h : Option.Rel ρ a b) (hρ : ∀ x y, ρ x y → σ x y) : Option.Rel σ a b := by
  cases h with
  | none => exact .none
  | some h => exact .some (hρ _ _ h)

theorem rel_flip (h : Option.Rel ρ a b) : Option.Rel (fun y x => ρ x y) b a := by
  cases h with
  | none => exact .none
  | some h => exact .some h

theorem rel_trans {γ : Type} {σ : β → γ → Prop} {τ : α → γ → Prop} {e : Option γ} (h : Option.Rel ρ a b)
    (h' : Option.Rel σ b e) (hτ : ∀ x y z, ρ x y → σ y z → τ x z) : Option.Rel τ a e := by
  cases h with
  | none => cases h'; exact .none
  | some h =>
    cases h' with
    | some h' => exact .some (hτ _ _ _ h h')

theorem forall₂_trans {γ : Type} {σ : β → γ → Prop} {τ : α → γ → Prop} {l : List α} {l' : List β} {l'' : List γ}
    (h : List.Forall₂ ρ l l') (h' : List.Forall₂ σ l' l'') (hτ : ∀ x y z, ρ x y → σ y z → τ x z) :
    List.Forall₂ τ l l'' := by
  induction h generalizing l'' with
  | nil => cases h'; exact .nil
  | cons h _ ih =>
    cases h' with
    | cons h' ht => exact .cons (hτ _ _ _ h h') (ih ht)

theorem isSome_eq_of_rel (h : Option.Rel ρ a b) : a.isSome = b.isSome := by
  cases h <;> rfl

theorem rel_or (h : Option.Rel ρ a b) (h' : Option.Rel ρ c d) : Option.Rel ρ (a.or c) (b.or d) := by
  cases h with
  | none => exact h'
  | some h => exact .some h

theorem exists_of_rel_some {x : α} (h : Option.Rel ρ (some x) b) : ∃ y, b = some y ∧ ρ x y := by
  cases h with
  | some h => exact ⟨_, rfl, h⟩

theorem forall₂_getD {l : Option (List α)} {l' : Option (List β)} (h : Option.Rel (List.Forall₂ ρ) l l') :
    List.Forall₂ ρ (l.getD []) (l'.getD []) := by
  cases h with
  | none => exact .nil
  | some h => exact h

theorem isEmpty_eq_of_forall₂ {l : List α} {l' : List β} (h : List.Forall₂ ρ l l') : l.isEmpty = l'.isEmpty := by
  cases h <;> rfl

theorem map_eq_map_iff_rel {γ : Type} {f : α → γ} {g : β → γ} :
    a.map f = b.map g ↔ Option.Rel (fun x y => f x = g y) a b := by
  constructor
  · intro h
    cases a <;> cases b <;> first | exact .none | cases h | exact .some (Option.some.inj h)
  · intro h
    cases h with
    | none => rfl
    | some h => exact congrArg some h

end

namespace Members

/-! ## Sorting -/

theorem pairwise_insertByName {name : String} {a : α} {ms : Members α}
    (h : ms.Pairwise (fun m m' => m.1 < m'.1)) (hname : name ∉ names ms) :
    (insertByName name a ms).Pairwise (fun m m' => m.1 < m'.1) := by
  induction ms with
  | nil => exact List.pairwise_singleton _ _
  | cons m ms ih =>
    obtain ⟨k, b⟩ := m
    obtain ⟨hk, hms⟩ := List.pairwise_cons.1 h
    simp only [names, List.map_cons, List.mem_cons, not_or] at hname
    rw [insertByName]
    split
    · next hlt =>
      refine List.pairwise_cons.2 ⟨fun m hm => ?_, ih hms hname.2⟩
      rcases List.mem_cons.1 ((perm_insertByName name a ms).mem_iff.1 hm) with rfl | hm
      · exact hlt
      · exact hk m hm
    · next hlt =>
      have hlt : name < k := lt_of_le_of_ne (not_lt.1 hlt) hname.1
      refine List.pairwise_cons.2 ⟨fun m hm => ?_, h⟩
      rcases List.mem_cons.1 hm with rfl | hm
      · exact hlt
      · exact lt_trans hlt (hk m hm)

theorem pairwise_sortByName {ms : Members α} (h : Distinct ms) :
    (sortByName ms).Pairwise (fun m m' => m.1 < m'.1) := by
  induction ms with
  | nil => exact .nil
  | cons m ms ih =>
    obtain ⟨hm, hms⟩ := List.nodup_cons.1 h
    refine pairwise_insertByName (ih hms) fun hname => hm ?_
    exact ((perm_sortByName ms).map Prod.fst).mem_iff.1 hname

/-- Members with distinct names are sorted alike if they are the same in any order. -/
theorem sortByName_eq_of_mem {ms ms' : Members α} (h : Distinct ms) (h' : Distinct ms')
    (hmem : ∀ m, m ∈ ms ↔ m ∈ ms') : sortByName ms = sortByName ms' := by
  have hperm : ms.Perm ms' := (List.perm_ext_iff_of_nodup h.of_map h'.of_map).2 hmem
  refine List.Perm.eq_of_pairwise (fun m m' _ _ hlt hlt' => absurd hlt' (lt_asymm hlt)) (pairwise_sortByName h)
    (pairwise_sortByName h') ?_
  exact ((perm_sortByName ms).trans hperm).trans (perm_sortByName ms').symm

/-! ## The same names -/

/-- The same names, each once, lead to related values. -/
structure Like (ρ : α → β → Prop) (ms : Members α) (ms' : Members β) : Prop where
  left : Distinct ms
  right : Distinct ms'
  values : ∀ name, Option.Rel ρ (get? ms name) (get? ms' name)

namespace Like

variable {ms l : Members α} {ms' l' : Members β}

theorem nil : Like ρ ([] : Members α) ([] : Members β) := ⟨List.nodup_nil, List.nodup_nil, fun _ => .none⟩

theorem imp {σ : α → β → Prop} (h : Like ρ ms ms') (hρ : ∀ a b, ρ a b → σ a b) : Like σ ms ms' :=
  ⟨h.left, h.right, fun name => rel_imp (h.values name) hρ⟩

theorem flip (h : Like ρ ms ms') : Like (fun b a => ρ a b) ms' ms :=
  ⟨h.right, h.left, fun name => rel_flip (h.values name)⟩

theorem trans {γ : Type} {σ : β → γ → Prop} {τ : α → γ → Prop} {ms'' : Members γ} (h : Like ρ ms ms')
    (h' : Like σ ms' ms'') (hτ : ∀ x y z, ρ x y → σ y z → τ x z) : Like τ ms ms'' :=
  ⟨h.left, h'.right, fun name => rel_trans (h.values name) (h'.values name) hτ⟩

theorem exists_right (h : Like ρ ms ms') {name : String} {a : α} (ha : get? ms name = some a) :
    ∃ b, get? ms' name = some b ∧ ρ a b := exists_of_rel_some (ha ▸ h.values name)

theorem has_eq (h : Like ρ ms ms') (name : String) : has ms name = has ms' name :=
  isSome_eq_of_rel (h.values name)

theorem mem_names_iff (h : Like ρ ms ms') {name : String} : name ∈ names ms ↔ name ∈ names ms' := by
  rw [← has_iff_mem_names, ← has_iff_mem_names, h.has_eq]

theorem perm_names (h : Like ρ ms ms') : (names ms).Perm (names ms') :=
  (List.perm_ext_iff_of_nodup h.left h.right).2 fun _ => h.mem_names_iff

theorem length_eq (h : Like ρ ms ms') : ms.length = ms'.length := by
  simpa [names] using h.perm_names.length_eq

theorem isEmpty_eq (h : Like ρ ms ms') : ms.isEmpty = ms'.isEmpty := by
  rw [Bool.eq_iff_iff, List.isEmpty_iff_length_eq_zero, List.isEmpty_iff_length_eq_zero, h.length_eq]

theorem set (h : Like ρ ms ms') (name : String) {a : α} {b : β} (hr : ρ a b) :
    Like ρ (set ms name a) (set ms' name b) := by
  refine ⟨h.left.set name a, h.right.set name b, fun other => ?_⟩
  rw [get?_set, get?_set]
  split
  · exact .some hr
  · exact h.values other

theorem filter (h : Like ρ ms ms') (p : String → Bool) :
    Like ρ (ms.filter (fun m => p m.1)) (ms'.filter (fun m => p m.1)) := by
  refine ⟨h.left.sublist (List.filter_sublist.map _), h.right.sublist (List.filter_sublist.map _), fun name => ?_⟩
  rw [get?_filter, get?_filter]
  split
  · exact h.values name
  · exact .none

theorem eraseAll (h : Like ρ ms ms') (gone : List String) : Like ρ (eraseAll ms gone) (eraseAll ms' gone) :=
  h.filter (fun name => decide (name ∉ gone))

theorem setAll (h : Like ρ ms ms') (hl : Like ρ l l') : Like ρ (setAll ms l) (setAll ms' l') := by
  refine ⟨distinct_setAll h.left l, distinct_setAll h.right l', fun name => ?_⟩
  rw [get?_setAll hl.left, get?_setAll hl.right]
  exact rel_or (hl.values name) (h.values name)

theorem append (h : Like ρ ms ms') (hl : Like ρ l l') (hdisjoint : ∀ m ∈ l, m.1 ∉ names ms) :
    Like ρ (ms ++ l) (ms' ++ l') := by
  have hd : Distinct (ms ++ l) := by
    rw [Distinct, names_append]
    refine List.nodup_append'.2 ⟨h.left, hl.left, fun name h₁ h₂ => ?_⟩
    obtain ⟨m, hm, rfl⟩ := List.mem_map.1 h₂
    exact hdisjoint m hm h₁
  have hd' : Distinct (ms' ++ l') := by
    rw [Distinct, names_append]
    refine List.nodup_append'.2 ⟨h.right, hl.right, fun name h₁ h₂ => ?_⟩
    obtain ⟨m, hm, rfl⟩ := List.mem_map.1 (hl.mem_names_iff.2 h₂)
    exact hdisjoint m hm (h.mem_names_iff.2 h₁)
  refine ⟨hd, hd', fun name => ?_⟩
  rw [get?_append, get?_append]
  exact rel_or (h.values name) (hl.values name)

end Like

/-! ## Corresponding members -/

section

variable {γ δ : Type} {ms : Members α} {ms' : Members β} {l : Members γ}

theorem get?_of_forall₂ {R : String → α → γ → Prop} (h : List.Forall₂ (fun m m' => m.1 = m'.1 ∧ R m.1 m.2 m'.2) ms l)
    (name : String) : Option.Rel (R name) (get? ms name) (get? l name) := by
  induction h with
  | nil => exact .none
  | @cons m m' r r' hm _ ih =>
    obtain ⟨k, a⟩ := m
    obtain ⟨k', b⟩ := m'
    obtain ⟨rfl, hr⟩ := hm
    rw [get?_cons, get?_cons]
    split
    · next hk => exact .some (hk ▸ hr)
    · exact ih

theorem distinct_of_forall₂ {R : String → α → γ → Prop}
    (h : List.Forall₂ (fun m m' => m.1 = m'.1 ∧ R m.1 m.2 m'.2) ms l) (hd : Distinct ms) : Distinct l := by
  have hrel : Rel (fun _ _ => True) ms l := h.imp fun _ _ hm => ⟨hm.1, trivial⟩
  rwa [Distinct, hrel.names]

/-- Corresponding members with distinct names. -/
theorem Like.of_rel (h : Rel ρ ms ms') (hd : Distinct ms) : Like ρ ms ms' :=
  ⟨hd, distinct_of_forall₂ (R := fun _ => ρ) h hd, get?_of_forall₂ (R := fun _ => ρ) h⟩

theorem exists_forall₂_of_mem {R : String × α → γ → Prop} (h : ∀ m ∈ ms, ∃ c, R m c) :
    ∃ l : Members γ, List.Forall₂ (fun m m' => m.1 = m'.1 ∧ R m m'.2) ms l := by
  induction ms with
  | nil => exact ⟨[], .nil⟩
  | cons m ms ih =>
    obtain ⟨⟨c, hc⟩, hms⟩ := List.forall_mem_cons.1 h
    obtain ⟨l, hl⟩ := ih hms
    exact ⟨(m.1, c) :: l, .cons ⟨rfl, hc⟩ hl⟩

/-- If members are like each other and the ones correspond to others, then so do the others, in their own order. -/
theorem Like.exists_forall₂ {R : String → α → γ → Prop} {S : String → β → δ → Prop} {τ : γ → δ → Prop}
    (h : Like ρ ms ms') (hl : List.Forall₂ (fun m m' => m.1 = m'.1 ∧ R m.1 m.2 m'.2) ms l)
    (hstep : ∀ name a b c, (name, a) ∈ ms → (name, b) ∈ ms' → ρ a b → R name a c → ∃ d, S name b d ∧ τ c d) :
    ∃ l', List.Forall₂ (fun m m' => m.1 = m'.1 ∧ S m.1 m.2 m'.2) ms' l' ∧ Like τ l l' := by
  have hget := get?_of_forall₂ hl
  have hex : ∀ m ∈ ms', ∃ d, S m.1 m.2 d ∧ ∀ c, get? l m.1 = some c → τ c d := by
    intro m hm
    obtain ⟨a, ha, hab⟩ := h.flip.exists_right (get?_of_mem h.right hm)
    obtain ⟨c, hc, hac⟩ := exists_of_rel_some (ha ▸ hget m.1)
    obtain ⟨d, hd, hcd⟩ := hstep m.1 a m.2 c (mem_of_get? ha) hm hab hac
    refine ⟨d, hd, fun c' hc' => ?_⟩
    cases hc.symm.trans hc'
    exact hcd
  obtain ⟨l', hl'⟩ := exists_forall₂_of_mem hex
  have hrel : List.Forall₂ (fun m m' => m.1 = m'.1 ∧ S m.1 m.2 m'.2) ms' l' := hl'.imp fun _ _ hm => ⟨hm.1, hm.2.1⟩
  have hhas (name : String) : (get? l name).isSome = (get? l' name).isSome := by
    rw [← isSome_eq_of_rel (hget name), isSome_eq_of_rel (h.values name),
      isSome_eq_of_rel (get?_of_forall₂ hrel name)]
  refine ⟨l', hrel, distinct_of_forall₂ hl h.left, distinct_of_forall₂ hrel h.right, fun name => ?_⟩
  have hsome := hhas name
  cases hc : get? l name with
  | none =>
    rw [hc, Option.isSome_none] at hsome
    rw [Option.isNone_iff_eq_none.1 (Option.isSome_eq_false_iff.1 hsome.symm)]
    exact .none
  | some c =>
    rw [hc, Option.isSome_some] at hsome
    obtain ⟨d, hd⟩ := Option.isSome_iff_exists.1 hsome.symm
    obtain ⟨m, hm, hname, -, hτ⟩ := exists_of_mem_right hl' (mem_of_get? hd)
    rw [hd]
    exact .some (hτ c (hname ▸ hc))

/-- The same for values that correspond alike under every name. -/
theorem Like.exists_rel {R : α → γ → Prop} {S : β → δ → Prop} {τ : γ → δ → Prop} (h : Like ρ ms ms')
    (hl : Rel R ms l) (hstep : ∀ name a b c, (name, a) ∈ ms → (name, b) ∈ ms' → ρ a b → R a c → ∃ d, S b d ∧ τ c d) :
    ∃ l', Rel S ms' l' ∧ Like τ l l' :=
  Like.exists_forall₂ (R := fun _ => R) h hl hstep

end

end Members

/-! ## Values -/

namespace Json

theorem Alike.refl (a : Json) : a.Alike a := rfl

theorem Alike.symm {a b : Json} (h : a.Alike b) : b.Alike a := Eq.symm h

theorem Alike.trans {a b c : Json} (h : a.Alike b) (h' : b.Alike c) : a.Alike c := Eq.trans h h'

/-- Whether a value is like another depends on what both are like only. -/
theorem Alike.congr {a a' b b' : Json} (ha : a.Alike a') (hb : b.Alike b') : a.Alike b ↔ a'.Alike b' :=
  ⟨fun h => ha.symm.trans (h.trans hb), fun h => ha.trans (h.trans hb.symm)⟩

theorem alike_arr {xs ys : List Json} : (arr xs).Alike (arr ys) ↔ List.Forall₂ Alike xs ys := by
  simp only [Alike, sorted, sortedItems_eq_map, arr.injEq]
  rw [← List.forall₂_eq_eq_eq, List.forall₂_map_left_iff, List.forall₂_map_right_iff]
  rfl

theorem get?_sortedMembers (ms : Members Json) (name : String) :
    Members.get? (sortedMembers ms) name = (Members.get? ms name).map sorted := by
  induction ms with
  | nil => rfl
  | cons m ms ih =>
    obtain ⟨k, x⟩ := m
    rw [sortedMembers, Members.get?_cons, Members.get?_cons, ih]
    split <;> rfl

theorem distinct_sortedMembers {ms : Members Json} : Members.Distinct (sortedMembers ms) ↔ Members.Distinct ms := by
  simp [Members.Distinct, Members.names, sortedMembers_eq_map, Function.comp_def]

/-- Objects with distinct names are alike if the same names lead to values that are. -/
theorem alike_obj {ms ms' : Members Json} (h : Members.Distinct ms) (h' : Members.Distinct ms') :
    (obj ms).Alike (obj ms') ↔ Members.Like Alike ms ms' := by
  have hs := distinct_sortedMembers.2 h
  have hs' := distinct_sortedMembers.2 h'
  rw [Alike, sorted, sorted, obj.injEq]
  constructor
  · intro heq
    have hmem (m : String × Json) : m ∈ sortedMembers ms ↔ m ∈ sortedMembers ms' := by
      rw [← (Members.perm_sortByName (sortedMembers ms)).mem_iff, heq, (Members.perm_sortByName _).mem_iff]
    refine ⟨h, h', fun name => map_eq_map_iff_rel.1 ?_⟩
    rw [← get?_sortedMembers, ← get?_sortedMembers]
    refine Option.ext fun x => ?_
    exact ⟨fun hx => Members.get?_of_mem hs' ((hmem _).1 (Members.mem_of_get? hx)),
      fun hx => Members.get?_of_mem hs ((hmem _).2 (Members.mem_of_get? hx))⟩
  · intro hlike
    have hget (name : String) : Members.get? (sortedMembers ms) name = Members.get? (sortedMembers ms') name := by
      rw [get?_sortedMembers, get?_sortedMembers]
      exact map_eq_map_iff_rel.2 (hlike.values name)
    refine Members.sortByName_eq_of_mem hs hs' fun m => ?_
    exact ⟨fun hm => Members.mem_of_get? ((hget m.1).symm.trans (Members.get?_of_mem hs hm)),
      fun hm => Members.mem_of_get? ((hget m.1).trans (Members.get?_of_mem hs' hm))⟩

/-- A value that is neither a list nor an object is only like itself. -/
theorem Alike.cases {a b : Json} (h : a.Alike b) :
    (∃ xs ys, a = arr xs ∧ b = arr ys) ∨ (∃ ms ms', a = obj ms ∧ b = obj ms') ∨ a = b := by
  cases a <;> cases b <;> simp_all [Alike, sorted]

theorem eq_bool_of_alike {a b : Option Json} (h : Option.Rel Alike a b) (t : Bool) :
    a = some (bool t) ↔ b = some (bool t) := by
  cases h with
  | none => rfl
  | some h => rcases h.cases with ⟨_, _, rfl, rfl⟩ | ⟨_, _, rfl, rfl⟩ | rfl <;> simp

end Json

end KubeSchema
