import KubeSchema.Json.Basic
import Mathlib.Data.List.Forall2
import Mathlib.Data.List.Nodup
import Mathlib.Data.List.Perm.Basic

/-!
# Members by name

How looking up a name goes along with appending, taking out and setting members.

* `get?_append`, `get?_filter`, `get?_setAll`: what stands under a name afterwards.
* `mem_setAll`, `distinct_setAll`: setting several members brings in nothing else, and keeps names distinct.
* `perm_of_alike`: objects that differ in the order of members only have the same names.
-/

namespace KubeSchema

variable {α β : Type}

/-! ## Corresponding lists -/

theorem exists_of_mem_left {ρ : α → β → Prop} {l : List α} {l' : List β} (h : List.Forall₂ ρ l l') {a : α}
    (ha : a ∈ l) : ∃ b ∈ l', ρ a b := by
  induction h with
  | nil => cases ha
  | cons hr _ ih =>
    rcases List.mem_cons.1 ha with rfl | ha
    · exact ⟨_, List.mem_cons_self, hr⟩
    · obtain ⟨b, hb, h⟩ := ih ha
      exact ⟨b, List.mem_cons_of_mem _ hb, h⟩

theorem exists_of_mem_right {ρ : α → β → Prop} {l : List α} {l' : List β} (h : List.Forall₂ ρ l l') {b : β}
    (hb : b ∈ l') : ∃ a ∈ l, ρ a b := exists_of_mem_left h.flip hb

theorem exists_of_getElem?_right {ρ : α → β → Prop} {l : List α} {l' : List β} (h : List.Forall₂ ρ l l') {i : Nat}
    {b : β} (hb : l'[i]? = some b) : ∃ a, l[i]? = some a ∧ ρ a b := by
  obtain ⟨hi', rfl⟩ := List.getElem?_eq_some_iff.1 hb
  have hi : i < l.length := h.length_eq ▸ hi'
  exact ⟨l[i], List.getElem?_eq_getElem hi, h.get hi hi'⟩

theorem forall₂_of_mem {ρ ρ' : α → β → Prop} {l : List α} {l' : List β} (h : List.Forall₂ ρ l l')
    (hρ : ∀ a ∈ l, ∀ b, ρ a b → ρ' a b) : List.Forall₂ ρ' l l' := by
  induction h with
  | nil => exact .nil
  | cons hr _ ih =>
    obtain ⟨ha, hl⟩ := List.forall_mem_cons.1 hρ
    exact .cons (ha _ hr) (ih hl)

theorem forall₂_eq_of_mem {ρ : α → α → Prop} {l l' : List α} (h : List.Forall₂ ρ l l')
    (hρ : ∀ a ∈ l, ∀ b, ρ a b → b = a) : l' = l := by
  have heq : List.Forall₂ Eq l l' := forall₂_of_mem h (fun a ha b hr => (hρ a ha b hr).symm)
  rw [List.forall₂_eq_eq_eq] at heq
  exact heq.symm

namespace Members

/-! ## Looking up -/

theorem get?_append (l r : Members α) (name : String) : get? (l ++ r) name = (get? l name).or (get? r name) := by
  induction l with
  | nil => rfl
  | cons m l ih =>
    obtain ⟨k, a⟩ := m
    by_cases h : k = name
    · simp [get?, h]
    · simp [get?, h, ih]

theorem mem_of_get? {ms : Members α} {name : String} {a : α} (h : get? ms name = some a) : (name, a) ∈ ms := by
  induction ms with
  | nil => cases h
  | cons m r ih =>
    obtain ⟨k, b⟩ := m
    by_cases hk : k = name
    · simp only [get?, hk, ↓reduceIte, Option.some.injEq] at h
      simp [hk, h]
    · simp only [get?, hk, ↓reduceIte] at h
      exact List.mem_cons_of_mem _ (ih h)

theorem get?_eq_none_iff {ms : Members α} {name : String} : get? ms name = none ↔ name ∉ names ms := by
  rw [← has_iff_mem_names, has]
  cases get? ms name <;> simp

/-- Among distinct names, a member is what its name leads to. -/
theorem get?_of_mem {ms : Members α} (hd : Distinct ms) {name : String} {a : α} (h : (name, a) ∈ ms) :
    get? ms name = some a := by
  induction ms with
  | nil => cases h
  | cons m r ih =>
    obtain ⟨k, b⟩ := m
    obtain ⟨hk, hr⟩ := List.nodup_cons.1 hd
    rcases List.mem_cons.1 h with h | h
    · cases h; simp [get?]
    · have hne : k ≠ name := fun e => hk (e ▸ List.mem_map.2 ⟨_, h, rfl⟩)
      simp [get?, hne, ih hr h]

/-- Members with the same value under each name are the same, up to their order. -/
theorem perm_of_get? {ms ms' : Members α} (h : Distinct ms) (h' : Distinct ms')
    (hget : ∀ name, get? ms name = get? ms' name) : ms.Perm ms' := by
  refine (List.perm_ext_iff_of_nodup (List.Nodup.of_map _ h) (List.Nodup.of_map _ h')).2 fun m => ?_
  have hmem {l : Members α} (hl : Distinct l) : m ∈ l ↔ get? l m.1 = some m.2 := ⟨get?_of_mem hl, mem_of_get?⟩
  rw [hmem h, hmem h', hget]

theorem get?_filter (p : String → Bool) (ms : Members α) (name : String) :
    get? (ms.filter (fun m => p m.1)) name = if p name then get? ms name else none := by
  induction ms with
  | nil => simp
  | cons m r ih =>
    obtain ⟨k, a⟩ := m
    rw [List.filter_cons]
    by_cases h : k = name
    · subst h
      cases hp : p k <;> simp_all [get?]
    · cases hp : p k <;> simp_all [get?]

/-- Members of which those with some names are the same have the same values under these. -/
theorem get?_eq_of_filter_eq {ms ms' : Members α} {p : String → Bool}
    (h : ms.filter (fun m => p m.1) = ms'.filter (fun m => p m.1)) {name : String} (hname : p name = true) :
    get? ms name = get? ms' name := by
  have hget (l : Members α) : get? (l.filter (fun m => p m.1)) name = get? l name := by rw [get?_filter, if_pos hname]
  rw [← hget ms, h, hget ms']

theorem names_filterMap (f : String → α → Option β) (ms : Members α) :
    (names (ms.filterMap (fun m => (f m.1 m.2).map (fun b => (m.1, b))))).Sublist (names ms) := by
  induction ms with
  | nil => exact .refl _
  | cons m ms ih =>
    obtain ⟨k, a⟩ := m
    cases hf : f k a with
    | none => simpa [hf, names] using ih.cons k
    | some b => simpa [hf, names] using ih.cons_cons k

theorem get?_filterMap (f : String → α → Option β) {ms : Members α} (hd : Distinct ms) (name : String) :
    get? (ms.filterMap (fun m => (f m.1 m.2).map (fun b => (m.1, b)))) name = (get? ms name).bind (f name) := by
  induction ms with
  | nil => rfl
  | cons m ms ih =>
    obtain ⟨k, a⟩ := m
    obtain ⟨hk, hms⟩ := List.nodup_cons.1 hd
    rw [List.filterMap_cons, get?_cons]
    by_cases h : k = name
    · subst h
      cases hf : f k a with
      | none =>
        have hnone : k ∉ names (ms.filterMap (fun m => (f m.1 m.2).map (fun b => (m.1, b)))) := fun hmem =>
          hk ((names_filterMap f ms).subset hmem)
        simpa [hf] using get?_eq_none_iff.2 hnone
      | some b => simp [hf, get?_cons]
    · rw [if_neg h, ← ih hms]
      cases hf : f k a with
      | none => rfl
      | some b => simp [get?_cons, h]

theorem get?_eraseAll (ms : Members α) (gone : List String) (name : String) :
    get? (eraseAll ms gone) name = if name ∈ gone then none else get? ms name := by
  rw [eraseAll, get?_filter (fun name => decide (name ∉ gone))]
  by_cases h : name ∈ gone <;> simp [h]

theorem names_append (l r : Members α) : names (l ++ r) = names l ++ names r := List.map_append

/-! ## Setting -/

theorem mem_set {ms : Members α} {name : String} {a : α} {m : String × α} (h : m ∈ set ms name a) :
    m ∈ ms ∨ m = (name, a) := by
  induction ms with
  | nil => exact .inr (List.mem_singleton.1 h)
  | cons p r ih =>
    obtain ⟨k, b⟩ := p
    by_cases hk : k = name
    · simp only [set, hk, ↓reduceIte, List.mem_cons] at h
      rcases h with h | h
      · exact .inr h
      · exact .inl (List.mem_cons_of_mem _ h)
    · simp only [set, hk, ↓reduceIte, List.mem_cons] at h
      rcases h with h | h
      · exact .inl (h ▸ List.mem_cons_self)
      · exact (ih h).imp (List.mem_cons_of_mem _) id

/-- A new name comes last. -/
theorem set_of_not_mem {ms : Members α} {name : String} (h : name ∉ names ms) (a : α) :
    set ms name a = ms ++ [(name, a)] := by
  induction ms with
  | nil => rfl
  | cons p r ih =>
    obtain ⟨k, b⟩ := p
    obtain ⟨hk, hr⟩ := List.ne_and_not_mem_of_not_mem_cons h
    rw [set, if_neg (Ne.symm hk), ih hr, List.cons_append]

theorem mem_names_set {ms : Members α} {name other : String} {a : α} :
    other ∈ names (set ms name a) ↔ other ∈ names ms ∨ other = name := by
  rw [names_set]
  split
  · next h =>
    rw [has_iff_mem_names] at h
    exact ⟨.inl, fun h' => h'.elim id (fun e => e ▸ h)⟩
  · simp

/-- Sets members one after the other. -/
def setAll (ms l : Members α) : Members α := l.foldl (fun ms m => set ms m.1 m.2) ms

theorem setAll_cons (ms : Members α) (m : String × α) (l : Members α) :
    setAll ms (m :: l) = setAll (set ms m.1 m.2) l := rfl

/-- New names come last, in order. -/
theorem setAll_of_distinct {ms l : Members α} (h : Distinct (ms ++ l)) : setAll ms l = ms ++ l := by
  induction l generalizing ms with
  | nil => rw [List.append_nil]; rfl
  | cons m l ih =>
    rw [List.append_cons] at h ⊢
    have hm : m.1 ∉ names ms := by
      rw [Distinct, names_append, names_append] at h
      exact fun hm => (List.nodup_append.1 (List.nodup_append.1 h).1).2.2 _ hm _ (List.mem_singleton.2 rfl) rfl
    rw [setAll_cons, set_of_not_mem hm, ih h]

/-- What is set last stays: of two members under one name the set one. -/
theorem get?_setAll {l : Members α} (hd : Distinct l) (ms : Members α) (name : String) :
    get? (setAll ms l) name = (get? l name).or (get? ms name) := by
  induction l generalizing ms with
  | nil => rfl
  | cons m l ih =>
    obtain ⟨k, a⟩ := m
    obtain ⟨hk, hl⟩ := List.nodup_cons.1 hd
    rw [setAll_cons, ih hl, get?_set]
    by_cases h : k = name
    · subst h
      simp [get?, get?_eq_none_iff.2 hk]
    · simp [get?, h]

theorem mem_setAll {ms l : Members α} {m : String × α} (h : m ∈ setAll ms l) : m ∈ ms ∨ m ∈ l := by
  induction l generalizing ms with
  | nil => exact .inl h
  | cons p l ih =>
    rcases ih h with h | h
    · rcases mem_set h with h | h
      · exact .inl h
      · exact .inr (h ▸ List.mem_cons_self)
    · exact .inr (List.mem_cons_of_mem _ h)

theorem distinct_setAll {ms : Members α} (h : Distinct ms) (l : Members α) : Distinct (setAll ms l) := by
  induction l generalizing ms with
  | nil => exact h
  | cons m l ih => exact ih (h.set m.1 m.2)

/-! ## Sorting by name -/

theorem perm_insertByName (name : String) (a : α) (ms : Members α) :
    (insertByName name a ms).Perm ((name, a) :: ms) := by
  induction ms with
  | nil => exact .refl _
  | cons m r ih =>
    obtain ⟨k, b⟩ := m
    simp only [insertByName]
    split
    · exact (ih.cons _).trans (.swap ..)
    · exact .refl _

theorem perm_sortByName (ms : Members α) : (sortByName ms).Perm ms := by
  induction ms with
  | nil => exact .refl _
  | cons m r ih => exact (perm_insertByName _ _ _).trans (ih.cons _)

/-- Objects that are alike have the same names. -/
theorem perm_of_alike {ms ms' : Members Json} (h : (Json.obj ms).Alike (.obj ms')) : (names ms).Perm (names ms') := by
  have hs : sortByName (sortedMembers ms) = sortByName (sortedMembers ms') := by
    simpa [Json.Alike, Json.sorted] using h
  have hn (l : Members Json) : names (sortedMembers l) = names l := by simp [names, sortedMembers_eq_map]
  have hp : (names (sortedMembers ms)).Perm (names (sortedMembers ms')) :=
    ((perm_sortByName _).map _).symm.trans (hs ▸ (perm_sortByName _).map _)
  rwa [hn, hn] at hp

/-! ## Corresponding members -/

/-- The same names in the same order, with corresponding values. -/
def Rel (ρ : α → β → Prop) : Members α → Members β → Prop := List.Forall₂ (fun m m' => m.1 = m'.1 ∧ ρ m.2 m'.2)

theorem Rel.names {ρ : α → β → Prop} {ms : Members α} {ms' : Members β} (h : Rel ρ ms ms') :
    Members.names ms' = Members.names ms := by
  induction h with
  | nil => rfl
  | cons hm _ ih => simp only [Members.names] at ih; simp [Members.names, hm.1, ih]

end Members

end KubeSchema
