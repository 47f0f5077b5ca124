/-!
# Named values in order

The members of a JSON object are a list of pairs in document order. A name stands at most once (`Distinct`); setting
a name that is present replaces its value in place, and a new name comes last.

* `get?_set`: after `set`, the name has the new value and every other name keeps its own.
* `names_set`: `set` appends a name exactly if it was absent.
* `Distinct.set`, `Distinct.eraseAll`: the operations keep names distinct.
-/

namespace KubeSchema

/-- Values under names, in order. -/
abbrev Members (α : Type) := List (String × α)

namespace Members

variable {α β : Type}

/-- The value under a name. -/
def get? : Members α → String → Option α
  | [], _ => none
  | (k, a) :: r, name => if k = name then some a else get? r name

/-- Whether a name is present. -/
def has (ms : Members α) (name : String) : Bool := (get? ms name).isSome

/-- The names, in order. -/
def names (ms : Members α) : List String := ms.map Prod.fst

/-- Puts a value under a name: in place if the name is present, else last. -/
def set : Members α → String → α → Members α
  | [], name, a => [(name, a)]
  | (k, b) :: r, name, a => if k = name then (k, a) :: r else (k, b) :: set r name a

/-- Takes names out. -/
def eraseAll (ms : Members α) (gone : List String) : Members α := ms.filter (fun m => m.1 ∉ gone)

/-- Every name stands once. -/
def Distinct (ms : Members α) : Prop := (names ms).Nodup

instance (ms : Members α) : Decidable (Distinct ms) := inferInstanceAs (Decidable (names ms).Nodup)

@[simp] theorem get?_nil (name : String) : get? ([] : Members α) name = none := rfl

theorem get?_cons (k : String) (a : α) (r : Members α) (name : String) :
    get? ((k, a) :: r) name = if k = name then some a else get? r name := rfl

theorem get?_set (ms : Members α) (name other : String) (a : α) :
    get? (set ms name a) other = if name = other then some a else get? ms other := by
  induction ms with
  | nil => rfl
  | cons m r ih =>
    obtain ⟨k, b⟩ := m
    by_cases hk : k = name
    · subst hk
      by_cases ho : k = other <;> simp [set, get?, ho]
    · by_cases ho : k = other
      · subst ho
        simp [set, get?, hk, Ne.symm hk]
      · simp [set, get?, hk, ho, ih]

theorem has_iff_mem_names (ms : Members α) (name : String) : has ms name = true ↔ name ∈ names ms := by
  induction ms with
  | nil => simp [has, names]
  | cons m r ih =>
    obtain ⟨k, b⟩ := m
    by_cases hk : k = name
    · simp [has, get?, names, hk]
    · simp only [has, names] at ih
      simp [has, get?, names, hk, ih, Ne.symm hk]

theorem names_set (ms : Members α) (name : String) (a : α) :
    names (set ms name a) = if has ms name then names ms else names ms ++ [name] := by
  induction ms with
  | nil => rfl
  | cons m r ih =>
    obtain ⟨k, b⟩ := m
    by_cases hk : k = name
    · simp [set, names, has, get?, hk]
    · simp only [names, has] at ih
      by_cases hr : (get? r name).isSome = true <;> simp_all [set, names, has, get?]

theorem Distinct.set {ms : Members α} (h : Distinct ms) (name : String) (a : α) : Distinct (set ms name a) := by
  unfold Distinct
  rw [names_set]
  split
  · exact h
  · next hn =>
    rw [has_iff_mem_names] at hn
    exact List.nodup_append.2 ⟨h, by simp, by simpa using fun x hx => ne_of_mem_of_not_mem hx hn⟩

theorem Distinct.eraseAll {ms : Members α} (h : Distinct ms) (gone : List String) : Distinct (eraseAll ms gone) :=
  List.Nodup.sublist (List.Sublist.map _ List.filter_sublist) h

end Members

end KubeSchema
