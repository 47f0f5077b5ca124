/-!
# Sets of names

A finite set of names, held in increasing order, so that two sets with the same names are equal.

* `NameSet.mem_ofList`: the set of a list has the names of the list.
-/

namespace KubeSchema

/-- A finite set of names. -/
structure NameSet where
  names : List String
  increasing : names.Pairwise (· < ·)
  deriving DecidableEq

namespace NameSet

/-- Puts a name into an increasing list, unless it is there. -/
def insertName (name : String) : List String → List String
  | [] => [name]
  | k :: r => if name < k then name :: k :: r else if name = k then k :: r else k :: insertName name r

theorem mem_insertName {name other : String} {l : List String} :
    other ∈ insertName name l ↔ other = name ∨ other ∈ l := by
  induction l with
  | nil => simp [insertName]
  | cons k r ih =>
    simp only [insertName]
    split
    · simp
    · split
      · next h => subst h; simp
      · simp only [List.mem_cons, ih]
        exact ⟨fun h => by rcases h with h | h | h <;> simp [h], fun h => by rcases h with h | h | h <;> simp [h]⟩

theorem pairwise_insertName {name : String} {l : List String} (h : l.Pairwise (· < ·)) :
    (insertName name l).Pairwise (· < ·) := by
  induction l with
  | nil => simp [insertName]
  | cons k r ih =>
    obtain ⟨hk, hr⟩ := List.pairwise_cons.1 h
    simp only [insertName]
    split
    · next hlt =>
      refine List.pairwise_cons.2 ⟨fun a ha => ?_, h⟩
      rcases List.mem_cons.1 ha with rfl | ha
      · exact hlt
      · exact String.lt_trans hlt (hk a ha)
    · next hlt =>
      split
      · exact h
      · next hne =>
        refine List.pairwise_cons.2 ⟨fun a ha => ?_, ih hr⟩
        rcases mem_insertName.1 ha with rfl | ha
        · exact Decidable.byContradiction fun hc =>
            hne (String.le_antisymm (String.not_lt.1 hc) (String.not_lt.1 hlt))
        · exact hk a ha

/-- The set without names. -/
def empty : NameSet := ⟨[], .nil⟩

/-- The set with one more name. -/
def insert (s : NameSet) (name : String) : NameSet := ⟨insertName name s.names, pairwise_insertName s.increasing⟩

/-- The set of the names in a list. -/
def ofList : List String → NameSet
  | [] => empty
  | k :: r => (ofList r).insert k

/-- Whether no name is in the set. -/
def isEmpty (s : NameSet) : Bool := s.names.isEmpty

theorem mem_ofList {name : String} {l : List String} : name ∈ (ofList l).names ↔ name ∈ l := by
  induction l with
  | nil => simp [ofList, empty]
  | cons k r ih => simp [ofList, insert, mem_insertName, ih]

end NameSet

end KubeSchema
