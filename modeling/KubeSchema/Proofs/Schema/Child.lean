import KubeSchema.Proofs.Schema.Field
import KubeSchema.Schema.Union

/-!
# Child schemas

The schemas that a schema object holds, whatever the keyword (`Node.children`).

* `Schema.induction`: what holds of a schema object if it holds of its children holds of every schema.
* `Schema.Everywhere`: a property of all schema objects in a schema, down to any depth.
-/

namespace KubeSchema

/-- The values given by themselves or in a list. -/
def OneOrMany.toList {α : Type} : OneOrMany α → List α
  | .one a => [a]
  | .many l => l

/-- The schemas that a field holds. -/
def Keyword.children : (k : Keyword) → k.Value → List Schema
  | .anyOf, (l : Option (List Schema)) => l.getD []
  | .oneOf, (l : Option (List Schema)) => l.getD []
  | .items, (s : Option (OneOrMany Schema)) => s.elim [] OneOrMany.toList
  | .additionalItems, (s : Option Schema) => s.toList
  | .contains, (s : Option Schema) => s.toList
  | .additionalProperties, (s : Option Schema) => s.toList
  | .propertyNames, (s : Option Schema) => s.toList
  | .properties, (l : List (String × Schema)) => l.map Prod.snd
  | .patternProperties, (l : List (String × Schema)) => l.map Prod.snd
  | _, _ => []

namespace Node

/-- The schemas that a schema object holds. -/
def children (n : ObjectSchema) : List Schema := Keyword.all.flatMap (fun k => k.children (n.field k))

theorem mem_children {n : ObjectSchema} {c : Schema} :
    c ∈ n.children ↔ ∃ k : Keyword, c ∈ k.children (n.field k) := by
  simp [children, Keyword.mem_all]

theorem sizeOf_of_mem_getD {l : Option (List Schema)} {c : Schema} (h : c ∈ l.getD []) : sizeOf c < sizeOf l := by
  cases l with
  | none => cases h
  | some l =>
    have : sizeOf c < sizeOf l := List.sizeOf_lt_of_mem h
    simp; omega

theorem sizeOf_of_mem_toList {s : Option Schema} {c : Schema} (h : c ∈ s.toList) : sizeOf c < sizeOf s := by
  cases s with
  | none => cases h
  | some s => simp_all

theorem sizeOf_of_mem_elim {s : Option (OneOrMany Schema)} {c : Schema} (h : c ∈ s.elim [] OneOrMany.toList) :
    sizeOf c < sizeOf s := by
  rcases s with _ | s | l
  · cases h
  · cases List.mem_singleton.1 h; simp; omega
  · have : sizeOf c < sizeOf l := List.sizeOf_lt_of_mem h
    simp; omega

theorem sizeOf_of_mem_map {l : List (String × Schema)} {c : Schema} (h : c ∈ l.map Prod.snd) :
    sizeOf c < sizeOf l := by
  obtain ⟨⟨name, s⟩, hp, rfl⟩ := List.mem_map.1 h
  have := List.sizeOf_lt_of_mem hp
  simp at this ⊢
  omega

/-- A child is smaller than its parent. -/
theorem sizeOf_child {n : ObjectSchema} {c : Schema} (h : c ∈ n.children) : sizeOf c < sizeOf n := by
  obtain ⟨k, hk⟩ := mem_children.1 h
  cases n
  cases k <;> simp only [field, Keyword.children, List.not_mem_nil] at hk
  case anyOf | oneOf => have := sizeOf_of_mem_getD hk; simp; omega
  case items => have := sizeOf_of_mem_elim hk; simp; omega
  case properties | patternProperties => have := sizeOf_of_mem_map hk; simp; omega
  all_goals have := sizeOf_of_mem_toList hk; simp; omega

end Node

namespace Schema

/-- What holds of a schema object if it holds of its children holds of every schema. -/
theorem induction {P : Schema → Prop} (bool : ∀ b, P (.bool b))
    (object : ∀ n : ObjectSchema, (∀ c ∈ n.children, P c) → P (.object n)) : ∀ s, P s
  | .bool b => bool b
  | .object n => object n (fun c hc =>
    have : sizeOf c < sizeOf n := Node.sizeOf_child hc
    induction bool object c)
  termination_by s => sizeOf s
  decreasing_by simp; omega

/-- A property of all schema objects in a schema. -/
inductive Everywhere (P : ObjectSchema → Prop) : Schema → Prop
  | bool (b : Bool) : Everywhere P (.bool b)
  | object {n : ObjectSchema} (here : P n) (below : ∀ c ∈ n.children, Everywhere P c) : Everywhere P (.object n)

variable {P Q : ObjectSchema → Prop} {n : ObjectSchema} {s : Schema}

theorem Everywhere.here (h : Everywhere P (.object n)) : P n := by cases h; assumption

theorem Everywhere.child (h : Everywhere P (.object n)) : ∀ c ∈ n.children, Everywhere P c := by cases h; assumption

theorem Everywhere.imp (hPQ : ∀ n, P n → Q n) (h : Everywhere P s) : Everywhere Q s := by
  induction h with
  | bool b => exact .bool b
  | object here _ ih => exact .object (hPQ _ here) ih

theorem Everywhere.and (hP : Everywhere P s) (hQ : Everywhere Q s) : Everywhere (fun n => P n ∧ Q n) s := by
  induction hP with
  | bool b => exact .bool b
  | object here _ ih => exact .object ⟨here, hQ.here⟩ fun c hc => ih c hc (hQ.child c hc)

end Schema

/-! ## Fields whose children correspond -/

/-- Both by themselves or both in lists of the same length. -/
inductive OneOrMany.Rel {α β : Type} (ρ : α → β → Prop) : OneOrMany α → OneOrMany β → Prop
  | one {a : α} {b : β} (h : ρ a b) : Rel ρ (.one a) (.one b)
  | many {l : List α} {l' : List β} (h : List.Forall₂ ρ l l') : Rel ρ (.many l) (.many l')

/-- Fields of one shape with corresponding children; equal if they hold no schemas. -/
def Keyword.Rel (ρ : Schema → Schema → Prop) : (k : Keyword) → k.Value → k.Value → Prop
  | .anyOf, (a : Option (List Schema)), (b : Option (List Schema)) => Option.Rel (List.Forall₂ ρ) a b
  | .oneOf, (a : Option (List Schema)), (b : Option (List Schema)) => Option.Rel (List.Forall₂ ρ) a b
  | .items, (a : Option (OneOrMany Schema)), (b : Option (OneOrMany Schema)) => Option.Rel (OneOrMany.Rel ρ) a b
  | .additionalItems, (a : Option Schema), (b : Option Schema) => Option.Rel ρ a b
  | .contains, (a : Option Schema), (b : Option Schema) => Option.Rel ρ a b
  | .additionalProperties, (a : Option Schema), (b : Option Schema) => Option.Rel ρ a b
  | .propertyNames, (a : Option Schema), (b : Option Schema) => Option.Rel ρ a b
  | .properties, (a : List (String × Schema)), (b : List (String × Schema)) => Members.Rel ρ a b
  | .patternProperties, (a : List (String × Schema)), (b : List (String × Schema)) => Members.Rel ρ a b
  | _, a, b => a = b

/-- In a field that corresponds to itself every child does so. -/
theorem Keyword.Rel.of_mem {ρ : Schema → Schema → Prop} {k : Keyword} {a : k.Value} (h : k.Rel ρ a a) {c : Schema}
    (hc : c ∈ k.children a) : ρ c c := by
  have list {a : Option (List Schema)} (h : Option.Rel (List.Forall₂ ρ) a a) (hc : c ∈ a.getD []) : ρ c c := by
    cases h with
    | none => cases hc
    | some h => exact List.forall₂_same.1 h c hc
  have option {a : Option Schema} (h : Option.Rel ρ a a) (hc : c ∈ a.toList) : ρ c c := by
    cases h with
    | none => cases hc
    | some h =>
      cases List.mem_singleton.1 hc
      exact h
  have items {a : Option (OneOrMany Schema)} (h : Option.Rel (OneOrMany.Rel ρ) a a)
      (hc : c ∈ a.elim [] OneOrMany.toList) : ρ c c := by
    cases h with
    | none => cases hc
    | some h =>
      cases h with
      | one h =>
        cases List.mem_singleton.1 hc
        exact h
      | many h => exact List.forall₂_same.1 h c hc
  have members {a : List (String × Schema)} (h : Members.Rel ρ a a) (hc : c ∈ a.map Prod.snd) : ρ c c := by
    obtain ⟨m, hm, rfl⟩ := List.mem_map.1 hc
    exact (List.forall₂_same.1 h m hm).2
  cases k
  case anyOf | oneOf => exact list h hc
  case items => exact items h hc
  case additionalItems | contains | additionalProperties | propertyNames => exact option h hc
  case properties | patternProperties => exact members h hc
  all_goals cases hc

/-- A field whose children only correspond to themselves corresponds to itself only. -/
theorem Keyword.Rel.eq_of_children {ρ : Schema → Schema → Prop} {k : Keyword} {a b : k.Value} (h : k.Rel ρ a b)
    (hρ : ∀ c ∈ k.children a, ∀ c', ρ c c' → c' = c) : b = a := by
  have option {a b : Option Schema} (h : Option.Rel ρ a b) (hρ : ∀ c ∈ a.toList, ∀ c', ρ c c' → c' = c) : b = a := by
    cases h with
    | none => rfl
    | some h => rw [hρ _ (List.mem_singleton.2 rfl) _ h]
  have list {a b : Option (List Schema)} (h : Option.Rel (List.Forall₂ ρ) a b)
      (hρ : ∀ c ∈ a.getD [], ∀ c', ρ c c' → c' = c) : b = a := by
    cases h with
    | none => rfl
    | some h => rw [forall₂_eq_of_mem h hρ]
  have members {a b : List (String × Schema)} (h : Members.Rel ρ a b)
      (hρ : ∀ c ∈ a.map Prod.snd, ∀ c', ρ c c' → c' = c) : b = a :=
    forall₂_eq_of_mem h fun m hm m' hr => Prod.ext hr.1.symm (hρ _ (List.mem_map_of_mem hm) _ hr.2)
  have items {a b : Option (OneOrMany Schema)} (h : Option.Rel (OneOrMany.Rel ρ) a b)
      (hρ : ∀ c ∈ a.elim [] OneOrMany.toList, ∀ c', ρ c c' → c' = c) : b = a := by
    cases h with
    | none => rfl
    | some h =>
      cases h with
      | one h => rw [hρ _ (List.mem_singleton.2 rfl) _ h]
      | many h => rw [forall₂_eq_of_mem h hρ]
  cases k
  case anyOf | oneOf => exact list h hρ
  case items => exact items h hρ
  case additionalItems | contains | additionalProperties | propertyNames => exact option h hρ
  case properties | patternProperties => exact members h hρ
  all_goals exact Eq.symm h

end KubeSchema
