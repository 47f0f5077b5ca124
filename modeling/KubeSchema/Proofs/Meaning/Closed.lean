import KubeSchema.Proofs.Meaning.Admits
import KubeSchema.Proofs.Union.Properties

/-!
# Closed objects

The variants of a union of objects are closed: each admits objects with the properties that it declares and no others.
When the properties are hoisted, a variant keeps what it requires.

* `admits_closed_iff`: what a closed object admits.
* `admits_hoistedClosed_iff`: what it does once its properties are hoisted.
-/

namespace KubeSchema

/-- An object with no properties but the declared ones. -/
structure Closed where
  description : Option String
  properties : List (String × Schema)
  required : NameSet

namespace Closed

def node (c : Closed) : ObjectSchema :=
  { description := c.description
    types := some (.one .object)
    properties := c.properties
    required := c.required
    additionalProperties := some (.bool false) }

def variant (c : Closed) : Schema := .object c.node

end Closed

variable {valid : Schema → Json → Bool} {c : Closed} {ms : Members Json}

theorem exists_obj_of_admits_closed {x : Json} (h : c.variant.admits valid x = true) : ∃ ms, x = .obj ms :=
  admits_object_iff.1 (((Schema.admits_object _).1 h).1 _ rfl)

/-- A closed object has what is required, and all its members are declared and meet their schemas. -/
theorem admits_closed_iff : c.variant.admits valid (.obj ms) = true ↔
    (∀ name ∈ c.required.names, Members.has ms name = true) ∧
      (∀ p ∈ c.properties, ∀ x, Members.get? ms p.1 = some x → valid p.2 x = true) ∧
      ∀ m ∈ ms, Members.has c.properties m.1 = true := by
  have hmembers : c.node.admitsMembers valid (.obj ms) = true ↔
      (∀ name ∈ c.required.names, Members.has ms name = true) ∧
        (∀ p ∈ c.properties, ∀ x, Members.get? ms p.1 = some x → valid p.2 x = true) ∧
        ∀ m ∈ ms, Members.has c.properties m.1 = true := by
    simp [Node.admitsMembers, Node.isClosed, Closed.node, Option.all_eq_true, and_assoc]
  rw [Closed.variant, Schema.admits_object, hmembers]
  constructor
  · rintro ⟨-, hmeets, -⟩
    exact hmeets
  · intro hmeets
    refine ⟨fun _ h => by cases h; rfl, hmeets, fun _ h => ?_, fun _ h => ?_⟩
    · cases h
    · cases h

/-- Once its properties are hoisted, a closed object only has what is required. -/
theorem admits_hoistedClosed_iff :
    (Schema.object (Node.hoistedVariant c.node)).admits valid (.obj ms) = true ↔
      ∀ name ∈ c.required.names, Members.has ms name = true := by
  have hkeywords : c.node.hasObjectKeywords = true := by simp [Node.hasObjectKeywords, Closed.node]
  have hstripped : Node.hoistedVariant c.node = { required := c.required } :=
    Node.hoistedVariant_of_hasObjectKeywords hkeywords
  rw [hstripped, Schema.admits_object]
  simp [Node.admitsMembers, Node.isClosed]

end KubeSchema
