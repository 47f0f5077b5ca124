import KubeSchema.Schema.Union
import Mathlib.Algebra.Group.Nat.Defs

/-!
# What schemas mean

A schema admits an instance, a JSON value, or does not. Of the modeled keywords, `type`, `required`, `properties`,
closing an object by `additionalProperties`, and both unions have their meaning in JSON Schema. The schemas of
properties mean whatever a predicate on schemas and instances says; all other keywords mean nothing.

* `Schema.admits`: whether a schema admits an instance.
* `Schema.admits_object`: what a schema object demands.
-/

namespace KubeSchema

/-! ## Types -/

/-- Whether a double is a whole number. -/
def Double.isWhole : Double → Bool
  | .finite _ digits exponent => decide (0 ≤ exponent) || digits % 10 ^ (-exponent).toNat == 0
  | _ => false

/-- Whether an instance is of a type. Numbers without a fraction are integers, however they are written. -/
def PrimitiveType.admits : PrimitiveType → Json → Bool
  | null, .null => true
  | boolean, .bool _ => true
  | object, .obj _ => true
  | array, .arr _ => true
  | number, .int _ => true
  | number, .double _ => true
  | string, .str _ => true
  | integer, .int _ => true
  | integer, .double d => d.isWhole
  | _, _ => false

/-- Whether an instance is of the type, or of one of several. -/
def OneOrMany.admits : OneOrMany PrimitiveType → Json → Bool
  | .one t, x => t.admits x
  | .many ts, x => ts.any (·.admits x)

example : PrimitiveType.integer.admits (.double (.finite false 10 (-1))) = true := by decide

theorem admits_object_iff {x : Json} : PrimitiveType.object.admits x = true ↔ ∃ ms, x = .obj ms := by
  cases x <;> simp [PrimitiveType.admits]

/-! ## Members -/

namespace Node

/-- Whether the declared properties are the only ones. -/
def isClosed (n : ObjectSchema) : Bool := n.additionalProperties matches some (.bool false)

/-- Whether an instance has the members that a schema object demands. What is no object has. -/
def admitsMembers (valid : Schema → Json → Bool) (n : ObjectSchema) : Json → Bool
  | .obj ms =>
    n.required.names.all (Members.has ms) && n.properties.all (fun p => (Members.get? ms p.1).all (valid p.2)) &&
      (!n.isClosed || ms.all (fun m => Members.has n.properties m.1))
  | _ => true

end Node

/-! ## Schemas -/

mutual

/-- Whether a schema admits an instance, the schemas of properties being given a meaning. -/
def Schema.admits (valid : Schema → Json → Bool) (x : Json) : Schema → Bool
  | .bool b => b
  | .object n => n.types.all (·.admits x) && n.admitsMembers valid x && unionsAdmit valid x n
  termination_by structural s => s

/-- Whether an instance meets the unions: `oneOf` by exactly one variant, `anyOf` by any. -/
def unionsAdmit (valid : Schema → Json → Bool) (x : Json) : Node Schema → Bool
  | { oneOf, anyOf, .. } =>
    (verdicts? valid x oneOf).all (·.count true == 1) && (verdicts? valid x anyOf).all (·.any id)
  termination_by structural n => n

/-- Which of the variants admit an instance, if there is a union. -/
def verdicts? (valid : Schema → Json → Bool) (x : Json) : Option (List Schema) → Option (List Bool)
  | none => none
  | some l => some (verdicts valid x l)
  termination_by structural l => l

/-- Which of the variants admit an instance. -/
def verdicts (valid : Schema → Json → Bool) (x : Json) : List Schema → List Bool
  | [] => []
  | s :: r => s.admits valid x :: verdicts valid x r
  termination_by structural l => l

end

section

variable {valid : Schema → Json → Bool} {x : Json}

theorem verdicts_eq_map (l : List Schema) : verdicts valid x l = l.map (·.admits valid x) := by
  induction l with
  | nil => rfl
  | cons s l ih => simp [verdicts, ih]

theorem verdicts?_eq_map (l : Option (List Schema)) : verdicts? valid x l = l.map (·.map (·.admits valid x)) := by
  cases l with
  | none => rfl
  | some l => simp [verdicts?, verdicts_eq_map]

theorem unionsAdmit_iff (n : ObjectSchema) : unionsAdmit valid x n = true ↔
    (∀ l, n.oneOf = some l → l.countP (·.admits valid x) = 1) ∧
      (∀ l, n.anyOf = some l → ∃ s ∈ l, s.admits valid x = true) := by
  obtain ⟨_⟩ := n
  simp [unionsAdmit, verdicts?_eq_map, Option.all_eq_true, List.count_eq_countP, List.countP_map, Function.comp_def]

/-- A schema object admits what its types, its demands on members and its unions do. -/
theorem Schema.admits_object (n : ObjectSchema) : (Schema.object n).admits valid x = true ↔
    (∀ t, n.types = some t → t.admits x = true) ∧ n.admitsMembers valid x = true ∧
      (∀ l, n.oneOf = some l → l.countP (·.admits valid x) = 1) ∧
      (∀ l, n.anyOf = some l → ∃ s ∈ l, s.admits valid x = true) := by
  simp [Schema.admits, unionsAdmit_iff, Option.all_eq_true, and_assoc]

end

end KubeSchema
