import KubeSchema.Proofs.Meaning.Admits
import Mathlib.Algebra.Group.Int.Defs

/-!
# Values as instances

An instance is what a JSON value stands for: numbers are equal whether or not they are written with a fraction, and
the order of the members of an object means nothing. Schemas that list values are judged by this equality.

* `Json.Equals`: the equality of instances, by a normal form of values (`Json.plain`).
* `Schema.judge`: a meaning of schemas, given what a schema object means beside its unions and how it combines the
  judgements on their variants; `Schema.judge_object` unfolds it.
-/

namespace KubeSchema

/-! ## Equality -/

/-- A double as a value; an integer if it is whole. -/
def Double.plain (d : Double) : Json :=
  match d with
  | .finite negative digits exponent =>
    if d.isWhole then
      let size : Int := digits * 10 ^ exponent.toNat / 10 ^ (-exponent).toNat
      .int (if negative then -size else size)
    else .double d
  | _ => .double d

mutual

/-- The form that is common to all values that stand for the same instance. -/
def Json.plain : Json → Json
  | .double d => d.plain
  | .arr xs => .arr (plainItems xs)
  | .obj ms => .obj (Members.sortByName (plainMembers ms))
  | v => v
  termination_by structural a => a

def plainItems : List Json → List Json
  | [] => []
  | x :: xs => x.plain :: plainItems xs
  termination_by structural a => a

def plainMembers : List (String × Json) → List (String × Json)
  | [] => []
  | (k, x) :: xs => (k, x.plain) :: plainMembers xs
  termination_by structural a => a

end

/-- Two values stand for the same instance. -/
def Json.Equals (a b : Json) : Prop := a.plain = b.plain

instance (a b : Json) : Decidable (a.Equals b) := inferInstanceAs (Decidable (_ = _))

example : (Json.obj [("a", .int 10), ("b", .null)]).Equals
    (.obj [("b", .null), ("a", .double (.finite false 1 1))]) := by decide

namespace Json

theorem Equals.refl (v : Json) : v.Equals v := rfl

theorem Equals.symm {a b : Json} (h : a.Equals b) : b.Equals a := Eq.symm h

theorem Equals.trans {a b c : Json} (h : a.Equals b) (h' : b.Equals c) : a.Equals c := Eq.trans h h'

/-- Only `null` equals `null`. -/
theorem null_equals_iff {v : Json} : null.Equals v ↔ v = null := by
  refine ⟨fun h => ?_, fun h => h ▸ .refl _⟩
  cases v with
  | null => rfl
  | double d =>
    have h : null = d.plain := h
    unfold Double.plain at h
    split at h
    · split at h <;> cases h
    · cases h
  | _ => cases h

end Json

/-! ## Judging schemas -/

section

variable (own : ObjectSchema → Option (List Bool) → Option (List Bool) → Bool)

mutual

/-- Judges a schema. A schema object is judged with the judgements on the variants of its `oneOf` and its `anyOf`. -/
def Schema.judge : Schema → Bool
  | .bool b => b
  | .object n => judgeUnions (own n) n
  termination_by structural s => s

def judgeUnions (combine : Option (List Bool) → Option (List Bool) → Bool) : Node Schema → Bool
  | { oneOf, anyOf, .. } => combine (judgements? oneOf) (judgements? anyOf)
  termination_by structural n => n

def judgements? : Option (List Schema) → Option (List Bool)
  | none => none
  | some l => some (judgements l)
  termination_by structural l => l

def judgements : List Schema → List Bool
  | [] => []
  | s :: r => s.judge :: judgements r
  termination_by structural l => l

end

variable {own}

theorem judgements_eq_map (l : List Schema) : judgements own l = l.map (·.judge own) := by
  induction l with
  | nil => rfl
  | cons s l ih => simp [judgements, ih]

theorem judgements?_eq_map (l : Option (List Schema)) : judgements? own l = l.map (·.map (·.judge own)) := by
  cases l with
  | none => rfl
  | some l => simp [judgements?, judgements_eq_map]

theorem Schema.judge_object (n : ObjectSchema) : (Schema.object n).judge own =
    own n (n.oneOf.map (·.map (·.judge own))) (n.anyOf.map (·.map (·.judge own))) := by
  rw [Schema.judge]
  obtain ⟨_⟩ := n
  simp [judgeUnions, judgements?_eq_map]

end

end KubeSchema
