import KubeSchema.Members
import KubeSchema.Json.Double

/-!
# JSON values

Objects keep their members in document order. Whole numbers are integers of any size and other numbers are doubles,
so that `1`, `1.0` and `true` are three different values.

* `Json.sorted`: the members of every object by name. Two values with the same sorted form differ in the order of
  members only; `Json.Alike` is that relation.
-/

namespace KubeSchema

/-- A JSON value. -/
inductive Json
  | null
  | bool (b : Bool)
  | int (n : Int)
  | double (d : Double)
  | str (s : String)
  | arr (items : List Json)
  | obj (members : List (String × Json))
  deriving Inhabited, Repr

/-! ## Equality -/

mutual

/-- Whether two values are the same, in the order of members too. -/
def Json.same : Json → Json → Bool
  | .null, .null => true
  | .bool a, .bool b => a == b
  | .int a, .int b => a == b
  | .double a, .double b => decide (a = b)
  | .str a, .str b => decide (a = b)
  | .arr xs, .arr ys => sameItems xs ys
  | .obj xs, .obj ys => sameMembers xs ys
  | _, _ => false
  termination_by structural a => a

def sameItems : List Json → List Json → Bool
  | [], [] => true
  | x :: xs, y :: ys => x.same y && sameItems xs ys
  | _, _ => false
  termination_by structural a => a

def sameMembers : List (String × Json) → List (String × Json) → Bool
  | [], [] => true
  | (k, x) :: xs, (l, y) :: ys => decide (k = l) && x.same y && sameMembers xs ys
  | _, _ => false
  termination_by structural a => a

end

mutual

theorem Json.same_iff : (a b : Json) → (a.same b = true ↔ a = b)
  | .null, b => by cases b <;> simp [Json.same]
  | .bool _, b => by cases b <;> simp [Json.same]
  | .int _, b => by cases b <;> simp [Json.same]
  | .double _, b => by cases b <;> simp [Json.same]
  | .str _, b => by cases b <;> simp [Json.same]
  | .arr xs, b => by cases b <;> simp [Json.same, sameItems_iff xs]
  | .obj xs, b => by cases b <;> simp [Json.same, sameMembers_iff xs]

theorem sameItems_iff : (xs ys : List Json) → (sameItems xs ys = true ↔ xs = ys)
  | [], ys => by cases ys <;> simp [sameItems]
  | x :: xs, ys => by cases ys <;> simp [sameItems, Json.same_iff x, sameItems_iff xs]

theorem sameMembers_iff : (xs ys : List (String × Json)) → (sameMembers xs ys = true ↔ xs = ys)
  | [], ys => by cases ys <;> simp [sameMembers]
  | (k, x) :: xs, ys => by
    rcases ys with _ | ⟨⟨l, y⟩, ys⟩
    · simp [sameMembers]
    · simp [sameMembers, Json.same_iff x, sameMembers_iff xs, and_assoc]

end

instance : DecidableEq Json := fun a b => decidable_of_iff _ (Json.same_iff a b)

namespace Json

/-- What a value is called in a message about its kind. -/
def kindName : Json → String
  | null => "NoneType"
  | bool _ => "bool"
  | int _ => "int"
  | double _ => "float"
  | str _ => "str"
  | arr _ => "list"
  | obj _ => "dict"

/-! ## The order of members -/

end Json

namespace Members

variable {α : Type}

/-- Puts a member before the first one whose name is not less. -/
def insertByName (name : String) (a : α) : Members α → Members α
  | [] => [(name, a)]
  | (k, b) :: r => if k < name then (k, b) :: insertByName name a r else (name, a) :: (k, b) :: r

/-- The members by name, in the order of code points. -/
def sortByName : Members α → Members α
  | [] => []
  | (k, a) :: r => insertByName k a (sortByName r)

end Members

mutual

/-- A value with the members of every object sorted by name. -/
def Json.sorted : Json → Json
  | .arr xs => .arr (sortedItems xs)
  | .obj ms => .obj (Members.sortByName (sortedMembers ms))
  | v => v
  termination_by structural a => a

def sortedItems : List Json → List Json
  | [] => []
  | x :: xs => x.sorted :: sortedItems xs
  termination_by structural a => a

def sortedMembers : List (String × Json) → List (String × Json)
  | [] => []
  | (k, x) :: xs => (k, x.sorted) :: sortedMembers xs
  termination_by structural a => a

end

/-- Equal up to the order of the members of objects, at any depth. -/
def Json.Alike (a b : Json) : Prop := a.sorted = b.sorted

instance (a b : Json) : Decidable (a.Alike b) := inferInstanceAs (Decidable (_ = _))

theorem sortedItems_eq_map (xs : List Json) : sortedItems xs = xs.map Json.sorted := by
  induction xs with
  | nil => rfl
  | cons x xs ih => simp [sortedItems, ih]

theorem sortedMembers_eq_map (ms : List (String × Json)) :
    sortedMembers ms = ms.map (fun m => (m.1, m.2.sorted)) := by
  induction ms with
  | nil => rfl
  | cons m ms ih => simp [sortedMembers, ih]

end KubeSchema
