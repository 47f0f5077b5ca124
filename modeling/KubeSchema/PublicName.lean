import KubeSchema.Text.Quoted

/-!
# Public names

The names under which the parts of the program are known, and the full name of each.
-/

namespace KubeSchema

/-- The public names, each with the part of the program that defines it. -/
def publicNames : List (String × String) :=
  [("StructuralSchemaRewriter", "structuralize.rewriter"),
    ("rewrite_structural_schema", "structuralize.rewriter"),
    ("convert_json_schema_to_structural_schema", "structuralize.rewriter"),
    ("convert_json_schema_to_structural_schema_files", "structuralize.rewriter"),
    ("StructuralSchemaError", "structuralize.common")]

/-- A name that is not public. -/
structure UnknownName where
  name : String
  deriving DecidableEq, Repr

def UnknownName.message (e : UnknownName) : String := s!"module 'structuralize' has no attribute {Text.quote e.name}"

/-- The full name of a public name. -/
def fullName (name : String) : Except UnknownName String :=
  match publicNames.lookup name with
  | some origin => .ok s!"{origin}.{name}"
  | none => .error ⟨name⟩

end KubeSchema
