/-!
# JSON pointers

A pointer names a value inside a document by the tokens that lead to it from the root: names of members, and indices
of items in decimal. It is written as a URI fragment; in a token `~` becomes `~0` and `/` becomes `~1`.
-/

namespace KubeSchema

/-- The tokens from the root of a document to a value. -/
abbrev Pointer := List String

namespace Pointer

/-- The token of the item at an index. -/
def index (i : Nat) : String := toString i

/-- A character of a token as it is written. -/
def escapedChar (c : Char) : List Char :=
  if c = '~' then ['~', '0'] else if c = '/' then ['~', '1'] else [c]

/-- A token as it is written, after its slash. -/
def renderToken (token : String) : List Char := '/' :: token.toList.flatMap escapedChar

/-- A pointer as a fragment, such as `#/properties/spec/oneOf/1`. -/
def render (p : Pointer) : String := String.ofList ('#' :: p.flatMap renderToken)

end Pointer

end KubeSchema
