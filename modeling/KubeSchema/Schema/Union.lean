import KubeSchema.Schema.Basic

/-!
# Unions

A schema object states a union in one of two keywords: `oneOf` for tagged unions and plain enums, `anyOf` for untagged
unions and optional enums.
-/

namespace KubeSchema

/-- The keyword that states a union. -/
inductive Union
  | oneOf
  | anyOf
  deriving DecidableEq, Repr

def Union.keyword : Union → Keyword
  | .oneOf => .oneOf
  | .anyOf => .anyOf

def Union.name (u : Union) : String := u.keyword.name

namespace Node

variable {σ : Type}

/-- The variants of a union. -/
def variants (n : Node σ) : Union → Option (List σ)
  | .oneOf => n.oneOf
  | .anyOf => n.anyOf

/-- Puts variants into a union. -/
def setVariants (n : Node σ) : Union → Option (List σ) → Node σ
  | .oneOf, vs => { n with oneOf := vs }
  | .anyOf, vs => { n with anyOf := vs }

/-- Whether a union has variants. -/
def hasVariants (n : Node σ) (u : Union) : Bool := !((n.variants u).getD []).isEmpty

/-- Whether both unions have variants. -/
def hasConflictingUnions (n : Node σ) : Bool := n.hasVariants .oneOf && n.hasVariants .anyOf

/-- Takes an empty `oneOf` out. -/
def dropEmptyOneOf (n : Node σ) : Node σ := if n.oneOf matches some [] then { n with oneOf := none } else n

end Node

end KubeSchema
