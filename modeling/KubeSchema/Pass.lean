import KubeSchema.Restructure

/-!
# Single passes

The parts of the restructuring of a schema object, to be run one at a time.

* `Pass.apply`: one pass; `none` if there is nothing to do.
* `Pass.runAll`: passes in a row on one schema object, up to the first that fails.
-/

namespace KubeSchema

/-- A part of the restructuring of a schema object, or all of it. -/
inductive Pass
  | enumVariants
  | optional
  | enumValues
  | properties (union : Union)
  | enumNull
  | unknownFields
  | uniqueItems
  | whole
  deriving DecidableEq, Repr

namespace Pass

/-- Applies a pass. -/
def apply (o : Options) (path : Pointer) (n : ObjectSchema) : Pass → Run (Option ObjectSchema)
  | enumVariants => n.hoistEnumVariants path
  | optional => do return (← n.hoistOptional path).map Optional.node
  | enumValues => n.hoistEnumValues path
  | properties u => n.hoistProperties u path
  | enumNull => pure n.dropEnumNull
  | unknownFields => pure (n.preserveUnknownFields o.preserveKey)
  | uniqueItems => pure n.dropUniqueItems
  | whole => some <$> o.settle path n

/-- What a pass leaves: whether it had something to do, and the members of the schema object. -/
structure Step where
  applied : Bool
  members : Members Json
  deriving DecidableEq, Repr

/-- Runs passes one after the other, until one fails or leaves what cannot be written. -/
def runAll (o : Options) (path : Pointer) (n : ObjectSchema) : List Pass → List (Pass × Except Fault Step)
  | [] => []
  | p :: ps =>
    match (p.apply o path n).outcome with
    | .error e => [(p, .error e)]
    | .ok result =>
      let m := result.getD n
      match m.encode with
      | .error e => [(p, .error (.misfit (.encode e)))]
      | .ok members => (p, .ok ⟨result.isSome, members⟩) :: runAll o path m ps

end Pass

end KubeSchema
