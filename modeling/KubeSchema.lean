import KubeSchema.Main
import KubeSchema.Pass
import KubeSchema.PublicName
import KubeSchema.Schema.Draft
import KubeSchema.Proofs.DeclaredNames
import KubeSchema.Proofs.Idempotence
import KubeSchema.Proofs.Malformed
import KubeSchema.Proofs.Structural
import KubeSchema.Proofs.Violations
import KubeSchema.Proofs.Meaning.Admits
import KubeSchema.Proofs.Meaning.Closed
import KubeSchema.Proofs.Meaning.Tagged
import KubeSchema.Proofs.Meaning.Untagged
import KubeSchema.Proofs.Meaning.Values
import KubeSchema.Proofs.Meaning.Enumerated
import KubeSchema.Proofs.Meaning.Optional
import KubeSchema.Proofs.NullFree
import KubeSchema.Proofs.Relocation
import KubeSchema.Proofs.Alike.Members
import KubeSchema.Proofs.Alike.Schema
import KubeSchema.Proofs.Alike.Reading
import KubeSchema.Proofs.Alike.Writing
import KubeSchema.Proofs.Alike.Unions
import KubeSchema.Proofs.Alike.Settle
import KubeSchema.Proofs.MemberOrder
import KubeSchema.Proofs.EmptyEnum
import KubeSchema.Proofs.EmptyOneOf
import KubeSchema.Proofs.Faults
import KubeSchema.Proofs.Blame
import KubeSchema.Proofs.Files
import KubeSchema.Proofs.Conversion
import KubeSchema.Proofs.Paths
import KubeSchema.Proofs.Beside
import KubeSchema.Proofs.Command
import KubeSchema.Proofs.Json.Numbers
import KubeSchema.Proofs.Json.RoundTrip
import KubeSchema.Proofs.Document
import KubeSchema.Proofs.Permuted.Members
import KubeSchema.Proofs.Permuted.Schema
import KubeSchema.Proofs.Permuted.Settle
import KubeSchema.Proofs.VariantOrder
import KubeSchema.Proofs.Union.Merging
import KubeSchema.Proofs.Settle.Stepwise
import KubeSchema.Proofs.Union.Handover
import KubeSchema.Proofs.UntaggedEnums
import KubeSchema.Proofs.Schema.Grammar
import KubeSchema.Proofs.Schema.Counts
import KubeSchema.Proofs.Schema.Normal
import KubeSchema.Proofs.Frame
import KubeSchema.Proofs.Union.Consuming
import KubeSchema.Proofs.Pass.Repeat
import KubeSchema.Proofs.Pass.Flag
import KubeSchema.Proofs.Json.Canonical
import KubeSchema.Proofs.Json.SameContent
import KubeSchema.Proofs.Schema.Comparison
