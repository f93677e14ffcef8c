import SchemaCatalog.Address.Basic
import SchemaCatalog.Address.Host
import SchemaCatalog.Address.Parser
import SchemaCatalog.Address.Path
import SchemaCatalog.Api.Basic
import SchemaCatalog.Api.Catalog
import SchemaCatalog.Api.Encode
import SchemaCatalog.Api.Projection
import SchemaCatalog.Check.Basic
import SchemaCatalog.Check.Encode
import SchemaCatalog.Check.Walk
import SchemaCatalog.CommandLine.Arguments
import SchemaCatalog.CommandLine.Run
import SchemaCatalog.Corpus.Basic
import SchemaCatalog.Corpus.Load
import SchemaCatalog.Domain.Basic
import SchemaCatalog.Domain.Composition
import SchemaCatalog.Domain.Direction
import SchemaCatalog.Domain.Joiner
import SchemaCatalog.Domain.Mapping
import SchemaCatalog.Domain.MappingTable
import SchemaCatalog.Domain.Mark
import SchemaCatalog.Domain.Punycode
import SchemaCatalog.FileTree
import SchemaCatalog.Json.Basic
import SchemaCatalog.Json.Reader
import SchemaCatalog.Json.Token
import SchemaCatalog.Json.Writer
import SchemaCatalog.Main
import SchemaCatalog.NameOrder
import SchemaCatalog.Number.Basic
import SchemaCatalog.Number.Binary64
import SchemaCatalog.Number.Literal
import SchemaCatalog.Number.Shortest
import SchemaCatalog.OrderedMap
import SchemaCatalog.Proofs.Registry.Content
import SchemaCatalog.Proofs.Resolution.Discipline
import SchemaCatalog.Proofs.Resolution.Outcome
import SchemaCatalog.Proofs.Resolution.ReferenceFree
import SchemaCatalog.Proofs.Resolution.Session
import SchemaCatalog.Proofs.Resolution.Replacement
import SchemaCatalog.Proofs.Schema.Nested
import SchemaCatalog.Proofs.Schema.Places
import SchemaCatalog.Reference
import SchemaCatalog.Registry
import SchemaCatalog.Resolver
import SchemaCatalog.SameElements
import SchemaCatalog.Schema.Basic
import SchemaCatalog.Schema.Decode
import SchemaCatalog.Schema.Encode
import SchemaCatalog.Schema.Equality
import SchemaCatalog.Schema.Fold
import SchemaCatalog.Schema.Pointer
import SchemaCatalog.Schema.Vocabulary
import SchemaCatalog.Text.Percent
import SchemaCatalog.Text.Split
import SchemaCatalog.Text.Table
import SchemaCatalog.Text.Utf8
import SchemaCatalog.Proofs.Resolution.Moments
import SchemaCatalog.Proofs.Resolution.Graph
import SchemaCatalog.Proofs.Resolution.Termination
import SchemaCatalog.Proofs.Resolution.Documents
import SchemaCatalog.Proofs.Resolution.Expansion
import SchemaCatalog.Proofs.Resolution.Faithful
import SchemaCatalog.Proofs.Resolution.Inlining
import SchemaCatalog.Proofs.Json.DistinctNames
import SchemaCatalog.Proofs.Schema.Decoding
import SchemaCatalog.Proofs.Schema.Folding
import SchemaCatalog.Proofs.Schema.Parts
import SchemaCatalog.Proofs.Schema.Proper
import SchemaCatalog.Proofs.Schema.RoundTrip
import SchemaCatalog.Proofs.Schema.Canonical
import SchemaCatalog.Proofs.Schema.FoldedTrees
import SchemaCatalog.Proofs.Resolution.Produced
import SchemaCatalog.Proofs.Resolution.DecodeEncode
import SchemaCatalog.Proofs.Api.FoldedShapes
import SchemaCatalog.Proofs.Api.ProducedShapes
import SchemaCatalog.Proofs.Registry.Identities
import SchemaCatalog.Proofs.Resolution.Correspondence
import SchemaCatalog.Proofs.Api.Catalogs
import SchemaCatalog.Proofs.Check.Visits
import SchemaCatalog.Proofs.Check.Clean
import SchemaCatalog.Proofs.Json.Equality
import SchemaCatalog.Proofs.Schema.Comparable
import SchemaCatalog.Proofs.Resolution.Gathered
import SchemaCatalog.Proofs.Resolution.Compositional
import SchemaCatalog.Proofs.Resolution.Persistence
import SchemaCatalog.Proofs.Registry.Requests
import SchemaCatalog.Proofs.Api.CatalogEntries
import SchemaCatalog.Proofs.Json.Permuted
import SchemaCatalog.Proofs.Schema.Rearranged
import SchemaCatalog.Proofs.Schema.RearrangedPlaces
import SchemaCatalog.Proofs.Resolution.Settled
import SchemaCatalog.Proofs.Resolution.MemberOrder
import SchemaCatalog.Proofs.Check.Findings
import SchemaCatalog.Proofs.Check.Enumerations
import SchemaCatalog.Proofs.Check.SharedNames
import SchemaCatalog.Proofs.Schema.Likewise
import SchemaCatalog.Proofs.Api.EqualShapes
import SchemaCatalog.Proofs.Resolution.Accounts
import SchemaCatalog.Proofs.Resolution.Sharing
import SchemaCatalog.Proofs.Schema.Grammar
import SchemaCatalog.Proofs.Schema.MemberOrder
import SchemaCatalog.Proofs.Api.Shadowing
import SchemaCatalog.Proofs.Resolution.Standalone
import SchemaCatalog.Proofs.Schema.Absorption
import SchemaCatalog.Proofs.Schema.Conflicts
import SchemaCatalog.Proofs.Resolution.Done
import SchemaCatalog.Proofs.Resolution.Reports
import SchemaCatalog.Proofs.Resolution.Stubs
import SchemaCatalog.Proofs.Schema.Copies
import SchemaCatalog.Proofs.Schema.Pointers
import SchemaCatalog.Proofs.Schema.Positions
import SchemaCatalog.Proofs.Check.Paths
import SchemaCatalog.Proofs.Api.RepeatedProperties
import SchemaCatalog.Proofs.Resolution.Again
import SchemaCatalog.Proofs.Api.WellFormedShapes
import SchemaCatalog.Proofs.Api.ErrorCatalogs
import SchemaCatalog.Proofs.Api.Signatures
import SchemaCatalog.Proofs.Api.MethodNames
import SchemaCatalog.Proofs.NameOrder
import SchemaCatalog.Proofs.Corpus
import SchemaCatalog.Proofs.Check.Consistency
import SchemaCatalog.Proofs.Resolution.Identified
import SchemaCatalog.Proofs.Check.FirstVisits
