import GraphQL.Execution.Handlers
import GraphQL.Execution.JsonHost
import GraphQL.Request
import GraphQL.Schema.Builder
import GraphQL.Proofs.Execution.Conformance
import GraphQL.Proofs.Execution.Selection
import GraphQL.Proofs.Execution.Place
import GraphQL.Proofs.Execution.Nulls
import GraphQL.Proofs.Token.StringEnd
import GraphQL.Proofs.Execution.Rearranged
import GraphQL.Proofs.Parser.Exact.Document
import GraphQL.Proofs.Token.Cut
import GraphQL.Proofs.Parser.Reparse
import GraphQL.Proofs.Parser.Total
import GraphQL.Proofs.Parser.Composed
import GraphQL.Proofs.Validation.FragmentCycle
import GraphQL.Proofs.Schema.Loaded
import GraphQL.Proofs.Schema.Draft
import GraphQL.Proofs.Schema.InputCycle
import GraphQL.Proofs.Schema.Written
import GraphQL.Proofs.Schema.Lossless
import GraphQL.Proofs.Schema.InputOrder
import GraphQL.Proofs.Type.Counterpart
import GraphQL.Proofs.Schema.Counterpart
import GraphQL.Proofs.Coercion.Counterpart
import GraphQL.Proofs.Schema.DefaultFinal
import GraphQL.Proofs.Schema.SameWritten
import GraphQL.Proofs.Schema.Faultless
import GraphQL.Proofs.Schema.DefaultRearranged
import GraphQL.Proofs.Document.Nested
import GraphQL.Proofs.Validation.Inspection
import GraphQL.Proofs.Validation.UnusedFragment
import GraphQL.Proofs.Validation.UnusedVariable
import GraphQL.Proofs.Validation.SameFragments
import GraphQL.Proofs.Validation.Separate
import GraphQL.Proofs.Number.ReadBack
import GraphQL.Proofs.Value.Written
import GraphQL.Proofs.Schema.MoreLists
import GraphQL.Proofs.Coercion.Returns
import GraphQL.Proofs.Schema.StoredDefaults
import GraphQL.Proofs.Schema.Reprinted
import GraphQL.Proofs.Coercion.Declared
import GraphQL.Proofs.Coercion.Supplied
import GraphQL.Proofs.Execution.Expanded
import GraphQL.Proofs.Validation.Memo
import GraphQL.Proofs.Type.Interning
import GraphQL.Proofs.Parser.Respaced
import GraphQL.Proofs.Parser.Depth
import GraphQL.Proofs.Schema.Introspective
import GraphQL.Proofs.Execution.Introspection
import GraphQL.Proofs.Token.Number
import GraphQL.Proofs.Token.BlockString
import GraphQL.Proofs.Schema.References
import GraphQL.Proofs.Parser.Document
import GraphQL.Proofs.Text.Position
import GraphQL.Proofs.Coercion.ListTypes
import GraphQL.Proofs.Coercion.Recorder
import GraphQL.Proofs.Parser.Quoted
import GraphQL.Proofs.Parser.Unsupported
