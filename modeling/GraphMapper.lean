import GraphMapper.Aql.Aggregate
import GraphMapper.Aql.Lexeme
import GraphMapper.Aql.Statement
import GraphMapper.Aql.Syntax
import GraphMapper.Aql.Text
import GraphMapper.Dict
import GraphMapper.Document.Basic
import GraphMapper.Document.Fetching
import GraphMapper.Document.Handle
import GraphMapper.Document.Reading
import GraphMapper.Error.Basic
import GraphMapper.Error.Message
import GraphMapper.Json.Basic
import GraphMapper.Json.Numeral
import GraphMapper.Json.Printer
import GraphMapper.Json.Record
import GraphMapper.Json.Source
import GraphMapper.Mapper
import GraphMapper.Mutation.Documents
import GraphMapper.Mutation.Edges
import GraphMapper.Number.Double
import GraphMapper.Number.Notation
import GraphMapper.Number.Shortest
import GraphMapper.Provision.Definition
import GraphMapper.Provision.Inventory
import GraphMapper.Provision.Plan
import GraphMapper.Query.Basic
import GraphMapper.Query.Draft
import GraphMapper.Query.Filter
import GraphMapper.Query.Matching
import GraphMapper.Query.Notation
import GraphMapper.Query.Operation
import GraphMapper.Query.Outline
import GraphMapper.Query.Path
import GraphMapper.Query.Rows
import GraphMapper.Query.Statement
import GraphMapper.Query.Typing
import GraphMapper.Relation.Declaration
import GraphMapper.Relation.Hop
import GraphMapper.Relation.Link
import GraphMapper.Relation.Pairing
import GraphMapper.Relation.Resolution
import GraphMapper.Relation.Topology
import GraphMapper.Schema.Attribute
import GraphMapper.Schema.Basic
import GraphMapper.Schema.Entity
import GraphMapper.Schema.Validity
import GraphMapper.Settings
import GraphMapper.Text.CaseTables
import GraphMapper.Text.Digits
import GraphMapper.Text.Identifier
import GraphMapper.Text.Lowercase
import GraphMapper.Text.Order
import GraphMapper.Text.Uuid
import GraphMapper.Timestamp.Basic
import GraphMapper.Timestamp.Text
import GraphMapper.Transport
import GraphMapper.Value.Basic
import GraphMapper.Value.Stored
import GraphMapper.Proofs.Dict
import GraphMapper.Proofs.Order
import GraphMapper.Proofs.Outcome
import GraphMapper.Proofs.Transport
import GraphMapper.Proofs.Schema.Registered
import GraphMapper.Proofs.Relation.Pairing
import GraphMapper.Proofs.Relation.Resolved
import GraphMapper.Proofs.Relation.Represented
import GraphMapper.Proofs.Relation.Accounts
import GraphMapper.Proofs.Relation.Resolvable
import GraphMapper.Proofs.Provision.Definitions
import GraphMapper.Proofs.Provision.Execution
import GraphMapper.Proofs.Provision.Convergence
import GraphMapper.Proofs.Mutation.EdgeStore
import GraphMapper.Proofs.Mutation.Linking
import GraphMapper.Proofs.Mutation.SingleValued
import GraphMapper.Proofs.Text.Digits
import GraphMapper.Proofs.Timestamp.Calendar
import GraphMapper.Proofs.Timestamp.Text
import GraphMapper.Proofs.Value
import GraphMapper.Proofs.Document.Reading
import GraphMapper.Proofs.Document.Stored
import GraphMapper.Proofs.Document.Updating
import GraphMapper.Proofs.Aql.Evaluation
import GraphMapper.Proofs.Aql.Scope
import GraphMapper.Proofs.Aql.Variables
import GraphMapper.Proofs.Query.Built
import GraphMapper.Proofs.Query.Distinct
import GraphMapper.Proofs.Query.Scoped
import GraphMapper.Proofs.Query.Routes
import GraphMapper.Proofs.Query.Assignments
import GraphMapper.Proofs.Query.Mirrored
import GraphMapper.Proofs.Query.Filters
import GraphMapper.Proofs.Schema.Valid
import GraphMapper.Proofs.Schema.Arrangement
import GraphMapper.Proofs.Aql.Binding
import GraphMapper.Proofs.Mutation.Complete
import GraphMapper.Proofs.Mutation.Defined
import GraphMapper.Proofs.Mutation.Removal
import GraphMapper.Proofs.Query.Literals
import GraphMapper.Proofs.Query.Names
import GraphMapper.Proofs.Relation.Arrangement
import GraphMapper.Proofs.Query.Binding
import GraphMapper.Proofs.Document.Included
import GraphMapper.Proofs.Query.Legal
import GraphMapper.Proofs.Document.Fetching
import GraphMapper.Proofs.Timestamp.Order
import GraphMapper.Proofs.Query.Reserved
import GraphMapper.Proofs.Query.Forest
import GraphMapper.Proofs.Query.Readings
import GraphMapper.Proofs.Query.Determined
import GraphMapper.Proofs.Query.Numbering
import GraphMapper.Proofs.Mutation.BothEnds
import GraphMapper.Proofs.Query.Keys
import GraphMapper.Proofs.Aql.Formula
import GraphMapper.Proofs.Aql.Tokens
import GraphMapper.Proofs.Aql.Parsing
import GraphMapper.Proofs.Query.FilterText
import GraphMapper.Proofs.Number.Double
import GraphMapper.Proofs.Document.Neighbours
import GraphMapper.Proofs.Document.Origin
import GraphMapper.Proofs.Query.Notation
import GraphMapper.Proofs.Schema.History
import GraphMapper.Proofs.Document.Defaults
import GraphMapper.Proofs.Aql.Lines
import GraphMapper.Proofs.Query.PageText
import GraphMapper.Proofs.Query.Paging
import GraphMapper.Proofs.Mutation.EdgeText
import GraphMapper.Proofs.Query.Passages
