import RelationalQuery.Dictionary
import RelationalQuery.Path
import RelationalQuery.Text.Unprintable
import RelationalQuery.Text.Quoted
import RelationalQuery.Value
import RelationalQuery.Record
import RelationalQuery.Record.Building
import RelationalQuery.Record.Columns
import RelationalQuery.Record.Display
import RelationalQuery.Record.Draft
import RelationalQuery.Record.Writing
import RelationalQuery.Table
import RelationalQuery.Table.Operators
import RelationalQuery.Table.Join
import RelationalQuery.Table.Ordering
import RelationalQuery.Plan
import RelationalQuery.Plan.Traversal
import RelationalQuery.Plan.Builder
import RelationalQuery.Plan.Execution
import RelationalQuery.Statement
import RelationalQuery.Statement.Keyword
import RelationalQuery.Statement.SyntaxError
import RelationalQuery.Statement.Reader
import RelationalQuery.Statement.Nesting
import RelationalQuery.Statement.Reading
import RelationalQuery.Proofs.Statement.Lexemes
import RelationalQuery.Proofs.Statement.Chains
import RelationalQuery.Proofs.Statement.Grammar
import RelationalQuery.Proofs.Statement.Printed
import RelationalQuery.Proofs.Statement.RoundTrip
import RelationalQuery.Proofs.Record.Equality
import RelationalQuery.Proofs.Table.Rows
import RelationalQuery.Proofs.Table.Join
import RelationalQuery.Proofs.Plan.Meaning
import RelationalQuery.Proofs.Statement.Acceptance
import RelationalQuery.Proofs.Table.OuterJoin
import RelationalQuery.Proofs.Plan.Choices
import RelationalQuery.Proofs.Record.Paths
import RelationalQuery.Proofs.Record.Writing
import RelationalQuery.Proofs.Record.Projection
import RelationalQuery.Proofs.Plan.PostOrder
import RelationalQuery.Proofs.Record.Leaves
import RelationalQuery.Proofs.Record.Rebuilding
import RelationalQuery.Proofs.Statement.Faults
import RelationalQuery.Proofs.Statement.Portable
import RelationalQuery.Proofs.Statement.WhereClause
import RelationalQuery.Proofs.Statement.Lookahead
import RelationalQuery.Proofs.Statement.Completion
import RelationalQuery.Proofs.Statement.Offence
import RelationalQuery.Proofs.Record.Aliases
import RelationalQuery.Proofs.Record.Order
import RelationalQuery.Proofs.Plan.RowOrder
import RelationalQuery.Proofs.Plan.Growth
import RelationalQuery.Proofs.Plan.LeftOuterChain
import RelationalQuery.Proofs.Record.Columns
import RelationalQuery.Proofs.Text.Quoted
import RelationalQuery.Proofs.Record.Display
import RelationalQuery.Proofs.Statement.TooDeep
import RelationalQuery.Statement.Cursor
import RelationalQuery.Proofs.Statement.Cursor
import RelationalQuery.Proofs.Statement.Scans
import RelationalQuery.Proofs.Statement.Places
import RelationalQuery.Proofs.Statement.Report
import RelationalQuery.Proofs.Record.Places
import RelationalQuery.Proofs.Plan.Failure
import RelationalQuery.Proofs.Plan.Underflow
import RelationalQuery.Proofs.Record.Refilling
import RelationalQuery.Proofs.Table.Projection
import RelationalQuery.Proofs.Sorting
import RelationalQuery.Proofs.Table.Ordering
import RelationalQuery.Proofs.Record.Drafts
import RelationalQuery.Proofs.Record.Rearrangement
import RelationalQuery.Proofs.Record.Flattening
import RelationalQuery.Proofs.Table.Selection
import RelationalQuery.Proofs.Dictionary
import RelationalQuery.Proofs.Table.Renaming
import RelationalQuery.Proofs.Table.Filling
import RelationalQuery.Proofs.Record.Building
import RelationalQuery.Proofs.Record.Lookup
import RelationalQuery.Proofs.Statement.Depths
