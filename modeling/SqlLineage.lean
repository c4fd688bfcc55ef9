import SqlLineage.ColumnBlock
import SqlLineage.CommandLine
import SqlLineage.Comment
import SqlLineage.Definition
import SqlLineage.Diagram
import SqlLineage.Diagram.Encode
import SqlLineage.Environment
import SqlLineage.Extraction
import SqlLineage.Files
import SqlLineage.Files.Path
import SqlLineage.Inventory
import SqlLineage.Json
import SqlLineage.Keyword
import SqlLineage.Main
import SqlLineage.Notice
import SqlLineage.OrderedMap
import SqlLineage.Proofs.Case.ColumnBlock
import SqlLineage.Proofs.Case.Letter
import SqlLineage.Proofs.Case.Outline
import SqlLineage.Proofs.Case.Registry
import SqlLineage.Proofs.Case.Scan
import SqlLineage.Proofs.Case.Scope
import SqlLineage.Proofs.Case.Script
import SqlLineage.Proofs.Case.Select
import SqlLineage.Proofs.Case.Statement
import SqlLineage.Proofs.Case.Token
import SqlLineage.Proofs.Case.View
import SqlLineage.Proofs.Checked.Access
import SqlLineage.Proofs.Checked.ColumnBlock
import SqlLineage.Proofs.Checked.Extraction
import SqlLineage.Proofs.Checked.Query
import SqlLineage.Proofs.Checked.Registry
import SqlLineage.Proofs.Checked.Scan
import SqlLineage.Proofs.Checked.Scope
import SqlLineage.Proofs.Checked.Select
import SqlLineage.Proofs.Checked.Statement
import SqlLineage.Proofs.Checked.Token
import SqlLineage.Proofs.Definition.ColumnBlock
import SqlLineage.Proofs.Definition.ColumnList
import SqlLineage.Proofs.Definition.KeyFlags
import SqlLineage.Proofs.Definition.LineBreaks
import SqlLineage.Proofs.Diagram.EdgeIds
import SqlLineage.Proofs.Diagram.ReadBack
import SqlLineage.Proofs.Diagram.WellFormed
import SqlLineage.Proofs.Frame.Finish
import SqlLineage.Proofs.Frame.Registry
import SqlLineage.Proofs.Frame.Script
import SqlLineage.Proofs.Frame.Select
import SqlLineage.Proofs.Join.Grammar
import SqlLineage.Proofs.Join.Items
import SqlLineage.Proofs.Join.Lineage
import SqlLineage.Proofs.Join.Mentions
import SqlLineage.Proofs.Join.Scope
import SqlLineage.Proofs.Join.StarLineage
import SqlLineage.Proofs.Join.TableList
import SqlLineage.Proofs.Join.Written
import SqlLineage.Proofs.Query.Bindings
import SqlLineage.Proofs.Query.CteNames
import SqlLineage.Proofs.Query.Recursion
import SqlLineage.Proofs.Query.Trace
import SqlLineage.Proofs.Query.WithList
import SqlLineage.Proofs.Registry.Filing
import SqlLineage.Proofs.Registry.FreshName
import SqlLineage.Proofs.Registry.Invariant
import SqlLineage.Proofs.Registry.Spelling
import SqlLineage.Proofs.Registry.Usage
import SqlLineage.Proofs.Script.Anchored
import SqlLineage.Proofs.Script.CteUsage
import SqlLineage.Proofs.Script.Cut
import SqlLineage.Proofs.Script.Declarations
import SqlLineage.Proofs.Script.DiscoveredColumns
import SqlLineage.Proofs.Script.FilingEffect
import SqlLineage.Proofs.Script.Lookup
import SqlLineage.Proofs.Script.Observed
import SqlLineage.Proofs.Script.Parentheses
import SqlLineage.Proofs.Script.Reachable
import SqlLineage.Proofs.Script.SelfReference
import SqlLineage.Proofs.Script.Sites
import SqlLineage.Proofs.Script.StubColumns
import SqlLineage.Proofs.Script.Stubs
import SqlLineage.Proofs.Script.TableBody
import SqlLineage.Proofs.Script.Trace
import SqlLineage.Proofs.Script.Unclosed
import SqlLineage.Proofs.Script.Visibility
import SqlLineage.Proofs.Select.Behind
import SqlLineage.Proofs.Select.Collect
import SqlLineage.Proofs.Select.GroupingKeys
import SqlLineage.Proofs.Select.InFront
import SqlLineage.Proofs.Select.ItemsEnd
import SqlLineage.Proofs.Select.Nesting
import SqlLineage.Proofs.Select.NonTableFrom
import SqlLineage.Proofs.Select.Observed
import SqlLineage.Proofs.Select.Sources
import SqlLineage.Proofs.Select.TableTokens
import SqlLineage.Proofs.Text.Line
import SqlLineage.Proofs.Token.Balanced
import SqlLineage.Proofs.Token.Bare
import SqlLineage.Proofs.Token.Closing
import SqlLineage.Proofs.Token.Depth
import SqlLineage.Proofs.Token.Groups
import SqlLineage.Proofs.Token.Lexeme
import SqlLineage.Proofs.Token.Name
import SqlLineage.Proofs.Token.Piece
import SqlLineage.Proofs.Token.Place
import SqlLineage.Proofs.Token.Quoted
import SqlLineage.Proofs.Token.Strip
import SqlLineage.Query
import SqlLineage.Query.Unwind
import SqlLineage.Registry
import SqlLineage.Script
import SqlLineage.Select.Body
import SqlLineage.Select.ColumnRef
import SqlLineage.Select.Grouping
import SqlLineage.Select.Projection
import SqlLineage.Select.Scope
import SqlLineage.Select.TableRef
import SqlLineage.Session
import SqlLineage.Settings
import SqlLineage.Statement
import SqlLineage.Stub
import SqlLineage.Text.Alphabetic
import SqlLineage.Text.Character
import SqlLineage.Text.Fold
import SqlLineage.Text.Line
import SqlLineage.Text.Numeric
import SqlLineage.Text.Upper
import SqlLineage.Token
import SqlLineage.Token.Bracket
import SqlLineage.Token.QualifiedName
import SqlLineage.Token.Scan
import SqlLineage.Toml.Document
import SqlLineage.Toml.Reader
import SqlLineage.Toml.Scalar
import SqlLineage.Usage
