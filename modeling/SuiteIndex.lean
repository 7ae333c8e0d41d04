import SuiteIndex.Disk.Entry
import SuiteIndex.Disk.Load
import SuiteIndex.Disk.Scan
import SuiteIndex.Disk.Walk
import SuiteIndex.Document
import SuiteIndex.Editor.Completion
import SuiteIndex.Editor.Cursor
import SuiteIndex.Editor.Definition
import SuiteIndex.Editor.Outline
import SuiteIndex.Editor.Usage
import SuiteIndex.Error
import SuiteIndex.Index.Arena
import SuiteIndex.Index.Container
import SuiteIndex.Index.SearchTree
import SuiteIndex.Index.Symbol
import SuiteIndex.Library.Basic
import SuiteIndex.Library.Definition
import SuiteIndex.Library.Json
import SuiteIndex.Node.Basic
import SuiteIndex.Node.Nodes
import SuiteIndex.Node.Walk
import SuiteIndex.Path
import SuiteIndex.Position
import SuiteIndex.Proofs.Disk.Load
import SuiteIndex.Proofs.Disk.Scan
import SuiteIndex.Proofs.Disk.Walk
import SuiteIndex.Proofs.Editor.Completion
import SuiteIndex.Proofs.Editor.Cursor
import SuiteIndex.Proofs.Editor.Outline
import SuiteIndex.Proofs.Editor.Reference
import SuiteIndex.Proofs.Editor.Usages
import SuiteIndex.Proofs.Index.Arena
import SuiteIndex.Proofs.Index.Argument
import SuiteIndex.Proofs.Index.Container
import SuiteIndex.Proofs.Index.Copies
import SuiteIndex.Proofs.Index.SearchTree
import SuiteIndex.Proofs.Index.Symbol
import SuiteIndex.Proofs.Node.Chains
import SuiteIndex.Proofs.Node.Collect
import SuiteIndex.Proofs.Node.Nesting
import SuiteIndex.Proofs.Node.Transcript
import SuiteIndex.Proofs.Node.Walk
import SuiteIndex.Proofs.Path
import SuiteIndex.Proofs.Position
import SuiteIndex.Proofs.Position.Cover
import SuiteIndex.Proofs.Script.Brackets
import SuiteIndex.Proofs.Script.Definition
import SuiteIndex.Proofs.Script.Enclosure
import SuiteIndex.Proofs.Script.Function
import SuiteIndex.Proofs.Script.Glyphs
import SuiteIndex.Proofs.Script.Keyword
import SuiteIndex.Proofs.Script.Parameter
import SuiteIndex.Proofs.Script.RoundTrip
import SuiteIndex.Proofs.Suite.Attribution
import SuiteIndex.Proofs.Suite.BlankLines
import SuiteIndex.Proofs.Suite.Body
import SuiteIndex.Proofs.Suite.Call
import SuiteIndex.Proofs.Suite.Enclosure
import SuiteIndex.Proofs.Suite.Layout
import SuiteIndex.Proofs.Suite.LineEndings
import SuiteIndex.Proofs.Suite.Merging
import SuiteIndex.Proofs.Suite.Offer
import SuiteIndex.Proofs.Suite.Renumbering
import SuiteIndex.Proofs.Suite.Separation
import SuiteIndex.Proofs.Suite.Sequence
import SuiteIndex.Proofs.Suite.Setting
import SuiteIndex.Proofs.Suite.Target
import SuiteIndex.Proofs.Suite.Tiling
import SuiteIndex.Proofs.Suite.Value
import SuiteIndex.Proofs.Suite.Wording
import SuiteIndex.Proofs.Table.Grouping
import SuiteIndex.Proofs.Table.Joining
import SuiteIndex.Proofs.Table.Line
import SuiteIndex.Proofs.Table.Pipes
import SuiteIndex.Proofs.Table.Placement
import SuiteIndex.Proofs.Table.Segment
import SuiteIndex.Proofs.Text.Lowercase
import SuiteIndex.Proofs.Text.Order
import SuiteIndex.Proofs.Text.Split
import SuiteIndex.Proofs.Text.Trim
import SuiteIndex.Proofs.Token
import SuiteIndex.Proofs.Token.Lexer
import SuiteIndex.Proofs.Workspace.Acceptance
import SuiteIndex.Proofs.Workspace.Again
import SuiteIndex.Proofs.Workspace.File
import SuiteIndex.Proofs.Workspace.Groups
import SuiteIndex.Proofs.Workspace.Owners
import SuiteIndex.Proofs.Workspace.Ownership
import SuiteIndex.Proofs.Workspace.Qualification
import SuiteIndex.Proofs.Workspace.Reachable
import SuiteIndex.Proofs.Workspace.Rebuild
import SuiteIndex.Proofs.Workspace.Registration
import SuiteIndex.Proofs.Workspace.Resolution
import SuiteIndex.Proofs.Workspace.Run
import SuiteIndex.Proofs.Workspace.Typing
import SuiteIndex.Proofs.Workspace.Undo
import SuiteIndex.Script.Reading
import SuiteIndex.Script.Signature
import SuiteIndex.Suite.Basic
import SuiteIndex.Suite.Body
import SuiteIndex.Suite.Call
import SuiteIndex.Suite.Expression
import SuiteIndex.Suite.Function
import SuiteIndex.Suite.Reading
import SuiteIndex.Suite.Setting
import SuiteIndex.Suite.Value
import SuiteIndex.Table.Cell
import SuiteIndex.Table.Segment
import SuiteIndex.Table.Statement
import SuiteIndex.Text
import SuiteIndex.Text.CaseTable
import SuiteIndex.Text.Lowercase
import SuiteIndex.Text.Utf8
import SuiteIndex.Token
import SuiteIndex.Workspace.Basic
import SuiteIndex.Workspace.Edit
import SuiteIndex.Workspace.File
import SuiteIndex.Workspace.Lookup
