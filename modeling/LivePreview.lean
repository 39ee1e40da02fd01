import LivePreview.Assoc
import LivePreview.CommandLine.Request
import LivePreview.CommandLine.Run
import LivePreview.Compile.Answer
import LivePreview.Compile.Command
import LivePreview.Compile.Gateway
import LivePreview.Component
import LivePreview.Decimal.Shortest
import LivePreview.Element
import LivePreview.Hook.Call
import LivePreview.Hook.Store
import LivePreview.Json.Number
import LivePreview.Json.Parser
import LivePreview.Json.Printer
import LivePreview.Json.Value
import LivePreview.Jsx.Element
import LivePreview.Jsx.Expression
import LivePreview.Jsx.Function
import LivePreview.Jsx.Program
import LivePreview.Jsx.Reader
import LivePreview.Jsx.Statement
import LivePreview.Jsx.Token
import LivePreview.Main
import LivePreview.Markdown.Entity
import LivePreview.Markdown.Fenced
import LivePreview.Markdown.Html
import LivePreview.Markdown.Line
import LivePreview.Markup.Node
import LivePreview.Pattern.Basic
import LivePreview.Preview.Board
import LivePreview.Preview.Session
import LivePreview.Preview.Submission
import LivePreview.Proofs.Assoc
import LivePreview.Proofs.Compile.Wire
import LivePreview.Proofs.Hook.Action
import LivePreview.Proofs.Hook.Calling
import LivePreview.Proofs.Hook.Cells
import LivePreview.Proofs.Hook.Dependencies
import LivePreview.Proofs.Hook.Life
import LivePreview.Proofs.Hook.Queue
import LivePreview.Proofs.Hook.Refinement
import LivePreview.Proofs.Json.Numbers
import LivePreview.Proofs.Json.Strings
import LivePreview.Proofs.Json.Values
import LivePreview.Proofs.Jsx.Item
import LivePreview.Proofs.Jsx.Word
import LivePreview.Proofs.Markdown.Body
import LivePreview.Proofs.Markdown.Progress
import LivePreview.Proofs.Markup.Content
import LivePreview.Proofs.Markup.Unique
import LivePreview.Proofs.Pattern.Anchor
import LivePreview.Proofs.Pattern.Finds
import LivePreview.Proofs.Pattern.Reads
import LivePreview.Proofs.Pattern.Replace
import LivePreview.Proofs.Pattern.Search
import LivePreview.Proofs.Pattern.Seek
import LivePreview.Proofs.Pattern.Sieve
import LivePreview.Proofs.Preview.Instantiation
import LivePreview.Proofs.Preview.Newest
import LivePreview.Proofs.Preview.Numbering
import LivePreview.Proofs.Preview.Requests
import LivePreview.Proofs.Preview.Takedown
import LivePreview.Proofs.Preview.Transition
import LivePreview.Proofs.Script.Barred
import LivePreview.Proofs.Script.Evaluation
import LivePreview.Proofs.Script.Recorded
import LivePreview.Proofs.Script.Scripted
import LivePreview.Proofs.Script.Spending
import LivePreview.Proofs.Script.Stable
import LivePreview.Proofs.Script.Table
import LivePreview.Proofs.Source.Alongside
import LivePreview.Proofs.Source.Balance
import LivePreview.Proofs.Source.Collapse
import LivePreview.Proofs.Source.ConstCut
import LivePreview.Proofs.Source.Cut
import LivePreview.Proofs.Source.Declared
import LivePreview.Proofs.Source.Document
import LivePreview.Proofs.Source.Heads
import LivePreview.Proofs.Source.Hunt
import LivePreview.Proofs.Source.Identifier
import LivePreview.Proofs.Source.ImportLine
import LivePreview.Proofs.Source.Imports
import LivePreview.Proofs.Source.Level
import LivePreview.Proofs.Source.Lexing
import LivePreview.Proofs.Source.Line
import LivePreview.Proofs.Source.LineCut
import LivePreview.Proofs.Source.ListCut
import LivePreview.Proofs.Source.Markup
import LivePreview.Proofs.Source.Mask
import LivePreview.Proofs.Source.Mass
import LivePreview.Proofs.Source.Matching
import LivePreview.Proofs.Source.Naming
import LivePreview.Proofs.Source.Octets
import LivePreview.Proofs.Source.ParameterList
import LivePreview.Proofs.Source.Parentheses
import LivePreview.Proofs.Source.Partners
import LivePreview.Proofs.Source.Parts
import LivePreview.Proofs.Source.Passage
import LivePreview.Proofs.Source.Plain
import LivePreview.Proofs.Source.Reading
import LivePreview.Proofs.Source.Restrip
import LivePreview.Proofs.Source.Rounds
import LivePreview.Proofs.Source.Sieve
import LivePreview.Proofs.Source.Spare
import LivePreview.Proofs.Source.Splice
import LivePreview.Proofs.Source.Track
import LivePreview.Proofs.Source.TypeArguments
import LivePreview.Proofs.Source.TypeRegion
import LivePreview.Proofs.Source.Untyped
import LivePreview.Proofs.Source.Unwinding
import LivePreview.Proofs.Source.Vacant
import LivePreview.Proofs.Source.Weave
import LivePreview.Proofs.Source.White
import LivePreview.Proofs.Source.WholeLine
import LivePreview.Proofs.Source.Wrapping
import LivePreview.Proofs.Surface.Alignment
import LivePreview.Proofs.Surface.Alternation
import LivePreview.Proofs.Surface.Apart
import LivePreview.Proofs.Surface.Capture
import LivePreview.Proofs.Surface.Chart
import LivePreview.Proofs.Surface.Children
import LivePreview.Proofs.Surface.Chronicle
import LivePreview.Proofs.Surface.Cleanup
import LivePreview.Proofs.Surface.Commitment
import LivePreview.Proofs.Surface.Cycle
import LivePreview.Proofs.Surface.Delivery
import LivePreview.Proofs.Surface.Depth
import LivePreview.Proofs.Surface.Endless
import LivePreview.Proofs.Surface.Enumeration
import LivePreview.Proofs.Surface.Freshness
import LivePreview.Proofs.Surface.Gather
import LivePreview.Proofs.Surface.Identity
import LivePreview.Proofs.Surface.Keyed
import LivePreview.Proofs.Surface.Listed
import LivePreview.Proofs.Surface.Log
import LivePreview.Proofs.Surface.Pass
import LivePreview.Proofs.Surface.Place
import LivePreview.Proofs.Surface.Removal
import LivePreview.Proofs.Surface.Rerender
import LivePreview.Proofs.Surface.Sketch
import LivePreview.Proofs.Surface.Storage
import LivePreview.Proofs.Surface.Story
import LivePreview.Proofs.Surface.Survival
import LivePreview.Proofs.Surface.Unfolding
import LivePreview.Proofs.Surface.Upkeep
import LivePreview.Proofs.Surface.Walk
import LivePreview.Proofs.Surface.Wiring
import LivePreview.Proofs.Text.Digits
import LivePreview.Script.Argument
import LivePreview.Script.Eval
import LivePreview.Script.Format
import LivePreview.Script.Invoke
import LivePreview.Script.Library
import LivePreview.Script.Machine
import LivePreview.Script.Numeral
import LivePreview.Script.Operation
import LivePreview.Script.Parser
import LivePreview.Script.Sandbox
import LivePreview.Script.Syntax
import LivePreview.Script.Token
import LivePreview.Script.Value
import LivePreview.Settings
import LivePreview.Shell.Ending
import LivePreview.Shell.Run
import LivePreview.Shell.Script
import LivePreview.Source.Bracket
import LivePreview.Source.ComponentName
import LivePreview.Source.Fence
import LivePreview.Source.Literal
import LivePreview.Source.Mask
import LivePreview.Source.Parameter
import LivePreview.Source.Plain
import LivePreview.Source.Response
import LivePreview.Surface.Basic
import LivePreview.Surface.Render
import LivePreview.Surface.Stage
import LivePreview.Text.Digits
import LivePreview.Text.Identifier
import LivePreview.Text.Quoted
import LivePreview.Text.Space
import LivePreview.Text.Utf8
import LivePreview.Text.Word
import LivePreview.Toml.Reader
import LivePreview.Toml.Scalar
import LivePreview.Toml.Value
import LivePreview.Workspace
