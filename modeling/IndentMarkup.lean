import IndentMarkup.Attribute.Basic
import IndentMarkup.Attribute.Parser
import IndentMarkup.Attribute.Token
import IndentMarkup.Bytes.Basic
import IndentMarkup.Bytes.Printable
import IndentMarkup.Bytes.Quoted
import IndentMarkup.Bytes.Space
import IndentMarkup.Bytes.Utf8
import IndentMarkup.Command.Flags
import IndentMarkup.Command.Run
import IndentMarkup.Command.Sources
import IndentMarkup.Compile
import IndentMarkup.Diagnostic.Basic
import IndentMarkup.Diagnostic.Explain
import IndentMarkup.Element.Basic
import IndentMarkup.Element.Group
import IndentMarkup.Element.Parser
import IndentMarkup.Encoder.Basic
import IndentMarkup.Encoder.Sink
import IndentMarkup.Fault
import IndentMarkup.FileTree.Basic
import IndentMarkup.FileTree.Path
import IndentMarkup.FileTree.System
import IndentMarkup.Indent
import IndentMarkup.Keyword
import IndentMarkup.Line
import IndentMarkup.Main
import IndentMarkup.Node.Basic
import IndentMarkup.Node.Parser
import IndentMarkup.Outline
import IndentMarkup.Position
import IndentMarkup.Span.Basic
import IndentMarkup.Span.Parser
import IndentMarkup.Target
import IndentMarkup.Template.Row
import IndentMarkup.Template.Tag
import IndentMarkup.Version
import IndentMarkup.Proofs.Basic
import IndentMarkup.Proofs.Node
import IndentMarkup.Proofs.Nesting
import IndentMarkup.Proofs.Preorder
import IndentMarkup.Proofs.Rejection
import IndentMarkup.Proofs.Branches
import IndentMarkup.Proofs.Encoder
import IndentMarkup.Proofs.Compile
import IndentMarkup.Proofs.Span
import IndentMarkup.Proofs.OneLine
import IndentMarkup.Proofs.SinglePass
import IndentMarkup.Proofs.Indentation
import IndentMarkup.Proofs.Relocation
import IndentMarkup.Proofs.Acceptance
import IndentMarkup.Proofs.Composition
import IndentMarkup.Proofs.WellFormed
import IndentMarkup.Proofs.Location
import IndentMarkup.Proofs.FileTree
import IndentMarkup.Proofs.Options
import IndentMarkup.Proofs.Session
import IndentMarkup.Proofs.Command
import IndentMarkup.Proofs.CanonicalSpan
import IndentMarkup.Proofs.Splitting
import IndentMarkup.Proofs.LookAhead
import IndentMarkup.Proofs.Search
import IndentMarkup.Proofs.Rerun
import IndentMarkup.Proofs.Quoting
import IndentMarkup.Proofs.Header
import IndentMarkup.Proofs.Bindings
import IndentMarkup.Proofs.Requoting
import IndentMarkup.Proofs.Collection
import IndentMarkup.Proofs.Version
import IndentMarkup.Proofs.AttributeReading
import IndentMarkup.Proofs.Alignment
import IndentMarkup.Proofs.OpenNodes
import IndentMarkup.Proofs.MatchingBracket
import IndentMarkup.Proofs.Literals
