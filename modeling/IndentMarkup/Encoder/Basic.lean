import IndentMarkup.Encoder.Sink
import IndentMarkup.Fault
import IndentMarkup.Node.Basic
import IndentMarkup.Target
import IndentMarkup.Template.Row

/-!
# Encoders

An encoder is made for a target (`Encoder.new`) and writes documents, one after the other, to a
sink (`Encoder.encode`). It keeps count of the level of indentation and of the lines of the
document. A block looks ahead: an else that comes right after an if or unless is written with it.

Three things cannot be written: an else without a block to belong to, a document inside another
one, and a node that is missing. The encoder stops at the first of them, as it does when the sink
has failed. What is written up to then stays in the buffer, in front of what is written next, and
the counts stay as they are until the next document. The sink is flushed after a document that is
written completely.
-/

namespace IndentMarkup

/-- The reasons why a node cannot be written. -/
inductive RenderError where
  /-- An else, at the given range, without a block it belongs to. -/
  | orphanElse (range : Range)
  /-- A document inside a document. -/
  | nestedDocument
  /-- No node where one should be. -/
  | absentNode
  deriving DecidableEq

namespace RenderError

/-- The diagnostic of an error that has a place. -/
def diagnostic? : RenderError → Option Diagnostic
  | orphanElse range => some (Problem.orphanElse.diagnostic range [])
  | nestedDocument | absentNode => none

/-- The error on one line. -/
def message : RenderError → Bytes
  | orphanElse range => (Problem.orphanElse.diagnostic range []).message
  | nestedDocument => "cannot encode node of type *ast.Document"
  | absentNode => "cannot encode node of type <nil>"

end RenderError

/-- The reasons why a document is not written. -/
inductive EncodeError where
  /-- A node cannot be written. -/
  | render (e : RenderError)
  /-- The sink has failed on writing. -/
  | write (reason : Bytes)
  /-- The sink has failed on flushing. -/
  | flush (reason : Bytes)
  deriving DecidableEq

namespace EncodeError

/-- The diagnostic of an error that has a place. -/
def diagnostic? : EncodeError → Option Diagnostic
  | render e => e.diagnostic?
  | write _ | flush _ => none

/-- The error on one line. -/
def message : EncodeError → Bytes
  | render e => e.message
  | write reason => reason
  | flush reason => "failed to flush written template: " ++ reason

end EncodeError

/-- A writer of documents. -/
structure Encoder where
  /-- How bindings are written. -/
  style : BindingStyle
  /-- Where the templates go. -/
  sink : Sink
  /-- The level of indentation. -/
  indent : Nat
  /-- The number of lines of the document that have been started. -/
  lines : Nat

namespace Encoder

/-- What an encoder does to write something. If this fails, the encoder is left as it is then. -/
abbrev Writing := EStateM EncodeError Encoder Unit

/-- An encoder that has not written anything, in front of a destination that may refuse all
    bytes. -/
def fresh (style : BindingStyle) (refusal : Option Bytes) : Encoder := ⟨style, .new refusal, 0, 0⟩

/-- An encoder for a target. -/
def new (target : Bytes) (refusal : Option Bytes) : Except InvalidTarget Encoder :=
  return fresh (← Target.style target) refusal

/-- Fails if the sink has failed. -/
def check (error : Bytes → EncodeError) : Writing := do
  match (← get).sink.failure with
  | none => return
  | some reason => throw (error reason)

/-- Writes a text. -/
def writeText (t : Bytes) : Writing := do
  modify fun e => { e with sink := e.sink.write t }
  check .write

/-- Hands on all that has been written. -/
def flush : Writing := do
  modify fun e => { e with sink := e.sink.flush }
  check .flush

/-- Starts a new line, unless it is the first one of a document. -/
def startLine : Writing := do
  if (← get).lines ≠ 0 then writeText [Byte.lf] else return

/-- Writes a row on a line of its own. -/
def writeRow (r : Row) : Writing := do
  startLine
  modify fun e => { e with lines := e.lines + 1 }
  if r.text.isEmpty then return else writeText r.bytes

/-- Writes a text on a line of its own, at the level of the encoder. -/
def writeLine (t : Bytes) : Writing := do
  writeRow ⟨(← get).indent, t⟩

/-- Writes a tag, which depends on how bindings are written, on a line of its own. -/
def writeTag (tag : BindingStyle → Bytes) : Writing := do
  writeLine (tag (← get).style)

/-- Goes one level deeper. -/
def enter : Writing := modify fun e => { e with indent := e.indent + 1 }

/-- Comes back from one level deeper. -/
def leave : Writing := modify fun e => { e with indent := e.indent - 1 }

/-- Writes something one level deeper, and comes back unless this fails. -/
def inside (w : Writing) : Writing := do
  enter
  w
  leave

/-- Writes something one level deeper, and comes back whether or not this fails. -/
def nested (w : Writing) : Writing := do
  enter
  try w finally leave

/-- Writes the content of an element in front of what is nested in it, if there is any. -/
def writeContent (content : Span) : Writing :=
  if content.isHollow then return else writeLine content.template

mutual

/-- Writes a node. What `branch` writes is the else that belongs to the node, if it is a block that
    has one. -/
def writeNode (branch : Writing) : Node → Writing
  | .element _ el [] =>
    writeTag fun style => el.openTag style ++ el.content.template ++ el.closeTag
  | .element _ el (c :: cs) => do
    writeTag fun style => el.openTag style
    inside do
      writeContent el.content
      writeNodes (c :: cs)
    writeLine el.closeTag
  | .text _ span => writeLine span.template
  | .expression _ value => writeLine (mustache value)
  | .block r b cs =>
    if b.keyword = .elseWord then throw (.render (.orphanElse r))
    else do
      writeLine (mustache ("#" ++ b.keyword.name ++ " " ++ b.argument))
      nested (writeNodes cs)
      branch
      writeLine (mustache ("/" ++ b.keyword.name))
  | .document _ _ => throw (.render .nestedDocument)
  | .absent => throw (.render .absentNode)

/-- Writes siblings. An else right after a node that takes it is written with that node. -/
def writeNodes : List Node → Writing
  | [] => return
  | n :: .block r e es :: ns =>
    if n.takesElse ∧ e.keyword = .elseWord then do
      writeNode (do writeLine (mustache "else"); nested (writeNodes es)) n
      writeNodes ns
    else do
      writeNode (return) n
      writeNodes (.block r e es :: ns)
  | n :: ns => do
    writeNode (return) n
    writeNodes ns

end

/-- Writes a document and hands it on. -/
def writeDocument (d : Document) : Writing := do
  modify fun e => { e with indent := 0, lines := 0 }
  writeNodes d.children
  flush

/-- The encoder after a document, and why the document is not written, if so. -/
def encode (e : Encoder) (d : Document) : Encoder × Option EncodeError :=
  match writeDocument d e with
  | .ok _ e => (e, none)
  | .error err e => (e, some err)

end Encoder

end IndentMarkup
