import IndentMarkup.Encoder.Basic
import IndentMarkup.Outline

/-!
# Compiling

A source is compiled to a template for a target: the target is checked first, then the
source is parsed and an encoder writes the document (`compile`). Either there is a whole
template or an error. `transpile` does the same between an input and an output, each of which may
fail with a reason of its own.
-/

namespace IndentMarkup

/-- What a compilation depends on, besides the source. -/
structure Options where
  /-- The name of the source in positions. -/
  file : Bytes
  /-- The target, possibly empty. -/
  target : Bytes

/-- The reasons why there is no template. -/
inductive CompileError where
  /-- The target is no version. -/
  | target (e : InvalidTarget)
  /-- Something is wrong with the source. -/
  | source (d : Diagnostic)
  /-- The document cannot be written. -/
  | encode (e : EncodeError)

namespace CompileError

/-- The error on one line. -/
def message : CompileError → Bytes
  | target e => e.message
  | source d => d.message
  | encode e => e.message

/-- The diagnostic of an error that has a place. -/
def diagnostic? : CompileError → Option Diagnostic
  | target _ => none
  | source d => some d
  | encode e => e.diagnostic?

end CompileError

/-- The template that a source is compiled to. -/
def compile (opts : Options) (src : Bytes) : Except CompileError Bytes := do
  (Target.validate opts.target).mapError .target
  let document ← (Document.parse opts.file src).mapError .source
  let encoder ← (Encoder.new opts.target none).mapError .target
  match encoder.encode document with
  | (encoder, none) => return encoder.sink.received
  | (_, some e) => .error (.encode e)

/-- The reasons why no template comes out. -/
inductive TranspileError where
  /-- The input cannot be read. -/
  | read (file reason : Bytes)
  /-- There is no template. -/
  | compile (e : CompileError)
  /-- The output cannot be written. -/
  | write (file reason : Bytes)

namespace TranspileError

/-- The error on one line. -/
def message : TranspileError → Bytes
  | read file reason => "cannot read '" ++ file ++ "': " ++ reason
  | compile e => e.message
  | write file reason => "cannot write template for '" ++ file ++ "': " ++ reason

/-- The diagnostic of an error that has a place. -/
def diagnostic? : TranspileError → Option Diagnostic
  | compile e => e.diagnostic?
  | read _ _ | write _ _ => none

end TranspileError

/-- The template that an input, which is a source or the reason why there is none, is
    compiled to, for an output that may refuse it. The name `file` takes precedence over
    the one in the options unless it is empty. -/
def transpile (file : Bytes) (input : Except Bytes Bytes) (refusal : Option Bytes)
    (opts : Options) : Except TranspileError Bytes := do
  let opts := if file.isEmpty then opts else { opts with file }
  let src ← input.mapError (.read opts.file)
  let template ← (IndentMarkup.compile opts src).mapError .compile
  match refusal with
  | none => return template
  | some reason => .error (.write opts.file reason)

end IndentMarkup
