import IndentMarkup.Bytes.Basic

/-!
# Buffered output

What is written to a sink is collected in a buffer, and handed on to its destination when
the buffer is full or is flushed. A destination may refuse all that it is handed; then the
sink has failed, and it stays so whatever is written to it later.
-/

namespace IndentMarkup

/-- A buffer in front of a destination. -/
structure Sink where
  /-- The reason why the destination refuses all bytes, if it does. -/
  refusal : Option Bytes
  /-- The bytes that the destination has received. -/
  received : Bytes
  /-- The bytes in the buffer. -/
  buffered : Bytes
  /-- The reason why the sink has failed, if it has. -/
  failure : Option Bytes
  deriving DecidableEq

namespace Sink

/-- The number of bytes in a full buffer. -/
def capacity : Nat := 4096

/-- A sink to which nothing has been written. -/
def new (refusal : Option Bytes) : Sink := ⟨refusal, [], [], none⟩

/-- The sink after it hands on the first `n` of the bytes `t`, and keeps the others. -/
def deliver (s : Sink) (n : Nat) (t : Bytes) : Sink :=
  match s.refusal with
  | none => { s with received := s.received ++ t.take n, buffered := t.drop n }
  | some reason => { s with failure := some reason }

/-- The sink after a text is written to it: whole buffers are handed on as soon as there is
    more to come. -/
def write (s : Sink) (t : Bytes) : Sink :=
  if s.failure.isSome then s
  else
    let all := s.buffered ++ t
    if all.length ≤ capacity then { s with buffered := all }
    else s.deliver ((all.length - 1) / capacity * capacity) all

/-- The sink after all that is in the buffer is handed on. -/
def flush (s : Sink) : Sink :=
  if s.failure.isSome || s.buffered.isEmpty then s else s.deliver s.buffered.length s.buffered

end Sink

end IndentMarkup
