import IndentMarkup.Bytes.Basic

/-!
# Characters of a text

A text is read as characters where it is shown inside a message. Bytes that
are no part of an encoded character are *stray* and stand for themselves.

The character at the beginning of a text is found by taking the bits of its
first bytes as a code point and comparing the encoding of that code point with
the text (`Bytes.uncons?`). The comparison rules out everything that is not
the one encoding of a character: wrong continuation bytes, overlong forms,
surrogates and code points beyond the last one.
-/

namespace IndentMarkup

/-- A unit of a text: a character or a byte that belongs to none. -/
inductive Symbol where
  | char (c : Char)
  | stray (b : UInt8)
  deriving DecidableEq

namespace Bytes

/-- The character that the bits of the first bytes of a text denote, if these
    bytes are the encoding of a character at all. -/
def leading (t : Bytes) : Char :=
  let bits (i n : Nat) : Nat := (t.getD i 0).toNat % n
  Char.ofNat <|
    if bits 0 256 < 0x80 then bits 0 128
    else if bits 0 256 < 0xE0 then bits 0 32 * 64 + bits 1 64
    else if bits 0 256 < 0xF0 then (bits 0 16 * 64 + bits 1 64) * 64 + bits 2 64
    else ((bits 0 8 * 64 + bits 1 64) * 64 + bits 2 64) * 64 + bits 3 64

/-- The character that a text starts with, and the text after it. -/
def uncons? (t : Bytes) : Option (Char × Bytes) :=
  (after? (String.utf8EncodeChar (leading t)) t).map (leading t, ·)

theorem length_of_uncons? {t rest : Bytes} {c : Char} (h : uncons? t = some (c, rest)) :
    rest.length < t.length := by
  obtain ⟨r, hr, he⟩ := Option.map_eq_some_iff.1 h
  cases he
  have hlen := congrArg List.length (after?_eq_some_iff.1 hr)
  have hpos := (leading t).utf8Size_pos
  rw [List.length_append, String.length_utf8EncodeChar] at hlen
  omega

/-- The units of a text, in order. -/
def symbols (t : Bytes) : List Symbol :=
  match h : uncons? t with
  | some (c, rest) =>
    have := length_of_uncons? h
    .char c :: symbols rest
  | none =>
    match t with
    | [] => []
    | b :: rest => .stray b :: symbols rest
termination_by t.length

end Bytes

/-- The bytes of a unit in a valid text: a stray byte is shown as the
    replacement character. -/
def Symbol.shown : Symbol → Bytes
  | char c => String.utf8EncodeChar c
  | stray _ => String.utf8EncodeChar (Char.ofNat 0xFFFD)

end IndentMarkup
