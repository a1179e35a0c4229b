import IndentMarkup.Fault

/-!
# Groups in brackets

A group goes from an opening bracket to the matching closing one. Brackets of the
same kind inside it come in pairs. A quoted part of the group is skipped, with the
brackets in it; it goes up to the same quote, and a backslash inside it takes the
next byte with it.
-/

namespace IndentMarkup

/-- The brackets around groups. -/
inductive Bracket where
  /-- Parentheses, around plain attributes. -/
  | round
  /-- Braces, around bindings and helper calls. -/
  | curly
  deriving DecidableEq

namespace Bracket

/-- The bracket that opens a group. -/
def opening : Bracket → UInt8
  | round => Byte.lparen
  | curly => Byte.lbrace

/-- The bracket that closes a group. -/
def closing : Bracket → UInt8
  | round => Byte.rparen
  | curly => Byte.rbrace

/-- The offset of the bracket that closes the outermost of `depth` open ones, from
    inside a part quoted by `quote`, if there is such a quote. Where brackets close
    what was never opened, `depth` is negative, and as many have to be opened before
    another one counts. -/
def close (k : Bracket) (quote : Option UInt8) (depth : Int) : Bytes → Option Nat
  | [] => none
  | b :: t =>
    match quote with
    | some q =>
      if b = Byte.backslash then
        match t with
        | [] => none
        | _ :: t => (close k (some q) depth t).map (· + 2)
      else if b = q then (close k none depth t).map (· + 1)
      else (close k (some q) depth t).map (· + 1)
    | none =>
      if Byte.isQuote b then (close k (some b) depth t).map (· + 1)
      else if b = k.opening then (close k none (depth + 1) t).map (· + 1)
      else if b = k.closing then
        if depth = 1 then some 0 else (close k none (depth - 1) t).map (· + 1)
      else (close k none depth t).map (· + 1)

/-- The inner text of the group at the beginning of a text, and the text after the
    group. The text is at the offset `off` of a line's text. -/
def group (k : Bracket) (off : Nat) (t : Bytes) : Except Fault (Bytes × Bytes) :=
  match k.close none 0 t with
  | some n => .ok ((t.drop 1).take (n - 1), t.drop (n + 1))
  | none => .error ⟨off, off + t.length, .openGroup k.opening k.closing⟩

theorem length_of_group {k : Bracket} {off : Nat} {t inner rest : Bytes}
    (h : k.group off t = .ok (inner, rest)) : rest.length < t.length := by
  unfold group at h
  split at h
  · rename_i n hn
    cases h
    cases t with
    | nil => simp [close] at hn
    | cons b t =>
      rw [List.length_drop, List.length_cons]
      omega
  · cases h

end Bracket

end IndentMarkup
