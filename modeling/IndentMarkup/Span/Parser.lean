import IndentMarkup.Bytes.Space
import IndentMarkup.Fault
import IndentMarkup.Span.Basic

/-!
# Reading spans

An expression starts after `#{` and goes up to the matching brace
(`closingBrace`), so braces inside it come in pairs. What stands between the
expressions is literal text. Two things can be wrong: the matching brace may be
missing, and there may be nothing but white space before it.
-/

namespace IndentMarkup

/-- The offset of the brace that closes the outermost of `depth` open ones. Where
    braces close what was never opened, `depth` is negative, and as many have to be
    opened before another one counts. -/
def closingBrace (depth : Int) : Bytes → Option Nat
  | [] => none
  | b :: t =>
    if b = Byte.lbrace then (closingBrace (depth + 1) t).map (· + 1)
    else if b = Byte.rbrace then
      if depth = 1 then some 0 else (closingBrace (depth - 1) t).map (· + 1)
    else (closingBrace depth t).map (· + 1)

/-- The offset of the brace that closes the one at the offset `opening`. -/
def matchingBrace (t : Bytes) (opening : Nat) : Option Nat :=
  (closingBrace 0 (t.drop opening)).map (· + opening)

namespace Span

/-- The text before the first `#{`, and the text after it if there is one. -/
def cutOpening : Bytes → Bytes × Option Bytes
  | [] => ([], none)
  | [b] => ([b], none)
  | b :: c :: t =>
    if b = Byte.hash ∧ c = Byte.lbrace then ([], some t)
    else
      let r := cutOpening (c :: t)
      (b :: r.1, r.2)

theorem eq_of_cutOpening {t lit rest : Bytes} (h : cutOpening t = (lit, some rest)) :
    t = lit ++ Byte.hash :: Byte.lbrace :: rest := by
  induction t using cutOpening.induct generalizing lit with
  | case1 => simp [cutOpening] at h
  | case2 => simp [cutOpening] at h
  | case3 b c t hbc =>
    simp only [cutOpening, hbc, and_self, if_true, Prod.mk.injEq, Option.some.injEq] at h
    simp [← h.1, ← h.2, hbc]
  | case4 b c t hbc ih =>
    rw [cutOpening, if_neg hbc] at h
    simp only [Prod.mk.injEq] at h
    rw [ih (Prod.ext rfl h.2), ← h.1, List.cons_append]

/-- The span of a text that starts at the offset `off` of a line's text. -/
def parseFrom (off : Nat) (t : Bytes) : Except Fault Span :=
  match h : cutOpening t with
  | (lit, none) => .ok (ofLiteral lit)
  | (lit, some rest) =>
    let start := off + lit.length
    match closingBrace 1 rest with
    | none => .error ⟨start, off + t.length, .openInterpolation⟩
    | some n =>
      let value := rest.take n
      let next := start + n + 3
      if (Bytes.trim value).isEmpty then .error ⟨start, next, .emptyInterpolation⟩
      else do
        have : rest.length < t.length := by
          rw [eq_of_cutOpening h, List.length_append, List.length_cons, List.length_cons]
          omega
        let tail ← parseFrom next (rest.drop (n + 1))
        return ofLiteral lit ++ .interpolation value :: tail
termination_by t.length

/-- The span that a text denotes. -/
def parse (t : Bytes) : Except Fault Span := parseFrom 0 t

end Span

end IndentMarkup
