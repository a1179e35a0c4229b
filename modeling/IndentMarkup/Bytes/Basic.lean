/-!
# Texts as bytes

Sources, templates, file names and messages are sequences of bytes. A source
need not be valid UTF-8, and every column, offset and length counts bytes, so
a text is the list of its bytes (`Bytes`) and a character is looked at only
where a rule is about characters.

String literals stand for their UTF-8 encoding (`Bytes.ofString`), and the
bytes with a meaning in the markup have names (`Byte.hash`, `Byte.lbrace`, …).
-/

namespace IndentMarkup

/-- A text, as the list of its bytes. -/
abbrev Bytes := List UInt8

/-! ## Named bytes -/

namespace Byte

/-- The horizontal tab. -/
@[match_pattern] abbrev tab : UInt8 := 0x09

/-- The line feed, which ends a line. -/
@[match_pattern] abbrev lf : UInt8 := 0x0A

/-- The form feed. -/
@[match_pattern] abbrev ff : UInt8 := 0x0C

/-- The carriage return, which may stand before a line feed. -/
@[match_pattern] abbrev cr : UInt8 := 0x0D

/-- The space. -/
@[match_pattern] abbrev space : UInt8 := 0x20

/-- The double quote. -/
@[match_pattern] abbrev dquote : UInt8 := 0x22

/-- The hash sign, which starts an id or, before a brace, an interpolation. -/
@[match_pattern] abbrev hash : UInt8 := 0x23

/-- The percent sign, which starts a tag. -/
@[match_pattern] abbrev percent : UInt8 := 0x25

/-- The single quote. -/
@[match_pattern] abbrev squote : UInt8 := 0x27

/-- The opening parenthesis. -/
@[match_pattern] abbrev lparen : UInt8 := 0x28

/-- The closing parenthesis. -/
@[match_pattern] abbrev rparen : UInt8 := 0x29

/-- The plus sign, which starts the build part of a version. -/
@[match_pattern] abbrev plus : UInt8 := 0x2B

/-- The dash, which starts a block. -/
@[match_pattern] abbrev dash : UInt8 := 0x2D

/-- The dot, which starts a class. -/
@[match_pattern] abbrev dot : UInt8 := 0x2E

/-- The slash between the names of a path. -/
@[match_pattern] abbrev slash : UInt8 := 0x2F

/-- The colon. -/
@[match_pattern] abbrev colon : UInt8 := 0x3A

/-- The equals sign, which starts an expression or an attribute's value. -/
@[match_pattern] abbrev eq : UInt8 := 0x3D

/-- The backslash. -/
@[match_pattern] abbrev backslash : UInt8 := 0x5C

/-- The caret, which underlines the place of an error. -/
@[match_pattern] abbrev caret : UInt8 := 0x5E

/-- The underscore. -/
@[match_pattern] abbrev underscore : UInt8 := 0x5F

/-- The opening brace. -/
@[match_pattern] abbrev lbrace : UInt8 := 0x7B

/-- The closing brace. -/
@[match_pattern] abbrev rbrace : UInt8 := 0x7D

/-- The decimal digits. -/
def isDigit (b : UInt8) : Bool := 0x30 ≤ b && b ≤ 0x39

/-- The letters of ASCII. -/
def isLetter (b : UInt8) : Bool := (0x41 ≤ b && b ≤ 0x5A) || (0x61 ≤ b && b ≤ 0x7A)

/-- The two quotes. -/
def isQuote (b : UInt8) : Bool := b == dquote || b == squote

end Byte

namespace Bytes

/-- The UTF-8 encoding of a string. -/
def ofString (s : String) : Bytes := s.toList.flatMap String.utf8EncodeChar

instance : Coe String Bytes := ⟨ofString⟩

/-! ## Cutting and joining -/

/-- The pieces of a text between the bytes `sep`: one more than there are such
    bytes, some of them possibly empty. -/
def pieces (sep : UInt8) (t : Bytes) : List Bytes :=
  t.foldr (fun b ps => if b = sep then [] :: ps else ps.modifyHead (b :: ·)) [[]]

/-- The texts `ts` with `sep` between each two of them. -/
def join (sep : Bytes) (ts : List Bytes) : Bytes := sep.intercalate ts

/-- What follows `p` in a text that starts with `p`. -/
def after? : Bytes → Bytes → Option Bytes
  | [], t => some t
  | _ :: _, [] => none
  | a :: p, b :: t => if a = b then after? p t else none

theorem after?_eq_some_iff {p t rest : Bytes} : after? p t = some rest ↔ t = p ++ rest := by
  induction p generalizing t with
  | nil => simp [after?]
  | cons a p ih => cases t with
    | nil => simp [after?]
    | cons b t => by_cases h : a = b <;> simp [after?, h, ih, eq_comm]

/-- Whether the text ends with `tail`. -/
def endsWith (t tail : Bytes) : Bool := tail.isSuffixOf t

/-- The text without `tail` at its end, or as it is if it does not end so. -/
def dropEnd (t tail : Bytes) : Bytes :=
  if endsWith t tail then t.take (t.length - tail.length) else t

/-- The text with every `b` replaced by `r`. -/
def replace (b : UInt8) (r t : Bytes) : Bytes := t.flatMap fun c => if c = b then r else [c]

/-- A text of `n` spaces. -/
def spaces (n : Nat) : Bytes := List.replicate n Byte.space

/-- The texts as a choice: commas between them and `or` before the last one. -/
def alternatives : List Bytes → Bytes
  | [] => []
  | [t] => t
  | [t, u] => t ++ " or " ++ u
  | t :: ts => t ++ ", " ++ alternatives ts

/-! ## Numbers -/

/-- The decimal digits of a natural number, without leading zeros. -/
def ofNat (n : Nat) : Bytes := (Nat.toDigits 10 n).map Char.toUInt8

/-- The decimal digits of an integer, after a dash if it is negative. -/
def ofInt : Int → Bytes
  | .ofNat n => ofNat n
  | .negSucc n => Byte.dash :: ofNat (n + 1)

/-- The number that a text of decimal digits denotes. -/
def toNat (t : Bytes) : Nat := t.foldl (fun n b => 10 * n + (b.toNat - 0x30)) 0

end Bytes

end IndentMarkup
