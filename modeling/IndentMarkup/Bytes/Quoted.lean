import IndentMarkup.Bytes.Printable
import IndentMarkup.Bytes.Utf8

/-!
# Quoted texts

A text inside a message stands between double quotes and on one line: quotes and
backslashes are written after a backslash, printable characters as they are, and
everything else as an escape. The common controls have an escape of one letter,
the other controls of ASCII and stray bytes are `\x` with two hexadecimal digits,
and other characters `\u` with four or `\U` with eight of them.

A long text is cut to a *sample* before it is quoted (`Bytes.sample`).
-/

namespace IndentMarkup

/-- The last `n` hexadecimal digits of a number, in lower case. -/
def hexDigits : Nat → Nat → Bytes
  | 0, _ => []
  | n + 1, x => hexDigits n (x / 16) ++ [(Nat.digitChar (x % 16)).toUInt8]

/-- The letter that stands for a control character after a backslash. -/
def controlLetter? (code : Nat) : Option Bytes :=
  match code with
  | 0x07 => some "a"
  | 0x08 => some "b"
  | 0x09 => some "t"
  | 0x0A => some "n"
  | 0x0B => some "v"
  | 0x0C => some "f"
  | 0x0D => some "r"
  | _ => none

/-- A unit of a text as it is written between double quotes. -/
def Symbol.quoted : Symbol → Bytes
  | .stray b => "\\x" ++ hexDigits 2 b.toNat
  | .char c =>
    if c = '"' || c = '\\' then Byte.backslash :: String.utf8EncodeChar c
    else if isPrintable c then String.utf8EncodeChar c
    else
      match controlLetter? c.toNat with
      | some letter => Byte.backslash :: letter
      | none =>
        if c.toNat < 0x20 || c.toNat = 0x7F then "\\x" ++ hexDigits 2 c.toNat
        else if c.toNat < 0x10000 then "\\u" ++ hexDigits 4 c.toNat
        else "\\U" ++ hexDigits 8 c.toNat

namespace Bytes

/-- A text between double quotes, on one line. -/
def quoted (t : Bytes) : Bytes := "\"" ++ (symbols t).flatMap Symbol.quoted ++ "\""

/-- The first characters of a text, as valid UTF-8, and an ellipsis if there are
    more than 16 of them. -/
def sample (t : Bytes) : Bytes :=
  let units := symbols t
  (units.take 16).flatMap Symbol.shown ++ if 16 < units.length then ofString "..." else []

end Bytes

end IndentMarkup
