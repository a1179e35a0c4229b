import IndentMarkup.Bytes.Basic

/-!
# Versions

A version is three numbers and possibly a pre-release, which is a sequence of identifiers:
`1.13.0-beta.2`. Minor number and patch may be left out, and then nothing can follow them.
A build part after a plus sign is read and forgotten. Numbers have no leading zeros, and
neither have identifiers of a pre-release that consist of digits.

A pre-release comes before its release (`Version.reaches`).
-/

namespace IndentMarkup

/-- A version. -/
structure Version where
  /-- The first number. -/
  major : Nat
  /-- The second number. -/
  minor : Nat
  /-- The third number. -/
  patch : Nat
  /-- The identifiers of the pre-release, none for a release. -/
  pre : List Bytes
  deriving DecidableEq

namespace Version

/-- A number with a zero in front of other digits. -/
def hasLeadingZero (t : Bytes) : Bool := t.head? == some 0x30 && 1 < t.length

/-- The number at the beginning of a text, and the text after it. -/
def numeral? (t : Bytes) : Option (Nat × Bytes) :=
  let digits := t.takeWhile Byte.isDigit
  if digits.isEmpty || hasLeadingZero digits then none
  else some (Bytes.toNat digits, t.dropWhile Byte.isDigit)

/-- The bytes of identifiers. -/
def isIdentByte (b : UInt8) : Bool := Byte.isLetter b || Byte.isDigit b || b == Byte.dash

/-- Whether a text is an identifier of a build part. -/
def isIdent (t : Bytes) : Bool := !t.isEmpty && t.all isIdentByte

/-- Whether a text is an identifier of a pre-release. -/
def isPreIdent (t : Bytes) : Bool := isIdent t && !(t.all Byte.isDigit && hasLeadingZero t)

/-- The pre-release at the beginning of a text, which may be missing, and the text after it. -/
def prerelease? (t : Bytes) : Option (List Bytes × Bytes) :=
  match t with
  | Byte.dash :: rest =>
    let idents := Bytes.pieces Byte.dot (rest.takeWhile (· != Byte.plus))
    if idents.all isPreIdent then some (idents, rest.dropWhile (· != Byte.plus)) else none
  | _ => some ([], t)

/-- Whether a text is a build part, which may be missing. -/
def isBuild (t : Bytes) : Bool :=
  match t with
  | [] => true
  | Byte.plus :: rest => (Bytes.pieces Byte.dot rest).all isIdent
  | _ => false

/-- The version that a text denotes. -/
def parse? (t : Bytes) : Option Version := do
  let (major, t) ← numeral? t
  if t.isEmpty then return ⟨major, 0, 0, []⟩
  let (minor, t) ← numeral? (← Bytes.after? "." t)
  if t.isEmpty then return ⟨major, minor, 0, []⟩
  let (patch, t) ← numeral? (← Bytes.after? "." t)
  let (pre, t) ← prerelease? t
  if isBuild t then return ⟨major, minor, patch, pre⟩ else none

/-- The pre-release part of a version, which is empty for a release. -/
def preText : List Bytes → Bytes
  | [] => []
  | idents => Byte.dash :: Bytes.join "." idents

/-- The version as a text, with all three numbers and without a build part. -/
def text (v : Version) : Bytes :=
  "v" ++ Bytes.ofNat v.major ++ "." ++ Bytes.ofNat v.minor ++ "." ++ Bytes.ofNat v.patch ++
    preText v.pre

/-- Whether a version is the release with the given numbers, or comes after it. -/
def reaches (v : Version) (major minor patch : Nat) : Bool :=
  if v.major ≠ major then major < v.major
  else if v.minor ≠ minor then minor < v.minor
  else if v.patch ≠ patch then patch < v.patch
  else v.pre.isEmpty

end Version

end IndentMarkup
