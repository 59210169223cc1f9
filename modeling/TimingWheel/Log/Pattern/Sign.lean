import TimingWheel.Log.Pattern.Spacing

/-!
# Signs of a regular expression

A sign is what may stand in an expression, or in a bracket of it, and means something by
itself: a character, a class of characters with a letter of its own, or a place in the
text. Signs other than single characters are written with a backslash.

## Main definitions

- `Log.Pattern.Sign` — one sign
- `Log.Pattern.Sign.readEscaped` — the sign after a backslash
- `Log.Pattern.Sign.read` — the sign at the beginning of a text
-/

namespace TimingWheel.Log.Pattern

/-- One sign of a regular expression. -/
inductive Sign where
  /-- A character. It is a byte if it is written with two hexadecimal digits. -/
  | literal (c : Char) (byte : Bool)
  /-- A class of characters with a letter of its own, such as the digits, or all others. -/
  | category (negated : Bool)
  /-- The beginning or the end of a line or of the text. -/
  | anchor
  | boundary
deriving DecidableEq, Repr

namespace Sign

def hexDigit (c : Char) : Option Nat :=
  if c.isDigit then some (c.toNat - '0'.toNat)
  else if 'a' ≤ c ∧ c ≤ 'f' then some (c.toNat - 'a'.toNat + 10)
  else if 'A' ≤ c ∧ c ≤ 'F' then some (c.toNat - 'A'.toNat + 10)
  else none

/-- How many hexadecimal digits belong to a backslash with the given letter. -/
def hexWidth : Char → Option Nat
  | 'x' => some 2
  | 'u' => some 4
  | 'U' => some 8
  | _ => none

/-- Reads `n` hexadecimal digits after those that have the value `code`. In a spaced
expression they need not stand together. -/
def readHex (spaced : Bool) : Nat → Nat → List Char → Option (Nat × List Char)
  | 0, code, text => some (code, text)
  | n + 1, code, text =>
    match skip spaced text with
    | [] => none
    | c :: rest => (hexDigit c).bind fun digit => readHex spaced n (16 * code + digit) rest

/-- The sign of a backslash with one character. Letters and digits without a meaning of
their own are kept free, and so are all characters beyond ASCII. -/
def ofEscaped : Char → Option Sign
  | 'a' => some (.literal '\x07' false)
  | 't' => some (.literal '\t' false)
  | 'n' => some (.literal '\n' false)
  | 'v' => some (.literal '\x0b' false)
  | 'f' => some (.literal '\x0c' false)
  | 'r' => some (.literal '\r' false)
  | 'd' | 's' | 'w' => some (.category false)
  | 'D' | 'S' | 'W' => some (.category true)
  | 'A' | 'z' => some .anchor
  | 'b' | 'B' | '<' | '>' => some .boundary
  | c => if c.isAlphanum || decide (127 < c.toNat) then none else some (.literal c false)

def readEscaped (spaced : Bool) : List Char → Option (Sign × List Char)
  | [] => none
  | c :: rest =>
    match hexWidth c with
    | none => (ofEscaped c).map fun sign => (sign, rest)
    | some n => (readHex spaced n 0 rest).bind fun (code, rest) =>
      if code.isValidChar then some (.literal (Char.ofNat code) (n == 2), rest) else none

def read (spaced : Bool) (c : Char) (rest : List Char) : Option (Sign × List Char) :=
  if c = '\\' then readEscaped spaced rest else some (.literal c false, rest)

end Sign

end TimingWheel.Log.Pattern
