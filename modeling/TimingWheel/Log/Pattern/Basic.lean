import TimingWheel.Log.Pattern.Reader

/-!
# Patterns for values

A rule of a filter may compare the value of a field with a pattern. A pattern is a number
or a regular expression. The spans whose values are compared do not occur here, so all
that matters about a pattern is whether it is one.

## Main definitions

- `Log.Pattern.isExpression` — the text is a regular expression
- `Log.Pattern.isNumber` — the text is a number
- `Log.Pattern.isReadable` — the text is a pattern
-/

namespace TimingWheel.Log.Pattern

/-- How deep an expression may be. -/
def depthLimit : Nat := 250

/-- The text is a regular expression. Each step of its reader takes at least a character. -/
def isExpression (text : List Char) : Bool :=
  (Reader.run (text.length + 1) {} text).any fun r =>
    r.isFinished && decide (r.sequence.depth ≤ depthLimit)

/-- A text without a sign in front. -/
def dropSign : List Char → List Char
  | '+' :: rest | '-' :: rest => rest
  | text => text

/-- The text is an exponent, or empty. -/
def isExponent : List Char → Bool
  | [] => true
  | c :: rest =>
    (c == 'e' || c == 'E') && !(dropSign rest).isEmpty && (dropSign rest).all Char.isDigit

/-- The text is a number in decimal notation, without a sign in front. -/
def isRational (text : List Char) : Bool :=
  let whole := text.takeWhile Char.isDigit
  match text.dropWhile Char.isDigit with
  | '.' :: rest =>
    !(whole.isEmpty && (rest.takeWhile Char.isDigit).isEmpty) &&
      isExponent (rest.dropWhile Char.isDigit)
  | rest => !whole.isEmpty && isExponent rest

/-- The text is a number: one in decimal notation, or a word for one that has no such
notation. -/
def isNumber (text : List Char) : Bool :=
  let unsigned := dropSign text
  isRational unsigned ||
    ["inf", "infinity", "nan"].contains (String.ofList unsigned).toLower

def isReadable (text : String) : Bool := isNumber text.toList || isExpression text.toList

end TimingWheel.Log.Pattern
