import TimingWheel.Log.Pattern.Sign

/-!
# Options of a regular expression

Options are set by letters, for the rest of a group or for a group of its own. Three of
them bear on what may stand in an expression; the others may be set, but only bear on
what the expression fits.

No tables of letter cases and of the categories of characters are at hand. An expression
about characters therefore cannot ignore case and cannot use classes with a letter of
their own. An expression about bytes can do both, but has nothing that goes beyond ASCII
apart from characters that stand for themselves.

## Main definitions

- `Log.Pattern.Options` — the options
- `Log.Pattern.Options.allows` — a sign may stand outside of brackets
- `Log.Pattern.Options.allowsMember` — a sign may stand in a bracket
- `Log.Pattern.readLetters` — reading option letters
-/

namespace TimingWheel.Log.Pattern

/-- The options that bear on what may stand in an expression. -/
structure Options where
  /-- The expression is about characters, and not about bytes. -/
  unicode : Bool := true
  /-- Capitals and small letters are the same. -/
  caseless : Bool := false
  /-- Blanks and remarks mean nothing. -/
  spaced : Bool := false
deriving DecidableEq, Repr

namespace Options

/-- The letters of all options. -/
def letters : List Char := ['i', 'm', 's', 'u', 'x', 'R', 'U']

/-- Sets the option with the given letter. -/
def set (letter : Char) (on : Bool) (o : Options) : Options :=
  match letter with
  | 'u' => { o with unicode := on }
  | 'i' => { o with caseless := on }
  | 'x' => { o with spaced := on }
  | _ => o

/-- What fits may be given by characters. -/
def allowsCharacters (o : Options) : Bool := !(o.unicode && o.caseless)

/-- A sign may stand outside of brackets. Of bytes only those of ASCII are characters. -/
def allows (o : Options) : Sign → Bool
  | .literal c byte => o.allowsCharacters && (o.unicode || !byte || decide (c.toNat ≤ 127))
  | .category negated => !o.unicode && !negated
  | .anchor => true
  | .boundary => !o.unicode

/-- A sign may stand in a bracket. -/
def allowsMember (o : Options) : Sign → Bool
  | .literal c _ => o.allowsCharacters && (o.unicode || decide (c.toNat ≤ 127))
  | .category negated => !o.unicode && !negated
  | .anchor | .boundary => false

/-- A named class of ASCII characters, or of all others, may stand in a bracket. -/
def allowsClass (negated : Bool) (o : Options) : Bool :=
  o.allowsCharacters && (o.unicode || !negated)

/-- A bracket may stand for all characters that are not in it. -/
def allowsNegation (o : Options) : Bool := o.unicode

/-- A dot may stand in an expression. -/
def allowsDot (o : Options) : Bool := o.unicode

end Options

/-- What option letters end with. -/
inductive LettersEnd where
  /-- A colon: the options are those of a group that begins here. -/
  | group
  /-- A parenthesis: the options are those of what follows. -/
  | rest
deriving DecidableEq, Repr

/-- Reads option letters up to their end. `seen` holds the letters so far, with a dash for
the negation, which is the last of them if `dangling` holds. No letter comes twice, and
there is one after a dash and before a parenthesis. -/
def readLetters (seen : List Char) (dangling : Bool) (o : Options) :
    List Char → Option (LettersEnd × Options × List Char)
  | [] => none
  | c :: rest =>
    if c = ':' then if dangling then none else some (.group, o, rest)
    else if c = ')' then if dangling || seen.isEmpty then none else some (.rest, o, rest)
    else if seen.contains c then none
    else if c = '-' then readLetters (c :: seen) true o rest
    else if Options.letters.contains c then
      readLetters (c :: seen) false (o.set c (!seen.contains '-')) rest
    else none

end TimingWheel.Log.Pattern
