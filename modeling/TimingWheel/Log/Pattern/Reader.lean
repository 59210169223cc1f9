import TimingWheel.Log.Pattern.Options
import TimingWheel.Text.Numeral

/-!
# Reading a regular expression

An expression consists of signs, dots, bracketed classes and groups, with bars between
alternatives and with the marks `?`, `*` and `+` for repetition. It is read from left to
right. Of what has been read only its depth is kept: how many groups, brackets,
repetitions, rows and operators lie around one another. Things that stand side by side
make a row, which counts as one more level; a thing that stands alone makes none.

In a bracket stand signs, ranges of characters, named classes and further brackets, with
the operators `&&`, `--` and `~~` between them. Several operators group to the left.

## Main definitions

- `Log.Pattern.rowDepth` — the depth of things that stand side by side
- `Log.Pattern.Sequence`, `Log.Pattern.Bracket` — what has been read of a group and of a
  bracket
- `Log.Pattern.Reader` — a reader and the groups and brackets that are open
- `Log.Pattern.Reader.run` — reading a text
-/

namespace TimingWheel.Log.Pattern

/-- The depth of things that stand side by side, from their own depths. -/
def rowDepth : List Nat → Nat
  | [] => 0
  | [depth] => depth
  | depths => depths.foldl max 0 + 1

/-- Something that stands in a sequence. -/
structure Item where
  depth : Nat := 0
  /-- It may be repeated, unlike a setting of options. -/
  repeatable : Bool := true
deriving DecidableEq, Repr

/-- What has been read of a group. -/
structure Sequence where
  /-- The depths of the alternatives before the last bar. -/
  alternatives : List Nat := []
  /-- What has been read since then, the last thing first. -/
  items : List Item := []
deriving DecidableEq, Repr

namespace Sequence

/-- The depth of what has been read since the last bar. -/
def lastDepth (s : Sequence) : Nat := rowDepth (s.items.map (·.depth))

def depth (s : Sequence) : Nat := rowDepth (s.lastDepth :: s.alternatives)

def add (item : Item) (s : Sequence) : Sequence := { s with items := item :: s.items }

/-- A bar begins another alternative. -/
def bar (s : Sequence) : Sequence := { alternatives := s.lastDepth :: s.alternatives }

/-- Repeats the last thing, if there is one that may be repeated. -/
def repeatLast (s : Sequence) : Option Sequence :=
  match s.items with
  | { depth, repeatable := true } :: rest => some { s with items := { depth := depth + 1 } :: rest }
  | _ => none

end Sequence

/-- What has been read of a bracket. -/
structure Bracket where
  /-- At most dashes have been read, so that a dash stands for itself. -/
  fresh : Bool := true
  /-- The depth of what comes before the last operator, if there has been one. -/
  left : Option Nat := none
  /-- The depths of the members since then. -/
  members : List Nat := []
deriving DecidableEq, Repr

namespace Bracket

def depth (b : Bracket) : Nat :=
  match b.left with
  | none => rowDepth b.members
  | some left => max left (rowDepth b.members) + 1

def add (depth : Nat) (b : Bracket) : Bracket := { b with members := depth :: b.members }

/-- An operator begins a new row of members. -/
def operator (b : Bracket) : Bracket := { fresh := false, left := some b.depth }

/-- The marks that make an operator if they are doubled. -/
def marks : List Char := ['&', '-', '~']

def classNames : List String :=
  ["alnum", "alpha", "ascii", "blank", "cntrl", "digit", "graph", "lower", "print", "punct",
   "space", "upper", "word", "xdigit"]

/-- Reads a named class after its bracket: a name between colons, with a caret in front if
all other characters are meant. -/
def readClass : List Char → Option (Bool × List Char)
  | ':' :: '^' :: rest => readName true rest
  | ':' :: rest => readName false rest
  | _ => none
where
  readName (negated : Bool) (text : List Char) : Option (Bool × List Char) :=
    match text.dropWhile (· != ':') with
    | ':' :: ']' :: rest =>
      if classNames.contains (String.ofList (text.takeWhile (· != ':'))) then
        some (negated, rest)
      else none
    | _ => none

end Bracket

structure Reader where
  options : Options := {}
  /-- What has been read of the innermost group, or of the whole expression. -/
  sequence : Sequence := {}
  /-- What has been read around each open group, with the options there, the innermost
  group first. -/
  groups : List (Sequence × Options) := []
  /-- The names of groups so far. -/
  names : List (List Char) := []
  brackets : List Bracket := []
deriving DecidableEq, Repr

namespace Reader

def add (item : Item) (r : Reader) : Reader := { r with sequence := r.sequence.add item }

/-- Adds something to the innermost group under a condition. -/
def addIf (allowed : Bool) (r : Reader) : Option Reader := if allowed then some (r.add {}) else none

/-! ### Groups -/

def openGroup (inner : Options) (r : Reader) : Reader :=
  { r with options := inner, sequence := {}, groups := (r.sequence, r.options) :: r.groups }

def closeGroup (r : Reader) : Option Reader :=
  match r.groups with
  | [] => none
  | (sequence, options) :: groups =>
    some { r with sequence := sequence.add { depth := r.sequence.depth + 1 }, options, groups }

/-- The character may stand in the name of a group, at its beginning or later. -/
def isOfName (first : Bool) (c : Char) : Bool :=
  c == '_' || Text.isLetter c || !first && (Text.isNumeral c || ['.', '[', ']'].contains c)

/-- Opens a group with a name, which is read up to its end. The last character of the name
comes first in `sofar`. No name may be empty or be used twice. -/
def openNamed (sofar : List Char) (r : Reader) : List Char → Option (Reader × List Char)
  | [] => none
  | c :: rest =>
    if c = '>' then
      if sofar.isEmpty || r.names.contains sofar then none
      else some ({ r.openGroup r.options with names := sofar :: r.names }, rest)
    else if isOfName sofar.isEmpty c then openNamed (c :: sofar) r rest
    else none

/-- Reads what comes after an opening parenthesis and may be skipped no further. -/
def readGroup (r : Reader) : List Char → Option (Reader × List Char)
  | '?' :: 'P' :: '<' :: rest => openNamed [] r rest
  | '?' :: '<' :: rest => openNamed [] r rest
  | '?' :: rest => (readLetters [] false r.options rest).map fun
    | (.group, options, rest) => (r.openGroup options, rest)
    | (.rest, options, rest) => ({ r.add { repeatable := false } with options }, rest)
  | rest => some (r.openGroup r.options, rest)

/-! ### Brackets -/

/-- Opens a bracket and reads the caret at its beginning, if there is one. -/
def openBracket (r : Reader) (rest : List Char) : Option (Reader × List Char) :=
  let r := { r with brackets := {} :: r.brackets }
  match skip r.options.spaced rest with
  | '^' :: rest => if r.options.allowsNegation then some (r, rest) else none
  | _ => some (r, rest)

def modifyBracket (f : Bracket → Bracket) (r : Reader) : Reader :=
  { r with brackets := match r.brackets with
    | [] => []
    | b :: outer => f b :: outer }

def closeBracket (r : Reader) : Reader :=
  match r.brackets with
  | [] => r
  | [b] => { r with brackets := [] }.add { depth := b.depth + 1 }
  | b :: outer :: rest => { r with brackets := outer.add (b.depth + 1) :: rest }

def addMember (sign : Sign) (r : Reader) : Option Reader :=
  if r.options.allowsMember sign then some (r.modifyBracket (Bracket.add 0)) else none

/-- Adds a range to the innermost bracket. Both of its ends are characters, and the lower
one comes first. -/
def addRange (lower upper : Sign) (r : Reader) : Option Reader :=
  match lower, upper with
  | .literal c _, .literal d _ =>
    if c ≤ d && r.options.allowsMember upper then r.addMember lower else none
  | _, _ => none

/-- Reads a sign of a bracket and the rest of the range that begins with it. A dash makes
a range, unless the bracket ends after it or another dash comes there. -/
def readMember (c : Char) (rest : List Char) (r : Reader) : Option (Reader × List Char) := do
  let spaced := r.options.spaced
  let (lower, rest) ← Sign.read spaced c rest
  let rest := skip spaced rest
  match rest with
  | '-' :: after =>
    if glance spaced after = some ']' || glance spaced after = some '-' then
      return (← r.addMember lower, rest)
    else match skip spaced after with
      | [] => none
      | d :: after =>
        let (upper, after) ← Sign.read spaced d after
        return (← r.addRange lower upper, after)
  | _ => return (← r.addMember lower, rest)

/-- Reads what begins with the character `c` in a bracket, some time after its beginning. -/
def readInner (c : Char) (rest : List Char) (r : Reader) : Option (Reader × List Char) :=
  if c = '[' then
    match Bracket.readClass rest with
    | some (negated, rest) =>
      if r.options.allowsClass negated then some (r.modifyBracket (Bracket.add 0), rest) else none
    | none => r.openBracket rest
  else if c = ']' then some (r.closeBracket, rest)
  else if Bracket.marks.contains c && rest.head? = some c then
    some (r.modifyBracket Bracket.operator, rest.drop 1)
  else r.readMember c rest

/-- Reads what begins with the character `c` in the bracket `b`. At the beginning of a
bracket dashes stand for themselves, and so does a bracket that would close it at once. -/
def readInBracket (b : Bracket) (c : Char) (rest : List Char) (r : Reader) :
    Option (Reader × List Char) :=
  let later := r.modifyBracket fun b => { b with fresh := false }
  if b.fresh && c = '-' then (r.addMember (.literal c false)).map fun r => (r, rest)
  else if b.fresh && b.members.isEmpty && c = ']' then
    (later.addMember (.literal c false)).map fun r => (r, rest)
  else later.readInner c rest

/-! ### The whole expression -/

/-- Reads what begins with the character `c` outside of all brackets. -/
def readOutside (c : Char) (rest : List Char) (r : Reader) : Option (Reader × List Char) :=
  match c with
  | '(' => r.readGroup (skip r.options.spaced rest)
  | ')' => r.closeGroup.map fun r => (r, rest)
  | '|' => some ({ r with sequence := r.sequence.bar }, rest)
  | '[' => r.openBracket rest
  | '?' | '*' | '+' => r.sequence.repeatLast.map fun sequence =>
    ({ r with sequence }, if rest.head? = some '?' then rest.drop 1 else rest)
  | '{' => none
  | '.' => (r.addIf r.options.allowsDot).map fun r => (r, rest)
  | '^' | '$' => (r.addIf (r.options.allows .anchor)).map fun r => (r, rest)
  | c => (Sign.read r.options.spaced c rest).bind fun (sign, rest) =>
    (r.addIf (r.options.allows sign)).map fun r => (r, rest)

def step (c : Char) (rest : List Char) (r : Reader) : Option (Reader × List Char) :=
  match r.brackets with
  | [] => r.readOutside c rest
  | b :: _ => r.readInBracket b c rest

/-- Reads a text in at most `n` steps. -/
def run : Nat → Reader → List Char → Option Reader
  | 0, _, _ => none
  | n + 1, r, text =>
    match skip r.options.spaced text with
    | [] => some r
    | c :: rest => (r.step c rest).bind fun (r, rest) => run n r rest

def isFinished (r : Reader) : Bool := r.groups.isEmpty && r.brackets.isEmpty

end Reader

end TimingWheel.Log.Pattern
