import TimingWheel.Text.Blank

/-!
# Spacing in a regular expression

An expression may be spaced. Blanks between its signs then mean nothing, and neither do
remarks, which begin with `#` and end with the line.

## Main definitions

- `Log.Pattern.skip` — the text after blanks and remarks
- `Log.Pattern.glance` — the character that comes after the next one
-/

namespace TimingWheel.Log.Pattern

/-- The text after the blanks and remarks at its beginning, which may be within a remark. -/
def skipFrom (remark : Bool) : List Char → List Char
  | [] => []
  | c :: rest =>
    if remark then skipFrom (c != '\n') rest
    else if Text.isBlank c then skipFrom false rest
    else if c = '#' then skipFrom true rest
    else c :: rest

/-- The text after the blanks and remarks at its beginning, if they mean nothing. -/
def skip (spaced : Bool) (text : List Char) : List Char :=
  if spaced then skipFrom false text else text

/-- The first character that is neither blank nor the first `#`. -/
def glanceFrom (remark : Bool) : List Char → Option Char
  | [] => none
  | c :: rest =>
    if Text.isBlank c then glanceFrom remark rest
    else if c = '#' && !remark then glanceFrom true rest
    else some c

/-- The character at which a dash looks to find out what it is, `rest` being the text after
the dash. Blanks are passed over in a spaced expression, but of a remark only its mark. -/
def glance (spaced : Bool) (rest : List Char) : Option Char :=
  if spaced then glanceFrom false rest else rest.head?

theorem skipFrom_suffix (remark : Bool) (text : List Char) : skipFrom remark text <:+ text := by
  induction text generalizing remark with
  | nil => exact List.suffix_rfl
  | cons c rest ih =>
    unfold skipFrom
    repeat' split
    · exact (ih _).trans (List.suffix_cons c rest)
    · exact (ih _).trans (List.suffix_cons c rest)
    · exact (ih _).trans (List.suffix_cons c rest)
    · exact List.suffix_rfl

/-- What is skipped stands at the beginning. -/
theorem skip_suffix (spaced : Bool) (text : List Char) : skip spaced text <:+ text := by
  unfold skip
  split
  · exact skipFrom_suffix false text
  · exact List.suffix_rfl

end TimingWheel.Log.Pattern
