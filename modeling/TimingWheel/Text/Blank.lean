import TimingWheel.Text.Ranges

/-!
# Blank characters

Blank characters are those that Unicode lists as `White_Space`: spaces of all widths,
tabs, and the ends of lines, paragraphs and pages.

## Main definitions

- `Text.isBlank` — the character is blank
- `Text.trimBlanks` — a text without the blanks at its ends
-/

namespace TimingWheel.Text

def blanks : Ranges :=
  [(0x9, 0xD), (0x20, 0x20), (0x85, 0x85), (0xA0, 0xA0), (0x1680, 0x1680), (0x2000, 0x200A),
   (0x2028, 0x2029), (0x202F, 0x202F), (0x205F, 0x205F), (0x3000, 0x3000)]

def isBlank (c : Char) : Bool := blanks.holds c

/-- A text without the blanks at its ends. -/
def trimBlanks (text : List Char) : List Char :=
  ((text.dropWhile isBlank).reverse.dropWhile isBlank).reverse

/-- All that core counts as blank is blank here. -/
theorem isBlank_of_isWhitespace {c : Char} (h : c.isWhitespace = true) : isBlank c = true := by
  simp only [Char.isWhitespace, Bool.or_eq_true, decide_eq_true_eq] at h
  obtain ((rfl | rfl) | rfl) | rfl := h <;> decide

/-- What is trimmed does not begin with a blank. -/
theorem head_trimBlanks {text rest : List Char} {c : Char} (h : trimBlanks text = c :: rest) :
    isBlank c = false := by
  have hrev : (text.dropWhile isBlank).reverse.dropWhile isBlank = rest.reverse ++ [c] := by
    rw [← List.reverse_reverse (List.dropWhile _ _), ← trimBlanks, h, List.reverse_cons]
  obtain ⟨before, hbefore⟩ := List.dropWhile_suffix (l := (text.dropWhile isBlank).reverse) isBlank
  rw [hrev, ← List.append_assoc] at hbefore
  have hdrop : text.dropWhile isBlank = c :: (before ++ rest.reverse).reverse := by
    rw [← List.reverse_reverse (text.dropWhile isBlank), ← hbefore, List.reverse_append]
    rfl
  have hne : text.dropWhile isBlank ≠ [] := by simp [hdrop]
  simpa [hdrop] using List.head_dropWhile_not isBlank hne

end TimingWheel.Text
