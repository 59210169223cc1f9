/-!
# Places in a text counted in bytes

A place in a text is given by the number of bytes before it, in UTF-8. Not every number
is a place, since a character may take several bytes.

## Main definitions

- `Text.bytes` — the bytes that characters take
- `Text.dropBytes`, `Text.takeBytes` — the text after and before a place
- `Text.cut` — the text between two places
- `Text.placed` — the characters of a text with their places
-/

namespace TimingWheel.Text

/-- Number of bytes that characters take. -/
def bytes : List Char → Nat
  | [] => 0
  | c :: rest => c.utf8Size + bytes rest

/-- What comes after the first `n` bytes; `none` if they end within a character or if
there are fewer. -/
def dropBytes : List Char → Nat → Option (List Char)
  | text, 0 => some text
  | [], _ + 1 => none
  | c :: rest, n + 1 => if c.utf8Size ≤ n + 1 then dropBytes rest (n + 1 - c.utf8Size) else none

/-- The first `n` bytes; `none` if they end within a character or if there are fewer. -/
def takeBytes : List Char → Nat → Option (List Char)
  | _, 0 => some []
  | [], _ + 1 => none
  | c :: rest, n + 1 =>
    if c.utf8Size ≤ n + 1 then (takeBytes rest (n + 1 - c.utf8Size)).map (c :: ·) else none

/-- The text between two places. -/
def cut (text : List Char) (start stop : Nat) : Option String :=
  ((dropBytes text start).bind fun rest => takeBytes rest (stop - start)).map String.ofList

/-- The text from a place on. -/
def cutFrom (text : List Char) (start : Nat) : Option String :=
  (dropBytes text start).map String.ofList

/-- The characters of a text with their places, the first one having the place `n`. -/
def placed (n : Nat) : List Char → List (Nat × Char)
  | [] => []
  | c :: rest => (n, c) :: placed (n + c.utf8Size) rest

@[simp] theorem dropBytes_zero (text : List Char) : dropBytes text 0 = some text := by
  cases text <;> rfl

@[simp] theorem takeBytes_zero (text : List Char) : takeBytes text 0 = some [] := by
  cases text <;> rfl

theorem dropBytes_cons (c : Char) (rest : List Char) (n : Nat) :
    dropBytes (c :: rest) (c.utf8Size + n) = dropBytes rest n := by
  have hpos := c.utf8Size_pos
  obtain ⟨m, hm⟩ : ∃ m, c.utf8Size + n = m + 1 := ⟨c.utf8Size + n - 1, by omega⟩
  rw [hm, dropBytes, if_pos (by omega), ← hm, Nat.add_sub_cancel_left]

theorem takeBytes_cons (c : Char) (rest : List Char) (n : Nat) :
    takeBytes (c :: rest) (c.utf8Size + n) = (takeBytes rest n).map (c :: ·) := by
  have hpos := c.utf8Size_pos
  obtain ⟨m, hm⟩ : ∃ m, c.utf8Size + n = m + 1 := ⟨c.utf8Size + n - 1, by omega⟩
  rw [hm, takeBytes, if_pos (by omega), ← hm, Nat.add_sub_cancel_left]

/-- The place after a first part is where the rest begins. -/
theorem dropBytes_append (first rest : List Char) :
    dropBytes (first ++ rest) (bytes first) = some rest := by
  induction first with
  | nil => exact dropBytes_zero rest
  | cons c first ih => exact (dropBytes_cons c _ _).trans ih

/-- The place after a first part is where that part ends. -/
theorem takeBytes_append (first rest : List Char) :
    takeBytes (first ++ rest) (bytes first) = some first := by
  induction first with
  | nil => exact takeBytes_zero rest
  | cons c first ih => rw [List.cons_append, bytes, takeBytes_cons, ih]; rfl

/-- The text between two places is what stands between them. -/
theorem cut_append (first middle rest : List Char) :
    cut (first ++ middle ++ rest) (bytes first) (bytes first + bytes middle) =
      some (String.ofList middle) := by
  rw [cut, List.append_assoc, dropBytes_append, Option.bind_some, Nat.add_sub_cancel_left,
    takeBytes_append]
  rfl

end TimingWheel.Text
