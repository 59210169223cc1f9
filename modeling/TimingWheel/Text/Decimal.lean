/-!
# Decimal numbers without a sign

Reading a natural number in decimal notation. A plus sign may come before the digits,
and a bound limits what is accepted.

## Main definitions

- `Decimal.read` — the number below a bound that a text stands for, if there is one

## Main statements

- `Decimal.lt_of_read`, `Decimal.read_toString` — what is read lies below the bound, and all numbers
  below it can be read
-/

namespace TimingWheel.Decimal

/-- The number below `bound` that a list of digits stands for; there must be a digit. -/
def ofDigits (bound : Nat) (digits : List Char) : Option Nat :=
  if digits.isEmpty || !digits.all Char.isDigit then none
  else (some (Nat.ofDigitChars 10 digits 0)).filter (fun n => decide (n < bound))

/-- The number below `bound` that a text stands for. -/
def read (bound : Nat) (text : String) : Option Nat :=
  match text.toList with
  | '+' :: digits => ofDigits bound digits
  | digits => ofDigits bound digits

theorem lt_of_ofDigits {bound n : Nat} {digits : List Char} (h : ofDigits bound digits = some n) :
    n < bound := by
  unfold ofDigits at h
  split at h
  · simp at h
  · simpa using (Option.filter_eq_some_iff.1 h).2

/-- A number that is read lies below the bound. -/
theorem lt_of_read {bound n : Nat} {text : String} (h : read bound text = some n) : n < bound := by
  unfold read at h
  split at h
  · exact lt_of_ofDigits h
  · exact lt_of_ofDigits h

theorem ofDigits_toDigits {bound n : Nat} (h : n < bound) :
    ofDigits bound (Nat.toDigits 10 n) = some n := by
  have hall : (Nat.toDigits 10 n).all Char.isDigit = true :=
    List.all_eq_true.2 fun _ hc => Nat.isDigit_of_mem_toDigits (by decide) (by decide) hc
  have hne : (Nat.toDigits 10 n).isEmpty = false := by
    simp
  simp [ofDigits, hall, hne, Nat.ofDigitChars_toDigits, h]

/-- What is written for a number is read as that number. -/
theorem read_toString {bound n : Nat} (h : n < bound) : read bound (toString n) = some n := by
  rw [Nat.toString_eq_ofList_toDigits, read, String.toList_ofList]
  split
  · rename_i digits hplus
    have hmem : '+' ∈ Nat.toDigits 10 n := by simp [hplus]
    exact absurd (Nat.isDigit_of_mem_toDigits (by decide) (by decide) hmem) (by decide)
  · exact ofDigits_toDigits h

end TimingWheel.Decimal
