/-!
# The range of times

Times, delays and intervals are whole milliseconds and are kept as integers. The
scheduler only ever holds times that a signed 64-bit word can hold. A sum or a
difference of two such times is either held at the end of the range
(`Time.plus`, `Time.minus`) or carried round to the other end (`Time.wrap`), and
each place where times are combined says which of the two it uses.

## Main definitions

- `Time.Fits`: the time lies within the range
- `Time.saturate`: the nearest time within the range
- `Time.plus`, `Time.minus`: a sum and a difference, held at the ends of the range
- `Time.wrap`: the time within the range that agrees modulo `2 ^ 64`
-/

namespace TimingWheel.Time

def least : Int := -9223372036854775808

def greatest : Int := 9223372036854775807

def Fits (t : Int) : Prop := least ≤ t ∧ t ≤ greatest

instance (t : Int) : Decidable (Fits t) := inferInstanceAs (Decidable (_ ∧ _))

/-- The nearest time that can be held. -/
def saturate (t : Int) : Int := max least (min greatest t)

/-- The sum of two times, held at the end of the range that it would leave. -/
def plus (a b : Int) : Int := saturate (a + b)

/-- The difference of two times, held at the end of the range that it would leave. -/
def minus (a b : Int) : Int := saturate (a - b)

/-- The time within the range that agrees with `t` modulo `2 ^ 64`. -/
def wrap (t : Int) : Int := t.bmod 18446744073709551616

theorem saturate_of_fits {t : Int} (h : Fits t) : saturate t = t := by
  unfold Fits at h
  unfold saturate
  omega

theorem fits_saturate (t : Int) : Fits (saturate t) := by
  unfold Fits saturate least greatest
  omega

theorem plus_of_fits {a b : Int} (h : Fits (a + b)) : plus a b = a + b :=
  saturate_of_fits h

theorem minus_of_fits {a b : Int} (h : Fits (a - b)) : minus a b = a - b :=
  saturate_of_fits h

theorem wrap_of_fits {t : Int} (h : Fits t) : wrap t = t := by
  unfold Fits least greatest at h
  unfold wrap
  exact Int.bmod_eq_of_le (by omega) (by omega)

theorem fits_wrap (t : Int) : Fits (wrap t) := by
  have hlo := Int.le_bmod (x := t) (m := 18446744073709551616) (by decide)
  have hhi := Int.bmod_lt (x := t) (m := 18446744073709551616) (by decide)
  unfold Fits wrap least greatest
  omega

end TimingWheel.Time
