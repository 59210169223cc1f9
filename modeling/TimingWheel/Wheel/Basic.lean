import TimingWheel.Fault
import TimingWheel.Wheel.Level

/-!
# Hierarchical timing wheels

A wheel is a list of levels, the coarsest first. A timer enters at the coarsest
level and falls through the levels until it meets one whose slots are no wider than
the time that is left. Each tick moves the cursor of the finest level by one slot.
Whenever a level completes a turn, the next coarser level moves as well and hands
the timers of the slot that it reaches down to the finer levels, where they find
their place anew.

## Main definitions

- `Wheel.place` — lets one timer fall into a list of levels
- `Wheel.cascade` — the leading levels hand their current slots down
- `Wheel.advanceAt` — one step of a level and of the coarser levels whose turn it completes
- `Wheel.insert`, `Wheel.tick` — the same on a wheel, from the coarsest and the finest level

## Design notes

The functions on lists of levels follow the list from its coarse end, so that what
they say about a wheel is said about every suffix of it. No placement depends on
what the slots hold: the cursors alone decide.
-/

namespace TimingWheel

/-- A chain of levels, the coarsest first. -/
structure Wheel (τ : Type) where
  levels : List (Level τ) := []
deriving DecidableEq, Repr

namespace Wheel

variable {τ : Type}

/-! ### Lists of levels -/

/-- The time that the cursors of the levels stand for, in milliseconds since the
coarsest of them last moved from its first slot. -/
def elapsedIn (levels : List (Level τ)) : Int :=
  Time.wrap (levels.foldr (fun l rest => l.cursor * l.width + rest) 0 : Nat)

/-- How far the due time lies ahead, counted from the time at which the current slot
of the level above the `finer` levels was reached. -/
def distance (t : Timer τ) (now : Int) (finer : List (Level τ)) : Int :=
  Time.minus (Time.plus t.due (elapsedIn finer)) now

/-- Lets a timer fall into the levels. It stays at the first level at which it is due
at least one slot ahead; at the finest level, one that is due sooner goes into the
slot to be emptied next. Without levels it is lost. -/
def place (t : Timer τ) (now : Int) : List (Level τ) → List (Level τ)
  | [] => []
  | l :: finer =>
    if l.reaches (distance t now finer) then
      l.put (l.slotAt (distance t now finer)) t :: finer
    else if finer.isEmpty then
      [l.put l.nextSlot t]
    else
      l :: place t now finer

/-- Lets timers fall into the levels, one after the other. -/
def placeAll (ts : List (Timer τ)) (now : Int) (levels : List (Level τ)) : List (Level τ) :=
  ts.foldl (fun ls t => place t now ls) levels

/-- The first `n` levels hand the timers of their current slots down to the levels
after them, the coarsest level first. -/
def cascade (now : Int) : Nat → List (Level τ) → List (Level τ)
  | 0, levels => levels
  | _ + 1, [] => []
  | n + 1, l :: finer => l.drain :: cascade now n (placeAll l.current now finer)

/-- Moves the level with index `i` by one slot. A coarser level moves along if all
levels from the next finer one down to level `i` are on their last slot. All these
levels move first; then each of them but level `i` hands its current slot down. -/
def advanceAt (now : Int) (i : Nat) : List (Level τ) → List (Level τ)
  | [] => []
  | l :: finer =>
    if (finer.take i).all Level.atLast then
      cascade now i (l.step :: ((finer.take i).map Level.step ++ finer.drop i))
    else
      l :: advanceAt now (i - 1) finer

/-! ### Wheels -/

def empty : Wheel τ := {}

def append (spec : LevelSpec) (w : Wheel τ) : Except Fault (Wheel τ) :=
  if spec.Valid then .ok ⟨w.levels ++ [Level.ofSpec spec]⟩
  else .error (.invalidLevel spec.slotCount spec.width)

def depth (w : Wheel τ) : Nat := w.levels.length

def isEmpty (w : Wheel τ) : Bool := w.levels.isEmpty

/-- The level with the given index, counted from the coarsest. -/
def level? (w : Wheel τ) (i : Nat) : Option (Level τ) := w.levels[i]?

def finest? (w : Wheel τ) : Option (Level τ) := w.levels.getLast?

/-- All timers that the wheel holds, level by level and slot by slot. -/
def timers (w : Wheel τ) : List (Timer τ) := w.levels.flatMap Level.timers

def count (w : Wheel τ) : Nat := w.levels.foldr (fun l rest => l.count + rest) 0

/-- The time that the cursors of level `i` and of the levels finer than it stand for. -/
def elapsed (w : Wheel τ) (i : Nat) : Int := elapsedIn (w.levels.drop i)

/-- Lets a timer fall in at the coarsest level. -/
def insert (t : Timer τ) (now : Int) (w : Wheel τ) : Wheel τ := ⟨place t now w.levels⟩

/-- Lets a timer fall in at level `i`, or at the finest level if there are fewer. -/
def insertAt (i : Nat) (t : Timer τ) (now : Int) (w : Wheel τ) : Wheel τ :=
  let entry := min i (w.depth - 1)
  ⟨w.levels.take entry ++ place t now (w.levels.drop entry)⟩

/-- Moves level `i` by one slot, with whatever coarser levels move along. -/
def advance (i : Nat) (now : Int) (w : Wheel τ) : Except OutOfRange (Wheel τ) :=
  if i < w.depth then .ok ⟨advanceAt now i w.levels⟩ else .error ⟨w.depth, i⟩

def advanceFinest (now : Int) (w : Wheel τ) : Wheel τ :=
  ⟨advanceAt now (w.depth - 1) w.levels⟩

/-- Takes the timers out of the current slot of level `i`. -/
def take (i : Nat) (w : Wheel τ) : Except OutOfRange (List (Timer τ) × Wheel τ) :=
  match w.level? i with
  | some l => .ok (l.current, ⟨w.levels.set i l.drain⟩)
  | none => .error ⟨w.depth, i⟩

def takeFinest (w : Wheel τ) : List (Timer τ) × Wheel τ :=
  match w.finest? with
  | some l => (l.current, ⟨w.levels.dropLast ++ [l.drain]⟩)
  | none => ([], w)

/-- One tick: moves the finest level and takes out what its current slot holds. -/
def tick (now : Int) (w : Wheel τ) : List (Timer τ) × Wheel τ := (w.advanceFinest now).takeFinest

/-- Makes `n` ticks that are `step` milliseconds apart, the first one `step` after
`now`, and answers what came out with the number of the tick. -/
def run (now step : Int) : Nat → Wheel τ → List (Nat × Timer τ) × Wheel τ :=
  go 1
where
  go (k : Nat) : Nat → Wheel τ → List (Nat × Timer τ) × Wheel τ
    | 0, w => ([], w)
    | n + 1, w =>
      let (due, w) := w.tick (now + k * step)
      let (later, w) := go (k + 1) n w
      (due.map (fun t => (k, t)) ++ later, w)

/-! ### Shapes are kept -/

/-- What is fixed about the levels. -/
def specsOf (levels : List (Level τ)) : List LevelSpec := levels.map Level.toLevelSpec

@[simp] theorem specsOf_nil : specsOf ([] : List (Level τ)) = [] := rfl

@[simp] theorem specsOf_cons (l : Level τ) (finer : List (Level τ)) :
    specsOf (l :: finer) = l.toLevelSpec :: specsOf finer := rfl

@[simp] theorem specsOf_append (coarse fine : List (Level τ)) :
    specsOf (coarse ++ fine) = specsOf coarse ++ specsOf fine := List.map_append

@[simp] theorem specsOf_map_step (levels : List (Level τ)) :
    specsOf (levels.map Level.step) = specsOf levels := by
  induction levels with
  | nil => rfl
  | cons l finer ih => rw [List.map_cons, specsOf_cons, specsOf_cons, ih, Level.toLevelSpec_step]

@[simp] theorem length_specsOf (levels : List (Level τ)) :
    (specsOf levels).length = levels.length := List.length_map _

theorem ne_nil_of_specsOf_eq {levels levels' : List (Level τ)}
    (h : specsOf levels' = specsOf levels) (hne : levels ≠ []) : levels' ≠ [] := by
  rintro rfl
  exact hne (List.map_eq_nil_iff.1 h.symm)

@[simp] theorem specsOf_place (t : Timer τ) (now : Int) (levels : List (Level τ)) :
    specsOf (place t now levels) = specsOf levels := by
  induction levels with
  | nil => rfl
  | cons l finer ih =>
    unfold place
    split
    · rfl
    · split
      next hempty => simp [List.isEmpty_iff.1 hempty]
      · rw [specsOf_cons, ih, specsOf_cons]

@[simp] theorem specsOf_placeAll (ts : List (Timer τ)) (now : Int) (levels : List (Level τ)) :
    specsOf (placeAll ts now levels) = specsOf levels := by
  induction ts generalizing levels with
  | nil => rfl
  | cons t ts ih => exact (ih (place t now levels)).trans (specsOf_place t now levels)

@[simp] theorem specsOf_cascade (now : Int) (n : Nat) (levels : List (Level τ)) :
    specsOf (cascade now n levels) = specsOf levels := by
  induction n generalizing levels with
  | zero => rfl
  | succ n ih =>
    cases levels with
    | nil => rfl
    | cons l finer => simp [cascade, ih]

/-- No step changes the number, the widths or the slot counts of the levels. -/
@[simp] theorem specsOf_advanceAt (now : Int) (i : Nat) (levels : List (Level τ)) :
    specsOf (advanceAt now i levels) = specsOf levels := by
  induction levels generalizing i with
  | nil => rfl
  | cons l finer ih =>
    unfold advanceAt
    split
    · rw [specsOf_cascade, specsOf_cons, specsOf_append, specsOf_map_step, ← specsOf_append,
        List.take_append_drop, specsOf_cons, Level.toLevelSpec_step]
    · rw [specsOf_cons, ih, specsOf_cons]

end Wheel

end TimingWheel
