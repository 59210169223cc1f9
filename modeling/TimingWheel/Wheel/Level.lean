import TimingWheel.Timer.Basic

/-!
# Levels of a timing wheel

A level is a ring of slots of equal width with a cursor on one of them. A slot
holds its timers in the order in which they came. The cursor only moves forward,
one slot at a time, and the slot under it can be emptied.

A level also remembers whether the slot under the cursor has been emptied since
the cursor last moved. A timer that is due at once goes into the slot that will be
emptied next, and this flag tells which one that is.

## Main definitions

- `LevelSpec` — number of slots, width of a slot, and name
- `Level` — the ring itself
- `Level.slot` — the view through which the operations are described
- `Level.put`, `Level.drain`, `Level.step` — the three ways in which a level changes
-/

namespace TimingWheel

/-- What is fixed about a level when it is made. -/
structure LevelSpec where
  slotCount : Nat
  /-- Width of a slot in milliseconds. -/
  width : Nat
  name : String
deriving DecidableEq, Repr

namespace LevelSpec

/-- A level can be made: it has a slot, and its slots have a width. -/
def Valid (spec : LevelSpec) : Prop := 0 < spec.slotCount ∧ 0 < spec.width

instance (spec : LevelSpec) : Decidable spec.Valid := inferInstanceAs (Decidable (_ ∧ _))

/-- The time that a whole turn of the level takes. -/
def span (spec : LevelSpec) : Nat := spec.slotCount * spec.width

end LevelSpec

/-- One ring of slots of equal width. -/
structure Level (τ : Type) extends LevelSpec where
  /-- The slot that the level has reached. -/
  cursor : Nat := 0
  /-- The slot under the cursor has been emptied since the cursor last moved. At the
  start it counts as emptied, since the first timers to be met are one slot ahead. -/
  drained : Bool := true
  /-- The timers of each slot, first come first. -/
  slots : Array (List (Timer τ))
deriving DecidableEq, Repr

namespace Level

variable {τ : Type}

def ofSpec (spec : LevelSpec) : Level τ :=
  { spec with slots := Array.replicate spec.slotCount [] }

/-- The timers of the slot with the given index; none past the last slot. -/
def slot (l : Level τ) (i : Nat) : List (Timer τ) := (l.slots[i]?).getD []

def current (l : Level τ) : List (Timer τ) := l.slot l.cursor

/-- All timers of the level, slot by slot. -/
def timers (l : Level τ) : List (Timer τ) := l.slots.toList.flatten

def count (l : Level τ) : Nat := l.timers.length

def isEmpty (l : Level τ) : Bool := l.slots.all List.isEmpty

/-- The slots that hold timers, with their indices. -/
def occupied (l : Level τ) : List (Nat × List (Timer τ)) :=
  (l.slots.toList.zipIdx.filter (fun entry => !entry.1.isEmpty)).map Prod.swap

/-- The slot that lies the given number of slots ahead of the cursor, around the ring. -/
def slotAhead (l : Level τ) (offset : Nat) : Nat := (l.cursor + offset) % l.slotCount

/-- The slot that is emptied next: the one under the cursor, or the one after it if
the former has been emptied. -/
def nextSlot (l : Level τ) : Nat := if l.drained then l.slotAhead 1 else l.cursor

/-- A due time that is `distance` away is at least one slot ahead of the cursor. -/
def reaches (l : Level τ) (distance : Int) : Bool := decide (l.width ≤ distance)

/-- The slot for a due time that is `distance` away and at least one slot ahead: as
many slots ahead as whole widths fit. -/
def slotAt (l : Level τ) (distance : Int) : Nat := l.slotAhead (distance.toNat / l.width)

/-- The cursor is on the last slot, so that the next step completes a turn. -/
def atLast (l : Level τ) : Bool := decide (l.slotCount ≤ l.cursor + 1)

def put (l : Level τ) (i : Nat) (t : Timer τ) : Level τ :=
  { l with slots := l.slots.modify i (· ++ [t]) }

def drain (l : Level τ) : Level τ :=
  { l with drained := true, slots := l.slots.setIfInBounds l.cursor [] }

def step (l : Level τ) : Level τ :=
  { l with cursor := (l.cursor + 1) % l.slotCount, drained := false }

/-! ### The view of the operations -/

@[simp] theorem toLevelSpec_put (l : Level τ) (i : Nat) (t : Timer τ) :
    (l.put i t).toLevelSpec = l.toLevelSpec := rfl

@[simp] theorem toLevelSpec_drain (l : Level τ) : l.drain.toLevelSpec = l.toLevelSpec := rfl

@[simp] theorem toLevelSpec_step (l : Level τ) : l.step.toLevelSpec = l.toLevelSpec := rfl

@[simp] theorem cursor_drain (l : Level τ) : l.drain.cursor = l.cursor := rfl

theorem cursor_step (l : Level τ) : l.step.cursor = (l.cursor + 1) % l.slotCount := rfl

@[simp] theorem size_put (l : Level τ) (i : Nat) (t : Timer τ) :
    (l.put i t).slots.size = l.slots.size := by simp [put]

@[simp] theorem size_drain (l : Level τ) : l.drain.slots.size = l.slots.size := by
  simp [drain]

@[simp] theorem slot_ofSpec (spec : LevelSpec) (i : Nat) :
    (ofSpec spec : Level τ).slot i = [] := by
  by_cases h : i < spec.slotCount <;> simp [ofSpec, slot, h]

theorem slot_put (l : Level τ) (i j : Nat) (t : Timer τ) (h : i < l.slots.size) :
    (l.put i t).slot j = if i = j then l.slot j ++ [t] else l.slot j := by
  unfold put slot
  by_cases hij : i = j
  · subst hij
    simp [h, Array.getElem_modify]
  · simp [Array.getElem?_modify, hij]

theorem slot_drain (l : Level τ) (i : Nat) :
    l.drain.slot i = if l.cursor = i then [] else l.slot i := by
  unfold drain slot
  by_cases hi : l.cursor = i
  · subst hi
    by_cases hlt : l.cursor < l.slots.size <;> simp [hlt]
  · simp [hi]

theorem slotAhead_lt (l : Level τ) (offset : Nat) (h : 0 < l.slotCount) :
    l.slotAhead offset < l.slotCount := Nat.mod_lt _ h

end Level

end TimingWheel
