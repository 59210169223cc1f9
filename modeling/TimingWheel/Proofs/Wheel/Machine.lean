import TimingWheel.Wheel.Operation

/-!
# A wheel on a machine

The operations of a wheel, as a machine with words carries them out. Cursors and slot counts are
words of 32 bits without a sign, times are words of 64 bits with one. The machine checks whatever it
computes: a value that does not fit its word, a division by zero, and the index of a level or of a
slot that is not there all stop it. Only the sums and differences of times that are meant to be held
at the ends of the range are not checked.

The machine knows the levels by their indices, and works in place. To move a level it first moves
the cursor of this level alone. If that completes a turn, it moves the next coarser level in the
same way, takes out the slot which that one has reached, and lets the timers of the slot fall in at
the level itself.

## Main definitions

- `Trap` — what stops a machine
- `Machine.long`, `Machine.short`, `Machine.quotient`, `Machine.remainder` — words
- `Machine.insertAt`, `Machine.advance`, `Machine.takeCurrent` — the operations on a level
- `Machine.perform`, `Machine.performAll` — one operation on a wheel, and a list of them
-/

namespace TimingWheel

/-- What stops a machine. -/
inductive Trap where
  /-- A value does not fit the word that is to hold it. -/
  | overflow (value : Int)
  | divisionByZero
  /-- There is no slot with this index. -/
  | noSlot (index : Int)
  /-- There is no level with this index. -/
  | noLevel (reason : OutOfRange)
deriving DecidableEq, Repr

/-- A computation on a wheel that may be stopped. What it has changed before that stays changed. -/
abbrev Machine (τ α : Type) : Type := EStateM Trap (Wheel τ) α

namespace Machine

variable {τ α : Type}

/-! ### Words -/

/-- Holds a value in a word of 64 bits with a sign. -/
def long (value : Int) : Except Trap Int :=
  if Time.Fits value then .ok value else .error (.overflow value)

/-- Holds a value in a word of 32 bits without a sign. -/
def short (value : Nat) : Except Trap Nat :=
  if value < 4294967296 then .ok value else .error (.overflow value)

/-- The quotient of two long words, cut off towards zero. -/
def quotient (a b : Int) : Except Trap Int :=
  if b = 0 then .error .divisionByZero else long (a.tdiv b)

/-- What a division of two long words leaves, if it can be carried out. -/
def remainder (a b : Int) : Except Trap Int := do
  let _ ← quotient a b
  return a.tmod b

/-- What a division of two short words leaves. -/
def shortRemainder (a b : Nat) : Except Trap Nat :=
  if b = 0 then .error .divisionByZero else .ok (a % b)

/-- The index of the slot that lies the given number of slots ahead of the cursor. -/
def slotAhead (l : Level τ) (offset : Int) : Except Trap Int := do
  let rest ← remainder offset l.slotCount
  let sum ← long (l.cursor + rest)
  remainder sum l.slotCount

/-- The time that the cursors of the levels stand for, added up from the coarsest level on. -/
def elapsed (levels : List (Level τ)) : Except Trap Int :=
  levels.foldlM (fun sum l => do
    let own ← long (l.cursor * l.width)
    long (sum + own)) 0

/-! ### Levels and slots -/

/-- Computes something without touching the wheel. -/
def compute : Except Trap α → Machine τ α
  | .ok a => pure a
  | .error trap => throw trap

def levelAt (i : Nat) : Machine τ (Level τ) := do
  let w ← get
  match w.level? i with
  | some l => return l
  | none => throw (.noLevel ⟨w.depth, i⟩)

def setLevel (i : Nat) (l : Level τ) : Machine τ Unit :=
  modify fun w => ⟨w.levels.set i l⟩

/-- Puts a timer into a slot of level `i`. -/
def putAt (i : Nat) (slot : Int) (t : Timer τ) : Machine τ Unit := do
  let l ← levelAt i
  if 0 ≤ slot ∧ slot < l.slots.size then setLevel i (l.put slot.toNat t)
  else throw (.noSlot slot)

/-- Takes the timers out of the current slot of level `i`. -/
def takeCurrent (i : Nat) : Machine τ (List (Timer τ)) := do
  let l ← levelAt i
  if l.cursor < l.slots.size then
    setLevel i l.drain
    return l.current
  else
    throw (.noSlot l.cursor)

/-- Moves the cursor of level `i` by one slot, and answers whether that completes a turn. -/
def stepAt (i : Nat) : Machine τ Bool := do
  let l ← levelAt i
  let cursor ← compute (short (l.cursor + 1))
  if cursor < l.slotCount then
    setLevel i { l with cursor, drained := false }
    return false
  else
    let first ← compute (shortRemainder cursor l.slotCount)
    setLevel i { l with cursor := first, drained := false }
    return true

/-! ### Operations -/

/-- Lets a timer fall in at level `i`, which has the given number of finer levels. -/
def fall (t : Timer τ) (now : Int) (i : Nat) : Nat → Machine τ Unit
  | 0 => do
    let l ← levelAt i
    let ahead := Time.minus (Time.plus t.due 0) now
    if l.width ≤ ahead then
      let slots ← compute (quotient ahead l.width)
      let slot ← compute (slotAhead l slots)
      putAt i slot t
    else if l.drained then
      let slot ← compute (slotAhead l 1)
      putAt i slot t
    else
      putAt i l.cursor t
  | finer + 1 => do
    let w ← get
    let finerTime ← compute (elapsed (w.levels.drop (i + 1)))
    let l ← levelAt i
    let ahead := Time.minus (Time.plus t.due finerTime) now
    if l.width ≤ ahead then
      let slots ← compute (quotient ahead l.width)
      let slot ← compute (slotAhead l slots)
      putAt i slot t
    else
      fall t now (i + 1) finer

/-- Lets a timer fall in at level `i`, or at the finest level if there are fewer. -/
def insertAt (i : Nat) (t : Timer τ) (now : Int) : Machine τ Unit := do
  let w ← get
  if w.isEmpty then
    return
  else
    let finest := w.depth - 1
    let entry := min i finest
    fall t now entry (finest - entry)

/-- Moves level `i` by one slot. Where this completes a turn, the next coarser level moves as well
and hands down the slot that it reaches. -/
def advance (now : Int) : Nat → Machine τ Unit
  | 0 => do
    let _ ← stepAt 0
  | i + 1 => do
    let turned ← stepAt (i + 1)
    if turned then
      advance now i
      let ts ← takeCurrent i
      ts.forM fun t => insertAt (i + 1) t now
    else
      return

def advanceFinest (now : Int) : Machine τ Unit := do
  let w ← get
  if w.isEmpty then return else advance now (w.depth - 1)

def takeFinest : Machine τ (List (Timer τ)) := do
  let w ← get
  if w.isEmpty then return [] else takeCurrent (w.depth - 1)

/-- Makes ticks, the first of which has the number `k`. -/
def runTicks (now step : Int) (k : Nat) : Nat → Machine τ (List (Nat × Timer τ))
  | 0 => return []
  | n + 1 => do
    advanceFinest (now + k * step)
    let due ← takeFinest
    let later ← runTicks now step (k + 1) n
    return due.map (fun t => (k, t)) ++ later

def perform : Wheel.Operation τ → Machine τ (Wheel.Reply τ)
  | .append spec => do
    let w ← get
    match w.append spec with
    | .ok w' => set w'; return .done
    | .error reason => return .refused reason
  | .insert t now => do insertAt 0 t now; return .done
  | .insertAt i t now => do insertAt i t now; return .done
  | .advance i now => do advance now i; return .done
  | .advanceFinest now => do advanceFinest now; return .done
  | .take i => do
    let ts ← takeCurrent i
    return .taken ts
  | .takeFinest => do
    let ts ← takeFinest
    return .taken ts
  | .run now step count => do
    let entries ← runTicks now step 1 count
    return .ran entries

/-- Performs operations one after the other, each on the wheel that the one before has left, even if
that one was stopped. -/
def performAll : List (Wheel.Operation τ) → Wheel τ → List (Except Trap (Wheel.Reply τ)) × Wheel τ
  | [], w => ([], w)
  | op :: rest, w =>
    match (perform op).run w with
    | .ok reply w =>
      let (outcomes, w) := performAll rest w
      (.ok reply :: outcomes, w)
    | .error trap w =>
      let (outcomes, w) := performAll rest w
      (.error trap :: outcomes, w)

end Machine

end TimingWheel
