import TimingWheel.Proofs.Wheel.Contents
import TimingWheel.Proofs.Wheel.Turn
import TimingWheel.Wheel.Operation

/-!
# A wheel conserves its timers

Whoever uses a wheel directly may move any of its levels at any time, take out any current slot,
and let timers fall in at any level with any reading of the clock. Whatever the order of these
operations, each timer that a wheel with levels was given is held or was handed out, just once and
as it came in. Moving a level only changes the places of timers, even where several levels complete
their turns together and a slot that is about to be handed down receives timers.

## Main definitions

- `Wheel.accepts`, `Wheel.acceptedAlong` — the timers that operations bring in
- `Wheel.Reply.timers` — the timers that a reply hands out
- `Wheel.Operation.adds` — the levels that an operation adds

## Main statements

- `Wheel.specsOf_perform`, `Wheel.specsOf_performAll` — the levels are those that were added
- `Wheel.wellFormed_perform`, `Wheel.timers_perform` — one operation
- `Wheel.timers_performAll` — any sequence of operations
- `Wheel.timers_conserved` — the same for a new wheel, and what single operations keep
-/

namespace TimingWheel.Wheel

variable {τ : Type}

/-! ### What comes in and what goes out -/

/-- The timers that an operation is to bring in. -/
def Operation.timers : Operation τ → List (Timer τ)
  | .insert t _ | .insertAt _ t _ => [t]
  | .append _ | .advance _ _ | .advanceFinest _ | .take _ | .takeFinest | .run _ _ _ => []

/-- The timers that a reply hands out. -/
def Reply.timers : Reply τ → List (Timer τ)
  | .taken ts => ts
  | .ran entries => entries.map Prod.snd
  | .done | .refused _ | .outOfRange _ => []

/-- The timers that an operation brings in. A wheel without levels takes none. -/
def accepts (w : Wheel τ) (op : Operation τ) : List (Timer τ) :=
  if w.isEmpty then [] else op.timers

/-- The timers that a sequence of operations brings in. -/
def acceptedAlong (w : Wheel τ) : List (Operation τ) → List (Timer τ)
  | [] => []
  | op :: rest => w.accepts op ++ (w.perform op).2.acceptedAlong rest

theorem accepts_eq_nil {op : Operation τ} (h : op.timers = []) (w : Wheel τ) :
    w.accepts op = [] := by
  rw [accepts, h, ite_self]

theorem isEmpty_iff {w : Wheel τ} : w.isEmpty = true ↔ w.levels = [] := List.isEmpty_iff

theorem count_eq_length (w : Wheel τ) : w.count = w.timers.length := by
  rw [count, timers_eq]
  induction w.levels with
  | nil => rfl
  | cons l finer ih =>
    rw [List.foldr_cons, ih, timersIn_cons, List.length_append]
    rfl

/-! ### The levels of a wheel -/

/-- The levels that an operation adds. -/
def Operation.adds : Operation τ → List LevelSpec
  | .append spec => if spec.Valid then [spec] else []
  | .insert _ _ | .insertAt _ _ _ | .advance _ _ | .advanceFinest _ | .take _ | .takeFinest
  | .run _ _ _ => []

section

variable {w : Wheel τ}

theorem split_of_level? {i : Nat} {l : Level τ} (hl : w.level? i = some l) :
    ∃ coarse finer, w.levels = coarse ++ l :: finer ∧ coarse.length = i := by
  obtain ⟨hi, rfl⟩ := List.getElem?_eq_some_iff.1 hl
  refine ⟨w.levels.take i, w.levels.drop (i + 1), ?_, List.length_take_of_le (Nat.le_of_lt hi)⟩
  rw [List.getElem_cons_drop hi, List.take_append_drop]

/-- What is taken out of a level is what its current slot held, and nothing else changes. -/
theorem eq_of_take {i : Nat} {ts : List (Timer τ)} {w' : Wheel τ} (hw : w.take i = .ok (ts, w')) :
    ∃ coarse l finer, w.levels = coarse ++ l :: finer ∧ coarse.length = i ∧ ts = l.current ∧
      w' = ⟨coarse ++ l.drain :: finer⟩ := by
  rw [take] at hw
  split at hw
  next l hl =>
    obtain ⟨rfl, rfl⟩ := Prod.mk.inj (Except.ok.inj hw)
    obtain ⟨coarse, finer, hlevels, rfl⟩ := split_of_level? hl
    refine ⟨coarse, l, finer, hlevels, rfl, rfl, ?_⟩
    rw [hlevels, List.set_append_right _ _ (Nat.le_refl _), Nat.sub_self, List.set_cons_zero]
  next => cases hw

theorem specsOf_insertAt (i : Nat) (t : Timer τ) (now : Int) (w : Wheel τ) :
    specsOf (w.insertAt i t now).levels = specsOf w.levels := by
  rw [insertAt, specsOf_append, specsOf_place, ← specsOf_append, List.take_append_drop]

theorem specsOf_take {i : Nat} {ts : List (Timer τ)} {w' : Wheel τ} (hw : w.take i = .ok (ts, w')) :
    specsOf w'.levels = specsOf w.levels := by
  obtain ⟨coarse, l, finer, hlevels, -, -, rfl⟩ := eq_of_take hw
  rw [hlevels]
  simp

theorem specsOf_takeFinest (w : Wheel τ) : specsOf w.takeFinest.2.levels = specsOf w.levels := by
  have hyield := congrArg (fun taken => taken.2.levels) (takeFinest_eq_yield w.levels)
  exact (congrArg specsOf hyield).trans (specsOf_yield w.levels)

theorem specsOf_run (now step : Int) (k n : Nat) (w : Wheel τ) :
    specsOf (run.go now step k n w).2.levels = specsOf w.levels := by
  induction n generalizing k w with
  | zero => rfl
  | succ n ih => exact (ih (k + 1) _).trans (specsOf_tick _ w)

/-- The levels of a wheel are those that were added to it. -/
theorem specsOf_perform (w : Wheel τ) (op : Operation τ) :
    specsOf (w.perform op).2.levels = specsOf w.levels ++ op.adds := by
  cases op with
  | append spec =>
    by_cases hvalid : spec.Valid
    · rw [perform, append, Operation.adds, if_pos hvalid, if_pos hvalid]
      exact specsOf_append w.levels [Level.ofSpec spec]
    · rw [perform, append, Operation.adds, if_neg hvalid, if_neg hvalid, List.append_nil]
  | insert t now => exact (specsOf_place t now w.levels).trans (List.append_nil _).symm
  | insertAt i t now => exact (specsOf_insertAt i t now w).trans (List.append_nil _).symm
  | advance i now =>
    rw [perform, advance, Operation.adds, List.append_nil]
    by_cases hi : i < w.depth
    · rw [if_pos hi]
      exact specsOf_advanceAt now i w.levels
    · rw [if_neg hi]
  | advanceFinest now => exact (specsOf_advanceAt now _ w.levels).trans (List.append_nil _).symm
  | take i =>
    rw [perform, Operation.adds, List.append_nil]
    cases hw : w.take i with
    | ok taken => exact specsOf_take hw
    | error reason => rfl
  | takeFinest => exact (specsOf_takeFinest w).trans (List.append_nil _).symm
  | run now step count => exact (specsOf_run now step 1 count w).trans (List.append_nil _).symm

theorem specsOf_performAll (w : Wheel τ) (ops : List (Operation τ)) :
    specsOf (w.performAll ops).2.levels = specsOf w.levels ++ ops.flatMap Operation.adds := by
  induction ops generalizing w with
  | nil => exact (List.append_nil _).symm
  | cons op rest ih =>
    have hrest := ih (w.perform op).2
    rw [specsOf_perform, List.append_assoc] at hrest
    exact hrest

end

/-! ### Well-formed wheels -/

section

variable {w : Wheel τ}

theorem wellFormed_takeFinest (h : LevelsWellFormed w.levels) :
    LevelsWellFormed w.takeFinest.2.levels := by
  rw [takeFinest, finest?]
  cases hlast : w.levels.getLast? with
  | none => exact h
  | some l =>
    refine List.forall_mem_append.2 ⟨fun m hm => h m ((List.dropLast_sublist _).subset hm), ?_⟩
    exact List.forall_mem_singleton.2 (Level.wellFormed_drain (h l (List.mem_of_getLast? hlast)))

theorem wellFormed_tick (h : LevelsWellFormed w.levels) (now : Int) :
    LevelsWellFormed (w.tick now).2.levels :=
  wellFormed_takeFinest (wellFormed_advanceAt h now (w.depth - 1))

theorem wellFormed_run (h : LevelsWellFormed w.levels) (now step : Int) (k n : Nat) :
    LevelsWellFormed (run.go now step k n w).2.levels := by
  induction n generalizing k w with
  | zero => exact h
  | succ n ih => exact ih (wellFormed_tick h _) (k + 1)

/-- No operation spoils the levels of a wheel. -/
theorem wellFormed_perform (h : LevelsWellFormed w.levels) (op : Operation τ) :
    LevelsWellFormed (w.perform op).2.levels := by
  cases op with
  | append spec =>
    by_cases hvalid : spec.Valid
    · rw [perform, append, if_pos hvalid]
      exact List.forall_mem_append.2
        ⟨h, List.forall_mem_singleton.2 (Level.wellFormed_ofSpec hvalid)⟩
    · rw [perform, append, if_neg hvalid]
      exact h
  | insert t now => exact wellFormed_place h t now
  | insertAt i t now =>
    refine List.forall_mem_append.2 ⟨fun l hl => h l (List.mem_of_mem_take hl), ?_⟩
    exact wellFormed_place (fun l hl => h l (List.mem_of_mem_drop hl)) t now
  | advance i now =>
    by_cases hi : i < w.depth
    · rw [perform, advance, if_pos hi]
      exact wellFormed_advanceAt h now i
    · rw [perform, advance, if_neg hi]
      exact h
  | advanceFinest now => exact wellFormed_advanceAt h now (w.depth - 1)
  | take i =>
    rw [perform, take]
    cases hl : w.level? i with
    | none => exact h
    | some l =>
      intro m hm
      rcases List.mem_or_eq_of_mem_set hm with hold | rfl
      · exact h m hold
      · exact Level.wellFormed_drain (h l (List.mem_of_getElem? hl))
  | takeFinest => exact wellFormed_takeFinest h
  | run now step count => exact wellFormed_run h now step 1 count

/-! ### One operation -/

theorem timers_append (w : Wheel τ) (spec : LevelSpec) :
    timersIn (w.levels ++ [Level.ofSpec spec]) = w.timers := by
  rw [timersIn_append, timersIn_cons, Level.timers_ofSpec, timersIn_nil, List.append_nil,
    List.append_nil, timers_eq]

/-- Without levels there is nothing to fall into. -/
theorem insertAt_of_isEmpty (h : w.isEmpty = true) (i : Nat) (t : Timer τ) (now : Int) :
    w.insertAt i t now = w := by
  obtain ⟨levels⟩ := w
  obtain rfl : levels = [] := isEmpty_iff.1 h
  simp [insertAt, place]

/-- A timer that falls in at any level is held, unless there are no levels. -/
theorem timers_insertAt (h : LevelsWellFormed w.levels) (i : Nat) (t : Timer τ) (now : Int) :
    (w.insertAt i t now).timers.Perm (w.accepts (.insertAt i t now) ++ w.timers) := by
  rw [accepts]
  by_cases hempty : w.isEmpty
  · rw [if_pos hempty, insertAt_of_isEmpty hempty]
    exact List.Perm.refl _
  · rw [if_neg hempty, insertAt, depth, timers_eq, timers_eq, Operation.timers, timersIn_append]
    have hne : w.levels ≠ [] := mt isEmpty_iff.2 hempty
    have hpos := List.length_pos_iff.2 hne
    generalize hentry : min i (w.levels.length - 1) = entry
    have hentered : w.levels.drop entry ≠ [] := by
      rw [← List.length_pos_iff, List.length_drop]
      omega
    have hplaced := timersIn_place (fun l hl => h l (List.mem_of_mem_drop hl)) hentered t now
    refine (hplaced.append_left _).trans ?_
    conv_rhs => rw [← List.take_append_drop entry w.levels, timersIn_append]
    exact List.perm_middle

theorem insert_eq_insertAt (t : Timer τ) (now : Int) (w : Wheel τ) :
    w.insert t now = w.insertAt 0 t now := by
  rw [insert, insertAt, Nat.zero_min]
  rfl

theorem timers_advance (h : LevelsWellFormed w.levels) {i : Nat} {now : Int} {w' : Wheel τ}
    (hw : w.advance i now = .ok w') : w'.timers.Perm w.timers := by
  rw [advance] at hw
  split at hw
  next hi =>
    obtain rfl := Except.ok.inj hw
    exact timersIn_advanceAt h now hi
  next => cases hw

theorem timers_advanceFinest (h : LevelsWellFormed w.levels) (now : Int) :
    (w.advanceFinest now).timers.Perm w.timers := by
  by_cases hne : w.levels = []
  · rw [advanceFinest, timers_eq, timers_eq, hne]
    rfl
  · exact timersIn_advanceAt h now (Nat.sub_lt (List.length_pos_iff.2 hne) Nat.one_pos)

/-- What is taken out of a slot of any level, together with what stays, is what there was. -/
theorem timers_take {i : Nat} {ts : List (Timer τ)} {w' : Wheel τ} (hw : w.take i = .ok (ts, w')) :
    (ts ++ w'.timers).Perm w.timers := by
  obtain ⟨coarse, l, finer, hlevels, -, rfl, rfl⟩ := eq_of_take hw
  rw [timers_eq, timers_eq, hlevels]
  simp only [timersIn_append, timersIn_cons]
  rw [← List.append_assoc l.current]
  refine (List.perm_append_comm.append_right _).trans ?_
  rw [List.append_assoc, ← List.append_assoc l.current]
  exact ((Level.timers_drain l).append_right _).append_left _

/-- What a row of ticks yields, together with what stays, is what there was. -/
theorem timers_run (h : LevelsWellFormed w.levels) (now step : Int) (k n : Nat) :
    ((run.go now step k n w).1.map Prod.snd ++ (run.go now step k n w).2.timers).Perm w.timers := by
  induction n generalizing k w with
  | zero => exact List.Perm.refl _
  | succ n ih =>
    have hlater := ih (wellFormed_tick h (now + k * step)) (k + 1)
    have hnow := timers_tick h (now + k * step)
    rw [run.go]
    simp only [List.map_append, List.map_map, Function.comp_def, List.map_id', List.append_assoc]
    exact (hlater.append_left _).trans hnow

/-- An operation leaves all timers where they are, or changes their places, but for the one that it
brings in and those that it hands out. -/
theorem timers_perform (h : LevelsWellFormed w.levels) (op : Operation τ) :
    ((w.perform op).1.timers ++ (w.perform op).2.timers).Perm (w.accepts op ++ w.timers) := by
  cases op with
  | append spec =>
    rw [accepts_eq_nil rfl, perform, append]
    by_cases hvalid : spec.Valid
    · rw [if_pos hvalid]
      exact List.Perm.of_eq (timers_append w spec)
    · rw [if_neg hvalid]
      exact List.Perm.refl _
  | insert t now =>
    rw [perform, insert_eq_insertAt]
    exact timers_insertAt h 0 t now
  | insertAt i t now => exact timers_insertAt h i t now
  | advance i now =>
    rw [accepts_eq_nil rfl, perform]
    cases hw : w.advance i now with
    | ok w' => exact timers_advance h hw
    | error reason => exact List.Perm.refl _
  | advanceFinest now =>
    rw [accepts_eq_nil rfl]
    exact timers_advanceFinest h now
  | take i =>
    rw [accepts_eq_nil rfl, perform]
    cases hw : w.take i with
    | ok taken => exact timers_take hw
    | error reason => exact List.Perm.refl _
  | takeFinest =>
    rw [accepts_eq_nil rfl]
    exact timers_takeFinest w
  | run now step count =>
    rw [accepts_eq_nil rfl]
    exact timers_run h now step 1 count

theorem count_perform (h : LevelsWellFormed w.levels) (op : Operation τ) :
    (w.perform op).1.timers.length + (w.perform op).2.count =
      (w.accepts op).length + w.count := by
  rw [count_eq_length, count_eq_length, ← List.length_append, ← List.length_append]
  exact (timers_perform h op).length_eq

/-! ### Any sequence of operations -/

theorem wellFormed_performAll (h : LevelsWellFormed w.levels) (ops : List (Operation τ)) :
    LevelsWellFormed (w.performAll ops).2.levels := by
  induction ops generalizing w with
  | nil => exact h
  | cons op rest ih => exact ih (wellFormed_perform h op)

/-- What the operations bring in is found in the replies or in the wheel. -/
theorem timers_performAll (h : LevelsWellFormed w.levels) (ops : List (Operation τ)) :
    (w.acceptedAlong ops ++ w.timers).Perm
      ((w.performAll ops).1.flatMap Reply.timers ++ (w.performAll ops).2.timers) := by
  induction ops generalizing w with
  | nil => exact List.Perm.refl _
  | cons op rest ih =>
    have hfirst := timers_perform h op
    have hrest := ih (wellFormed_perform h op)
    show (w.accepts op ++ (w.perform op).2.acceptedAlong rest ++ w.timers).Perm
      (((w.perform op).1.timers ++ ((w.perform op).2.performAll rest).1.flatMap Reply.timers) ++
        ((w.perform op).2.performAll rest).2.timers)
    rw [List.append_assoc, List.append_assoc]
    -- What comes in later steps aside while the first operation is accounted for.
    have haside := List.perm_append_comm_assoc (w.accepts op)
      ((w.perform op).2.acceptedAlong rest) w.timers
    have hback := List.perm_append_comm_assoc ((w.perform op).2.acceptedAlong rest)
      (w.perform op).1.timers (w.perform op).2.timers
    exact haside.trans ((hfirst.symm.append_left _).trans (hback.trans (hrest.append_left _)))

end

/-- Take a new wheel and perform any operations on it. The timers that were inserted while it had
levels are, record by record and as often as they were inserted, those that it has handed out and
those that it holds. Moving a level, with all the turns that this completes, keeps the timers that
are held; any operation changes their number only by what it brings in and hands out; and a wheel
without levels takes nothing. -/
theorem timers_conserved (ops : List (Operation τ)) :
    let (replies, w) := (empty : Wheel τ).performAll ops
    ((empty : Wheel τ).acceptedAlong ops).Perm (replies.flatMap Reply.timers ++ w.timers) ∧
    (∀ i now w', w.advance i now = .ok w' → w'.timers.Perm w.timers ∧ w'.count = w.count) ∧
    (∀ now, (w.advanceFinest now).timers.Perm w.timers ∧ (w.advanceFinest now).count = w.count) ∧
    (∀ op, (w.perform op).1.timers.length + (w.perform op).2.count =
      (w.accepts op).length + w.count) ∧
    (w.isEmpty = true → ∀ i t now, w.insert t now = w ∧ w.insertAt i t now = w) := by
  have hnew : LevelsWellFormed (empty : Wheel τ).levels := fun l hl => absurd hl List.not_mem_nil
  have hcount {w w' : Wheel τ} (hperm : w'.timers.Perm w.timers) : w'.count = w.count := by
    rw [count_eq_length, count_eq_length]
    exact hperm.length_eq
  have h := wellFormed_performAll hnew ops
  have haccount := timers_performAll hnew ops
  refine ⟨?_, ?_, ?_, count_perform h, ?_⟩
  · rwa [show (empty : Wheel τ).timers = [] from rfl, List.append_nil] at haccount
  · intro i now w' hw
    have hperm := timers_advance h hw
    exact ⟨hperm, hcount hperm⟩
  · intro now
    have hperm := timers_advanceFinest h now
    exact ⟨hperm, hcount hperm⟩
  · intro hempty i t now
    rw [insert_eq_insertAt]
    exact ⟨insertAt_of_isEmpty hempty 0 t now, insertAt_of_isEmpty hempty i t now⟩

end TimingWheel.Wheel
