import TimingWheel.Proofs.Agenda.History
import TimingWheel.Scheduler.Basic

/-!
# The roster of an agenda

A registration gives a handle out and brings a task along, or none. The roster lists both, for all
registrations so far. Whatever is done with a timer later, its handle and its task stay together, so
that a tick hands over exactly the tasks that the roster has for the handles it answers.

## Main definitions

- `Agenda.enrolled`, `Agenda.dispatches`, `Agenda.verdicts` — what a move adds to the roster, what
  it hands over, and what it decides
- `dispatchOf` — what the roster has for a handle
- `Agenda.Roster` — the roster goes with the agenda

## Main statements

- `Agenda.roster_move` — a move keeps the roster
- `Agenda.dispatches_eq` — what a tick hands over is told by what it answers
- `Agenda.answers_eq` — what a tick answers is told by its verdicts
-/

namespace TimingWheel

variable {τ : Type}

/-- What the roster has for a handle: its task with the handle, unless the task is empty. -/
def dispatchOf (roster : List (TimerId × Option τ)) (id : TimerId) : Option (Dispatch τ) :=
  (roster.lookup id).join.map fun task => { id, task }

theorem dispatchOf_append {roster : List (TimerId × Option τ)} {id : TimerId}
    (h : (roster.lookup id).isSome = true) (later : List (TimerId × Option τ)) :
    dispatchOf (roster ++ later) id = dispatchOf roster id := by
  rw [dispatchOf, dispatchOf, List.lookup_append, Option.or_of_isSome h]

/-- A timer that goes back keeps its task. -/
theorem Verdict.task_of_outcome {t u : Timer τ} {v : Verdict} (h : v.outcome t = some u) :
    u.task = t.task := by
  cases v with
  | move due => rw [← Option.some.inj h, Timer.reset]
  | drop => cases h
  | keep => rw [← Option.some.inj h]
  | fire =>
    simp only [outcome] at h
    split at h
    · rw [← Option.some.inj h, Timer.renew]
    · cases h

namespace Agenda

/-- What a move adds to the roster. -/
def enrolled (a : Agenda τ) : Move τ → List (TimerId × Option τ)
  | .register _ _ task _ => if a.phase.acceptsTimers then [(⟨a.nextId⟩, task)] else []
  | _ => []

/-- The tasks that a move hands over, in order. -/
def dispatches (a : Agenda τ) : Move τ → List (Dispatch τ)
  | .tick now => (a.tick now).1.filterMap Timer.dispatch?
  | _ => []

/-- What a move decides about the timers that it reaches. -/
def verdicts (a : Agenda τ) : Move τ → List (TimerId × Verdict)
  | .tick now => a.outlook now
  | _ => []

/-- The roster goes with the agenda. -/
structure Roster (roster : List (TimerId × Option τ)) (a : Agenda τ) : Prop where
  held : ∀ t ∈ a.wheel.timers, roster.lookup t.id = some t.task
  range : ∀ entry ∈ roster, entry.1.value < a.nextId
  nodup : (roster.map Prod.fst).Nodup

variable {roster : List (TimerId × Option τ)} {a b : Agenda τ}

theorem roster_of_new (h : a.Balanced []) (hnew : a.nextId = 1) : a.Roster [] where
  held t ht := by
    rw [h.timers_eq_nil hnew] at ht
    cases ht
  range _ hentry := absurd hentry List.not_mem_nil
  nodup := List.nodup_nil

/-- A move that registers no timer keeps the roster if it makes no timer of its own. -/
theorem Roster.of_no_registration {m : Move τ} (h : a.Roster roster) (hm : ¬m.Registers)
    (htimers : ∀ t ∈ (a.move m).wheel.timers,
      ∃ u ∈ a.wheel.timers, u.id = t.id ∧ u.task = t.task) :
    (a.move m).Roster (roster ++ a.enrolled m) := by
  have hnone : a.enrolled m = [] := by
    cases m with
    | register due interval task now => exact absurd trivial hm
    | _ => rfl
  rw [hnone, List.append_nil]
  refine ⟨fun t ht => ?_, fun entry hentry => ?_, h.nodup⟩
  · obtain ⟨u, hu, hid, htask⟩ := htimers t ht
    rw [← hid, ← htask]
    exact h.held u hu
  · rw [nextId_move_of_no_registration hm]
    exact h.range entry hentry

/-- The next handle is not on the roster. -/
theorem Roster.lookup_next (h : a.Roster roster) : roster.lookup ⟨a.nextId⟩ = none := by
  refine List.lookup_eq_none_iff.2 fun entry hentry => ?_
  have hrange := h.range entry hentry
  simp only [bne_iff_ne, ne_eq]
  rintro heq
  rw [← heq] at hrange
  exact Nat.lt_irrefl _ hrange

theorem Roster.register (h : a.Roster roster) (hbalanced : a.Balanced []) (due interval : Int)
    (task : Option τ) (now : Int) :
    (a.move (.register due interval task now)).Roster
      (roster ++ a.enrolled (.register due interval task now)) := by
  cases haccepts : a.phase.acceptsTimers with
  | false =>
    simpa [move, enrolled, haccepts, register_of_refuses haccepts] using h
  | true =>
    have htimers := hbalanced.timers_insert haccepts (.every ⟨a.nextId⟩ due interval task) now
    simp only [move, enrolled, haccepts, register_of_accepts haccepts, if_true]
    refine ⟨fun t ht => ?_, fun entry hentry => ?_, ?_⟩
    · rw [List.lookup_append]
      rcases List.mem_cons.1 (htimers.mem_iff.1 ht) with rfl | hold
      · rw [show (Timer.every ⟨a.nextId⟩ due interval task).id = ⟨a.nextId⟩ from rfl,
          h.lookup_next]
        simp [Timer.every]
      · rw [h.held t hold]
        rfl
    · rcases List.mem_append.1 hentry with hold | hnew
      · exact Nat.lt_succ_of_lt (h.range entry hold)
      · rw [List.mem_singleton.1 hnew]
        exact Nat.lt_succ_self _
    · rw [List.map_append, List.nodup_append]
      refine ⟨h.nodup, List.nodup_singleton _, fun id hid id' hid' heq => ?_⟩
      obtain ⟨entry, hentry, rfl⟩ := List.mem_map.1 hid
      have hrange := h.range entry hentry
      rw [heq, List.mem_singleton.1 hid'] at hrange
      exact Nat.lt_irrefl _ hrange

/-- A timer that a tick leaves in the wheel was there before, if only with another due time. -/
theorem held_before_tick (hbalanced : a.Balanced []) {now : Int} {t : Timer τ}
    (ht : t ∈ (a.tick now).2.wheel.timers) :
    ∃ u ∈ a.wheel.timers, u.id = t.id ∧ u.task = t.task := by
  rcases List.mem_append.1 ((timers_tick hbalanced now).mem_iff.1 ht) with hback | hstays
  · obtain ⟨u, hu, hout⟩ := List.mem_filterMap.1 hback
    exact ⟨u, (mem_timers_iff_yielded hbalanced now).2 (.inl hu),
      (Verdict.id_of_outcome hout).symm, (Verdict.task_of_outcome hout).symm⟩
  · exact ⟨t, (mem_timers_iff_yielded hbalanced now).2 (.inr hstays), rfl, rfl⟩

/-- A move keeps the roster. -/
theorem roster_move (h : a.Roster roster) (hbalanced : a.Balanced []) (m : Move τ) :
    (a.move m).Roster (roster ++ a.enrolled m) := by
  cases m with
  | register due interval task now => exact h.register hbalanced due interval task now
  | tick now => exact h.of_no_registration (fun h => h) fun t ht => held_before_tick hbalanced ht
  | append spec =>
    refine h.of_no_registration (fun h => h) fun t ht => ⟨t, ?_, rfl, rfl⟩
    rcases wheel_move_append a spec with hsame | ⟨-, hwheel⟩
    · rwa [hsame] at ht
    · simpa [hwheel, Wheel.timers_eq] using ht
  | start =>
    refine h.of_no_registration (fun h => h) fun t ht => ⟨t, ?_, rfl, rfl⟩
    rwa [move_start_frame] at ht
  | stop =>
    refine h.of_no_registration (fun h => h) fun t ht => ⟨t, ?_, rfl, rfl⟩
    rwa [move_stop_frame] at ht
  | reset id due =>
    refine h.of_no_registration (fun h => h) fun t ht => ⟨t, ?_, rfl, rfl⟩
    rwa [move, requestReset_frame] at ht
  | cancel id =>
    refine h.of_no_registration (fun h => h) fun t ht => ⟨t, ?_, rfl, rfl⟩
    rwa [move, requestCancel_frame] at ht

/-! ### What a tick answers and hands over -/

/-- A timer that fires is on the roster, with its task. -/
theorem Roster.lookup_of_fired (h : a.Roster roster) (hbalanced : a.Balanced []) {now : Int}
    {t : Timer τ} (ht : t ∈ (a.tick now).1) : roster.lookup t.id = some t.task := by
  rw [fired_tick hbalanced now] at ht
  exact h.held t ((mem_timers_iff_yielded hbalanced now).2 (.inl (List.mem_filter.1 ht).1))

/-- What a move answers is on the roster. -/
theorem answers_on_roster (h : a.Roster roster) (hbalanced : a.Balanced []) (m : Move τ) :
    ∀ id ∈ a.answers m, (roster.lookup id).isSome = true := by
  cases m with
  | tick now =>
    intro id hid
    obtain ⟨t, ht, rfl⟩ := List.mem_map.1 hid
    rw [h.lookup_of_fired hbalanced ht]
    rfl
  | _ => exact fun id hid => absurd hid List.not_mem_nil

/-- What a tick hands over is what the roster has for the handles that it answers. -/
theorem dispatches_eq (h : a.Roster roster) (hbalanced : a.Balanced []) (m : Move τ) :
    a.dispatches m = (a.answers m).filterMap (dispatchOf roster) := by
  cases m with
  | tick now =>
    simp only [dispatches, answers, List.filterMap_map]
    refine List.filterMap_congr fun t ht => ?_
    rw [Function.comp_apply, dispatchOf, h.lookup_of_fired hbalanced ht]
    rfl
  | _ => rfl

/-- What a tick answers are the timers with the verdict to fire. -/
theorem answers_eq (a : Agenda τ) (m : Move τ) :
    a.answers m = ((a.verdicts m).filter fun p => p.2 = .fire).map Prod.fst := by
  cases m with
  | tick now => exact ids_tick now a
  | _ => rfl

end Agenda

/-! ### Counting by handles -/

section

variable {roster : List (TimerId × Option τ)} {id : TimerId}

theorem lookup_of_mem (hnodup : (roster.map Prod.fst).Nodup) {task : Option τ}
    (h : (id, task) ∈ roster) : roster.lookup id = some task := by
  induction roster with
  | nil => cases h
  | cons entry rest ih =>
    rw [List.map_cons, List.nodup_cons] at hnodup
    rcases List.mem_cons.1 h with rfl | hrest
    · exact List.lookup_cons_self
    · have hne : id ≠ entry.1 := fun heq => hnodup.1 (heq ▸ List.mem_map_of_mem hrest)
      rw [List.lookup_cons, beq_false_of_ne hne]
      exact ih hnodup.2 hrest

theorem mem_of_lookup {task : Option τ} (h : roster.lookup id = some task) :
    (id, task) ∈ roster := by
  obtain ⟨before, after, rfl, -⟩ := List.lookup_eq_some_iff.1 h
  exact List.mem_append_right before List.mem_cons_self

theorem dispatchOf_eq_some {d : Dispatch τ} (h : dispatchOf roster id = some d) :
    d.id = id ∧ roster.lookup id = some (some d.task) := by
  obtain ⟨task, htask, rfl⟩ := Option.map_eq_some_iff.1 h
  exact ⟨rfl, Option.join_eq_some_iff.1 htask⟩

/-- A handle with a task is handed over as often as it is answered. -/
theorem count_dispatches {task : τ} (h : roster.lookup id = some (some task))
    (ids : List TimerId) :
    (ids.filterMap (dispatchOf roster)).countP (fun d => d.id = id) = ids.count id := by
  induction ids with
  | nil => rfl
  | cons id' rest ih =>
    rw [List.filterMap_cons, List.count_cons, ← ih]
    by_cases heq : id' = id
    · subst heq
      simp [dispatchOf, h]
    · cases hd : dispatchOf roster id' with
      | none => simp [heq]
      | some d => simp [(dispatchOf_eq_some hd).1, heq]

/-- A handle with an empty task is never handed over. -/
theorem count_dispatches_of_empty (h : roster.lookup id = some none) (ids : List TimerId) :
    (ids.filterMap (dispatchOf roster)).countP (fun d => d.id = id) = 0 := by
  refine List.countP_eq_zero.2 fun d hd hid => ?_
  obtain ⟨id', -, hd'⟩ := List.mem_filterMap.1 hd
  obtain ⟨heq, hlookup⟩ := dispatchOf_eq_some hd'
  have hsame : id' = id := heq.symm.trans (of_decide_eq_true hid)
  rw [hsame, h] at hlookup
  cases hlookup

end

end TimingWheel
