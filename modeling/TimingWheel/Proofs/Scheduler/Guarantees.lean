import Mathlib.Algebra.Ring.Nat
import TimingWheel.Proofs.Agenda.Cancellation
import TimingWheel.Proofs.Scheduler.Run

/-!
# What holds of every reachable scheduler

Whatever callers ask, in whichever order, and whatever the clock shows: the pending handles are
those of the timers in the wheel, each of them at one place, and nothing is noted about any other
timer. A timer that was asked to be dropped never fires again.

## Main statements

- `Scheduler.books_in_order` — the tables and the wheel of a reachable scheduler agree
- `Scheduler.cancel_is_final` — what a cancellation leads to, whatever follows it
-/

namespace TimingWheel.Scheduler

variable {τ : Type}

/-! ### The books -/

/-- No timer is counted twice, neither by a level nor by the table of pending handles. -/
theorem pending_eq_sum {a : Agenda τ} (h : a.Balanced []) :
    a.pending = (a.wheel.info.map (·.timers)).sum := by
  have hlength : a.pending = a.wheel.timers.length := by
    rw [Agenda.pending, h.live_perm.length_eq, List.nil_append, List.length_map]
  rw [hlength, Wheel.timers, List.length_flatMap, Wheel.info, List.map_map]
  rfl

theorem mem_live_iff_slotOf {a : Agenda τ} (h : a.Balanced []) (id : TimerId) :
    id ∈ a.live ↔ ∃ i j, ∃ t ∈ a.wheel.slotOf i j, t.id = id := by
  rw [h.mem_live_iff]
  constructor
  · rintro ⟨t, ht, hid⟩
    obtain ⟨i, j, hslot⟩ := Wheel.mem_timers.1 (ht.resolve_left List.not_mem_nil)
    exact ⟨i, j, t, hslot, hid⟩
  · rintro ⟨i, j, t, ht, hid⟩
    exact ⟨t, Or.inr (Wheel.mem_timers.2 ⟨i, j, ht⟩), hid⟩

/-- In every reachable scheduler,
* a handle that is held is held at one place of one slot of one level, and at no other;
* the pending handles are those that some slot holds, each listed once, and there are as many of
  them as the levels hold timers;
* each request is about a pending timer, and each pending handle was given out. -/
theorem books_in_order {s : Scheduler τ} (h : Reachable s) :
    let a := s.agenda
    (∀ (i j k i' j' k' : Nat) (t u : Timer τ), (a.wheel.slotOf i j)[k]? = some t →
      (a.wheel.slotOf i' j')[k']? = some u → t.id = u.id → i = i' ∧ j = j' ∧ k = k') ∧
    a.live.Nodup ∧
    (∀ id, id ∈ a.live ↔ ∃ i j, ∃ t ∈ a.wheel.slotOf i j, t.id = id) ∧
    (∀ id, a.isPending id = true ↔ ∃ i j, ∃ t ∈ a.wheel.slotOf i j, t.id = id) ∧
    a.pending = (a.wheel.info.map (·.timers)).sum ∧
    (∀ id ∈ a.cancels, id ∈ a.live) ∧
    (∀ r ∈ a.resets, r.1 ∈ a.live) ∧
    (∀ id ∈ a.live, 1 ≤ id.value ∧ id.value < a.nextId) := by
  intro a
  have hb : a.Balanced [] := h.balanced
  refine ⟨?_, hb.live_nodup, mem_live_iff_slotOf hb, ?_, pending_eq_sum hb,
    hb.cancels_live, hb.resets_live, hb.live_range⟩
  · intro i j k i' j' k' t u ht hu hid
    exact Wheel.position_unique hb.ids_nodup ht hu hid
  · intro id
    rw [Agenda.isPending, decide_eq_true_iff]
    exact mem_live_iff_slotOf hb id

/-- With a timer registered in a wheel of two levels. -/
theorem books_in_order_two_levels : ∃ s : Scheduler Unit, Reachable s ∧
    s.agenda.live = [⟨1⟩] ∧ s.agenda.pending = (s.agenda.wheel.info.map (·.timers)).sum := by
  have hnew := @Reachable.create Unit .offline
    { levels := [⟨4, 100, "coarse"⟩, ⟨10, 10, "fine"⟩] } _ rfl
  have hone := hnew.act 0 (.call (.createAt 250 none))
  exact ⟨_, hone, rfl, (books_in_order hone).2.2.2.2.1⟩

/-! ### Cancellations -/

/-- An action without a beat makes no tick of the agenda. -/
theorem not_tick_of_no_beat {wall : Int} {s : Scheduler τ} {action : Action τ}
    (h : (s.act wall action).1 = []) : ∀ m ∈ s.movesOf wall action, ∀ now, m ≠ .tick now := by
  intro m hm now heq
  subst heq
  unfold movesOf at hm
  split at hm
  case h_2 =>
    split at hm
    · exact List.not_mem_nil hm
    · cases List.mem_singleton.1 hm
  case h_10 =>
    rw [h] at hm
    exact List.not_mem_nil hm
  all_goals cases List.mem_singleton.1 hm

theorem doomed_of_no_beat {wall : Int} {s : Scheduler τ} {action : Action τ} {id : TimerId}
    (hid : s.agenda.Doomed id) (h : (s.act wall action).1 = []) :
    (s.act wall action).2.agenda.Doomed id := by
  rw [← (explained_act wall s action).agenda { agenda := s.agenda } rfl]
  exact History.doomed_after hid (not_tick_of_no_beat h)

/-- Whatever run follows the cancellation of a pending timer,
* no beat of it fires the timer, and in the end the timer is doomed or gone;
* a doomed timer stays doomed through all that makes no tick;
* a tick that yields a doomed timer carries a noted reset out and leaves it doomed, and without
  one the timer is gone; a tick that does not yield it leaves all that is noted about it alone;
* nothing can be asked about a timer that is gone, and it is gone for good. -/
theorem cancel_is_final {s : Scheduler τ} (h : Reachable s) {id : TimerId}
    (hpending : s.agenda.isPending id = true) (run : List (Int × Action τ)) :
    let r := (s.cancel id).follow run
    let a := r.2.agenda
    (∀ beat ∈ r.1, id ∉ beat.fired) ∧
    (a.Doomed id ∨ a.Gone id) ∧
    (a.Doomed id → ∀ wall action, (r.2.act wall action).1 = [] →
      (r.2.act wall action).2.agenda.Doomed id) ∧
    (a.Doomed id → ∀ now,
      (∀ t ∈ a.yielded now, t.id = id → ∀ due, a.resetOf id = some due →
        (a.tick now).2.Doomed id ∧ t.reset due ∈ (a.tick now).2.wheel.timers ∧
          (a.tick now).2.resetOf id = none) ∧
      (∀ t ∈ a.yielded now, t.id = id → a.resetOf id = none → (a.tick now).2.Gone id) ∧
      ((∀ t ∈ a.yielded now, t.id ≠ id) →
        (a.tick now).2.Doomed id ∧ (a.tick now).2.resetOf id = a.resetOf id)) ∧
    (a.Gone id →
      (∀ due, r.2.resetAt id due = r.2) ∧
      (∀ wall delay, r.2.resetAfter wall id delay = r.2) ∧
      r.2.cancel id = r.2 ∧
      ∀ later, (r.2.follow later).2.agenda.Gone id) := by
  intro r a
  have hcancelled : (s.cancel id).agenda.Balanced [] :=
    Agenda.balanced_requestCancel h.balanced id
  have hdoomed : (s.cancel id).agenda.Doomed id :=
    Agenda.doomed_requestCancel (of_decide_eq_true hpending)
  let g : History τ := { agenda := (s.cancel id).agenda }
  have hexplained := explained_follow (s.cancel id) run
  have hagenda : (g.after ((s.cancel id).movesAlong run)).agenda = a := hexplained.agenda g rfl
  have hb : a.Balanced [] := by
    rw [← hagenda]
    exact History.balanced_after hcancelled _
  refine ⟨?_, ?_, fun hid wall action => doomed_of_no_beat hid, fun hid now => ⟨?_, ?_, ?_⟩,
    fun hgone => ⟨?_, ?_, ?_, ?_⟩⟩
  · -- The history of the run answers the timer as often as `g` does, which is not at all.
    have hcount := History.count_fired_after (h := g) hcancelled (Or.inl hdoomed)
      ((s.cancel id).movesAlong run)
    rw [hexplained.fired g rfl] at hcount
    have hnone := List.count_eq_zero.1 hcount
    exact fun beat hbeat hfired => hnone (List.mem_flatMap.2 ⟨beat, hbeat, hfired⟩)
  · rw [← hagenda]
    exact History.doomed_or_gone_after hcancelled (Or.inl hdoomed) _
  · intro t ht heq due hreset
    exact Agenda.doomed_tick_of_moved hb now hid ht heq hreset
  · intro t ht heq hreset
    exact Agenda.gone_tick_of_doomed hb now hid ht heq hreset
  · exact Agenda.doomed_tick_of_not_yielded hb now hid
  · intro due
    rw [resetAt, Agenda.requestReset_of_not_live hgone.not_live]
  · intro wall delay
    rw [resetAfter, resetAt, Agenda.requestReset_of_not_live hgone.not_live]
  · rw [cancel, Agenda.requestCancel_of_not_live hgone.not_live]
  · intro later
    rw [← (explained_follow r.2 later).agenda { agenda := a } rfl]
    exact History.gone_after hb hgone _

/-- With a timer that repeats and that is moved once before it is dropped. -/
theorem cancel_is_final_repeating : ∃ s : Scheduler Unit, Reachable s ∧
    s.agenda.isPending ⟨1⟩ = true ∧
    ∀ beat ∈ ((s.cancel ⟨1⟩).follow [(0, .call (.resetAt ⟨1⟩ 40)), (0, .call (.advanceTicks 5))]).1,
      ⟨1⟩ ∉ beat.fired := by
  have hnew := @Reachable.create Unit .offline { levels := [⟨10, 10, "fine"⟩] } _ rfl
  have hone := (hnew.act 0 (.call (.createEvery 20 none))).act 0 (.call .start)
  exact ⟨_, hone, rfl, (cancel_is_final hone rfl _).1⟩

end TimingWheel.Scheduler
