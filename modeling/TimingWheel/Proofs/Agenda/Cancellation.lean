import TimingWheel.Proofs.Agenda.History

/-!
# A cancellation is final

A cancellation is only noted when it is asked for. Until the wheel yields the timer with no
reset noted, the note stays, whatever else is asked for and however often the timer is moved;
and while it stays the timer does not fire. Then the timer goes, together with the note, and
nothing can be asked about it any more.

## Main definitions

- `Agenda.Doomed` — the timer is pending and its cancellation is noted
- `Agenda.Gone` — the timer was registered once and nothing is left of it

## Main statements

- `Agenda.gone_tick_of_doomed`, `Agenda.doomed_tick_of_moved`,
  `Agenda.doomed_tick_of_not_yielded` — what a tick does with a doomed timer
- `Agenda.doomed_or_gone_move`, `Agenda.gone_move` — what any move does with it
- `History.doomed_or_gone_after`, `History.count_fired_after` — it never fires again
-/

namespace TimingWheel

variable {τ : Type}

namespace Agenda

/-- The timer is pending and its cancellation is noted. -/
structure Doomed (id : TimerId) (a : Agenda τ) : Prop where
  live : id ∈ a.live
  noted : id ∈ a.cancels

/-- The timer was registered once. It is not pending any more, the wheel does not hold it, and
nothing is noted about it. -/
structure Gone (id : TimerId) (a : Agenda τ) : Prop where
  used : id.value < a.nextId
  not_live : id ∉ a.live
  not_noted : id ∉ a.cancels
  not_reset : a.resetOf id = none
  not_held : ∀ t ∈ a.wheel.timers, t.id ≠ id

/-- While the books are in order, a handle that was used and is not pending has left no trace. -/
theorem Balanced.gone {a : Agenda τ} (h : Balanced [] a) {id : TimerId}
    (hused : id.value < a.nextId) (hlive : id ∉ a.live) : Gone id a where
  used := hused
  not_live := hlive
  not_noted := fun hnoted => hlive (h.cancels_live id hnoted)
  not_reset := h.resetOf_eq_none hlive
  not_held := fun t ht heq => hlive (h.mem_live_iff.2 ⟨t, Or.inr ht, heq⟩)

/-! ### Asking -/

theorem doomed_requestCancel {a : Agenda τ} {id : TimerId} (hlive : id ∈ a.live) :
    Doomed id (a.requestCancel id) where
  live := by
    rw [requestCancel_frame]
    exact hlive
  noted := (mem_cancels_requestCancel id id a).2 (Or.inr ⟨rfl, hlive⟩)

theorem requestReset_of_not_live {a : Agenda τ} {id : TimerId} (hlive : id ∉ a.live) (due : Int) :
    a.requestReset id due = a := by
  simp [requestReset, isPending, hlive]

theorem requestCancel_of_not_live {a : Agenda τ} {id : TimerId} (hlive : id ∉ a.live) :
    a.requestCancel id = a := by
  simp [requestCancel, isPending, hlive]

/-! ### Ticks -/

section

variable {a : Agenda τ} (h : Balanced [] a) {id : TimerId} (now : Int)

include h

/-- A doomed timer that is yielded with no reset noted leaves the wheel and all tables. -/
theorem gone_tick_of_doomed (hdoomed : Doomed id a) {t : Timer τ} (ht : t ∈ a.yielded now)
    (hid : t.id = id) (hreset : a.resetOf id = none) : Gone id (a.tick now).2 := by
  subst hid
  have hv : a.verdict now t = .drop := by
    rw [verdict]
    rw [hreset]
    exact if_pos hdoomed.noted
  refine (balanced_tick h now).gone ?_ ?_
  · rw [nextId_tick]
    exact (h.live_range t.id hdoomed.live).2
  · -- It would have to go back, but the verdict is to drop it.
    rw [mem_live_tick h]
    rintro ⟨-, hback⟩
    have hout := hback t ht rfl
    rw [hv] at hout
    cases hout

/-- A doomed timer that is yielded with a reset noted goes back with the due time asked for,
and it stays doomed. -/
theorem doomed_tick_of_moved (hdoomed : Doomed id a) {t : Timer τ} (ht : t ∈ a.yielded now)
    (hid : t.id = id) {due : Int} (hreset : a.resetOf id = some due) :
    Doomed id (a.tick now).2 ∧ t.reset due ∈ (a.tick now).2.wheel.timers ∧
      (a.tick now).2.resetOf id = none := by
  subst hid
  obtain ⟨hback, hnone, hnoted, -⟩ := moved_tick h ht hreset
  have hlive := (balanced_tick h now).mem_live_iff.2 ⟨_, Or.inr hback, Timer.id_reset due t⟩
  exact ⟨⟨hlive, hnoted.2 hdoomed.noted⟩, hback, hnone⟩

/-- A tick that does not yield a timer leaves all that is noted about it alone. -/
theorem doomed_tick_of_not_yielded (hdoomed : Doomed id a)
    (hid : ∀ t ∈ a.yielded now, t.id ≠ id) :
    Doomed id (a.tick now).2 ∧ (a.tick now).2.resetOf id = a.resetOf id := by
  refine ⟨⟨?_, ?_⟩, ?_⟩
  · exact (mem_live_tick h now id).2 ⟨hdoomed.live, fun t ht heq => absurd heq (hid t ht)⟩
  · exact (mem_cancels_tick h now id).2 ⟨hdoomed.noted, fun t ht heq => absurd heq (hid t ht)⟩
  · rw [resetOf_tick, if_neg]
    rintro hmem
    obtain ⟨t, ht, heq⟩ := List.mem_map.1 hmem
    exact hid t ht heq

theorem not_fired_of_doomed (hdoomed : Doomed id a) : id ∉ (a.tick now).1.map (·.id) := by
  rw [fired_tick h]
  rintro hmem
  obtain ⟨t, ht, rfl⟩ := List.mem_map.1 hmem
  have hfire := of_decide_eq_true (List.mem_filter.1 ht).2
  exact ((verdict_eq_fire_iff now t a).1 hfire).2.1 hdoomed.noted

theorem not_fired_of_gone (hgone : Gone id a) : id ∉ (a.tick now).1.map (·.id) := by
  rw [fired_tick h]
  rintro hmem
  obtain ⟨t, ht, rfl⟩ := List.mem_map.1 hmem
  exact hgone.not_live (yielded_live h now (List.mem_filter.1 ht).1)

theorem doomed_or_gone_tick (hdoomed : Doomed id a) :
    Doomed id (a.tick now).2 ∨ Gone id (a.tick now).2 := by
  by_cases hreached : ∃ t ∈ a.yielded now, t.id = id
  · obtain ⟨t, ht, hid⟩ := hreached
    cases hreset : a.resetOf id with
    | none => exact Or.inr (gone_tick_of_doomed h now hdoomed ht hid hreset)
    | some due => exact Or.inl (doomed_tick_of_moved h now hdoomed ht hid hreset).1
  · refine Or.inl (doomed_tick_of_not_yielded h now hdoomed ?_).1
    intro t ht heq
    exact hreached ⟨t, ht, heq⟩

end

/-! ### Moves -/

theorem doomed_move {a : Agenda τ} {id : TimerId} (hdoomed : Doomed id a) {m : Move τ}
    (hm : ∀ now, m ≠ .tick now) : Doomed id (a.move m) where
  live := (extends_move a hm).live_subset hdoomed.live
  noted := (extends_move a hm).cancels_subset hdoomed.noted

theorem doomed_or_gone_move {a : Agenda τ} (h : Balanced [] a) {id : TimerId}
    (hdoomed : Doomed id a) (m : Move τ) : Doomed id (a.move m) ∨ Gone id (a.move m) := by
  by_cases hm : ∃ now, m = .tick now
  · obtain ⟨now, rfl⟩ := hm
    exact doomed_or_gone_tick h now hdoomed
  · exact Or.inl (doomed_move hdoomed fun now heq => hm ⟨now, heq⟩)

theorem gone_move {a : Agenda τ} (h : Balanced [] a) {id : TimerId} (hgone : Gone id a)
    (m : Move τ) : Gone id (a.move m) := by
  by_cases hm : ∃ now, m = .tick now
  · obtain ⟨now, rfl⟩ := hm
    refine (balanced_tick h now).gone ?_ ?_
    · rw [nextId_tick]
      exact hgone.used
    · intro hlive
      exact hgone.not_live ((mem_live_tick h now id).1 hlive).1
  · have hext := extends_move a (m := m) fun now heq => hm ⟨now, heq⟩
    refine (balanced_move h m).gone (Nat.lt_of_lt_of_le hgone.used hext.nextId_le) ?_
    intro hlive
    rcases hext.live_new id hlive with hold | hnew
    · exact hgone.not_live hold
    · exact Nat.ne_of_lt hgone.used hnew

/-- A doomed timer and one that is gone are not among those that a move answers as fired. -/
theorem count_answers_eq_zero {a : Agenda τ} (h : Balanced [] a) {id : TimerId}
    (hid : Doomed id a ∨ Gone id a) (m : Move τ) : (a.answers m).count id = 0 := by
  rw [List.count_eq_zero]
  cases m with
  | tick now =>
    rcases hid with hdoomed | hgone
    · exact not_fired_of_doomed h now hdoomed
    · exact not_fired_of_gone h now hgone
  | _ => exact List.not_mem_nil

end Agenda

/-! ### Runs -/

namespace History

theorem doomed_after {h : History τ} {id : TimerId} (hdoomed : h.agenda.Doomed id)
    {moves : List (Agenda.Move τ)} (hmoves : ∀ m ∈ moves, ∀ now, m ≠ .tick now) :
    (h.after moves).agenda.Doomed id := by
  induction moves generalizing h with
  | nil => exact hdoomed
  | cons m moves ih =>
    obtain ⟨hm, hmoves⟩ := List.forall_mem_cons.1 hmoves
    exact ih (h := h.move m) (Agenda.doomed_move hdoomed hm) hmoves

theorem gone_after {h : History τ} (hbalanced : h.agenda.Balanced []) {id : TimerId}
    (hgone : h.agenda.Gone id) (moves : List (Agenda.Move τ)) :
    (h.after moves).agenda.Gone id :=
  (after_induction (P := fun h => h.agenda.Balanced [] ∧ h.agenda.Gone id)
    (fun _ m hm => ⟨Agenda.balanced_move hm.1 m, Agenda.gone_move hm.1 hm.2 m⟩)
    ⟨hbalanced, hgone⟩ moves).2

/-- From the cancellation on a timer is doomed until it is gone. -/
theorem doomed_or_gone_after {h : History τ} (hbalanced : h.agenda.Balanced []) {id : TimerId}
    (hid : h.agenda.Doomed id ∨ h.agenda.Gone id) (moves : List (Agenda.Move τ)) :
    (h.after moves).agenda.Doomed id ∨ (h.after moves).agenda.Gone id := by
  refine (after_induction
    (P := fun h => h.agenda.Balanced [] ∧ (h.agenda.Doomed id ∨ h.agenda.Gone id))
    (fun h m hm => ⟨Agenda.balanced_move hm.1 m, ?_⟩) ⟨hbalanced, hid⟩ moves).2
  rcases hm.2 with hdoomed | hgone
  · exact Agenda.doomed_or_gone_move hm.1 hdoomed m
  · exact Or.inr (Agenda.gone_move hm.1 hgone m)

/-- No tick answers a doomed timer, whatever moves are made. -/
theorem count_fired_after {h : History τ} (hbalanced : h.agenda.Balanced []) {id : TimerId}
    (hid : h.agenda.Doomed id ∨ h.agenda.Gone id) (moves : List (Agenda.Move τ)) :
    (h.after moves).fired.count id = h.fired.count id := by
  induction moves generalizing h with
  | nil => rfl
  | cons m moves ih =>
    have hnext : (h.move m).agenda.Doomed id ∨ (h.move m).agenda.Gone id :=
      doomed_or_gone_after hbalanced hid [m]
    have hsame : (h.move m).fired.count id = h.fired.count id := by
      rw [move, List.count_append, Agenda.count_answers_eq_zero hbalanced hid m, Nat.add_zero]
    exact (ih (Agenda.balanced_move hbalanced m) hnext).trans hsame

end History

end TimingWheel
