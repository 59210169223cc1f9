import TimingWheel.Proofs.Agenda.Bookkeeping
import TimingWheel.Proofs.Wheel.Shift

/-!
# An agenda and a shift of time

An agenda looks at times only to compare a due time with a reading of the clock, and to place
timers. So it does not notice a shift: if all due times, those asked for included, and all readings
are later by the same time, it reaches the same verdicts. Requests go to the same timers, and each
tick fires the same ones in the same order.

## Main definitions

- `Verdict.shift`, `Agenda.shift` — all due times made later
- `Agenda.Tempered` — no time leaves the range, shifted or not

## Main statements

- `Agenda.verdict_shift`, `Agenda.settle_shift` — one timer
- `Agenda.tick_shift`, `Agenda.register_shift`, `Agenda.append_shift` — the operations
- `Agenda.tempered_tick`, `Agenda.tempered_register` — what they keep
-/

namespace TimingWheel

variable {τ : Type}

/-- The verdict with the due time that it gives made later. -/
def Verdict.shift (offset : Int) : Verdict → Verdict
  | .move due => .move (due + offset)
  | .drop => .drop
  | .keep => .keep
  | .fire => .fire

theorem Verdict.shift_eq_fire_iff (offset : Int) (v : Verdict) :
    v.shift offset = .fire ↔ v = .fire := by
  cases v <;> simp [shift]

section

variable {offset now : Int} {t : Timer τ}

/-- A timer that fires at a moderate time may go back for its next occurrence. -/
theorem Timer.Tempered.renew (ht : t.Tempered offset) (hnow : Time.Moderate now)
    (hshift : Time.Moderate (now + offset)) (hdue : t.due ≤ now) :
    t.renew.due = t.due + t.interval ∧ t.renew.Tempered offset := by
  have hbefore := ht.due
  have hbeforeShift := ht.due_shift
  have hinterval := ht.interval
  unfold Time.Roomy at hbefore hbeforeShift
  unfold Time.Moderate at hnow hshift hinterval
  have hrenew : t.renew.due = t.due + t.interval :=
    Time.plus_of_fits (by unfold Time.Fits Time.least Time.greatest; omega)
  refine ⟨hrenew, ?_, ?_, ht.interval⟩
  · rw [hrenew, Time.Roomy]
    omega
  · rw [hrenew, Time.Roomy]
    omega

theorem Timer.renew_shift (ht : t.Tempered offset) (hnow : Time.Moderate now)
    (hshift : Time.Moderate (now + offset)) (hdue : t.due ≤ now) :
    (t.shift offset).renew = t.renew.shift offset := by
  obtain ⟨hrenew, htempered⟩ := ht.renew hnow hshift hdue
  have hlater : Time.plus (t.due + offset) t.interval = t.due + offset + t.interval := by
    refine Time.plus_of_fits ?_
    have hfits := htempered.due_shift.fits
    rwa [hrenew, Int.add_right_comm] at hfits
  show ({ t with due := Time.plus (t.due + offset) t.interval } : Timer τ) =
    { t with due := t.renew.due + offset }
  rw [hlater, hrenew, Int.add_right_comm]

end

namespace Agenda

/-- The agenda with all due times made later, also those that were asked for. -/
def shift (offset : Int) (a : Agenda τ) : Agenda τ :=
  { a with
    wheel := a.wheel.shift offset
    resets := a.resets.map fun r => (r.1, r.2 + offset) }

/-- No sum or difference of times in the agenda leaves the range, shifted or not. -/
structure Tempered (offset : Int) (a : Agenda τ) : Prop where
  levels : Wheel.Tempered offset a.wheel.levels
  resets : ∀ r ∈ a.resets, Time.Roomy r.2 ∧ Time.Roomy (r.2 + offset)

section

variable {offset now : Int} {a : Agenda τ} {t : Timer τ}

/-! ### One timer -/

theorem resetOf_shift (offset : Int) (id : TimerId) (a : Agenda τ) :
    (a.shift offset).resetOf id = (a.resetOf id).map (· + offset) := by
  show (a.resets.map fun r => (r.1, r.2 + offset)).lookup id = (a.resets.lookup id).map (· + offset)
  induction a.resets with
  | nil => rfl
  | cons r rest ih =>
    rw [List.map_cons, List.lookup_cons, List.lookup_cons]
    cases id == r.1 with
    | true => rfl
    | false => exact ih

/-- A verdict depends on the difference of times alone. -/
theorem verdict_shift (offset now : Int) (t : Timer τ) (a : Agenda τ) :
    (a.shift offset).verdict (now + offset) (t.shift offset) =
      (a.verdict now t).shift offset := by
  have hreset : (a.shift offset).resetOf (t.shift offset).id =
      (a.resetOf t.id).map (· + offset) := resetOf_shift offset t.id a
  have hcancels : (t.shift offset).id ∈ (a.shift offset).cancels ↔ t.id ∈ a.cancels := Iff.rfl
  have hdue : now + offset < (t.shift offset).due ↔ now < t.due := Int.add_lt_add_iff_right offset
  rw [verdict, verdict, hreset]
  cases a.resetOf t.id with
  | some due => rfl
  | none =>
    simp only [Option.map_none, hcancels, hdue]
    by_cases hcancel : t.id ∈ a.cancels
    · rw [if_pos hcancel]
      rfl
    · rw [if_neg hcancel]
      split <;> rfl

theorem clearReset_shift (offset : Int) (id : TimerId) (a : Agenda τ) :
    (a.shift offset).clearReset id = (a.clearReset id).shift offset := by
  rw [clearReset, clearReset, shift, shift, List.filter_map]
  rfl

theorem putBack_shift (h : Wheel.Tempered offset a.wheel.levels) (ht : t.Tempered offset)
    (hnow : Time.Moderate now) :
    (a.shift offset).putBack (now + offset) (t.shift offset) = (a.putBack now t).shift offset := by
  rw [putBack, putBack, shift, shift, Wheel.insert_shift h ht hnow]

/-- A due time that was asked for is within the range. -/
theorem Tempered.reset (h : a.Tempered offset) (ht : t.Tempered offset) {due : Int}
    (hreset : a.resetOf t.id = some due) : (t.reset due).Tempered offset := by
  obtain ⟨before, after, hresets, -⟩ := List.lookup_eq_some_iff.1 hreset
  obtain ⟨hdue, hdueShift⟩ := h.resets (t.id, due) (by simp [hresets])
  exact ⟨hdue, hdueShift, ht.interval⟩

/-- What goes back into the wheel, after any verdict, may do so. -/
theorem tempered_outcome (h : a.Tempered offset) (ht : t.Tempered offset)
    (hnow : Time.Moderate now) (hshift : Time.Moderate (now + offset)) {u : Timer τ}
    (hu : (a.verdict now t).outcome t = some u) : u.Tempered offset := by
  obtain ⟨due, hreset, hv⟩ | ⟨-, -, hv⟩ | ⟨-, -, -, hv⟩ | ⟨-, -, hdue, hv⟩ :=
    verdict_cases now t a <;> rw [hv, Verdict.outcome] at hu
  · obtain rfl := Option.some.inj hu
    exact h.reset ht hreset
  · cases hu
  · obtain rfl := Option.some.inj hu
    exact ht
  · split at hu
    · obtain rfl := Option.some.inj hu
      exact (ht.renew hnow hshift hdue).2
    · cases hu

theorem resets_settle_subset (now : Int) (t : Timer τ) (a : Agenda τ) (v : Verdict) :
    (a.settle now t v).resets ⊆ a.resets := by
  cases v with
  | move due => exact List.filter_subset_self _
  | drop => exact List.Subset.refl _
  | keep => exact List.Subset.refl _
  | fire =>
    rw [settle]
    split <;> exact List.Subset.refl _

theorem tempered_settle (h : a.Tempered offset) (ht : t.Tempered offset)
    (hnow : Time.Moderate now) (hshift : Time.Moderate (now + offset)) :
    (a.settle now t (a.verdict now t)).Tempered offset where
  levels := by
    rw [levels_settle_eq]
    refine Wheel.tempered_placeAll h.levels ?_ now
    intro u hu
    exact tempered_outcome h ht hnow hshift (Option.mem_toList.1 hu)
  resets := fun r hr => h.resets r (resets_settle_subset now t a _ hr)

theorem settle_shift (h : a.Tempered offset) (ht : t.Tempered offset)
    (hnow : Time.Moderate now) (hshift : Time.Moderate (now + offset)) :
    (a.shift offset).settle (now + offset) (t.shift offset) ((a.verdict now t).shift offset) =
      (a.settle now t (a.verdict now t)).shift offset := by
  obtain ⟨due, hreset, hv⟩ | ⟨-, -, hv⟩ | ⟨-, -, -, hv⟩ | ⟨-, -, hdue, hv⟩ :=
    verdict_cases now t a <;> rw [hv]
  · show ((a.shift offset).clearReset t.id).putBack (now + offset) ((t.reset due).shift offset) = _
    rw [clearReset_shift]
    exact putBack_shift (a := a.clearReset t.id) h.levels (h.reset ht hreset) hnow
  · rfl
  · exact putBack_shift h.levels ht hnow
  · show (if t.repeats then (a.shift offset).putBack (now + offset) (t.shift offset).renew
      else (a.shift offset).forget t.id) = _
    rw [settle]
    split
    · rw [Timer.renew_shift ht hnow hshift hdue]
      exact putBack_shift h.levels (ht.renew hnow hshift hdue).2 hnow
    · rfl

/-! ### Ticks -/

theorem settleAll_shift {hand : List (Timer τ)} (h : a.Tempered offset)
    (hhand : ∀ t ∈ hand, t.Tempered offset) (hnow : Time.Moderate now)
    (hshift : Time.Moderate (now + offset)) :
    settleAll (now + offset) (hand.map (Timer.shift offset)) (a.shift offset) =
        ((settleAll now hand a).1.map (Timer.shift offset), (settleAll now hand a).2.shift offset) ∧
      (settleAll now hand a).2.Tempered offset := by
  induction hand generalizing a with
  | nil => exact ⟨rfl, h⟩
  | cons t rest ih =>
    obtain ⟨ht, hrest⟩ := List.forall_mem_cons.1 hhand
    obtain ⟨hlater, hkept⟩ := ih (tempered_settle h ht hnow hshift) hrest
    refine ⟨?_, hkept⟩
    rw [List.map_cons, settleAll, settleAll, verdict_shift, settle_shift h ht hnow hshift]
    simp only [hlater, Verdict.shift_eq_fire_iff]
    split <;> rfl

/-- On each tick the same timers fire, in the same order, whatever the shift. -/
theorem tick_shift (h : a.Tempered offset) (hnow : Time.Moderate now)
    (hshift : Time.Moderate (now + offset)) :
    (a.shift offset).tick (now + offset) =
        ((a.tick now).1.map (Timer.shift offset), (a.tick now).2.shift offset) ∧
      (a.tick now).2.Tempered offset := by
  obtain ⟨hyielded, hlevels⟩ := Wheel.tempered_tick h.levels now
  have hticked : { a with wheel := (a.wheel.tick now).2 }.Tempered offset := ⟨hlevels, h.resets⟩
  obtain ⟨hsettled, hkept⟩ := settleAll_shift hticked hyielded hnow hshift
  refine ⟨?_, hkept⟩
  show settleAll (now + offset) ((a.wheel.shift offset).tick (now + offset)).1
    { a.shift offset with wheel := ((a.wheel.shift offset).tick (now + offset)).2 } = _
  rw [Wheel.tick_shift h.levels hnow]
  exact hsettled

/-! ### Between ticks -/

theorem register_shift (h : a.Tempered offset) {make make' : TimerId → Timer τ}
    (hmake : ∀ id, make' id = (make id).shift offset) (ht : ∀ id, (make id).Tempered offset)
    (hnow : Time.Moderate now) :
    (a.shift offset).register make' (now + offset) =
      ((a.register make now).1, (a.register make now).2.shift offset) := by
  cases haccepts : a.phase.acceptsTimers with
  | false =>
    have haccepts' : (a.shift offset).phase.acceptsTimers = false := haccepts
    rw [register_of_refuses haccepts, register_of_refuses haccepts']
  | true =>
    have haccepts' : (a.shift offset).phase.acceptsTimers = true := haccepts
    rw [register_of_accepts haccepts, register_of_accepts haccepts', hmake]
    show (_, ({ a.shift offset with
      nextId := a.nextId + 1
      live := ⟨a.nextId⟩ :: a.live
      wheel := (a.wheel.shift offset).insert ((make ⟨a.nextId⟩).shift offset) (now + offset) } :
        Agenda τ)) = _
    rw [Wheel.insert_shift h.levels (ht _) hnow]
    rfl

theorem tempered_register (h : a.Tempered offset) {make : TimerId → Timer τ}
    (ht : ∀ id, (make id).Tempered offset) (now : Int) :
    (a.register make now).2.Tempered offset := by
  cases haccepts : a.phase.acceptsTimers with
  | false =>
    rw [register_of_refuses haccepts]
    exact h
  | true =>
    rw [register_of_accepts haccepts]
    exact ⟨Wheel.tempered_place h.levels (ht _) now, h.resets⟩

theorem requestReset_shift (offset : Int) (id : TimerId) (due : Int) (a : Agenda τ) :
    (a.shift offset).requestReset id (due + offset) = (a.requestReset id due).shift offset := by
  have hpending : (a.shift offset).isPending id = a.isPending id := rfl
  rw [requestReset, requestReset, hpending]
  split
  · rw [shift, shift, List.map_cons, List.filter_map]
    rfl
  · rfl

theorem tempered_requestReset (h : a.Tempered offset) {due : Int} (hdue : Time.Roomy due)
    (hshift : Time.Roomy (due + offset)) (id : TimerId) :
    (a.requestReset id due).Tempered offset := by
  rw [requestReset]
  split
  · refine ⟨h.levels, List.forall_mem_cons.2 ⟨⟨hdue, hshift⟩, ?_⟩⟩
    exact fun r hr => h.resets r (List.mem_filter.1 hr).1
  · exact h

theorem requestCancel_shift (offset : Int) (id : TimerId) (a : Agenda τ) :
    (a.shift offset).requestCancel id = (a.requestCancel id).shift offset := by
  have hnoted : ((a.shift offset).isPending id && !(a.shift offset).cancels.contains id) =
      (a.isPending id && !a.cancels.contains id) := rfl
  rw [requestCancel, requestCancel, hnoted]
  split <;> rfl

theorem tempered_requestCancel (h : a.Tempered offset) (id : TimerId) :
    (a.requestCancel id).Tempered offset := by
  rw [requestCancel_frame]
  exact ⟨h.levels, h.resets⟩

theorem append_shift (offset : Int) (spec : LevelSpec) (a : Agenda τ) :
    (a.shift offset).append spec = (a.append spec).map (shift offset) := by
  have hphase : (a.shift offset).phase = a.phase := rfl
  have hwheel : (a.shift offset).wheel.append spec =
      (a.wheel.append spec).map (Wheel.shift offset) := Wheel.append_shift offset spec a.wheel
  rw [append, append, hphase, hwheel]
  cases a.phase with
  | running => rfl
  | stopped => rfl
  | unconfigured => cases a.wheel.append spec <;> rfl
  | configured => cases a.wheel.append spec <;> rfl

/-- A level leaves the agenda tempered if whole turns of all levels together still take a moderate
time. -/
theorem tempered_append (h : a.Tempered offset) {spec : LevelSpec} {a' : Agenda τ}
    (ha : a.append spec = .ok a')
    (htotal : Time.Moderate (LevelSpec.totalSpan (Wheel.specsOf a'.wheel.levels))) :
    a'.Tempered offset := by
  obtain ⟨hvalid, -, rfl⟩ := eq_of_append ha
  refine ⟨⟨?_, htotal, ?_⟩, h.resets⟩
  · exact List.forall_mem_append.2
      ⟨h.levels.wellFormed, List.forall_mem_singleton.2 (Level.wellFormed_ofSpec hvalid)⟩
  · intro t ht
    rw [Wheel.timers_append] at ht
    exact h.levels.timers t ht

end

end Agenda

end TimingWheel
