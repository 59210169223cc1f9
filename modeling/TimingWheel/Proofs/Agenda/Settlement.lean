import TimingWheel.Proofs.Wheel.Contents
import TimingWheel.Scheduler.Agenda

/-!
# What becomes of the timers that a tick yields

The wheel yields timers one after the other, and each verdict is reached after the ones before
it have been carried out. Since a verdict only looks at what is noted about its own timer, and
carrying it out only touches what is noted about that timer, the order does not matter: all
verdicts can be read off the agenda as it was before the first of them.

## Main definitions

- `Verdict.outcome` — the timer that goes back into the wheel, if there is one

## Main statements

- `Agenda.fired_settleAll`, `Agenda.verdictAll_eq_map` — the verdicts, read off at the start
- `Agenda.mem_live_settleAll`, `Agenda.mem_cancels_settleAll`, `Agenda.resetOf_settleAll`,
  `Agenda.timers_settleAll` — what is noted and held afterwards
-/

namespace TimingWheel

variable {τ : Type}

/-- The timer that goes back into the wheel when the verdict on `t` has been carried out. -/
def Verdict.outcome (t : Timer τ) : Verdict → Option (Timer τ)
  | .move due => some (t.reset due)
  | .drop => none
  | .keep => some t
  | .fire => if t.repeats then some t.renew else none

theorem Verdict.id_of_outcome {t u : Timer τ} {v : Verdict} (h : v.outcome t = some u) :
    u.id = t.id := by
  cases v with
  | move due => rw [← Option.some.inj h, Timer.id_reset]
  | drop => cases h
  | keep => rw [← Option.some.inj h]
  | fire =>
    simp only [outcome] at h
    split at h
    · rw [← Option.some.inj h, Timer.id_renew]
    · cases h

namespace Agenda

/-! ### One request -/

theorem resetOf_eq_none_iff {id : TimerId} {a : Agenda τ} :
    a.resetOf id = none ↔ ∀ r ∈ a.resets, r.1 ≠ id := by
  rw [resetOf]
  rw [List.lookup_eq_none_iff]
  exact forall₂_congr fun r _ => by rw [bne_iff_ne, ne_comm]

private theorem lookup_filter_self (resets : List (TimerId × Int)) (id : TimerId) :
    (resets.filter (fun r => r.1 != id)).lookup id = none := by
  rw [List.lookup_eq_none_iff]
  intro r hr
  have hne := (List.mem_filter.1 hr).2
  rwa [bne_comm]

private theorem lookup_filter_of_ne (resets : List (TimerId × Int)) {id id' : TimerId}
    (h : id ≠ id') : (resets.filter (fun r => r.1 != id')).lookup id = resets.lookup id := by
  induction resets with
  | nil => rfl
  | cons r rest ih =>
    by_cases hr : r.1 = id'
    · have hne : (id == r.1) = false := beq_eq_false_iff_ne.2 (hr ▸ h)
      simp only [List.filter_cons, hr, bne_self_eq_false, Bool.false_eq_true, if_false, ih]
      rw [List.lookup_cons, hne]
    · simp only [List.filter_cons, bne_iff_ne, ne_eq, hr, not_false_eq_true, if_true]
      rw [List.lookup_cons, List.lookup_cons, ih]

theorem resetOf_clearReset (id id' : TimerId) (a : Agenda τ) :
    (a.clearReset id').resetOf id = if id = id' then none else a.resetOf id := by
  rw [clearReset, resetOf]
  split
  next hid => rw [hid, lookup_filter_self]
  next hid => exact lookup_filter_of_ne a.resets hid

theorem resetOf_requestReset (id id' : TimerId) (due : Int) (a : Agenda τ) :
    (a.requestReset id' due).resetOf id =
      if id = id' ∧ id' ∈ a.live then some due else a.resetOf id := by
  rw [requestReset, isPending]
  by_cases hlive : id' ∈ a.live
  · simp only [hlive, decide_true, if_true, and_true]
    rw [resetOf]
    rw [List.lookup_cons]
    by_cases hid : id = id'
    · simp [hid]
    · rw [beq_eq_false_iff_ne.2 hid, if_neg hid]
      exact lookup_filter_of_ne a.resets hid
  · simp [hlive]

theorem mem_cancels_requestCancel (id id' : TimerId) (a : Agenda τ) :
    id ∈ (a.requestCancel id').cancels ↔ id ∈ a.cancels ∨ (id = id' ∧ id' ∈ a.live) := by
  rw [requestCancel, isPending]
  by_cases hlive : id' ∈ a.live
  · by_cases hnoted : id' ∈ a.cancels
    · simp only [hlive, hnoted, decide_true, List.contains_eq_mem, Bool.not_true, Bool.and_false,
        Bool.false_eq_true, if_false, and_true]
      exact ⟨Or.inl, fun h => h.elim (fun hold => hold) (fun heq => heq ▸ hnoted)⟩
    · simp [hlive, hnoted, or_comm]
  · simp [hlive]

/-! ### One verdict -/

/-- A verdict looks at nothing but the requests about its timer. -/
theorem verdict_congr {now : Int} {t : Timer τ} {a b : Agenda τ}
    (hreset : a.resetOf t.id = b.resetOf t.id) (hcancel : t.id ∈ a.cancels ↔ t.id ∈ b.cancels) :
    a.verdict now t = b.verdict now t := by
  unfold verdict
  rw [hreset]
  simp only [hcancel]

/-- The four verdicts and when each is reached. -/
theorem verdict_cases (now : Int) (t : Timer τ) (a : Agenda τ) :
    (∃ due, a.resetOf t.id = some due ∧ a.verdict now t = .move due) ∨
      a.resetOf t.id = none ∧ t.id ∈ a.cancels ∧ a.verdict now t = .drop ∨
      a.resetOf t.id = none ∧ t.id ∉ a.cancels ∧ now < t.due ∧ a.verdict now t = .keep ∨
      a.resetOf t.id = none ∧ t.id ∉ a.cancels ∧ t.due ≤ now ∧ a.verdict now t = .fire := by
  rw [verdict]
  cases hreset : a.resetOf t.id with
  | some due => exact Or.inl ⟨due, rfl, rfl⟩
  | none =>
    by_cases hcancel : t.id ∈ a.cancels
    · exact Or.inr (Or.inl ⟨rfl, hcancel, if_pos hcancel⟩)
    · by_cases hdue : now < t.due
      · exact Or.inr (Or.inr (Or.inl ⟨rfl, hcancel, hdue, by simp [hcancel, hdue]⟩))
      · exact Or.inr (Or.inr (Or.inr ⟨rfl, hcancel, Int.not_lt.1 hdue, by simp [hcancel, hdue]⟩))

theorem mem_live_settle (now : Int) (t : Timer τ) (a : Agenda τ) (v : Verdict) (id : TimerId) :
    id ∈ (a.settle now t v).live ↔ id ∈ a.live ∧ (id = t.id → (v.outcome t).isSome) := by
  cases v with
  | move due => simp [settle, Verdict.outcome, putBack, clearReset]
  | drop => simp [settle, Verdict.outcome, forget, clearCancel]
  | keep => simp [settle, Verdict.outcome, putBack]
  | fire =>
    cases hrep : t.repeats with
    | false => simp [settle, Verdict.outcome, hrep, forget]
    | true => simp [settle, Verdict.outcome, hrep, putBack]

theorem mem_cancels_settle (now : Int) (t : Timer τ) (a : Agenda τ) (v : Verdict) (id : TimerId) :
    id ∈ (a.settle now t v).cancels ↔ id ∈ a.cancels ∧ (id = t.id → v ≠ .drop) := by
  cases v with
  | move due => simp [settle, putBack, clearReset]
  | drop => simp [settle, forget, clearCancel]
  | keep => simp [settle, putBack]
  | fire =>
    simp only [settle]
    split <;> simp [putBack, forget]

/-- Once the verdict on a timer has been carried out, no reset of it is noted. -/
theorem resetOf_settle (now : Int) (t : Timer τ) (a : Agenda τ) (id : TimerId) :
    (a.settle now t (a.verdict now t)).resetOf id =
      if id = t.id then none else a.resetOf id := by
  have hnone : a.resetOf t.id = none →
      a.resetOf id = if id = t.id then none else a.resetOf id := by
    intro hreset
    split
    next hid => rw [hid, hreset]
    next => rfl
  rcases verdict_cases now t a with ⟨due, -, hv⟩ | ⟨hreset, -, hv⟩ | ⟨hreset, -, -, hv⟩ |
    ⟨hreset, -, -, hv⟩
  · rw [hv]
    exact resetOf_clearReset id t.id a
  · rw [hv, ← hnone hreset]
    rfl
  · rw [hv, ← hnone hreset]
    rfl
  · rw [hv, ← hnone hreset]
    simp only [settle]
    split <;> rfl

/-- Carrying a verdict out at most lets one timer fall into the wheel, so that it keeps all that
is kept by this. -/
theorem levels_settle {P : List (Level τ) → Prop} {now : Int}
    (hplace : ∀ u levels, P levels → P (Wheel.place u now levels)) {a : Agenda τ}
    (h : P a.wheel.levels) (t : Timer τ) (v : Verdict) : P (a.settle now t v).wheel.levels := by
  cases v with
  | move due => exact hplace _ _ h
  | drop => exact h
  | keep => exact hplace t _ h
  | fire =>
    simp only [settle]
    split
    · exact hplace _ _ h
    · exact h

theorem verdict_settle_of_ne {t u : Timer τ} (h : u.id ≠ t.id) (now : Int) (a : Agenda τ) :
    (a.settle now t (a.verdict now t)).verdict now u = a.verdict now u := by
  refine verdict_congr ?_ ?_
  · rw [resetOf_settle, if_neg h]
  · rw [mem_cancels_settle]
    exact ⟨And.left, fun hnoted => ⟨hnoted, fun heq => absurd heq h⟩⟩

/-! ### All verdicts -/

theorem verdict_settle_of_mem {t u : Timer τ} {rest : List (Timer τ)}
    (h : ((t :: rest).map (·.id)).Nodup) (hu : u ∈ rest) (now : Int) (a : Agenda τ) :
    (a.settle now t (a.verdict now t)).verdict now u = a.verdict now u := by
  refine verdict_settle_of_ne ?_ now a
  intro heq
  have hfirst : t.id ∉ rest.map (·.id) := (List.nodup_cons.1 h).1
  rw [← heq] at hfirst
  exact hfirst (List.mem_map_of_mem hu)

theorem fired_settleAll {hand : List (Timer τ)} (h : (hand.map (·.id)).Nodup) (now : Int)
    (a : Agenda τ) :
    (settleAll now hand a).1 = hand.filter (fun t => a.verdict now t = .fire) := by
  induction hand generalizing a with
  | nil => rfl
  | cons t rest ih =>
    have hrest : rest.filter (fun u => (a.settle now t (a.verdict now t)).verdict now u = .fire) =
        rest.filter (fun u => a.verdict now u = .fire) :=
      List.filter_congr fun u hu => by rw [verdict_settle_of_mem h hu]
    simp only [settleAll, ih (List.nodup_cons.1 h).2, hrest, List.filter_cons, decide_eq_true_eq]

theorem verdictAll_eq_map {hand : List (Timer τ)} (h : (hand.map (·.id)).Nodup) (now : Int)
    (a : Agenda τ) : verdictAll now hand a = hand.map (fun t => (t.id, a.verdict now t)) := by
  induction hand generalizing a with
  | nil => rfl
  | cons t rest ih =>
    simp only [verdictAll, ih (List.nodup_cons.1 h).2, List.map_cons, List.cons.injEq, true_and]
    exact List.map_congr_left fun u hu => by rw [verdict_settle_of_mem h hu]

theorem mem_live_settleAll {hand : List (Timer τ)} (h : (hand.map (·.id)).Nodup) (now : Int)
    (a : Agenda τ) (id : TimerId) :
    id ∈ (settleAll now hand a).2.live ↔
      id ∈ a.live ∧ ∀ t ∈ hand, t.id = id → ((a.verdict now t).outcome t).isSome := by
  induction hand generalizing a with
  | nil => simp [settleAll]
  | cons t rest ih =>
    simp only [settleAll, ih (List.nodup_cons.1 h).2, mem_live_settle, List.forall_mem_cons,
      and_assoc, eq_comm (a := id)]
    refine and_congr_right fun _ => and_congr_right fun _ => forall₂_congr ?_
    intro u hu
    rw [verdict_settle_of_mem h hu]

theorem mem_cancels_settleAll {hand : List (Timer τ)} (h : (hand.map (·.id)).Nodup) (now : Int)
    (a : Agenda τ) (id : TimerId) :
    id ∈ (settleAll now hand a).2.cancels ↔
      id ∈ a.cancels ∧ ∀ t ∈ hand, t.id = id → a.verdict now t ≠ .drop := by
  induction hand generalizing a with
  | nil => simp [settleAll]
  | cons t rest ih =>
    simp only [settleAll, ih (List.nodup_cons.1 h).2, mem_cancels_settle, List.forall_mem_cons,
      and_assoc, eq_comm (a := id)]
    refine and_congr_right fun _ => and_congr_right fun _ => forall₂_congr ?_
    intro u hu
    rw [verdict_settle_of_mem h hu]

theorem resetOf_settleAll (hand : List (Timer τ)) (now : Int) (a : Agenda τ) (id : TimerId) :
    (settleAll now hand a).2.resetOf id =
      if id ∈ hand.map (·.id) then none else a.resetOf id := by
  induction hand generalizing a with
  | nil => simp [settleAll]
  | cons t rest ih =>
    simp only [settleAll, ih, resetOf_settle, List.map_cons, List.mem_cons]
    by_cases hrest : id ∈ rest.map (·.id)
    · simp [hrest]
    · by_cases hid : id = t.id
      · simp [hid]
      · simp [hrest, hid]

theorem levels_settleAll {P : List (Level τ) → Prop} {now : Int}
    (hplace : ∀ u levels, P levels → P (Wheel.place u now levels)) {a : Agenda τ}
    (h : P a.wheel.levels) (hand : List (Timer τ)) : P (settleAll now hand a).2.wheel.levels := by
  induction hand generalizing a with
  | nil => exact h
  | cons t rest ih => exact ih (levels_settle hplace h t _)

theorem specsOf_settleAll (hand : List (Timer τ)) (now : Int) (a : Agenda τ) :
    Wheel.specsOf (settleAll now hand a).2.wheel.levels = Wheel.specsOf a.wheel.levels :=
  levels_settleAll (P := fun levels => Wheel.specsOf levels = Wheel.specsOf a.wheel.levels)
    (fun u levels hl => (Wheel.specsOf_place u now levels).trans hl) rfl hand

theorem levels_settle_eq (now : Int) (t : Timer τ) (a : Agenda τ) (v : Verdict) :
    (a.settle now t v).wheel.levels = Wheel.placeAll (v.outcome t).toList now a.wheel.levels := by
  cases v with
  | fire =>
    simp only [settle, Verdict.outcome]
    split <;> rfl
  | _ => rfl

/-- What goes back falls into the wheel, one timer after the other. -/
theorem levels_settleAll_eq {hand : List (Timer τ)} (h : (hand.map (·.id)).Nodup) (now : Int)
    (a : Agenda τ) :
    (settleAll now hand a).2.wheel.levels =
      Wheel.placeAll (hand.filterMap fun t => (a.verdict now t).outcome t) now a.wheel.levels := by
  induction hand generalizing a with
  | nil => rfl
  | cons t rest ih =>
    let b := a.settle now t (a.verdict now t)
    have hsame : rest.filterMap (fun u => (b.verdict now u).outcome u) =
        rest.filterMap (fun u => (a.verdict now u).outcome u) :=
      List.filterMap_congr fun u hu => by rw [verdict_settle_of_mem h hu]
    refine (ih (List.nodup_cons.1 h).2 b).trans ?_
    rw [hsame, levels_settle_eq]
    cases hout : (a.verdict now t).outcome t with
    | none =>
      simp only [List.filterMap_cons, hout]
      rfl
    | some u =>
      simp only [List.filterMap_cons, hout]
      rfl

theorem timers_settleAll {hand : List (Timer τ)} (h : (hand.map (·.id)).Nodup) (now : Int)
    {a : Agenda τ} (hwell : Wheel.LevelsWellFormed a.wheel.levels) (hne : a.wheel.levels ≠ []) :
    (settleAll now hand a).2.wheel.timers.Perm
      (hand.filterMap (fun t => (a.verdict now t).outcome t) ++ a.wheel.timers) := by
  rw [Wheel.timers_eq, levels_settleAll_eq h now a]
  exact Wheel.timersIn_placeAll hwell hne _ now

end Agenda

end TimingWheel
