import TimingWheel.Proofs.Agenda.Bookkeeping
import TimingWheel.Proofs.Wheel.Projection

/-!
# One timer by itself

An agenda treats each of its timers as if there were no other ones. Here it stands beside a second
agenda that has only one of its timers, perhaps under another handle: its shadow. Whatever happens
to the first agenda is made to happen to the shadow too, except for what concerns the other timers
only. Then the shadow has the timer in the same place, with the same requests noted, and its ticks
answer the timer just as often.

## Main definitions

- `Timer.withId`, `Timer.only` — a timer under another handle, and by itself
- `Agenda.Shadows` — an agenda with one of the timers of another one

## Main statements

- `Agenda.shadows_settleAll`, `Agenda.shadows_tick` — verdicts and ticks
- `Agenda.shadows_append`, `Agenda.shadows_register`, `Agenda.shadows_requestReset`,
  `Agenda.shadows_requestCancel` — what is done to both agendas
- `Agenda.shadows_register_of_ne`, `Agenda.shadows_requestReset_of_ne`,
  `Agenda.shadows_requestCancel_of_ne` — what concerns another timer
-/

namespace TimingWheel

variable {τ : Type}

def Timer.withId (id' : TimerId) (t : Timer τ) : Timer τ := { t with id := id' }

@[simp] theorem Timer.id_withId (id' : TimerId) (t : Timer τ) : (t.withId id').id = id' := rfl

@[simp] theorem Timer.due_withId (id' : TimerId) (t : Timer τ) : (t.withId id').due = t.due := rfl

/-- Leaves the timer `id`, which gets the handle `id'`. -/
def Timer.only (id id' : TimerId) (t : Timer τ) : Option (Timer τ) :=
  if t.id = id then some (t.withId id') else none

theorem Verdict.outcome_withId (id' : TimerId) (t : Timer τ) (v : Verdict) :
    v.outcome (t.withId id') = (v.outcome t).map (Timer.withId id') := by
  cases v with
  | fire =>
    have hsame : (t.withId id').repeats = t.repeats := rfl
    rw [outcome, outcome]
    by_cases hrepeats : t.repeats = true
    · rw [if_pos hrepeats, if_pos (hsame.trans hrepeats)]
      rfl
    · rw [if_neg hrepeats, if_neg (hsame ▸ hrepeats)]
      rfl
  | _ => rfl

theorem Wheel.keepsDue_only (id id' : TimerId) :
    Wheel.KeepsDue (Timer.only id id' : Timer τ → Option (Timer τ)) := by
  intro t u h
  rw [Timer.only] at h
  split at h
  · rw [← Option.some.inj h, Timer.due_withId]
  · cases h

namespace Agenda

/-- The second agenda holds of all timers only the timer `id`, under the handle `id'`. -/
structure Shadows (id id' : TimerId) (a a' : Agenda τ) : Prop where
  levels : a'.wheel.levels = Wheel.project (Timer.only id id') a.wheel.levels
  phase : a'.phase = a.phase
  live : id' ∈ a'.live ↔ id ∈ a.live
  cancels : id' ∈ a'.cancels ↔ id ∈ a.cancels
  reset : a'.resetOf id' = a.resetOf id

section

variable {id id' : TimerId} {a a' : Agenda τ} {t : Timer τ}

theorem Shadows.timers (h : a.Shadows id id' a') :
    a'.wheel.timers = a.wheel.timers.filterMap (Timer.only id id') := by
  rw [Wheel.timers_eq, h.levels, Wheel.timersIn_project]
  rfl

theorem Shadows.specs_eq (h : a.Shadows id id' a') :
    Wheel.specsOf a'.wheel.levels = Wheel.specsOf a.wheel.levels := by
  rw [h.levels, Wheel.specsOf_project]

/-! ### Verdicts -/

theorem filterMap_outcome_of_ne (ht : t.id ≠ id) (v : Verdict) :
    (v.outcome t).toList.filterMap (Timer.only id id') = [] := by
  cases hout : v.outcome t with
  | none => rfl
  | some u =>
    have hu : Timer.only id id' u = none := if_neg (Verdict.id_of_outcome hout ▸ ht)
    rw [Option.toList_some, List.filterMap_cons_none hu]
    rfl

theorem filterMap_outcome_of_eq (ht : t.id = id) (v : Verdict) :
    (v.outcome t).toList.filterMap (Timer.only id id') = (v.outcome (t.withId id')).toList := by
  rw [Verdict.outcome_withId]
  cases hout : v.outcome t with
  | none => rfl
  | some u =>
    have hu : Timer.only id id' u = some (u.withId id') :=
      if_pos ((Verdict.id_of_outcome hout).trans ht)
    rw [Option.toList_some, List.filterMap_cons_some hu]
    rfl

theorem verdict_of_shadows (h : a.Shadows id id' a') (ht : t.id = id) (now : Int) :
    a'.verdict now (t.withId id') = a.verdict now t := by
  unfold verdict
  rw [Timer.id_withId, h.reset, ht]
  cases a.resetOf id with
  | some due => rfl
  | none =>
    by_cases hcancel : id ∈ a.cancels
    · simp only [if_pos hcancel, if_pos (h.cancels.2 hcancel)]
    · simp only [if_neg hcancel, if_neg (mt h.cancels.1 hcancel)]
      rfl

/-- A verdict on another timer does not show in the shadow. -/
theorem shadows_settle_of_ne (h : a.Shadows id id' a') (ht : t.id ≠ id) (now : Int) :
    (a.settle now t (a.verdict now t)).Shadows id id' a' where
  levels := by
    rw [levels_settle_eq, Wheel.project_placeAll now (Wheel.keepsDue_only id id'),
      filterMap_outcome_of_ne ht]
    exact h.levels
  phase := h.phase.trans (phase_settle now t a _).symm
  live := by
    rw [mem_live_settle, h.live]
    exact ⟨fun hid => ⟨hid, fun heq => absurd heq.symm ht⟩, And.left⟩
  cancels := by
    rw [mem_cancels_settle, h.cancels]
    exact ⟨fun hid => ⟨hid, fun heq => absurd heq.symm ht⟩, And.left⟩
  reset := by rw [resetOf_settle, if_neg (Ne.symm ht), h.reset]

/-- A verdict on the timer itself is carried out in the shadow too. -/
theorem shadows_settle_of_eq (h : a.Shadows id id' a') (ht : t.id = id) (now : Int) :
    (a.settle now t (a.verdict now t)).Shadows id id'
      (a'.settle now (t.withId id') (a'.verdict now (t.withId id'))) where
  levels := by
    rw [levels_settle_eq, levels_settle_eq, Wheel.project_placeAll now (Wheel.keepsDue_only id id'),
      filterMap_outcome_of_eq ht, verdict_of_shadows h ht, h.levels]
  phase := (phase_settle now _ a' _).trans (h.phase.trans (phase_settle now t a _).symm)
  live := by
    rw [mem_live_settle, mem_live_settle, h.live, verdict_of_shadows h ht, Verdict.outcome_withId,
      Option.isSome_map, ht, Timer.id_withId]
    exact and_congr_right fun _ => ⟨fun hsome _ => hsome rfl, fun hsome _ => hsome rfl⟩
  cancels := by
    rw [mem_cancels_settle, mem_cancels_settle, h.cancels, verdict_of_shadows h ht, ht,
      Timer.id_withId]
    exact and_congr_right fun _ => ⟨fun hkept _ => hkept rfl, fun hkept _ => hkept rfl⟩
  reset := by
    rw [resetOf_settle, resetOf_settle, Timer.id_withId, if_pos rfl, if_pos ht.symm]

theorem shadows_settleAll (h : a.Shadows id id' a') (now : Int) (hand : List (Timer τ)) :
    (settleAll now hand a).2.Shadows id id'
        (settleAll now (hand.filterMap (Timer.only id id')) a').2 ∧
      (((settleAll now (hand.filterMap (Timer.only id id')) a').1.map (·.id)).count id' =
        ((settleAll now hand a).1.map (·.id)).count id) := by
  induction hand generalizing a a' with
  | nil => exact ⟨h, rfl⟩
  | cons t rest ih =>
    by_cases ht : t.id = id
    · have honly : Timer.only id id' t = some (t.withId id') := if_pos ht
      obtain ⟨hrest, hcount⟩ := ih (shadows_settle_of_eq h ht now)
      rw [List.filterMap_cons_some honly]
      refine ⟨hrest, ?_⟩
      simp only [settleAll, verdict_of_shadows h ht]
      rw [verdict_of_shadows h ht] at hcount
      split
      · rw [List.map_cons, List.map_cons, ht, Timer.id_withId, List.count_cons_self,
          List.count_cons_self, hcount]
      · exact hcount
    · have honly : Timer.only id id' t = none := if_neg ht
      obtain ⟨hrest, hcount⟩ := ih (shadows_settle_of_ne h ht now)
      rw [List.filterMap_cons_none honly]
      refine ⟨hrest, ?_⟩
      simp only [settleAll]
      split
      · rw [List.map_cons, List.count_cons_of_ne ht]
        exact hcount
      · exact hcount

/-- A tick of the shadow answers the timer as often as a tick of the agenda does. -/
theorem shadows_tick (h : a.Shadows id id' a') (now : Int) :
    (a.tick now).2.Shadows id id' (a'.tick now).2 ∧
      ((a'.tick now).1.map (·.id)).count id' = ((a.tick now).1.map (·.id)).count id := by
  have hwheel : a'.wheel = ⟨Wheel.project (Timer.only id id') a.wheel.levels⟩ := by
    rw [← h.levels]
  rw [tick, tick]
  rw [hwheel, Wheel.tick_project now (Wheel.keepsDue_only id id')]
  have hmoved : ({ a with wheel := (a.wheel.tick now).2 } : Agenda τ).Shadows id id'
      { a' with wheel := ⟨Wheel.project (Timer.only id id') (a.wheel.tick now).2.levels⟩ } :=
    ⟨rfl, h.phase, h.live, h.cancels, h.reset⟩
  exact shadows_settleAll hmoved now (a.wheel.tick now).1

/-! ### Between ticks -/

theorem shadows_append (h : a.Shadows id id' a') (spec : LevelSpec) :
    (∃ reason, a.append spec = .error reason ∧ a'.append spec = .error reason) ∨
      ∃ b b', a.append spec = .ok b ∧ a'.append spec = .ok b' ∧ b.Shadows id id' b' := by
  have hlevels : a'.wheel.levels ++ [Level.ofSpec spec] =
      Wheel.project (Timer.only id id') (a.wheel.levels ++ [Level.ofSpec spec]) := by
    rw [Wheel.project_append, Wheel.project_cons, Wheel.project_nil, Level.project_ofSpec, h.levels]
  simp only [append, Wheel.append, h.phase]
  by_cases hspec : spec.Valid
  · simp only [if_pos hspec]
    cases a.phase with
    | running => exact Or.inl ⟨_, rfl, rfl⟩
    | stopped => exact Or.inl ⟨_, rfl, rfl⟩
    | _ => exact Or.inr ⟨_, _, rfl, rfl, hlevels, rfl, h.live, h.cancels, h.reset⟩
  · simp only [if_neg hspec]
    cases a.phase <;> exact Or.inl ⟨_, rfl, rfl⟩

/-- Both agendas may enter a phase together. -/
theorem Shadows.enter (h : a.Shadows id id' a') (phase : Phase) :
    ({ a with phase } : Agenda τ).Shadows id id' { a' with phase } :=
  ⟨h.levels, rfl, h.live, h.cancels, h.reset⟩

/-- A registration that both agendas accept, of the timer that the shadow is to show. -/
theorem shadows_register (h : a.Shadows id id' a') (haccepts : a.phase.acceptsTimers = true)
    (hid : id = ⟨a.nextId⟩) (hid' : id' = ⟨a'.nextId⟩) {make : TimerId → Timer τ}
    (hmake : ∀ id₁, make id₁ = (make id).withId id₁) (now : Int) :
    (a.register make now).2.Shadows id id' (a'.register make now).2 := by
  have haccepts' : a'.phase.acceptsTimers = true := h.phase ▸ haccepts
  have honly : Timer.only id id' (make id) = some (make id') := by
    have hown : (make id).id = id := by rw [hmake id, Timer.id_withId]
    rw [Timer.only, if_pos hown, ← hmake id']
  rw [register_of_accepts haccepts, register_of_accepts haccepts', ← hid, ← hid']
  refine ⟨?_, h.phase, ?_, h.cancels, h.reset⟩
  · have hdue : (make id').due = (make id).due := by rw [hmake id', Timer.due_withId]
    exact (congrArg (Wheel.place _ now) h.levels).trans
      (Wheel.project_place_of_some now honly hdue a.wheel.levels).symm
  · exact ⟨fun _ => List.mem_cons_self, fun _ => List.mem_cons_self⟩

/-- A registration of another timer does not show in the shadow. -/
theorem shadows_register_of_ne (h : a.Shadows id id' a') {make : TimerId → Timer τ}
    (hmake : ∀ id₁, (make id₁).id = id₁) (now : Int)
    (hne : (a.register make now).2.nextId ≠ a.nextId → id ≠ ⟨a.nextId⟩) :
    (a.register make now).2.Shadows id id' a' := by
  cases haccepts : a.phase.acceptsTimers with
  | false =>
    rw [register_of_refuses haccepts]
    exact h
  | true =>
    rw [register_of_accepts haccepts] at hne ⊢
    have hid : id ≠ ⟨a.nextId⟩ := hne (Nat.succ_ne_self _)
    have honly : Timer.only id id' (make ⟨a.nextId⟩) = none := by
      rw [Timer.only, hmake, if_neg hid.symm]
    refine ⟨?_, h.phase, ?_, h.cancels, h.reset⟩
    · exact h.levels.trans (Wheel.project_place_of_none now honly a.wheel.levels).symm
    · exact h.live.trans
        ⟨List.mem_cons_of_mem _, fun hold => (List.mem_cons.1 hold).resolve_left hid⟩

theorem shadows_requestReset (h : a.Shadows id id' a') (due : Int) :
    (a.requestReset id due).Shadows id id' (a'.requestReset id' due) := by
  have hreset : (a'.requestReset id' due).resetOf id' = (a.requestReset id due).resetOf id := by
    simp only [resetOf_requestReset, h.live, h.reset]
  rw [requestReset_frame id due a, requestReset_frame id' due a'] at hreset ⊢
  exact ⟨h.levels, h.phase, h.live, h.cancels, hreset⟩

theorem shadows_requestReset_of_ne (h : a.Shadows id id' a') {id₁ : TimerId} (hne : id₁ ≠ id)
    (due : Int) : (a.requestReset id₁ due).Shadows id id' a' := by
  have hreset : a'.resetOf id' = (a.requestReset id₁ due).resetOf id := by
    rw [resetOf_requestReset, if_neg fun hand => hne hand.1.symm, h.reset]
  rw [requestReset_frame id₁ due a] at hreset ⊢
  exact ⟨h.levels, h.phase, h.live, h.cancels, hreset⟩

theorem shadows_requestCancel (h : a.Shadows id id' a') :
    (a.requestCancel id).Shadows id id' (a'.requestCancel id') := by
  have hcancels : id' ∈ (a'.requestCancel id').cancels ↔ id ∈ (a.requestCancel id).cancels := by
    rw [mem_cancels_requestCancel, mem_cancels_requestCancel, h.cancels, h.live]
    exact or_congr_right (and_congr_left fun _ => ⟨fun _ => rfl, fun _ => rfl⟩)
  rw [requestCancel_frame id a, requestCancel_frame id' a'] at hcancels ⊢
  exact ⟨h.levels, h.phase, h.live, hcancels, h.reset⟩

theorem shadows_requestCancel_of_ne (h : a.Shadows id id' a') {id₁ : TimerId} (hne : id₁ ≠ id) :
    (a.requestCancel id₁).Shadows id id' a' := by
  have hcancels : id' ∈ a'.cancels ↔ id ∈ (a.requestCancel id₁).cancels := by
    rw [mem_cancels_requestCancel, h.cancels]
    exact ⟨Or.inl, fun hid => hid.resolve_right fun hand => hne hand.1.symm⟩
  rw [requestCancel_frame id₁ a] at hcancels ⊢
  exact ⟨h.levels, h.phase, h.live, hcancels, h.reset⟩

/-- As long as no timer was accepted, an agenda is its own shadow. -/
theorem shadows_of_no_timer (hb : Balanced [] a) (hnew : a.nextId = 1) : a.Shadows id id' a := by
  have hlive := hb.not_mem_live_of_new hnew
  have hcancels : ∀ id₁, id₁ ∉ a.cancels := fun id₁ hid => hlive id₁ (hb.cancels_live id₁ hid)
  refine ⟨?_, rfl, iff_of_false (hlive id') (hlive id),
    iff_of_false (hcancels id') (hcancels id), ?_⟩
  · exact (Wheel.project_of_no_timer _ _ (hb.timers_eq_nil hnew)).symm
  · rw [hb.resetOf_eq_none (hlive id'), hb.resetOf_eq_none (hlive id)]

end

end Agenda

end TimingWheel
