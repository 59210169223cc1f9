import TimingWheel.Proofs.Agenda.History

/-!
# Never early, never twice, never lost

What an agenda does with a timer is what the log says of it. While a timer is held, its record
agrees with its course, wherever the wheel keeps it; and once it is no longer held, its course
has come to one of two ends: it fired for the last time, or it was dropped by a cancellation.

## Main definitions

- `Agenda.Follows` — a timer that is held agrees with its course
- `Course.Ended` — the two ways in which a course ends
- `History.Recorded` — the log and the agenda agree

## Main statements

- `History.recorded_move` — every move keeps log and agenda in agreement
- `History.dispatch_discipline` — dispatches are never early, never doubled, and never lost
-/

namespace TimingWheel

variable {τ : Type}

/-- A timer that is held agrees with its course, and so do the requests about it. -/
structure Agenda.Follows (a : Agenda τ) (t : Timer τ) (c : Course) : Prop where
  plan : c.plan = t.plan
  asked : c.asked = a.resetOf t.id
  cancelled : c.cancelled = true ↔ t.id ∈ a.cancels
  undropped : c.dropped = false
  unfired : t.interval = 0 → c.firings = 0

/-- The course of a timer that is no longer held: a cancellation dropped it, or it was to fire
once and did. -/
def Course.Ended (c : Course) : Prop :=
  (c.dropped = true ∧ c.cancelled = true ∧ (c.plan.interval = 0 → c.firings = 0)) ∨
    (c.dropped = false ∧ c.plan.interval = 0 ∧ c.firings = 1)

namespace History

/-- The log of a history agrees with its agenda. -/
structure Recorded (h : History τ) : Prop where
  balanced : h.agenda.Balanced []
  known : ∀ id, (courseOf id h.log).isSome ↔ 1 ≤ id.value ∧ id.value < h.agenda.nextId
  held : ∀ t ∈ h.agenda.wheel.timers, ∃ c, courseOf t.id h.log = some c ∧ h.agenda.Follows t c
  ended : ∀ id c, courseOf id h.log = some c → id ∉ h.agenda.live → c.Ended
  fired : ∀ id, h.fired.count id = (courseOf id h.log).elim 0 (·.firings)

theorem recorded_empty : Recorded ({} : History τ) where
  balanced := Agenda.balanced_empty
  known := fun id => by
    simp only [courseOf, List.foldl_nil, Option.isSome_none, Bool.false_eq_true, false_iff]
    omega
  held := fun _ ht => absurd ht (by simp [Wheel.timers])
  ended := fun _ _ hc => by simp [courseOf] at hc
  fired := fun _ => rfl

/-! ### Moves between ticks -/

/-- Moves that leave the timers and all that is noted about them alone keep the agreement. -/
theorem Recorded.of_unchanged {h : History τ} (hrec : h.Recorded) {a : Agenda τ}
    (hbalanced : a.Balanced []) (htimers : a.wheel.timers = h.agenda.wheel.timers)
    (hnext : a.nextId = h.agenda.nextId) (hlive : a.live = h.agenda.live)
    (hcancels : a.cancels = h.agenda.cancels) (hresets : a.resets = h.agenda.resets) :
    Recorded { h with agenda := a } where
  balanced := hbalanced
  known := fun id => by rw [hnext]; exact hrec.known id
  held := fun t ht => by
    obtain ⟨c, hc, hfollows⟩ := hrec.held t (htimers ▸ ht)
    refine ⟨c, hc, { hfollows with asked := ?_, cancelled := ?_ }⟩
    · rw [hfollows.asked, Agenda.resetOf, Agenda.resetOf, hresets]
    · rw [hfollows.cancelled, hcancels]
  ended := fun id c hc hid => hrec.ended id c hc (hlive ▸ hid)
  fired := hrec.fired

/-- A timer that was registered begins its course. -/
theorem Recorded.accept {h : History τ} (hrec : h.Recorded) {t : Timer τ} {a : Agenda τ}
    (hid : t.id = ⟨h.agenda.nextId⟩) (hbalanced : a.Balanced [])
    (htimers : a.wheel.timers.Perm (t :: h.agenda.wheel.timers))
    (hnext : a.nextId = h.agenda.nextId + 1) (hlive : a.live = t.id :: h.agenda.live)
    (hcancels : a.cancels = h.agenda.cancels) (hresets : a.resets = h.agenda.resets) :
    Recorded { agenda := a, log := h.log ++ [.accepted t.id t.plan], fired := h.fired } := by
  have hfresh : t.id ∉ h.agenda.live := hid ▸ hrec.balanced.nextId_fresh
  have hnew : courseOf t.id (h.log ++ [.accepted t.id t.plan]) = some { plan := t.plan } := by
    rw [courseOf_append]
    simp [Course.note]
  have hother : ∀ {id}, id ≠ t.id →
      courseOf id (h.log ++ [.accepted t.id t.plan]) = courseOf id h.log := by
    intro id hne
    rw [courseOf_append]
    simp [Course.note, Ne.symm hne]
  have hunknown : courseOf t.id h.log = none := by
    rw [← Option.not_isSome_iff_eq_none, hrec.known, hid]
    exact fun hknown => Nat.lt_irrefl _ hknown.2
  have hreset : ∀ id, a.resetOf id = h.agenda.resetOf id := fun id => by
    rw [Agenda.resetOf, Agenda.resetOf, hresets]
  constructor
  case balanced => exact hbalanced
  case known =>
    intro id
    dsimp only
    rw [hnext]
    by_cases heq : id = t.id
    · rw [heq, hnew, hid]
      exact ⟨fun _ => ⟨hrec.balanced.nextId_pos, Nat.lt_succ_self _⟩, fun _ => rfl⟩
    · rw [hother heq, hrec.known id]
      have hvalue : id.value ≠ h.agenda.nextId := by
        rintro hvalue
        exact heq (by rw [hid, ← hvalue])
      omega
  case held =>
    intro u hu
    rcases List.mem_cons.1 (htimers.mem_iff.1 hu) with rfl | hold
    · refine ⟨_, hnew, ⟨rfl, ?_, ?_, rfl, fun _ => rfl⟩⟩
      · exact (hreset _).trans (hrec.balanced.resetOf_eq_none hfresh) |>.symm
      · refine ⟨fun hfalse => absurd hfalse (by simp), ?_⟩
        intro hnoted
        exact absurd (hrec.balanced.cancels_live _ (hcancels ▸ hnoted)) hfresh
    · obtain ⟨c, hc, hfollows⟩ := hrec.held u hold
      have hpending := hrec.balanced.mem_live_iff.2 ⟨u, Or.inr hold, rfl⟩
      have hne : u.id ≠ t.id := fun heq => hfresh (heq ▸ hpending)
      refine ⟨c, (hother hne).trans hc, { hfollows with asked := ?_, cancelled := ?_ }⟩
      · rw [hreset, hfollows.asked]
      · rw [hfollows.cancelled, ← hcancels]
  case ended =>
    intro id c hc hgone
    rw [hlive, List.mem_cons, not_or] at hgone
    exact hrec.ended id c ((hother hgone.1).symm.trans hc) hgone.2
  case fired =>
    intro id
    dsimp only
    rw [hrec.fired]
    by_cases heq : id = t.id
    · rw [heq, hnew, hunknown]
      rfl
    · rw [hother heq]

/-- A request that is noted alike in the agenda and in the courses keeps the agreement. -/
theorem Recorded.request {h : History τ} (hrec : h.Recorded) {a : Agenda τ} {entry : Event}
    (note : TimerId → Course → Course)
    (hcourse : ∀ id, courseOf id (h.log ++ [entry]) = (courseOf id h.log).map (note id))
    (hbalanced : a.Balanced []) (hwheel : a.wheel = h.agenda.wheel)
    (hnext : a.nextId = h.agenda.nextId) (hlive : a.live = h.agenda.live)
    (hheld : ∀ t c, t.id ∈ h.agenda.live → h.agenda.Follows t c → a.Follows t (note t.id c))
    (hended : ∀ id c, c.Ended → (note id c).Ended)
    (hfirings : ∀ id c, (note id c).firings = c.firings) :
    Recorded { agenda := a, log := h.log ++ [entry], fired := h.fired } := by
  constructor
  case balanced => exact hbalanced
  case known =>
    intro id
    dsimp only
    rw [hcourse, Option.isSome_map, hnext]
    exact hrec.known id
  case held =>
    intro t ht
    dsimp only at ht ⊢
    rw [hwheel] at ht
    obtain ⟨c, hc, hfollows⟩ := hrec.held t ht
    have hpending := hrec.balanced.mem_live_iff.2 ⟨t, Or.inr ht, rfl⟩
    exact ⟨note t.id c, by rw [hcourse, hc]; rfl, hheld t c hpending hfollows⟩
  case ended =>
    intro id c hc hgone
    dsimp only at hc hgone
    rw [hcourse, Option.map_eq_some_iff] at hc
    obtain ⟨c, hc, rfl⟩ := hc
    exact hended id c (hrec.ended id c hc (hlive ▸ hgone))
  case fired =>
    intro id
    dsimp only
    rw [hrec.fired, hcourse]
    cases courseOf id h.log with
    | none => rfl
    | some c => exact (hfirings id c).symm

theorem recorded_reset {h : History τ} (hrec : h.Recorded) (id : TimerId) (due : Int) :
    (h.move (.reset id due)).Recorded := by
  rw [move_reset]
  refine hrec.request (fun id' c => if id = id' then { c with asked := some due } else c)
    ?_ (Agenda.balanced_requestReset hrec.balanced id due) ?_ ?_ ?_ ?_ ?_ ?_
  · intro id'
    rw [courseOf_append, List.foldl_cons, List.foldl_nil, Course.note]
    by_cases hid : id = id' <;> simp [hid]
  · rw [Agenda.requestReset_frame]
  · rw [Agenda.requestReset_frame]
  · rw [Agenda.requestReset_frame]
  · intro t c hpending hfollows
    have hcancels : (h.agenda.requestReset id due).cancels = h.agenda.cancels := by
      rw [Agenda.requestReset_frame]
    by_cases hid : id = t.id
    · rw [if_pos hid]
      refine { hfollows with asked := ?_, cancelled := by rw [hcancels]; exact hfollows.cancelled }
      rw [Agenda.resetOf_requestReset, if_pos ⟨hid.symm, hid ▸ hpending⟩]
    · rw [if_neg hid]
      refine { hfollows with asked := ?_, cancelled := by rw [hcancels]; exact hfollows.cancelled }
      rw [Agenda.resetOf_requestReset, if_neg fun hsame => hid hsame.1.symm, hfollows.asked]
  · intro id' c hc
    split
    · exact hc
    · exact hc
  · intro id' c
    split <;> rfl

theorem recorded_cancel {h : History τ} (hrec : h.Recorded) (id : TimerId) :
    (h.move (.cancel id)).Recorded := by
  rw [move_cancel]
  refine hrec.request (fun id' c => if id = id' then { c with cancelled := true } else c)
    ?_ (Agenda.balanced_requestCancel hrec.balanced id) ?_ ?_ ?_ ?_ ?_ ?_
  · intro id'
    rw [courseOf_append, List.foldl_cons, List.foldl_nil, Course.note]
    by_cases hid : id = id' <;> simp [hid]
  · rw [Agenda.requestCancel_frame]
  · rw [Agenda.requestCancel_frame]
  · rw [Agenda.requestCancel_frame]
  · intro t c hpending hfollows
    have hresets : (h.agenda.requestCancel id).resetOf t.id = h.agenda.resetOf t.id := by
      rw [Agenda.requestCancel_frame]
      rfl
    by_cases hid : id = t.id
    · rw [if_pos hid]
      refine { hfollows with asked := by rw [hresets]; exact hfollows.asked, cancelled := ?_ }
      rw [Agenda.mem_cancels_requestCancel]
      exact ⟨fun _ => Or.inr ⟨hid.symm, hid ▸ hpending⟩, fun _ => rfl⟩
    · rw [if_neg hid]
      refine { hfollows with asked := by rw [hresets]; exact hfollows.asked, cancelled := ?_ }
      rw [Agenda.mem_cancels_requestCancel, hfollows.cancelled]
      exact ⟨Or.inl, fun hnoted => hnoted.resolve_right fun hnew => hid hnew.1.symm⟩
  · intro id' c hc
    split
    · rcases hc with ⟨hdropped, -, hfired⟩ | hfired
      · exact Or.inl ⟨hdropped, rfl, hfired⟩
      · exact Or.inr hfired
    · exact hc
  · intro id' c
    split <;> rfl

/-! ### Ticks -/

/-- What goes back into the wheel follows the course that the verdict has given to its timer. -/
theorem follows_outcome {a : Agenda τ} (h : a.Balanced []) {now : Int} {t u : Timer τ} {c : Course}
    (hc : a.Follows t c) (ht : t ∈ a.yielded now)
    (hu : (a.verdict now t).outcome t = some u) :
    (a.tick now).2.Follows u (c.judge (a.verdict now t)) := by
  have hreset : (a.tick now).2.resetOf u.id = none := by
    rw [Agenda.resetOf_tick, Verdict.id_of_outcome hu, if_pos (List.mem_map_of_mem ht)]
  have hcancel : a.verdict now t ≠ .drop → (u.id ∈ (a.tick now).2.cancels ↔ t.id ∈ a.cancels) := by
    intro hv
    rw [Agenda.mem_cancels_tick h, Verdict.id_of_outcome hu]
    refine ⟨And.left, fun hnoted => ⟨hnoted, ?_⟩⟩
    intro t' ht' hid
    rwa [Agenda.yielded_inj h ht' ht hid]
  rcases Agenda.verdict_cases now t a with ⟨due, -, hv⟩ | ⟨-, -, hv⟩ | ⟨hnone, -, -, hv⟩ |
    ⟨hnone, -, -, hv⟩
  · rw [hv] at hu hcancel ⊢
    obtain rfl := Option.some.inj hu
    refine ⟨?_, hreset.symm, ?_, hc.undropped, hc.unfired⟩
    · simp [Course.judge, hc.plan, Timer.plan, Timer.reset]
    · rw [Course.cancelled_judge, hc.cancelled, hcancel (by simp)]
  · rw [hv] at hu
    cases hu
  · rw [hv] at hu hcancel ⊢
    obtain rfl := Option.some.inj hu
    refine ⟨hc.plan, ?_, ?_, hc.undropped, hc.unfired⟩
    · rw [hreset, Course.judge, hc.asked, hnone]
    · rw [Course.cancelled_judge, hc.cancelled, hcancel (by simp)]
  · rw [hv] at hu hcancel ⊢
    simp only [Verdict.outcome] at hu
    split at hu
    next hrepeats =>
      obtain rfl := Option.some.inj hu
      refine ⟨?_, ?_, ?_, hc.undropped, ?_⟩
      · simp [Course.judge, hc.plan, Timer.plan, Plan.renew, Timer.renew]
      · rw [hreset, Course.judge, hc.asked, hnone]
      · rw [Course.cancelled_judge, hc.cancelled, hcancel (by simp)]
      · intro hzero
        have hpos : 0 < t.interval := of_decide_eq_true hrepeats
        rw [Timer.interval_renew] at hzero
        omega
    next => cases hu

/-- The course of a timer that does not go back has ended. -/
theorem ended_of_outcome_eq_none {a : Agenda τ} {now : Int} {t : Timer τ} {c : Course}
    (hc : a.Follows t c) (hnone : (a.verdict now t).outcome t = none) :
    (c.judge (a.verdict now t)).Ended := by
  have hinterval : c.plan.interval = t.interval := congrArg Plan.interval hc.plan
  rcases Agenda.verdict_cases now t a with ⟨due, -, hv⟩ | ⟨-, hcancel, hv⟩ | ⟨-, -, -, hv⟩ |
    ⟨-, -, -, hv⟩
  · rw [hv] at hnone
    cases hnone
  · rw [hv]
    refine Or.inl ⟨rfl, ?_, fun hzero => hc.unfired ?_⟩
    · rw [Course.cancelled_judge, hc.cancelled]
      exact hcancel
    · rw [← hinterval]
      exact hzero
  · rw [hv] at hnone
    cases hnone
  · rw [hv] at hnone ⊢
    simp only [Verdict.outcome] at hnone
    split at hnone
    next => cases hnone
    next hrepeats =>
      have hzero : t.interval = 0 := by
        rw [Timer.repeats] at hrepeats
        simpa using hrepeats
      refine Or.inr ⟨hc.undropped, ?_, ?_⟩
      · rw [Course.interval_judge, hinterval, hzero]
      · simp [Course.judge, hc.unfired hzero]

theorem recorded_tick {h : History τ} (hrec : h.Recorded) (now : Int) :
    (h.move (.tick now)).Recorded := by
  have hb := hrec.balanced
  have hnodup := Agenda.yielded_ids_nodup hb now
  have hevents : (h.agenda.outlook now).map (fun p => Event.judged p.1 p.2) =
      (h.agenda.yielded now).map fun t => .judged t.id (h.agenda.verdict now t) := by
    rw [Agenda.outlook_eq_map hb, List.map_map]
    rfl
  rw [move_tick, hevents]
  have hreached := fun {t} (ht : t ∈ h.agenda.yielded now) =>
    courseOf_judged_of_mem hnodup ht h.log (h.agenda.verdict now)
  have hunreached := fun {id} (hid : id ∉ (h.agenda.yielded now).map (·.id)) =>
    courseOf_judged_of_not_mem hid h.log (h.agenda.verdict now)
  constructor
  case balanced => exact Agenda.balanced_tick hb now
  case known =>
    intro id
    dsimp only
    rw [Agenda.nextId_tick, ← hrec.known id]
    by_cases hid : id ∈ (h.agenda.yielded now).map (·.id)
    · obtain ⟨t, ht, rfl⟩ := List.mem_map.1 hid
      rw [hreached ht, Option.isSome_map]
    · rw [hunreached hid]
  case held =>
    -- A timer held after the tick went back or was not reached.
    intro u hu
    rcases List.mem_append.1 ((Agenda.timers_tick hb now).mem_iff.1 hu) with hback | hstay
    · obtain ⟨t, ht, hout⟩ := List.mem_filterMap.1 hback
      obtain ⟨c, hc, hfollows⟩ := hrec.held t
        ((Agenda.mem_timers_iff_yielded hb now).2 (Or.inl ht))
      refine ⟨c.judge (h.agenda.verdict now t), ?_, follows_outcome hb hfollows ht hout⟩
      rw [Verdict.id_of_outcome hout, hreached ht, hc]
      rfl
    · obtain ⟨c, hc, hfollows⟩ := hrec.held u
        ((Agenda.mem_timers_iff_yielded hb now).2 (Or.inr hstay))
      have hne : ∀ t ∈ h.agenda.yielded now, t.id ≠ u.id := fun t ht =>
        Agenda.id_ne_of_unreached hb now ht hstay
      have hid : u.id ∉ (h.agenda.yielded now).map (·.id) := by
        rintro hid
        obtain ⟨t, ht, heq⟩ := List.mem_map.1 hid
        exact hne t ht heq
      refine ⟨c, (hunreached hid).trans hc, { hfollows with asked := ?_, cancelled := ?_ }⟩
      · rw [Agenda.resetOf_tick, if_neg hid, hfollows.asked]
      · rw [Agenda.mem_cancels_tick hb, hfollows.cancelled]
        exact ⟨fun hnoted => ⟨hnoted, fun t ht heq => absurd heq (hne t ht)⟩, And.left⟩
  case ended =>
    intro id c hc hgone
    dsimp only at hc hgone
    by_cases hid : id ∈ (h.agenda.yielded now).map (·.id)
    · obtain ⟨t, ht, rfl⟩ := List.mem_map.1 hid
      obtain ⟨c', hc', hfollows⟩ := hrec.held t
        ((Agenda.mem_timers_iff_yielded hb now).2 (Or.inl ht))
      rw [hreached ht, hc'] at hc
      obtain rfl := Option.some.inj hc
      -- It is not pending, so that nothing can have gone back.
      refine ended_of_outcome_eq_none hfollows ?_
      by_contra hback
      refine hgone ((Agenda.mem_live_tick hb now t.id).2 ⟨Agenda.yielded_live hb now ht, ?_⟩)
      intro t' ht' heq
      rw [Agenda.yielded_inj hb ht' ht heq]
      exact Option.isSome_iff_ne_none.2 hback
    · rw [hunreached hid] at hc
      refine hrec.ended id c hc fun hlive => hgone ?_
      refine (Agenda.mem_live_tick hb now id).2 ⟨hlive, ?_⟩
      intro t ht heq
      exact absurd (heq ▸ List.mem_map_of_mem ht) hid
  case fired =>
    intro id
    dsimp only
    rw [List.count_append, hrec.fired]
    by_cases hid : id ∈ (h.agenda.yielded now).map (·.id)
    · obtain ⟨t, ht, rfl⟩ := List.mem_map.1 hid
      obtain ⟨c, hc, -⟩ := hrec.held t ((Agenda.mem_timers_iff_yielded hb now).2 (Or.inl ht))
      rw [Agenda.count_fired_of_yielded hb now ht, hreached ht, hc]
      cases h.agenda.verdict now t <;> simp [Course.judge]
    · rw [Agenda.count_fired_of_not_yielded hb now hid, hunreached hid, Nat.add_zero]

/-! ### Runs -/

theorem recorded_move {h : History τ} (hrec : h.Recorded) (m : Agenda.Move τ) :
    (h.move m).Recorded := by
  cases m with
  | append spec =>
    have hbalanced := Agenda.balanced_move hrec.balanced (.append spec)
    simp only [move, Agenda.move, Agenda.events, Agenda.answers, List.append_nil] at hbalanced ⊢
    cases happend : h.agenda.append spec with
    | error reason => exact hrec
    | ok a =>
      rw [happend] at hbalanced
      obtain ⟨-, -, rfl⟩ := Agenda.eq_of_append happend
      exact hrec.of_unchanged hbalanced (by simp [Wheel.timers_eq]) rfl rfl rfl rfl
  | start =>
    have hbalanced := Agenda.balanced_move hrec.balanced .start
    simp only [move, Agenda.move, Agenda.events, Agenda.answers, List.append_nil] at hbalanced ⊢
    exact hrec.of_unchanged hbalanced (by split <;> rfl) (by split <;> rfl) (by split <;> rfl)
      (by split <;> rfl) (by split <;> rfl)
  | stop =>
    have hbalanced := Agenda.balanced_move hrec.balanced .stop
    simp only [move, Agenda.move, Agenda.events, Agenda.answers, List.append_nil] at hbalanced ⊢
    exact hrec.of_unchanged hbalanced (by split <;> rfl) (by split <;> rfl) (by split <;> rfl)
      (by split <;> rfl) (by split <;> rfl)
  | register due interval task now =>
    let t : Timer τ := .every ⟨h.agenda.nextId⟩ due interval task
    have hbalanced := Agenda.balanced_move hrec.balanced (.register due interval task now)
    simp only [move, Agenda.move, Agenda.events, Agenda.answers, List.append_nil] at hbalanced ⊢
    cases haccepts : h.agenda.phase.acceptsTimers with
    | false =>
      simp only [Agenda.register_of_refuses haccepts, Bool.false_eq_true, if_false,
        List.append_nil]
      exact hrec
    | true =>
      rw [Agenda.register_of_accepts haccepts] at hbalanced ⊢
      have htimers := hrec.balanced.timers_insert haccepts t now
      exact hrec.accept (t := t) rfl hbalanced htimers rfl rfl rfl rfl
  | reset id due => exact recorded_reset hrec id due
  | cancel id => exact recorded_cancel hrec id
  | tick now => exact recorded_tick hrec now

theorem recorded_after (moves : List (Agenda.Move τ)) : (({} : History τ).after moves).Recorded :=
  after_induction (P := Recorded) (fun _ m hm => recorded_move hm m) recorded_empty moves

section

variable {h : History τ} (hrec : h.Recorded)

include hrec

theorem follows_of_yielded {now : Int} {t : Timer τ} (ht : t ∈ h.agenda.yielded now) :
    ∃ c, courseOf t.id h.log = some c ∧ h.agenda.Follows t c :=
  hrec.held t ((Agenda.mem_timers_iff_yielded hrec.balanced now).2 (Or.inl ht))

theorem due_le_of_fired {now : Int} {t : Timer τ} (ht : t ∈ (h.agenda.tick now).1) :
    ∃ c, courseOf t.id h.log = some c ∧ c.plan.due ≤ now := by
  rw [Agenda.fired_tick hrec.balanced, List.mem_filter, decide_eq_true_eq] at ht
  obtain ⟨hyielded, hfire⟩ := ht
  obtain ⟨c, hc, hfollows⟩ := follows_of_yielded hrec hyielded
  refine ⟨c, hc, ?_⟩
  rw [hfollows.plan]
  exact ((Agenda.verdict_eq_fire_iff now t h.agenda).1 hfire).2.2

theorem asked_of_moved {now due : Int} {id : TimerId}
    (hmoved : (id, .move due) ∈ h.agenda.outlook now) :
    ∃ c, courseOf id h.log = some c ∧ c.asked = some due := by
  rw [Agenda.outlook_eq_map hrec.balanced] at hmoved
  obtain ⟨t, hyielded, heq⟩ := List.mem_map.1 hmoved
  obtain ⟨rfl, hv⟩ := Prod.mk.inj heq
  obtain ⟨c, hc, hfollows⟩ := follows_of_yielded hrec hyielded
  refine ⟨c, hc, hfollows.asked.trans ?_⟩
  rcases Agenda.verdict_cases now t h.agenda with ⟨due', hreset, hv'⟩ | ⟨-, -, hv'⟩ |
    ⟨-, -, -, hv'⟩ | ⟨-, -, -, hv'⟩
  · rw [hv'] at hv
    rw [hreset, Verdict.move.inj hv]
  all_goals
    rw [hv'] at hv
    cases hv

theorem follows_of_live {id : TimerId} {c : Course} (hc : courseOf id h.log = some c)
    (hlive : id ∈ h.agenda.live) :
    c.dropped = false ∧ (c.plan.interval = 0 → c.firings = 0) := by
  obtain ⟨t, ht, rfl⟩ := hrec.balanced.mem_live_iff.1 hlive
  obtain ⟨c', hc', hfollows⟩ := hrec.held t (ht.resolve_left List.not_mem_nil)
  obtain rfl := Option.some.inj (hc.symm.trans hc')
  exact ⟨hfollows.undropped, fun hzero => hfollows.unfired (by rw [← hzero, hfollows.plan]; rfl)⟩

theorem fate_of_once {id : TimerId} {c : Course} (hc : courseOf id h.log = some c)
    (honce : c.plan.interval = 0) :
    (id ∈ h.agenda.live ∧ h.fired.count id = 0 ∧ c.dropped = false) ∨
      (id ∉ h.agenda.live ∧ h.fired.count id = 1 ∧ c.dropped = false) ∨
      (id ∉ h.agenda.live ∧ h.fired.count id = 0 ∧ c.dropped = true ∧ c.cancelled = true) := by
  rw [hrec.fired, hc]
  by_cases hlive : id ∈ h.agenda.live
  · obtain ⟨hdropped, hfirings⟩ := follows_of_live hrec hc hlive
    exact Or.inl ⟨hlive, hfirings honce, hdropped⟩
  · rcases hrec.ended id c hc hlive with ⟨hdropped, hcancelled, hfirings⟩ | ⟨hdropped, -, hfirings⟩
    · exact Or.inr (Or.inr ⟨hlive, hfirings honce, hdropped, hcancelled⟩)
    · exact Or.inr (Or.inl ⟨hlive, hfirings, hdropped⟩)

theorem fate_of_repeating {id : TimerId} {c : Course} (hc : courseOf id h.log = some c)
    (hrepeats : 0 < c.plan.interval) :
    (id ∈ h.agenda.live ∧ c.dropped = false) ∨
      (id ∉ h.agenda.live ∧ c.dropped = true ∧ c.cancelled = true) := by
  by_cases hlive : id ∈ h.agenda.live
  · exact Or.inl ⟨hlive, (follows_of_live hrec hc hlive).1⟩
  · rcases hrec.ended id c hc hlive with ⟨hdropped, hcancelled, -⟩ | ⟨-, hzero, -⟩
    · exact Or.inr ⟨hlive, hdropped, hcancelled⟩
    · exact absurd hzero (Nat.pos_iff_ne_zero.1 hrepeats)

end

/-- After any moves, each handle that was given out has a course in the log, and its firings
there are those that ticks have answered. At the next tick, whatever the clock then shows,
* a timer fires only if its course says that it is due by then, and no timer fires twice;
* a timer is only moved to the due time that was last asked for it.

A timer that fires once is pending and has not fired, or it is no longer pending and fired
once, or it was dropped by a cancellation without having fired. A timer that repeats is pending
until a cancellation drops it. -/
theorem dispatch_discipline (moves : List (Agenda.Move τ)) :
    let h := ({} : History τ).after moves
    (∀ id, (courseOf id h.log).isSome ↔ 1 ≤ id.value ∧ id.value < h.agenda.nextId) ∧
    (∀ id c, courseOf id h.log = some c → h.fired.count id = c.firings) ∧
    (∀ now, ∀ t ∈ (h.agenda.tick now).1,
      ∃ c, courseOf t.id h.log = some c ∧ c.plan.due ≤ now) ∧
    (∀ now, ((h.agenda.tick now).1.map (·.id)).Nodup) ∧
    (∀ now id due, (id, .move due) ∈ h.agenda.outlook now →
      ∃ c, courseOf id h.log = some c ∧ c.asked = some due) ∧
    (∀ id c, courseOf id h.log = some c → c.plan.interval = 0 →
      (id ∈ h.agenda.live ∧ h.fired.count id = 0 ∧ c.dropped = false) ∨
        (id ∉ h.agenda.live ∧ h.fired.count id = 1 ∧ c.dropped = false) ∨
        (id ∉ h.agenda.live ∧ h.fired.count id = 0 ∧ c.dropped = true ∧ c.cancelled = true)) ∧
    (∀ id c, courseOf id h.log = some c → 0 < c.plan.interval →
      (id ∈ h.agenda.live ∧ c.dropped = false) ∨
        (id ∉ h.agenda.live ∧ c.dropped = true ∧ c.cancelled = true)) := by
  intro h
  have hrec : h.Recorded := recorded_after moves
  refine ⟨hrec.known, ?_, fun _ _ => due_le_of_fired hrec,
    Agenda.fired_ids_nodup hrec.balanced, fun _ _ _ => asked_of_moved hrec,
    fun _ _ => fate_of_once hrec, fun _ _ => fate_of_repeating hrec⟩
  intro id c hc
  rw [hrec.fired, hc]
  rfl

end History

end TimingWheel
