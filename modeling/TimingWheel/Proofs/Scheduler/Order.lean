import TimingWheel.Proofs.Agenda.Order
import TimingWheel.Proofs.Scheduler.Progress
import TimingWheel.Proofs.Scheduler.Requests

/-!
# Equal due times fire in the order of registration

Two timers that are due at the same time may be registered many ticks apart. They enter at
different levels then, each behind whatever timers of other callers, and come through the levels
with them. Still the one that was registered first fires first: on an earlier tick, or before the
other one in the answer of the same tick.

## Main statements

- `Scheduler.abreast_perform`, `Scheduler.abreast_follow` — registrations and runs leave timers that
  are due at the same time where they would fall in
- `Scheduler.equal_dues_in_order` — the timer that was registered first fires first
-/

namespace TimingWheel.Scheduler

variable {τ : Type}

section

variable {grain wide ahead : Nat} {now due : Int} {ts : List (Timer τ)} {s s' : Scheduler τ}

/-- A timer that is registered for the same time falls in behind those that are there. -/
theorem abreast_perform {wall : Int} {op : Operation τ} {id : TimerId} {interval : Nat}
    (h : s.Clocked grain now) (hstep : s.stride = grain)
    (habreast : s.agenda.Abreast grain wide ahead now due ts)
    (hplan : op.plan? (s.now wall) = some ⟨due, interval⟩)
    (hop : s.perform wall op = (.registered id, s')) (hid : id.isValid = true) :
    s'.Clocked grain now ∧ s'.stride = grain ∧
      Wheel.specsOf s'.agenda.wheel.levels = Wheel.specsOf s.agenda.wheel.levels ∧
        ∃ t, t.id = id ∧ s'.agenda.Abreast grain wide ahead now due (ts ++ [t]) := by
  have hregisters := registers_of_plan hplan hid (congrArg Prod.fst hop)
  rw [hop, h.now_eq] at hregisters
  obtain ⟨haccepts, rfl, hticks, due', interval', task, hsame, hagenda⟩ := hregisters
  obtain ⟨rfl, -⟩ := Plan.mk.inj hsame
  obtain ⟨-, hclock, hinterval, -⟩ := between_of_not_ticks hticks wall s
  rw [hop] at hclock hinterval
  have hspecs : Wheel.specsOf s'.agenda.wheel.levels = Wheel.specsOf s.agenda.wheel.levels := by
    rw [hagenda]
    exact Agenda.specs_move fun spec heq => by cases heq
  have hstride : s'.stride = grain := (stride_congr hinterval hspecs).trans hstep
  refine ⟨⟨hclock.trans h.clock, fun _ => hstride, h.step_nonneg, h.least_le⟩, hstride, hspecs,
    .every ⟨s.agenda.nextId⟩ due interval' task, rfl, ?_⟩
  rw [hagenda]
  exact Agenda.abreast_register habreast haccepts interval' task

variable {ops : List (Int × Operation τ)} {beats : List Beat}

theorem stride_of_run (hstep : s.stride = grain) (hrun : s.follow (calls ops) = (beats, s'))
    (hspecs : Wheel.specsOf s'.agenda.wheel.levels = Wheel.specsOf s.agenda.wheel.levels) :
    s'.stride = grain := by
  have hinterval := tickInterval_follow s (calls ops)
  rw [hrun] at hinterval
  exact (stride_congr hinterval hspecs).trans hstep

/-- A run as moves with ticks at an even pace. -/
theorem moves_of_calls (h : s.Clocked grain now) (hstep : s'.stride = grain)
    (hrun : s.follow (calls ops) = (beats, s'))
    (hfits : Time.Fits (now + beats.length * grain)) :
    let g : History τ := { agenda := s.agenda }
    s'.Clocked grain (now + beats.length * grain) ∧
      Agenda.Paced grain now (s.movesAlong (calls ops)) ∧
      (g.after (s.movesAlong (calls ops))).agenda = s'.agenda ∧
      Agenda.ticksIn (s.movesAlong (calls ops)) = beats.length ∧
      g.rounds (s.movesAlong (calls ops)) = beats.map Beat.fired := by
  intro g
  have hclocked := clocked_follow ops h (by rw [hrun]; exact hstep) (by rw [hrun]; exact hfits)
  have hagenda := (explained_follow s (calls ops)).agenda g rfl
  have hreadings := readings_movesAlong s (calls ops)
  have hrounds := rounds_movesAlong s (calls ops) (h := g) rfl
  rw [hrun] at hclocked hagenda hreadings hrounds
  refine ⟨hclocked.1, hclocked.2.2, hagenda, ?_, hrounds⟩
  rw [Agenda.ticksIn, hreadings, List.length_map]

theorem unasked_movesAlong (hunasked : ∀ p ∈ ops, ∀ t ∈ ts, ¬p.2.AsksAbout t.id) :
    ∀ m ∈ s.movesAlong (calls ops), ∀ t ∈ ts, ¬m.AsksAbout t.id := by
  intro m hm t ht hasks
  obtain ⟨step, hmem, hid⟩ := asksAbout_of_movesAlong hm hasks
  obtain ⟨p, hp, rfl⟩ := List.mem_map.1 hmem
  exact hunasked p hp t ht hid

/-- After a run the timers are where they would fall in, or one of its beats has fired all of them,
in their order. -/
theorem abreast_follow (h : s.Clocked grain now) (hstep : s'.stride = grain)
    (habreast : s.agenda.Abreast grain wide ahead now due ts)
    (hrun : s.follow (calls ops) = (beats, s'))
    (hunasked : ∀ p ∈ ops, ∀ t ∈ ts, ¬p.2.AsksAbout t.id)
    (hspecs : Wheel.specsOf s'.agenda.wheel.levels = Wheel.specsOf s.agenda.wheel.levels)
    (hfits : Time.Fits (now + beats.length * grain)) :
    s'.agenda.Abreast grain wide ahead (now + beats.length * grain) due ts ∨
      ∃ beat ∈ beats, (ts.map (·.id)).Sublist beat.fired := by
  obtain ⟨-, hpaced, hagenda, hticks, hrounds⟩ := moves_of_calls h hstep hrun hfits
  have hafter := History.abreast_after (h := { agenda := s.agenda }) habreast hpaced
    (unasked_movesAlong hunasked) (by rw [hagenda]; exact hspecs)
  rw [hagenda, hticks, hrounds] at hafter
  refine hafter.imp And.left ?_
  rintro ⟨earlier, r, later, hsplit, -, hall⟩
  have hmem : r ∈ beats.map Beat.fired := hsplit ▸ List.mem_append_right _ List.mem_cons_self
  obtain ⟨beat, hbeat, rfl⟩ := List.mem_map.1 hmem
  exact ⟨beat, hbeat, hall⟩

/-- Whenever a beat of a run fires one of the timers, this beat or an earlier one fires all of them,
in their order. -/
theorem fires_abreast (h : s.Clocked grain now) (hstep : s'.stride = grain)
    (habreast : s.agenda.Abreast grain wide ahead now due ts)
    (hrun : s.follow (calls ops) = (beats, s'))
    (hunasked : ∀ p ∈ ops, ∀ t ∈ ts, ¬p.2.AsksAbout t.id)
    (hspecs : Wheel.specsOf s'.agenda.wheel.levels = Wheel.specsOf s.agenda.wheel.levels)
    (hfits : Time.Fits (now + beats.length * grain)) {earlier later : List Beat} {beat : Beat}
    (hbeats : beats = earlier ++ beat :: later) {t : Timer τ} (ht : t ∈ ts)
    (hfires : t.id ∈ beat.fired) :
    (∃ beat' ∈ earlier, (ts.map (·.id)).Sublist beat'.fired) ∨
      (ts.map (·.id)).Sublist beat.fired := by
  obtain ⟨-, hpaced, hagenda, -, hrounds⟩ := moves_of_calls h hstep hrun hfits
  rw [hbeats, List.map_append, List.map_cons] at hrounds
  refine (History.fires_abreast (h := { agenda := s.agenda }) habreast hpaced
    (unasked_movesAlong hunasked) (by rw [hagenda]; exact hspecs) hrounds ht hfires).imp_left ?_
  rintro ⟨r, hr, hall⟩
  obtain ⟨beat', hbeat, rfl⟩ := List.mem_map.1 hr
  exact ⟨beat', hbeat, hall⟩

end

/-- Take a reachable scheduler whose clock is moved by hand. Its wheel is matched and has room for a
turn and one slot more of its coarsest level in the range of times, and a stride is as long as the
slots of the finest level are wide. Let callers register a timer that is to fire once and is due no
more than a turn of the coarsest level ahead, do what they like, register another such timer for the
same due time, and do what they like again, except for adding levels and for asking that one of the
two timers be moved or dropped. As long as the clock is not carried round, whenever the second timer
fires, the first one has fired on an earlier tick, or it fires on the same tick and comes first in
the answer. -/
theorem equal_dues_in_order {s₁ s₂ s₃ s₄ s₅ : Scheduler τ}
    {between after : List (Int × Operation τ)} {waiting beats : List Beat}
    {start due wall₁ wall₂ : Int} {op₁ op₂ : Operation τ} {id₁ id₂ : TimerId}
    {coarse fine : Level τ} (hs : s₁.Reachable) (hclock : s₁.clock = .manual start)
    (hmatched : LevelSpec.Matched (Wheel.specsOf s₁.agenda.wheel.levels))
    (hcoarse : s₁.agenda.wheel.levels.head? = some coarse)
    (hfine : s₁.agenda.wheel.finest? = some fine) (hstep : s₁.stride = fine.width)
    (hrange : (((coarse.slotCount + 1) * coarse.width : Nat) : Int) ≤ Time.greatest)
    (hdue : due + coarse.width ≤ Time.greatest)
    (hplan₁ : op₁.plan? (s₁.now wall₁) = some ⟨due, 0⟩)
    (hop₁ : s₁.perform wall₁ op₁ = (.registered id₁, s₂)) (hid₁ : id₁.isValid = true)
    (hnear : due ≤ s₁.now wall₁ + (coarse.slotCount * coarse.width : Nat))
    (hbetween : s₂.follow (calls between) = (waiting, s₃))
    (hplan₂ : op₂.plan? (s₃.now wall₂) = some ⟨due, 0⟩)
    (hop₂ : s₃.perform wall₂ op₂ = (.registered id₂, s₄)) (hid₂ : id₂.isValid = true)
    (hafter : s₄.follow (calls after) = (beats, s₅))
    (hunasked₁ : ∀ p ∈ between ++ after, ¬p.2.AsksAbout id₁)
    (hunasked₂ : ∀ p ∈ after, ¬p.2.AsksAbout id₂)
    (hspecs : Wheel.specsOf s₅.agenda.wheel.levels = Wheel.specsOf s₁.agenda.wheel.levels)
    (hstart : Time.Fits start)
    (hfits : Time.Fits (start + (waiting ++ beats).length * s₁.stride)) :
    ∀ earlier beat later, beats = earlier ++ beat :: later → id₂ ∈ beat.fired →
      (∃ beat' ∈ waiting ++ earlier, id₁ ∈ beat'.fired) ∨ [id₁, id₂].Sublist beat.fired := by
  intro earlier beat later hbeats hfired
  obtain ⟨hunaskedBetween, hunaskedAfter⟩ := List.forall_mem_append.1 hunasked₁
  have hclocked₁ : s₁.Clocked fine.width start :=
    ⟨hclock, fun _ => hstep, Int.natCast_nonneg _, hstart.1⟩
  have hlength : waiting.length ≤ (waiting ++ beats).length := by
    rw [List.length_append]
    exact Nat.le_add_right _ _
  rw [hstep] at hfits
  have hfitsBetween := hclocked₁.fits hlength hfits
  rw [reading_append] at hfits
  -- The first timer is registered.
  rw [hclocked₁.now_eq] at hnear
  have hcovers := covers_of_matched hs.balanced hmatched hcoarse hfine hrange
  obtain ⟨hclocked₂, hstep₂, hspecs₂, t₁, rfl, habreast₂⟩ := abreast_perform hclocked₁ hstep
    (Agenda.abreast_nil hs.balanced hcovers hstart.1 hdue hnear) hplan₁ hop₁ hid₁
  -- No level is added on the way.
  have hbelow₃ := specs_prefix_follow s₂ (calls between)
  have hbelow₄ := specs_prefix_follow s₃ [(wall₂, .call op₂)]
  have hbelow₅ := specs_prefix_follow s₄ (calls after)
  simp only [follow, act, hop₂] at hbelow₄
  rw [hbetween] at hbelow₃
  rw [hafter] at hbelow₅
  have hspecs₃ := Agenda.specs_eq_of_prefix hbelow₃ (hbelow₄.trans hbelow₅)
    (hspecs.trans hspecs₂.symm)
  have hstep₃ := stride_of_run hstep₂ hbetween hspecs₃
  obtain ⟨hclocked₃, -⟩ := moves_of_calls hclocked₂ hstep₃ hbetween hfitsBetween
  rcases abreast_follow hclocked₂ hstep₃ habreast₂ hbetween
    (fun p hp => List.forall_mem_singleton.2 (hunaskedBetween p hp)) hspecs₃ hfitsBetween with
    habreast₃ | ⟨beat', hbeat', hall⟩
  case inr =>
    exact Or.inl ⟨beat', List.mem_append_left _ hbeat', hall.subset List.mem_cons_self⟩
  -- The second timer is registered while the first one is held.
  obtain ⟨hclocked₄, hstep₄, hspecs₄, t₂, rfl, habreast₄⟩ :=
    abreast_perform hclocked₃ hstep₃ habreast₃ hplan₂ hop₂ hid₂
  have hspecs₅ := hspecs.trans (hspecs₄.trans (hspecs₃.trans hspecs₂)).symm
  have hstep₅ := stride_of_run hstep₄ hafter hspecs₅
  have hunasked : ∀ p ∈ after, ∀ t ∈ [t₁, t₂], ¬p.2.AsksAbout t.id := fun p hp =>
    List.forall_mem_cons.2 ⟨hunaskedAfter p hp, List.forall_mem_singleton.2 (hunasked₂ p hp)⟩
  refine (fires_abreast hclocked₄ hstep₅ habreast₄ hafter hunasked hspecs₅ hfits hbeats
    (List.mem_cons_of_mem _ List.mem_cons_self) hfired).imp_left ?_
  rintro ⟨beat', hbeat', hall⟩
  exact ⟨beat', List.mem_append_right _ hbeat', hall.subset List.mem_cons_self⟩

/-- With two levels and a timer of another caller that is due at 18. The two timers are due at 17
and are registered at 0 and at 10, on different levels. The tick at 15 yields both too early, and
the one at 20 fires them. -/
theorem equal_dues_in_order_at_twenty : ∃ (s : Scheduler Unit) (beat : Beat),
    create .offline { levels := [⟨3, 10, "coarse"⟩, ⟨2, 5, "fine"⟩], start := some 0 } = .ok s ∧
    (s.follow (calls [(0, .createAt 18 none), (0, .createAt 17 none), (0, .start),
      (0, .advanceTicks 2), (0, .createAfter 7 none), (0, .advanceTicks 2)])).1 =
        [⟨5, []⟩, ⟨10, []⟩, ⟨15, []⟩, beat] ∧
    [⟨2⟩, ⟨3⟩].Sublist beat.fired := by
  have hnew := @Reachable.create Unit .offline
    { levels := [⟨3, 10, "coarse"⟩, ⟨2, 5, "fine"⟩], start := some 0 } _ rfl
  have hs := hnew.act 0 (.call (.createAt 18 none))
  have horder := @equal_dues_in_order Unit _ _ _ _ _ [(0, .start), (0, .advanceTicks 2)]
    [(0, .advanceTicks 2)] _ _ 0 17 0 0 (.createAt 17 none) (.createAfter 7 none) ⟨2⟩ ⟨3⟩ _ _ hs rfl
    ⟨rfl, trivial⟩ rfl rfl (by decide) (by decide) (by decide) rfl rfl rfl (by decide) rfl rfl rfl
    rfl rfl (by simp [Operation.AsksAbout]) (by simp [Operation.AsksAbout]) rfl (by decide)
    (by decide)
  have hfires := horder [⟨15, []⟩] ⟨20, [⟨1⟩, ⟨2⟩, ⟨3⟩]⟩ [] (by decide) (by decide)
  exact ⟨_, _, rfl, by decide, hfires.resolve_left (by decide)⟩

end TimingWheel.Scheduler
