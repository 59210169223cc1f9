import TimingWheel.Proofs.Agenda.Exactness

/-!
# Agendas that mirror each other

What an agenda does with its timers depends on the wheel only through the timers that it yields on
each tick. So two agendas with different wheels do the same, as long as both wheels yield the same
timers. Where both wheels are matched and ticks are as far apart as their finest slots are wide,
they do: the tick on which a timer comes out depends on its due time alone. For this no timer may
be due further ahead, when it falls in, than either wheel covers.

## Main definitions

- `Agenda.Mirrors` — two agendas that hold the same timers, with the same requests noted
- `Agenda.Bounded` — an agenda whose timers are due, and asked to be due, not too far ahead
- `Agenda.Twins` — two agendas that mirror each other and do so after every tick
- `History.Roomy` — no timer comes too close to the end of the range of times

## Main statements

- `Agenda.mirrors_move`, `Agenda.mirrors_tick` — what keeps two agendas alike
- `Agenda.twins_move`, `Agenda.twins_tick` — moves and ticks of agendas in step
- `History.twins_after` — what follows for any moves
-/

namespace TimingWheel

variable {τ : Type}

namespace Agenda

/-! ### The same timers -/

/-- The agendas hold the same timers, have the same requests noted, and are as far along. -/
structure Mirrors (a a' : Agenda τ) : Prop where
  nextId : a'.nextId = a.nextId
  phase : a'.phase = a.phase
  timers : a'.wheel.timers.Perm a.wheel.timers
  cancels : ∀ id, id ∈ a'.cancels ↔ id ∈ a.cancels
  resets : ∀ id, a'.resetOf id = a.resetOf id

section

variable {a a' : Agenda τ} (hb : Balanced [] a) (hb' : Balanced [] a') (h : a.Mirrors a')

include hb hb' h

theorem Mirrors.live_perm : a'.live.Perm a.live :=
  hb'.live_perm.trans ((h.timers.map (·.id)).trans hb.live_perm.symm)

theorem mirrors_register (make : TimerId → Timer τ) (now : Int) :
    (a.register make now).1 = (a'.register make now).1 ∧
      (a.register make now).2.Mirrors (a'.register make now).2 := by
  cases haccepts : a.phase.acceptsTimers with
  | false =>
    have haccepts' : a'.phase.acceptsTimers = false := h.phase ▸ haccepts
    rw [register_of_refuses haccepts, register_of_refuses haccepts']
    exact ⟨rfl, h⟩
  | true =>
    have haccepts' : a'.phase.acceptsTimers = true := h.phase ▸ haccepts
    rw [register_of_accepts haccepts, register_of_accepts haccepts', h.nextId]
    refine ⟨rfl, rfl, h.phase, ?_, h.cancels, h.resets⟩
    have htimers := hb.timers_insert haccepts (make ⟨a.nextId⟩) now
    have htimers' := hb'.timers_insert haccepts' (make ⟨a.nextId⟩) now
    exact htimers'.trans ((h.timers.cons _).trans htimers.symm)

theorem mirrors_requestReset (id : TimerId) (due : Int) :
    (a.requestReset id due).Mirrors (a'.requestReset id due) := by
  have hlive := (h.live_perm hb hb').mem_iff (a := id)
  refine ⟨?_, ?_, ?_, fun id' => ?_, fun id' => ?_⟩
  · rw [requestReset_frame id due a, requestReset_frame id due a']
    exact h.nextId
  · rw [requestReset_frame id due a, requestReset_frame id due a']
    exact h.phase
  · rw [requestReset_frame id due a, requestReset_frame id due a']
    exact h.timers
  · rw [requestReset_frame id due a, requestReset_frame id due a']
    exact h.cancels id'
  · simp only [resetOf_requestReset, hlive, h.resets]

theorem mirrors_requestCancel (id : TimerId) :
    (a.requestCancel id).Mirrors (a'.requestCancel id) := by
  have hlive := (h.live_perm hb hb').mem_iff (a := id)
  refine ⟨?_, ?_, ?_, fun id' => ?_, fun id' => ?_⟩
  · rw [requestCancel_frame id a, requestCancel_frame id a']
    exact h.nextId
  · rw [requestCancel_frame id a, requestCancel_frame id a']
    exact h.phase
  · rw [requestCancel_frame id a, requestCancel_frame id a']
    exact h.timers
  · simp only [mem_cancels_requestCancel, hlive, h.cancels]
  · rw [requestCancel_frame id a, requestCancel_frame id a']
    exact h.resets id'

/-- Moves between ticks that add no level keep two agendas alike. -/
theorem mirrors_move {m : Move τ} (hm : ∀ now, m ≠ .tick now) (hlevels : ∀ spec, m ≠ .append spec) :
    (a.move m).Mirrors (a'.move m) := by
  cases m with
  | append spec => exact absurd rfl (hlevels spec)
  | start =>
    simp only [move, h.phase]
    split
    · exact { h with phase := rfl }
    · exact h
  | stop =>
    simp only [move, h.phase]
    split
    · exact { h with phase := rfl }
    · exact h
  | register due interval task now =>
    exact (mirrors_register hb hb' h (.every · due interval task) now).2
  | reset id due => exact mirrors_requestReset hb hb' h id due
  | cancel id => exact mirrors_requestCancel hb hb' h id
  | tick now => exact absurd rfl (hm now)

/-- If the wheels yield the same timers, a tick keeps two agendas alike and fires the same
timers. -/
theorem mirrors_tick (now : Int)
    (hyields : ∀ t ∈ a.wheel.timers, t ∈ a'.yielded now ↔ t ∈ a.yielded now) :
    (a.tick now).1.Perm (a'.tick now).1 ∧ (a.tick now).2.Mirrors (a'.tick now).2 := by
  have hsplit := yielded_perm hb now
  have hsplit' := yielded_perm hb' now
  have hyielded : (a'.yielded now).Perm (a.yielded now) := by
    refine (List.perm_ext_iff_of_nodup (yielded_ids_nodup hb' now).of_map
      (yielded_ids_nodup hb now).of_map).2 fun t => ?_
    constructor
    · intro ht
      exact (hyields t (h.timers.subset (hsplit'.subset (List.mem_append_left _ ht)))).1 ht
    · intro ht
      exact (hyields t (hsplit.subset (List.mem_append_left _ ht))).2 ht
  have hunreached : (a'.unreached now).Perm (a.unreached now) := by
    refine (List.perm_append_left_iff (a'.yielded now)).1 ?_
    exact hsplit'.trans (h.timers.trans (hsplit.symm.trans (hyielded.symm.append_right _)))
  have hverdict : ∀ t, a'.verdict now t = a.verdict now t := fun t =>
    verdict_congr (h.resets t.id) (h.cancels t.id)
  refine ⟨?_, ?_, ?_, ?_, fun id => ?_, fun id => ?_⟩
  · rw [fired_tick hb, fired_tick hb']
    simp only [hverdict]
    exact (hyielded.filter _).symm
  · rw [nextId_tick, nextId_tick, h.nextId]
  · rw [phase_tick, phase_tick, h.phase]
  · refine (timers_tick hb' now).trans (List.Perm.trans ?_ (timers_tick hb now).symm)
    simp only [hverdict]
    exact (hyielded.filterMap _).append hunreached
  · rw [mem_cancels_tick hb, mem_cancels_tick hb', h.cancels]
    refine and_congr_right fun _ => forall_congr' fun t => ?_
    rw [hyielded.mem_iff, hverdict]
  · rw [resetOf_tick, resetOf_tick, h.resets]
    simp only [(hyielded.map (·.id)).mem_iff]

end

/-! ### Timers that are not too far ahead -/

/-- Each timer is due, and is asked to be due, no more than `ahead` after `now`, and it repeats at
no longer intervals. -/
structure Bounded (ahead : Nat) (now : Int) (a : Agenda τ) : Prop where
  due_le : ∀ t ∈ a.wheel.timers, t.due ≤ now + ahead
  interval_le : ∀ t ∈ a.wheel.timers, t.interval ≤ ahead
  asked_le : ∀ id due, a.resetOf id = some due → due ≤ now + ahead

/-- The move adds no level and asks for nothing further ahead. -/
def Move.Within (ahead : Nat) (now : Int) : Move τ → Prop
  | .append _ => False
  | .register due interval _ _ => due ≤ now + ahead ∧ interval ≤ ahead
  | .reset _ due => due ≤ now + ahead
  | _ => True

section

variable {ahead : Nat} {now now' : Int} {a : Agenda τ}

theorem Move.Within.mono {m : Move τ} (h : m.Within ahead now) (hnow : now ≤ now') :
    m.Within ahead now' := by
  cases m with
  | append spec => exact h
  | register due interval task made =>
    exact ⟨Int.le_trans h.1 (Int.add_le_add_right hnow _), h.2⟩
  | reset id due => exact Int.le_trans h (Int.add_le_add_right hnow _)
  | _ => trivial

theorem Move.Within.not_append {m : Move τ} (h : m.Within ahead now) (spec : LevelSpec) :
    m ≠ .append spec := by
  rintro rfl
  exact h

theorem bounded_move (h : a.Bounded ahead now) (hb : Balanced [] a) {m : Move τ}
    (hm : ∀ now, m ≠ .tick now) (hwithin : m.Within ahead now) : (a.move m).Bounded ahead now := by
  cases m with
  | append spec => exact hwithin.elim
  | start =>
    rw [move_start_frame]
    exact ⟨h.due_le, h.interval_le, h.asked_le⟩
  | stop =>
    rw [move_stop_frame]
    exact ⟨h.due_le, h.interval_le, h.asked_le⟩
  | register due interval task now' =>
    cases haccepts : a.phase.acceptsTimers with
    | false => rw [move, register_of_refuses haccepts]; exact h
    | true =>
      simp only [move, register_of_accepts haccepts]
      have htimers := hb.timers_insert haccepts (.every ⟨a.nextId⟩ due interval task) now'
      have hinterval : interval.toNat ≤ ahead := Int.toNat_le.2 hwithin.2
      refine ⟨fun t ht => ?_, fun t ht => ?_, h.asked_le⟩
      · rcases List.mem_cons.1 (htimers.subset ht) with rfl | hold
        · exact hwithin.1
        · exact h.due_le t hold
      · rcases List.mem_cons.1 (htimers.subset ht) with rfl | hold
        · exact hinterval
        · exact h.interval_le t hold
  | reset id due =>
    have htimers : (a.requestReset id due).wheel.timers = a.wheel.timers := by
      rw [requestReset_frame]
    refine ⟨?_, ?_, fun id' due' hasked => ?_⟩
    · rw [move, htimers]
      exact h.due_le
    · rw [move, htimers]
      exact h.interval_le
    · rw [move, resetOf_requestReset] at hasked
      split at hasked
      · rw [← Option.some.inj hasked]
        exact hwithin
      · exact h.asked_le id' due' hasked
  | cancel id =>
    rw [move, requestCancel_frame]
    exact ⟨h.due_le, h.interval_le, h.asked_le⟩
  | tick now' => exact absurd rfl (hm now')

/-- What goes back into the wheel at a later reading is not due too far ahead of it. -/
theorem Bounded.of_outcome (h : a.Bounded ahead now) (hnow : now ≤ now')
    (hleast : Time.least ≤ now') {t u : Timer τ} (ht : t ∈ a.wheel.timers)
    (hout : (a.verdict now' t).outcome t = some u) : u.due ≤ now' + ahead ∧ u.interval ≤ ahead := by
  have hlater : now + ahead ≤ now' + ahead := Int.add_le_add_right hnow _
  have hdue := h.due_le t ht
  have hinterval := h.interval_le t ht
  rcases verdict_cases now' t a with ⟨due, hasked, hv⟩ | ⟨-, -, hv⟩ | ⟨-, -, -, hv⟩ |
    ⟨-, -, hover, hv⟩
  · rw [hv] at hout
    obtain rfl := Option.some.inj hout
    exact ⟨Int.le_trans (h.asked_le t.id due hasked) hlater, hinterval⟩
  · rw [hv] at hout
    cases hout
  · rw [hv] at hout
    obtain rfl := Option.some.inj hout
    exact ⟨Int.le_trans hdue hlater, hinterval⟩
  · rw [hv, Verdict.outcome] at hout
    split at hout
    · obtain rfl := Option.some.inj hout
      refine ⟨?_, hinterval⟩
      -- The next occurrence is one interval after a due time that is over.
      rw [Timer.due_renew]
      unfold Time.plus Time.saturate
      omega
    · cases hout

theorem bounded_tick (h : a.Bounded ahead now) (hb : Balanced [] a) (hnow : now ≤ now')
    (hleast : Time.least ≤ now') : (a.tick now').2.Bounded ahead now' := by
  have hlater : now + ahead ≤ now' + ahead := Int.add_le_add_right hnow _
  have hheld : ∀ u ∈ (a.tick now').2.wheel.timers, u.due ≤ now' + ahead ∧ u.interval ≤ ahead := by
    intro u hu
    rcases List.mem_append.1 ((timers_tick hb now').subset hu) with hreturned | hstays
    · obtain ⟨t, ht, hout⟩ := List.mem_filterMap.1 hreturned
      exact h.of_outcome hnow hleast ((mem_timers_iff_yielded hb now').2 (Or.inl ht)) hout
    · have hmem := (mem_timers_iff_yielded hb now').2 (Or.inr hstays)
      exact ⟨Int.le_trans (h.due_le u hmem) hlater, h.interval_le u hmem⟩
  refine ⟨fun u hu => (hheld u hu).1, fun u hu => (hheld u hu).2, fun id due hsome => ?_⟩
  rw [resetOf_tick] at hsome
  split at hsome
  · cases hsome
  · exact Int.le_trans (h.asked_le id due hsome) hlater

/-- What bounds the timers of an agenda bounds those of one that mirrors it. -/
theorem Bounded.mirror {a' : Agenda τ} (h : a.Bounded ahead now) (hmirrors : a.Mirrors a') :
    a'.Bounded ahead now where
  due_le := fun t ht => h.due_le t (hmirrors.timers.subset ht)
  interval_le := fun t ht => h.interval_le t (hmirrors.timers.subset ht)
  asked_le := fun id due hasked => h.asked_le id due ((hmirrors.resets id).symm.trans hasked)

end

/-! ### Twins -/

/-- Two agendas mirror each other, and both are in step for all timers that are due well within
the range. -/
structure Twins (grain wide ahead : Nat) (now : Int) (a a' : Agenda τ) : Prop where
  mirrors : a.Mirrors a'
  bounded : a.Bounded ahead now
  inStep : a.InStep grain wide ahead now fun t => t.due + wide ≤ Time.greatest
  inStep' : a'.InStep grain wide ahead now fun t => t.due + wide ≤ Time.greatest

section

variable {grain wide ahead : Nat} {now : Int} {a a' : Agenda τ}

/-- Whatever is asked for that is not too far ahead leaves the timers in step. -/
theorem inStep_move_of_within
    (h : a.InStep grain wide ahead now fun t => t.due + wide ≤ Time.greatest) {m : Move τ}
    (hm : m.At now) (hwithin : m.Within ahead now) :
    (a.move m).InStep grain wide ahead now fun t => t.due + wide ≤ Time.greatest :=
  inStep_move h hm (specs_move hwithin.not_append) (by
    rintro due interval task rfl - -
    exact hwithin.1)

/-- A tick leaves the timers in step that are not due too far ahead. -/
theorem inStep_tick_of_bounded
    (h : a.InStep grain wide ahead now fun t => t.due + wide ≤ Time.greatest)
    (hbounded : (a.tick (now + grain)).2.Bounded ahead (now + grain)) :
    (a.tick (now + grain)).2.InStep grain wide ahead (now + grain)
      fun t => t.due + wide ≤ Time.greatest := by
  refine inStep_tick h h.near_fits (fun _ _ hnear => hnear) ?_
  intro t ht u hout _
  exact hbounded.due_le u ((timers_tick h.balanced _).symm.subset
    (List.mem_append_left _ (List.mem_filterMap.2 ⟨t, ht, hout⟩)))

theorem twins_move (h : a.Twins grain wide ahead now a') {m : Move τ} (hm : m.At now)
    (hwithin : m.Within ahead now) : (a.move m).Twins grain wide ahead now (a'.move m) where
  mirrors := mirrors_move h.inStep.balanced h.inStep'.balanced h.mirrors (not_tick_of_at hm)
    hwithin.not_append
  bounded := bounded_move h.bounded h.inStep.balanced (not_tick_of_at hm) hwithin
  inStep := inStep_move_of_within h.inStep hm hwithin
  inStep' := inStep_move_of_within h.inStep' hm hwithin

/-- A tick of twins fires the same timers, and they are twins afterwards, if all timers are due
well within the range. -/
theorem twins_tick (h : a.Twins grain wide ahead now a')
    (hfits : ∀ t ∈ a.wheel.timers, t.due + wide ≤ Time.greatest) :
    (a.tick (now + grain)).1.Perm (a'.tick (now + grain)).1 ∧
      (a.tick (now + grain)).2.Twins grain wide ahead (now + grain) (a'.tick (now + grain)).2 := by
  have hb := h.inStep.balanced
  have hb' := h.inStep'.balanced
  have hnow : now ≤ now + grain := by omega
  -- The due time alone tells whether a timer comes out of either wheel.
  obtain ⟨hfired, hmirrors⟩ := mirrors_tick hb hb' h.mirrors (now + grain) fun t ht => by
    rw [mem_yielded_iff h.inStep ht (hfits t ht),
      mem_yielded_iff h.inStep' (h.mirrors.timers.symm.subset ht) (hfits t ht)]
  have hbounded := bounded_tick h.bounded hb hnow h.inStep.least_le_add
  exact ⟨hfired, hmirrors, hbounded, inStep_tick_of_bounded h.inStep hbounded,
    inStep_tick_of_bounded h.inStep' (hbounded.mirror hmirrors)⟩

theorem twins_of_no_timer (hb : Balanced [] a) (hb' : Balanced [] a') (hphase : a'.phase = a.phase)
    (hnew : a.nextId = 1) (hnew' : a'.nextId = 1)
    (hcovers : LevelSpec.Covers grain wide ahead (Wheel.specsOf a.wheel.levels))
    (hcovers' : LevelSpec.Covers grain wide ahead (Wheel.specsOf a'.wheel.levels))
    (hleast : Time.least ≤ now) : a.Twins grain wide ahead now a' := by
  have hnone := hb.timers_eq_nil hnew
  have hnone' := hb'.timers_eq_nil hnew'
  have hlive := hb.not_mem_live_of_new hnew
  have hlive' := hb'.not_mem_live_of_new hnew'
  have hreset := fun id => hb.resetOf_eq_none (hlive id)
  refine ⟨⟨hnew'.trans hnew.symm, hphase, ?_, fun id => ?_, fun id => ?_⟩, ⟨?_, ?_, ?_⟩, ?_, ?_⟩
  · rw [hnone, hnone']
  · exact ⟨fun hid => absurd (hb'.cancels_live id hid) (hlive' id),
      fun hid => absurd (hb.cancels_live id hid) (hlive id)⟩
  · rw [hreset, hb'.resetOf_eq_none (hlive' id)]
  · exact fun t ht => absurd (hnone ▸ ht) List.not_mem_nil
  · exact fun t ht => absurd (hnone ▸ ht) List.not_mem_nil
  · exact fun id due hasked => by rw [hreset] at hasked; cases hasked
  · exact inStep_of_no_timer hb hcovers hleast (fun _ hfits => hfits) hnew
  · exact inStep_of_no_timer hb' hcovers' hleast (fun _ hfits => hfits) hnew'

end

end Agenda

/-! ### Histories of twins -/

namespace History

/-- On the way no timer is held that is due too close to the end of the range of times. -/
def Roomy (wide : Nat) : History τ → List (Agenda.Move τ) → Prop
  | h, [] => ∀ t ∈ h.agenda.wheel.timers, t.due + wide ≤ Time.greatest
  | h, m :: later =>
    (∀ t ∈ h.agenda.wheel.timers, t.due + wide ≤ Time.greatest) ∧ Roomy wide (h.move m) later

instance decidableRoomy (wide : Nat) :
    (h : History τ) → (moves : List (Agenda.Move τ)) → Decidable (h.Roomy wide moves)
  | h, [] => inferInstanceAs (Decidable (∀ t ∈ h.agenda.wheel.timers, t.due + wide ≤ Time.greatest))
  | h, m :: later =>
    have := decidableRoomy wide (h.move m) later
    inferInstanceAs (Decidable (_ ∧ Roomy wide (h.move m) later))

variable {grain wide ahead : Nat} {now : Int} {h h' : History τ}
  {moves later : List (Agenda.Move τ)}

theorem Roomy.append (hroom : h.Roomy wide (moves ++ later)) :
    h.Roomy wide moves ∧ (h.after moves).Roomy wide later := by
  induction moves generalizing h with
  | nil =>
    refine ⟨?_, hroom⟩
    cases later with
    | nil => exact hroom
    | cons m later => exact hroom.1
  | cons m moves ih => exact ⟨⟨hroom.1, (ih hroom.2).1⟩, (ih hroom.2).2⟩

theorem specs_after_of_no_level (h : History τ) (hlevels : ∀ m ∈ moves, ∀ spec, m ≠ .append spec) :
    Wheel.specsOf (h.after moves).agenda.wheel.levels = Wheel.specsOf h.agenda.wheel.levels := by
  induction moves generalizing h with
  | nil => rfl
  | cons m moves ih =>
    obtain ⟨hm, hmoves⟩ := List.forall_mem_cons.1 hlevels
    exact (ih (h.move m) hmoves).trans (Agenda.specs_move hm)

/-- Twins answer the same timers on each tick and stay twins, as long as ticks come at the pace of
the finest slots and nothing is asked for that is too far ahead. -/
theorem twins_after (h₀ : h.agenda.Twins grain wide ahead now h'.agenda)
    (hpaced : Agenda.Paced grain now moves) (hwithin : ∀ m ∈ moves, m.Within ahead now)
    (hroom : h.Roomy wide moves) :
    List.Forall₂ List.Perm (h.rounds moves) (h'.rounds moves) ∧
      (h.after moves).agenda.Twins grain wide ahead (now + Agenda.ticksIn moves * grain)
        (h'.after moves).agenda := by
  induction moves generalizing h h' now with
  | nil => exact ⟨.nil, by simpa [after, Agenda.ticksIn] using h₀⟩
  | cons m moves ih =>
    obtain ⟨hm, hmoves⟩ := List.forall_mem_cons.1 hwithin
    rw [← Agenda.readingFrom_add hpaced.1]
    have hrest := hpaced.2
    rcases hpaced.1 with hat | rfl
    · rw [rounds_cons_of_no_tick (Agenda.not_tick_of_at hat),
        rounds_cons_of_no_tick (Agenda.not_tick_of_at hat)]
      rw [Agenda.readingFrom_of_at hat] at hrest ⊢
      have hmoved : (h.move m).agenda.Twins grain wide ahead now (h'.move m).agenda :=
        Agenda.twins_move h₀ hat hm
      exact ih hmoved hrest hmoves hroom.2
    · obtain ⟨hfired, htwins⟩ := Agenda.twins_tick h₀ hroom.1
      have hnow : now ≤ now + grain := by omega
      have hmoved : (h.move (.tick (now + grain))).agenda.Twins grain wide ahead (now + grain)
          (h'.move (.tick (now + grain))).agenda := htwins
      obtain ⟨hrounds, hafter⟩ := ih hmoved hrest (fun m hm => (hmoves m hm).mono hnow) hroom.2
      exact ⟨.cons (hfired.map _) hrounds, hafter⟩

end History

end TimingWheel
