import Mathlib.Data.List.Perm.Basic
import TimingWheel.Proofs.Agenda.Mirror
import TimingWheel.Proofs.Scheduler.Alike
import TimingWheel.Proofs.Scheduler.Requests

/-!
# One level does what many levels do

The levels of a wheel only save room. Take a matched wheel, and a wheel of a single level with
slots as wide as the finest ones of the first, and at least as many as the ticks of its whole turn.
Two schedulers that have these wheels, and are alike otherwise, cannot be told apart by any calls,
as long as no timer is due further ahead than a turn of the coarsest level takes.

## Main definitions

- `Operation.Within`, `Scheduler.AsksWithin` — operations and runs that ask for nothing too far
  ahead
- `Reply.Agrees` — replies that are the same up to the order of handles
- `Scheduler.Aligned` — schedulers with both wheels, as they are after the same operations

## Main statements

- `Scheduler.aligned_act`, `Scheduler.aligned_follow` — operations and runs with both wheels
- `Scheduler.flat_wheel_agrees` — what comes of the same calls on both schedulers
-/

namespace TimingWheel.Scheduler

variable {τ : Type}

/-! ### Asking for nothing too far ahead -/

/-- The operation adds no level and asks for nothing further ahead. -/
def Operation.Within (ahead : Nat) (now : Int) : Operation τ → Prop
  | .appendLevel _ => False
  | .createAt due _ => due ≤ now + ahead
  | .createAfter delay _ => Time.plus now delay ≤ now + ahead
  | .createEvery interval _ => interval ≤ ahead
  | .resetAt _ due => due ≤ now + ahead
  | .resetAfter _ delay => Time.plus now delay ≤ now + ahead
  | _ => True

/-- No operation of the run adds a level or asks, at its time, for anything further ahead. -/
def AsksWithin (ahead : Nat) : Scheduler τ → List (Int × Operation τ) → Prop
  | _, [] => True
  | s, (wall, op) :: rest =>
    op.Within ahead (s.now wall) ∧ AsksWithin ahead (s.act wall (.call op)).2 rest

theorem movesOf_within {s : Scheduler τ} {wall now : Int} {ahead : Nat} {op : Operation τ}
    (hnow : s.now wall = now)
    (hleast : Time.least ≤ now) (hwithin : op.Within ahead now) :
    ∀ m ∈ s.movesOf wall (.call op), m.Within ahead now := by
  have hticks : ∀ beats : List Beat,
      ∀ m ∈ beats.map fun beat => (.tick beat.reading : Agenda.Move τ), m.Within ahead now := by
    intro beats m hm
    obtain ⟨beat, -, rfl⟩ := List.mem_map.1 hm
    trivial
  cases op with
  | appendLevel spec => exact hwithin.elim
  | start =>
    simp only [movesOf]
    split
    · exact fun m hm => absurd hm List.not_mem_nil
    · exact List.forall_mem_singleton.2 trivial
  | stop => exact List.forall_mem_singleton.2 trivial
  | createAt due task => exact List.forall_mem_singleton.2 ⟨hwithin, Int.natCast_nonneg ahead⟩
  | createAfter delay task =>
    rw [movesOf, hnow]
    exact List.forall_mem_singleton.2 ⟨hwithin, Int.natCast_nonneg ahead⟩
  | createEvery interval task =>
    rw [movesOf, hnow]
    refine List.forall_mem_singleton.2 ⟨?_, hwithin⟩
    have hinterval : interval ≤ ahead := hwithin
    unfold Time.plus Time.saturate
    omega
  | resetAt id due => exact List.forall_mem_singleton.2 hwithin
  | resetAfter id delay =>
    rw [movesOf, hnow]
    exact List.forall_mem_singleton.2 hwithin
  | cancel id => exact List.forall_mem_singleton.2 trivial
  | tick => exact hticks _
  | advanceTicks count => exact hticks _
  | _ => exact hticks []

/-! ### Replies -/

/-- The replies are the same up to the order of handles. What they say of the levels is not
compared. -/
def Reply.Agrees : Reply → Reply → Prop
  | .fired ids, .fired ids' => ids.Perm ids'
  | .levels _, .levels _ => True
  | reply, reply' => reply = reply'

theorem Reply.agrees_of_eq {reply reply' : Reply} (h : reply = reply') : reply.Agrees reply' := by
  subst h
  cases reply with
  | fired ids => exact List.Perm.refl ids
  | levels info => trivial
  | _ => rfl

theorem Reply.ofFired_agrees {r r' : Except Fault (List TimerId)}
    (hrefused : ∀ reason, r' = .error reason ↔ r = .error reason)
    (hfired : ∀ ids ids', r = .ok ids → r' = .ok ids' → ids.Perm ids') :
    (Reply.ofFired r).Agrees (Reply.ofFired r') := by
  cases r with
  | error reason =>
    rw [(hrefused reason).2 rfl]
    exact Reply.agrees_of_eq rfl
  | ok ids =>
    cases r' with
    | error reason => cases (hrefused reason).1 rfl
    | ok ids' => exact hfired ids ids' rfl rfl

section

variable {s s' : Scheduler τ}

/-- Schedulers alike that hold the same timers give replies that agree, if their ticks fire the
same timers. -/
theorem perform_agrees (wall : Int) (op : Operation τ) (h : s.Alike s')
    (hb : s.agenda.Balanced []) (hb' : s'.agenda.Balanced [])
    (hmirrors : s.agenda.Mirrors s'.agenda) (hlevels : ∀ spec, op ≠ .appendLevel spec)
    (hfired : List.Forall₂ List.Perm ((s.beatsOf wall op).map Beat.fired)
      ((s'.beatsOf wall op).map Beat.fired)) :
    (s.perform wall op).1.Agrees (s'.perform wall op).1 := by
  have hlive := hmirrors.live_perm hb hb'
  have hregister : ∀ make : TimerId → Timer τ,
      (s.register wall make).1 = (s'.register wall make).1 := by
    intro make
    rw [register, register, h.now]
    exact (Agenda.mirrors_register hb hb' hmirrors make _).1
  have hids : ∀ ids ids', (s.perform wall op).1 = .fired ids →
      (s'.perform wall op).1 = .fired ids' → ids.Perm ids' := by
    intro ids ids' hreply hreply'
    rw [reply_eq_fired wall s op hreply, reply_eq_fired wall s' op hreply', List.flatMap_def,
      List.flatMap_def]
    exact List.Perm.flatten_congr hfired
  cases op with
  | appendLevel spec => exact absurd rfl (hlevels spec)
  | start =>
    refine Reply.agrees_of_eq ?_
    simp only [perform, start, Prod.map, h.phase, h.workers]
    cases s.phase with
    | configured => cases Pool.create s.workers <;> rfl
    | _ => rfl
  | createAt due task =>
    exact Reply.agrees_of_eq (congrArg Reply.registered (hregister fun id => .once id due task))
  | createAfter delay task =>
    refine Reply.agrees_of_eq ?_
    simp only [perform, createAfter, createAt, Prod.map, h.now, hregister]
  | createEvery interval task =>
    refine Reply.agrees_of_eq ?_
    simp only [perform, createEvery, Prod.map, h.now, hregister]
  | tick =>
    have hrefused : ∀ reason,
        (s'.tick wall).1 = .error reason ↔ (s.tick wall).1 = .error reason := by
      intro reason
      rcases tick_of_alike wall h with ⟨_, htick, htick'⟩ | ⟨_, htick, htick'⟩
      · rw [htick, htick']
      · simp [htick, htick']
    refine Reply.ofFired_agrees hrefused fun ids ids' hreply hreply' => hids ids ids' ?_ ?_
    · exact congrArg Reply.ofFired hreply
    · exact congrArg Reply.ofFired hreply'
  | advanceTicks count =>
    refine Reply.ofFired_agrees (tickTimes_of_alike wall count h).2.2
      fun ids ids' hreply hreply' => hids ids ids' ?_ ?_
    · exact congrArg Reply.ofFired hreply
    · exact congrArg Reply.ofFired hreply'
  | mode => exact Reply.agrees_of_eq (congrArg (fun c => Reply.mode (Clock.mode c)) h.clock.symm)
  | phase => exact Reply.agrees_of_eq (congrArg Reply.phase h.phase.symm)
  | now => exact Reply.agrees_of_eq (congrArg Reply.time (h.now wall).symm)
  | pending => exact Reply.agrees_of_eq (congrArg Reply.count hlive.length_eq.symm)
  | isPending id =>
    refine Reply.agrees_of_eq (congrArg Reply.flag ?_)
    rw [Agenda.isPending, Agenda.isPending, decide_eq_decide, hlive.mem_iff]
  | levels => trivial
  | _ => exact Reply.agrees_of_eq rfl

end

/-! ### Runs with both wheels -/

/-- The schedulers are alike, their agendas are twins, and a stride is as long as the slots of the
finest level are wide. -/
structure Aligned (grain wide ahead : Nat) (now : Int) (s s' : Scheduler τ) : Prop where
  alike : s.Alike s'
  punctual : s.Punctual grain grain now
  twins : s.agenda.Twins grain wide ahead now s'.agenda

section

variable {grain wide ahead : Nat} {now : Int} {s s' : Scheduler τ} {g : History τ}

/-- Operations on aligned schedulers get replies that agree, fire the same timers on each tick, and
leave the schedulers aligned. -/
theorem aligned_act (wall : Int) (op : Operation τ) (h : s.Aligned grain wide ahead now s')
    (hwithin : op.Within ahead now)
    (hfits : Time.Fits (now + (s.act wall (.call op)).1.length * grain)) (hg : g.agenda = s.agenda)
    (hroom : g.Roomy wide (s.movesOf wall (.call op))) :
    let r := s.act wall (.call op)
    let r' := s'.act wall (.call op)
    (s.perform wall op).1.Agrees (s'.perform wall op).1 ∧
      r'.1.map Beat.reading = r.1.map Beat.reading ∧
      List.Forall₂ List.Perm (r.1.map Beat.fired) (r'.1.map Beat.fired) ∧
      r.2.Aligned grain wide ahead (now + r.1.length * grain) r'.2 := by
  intro r r'
  have hb := h.twins.inStep.balanced
  have hb' := h.twins.inStep'.balanced
  have hlevels : ∀ spec, op ≠ .appendLevel spec := by
    rintro spec rfl
    exact hwithin
  have hmoves := movesOf_of_alike wall op h.alike
  have hwithinMoves := movesOf_within (h.punctual.now_eq wall) h.twins.inStep.least_le hwithin
  have hagenda := (explained_act wall s (.call op)).agenda g hg
  have hagenda' := (explained_act wall s' (.call op)).agenda { agenda := s'.agenda } rfl
  have hspecs := History.specs_after_of_no_level g fun m hm => (hwithinMoves m hm).not_append
  rw [hagenda, hg] at hspecs
  have hpaced := paced_movesOf wall op h.punctual hspecs hfits
  have htwins₀ : g.agenda.Twins grain wide ahead now ({ agenda := s'.agenda } : History τ).agenda :=
    hg ▸ h.twins
  obtain ⟨hrounds, htwins⟩ := History.twins_after htwins₀ hpaced hwithinMoves hroom
  rw [rounds_movesOf wall s _ hg, ← hmoves, rounds_movesOf wall s' _ rfl] at hrounds
  rw [hagenda, ← hmoves, hagenda', hmoves, ticksIn_movesOf] at htwins
  refine ⟨perform_agrees wall op h.alike hb hb' h.twins.mirrors hlevels hrounds, ?_, hrounds,
    perform_of_alike wall op h.alike hlevels, ?_, htwins⟩
  · rw [← readings_movesOf, ← readings_movesOf, hmoves]
  · exact (timely_act wall op h.punctual hspecs hfits).punctual

/-- Runs of aligned schedulers get replies that agree, fire the same timers on each tick, and leave
the schedulers aligned after each operation. -/
theorem aligned_follow (ops : List (Int × Operation τ)) (h : s.Aligned grain wide ahead now s')
    (hwithin : s.AsksWithin ahead ops)
    (hfits : Time.Fits (now + (s.follow (calls ops)).1.length * grain)) (hg : g.agenda = s.agenda)
    (hroom : g.Roomy wide (s.movesAlong (calls ops))) :
    let r := s.follow (calls ops)
    let r' := s'.follow (calls ops)
    List.Forall₂ Reply.Agrees (s.performAll ops).1 (s'.performAll ops).1 ∧
      r'.1.map Beat.reading = r.1.map Beat.reading ∧
      List.Forall₂ List.Perm (r.1.map Beat.fired) (r'.1.map Beat.fired) ∧
      ∀ done, done <+: ops → ∃ now', (s.follow (calls done)).2.Aligned grain wide ahead now'
        (s'.follow (calls done)).2 := by
  induction ops generalizing s s' now g with
  | nil =>
    refine ⟨.nil, rfl, .nil, fun done hdone => ?_⟩
    obtain rfl := List.prefix_nil.1 hdone
    exact ⟨now, h⟩
  | cons p rest ih =>
    obtain ⟨wall, op⟩ := p
    let r₁ := s.act wall (.call op)
    let r₁' := s'.act wall (.call op)
    obtain ⟨hfitsFirst, hfitsRest⟩ := fits_of_run h.punctual hfits
    obtain ⟨hroomFirst, hroomRest⟩ := History.Roomy.append (hroom : g.Roomy wide
      (s.movesOf wall (.call op) ++ r₁.2.movesAlong (calls rest)))
    have hop : op.Within ahead now := h.punctual.now_eq wall ▸ hwithin.1
    obtain ⟨hreply, hreadings, hfired, hnext⟩ := aligned_act wall op h hop hfitsFirst hg hroomFirst
    obtain ⟨hreplies, hreadings', hfired', hafter⟩ := ih hnext hwithin.2 hfitsRest
      ((explained_act wall s (.call op)).agenda g hg) hroomRest
    refine ⟨.cons hreply hreplies, ?_, ?_, fun done hdone => ?_⟩
    · show (r₁'.1 ++ (r₁'.2.follow (calls rest)).1).map Beat.reading =
        (r₁.1 ++ (r₁.2.follow (calls rest)).1).map Beat.reading
      rw [List.map_append, List.map_append, hreadings, hreadings']
    · show List.Forall₂ List.Perm ((r₁.1 ++ (r₁.2.follow (calls rest)).1).map Beat.fired)
        ((r₁'.1 ++ (r₁'.2.follow (calls rest)).1).map Beat.fired)
      rw [List.map_append, List.map_append]
      exact List.rel_append hfired hfired'
    · cases done with
      | nil => exact ⟨now, h⟩
      | cons p done =>
        obtain ⟨rfl, hprefix⟩ := List.cons_prefix_cons.1 hdone
        exact hafter done hprefix

end

/-- A single level covers as much as a matched wheel, if it has at least as many slots as the ticks
of a whole turn. -/
theorem covers_flat {grain wide ahead : Nat} {specs : List LevelSpec} {flat : LevelSpec}
    (h : LevelSpec.Covers grain wide ahead specs) (hspecs : specs ≠ [])
    (hwidth : flat.width = grain) (hslots : LevelSpec.turnTicks specs ≤ flat.slotCount) :
    LevelSpec.Covers grain wide ahead [flat] where
  matched := trivial
  finest := by
    intro spec hspec
    obtain rfl := Option.some.inj hspec
    exact hwidth
  width_le := by
    obtain ⟨fine, hfine⟩ := Option.isSome_iff_exists.1 (List.getLast?_isSome.2 hspecs)
    refine List.forall_mem_singleton.2 ?_
    rw [hwidth, ← h.finest fine hfine]
    exact h.width_le fine (List.mem_of_getLast? hfine)
  ahead_le := by
    intro spec hspec
    obtain rfl := Option.some.inj hspec
    cases specs with
    | nil => exact absurd rfl hspecs
    | cons coarse finer =>
      calc ahead ≤ coarse.slotCount * coarse.width := h.ahead_le coarse rfl
        _ = LevelSpec.turnTicks (coarse :: finer) * grain := by
          rw [h.toMeshed.width_eq, ← Nat.mul_assoc]
          rfl
        _ ≤ flat.slotCount * flat.width := by
          rw [hwidth]
          exact Nat.mul_le_mul_right grain hslots
  wide_le := h.wide_le
  fits := h.fits

/-- Take two schedulers that have accepted no timer yet, and whose clocks are moved by hand. Let the
wheel of the one be matched (with widths that are words of 32 bits), with room for a turn and one
slot more of its coarsest level in the range of times. Let the wheel of the other be a single level
with slots as wide as the finest ones of the first, and with at least as many of them as a turn of
the first takes ticks. Let them be alike otherwise, with strides as long as these slots are wide.
Let callers do the same with both, but add no level, and never ask for a due time or an interval
that is more than a turn of the coarsest level ahead, so that no due time comes within a slot of
the coarsest level of the end of the range, and the clock is not carried round. Then
* the replies are the same up to the order in which handles are fired (and to what is said of the
  levels), so that the same handles are given out;
* the beats come at the same readings, and each of them fires the same timers;
* after each operation the same handles are pending, the same timers are held with the same due
  times, and the same requests are noted. -/
theorem flat_wheel_agrees {s s' : Scheduler τ} {ops : List (Int × Operation τ)} {start : Int}
    {coarse fine : Level τ} {flat : LevelSpec} (hs : s.Reachable) (hs' : s'.Reachable)
    (halike : s.Alike s') (hclock : s.clock = .manual start) (hnew : s.agenda.nextId = 1)
    (hnew' : s'.agenda.nextId = 1)
    (hmatched : LevelSpec.Matched (Wheel.specsOf s.agenda.wheel.levels))
    (hwords : ∀ spec ∈ Wheel.specsOf s.agenda.wheel.levels, spec.width < 4294967296)
    (hcoarse : s.agenda.wheel.levels.head? = some coarse)
    (hfine : s.agenda.wheel.finest? = some fine) (hstep : s.stride = fine.width)
    (hrange : (((coarse.slotCount + 1) * coarse.width : Nat) : Int) ≤ Time.greatest)
    (hflat : Wheel.specsOf s'.agenda.wheel.levels = [flat]) (hwidth : flat.width = fine.width)
    (hslots : LevelSpec.turnTicks (Wheel.specsOf s.agenda.wheel.levels) ≤ flat.slotCount)
    (hwithin : s.AsksWithin (coarse.slotCount * coarse.width) ops) (hstart : Time.Fits start)
    (hfits : Time.Fits (start + (s.follow (calls ops)).1.length * s.stride))
    (hroom : ({ agenda := s.agenda } : History τ).Roomy coarse.width (s.movesAlong (calls ops))) :
    List.Forall₂ Reply.Agrees (s.performAll ops).1 (s'.performAll ops).1 ∧
    (s'.follow (calls ops)).1.map Beat.reading = (s.follow (calls ops)).1.map Beat.reading ∧
    List.Forall₂ List.Perm ((s.follow (calls ops)).1.map Beat.fired)
      ((s'.follow (calls ops)).1.map Beat.fired) ∧
    ∀ done, done <+: ops →
      let a := (s.follow (calls done)).2.agenda
      let a' := (s'.follow (calls done)).2.agenda
      a'.live.Perm a.live ∧ a'.wheel.timers.Perm a.wheel.timers ∧
      (∀ id, id ∈ a'.cancels ↔ id ∈ a.cancels) ∧ ∀ id, a'.resetOf id = a.resetOf id := by
  have hb := hs.balanced
  have hcovers := covers_of_matched hb hmatched hcoarse hfine hrange
  have hlevels : Wheel.specsOf s.agenda.wheel.levels ≠ [] := by
    intro hnil
    rw [Wheel.specsOf, List.map_eq_nil_iff] at hnil
    rw [hnil] at hcoarse
    cases hcoarse
  have hcovers' := covers_flat hcovers hlevels hwidth hslots
  rw [← hflat] at hcovers'
  have hpunctual := punctual_of_new hb hclock hstart hnew (LevelSpec.nested_of_matched hmatched)
    hwords hfine (Int.le_of_eq hstep)
  have htwins := Agenda.twins_of_no_timer hb hs'.balanced halike.phase hnew hnew' hcovers hcovers'
    hstart.1
  rw [hstep] at hpunctual hfits
  obtain ⟨hreplies, hreadings, hfired, hafter⟩ := aligned_follow (g := { agenda := s.agenda }) ops
    ⟨halike, hpunctual, htwins⟩ hwithin hfits rfl hroom
  refine ⟨hreplies, hreadings, hfired, fun done hdone => ?_⟩
  obtain ⟨now, hdone⟩ := hafter done hdone
  have hmirrors := hdone.twins.mirrors
  exact ⟨hmirrors.live_perm hdone.twins.inStep.balanced hdone.twins.inStep'.balanced,
    hmirrors.timers, hmirrors.cancels, hmirrors.resets⟩

/-- With two levels of three and two slots, and with a single level of six. Of two timers one is
moved, to a whole turn ahead, and then each fires on a tick of its own. -/
theorem flat_wheel_agrees_three_by_two : ∃ s s' : Scheduler Unit, ∃ ops,
    s.agenda.wheel.levels.length = 2 ∧ s'.agenda.wheel.levels.length = 1 ∧
      (s.follow (calls ops)).1.map Beat.fired = [[], [], [], [], [⟨1⟩], [⟨2⟩]] ∧
      List.Forall₂ List.Perm ((s.follow (calls ops)).1.map Beat.fired)
        ((s'.follow (calls ops)).1.map Beat.fired) := by
  have hs := @Reachable.create Unit .offline
    { levels := [⟨3, 10, "coarse"⟩, ⟨2, 5, "fine"⟩], start := some 0 } _ rfl
  have hs' := @Reachable.create Unit .offline
    { levels := [⟨6, 5, "flat"⟩], start := some 0 } _ rfl
  have hagrees := @flat_wheel_agrees Unit _ _
    [(0, .createEvery 25 none), (0, .createAt 13 none), (0, .start), (0, .resetAt ⟨2⟩ 30),
      (0, .advanceTicks 6)] 0 _ _ ⟨6, 5, "flat"⟩ hs hs' ⟨rfl, rfl, rfl, rfl, rfl⟩ rfl rfl rfl
    ⟨rfl, trivial⟩ (by decide) rfl rfl (by decide) (by decide) rfl rfl (by decide)
    ⟨(by decide : (25 : Int) ≤ 30), (by decide : (13 : Int) ≤ 30), trivial,
      (by decide : (30 : Int) ≤ 30), trivial, trivial⟩ (by decide) (by decide) (by decide)
  exact ⟨_, _, _, rfl, rfl, by decide, hagrees.2.2.1⟩

end TimingWheel.Scheduler
