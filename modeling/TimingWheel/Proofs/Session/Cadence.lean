import TimingWheel.Proofs.Agenda.Bookkeeping
import TimingWheel.Session.Basic

/-!
# The cadence of a loop with deadlines

A loop comes to its sleep whenever its work and the system allow it, and a sleep may end late, but
not before its deadline. Whatever the delays, the loop never runs fast: each round wakes no earlier
than the intervals since the start tell. It does not make up for a stall in a burst either, since a
round that finds itself more than an interval behind starts a new row of deadlines. As long as no
round does, the deadlines stay on the row that began at the start.

## Main definitions

- `Pacing.Round` — one round of the loop
- `Pacing.Paces` — rounds that a loop can go through
- `Pacing.after` — the pace after some rounds

## Main statements

- `Pacing.deadline_le_woke` — no round wakes early
- `Pacing.apart` — rounds that are far apart in number are far apart in time
- `Pacing.count_window_le` — few rounds in any window of time
- `Pacing.deadline_after` — without stalls the deadlines do not drift
- `Pacing.even_cadence` — all of this, for a loop from its start
- `Session.paces_pulses` — the tick thread of a session is such a loop
-/

namespace TimingWheel

namespace Pacing

/-- One round of a loop. -/
structure Round where
  /-- The instant at which the loop comes to its sleep. -/
  asked : Nat
  /-- The instant at which the sleep ends. -/
  woke : Nat
  /-- The instant at which the loop does its work. -/
  ticked : Nat
deriving DecidableEq, Repr

/-- A loop with the pace `p` that does nothing before the instant `since` can go through these
rounds. Instants follow each other, and no sleep ends before its time; all else is left open. -/
def Paces : Pacing → Nat → List Round → Prop
  | _, _, [] => True
  | p, since, r :: rest =>
    since ≤ r.asked ∧ p.wake r.asked ≤ r.woke ∧ r.woke ≤ r.ticked ∧
      (p.resume r.asked).next.Paces r.ticked rest

/-- Whether a loop can go through given rounds can be told from the instants. -/
instance decidablePaces : ∀ p since rounds, Decidable (Paces p since rounds)
  | _, _, [] => isTrue trivial
  | p, _, r :: rest =>
    have := decidablePaces (p.resume r.asked).next r.ticked rest
    inferInstanceAs (Decidable (_ ∧ _ ∧ _ ∧ _))

/-- The pace after the given rounds. -/
def after (p : Pacing) (rounds : List Round) : Pacing :=
  rounds.foldl (fun p r => (p.resume r.asked).next) p

section

variable {p : Pacing} {since : Nat} {rounds : List Round} {r : Round}

@[simp] theorem interval_resume (now : Nat) (p : Pacing) :
    (p.resume now).interval = p.interval := by
  unfold resume
  split <;> rfl

@[simp] theorem interval_next (p : Pacing) : p.next.interval = p.interval := rfl

theorem deadline_next (p : Pacing) : p.next.deadline = p.deadline + p.interval := rfl

theorem le_wake (now : Nat) (p : Pacing) : now ≤ p.wake now := Nat.le_max_left _ _

/-- The deadlines move on by an interval in each round, at least. -/
theorem deadline_add_le_next (now : Nat) (p : Pacing) :
    p.deadline + p.interval ≤ (p.resume now).next.deadline := by
  rw [deadline_next, interval_resume]
  exact Nat.add_le_add_right (deadline_le_resume now p) _

/-- No round wakes before its deadline, which the rounds before it have moved on. -/
theorem deadline_le_woke (h : p.Paces since rounds) {k : Nat} (hr : rounds[k]? = some r) :
    p.deadline + k * p.interval ≤ r.woke := by
  induction rounds generalizing p since k with
  | nil => cases hr
  | cons first rest ih =>
    obtain ⟨-, hwoke, -, hrest⟩ := h
    cases k with
    | zero =>
      obtain rfl := Option.some.inj hr
      have hwake := deadline_le_wake first.asked p
      omega
    | succ k =>
      have hlater := ih hrest (k := k) hr
      have hnext := deadline_add_le_next first.asked p
      rw [interval_next, interval_resume] at hlater
      rw [Nat.succ_mul]
      omega

/-- A loop that does nothing before an instant does not wake before it. -/
theorem since_le_woke (h : p.Paces since rounds) {k : Nat} (hr : rounds[k]? = some r) :
    since ≤ r.woke := by
  induction rounds generalizing p since k with
  | nil => cases hr
  | cons first rest ih =>
    obtain ⟨hsince, hwoke, hticked, hrest⟩ := h
    have hfirst : since ≤ first.woke :=
      Nat.le_trans hsince (Nat.le_trans (le_wake first.asked p) hwoke)
    cases k with
    | zero =>
      obtain rfl := Option.some.inj hr
      exact hfirst
    | succ k => exact Nat.le_trans hfirst (Nat.le_trans hticked (ih hrest (k := k) hr))

theorem paces_drop (h : p.Paces since rounds) {j : Nat} (hr : rounds[j]? = some r) :
    ∃ q : Pacing, q.interval = p.interval ∧ r.woke ≤ r.ticked ∧
      q.Paces r.ticked (rounds.drop (j + 1)) := by
  induction rounds generalizing p since j with
  | nil => cases hr
  | cons first rest ih =>
    obtain ⟨-, -, hticked, hrest⟩ := h
    cases j with
    | zero =>
      obtain rfl := Option.some.inj hr
      exact ⟨_, by simp, hticked, hrest⟩
    | succ j =>
      obtain ⟨q, hinterval, hlater⟩ := ih hrest (j := j) hr
      exact ⟨q, by simpa using hinterval, hlater⟩

/-- After an instant at which it was not yet at its sleep, a loop wakes for the `k`-th time no
sooner than `k` intervals after it, but for two. -/
theorem since_add_le_woke (h : p.Paces since rounds) {k : Nat} (hr : rounds[k]? = some r) :
    since + (k + 1) * p.interval ≤ r.woke + 2 * p.interval := by
  cases rounds with
  | nil => cases hr
  | cons first rest =>
    obtain ⟨hsince, hwoke, hticked, hrest⟩ := id h
    by_cases hbehind : p.deadline + p.interval < first.asked
    · -- The first round begins a new row of deadlines, so that only its own interval is missing.
      have hresume : (p.resume first.asked).deadline = first.asked := by
        rw [resume, if_pos hbehind]
      cases k with
      | zero =>
        have hlate := since_le_woke h hr
        omega
      | succ k =>
        have hlater := deadline_le_woke hrest (k := k) hr
        rw [interval_next, deadline_next, interval_resume, hresume] at hlater
        rw [Nat.succ_mul, Nat.succ_mul]
        omega
    · have hlater := deadline_le_woke h hr
      rw [Nat.succ_mul]
      omega

/-- Between the work of a round and the wake-up of a later one there are as many intervals as there
are rounds, but for two. -/
theorem apart (h : p.Paces since rounds) {j k : Nat} {a b : Round} (ha : rounds[j]? = some a)
    (hb : rounds[k]? = some b) (hlt : j < k) :
    a.ticked + (k - j) * p.interval ≤ b.woke + 2 * p.interval := by
  obtain ⟨q, hinterval, -, hlater⟩ := paces_drop h ha
  obtain ⟨m, rfl⟩ := Nat.exists_eq_add_of_lt hlt
  have hb' : (rounds.drop (j + 1))[m]? = some b := by
    rw [List.getElem?_drop, ← hb]
    congr 1
    omega
  have hwoke := since_add_le_woke hlater hb'
  rw [hinterval] at hwoke
  rwa [show j + m + 1 - j = m + 1 by omega]

/-- The work of a round takes place after its sleep. -/
theorem woke_le_ticked (h : p.Paces since rounds) : ∀ r ∈ rounds, r.woke ≤ r.ticked := by
  intro r hr
  obtain ⟨j, hj⟩ := List.getElem?_of_mem hr
  obtain ⟨-, -, hticked, -⟩ := paces_drop h hj
  exact hticked

/-- Few rounds have an instant within a window of time, whichever instant of theirs is asked for
from the end of their sleep to the end of their work. -/
theorem count_window_le (hpos : 0 < p.interval) (h : p.Paces since rounds) {instant : Round → Nat}
    (hinstant : ∀ r ∈ rounds, r.woke ≤ instant r ∧ instant r ≤ r.ticked) (start length : Nat) :
    rounds.countP (fun r => decide (start ≤ instant r ∧ instant r ≤ start + length)) ≤
      length / p.interval + 3 := by
  induction rounds generalizing p since with
  | nil => exact Nat.zero_le _
  | cons first rest ih =>
    obtain ⟨-, -, hticked, hrest⟩ := h
    obtain ⟨hfirst, hinstantRest⟩ := List.forall_mem_cons.1 hinstant
    rw [List.countP_cons]
    split
    next hin =>
      -- Of the rounds after the first one in the window, those with a high number are beyond it.
      have hbegun : start ≤ instant first := (of_decide_eq_true hin).1
      have hbeyond : (rest.drop (length / p.interval + 2)).countP
          (fun r => decide (start ≤ instant r ∧ instant r ≤ start + length)) = 0 := by
        refine List.countP_eq_zero.2 fun r hr hr' => ?_
        have hend : instant r ≤ start + length := (of_decide_eq_true hr').2
        obtain ⟨m, hm⟩ := List.getElem?_of_mem hr
        rw [List.getElem?_drop] at hm
        have hwoke := since_add_le_woke hrest hm
        rw [interval_next, interval_resume] at hwoke
        have hmore : (length / p.interval + 3) * p.interval ≤
            (length / p.interval + 2 + m + 1) * p.interval :=
          Nat.mul_le_mul_right _ (by omega)
        have hceil := Nat.lt_mul_div_succ length hpos
        rw [Nat.mul_comm, Nat.succ_mul] at hceil
        rw [Nat.add_mul] at hmore
        have hown := (hinstantRest r (List.mem_of_mem_drop hr)).1
        omega
      have hnear : (rest.take (length / p.interval + 2)).countP
          (fun r => decide (start ≤ instant r ∧ instant r ≤ start + length)) ≤
            length / p.interval + 2 :=
        Nat.le_trans List.countP_le_length (List.length_take_le _ _)
      rw [← List.take_append_drop (length / p.interval + 2) rest, List.countP_append, hbeyond]
      omega
    next =>
      have hlater := ih (by simpa using hpos) hrest hinstantRest
      simpa using hlater

/-- As long as no round has found itself more than an interval behind its deadline, the deadlines
are one interval apart. -/
theorem deadline_after {k : Nat} (hk : k ≤ rounds.length)
    (hintime : ∀ j r, j < k → rounds[j]? = some r →
      r.asked ≤ (p.after (rounds.take j)).deadline + p.interval) :
    (p.after (rounds.take k)).deadline = p.deadline + k * p.interval := by
  induction k generalizing p rounds with
  | zero => simp [after]
  | succ k ih =>
    cases rounds with
    | nil => exact absurd hk (Nat.not_succ_le_zero k)
    | cons first rest =>
      have hfirst : p.resume first.asked = p :=
        resume_of_le (hintime 0 first (Nat.succ_pos k) rfl)
      have hstep : ∀ m, p.after ((first :: rest).take (m + 1)) = p.next.after (rest.take m) := by
        intro m
        show (p.resume first.asked).next.after (rest.take m) = _
        rw [hfirst]
      have hrest := ih (p := p.next) (Nat.le_of_succ_le_succ hk) fun j r hj hr => by
        rw [← hstep]
        exact hintime (j + 1) r (Nat.succ_lt_succ hj) hr
      rw [hstep, hrest, deadline_next, interval_next, Nat.succ_mul]
      omega

end

/-- Take a loop that is started at the instant `start` and goes through any rounds, with any delays
of its work, of the system, and of the ends of its sleeps. The rounds are counted from zero. The
`k`-th one wakes no earlier than `k + 1` intervals after the start. Later rounds wake, and do their
work, as many intervals later as there are rounds between, but for two, so that no window of time
sees more rounds than intervals, but for three. And as long as no round finds itself more than an
interval behind its deadline, the loop comes to its `k`-th sleep with a deadline that is `k + 1`
intervals after the start. -/
theorem even_cadence {interval start : Nat} {rounds : List Round} (hpos : 0 < interval)
    (h : (Pacing.start interval start).Paces start rounds) :
    (∀ k r, rounds[k]? = some r → start + (k + 1) * interval ≤ r.woke) ∧
    (∀ j k a b, j < k → rounds[j]? = some a → rounds[k]? = some b →
      a.woke + (k - j) * interval ≤ b.woke + 2 * interval ∧
      a.ticked + (k - j) * interval ≤ b.ticked + 2 * interval) ∧
    (∀ first length,
      rounds.countP (fun r => decide (first ≤ r.woke ∧ r.woke ≤ first + length)) ≤
        length / interval + 3 ∧
      rounds.countP (fun r => decide (first ≤ r.ticked ∧ r.ticked ≤ first + length)) ≤
        length / interval + 3) ∧
    (∀ k ≤ rounds.length,
      (∀ j r, j < k → rounds[j]? = some r →
        r.asked ≤ ((Pacing.start interval start).after (rounds.take j)).deadline + interval) →
      ((Pacing.start interval start).after (rounds.take k)).deadline =
        start + (k + 1) * interval) := by
  have hticked := woke_le_ticked h
  refine ⟨?_, ?_, ?_, ?_⟩
  · intro k r hr
    have hwoke : start + interval + k * interval ≤ r.woke := deadline_le_woke h hr
    rw [Nat.succ_mul]
    omega
  · intro j k a b hlt ha hb
    have hapart : a.ticked + (k - j) * interval ≤ b.woke + 2 * interval := apart h ha hb hlt
    have hown := hticked a (List.mem_of_getElem? ha)
    have hother := hticked b (List.mem_of_getElem? hb)
    exact ⟨by omega, by omega⟩
  · intro first length
    exact ⟨count_window_le hpos h (fun r hr => ⟨Nat.le_refl _, hticked r hr⟩) first length,
      count_window_le hpos h (fun r hr => ⟨hticked r hr, Nat.le_refl _⟩) first length⟩
  · intro k hk hintime
    have hdeadline := deadline_after (p := Pacing.start interval start) hk hintime
    rw [hdeadline, Nat.succ_mul]
    show start + interval + k * interval = _
    omega

/-- A loop with an interval of 10 whose second round works until 75. The third round gives up its
deadline at 30, the fourth one sleeps until 85, and only these two rounds wake between 70 and 90.
The first three deadlines are where they should be. -/
theorem even_cadence_after_stall :
    let rounds : List Round := [⟨3, 10, 12⟩, ⟨12, 20, 75⟩, ⟨75, 75, 76⟩, ⟨76, 85, 86⟩]
    (Pacing.start 10 0).Paces 0 rounds ∧
    (∀ k r, rounds[k]? = some r → 0 + (k + 1) * 10 ≤ r.woke) ∧
    20 + (3 - 1) * 10 ≤ 85 + 2 * 10 ∧
    rounds.countP (fun r => decide (70 ≤ r.woke ∧ r.woke ≤ 70 + 20)) ≤ 20 / 10 + 3 ∧
    ((Pacing.start 10 0).after (rounds.take 2)).deadline = 0 + (2 + 1) * 10 := by
  intro rounds
  have hpaces : (Pacing.start 10 0).Paces 0 rounds := by decide
  obtain ⟨hearly, happart, hwindow, hdrift⟩ := even_cadence (by decide) hpaces
  refine ⟨hpaces, hearly, (happart 1 3 _ _ (by decide) rfl rfl).1, (hwindow 70 20).1,
    hdrift 2 (by decide) ?_⟩
  intro j r hj hr
  have hcases : j = 0 ∨ j = 1 := by omega
  rcases hcases with rfl | rfl
  all_goals
    obtain rfl := Option.some.inj hr
    decide

end Pacing

/-! ### The tick thread of a session -/

namespace Session

/-- The rounds of a tick thread that wakes `n` times while nobody else does anything. -/
def rounds : Nat → Session → List Pacing.Round
  | 0, _ => []
  | n + 1, x => ⟨x.now, x.pulse.now, x.pulse.now⟩ :: x.pulse.rounds n

section

variable {x : Session} {p : Pacing}

theorem awaken_of_pacing (h : x.pacing = some p) :
    x.awaken = { x with now := p.wake x.now, pacing := some (p.resume x.now) } := by
  rw [awaken, h]
  simp only [Session.mk.injEq, true_and, and_true]
  unfold Pacing.wake Pacing.resume
  split <;> dsimp only
  omega

theorem pulse_of_running (h : x.pacing = some p) (hrunning : x.isRunning = true) :
    x.pulse.now = p.wake x.now ∧ x.pulse.pacing = some (p.resume x.now).next ∧
      x.pulse.isRunning = true := by
  have hphase : x.scheduler.phase = .running := of_decide_eq_true hrunning
  have hstays : (x.awaken).isRunning = true := by
    rw [awaken_of_pacing h]
    exact hrunning
  rw [pulse, if_pos hstays, awaken_of_pacing h]
  refine ⟨rfl, rfl, ?_⟩
  rw [isRunning, Scheduler.heartbeat]
  rw [if_pos hphase, decide_eq_true_iff]
  exact (Agenda.phase_tick _ _).trans hphase

/-- The tick thread of a running session goes through rounds of a loop with its pace. -/
theorem paces_pulses (h : x.pacing = some p) (hrunning : x.isRunning = true) (n : Nat) :
    p.Paces x.now (x.rounds n) := by
  induction n generalizing x p with
  | zero => trivial
  | succ n ih =>
    obtain ⟨hnow, hpacing, hstill⟩ := pulse_of_running h hrunning
    exact ⟨Nat.le_refl _, Nat.le_of_eq hnow.symm, Nat.le_refl _, ih hpacing hstill⟩

end

end Session

end TimingWheel
