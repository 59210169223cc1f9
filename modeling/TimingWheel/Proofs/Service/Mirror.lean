import TimingWheel.Proofs.Service.Account

/-!
# Callbacks mirror dispatches

The account of a service is read here from the side of the callbacks. A callback was started for
each handle that a tick has answered, if there is a task to it, and for nothing else: not for a
timer that was moved, dropped or put back. This holds as soon as nothing waits any more, and up to
what waits it holds all the time.

## Main statements

- `Service.Accounted.perm`, `Service.Accounted.inOrder` — callbacks and waiting tasks together are
  the tasks of the handles answered
- `Service.Accounted.waiting_of_quiet` — nothing waits when no task is outstanding
- `Service.callbacks_mirror_dispatches` — how often each callback was started, and in which order
-/

namespace TimingWheel.Service

variable {τ : Type} {workers : Nat} {x : Service τ}

/-- The callbacks that were started and the tasks that wait are the tasks of the handles that ticks
have answered. -/
theorem Accounted.perm (h : x.Accounted workers) : (x.starts ++ x.waiting).Perm x.handed := by
  cases hpool : x.scheduler.pool with
  | none =>
    obtain ⟨hhanded, hhanding, hstarts⟩ := h.unstaffed hpool
    simp [waiting, hpool, hhanded, hhanding, hstarts]
  | some p =>
    obtain ⟨submitted, hserves, heq⟩ := h.served p hpool
    rw [← heq, waiting, hpool, ← List.append_assoc]
    exact hserves.perm.append_right x.handing

/-- With one worker they are so in order. -/
theorem Accounted.inOrder (h : x.Accounted 1) : x.starts ++ x.waiting = x.handed := by
  cases hpool : x.scheduler.pool with
  | none =>
    obtain ⟨hhanded, hhanding, hstarts⟩ := h.unstaffed hpool
    simp [waiting, hpool, hhanded, hhanding, hstarts]
  | some p =>
    obtain ⟨submitted, hserves, heq⟩ := h.served p hpool
    rw [← heq, waiting, hpool, ← List.append_assoc]
    exact congrArg (· ++ x.handing) hserves.inOrder

theorem Accounted.waiting_of_quiet (h : x.Accounted workers) (hquiet : x.isQuiet = true) :
    x.waiting = [] := by
  obtain ⟨hhanding, hidle⟩ := Bool.and_eq_true_iff.1 hquiet
  have hhanding : x.handing = [] := List.isEmpty_iff.1 hhanding
  cases hpool : x.scheduler.pool with
  | none => simp [waiting, hpool, hhanding]
  | some p =>
    obtain ⟨submitted, hserves, -⟩ := h.served p hpool
    rw [hpool] at hidle
    obtain ⟨hreceived, hqueue, hcalls⟩ := hserves.settled hidle
    simp [waiting, hpool, hhanding, hreceived, hqueue, hcalls]

/-- A handle is answered as often as it was judged to fire. -/
theorem count_decided (verdicts : List (TimerId × Verdict)) (id : TimerId) :
    (decided verdicts).count id = verdicts.count (id, .fire) := by
  rw [decided, List.count_eq_countP, List.countP_map, List.countP_filter, List.count_eq_countP]
  refine List.countP_congr fun v _ => ?_
  simp [Prod.ext_iff]

/-- What the roster has for a handle is handed over no more often than the handle is answered. -/
theorem countP_handed_le (x : Service τ) (id : TimerId) :
    x.handed.countP (fun d => d.id = id) ≤ x.listed.count id := by
  cases hlookup : x.roster.lookup id with
  | none =>
    refine (List.countP_eq_zero.2 fun d hd hid => ?_).le.trans (Nat.zero_le _)
    obtain ⟨id', -, hd'⟩ := List.mem_filterMap.1 hd
    obtain ⟨heq, hsome⟩ := dispatchOf_eq_some hd'
    rw [← heq, of_decide_eq_true hid, hlookup] at hsome
    cases hsome
  | some task =>
    cases task with
    | none => exact (count_dispatches_of_empty hlookup _).le.trans (Nat.zero_le _)
    | some task => exact (count_dispatches hlookup _).le

/-- A callback belongs to a timer on the roster. -/
theorem Accounted.mem_roster (h : x.Accounted workers) {d : Dispatch τ} (hd : d ∈ x.starts) :
    (d.id, some d.task) ∈ x.roster := by
  obtain ⟨id, -, hdispatch⟩ :=
    List.mem_filterMap.1 (h.perm.subset (List.mem_append_left x.waiting hd))
  obtain ⟨rfl, hlookup⟩ := dispatchOf_eq_some hdispatch
  exact mem_of_lookup hlookup

/-- A callback is started no more often than the handle of its timer was answered. -/
theorem Accounted.countP_starts_le (h : x.Accounted workers) (id : TimerId) :
    x.starts.countP (fun d => d.id = id) ≤ x.verdicts.count (id, .fire) :=
  calc x.starts.countP (fun d => d.id = id)
    _ ≤ (x.starts ++ x.waiting).countP (fun d => d.id = id) :=
      (List.sublist_append_left _ _).countP_le
    _ = x.handed.countP (fun d => d.id = id) := h.perm.countP_eq _
    _ ≤ x.listed.count id := x.countP_handed_le id
    _ = x.verdicts.count (id, .fire) := by rw [h.verdicts, count_decided]

/-- Take a service after any run in which no worker dies. Then
* ticks have answered the handles that they have judged to fire, in that order;
* each callback that was started is the task of a timer, and it was started for such a handle: no
  more often than its timer was judged to fire;
* the callbacks that were started and the tasks that wait are the tasks of the handles answered;
* so, when no task is outstanding, a timer with a task had its callback started as often as its
  handle was answered, and a timer with an empty task had nothing started;
* with one worker the callbacks were started in the order in which the handles were answered. -/
theorem callbacks_mirror_dispatches {mode : Mode} {settings : Settings} {s : Scheduler τ}
    {actions : List (Action τ)} (hcreate : Scheduler.create mode settings = .ok s)
    (hrun : run { scheduler := s } actions = some x)
    (hspares : ∀ w, .pool (.complete w .fatal) ∉ actions) :
    x.rounds.flatten = (x.verdicts.filter fun v => v.2 = .fire).map Prod.fst ∧
    (∀ d ∈ x.starts, (d.id, some d.task) ∈ x.roster) ∧
    (∀ id, x.starts.countP (fun d => d.id = id) ≤ x.verdicts.count (id, .fire)) ∧
    (x.starts ++ x.waiting).Perm (x.rounds.flatten.filterMap (dispatchOf x.roster)) ∧
    (x.isQuiet = true →
      (∀ id task, (id, some task) ∈ x.roster →
        x.starts.countP (fun d => d.id = id) = x.rounds.flatten.count id) ∧
      ∀ id, (id, none) ∈ x.roster → x.starts.countP (fun d => d.id = id) = 0) ∧
    (settings.workers = 1 →
      x.starts ++ x.waiting = x.rounds.flatten.filterMap (dispatchOf x.roster) ∧
      (x.isQuiet = true → x.starts = x.rounds.flatten.filterMap (dispatchOf x.roster))) := by
  have haccount := accounted_of_run (accounted_of_create hcreate) hrun hspares
  have hquiet : x.isQuiet = true → x.starts.Perm x.handed := fun hquiet => by
    simpa [haccount.waiting_of_quiet hquiet] using haccount.perm
  refine ⟨haccount.verdicts, fun d => haccount.mem_roster, haccount.countP_starts_le,
    haccount.perm, fun hq => ⟨fun id task hmem => ?_, fun id hmem => ?_⟩, fun hone => ?_⟩
  · rw [(hquiet hq).countP_eq]
    exact count_dispatches (lookup_of_mem haccount.roster.nodup hmem) _
  · rw [(hquiet hq).countP_eq]
    exact count_dispatches_of_empty (lookup_of_mem haccount.roster.nodup hmem) _
  · rw [hone] at haccount
    have horder : x.starts ++ x.waiting = x.handed := haccount.inOrder
    refine ⟨horder, fun hq => ?_⟩
    rwa [haccount.waiting_of_quiet hq, List.append_nil] at horder

/-- A callback cancels a timer and then fails, and the worker has not yet reported it when the next
tick is made. Another timer has an empty task. -/
theorem callbacks_mirror_dispatches_amid_uses :
    ∃ (s : Scheduler Nat) (actions : List (Action Nat)) (x : Service Nat),
      Scheduler.create .offline { workers := 1, levels := [⟨4, 10, "fine"⟩] } = .ok s ∧
      run { scheduler := s } actions = some x ∧
      x.verdicts = [(⟨1⟩, .fire), (⟨2⟩, .fire), (⟨3⟩, .drop), (⟨1⟩, .fire)] ∧
      x.rounds = [[⟨1⟩, ⟨2⟩], [⟨1⟩]] ∧
      x.starts = [⟨⟨1⟩, 7⟩, ⟨⟨1⟩, 7⟩] := by
  let actions : List (Action Nat) :=
    [.use 0 (.call (.createEvery 10 (some 7))), .use 0 (.call (.createAt 10 none)),
      .use 0 (.call (.createAt 20 (some 8))), .use 0 (.call .start), .use 0 (.call .tick), .hand,
      .pool (.announce 0), .pool (.send 0), .pool (.receive 0), .pool (.begin 0),
      .use 0 (.call (.cancel ⟨3⟩)), .pool (.complete 0 .failed), .use 0 (.call .tick),
      .pool (.report 0), .hand, .pool (.announce 0), .pool (.send 0), .pool (.receive 0),
      .pool (.begin 0), .pool (.complete 0 .returned), .pool (.report 0)]
  let s : Scheduler Nat :=
    { workers := 1, tickInterval := none, clock := .manual 0,
      agenda := { phase := .configured, wheel := { levels := [.ofSpec ⟨4, 10, "fine"⟩] } } }
  let x : Service Nat :=
    { scheduler :=
        { s with
          clock := .manual 20
          agenda :=
            { phase := .running, nextId := 4, live := [⟨1⟩]
              wheel := { levels := [
                { slotCount := 4, width := 10, name := "fine", cursor := 2,
                  slots := #[[], [], [], [.every ⟨1⟩ 30 10 (some 7)]] }] } }
          pool := some (.ofSize 1) }
      roster := [(⟨1⟩, some 7), (⟨2⟩, none), (⟨3⟩, some 8)]
      verdicts := [(⟨1⟩, .fire), (⟨2⟩, .fire), (⟨3⟩, .drop), (⟨1⟩, .fire)]
      rounds := [[⟨1⟩, ⟨2⟩], [⟨1⟩]]
      starts := [⟨⟨1⟩, 7⟩, ⟨⟨1⟩, 7⟩] }
  have hcreate : Scheduler.create .offline
      { workers := 1, levels := [⟨4, 10, "fine"⟩] } = .ok s := by decide +kernel
  have hrun : run { scheduler := s } actions = some x := by decide +kernel
  have hspares : ∀ w, .pool (.complete w .fatal) ∉ actions := by simp [actions]
  obtain ⟨-, -, -, -, -, hone⟩ := callbacks_mirror_dispatches hcreate hrun hspares
  exact ⟨s, actions, x, hcreate, hrun, rfl, rfl, (hone rfl).2 rfl⟩
end TimingWheel.Service
