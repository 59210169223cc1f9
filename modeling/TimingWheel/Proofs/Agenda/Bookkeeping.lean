import TimingWheel.Proofs.Agenda.Settlement
import TimingWheel.Proofs.Wheel.Turn

/-!
# The books of an agenda

An agenda keeps its timers in the wheel and their handles in three tables. The books are in
order if the pending handles are exactly those of the timers held, none twice, and if every
request is about a pending timer. During a tick some timers are held by neither: the wheel has
yielded them and they are not settled yet. They are the tick's hand, and count as held.

## Main definitions

- `Agenda.Balanced` — the books are in order, with the given timers in hand

## Main statements

- `Agenda.balanced_settle` — carrying a verdict out clears one timer from the hand
- `Agenda.balanced_append`, `Agenda.balanced_register`, `Agenda.balanced_requestReset`,
  `Agenda.balanced_requestCancel`, `Agenda.balanced_tick` — every operation keeps the books
- `Agenda.fired_tick`, `Agenda.mem_live_tick`, `Agenda.mem_cancels_tick`,
  `Agenda.resetOf_tick`, `Agenda.timers_tick` — what a tick does, while the books are in order
- `Agenda.stays_tick`, `Agenda.moved_tick` — what it does with a timer that it does not yield, and
  with one that is to have another due time
-/

namespace TimingWheel.Agenda

variable {τ : Type}

/-- The books are in order while the timers of `hand` have been yielded by the wheel and are
not settled yet. -/
structure Balanced (hand : List (Timer τ)) (a : Agenda τ) : Prop where
  settled : Wheel.Settled a.wheel.levels
  /-- Without levels there is nothing to hold a timer, and none is accepted. -/
  bare : a.wheel.levels = [] → a.phase = .unconfigured ∧ hand = []
  live_nodup : a.live.Nodup
  /-- The pending timers are those in hand and those in the wheel. -/
  live_perm : a.live.Perm ((hand ++ a.wheel.timers).map (·.id))
  cancels_live : ∀ id ∈ a.cancels, id ∈ a.live
  resets_live : ∀ r ∈ a.resets, r.1 ∈ a.live
  live_range : ∀ id ∈ a.live, 1 ≤ id.value ∧ id.value < a.nextId
  nextId_pos : 1 ≤ a.nextId

theorem balanced_empty : Balanced [] ({} : Agenda τ) where
  settled := fun _ hl => absurd hl List.not_mem_nil
  bare := fun _ => ⟨rfl, rfl⟩
  live_nodup := List.nodup_nil
  live_perm := List.Perm.refl _
  cancels_live := fun _ hid => absurd hid List.not_mem_nil
  resets_live := fun _ hr => absurd hr List.not_mem_nil
  live_range := fun _ hid => absurd hid List.not_mem_nil
  nextId_pos := Nat.le_refl 1

namespace Balanced

variable {hand : List (Timer τ)} {a : Agenda τ}

theorem ids_nodup (h : Balanced hand a) : ((hand ++ a.wheel.timers).map (·.id)).Nodup :=
  h.live_perm.nodup h.live_nodup

theorem mem_live_iff (h : Balanced hand a) {id : TimerId} :
    id ∈ a.live ↔ ∃ t, (t ∈ hand ∨ t ∈ a.wheel.timers) ∧ t.id = id := by
  rw [h.live_perm.mem_iff, List.mem_map]
  simp only [List.mem_append]

theorem nextId_fresh (h : Balanced hand a) : (⟨a.nextId⟩ : TimerId) ∉ a.live :=
  fun hid => Nat.lt_irrefl _ (h.live_range _ hid).2

/-- No timer is pending until the first one is accepted. -/
theorem not_mem_live_of_new (h : Balanced hand a) (hnew : a.nextId = 1) (id : TimerId) :
    id ∉ a.live := by
  intro hid
  have hrange := h.live_range id hid
  omega

theorem timers_eq_nil (h : Balanced hand a) (hnew : a.nextId = 1) : a.wheel.timers = [] :=
  List.eq_nil_iff_forall_not_mem.2 fun t ht =>
    h.not_mem_live_of_new hnew t.id (h.mem_live_iff.2 ⟨t, Or.inr ht, rfl⟩)

theorem resetOf_eq_none (h : Balanced hand a) {id : TimerId} (hid : id ∉ a.live) :
    a.resetOf id = none := by
  rw [resetOf_eq_none_iff]
  rintro r hr rfl
  exact hid (h.resets_live r hr)

end Balanced

/-! ### Operations between ticks -/

/-- A level is appended only before the first tick, and only if it can be made. -/
theorem eq_of_append {a a' : Agenda τ} {spec : LevelSpec} (h : a.append spec = .ok a') :
    spec.Valid ∧ (a.phase = .unconfigured ∨ a.phase = .configured) ∧
      a' = { a with wheel := ⟨a.wheel.levels ++ [Level.ofSpec spec]⟩, phase := .configured } := by
  rw [append, Wheel.append] at h
  by_cases hspec : spec.Valid
  · rw [if_pos hspec] at h
    cases hphase : a.phase with
    | unconfigured =>
      simp only [hphase, Except.ok.injEq] at h
      exact ⟨hspec, Or.inl rfl, h.symm⟩
    | configured =>
      simp only [hphase, Except.ok.injEq] at h
      exact ⟨hspec, Or.inr rfl, h.symm⟩
    | running => simp [hphase] at h
    | stopped => simp [hphase] at h
  · rw [if_neg hspec] at h
    cases hphase : a.phase <;> simp [hphase] at h

theorem balanced_append {a a' : Agenda τ} {spec : LevelSpec} (h : Balanced [] a)
    (happend : a.append spec = .ok a') : Balanced [] a' := by
  obtain ⟨hspec, -, rfl⟩ := eq_of_append happend
  have htimers : (⟨a.wheel.levels ++ [Level.ofSpec spec]⟩ : Wheel τ).timers = a.wheel.timers := by
    simp [Wheel.timers_eq]
  exact { h with
    settled := Wheel.settled_concat h.settled hspec
    bare := fun hnil => absurd hnil (by simp)
    live_perm := by rw [htimers]; exact h.live_perm }

theorem Balanced.levels_ne_nil {hand : List (Timer τ)} {a : Agenda τ} (h : Balanced hand a)
    (haccepts : a.phase.acceptsTimers = true) : a.wheel.levels ≠ [] := by
  intro hnil
  rw [(h.bare hnil).1] at haccepts
  cases haccepts

/-- A timer that is accepted joins those in the wheel. -/
theorem Balanced.timers_insert {hand : List (Timer τ)} {a : Agenda τ} (h : Balanced hand a)
    (haccepts : a.phase.acceptsTimers = true) (t : Timer τ) (now : Int) :
    (a.wheel.insert t now).timers.Perm (t :: a.wheel.timers) :=
  Wheel.timersIn_place h.settled.wellFormed (h.levels_ne_nil haccepts) t now

theorem register_of_accepts {a : Agenda τ} (haccepts : a.phase.acceptsTimers = true)
    (make : TimerId → Timer τ) (now : Int) :
    a.register make now = (⟨a.nextId⟩, { a with
      nextId := a.nextId + 1
      live := ⟨a.nextId⟩ :: a.live
      wheel := a.wheel.insert (make ⟨a.nextId⟩) now }) := if_pos haccepts

theorem register_of_refuses {a : Agenda τ} (hrefuses : a.phase.acceptsTimers = false)
    (make : TimerId → Timer τ) (now : Int) : a.register make now = (.invalid, a) :=
  if_neg (by rw [hrefuses]; exact Bool.false_ne_true)

theorem balanced_register {a : Agenda τ} (h : Balanced [] a) {make : TimerId → Timer τ}
    (hmake : ∀ id, (make id).id = id) (now : Int) : Balanced [] (a.register make now).2 := by
  cases haccepts : a.phase.acceptsTimers with
  | false => rw [register_of_refuses haccepts]; exact h
  | true =>
    rw [register_of_accepts haccepts]
    have hne := h.levels_ne_nil haccepts
    have htimers := h.timers_insert haccepts (make ⟨a.nextId⟩) now
    exact {
      settled := Wheel.settled_place h.settled _ now
      bare := fun hnil => absurd hnil (Wheel.ne_nil_of_specsOf_eq (Wheel.specsOf_place _ now _) hne)
      live_nodup := List.nodup_cons.2 ⟨h.nextId_fresh, h.live_nodup⟩
      live_perm := by
        refine List.Perm.trans ?_ (htimers.map (·.id)).symm
        rw [List.map_cons, hmake]
        exact h.live_perm.cons _
      cancels_live := fun id hid => List.mem_cons_of_mem _ (h.cancels_live id hid)
      resets_live := fun r hr => List.mem_cons_of_mem _ (h.resets_live r hr)
      live_range := by
        refine List.forall_mem_cons.2 ⟨⟨h.nextId_pos, Nat.lt_succ_self _⟩, ?_⟩
        intro id hid
        exact ⟨(h.live_range id hid).1, Nat.lt_succ_of_lt (h.live_range id hid).2⟩
      nextId_pos := Nat.le_succ_of_le h.nextId_pos }

/-- A change of phase has no bearing on the books, as long as timers are only accepted once
there are levels. -/
theorem balanced_enter {a : Agenda τ} (h : Balanced [] a) (hne : a.phase ≠ .unconfigured)
    (phase : Phase) : Balanced [] { a with phase } :=
  { h with bare := fun hnil => absurd (h.bare hnil).1 hne }

theorem balanced_requestReset {a : Agenda τ} (h : Balanced [] a) (id : TimerId) (due : Int) :
    Balanced [] (a.requestReset id due) := by
  rw [requestReset, isPending]
  split
  next hlive =>
    refine { h with resets_live := ?_ }
    refine List.forall_mem_cons.2 ⟨of_decide_eq_true hlive, ?_⟩
    intro r hr
    exact h.resets_live r (List.mem_filter.1 hr).1
  next => exact h

theorem balanced_requestCancel {a : Agenda τ} (h : Balanced [] a) (id : TimerId) :
    Balanced [] (a.requestCancel id) := by
  rw [requestCancel, isPending]
  split
  next hlive =>
    refine { h with cancels_live := ?_ }
    have hid := of_decide_eq_true (Bool.and_eq_true_iff.1 hlive).1
    exact List.forall_mem_cons.2 ⟨hid, h.cancels_live⟩
  next => exact h

/-! ### Ticks -/

/-- A timer that goes back leaves the hand for the wheel. -/
theorem balanced_putBack {t u : Timer τ} {rest : List (Timer τ)} {a : Agenda τ}
    (h : Balanced (t :: rest) a) (hid : u.id = t.id) (now : Int) :
    Balanced rest (a.putBack now u) := by
  have hne : a.wheel.levels ≠ [] := fun hnil => absurd (h.bare hnil).2 (by simp)
  have htimers := Wheel.timersIn_place h.settled.wellFormed hne u now
  exact { h with
    settled := Wheel.settled_place h.settled u now
    bare := fun hnil => absurd hnil (Wheel.ne_nil_of_specsOf_eq (Wheel.specsOf_place u now _) hne)
    live_perm := by
      refine h.live_perm.trans (List.Perm.trans ?_ ((htimers.append_left rest).map (·.id)).symm)
      rw [List.map_append, List.map_append, List.map_cons, List.map_cons, hid]
      exact List.perm_middle.symm }

theorem balanced_clearReset {hand : List (Timer τ)} {a : Agenda τ} (h : Balanced hand a)
    (id : TimerId) : Balanced hand (a.clearReset id) :=
  { h with resets_live := fun r hr => h.resets_live r (List.mem_filter.1 hr).1 }

theorem balanced_clearCancel {hand : List (Timer τ)} {a : Agenda τ} (h : Balanced hand a)
    (id : TimerId) : Balanced hand (a.clearCancel id) :=
  { h with cancels_live := fun id' hid => h.cancels_live id' (List.mem_filter.1 hid).1 }

/-- A timer about which nothing is noted any more can be let go of. -/
theorem balanced_forget {t : Timer τ} {rest : List (Timer τ)} {a : Agenda τ}
    (h : Balanced (t :: rest) a) (hcancel : t.id ∉ a.cancels) (hreset : a.resetOf t.id = none) :
    Balanced rest (a.forget t.id) := by
  -- No other timer is let go of along with it.
  have hfirst : t.id ∉ (rest ++ a.wheel.timers).map (·.id) := by
    have hids := h.ids_nodup
    rw [List.cons_append, List.map_cons] at hids
    exact (List.nodup_cons.1 hids).1
  have hrest : ((rest ++ a.wheel.timers).map (·.id)).filter (· != t.id) =
      (rest ++ a.wheel.timers).map (·.id) := by
    refine List.filter_eq_self.2 fun id hid => bne_iff_ne.2 ?_
    rintro rfl
    exact hfirst hid
  have hkept : ∀ id ∈ a.live, id ≠ t.id → id ∈ (a.forget t.id).live := by
    intro id hid hne
    exact List.mem_filter.2 ⟨hid, bne_iff_ne.2 hne⟩
  exact { h with
    bare := fun hnil => absurd (h.bare hnil).2 (by simp)
    live_nodup := h.live_nodup.filter _
    live_perm := by
      refine (h.live_perm.filter _).trans ?_
      rw [List.cons_append, List.map_cons, List.filter_cons_of_neg (by simp), hrest]
      exact List.Perm.refl _
    cancels_live := fun id hid => hkept id (h.cancels_live id hid) fun heq => hcancel (heq ▸ hid)
    resets_live := fun r hr =>
      hkept r.1 (h.resets_live r hr) (resetOf_eq_none_iff.1 hreset r hr)
    live_range := fun id hid => h.live_range id (List.mem_filter.1 hid).1 }

/-- Carrying the verdict on a timer out clears it from the hand. -/
theorem balanced_settle {t : Timer τ} {rest : List (Timer τ)} {a : Agenda τ}
    (h : Balanced (t :: rest) a) (now : Int) :
    Balanced rest (a.settle now t (a.verdict now t)) := by
  rcases verdict_cases now t a with ⟨due, -, hv⟩ | ⟨hreset, -, hv⟩ | ⟨-, -, -, hv⟩ |
    ⟨hreset, hcancel, -, hv⟩
  · rw [hv]
    exact balanced_putBack (balanced_clearReset h t.id) (Timer.id_reset due t) now
  · -- The cancellation goes before the timer does.
    rw [hv]
    refine balanced_forget (balanced_clearCancel h t.id) ?_ hreset
    intro hid
    exact absurd (List.mem_filter.1 hid).2 (by simp)
  · rw [hv]
    exact balanced_putBack h rfl now
  · rw [hv]
    simp only [settle]
    split
    · exact balanced_putBack h (Timer.id_renew t) now
    · exact balanced_forget h hcancel hreset

theorem balanced_settleAll {hand : List (Timer τ)} {a : Agenda τ} (h : Balanced hand a)
    (now : Int) : Balanced [] (settleAll now hand a).2 := by
  induction hand generalizing a with
  | nil => exact h
  | cons t rest ih => exact ih (balanced_settle h now)

/-- After the wheel has moved on, what it yielded is in hand. -/
theorem balanced_yielded {a : Agenda τ} (h : Balanced [] a) (now : Int) :
    Balanced (a.wheel.tick now).1 { a with wheel := (a.wheel.tick now).2 } := by
  have hturn := Wheel.tick_eq_turn now a.wheel
  exact { h with
    settled := by rw [hturn]; exact Wheel.settled_turn h.settled now
    bare := by
      -- A tick does not make the levels vanish.
      rw [hturn]
      intro hnil
      have hbare : a.wheel.levels = [] := by
        by_contra hne
        exact Wheel.ne_nil_of_specsOf_eq (Wheel.specsOf_turn now a.wheel.levels) hne hnil
      exact ⟨(h.bare hbare).1, by rw [hbare]; rfl⟩
    live_perm :=
      h.live_perm.trans ((Wheel.timers_tick h.settled.wellFormed now).map (·.id)).symm }

theorem balanced_tick {a : Agenda τ} (h : Balanced [] a) (now : Int) :
    Balanced [] (a.tick now).2 := balanced_settleAll (balanced_yielded h now) now

/-! ### What a tick does -/

/-- The timers that the wheel yields at a tick. -/
def yielded (now : Int) (a : Agenda τ) : List (Timer τ) := (a.wheel.tick now).1

/-- The timers that stay in the wheel when it yields some at a tick. -/
def unreached (now : Int) (a : Agenda τ) : List (Timer τ) := (a.wheel.tick now).2.timers

section

variable {a : Agenda τ} (h : Balanced [] a) (now : Int)

include h

theorem yielded_perm : (a.yielded now ++ a.unreached now).Perm a.wheel.timers :=
  Wheel.timers_tick h.settled.wellFormed now

theorem yielded_ids_nodup : ((a.yielded now).map (·.id)).Nodup := by
  have hids := (balanced_yielded h now).ids_nodup
  rw [List.map_append] at hids
  exact (List.nodup_append.1 hids).1

theorem yielded_inj {now : Int} {t u : Timer τ} (ht : t ∈ a.yielded now) (hu : u ∈ a.yielded now)
    (hid : t.id = u.id) : t = u :=
  List.inj_on_of_nodup_map (yielded_ids_nodup h now) ht hu hid

theorem mem_timers_iff_yielded {t : Timer τ} :
    t ∈ a.wheel.timers ↔ t ∈ a.yielded now ∨ t ∈ a.unreached now := by
  rw [← (yielded_perm h now).mem_iff, List.mem_append]

theorem id_ne_of_unreached {t u : Timer τ} (ht : t ∈ a.yielded now) (hu : u ∈ a.unreached now) :
    t.id ≠ u.id := by
  have hids := (balanced_yielded h now).ids_nodup
  rw [List.map_append] at hids
  exact (List.nodup_append.1 hids).2.2 _ (List.mem_map_of_mem ht) _ (List.mem_map_of_mem hu)

theorem yielded_live {t : Timer τ} (ht : t ∈ a.yielded now) : t.id ∈ a.live :=
  h.mem_live_iff.2 ⟨t, Or.inr ((mem_timers_iff_yielded h now).2 (Or.inl ht)), rfl⟩

/-- The verdicts of a tick are those that the agenda gives before it. -/
theorem outlook_eq_map :
    a.outlook now = (a.yielded now).map fun t => (t.id, a.verdict now t) :=
  verdictAll_eq_map (yielded_ids_nodup h now) now { a with wheel := (a.wheel.tick now).2 }

/-- A tick fires the timers that are yielded, due, and not asked about. -/
theorem fired_tick :
    (a.tick now).1 = (a.yielded now).filter fun t => a.verdict now t = .fire :=
  fired_settleAll (yielded_ids_nodup h now) now { a with wheel := (a.wheel.tick now).2 }

theorem fired_ids_nodup : ((a.tick now).1.map (·.id)).Nodup := by
  rw [fired_tick h now]
  exact (yielded_ids_nodup h now).sublist (List.filter_sublist.map _)

/-- A timer that is yielded is answered once if it fires, and not at all otherwise. -/
theorem count_fired_of_yielded {t : Timer τ} (ht : t ∈ a.yielded now) :
    ((a.tick now).1.map (·.id)).count t.id = if a.verdict now t = .fire then 1 else 0 := by
  have hmem : t.id ∈ (a.tick now).1.map (·.id) ↔ a.verdict now t = .fire := by
    rw [fired_tick h now]
    constructor
    · intro hid
      obtain ⟨u, hu, heq⟩ := List.mem_map.1 hid
      obtain ⟨hyielded, hfire⟩ := List.mem_filter.1 hu
      rw [← yielded_inj h hyielded ht heq]
      exact of_decide_eq_true hfire
    · intro hfire
      exact List.mem_map_of_mem (List.mem_filter.2 ⟨ht, decide_eq_true hfire⟩)
  rw [(fired_ids_nodup h now).count]
  simp only [hmem]

theorem count_fired_of_not_yielded {id : TimerId} (hid : id ∉ (a.yielded now).map (·.id)) :
    ((a.tick now).1.map (·.id)).count id = 0 := by
  rw [List.count_eq_zero, fired_tick h now]
  exact fun hmem => hid ((List.filter_sublist.map _).subset hmem)

theorem mem_live_tick (id : TimerId) :
    id ∈ (a.tick now).2.live ↔
      id ∈ a.live ∧ ∀ t ∈ a.yielded now, t.id = id → ((a.verdict now t).outcome t).isSome :=
  mem_live_settleAll (yielded_ids_nodup h now) now { a with wheel := (a.wheel.tick now).2 } id

theorem mem_cancels_tick (id : TimerId) :
    id ∈ (a.tick now).2.cancels ↔
      id ∈ a.cancels ∧ ∀ t ∈ a.yielded now, t.id = id → a.verdict now t ≠ .drop :=
  mem_cancels_settleAll (yielded_ids_nodup h now) now { a with wheel := (a.wheel.tick now).2 } id

/-- After a tick the wheel holds what it did not yield and what went back. -/
theorem timers_tick :
    (a.tick now).2.wheel.timers.Perm
      ((a.yielded now).filterMap (fun t => (a.verdict now t).outcome t) ++ a.unreached now) := by
  have hyielded := balanced_yielded h now
  by_cases hne : (a.wheel.tick now).2.levels = []
  · have hhand : (a.wheel.tick now).1 = [] := (hyielded.bare hne).2
    simp only [tick, yielded, unreached, hhand, settleAll, List.filterMap_nil, List.nil_append]
    exact List.Perm.refl _
  · exact timers_settleAll (yielded_ids_nodup h now) now hyielded.settled.wellFormed hne

theorem levels_tick :
    (a.tick now).2.wheel.levels =
      Wheel.placeAll ((a.yielded now).filterMap fun t => (a.verdict now t).outcome t) now
        (a.wheel.tick now).2.levels :=
  levels_settleAll_eq (yielded_ids_nodup h now) now { a with wheel := (a.wheel.tick now).2 }

end

theorem resetOf_tick (a : Agenda τ) (now : Int) (id : TimerId) :
    (a.tick now).2.resetOf id =
      if id ∈ (a.yielded now).map (·.id) then none else a.resetOf id :=
  resetOf_settleAll (a.yielded now) now { a with wheel := (a.wheel.tick now).2 } id

/-- A tick leaves a timer that it does not yield alone, with all that is noted about it. -/
theorem stays_tick {a : Agenda τ} (h : Balanced [] a) {now : Int} {t : Timer τ}
    (ht : t ∈ a.unreached now) :
    t ∈ (a.tick now).2.wheel.timers ∧ (a.tick now).2.resetOf t.id = a.resetOf t.id ∧
      (t.id ∈ (a.tick now).2.cancels ↔ t.id ∈ a.cancels) ∧
        ((a.tick now).1.map (·.id)).count t.id = 0 := by
  have hother : ∀ u ∈ a.yielded now, u.id ≠ t.id := fun u hu => id_ne_of_unreached h now hu ht
  have hid : t.id ∉ (a.yielded now).map (·.id) := by
    rintro hmem
    obtain ⟨u, hu, heq⟩ := List.mem_map.1 hmem
    exact hother u hu heq
  refine ⟨(timers_tick h now).mem_iff.2 (List.mem_append_right _ ht), ?_, ?_,
    count_fired_of_not_yielded h now hid⟩
  · rw [resetOf_tick, if_neg hid]
  · rw [mem_cancels_tick h]
    exact ⟨And.left, fun hnoted => ⟨hnoted, fun u hu heq => absurd heq (hother u hu)⟩⟩

/-- A tick gives a timer that it yields the due time asked for, and does not fire it. A noted
cancellation stays noted. -/
theorem moved_tick {a : Agenda τ} (h : Balanced [] a) {now : Int} {t : Timer τ}
    (ht : t ∈ a.yielded now) {due : Int} (hreset : a.resetOf t.id = some due) :
    t.reset due ∈ (a.tick now).2.wheel.timers ∧ (a.tick now).2.resetOf t.id = none ∧
      (t.id ∈ (a.tick now).2.cancels ↔ t.id ∈ a.cancels) ∧
        ((a.tick now).1.map (·.id)).count t.id = 0 := by
  have hv : a.verdict now t = .move due := by
    rw [verdict]
    rw [hreset]
  refine ⟨?_, ?_, ?_, ?_⟩
  · rw [(timers_tick h now).mem_iff, List.mem_append]
    exact Or.inl (List.mem_filterMap.2 ⟨t, ht, by rw [hv]; rfl⟩)
  · rw [resetOf_tick, if_pos (List.mem_map_of_mem ht)]
  · rw [mem_cancels_tick h]
    refine ⟨And.left, fun hnoted => ⟨hnoted, ?_⟩⟩
    intro u hu heq
    rw [yielded_inj h hu ht heq, hv]
    exact Verdict.noConfusion
  · rw [count_fired_of_yielded h now ht, hv]
    rfl

theorem specsOf_tick (a : Agenda τ) (now : Int) :
    Wheel.specsOf (a.tick now).2.wheel.levels = Wheel.specsOf a.wheel.levels :=
  (specsOf_settleAll _ now _).trans (Wheel.specsOf_tick now a.wheel)

end TimingWheel.Agenda
