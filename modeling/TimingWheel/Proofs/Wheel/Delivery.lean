import TimingWheel.Proofs.Wheel.Abreast
import TimingWheel.Proofs.Wheel.Timeline

/-!
# Timers come out on the exact tick

A matched wheel is ticked as its finest level asks for it. Take the timers that fall in by
themselves and in time, and of these the ones whose due times lie in the same slot of the finest
level, counted from the start. However many levels they come through and wherever the cursors were
when they fell in, they are where they would fall in just now, in the order in which they came, and
the tick that is made for that slot yields all of them. Whatever comes later goes to the next tick.
So these timers come out as they would from one queue that opens on that tick.

## Main definitions

- `Wheel.Timeline.Prompt` — an arrival that falls in by itself and in time
- `Wheel.Timeline.Gathers` — a timeline of arrivals for one slot only
- `Wheel.Timeline.waiting` — the timers for a slot that is still to come

## Main statements

- `Wheel.turn_of_slot` — a tick yields the timers of its slot, and no others
- `Wheel.Timeline.gathered`, `Wheel.Timeline.yielded_of_gathers` — timers of one slot come out as
  from a queue
- `Wheel.Timeline.delivered_on_the_tick` — each prompt timer comes out on its tick, and those of one
  slot in their order
-/

namespace TimingWheel.Wheel

variable {τ : Type}

/-! ### One tick -/

section

variable {grain wide ahead : Nat} {now n : Int} {ts : List (Timer τ)} {levels : List (Level τ)}

/-- Timers that fell into levels which hold nothing else, and which are due in slot `n` from here:
a tick yields all of them if that is the slot it is made for, or one that is over, and leaves all of
them where they would fall in if it is not. -/
theorem turn_of_slot (h : Settled levels) (hne : levels ≠ [])
    (hcovers : LevelSpec.Covers grain wide ahead (specsOf levels)) (hbare : timersIn levels = [])
    (hleast : Time.least ≤ now) (hslot : ∀ t ∈ ts, (t.due - now) / grain = n)
    (hfits : ∀ t ∈ ts, t.due + wide ≤ Time.greatest) (hnear : ∀ t ∈ ts, t.due ≤ now + ahead) :
    turn (now + grain) (placeAll ts now levels) =
      if n ≤ 1 then (ts, (turn (now + grain) levels).2)
      else ([], placeAll ts (now + grain) (turn (now + grain) levels).2) := by
  by_cases hsome : ts = []
  · subst hsome
    have hnone : turn (now + grain) levels = ([], (turn (now + grain) levels).2) :=
      Prod.ext (yielded_of_no_timer hbare _) rfl
    exact hnone.trans (ite_self _).symm
  obtain ⟨t, ht⟩ := List.exists_mem_of_ne_nil ts hsome
  obtain ⟨l, finer, rfl⟩ := List.exists_cons_of_ne_nil hne
  have hgrain := grain_pos_of_meshed h.wellFormed hcovers.toMeshed
  have hwide := hcovers.wide_le
  have hroom := hcovers.fits
  have hplaced : Settled (placeAll ts now (l :: finer)) := settled_placeAll h ts now
  have hspecs := specsOf_placeAll ts now (l :: finer)
  have hwaits : Waits (fun P m u => u ∈ ts → InStep grain now 1 P m u)
      (placeAll ts now (l :: finer)) :=
    waits_placeAll h.wellFormed (waits_of_no_timer hbare) fun u hu =>
      lands_of_covers h hcovers hleast (fun _ => hfits u hu) fun _ => hnear u hu
  obtain ⟨hkept, hyielded⟩ := inStep_turn hplaced (hspecs ▸ hcovers.toMeshed) (by omega) (by omega)
    hfits hwaits
  have hsame : ∀ u ∈ ts, (u.due - now) / grain = (t.due - now) / grain := fun u hu =>
    (hslot u hu).trans (hslot t ht).symm
  rcases together_turn_of_covers hsame h hcovers hbare hleast hfits hnear (hnear t ht) with
    hout | hstay
  · -- What comes out has waited until its slot.
    rw [hout] at hyielded
    have hdue := due_lt_of_inStep (hyielded t ht ht)
    have hn : (t.due - now) / grain < 2 := Int.ediv_lt_of_lt_mul (by omega) (by omega)
    rw [hout, if_pos (by have := hslot t ht; omega)]
  · -- What stays has to wait for a slot to come.
    have hbareSettled := settled_turn h (now + grain)
    have hbareNe := ne_nil_of_specsOf_eq (specsOf_turn (now + grain) (l :: finer)) hne
    have hheld := timersIn_placeAll hbareSettled.wellFormed hbareNe ts (now + grain)
    rw [hstay] at hkept
    obtain ⟨P, m, hm, hstep⟩ := one_le_of_waits (settled_placeAll hbareSettled ts _) hkept t
      (hheld.symm.subset (List.mem_append_left _ ht))
    have hdue := le_due_of_inStep hm (hstep ht)
    have hn : 2 ≤ (t.due - now) / grain := by
      rw [Int.le_ediv_iff_mul_le (by omega)]
      omega
    rw [hstay, if_neg (by have := hslot t ht; omega)]

end

/-- What comes in by itself, with the same reading of the clock, falls in behind what did before. -/
theorem levels_receive {now : Int} {arrivals : List (Arrival τ)}
    (h : ∀ a ∈ arrivals, a.entry = none ∧ a.now = now) {w : Wheel τ} {ts : List (Timer τ)}
    {levels : List (Level τ)} (hw : w.levels = placeAll ts now levels) :
    (w.receive arrivals).levels = placeAll (ts ++ arrivals.map Arrival.timer) now levels := by
  induction arrivals generalizing w ts with
  | nil => rwa [List.map_nil, List.append_nil]
  | cons a arrivals ih =>
    obtain ⟨⟨hentry, hnow⟩, hrest⟩ := List.forall_mem_cons.1 h
    have hentered : (w.enter a).levels = placeAll (ts ++ [a.timer]) now levels := by
      rw [enter, hentry, placeAll_concat, ← hw, ← hnow]
      rfl
    rw [List.map_cons, List.append_cons]
    exact ih hrest hentered

namespace Timeline

/-! ### Timelines of matched wheels -/

/-- The wheel is matched, ticks are as far apart as the slots of the finest level are wide, and
there is room in the range of times for a turn and one slot more of the coarsest level. -/
structure Regular (c : Timeline τ) (coarse fine : LevelSpec) : Prop where
  valid : ∀ spec ∈ c.specs, spec.Valid
  matched : LevelSpec.Matched c.specs
  coarsest : c.specs.head? = some coarse
  finest : c.specs.getLast? = some fine
  step_eq : c.step = fine.width
  room : (((coarse.slotCount + 1) * coarse.width : Nat) : Int) ≤ Time.greatest
  least_le : Time.least ≤ c.start

/-- The arrival falls in by itself after `k` ticks, with the reading of the clock, and is due no
more than a turn of the coarsest level ahead. -/
structure Prompt (c : Timeline τ) (coarse : LevelSpec) (k : Nat) (a : Arrival τ) : Prop where
  entry : a.entry = none
  now_eq : a.now = c.reading k
  near : a.timer.due - a.now ≤ (coarse.slotCount * coarse.width : Nat)
  fits : a.timer.due + coarse.width ≤ Time.greatest

/-- The slot of the finest level in which a timer is due, counted from the start. -/
def slot (c : Timeline τ) (t : Timer τ) : Int := (t.due - c.start) / c.step

/-- All arrivals are prompt and are due in one slot. -/
structure Gathers (c : Timeline τ) (coarse : LevelSpec) (q : Int) : Prop where
  prompt : ∀ k, ∀ a ∈ c.arrivals k, c.Prompt coarse k a
  slot_eq : ∀ k, ∀ a ∈ c.arrivals k, c.slot a.timer = q

/-- The timers that wait for slot `q` after `k` ticks, if none is due in another slot. -/
def waiting (c : Timeline τ) (q : Int) (k : Nat) : List (Timer τ) :=
  if k < q then (List.range k).flatMap c.incoming else []

section

variable {c : Timeline τ} {coarse fine : LevelSpec} {q : Int}

theorem Regular.step_pos (h : c.Regular coarse fine) : 0 < c.step := by
  rw [h.step_eq]
  exact (h.valid _ (List.mem_of_getLast? h.finest)).2

theorem Regular.specs_ne_nil (h : c.Regular coarse fine) : c.specs ≠ [] :=
  List.ne_nil_of_mem (List.mem_of_head? h.coarsest)

theorem Regular.covers (h : c.Regular coarse fine) :
    LevelSpec.Covers c.step coarse.width coarse.span c.specs := by
  rw [h.step_eq]
  exact LevelSpec.covers_of_matched h.valid h.matched h.coarsest h.finest h.room

/-- Each tick brings a slot one nearer. -/
theorem Regular.slot_from (h : c.Regular coarse fine) (k : Nat) (t : Timer τ) :
    (t.due - c.reading k) / c.step = c.slot t - k := by
  have hne : (c.step : Int) ≠ 0 := Int.natCast_ne_zero.2 h.step_pos.ne'
  rw [reading, ← Int.sub_sub, Nat.cast_mul, Int.sub_mul_ediv_right _ _ hne, slot]

/-! ### Timers of one slot -/

theorem waiting_zero (c : Timeline τ) (q : Int) : c.waiting q 0 = [] := by
  rw [waiting]
  exact ite_self _

/-- After a tick the timers wait that waited and that have come in, if their slot is still to
come. -/
theorem waiting_succ (c : Timeline τ) (q : Int) (k : Nat) :
    c.waiting q (k + 1) = if q ≤ k + 1 then [] else c.waiting q k ++ c.incoming k := by
  rw [waiting, waiting]
  split
  next hlater =>
    rw [if_neg (by omega), if_pos (by omega), flatMap_range_succ]
  next hover => rw [if_pos (by omega)]

theorem exists_incoming_of_mem {k : Nat} {t : Timer τ} (h : t ∈ c.waiting q k ++ c.incoming k) :
    ∃ j ≤ k, t ∈ c.incoming j := by
  rcases List.mem_append.1 h with hwaits | hnew
  · rw [waiting] at hwaits
    split at hwaits
    · obtain ⟨j, hj, ht⟩ := List.mem_flatMap.1 hwaits
      exact ⟨j, (List.mem_range.1 hj).le, ht⟩
    · exact absurd hwaits List.not_mem_nil
  · exact ⟨k, Nat.le_refl k, hnew⟩

/-- What is still there on a tick is due in the slot, near enough, and fits. -/
theorem Gathers.of_mem (h : c.Gathers coarse q) {k : Nat} {t : Timer τ}
    (ht : t ∈ c.waiting q k ++ c.incoming k) :
    c.slot t = q ∧ t.due + coarse.width ≤ Time.greatest ∧ t.due ≤ c.reading k + coarse.span := by
  obtain ⟨j, hj, hin⟩ := exists_incoming_of_mem ht
  obtain ⟨a, ha, rfl⟩ := List.mem_map.1 hin
  obtain ⟨-, hnow, hnear, hfits⟩ := h.prompt j a ha
  have hmono := c.reading_mono hj
  refine ⟨h.slot_eq j a ha, hfits, ?_⟩
  rw [LevelSpec.span]
  omega

/-- A tick yields all that is there, or leaves it where it would fall in. -/
theorem turn_of_gathers (hregular : c.Regular coarse fine) (h : c.Gathers coarse q) {k : Nat}
    (hhome : (c.wheel k).levels =
      placeAll (c.waiting q k) (c.reading k) (clear (c.wheel k).levels)) :
    turn (c.reading (k + 1)) ((c.wheel k).receive (c.arrivals k)).levels =
      if q ≤ k + 1 then (c.waiting q k ++ c.incoming k, clear (c.wheel (k + 1)).levels)
      else ([], placeAll (c.waiting q k ++ c.incoming k) (c.reading (k + 1))
        (clear (c.wheel (k + 1)).levels)) := by
  have hsettled := settled_wheel hregular.valid k
  have hreceived := levels_receive (fun a ha => ⟨(h.prompt k a ha).entry, (h.prompt k a ha).now_eq⟩)
    hhome
  have hspecs : specsOf (clear (c.wheel k).levels) = c.specs :=
    (specsOf_clear _).trans (c.specsOf_wheel k)
  -- What the levels are after the tick, without their timers.
  have hbare : clear (c.wheel (k + 1)).levels =
      (turn (c.reading (k + 1)) (clear (c.wheel k).levels)).2 := by
    have hcleared := clear_turn (c.reading (k + 1)) ((c.wheel k).receive (c.arrivals k)).levels
    rw [hreceived, clear_placeAll, clear_of_no_timer (timersIn_clear _)] at hcleared
    rw [hcleared, wheel, tick_eq_turn, hreceived]
  have hslot : ∀ t ∈ c.waiting q k ++ c.incoming k, (t.due - c.reading k) / c.step = q - k :=
    fun t ht => by rw [hregular.slot_from, (h.of_mem ht).1]
  have hleast := hregular.least_le.trans (c.start_le_reading k)
  have hne := ne_nil_of_specsOf_eq (specsOf_clear _) (levels_ne_nil hregular.specs_ne_nil k)
  have hturn := turn_of_slot (settled_clear hsettled) hne (hspecs.symm ▸ hregular.covers)
    (timersIn_clear _) hleast hslot (fun t ht => (h.of_mem ht).2.1) fun t ht => (h.of_mem ht).2.2
  rw [hreceived, hbare, reading_succ]
  refine hturn.trans ?_
  by_cases hq : q ≤ k + 1
  · rw [if_pos hq, if_pos (by omega)]
  · rw [if_neg hq, if_neg (by omega)]

/-- After each tick, the timers that wait are where they would fall in just now. -/
theorem gathered (hregular : c.Regular coarse fine) (h : c.Gathers coarse q) (k : Nat) :
    (c.wheel k).levels = placeAll (c.waiting q k) (c.reading k) (clear (c.wheel k).levels) := by
  induction k with
  | zero =>
    have hempty : timersIn (c.wheel 0).levels = [] := timers_ofSpecs c.specs
    rw [waiting_zero, clear_of_no_timer hempty]
    rfl
  | succ k ih =>
    have hticked : (c.wheel (k + 1)).levels =
        (turn (c.reading (k + 1)) ((c.wheel k).receive (c.arrivals k)).levels).2 := by
      rw [wheel, tick_eq_turn]
    rw [turn_of_gathers hregular h ih] at hticked
    rw [waiting_succ]
    split at hticked
    next hq => rwa [if_pos hq]
    next hq => rwa [if_neg hq]

/-- The tick that is made for the slot yields all that has come in for it, and later ticks yield
what has come in since the tick before. -/
theorem yielded_of_gathers (hregular : c.Regular coarse fine) (h : c.Gathers coarse q) (k : Nat) :
    c.yielded (k + 1) = if q ≤ k + 1 then c.waiting q k ++ c.incoming k else [] := by
  rw [yielded, tick_eq_turn, turn_of_gathers hregular h (gathered hregular h k)]
  split
  · rfl
  · rfl

/-- All in all, nothing has come out until the tick that is made for the slot, and from then on
everything that has come in, in its order. -/
theorem delivered_of_gathers (hregular : c.Regular coarse fine) (h : c.Gathers coarse q) (k : Nat) :
    (List.range (k + 1)).flatMap c.yielded =
      if k < q then [] else (List.range k).flatMap c.incoming := by
  induction k with
  | zero => exact (ite_self _).symm
  | succ k ih =>
    rw [flatMap_range_succ, ih, yielded_of_gathers hregular h, waiting]
    by_cases hnow : k < q
    · rw [if_pos hnow, if_pos hnow, List.nil_append]
      by_cases hlater : (k + 1 : Nat) < q
      · rw [if_pos hlater, if_neg (by omega)]
      · rw [if_neg hlater, if_pos (by omega), flatMap_range_succ]
    · rw [if_neg hnow, if_neg hnow, if_pos (by omega), if_neg (by omega), flatMap_range_succ,
        List.nil_append]

/-- A timer that comes in once comes out on the tick that is made for its slot, or on the next one
if that is over. -/
theorem mem_yielded_of_gathers (hregular : c.Regular coarse fine) (h : c.Gathers coarse q) {k : Nat}
    {t : Timer τ} (ht : ∀ j, t ∈ c.incoming j ↔ j = k) (m : Nat) :
    t ∈ c.yielded m ↔ (m : Int) = max ((k : Int) + 1) q := by
  cases m with
  | zero =>
    refine iff_of_false List.not_mem_nil ?_
    omega
  | succ m =>
    have hbefore : t ∈ (List.range m).flatMap c.incoming ↔ k < m := by
      rw [List.mem_flatMap]
      constructor
      · rintro ⟨j, hj, hin⟩
        rw [← (ht j).1 hin]
        exact List.mem_range.1 hj
      · exact fun hk => ⟨k, List.mem_range.2 hk, (ht k).2 rfl⟩
    rw [yielded_of_gathers hregular h]
    by_cases hq : q ≤ m + 1
    · rw [if_pos hq, List.mem_append, ht, waiting]
      by_cases hwaits : m < q
      · rw [if_pos hwaits, hbefore]
        omega
      · rw [if_neg hwaits, or_iff_right List.not_mem_nil]
        omega
    · rw [if_neg hq]
      refine iff_of_false List.not_mem_nil ?_
      omega

end

/-! ### One slot among all -/

instance decidablePrompt (c : Timeline τ) (coarse : LevelSpec) (k : Nat) (a : Arrival τ) :
    Decidable (c.Prompt coarse k a) :=
  decidable_of_iff (a.entry = none ∧ a.now = c.reading k ∧
      a.timer.due - a.now ≤ (coarse.slotCount * coarse.width : Nat) ∧
      a.timer.due + coarse.width ≤ Time.greatest)
    ⟨fun ⟨hentry, hnow, hnear, hfits⟩ => ⟨hentry, hnow, hnear, hfits⟩,
      fun ⟨hentry, hnow, hnear, hfits⟩ => ⟨hentry, hnow, hnear, hfits⟩⟩

/-- The number belongs to a prompt arrival that is due in slot `q`. -/
def InSlot (c : Timeline τ) (coarse : LevelSpec) (q : Int) (r : Nat × Nat) : Prop :=
  ∃ a ∈ c.arrival? r, c.Prompt coarse r.1 a ∧ c.slot a.timer = q

instance decidableInSlot (c : Timeline τ) (coarse : LevelSpec) (q : Int) :
    DecidablePred (c.InSlot coarse q) := fun _ => inferInstanceAs (Decidable (∃ a ∈ _, _))

/-- Leaves the timers that have the number of a prompt arrival which is due in slot `q`. -/
def pick (c : Timeline τ) (coarse : LevelSpec) (q : Int) : Timer τ → Option (Timer τ) :=
  Option.guard fun t => c.InSlot coarse q (numberOf t)

/-- The prompt arrivals that are due in slot `q`, by themselves, under their numbers. -/
def gathering (c : Timeline τ) (coarse : LevelSpec) (q : Int) : Timeline τ :=
  c.numbered.project (c.pick coarse q)

section

variable {c : Timeline τ} {coarse fine : LevelSpec} {q : Int}

theorem keepsDue_pick (c : Timeline τ) (coarse : LevelSpec) (q : Int) :
    KeepsDue (c.pick coarse q) := by
  intro t u h
  rw [pick, Option.guard_eq_some_iff] at h
  rw [h.1]

theorem filterMap_pick (ts : List (Timer τ)) :
    ts.filterMap (c.pick coarse q) = ts.filter fun t => c.InSlot coarse q (numberOf t) :=
  congrFun List.filterMap_eq_filter ts

theorem gathers_gathering (c : Timeline τ) (coarse : LevelSpec) (q : Int) :
    (c.gathering coarse q).Gathers coarse q := by
  have harrivals (k : Nat) : ∀ b ∈ (c.gathering coarse q).arrivals k,
      (c.gathering coarse q).Prompt coarse k b ∧ (c.gathering coarse q).slot b.timer = q := by
    intro b hb
    obtain ⟨b', hb', hpicked⟩ := List.mem_filterMap.1 hb
    obtain ⟨⟨a, i⟩, hmem, rfl⟩ := List.mem_map.1 hb'
    obtain ⟨t, ht, rfl⟩ := Option.map_eq_some_iff.1 hpicked
    obtain ⟨rfl, hin⟩ := Option.guard_eq_some_iff.1 ht
    obtain ⟨a', ha', hprompt, hslot⟩ := of_decide_eq_true hin
    rw [numberOf_tag] at ha' hprompt
    have ha : c.arrival? (k, i) = some a := List.mk_mem_zipIdx_iff_getElem?.1 hmem
    obtain rfl := Option.some.inj (ha.symm.trans ha')
    exact ⟨⟨hprompt.entry, hprompt.now_eq, hprompt.near, hprompt.fits⟩, hslot⟩
  exact ⟨fun k b hb => (harrivals k b hb).1, fun k b hb => (harrivals k b hb).2⟩

theorem Regular.gathering (h : c.Regular coarse fine) (q : Int) :
    (c.gathering coarse q).Regular coarse fine :=
  ⟨h.valid, h.matched, h.coarsest, h.finest, h.step_eq, h.room, h.least_le⟩

theorem incoming_gathering (k : Nat) : (c.gathering coarse q).incoming k =
    (c.numbered.incoming k).filter fun t => c.InSlot coarse q (numberOf t) :=
  (incoming_project k).trans (filterMap_pick _)

theorem yielded_gathering (m : Nat) : (c.gathering coarse q).yielded m =
    (c.numbered.yielded m).filter fun t => c.InSlot coarse q (numberOf t) :=
  (yielded_project (keepsDue_pick c coarse q) m).trans (filterMap_pick _)

/-- A number is that of one arrival. -/
theorem eq_tag_of_number {r : Nat × Nat} {a : Arrival τ} (ha : c.arrival? r = some a)
    {k i : Nat} {b : Arrival τ} (hb : c.arrival? (k, i) = some b)
    (hr : numberOf (tag (k, i) b.timer) = r) : tag (k, i) b.timer = tag r a.timer ∧ k = r.1 := by
  rw [numberOf_tag] at hr
  subst hr
  obtain rfl := Option.some.inj (ha.symm.trans hb)
  exact ⟨rfl, rfl⟩

/-- Under its number, a prompt arrival is found once among those of its slot. -/
theorem mem_incoming_gathering {r : Nat × Nat} {a : Arrival τ} (ha : c.arrival? r = some a)
    (hin : c.InSlot coarse q r) (j : Nat) :
    tag r a.timer ∈ (c.gathering coarse q).incoming j ↔ j = r.1 := by
  rw [incoming_gathering, List.mem_filter, mem_incoming_numbered]
  constructor
  · rintro ⟨⟨i, b, hb, heq⟩, -⟩
    exact (eq_tag_of_number ha hb (by rw [← heq, numberOf_tag])).2
  · rintro rfl
    refine ⟨⟨r.2, a, ha, rfl⟩, decide_eq_true ?_⟩
    rwa [numberOf_tag]

/-- A prompt arrival comes out among all timers when it does among those of its slot. -/
theorem mem_numbers_iff_gathering (h : c.Regular coarse fine) {r : Nat × Nat} {a : Arrival τ}
    (ha : c.arrival? r = some a) (hin : c.InSlot coarse q r) (m : Nat) :
    r ∈ (c.numbered.yielded m).map numberOf ↔
      tag r a.timer ∈ (c.gathering coarse q).yielded m := by
  rw [yielded_gathering, List.mem_filter, List.mem_map]
  constructor
  · rintro ⟨t, ht, hr⟩
    obtain ⟨l, -, j, b, hb, rfl⟩ := exists_arrival_of_yielded h.valid h.specs_ne_nil ht
    rw [← (eq_tag_of_number ha hb hr).1]
    exact ⟨ht, decide_eq_true (hr.symm ▸ hin)⟩
  · exact fun ⟨ht, _⟩ => ⟨_, ht, numberOf_tag r a.timer⟩

/-- A tick yields a prompt arrival if it is the one made for its slot, or the next one after its
coming if that is over. -/
theorem mem_numbers_iff (h : c.Regular coarse fine) {k i : Nat} {a : Arrival τ}
    (ha : c.arrival? (k, i) = some a) (hprompt : c.Prompt coarse k a) (m : Nat) :
    (k, i) ∈ (c.numbered.yielded m).map numberOf ↔
      (m : Int) = k + max 1 ((a.timer.due - a.now) / fine.width) := by
  have hfrom := h.slot_from k a.timer
  rw [mem_numbers_iff_gathering h ha ⟨a, ha, hprompt, rfl⟩,
    mem_yielded_of_gathers (h.gathering _) (gathers_gathering c coarse _)
      (mem_incoming_gathering ha ⟨a, ha, hprompt, rfl⟩),
    hprompt.now_eq, ← h.step_eq, hfrom]
  omega

/-- Of two entries of a list in order, the earlier one comes first. -/
theorem pair_sublist {α : Type} {R : α → α → Prop} {l : List α} (h : l.Pairwise R) {x y : α}
    (hx : x ∈ l) (hy : y ∈ l) (hne : x ≠ y) (hnot : ¬R y x) : [x, y].Sublist l := by
  induction l with
  | nil => cases hx
  | cons z l ih =>
    obtain ⟨hz, hl⟩ := List.pairwise_cons.1 h
    rcases List.mem_cons.1 hx with rfl | hxl
    · rcases List.mem_cons.1 hy with rfl | hyl
      · exact absurd rfl hne
      · exact (List.singleton_sublist.2 hyl).cons_cons x
    · rcases List.mem_cons.1 hy with rfl | hyl
      · exact absurd (hz x hxl) hnot
      · exact (ih hl hxl hyl).cons z

/-- The arrivals for one slot come in in the order of their numbers. -/
theorem gathering_in_order (c : Timeline τ) (coarse : LevelSpec) (q : Int) (n : Nat) :
    ((List.range n).flatMap (c.gathering coarse q).incoming).Pairwise fun t u =>
      Earlier (numberOf t) (numberOf u) := by
  rw [funext (incoming_gathering (c := c)), ← List.filter_flatMap]
  exact (incoming_in_order c n).filter _

/-- Of two prompt arrivals for one slot, the earlier one has come in, and before, when the later
one has. -/
theorem pair_incoming {r s : Nat × Nat} {a b : Arrival τ} (ha : c.arrival? r = some a)
    (hb : c.arrival? s = some b) (hr : c.InSlot coarse q r) (hs : c.InSlot coarse q s)
    (hearlier : Earlier r s) {n : Nat}
    (hcame : tag s b.timer ∈ (List.range n).flatMap (c.gathering coarse q).incoming) :
    [tag r a.timer, tag s b.timer].Sublist
      ((List.range n).flatMap (c.gathering coarse q).incoming) := by
  obtain ⟨k, hk, hin⟩ := List.mem_flatMap.1 hcame
  obtain rfl := (mem_incoming_gathering hb hs k).1 hin
  have hbefore : r.1 < n := by
    have hk' := List.mem_range.1 hk
    rw [Earlier] at hearlier
    omega
  refine pair_sublist (gathering_in_order c coarse q n) ?_ hcame ?_ ?_
  · exact List.mem_flatMap.2 ⟨r.1, List.mem_range.2 hbefore,
      (mem_incoming_gathering ha hr r.1).2 rfl⟩
  · intro heq
    refine hearlier.ne ?_
    rw [← numberOf_tag r a.timer, heq, numberOf_tag]
  · rw [numberOf_tag, numberOf_tag]
    exact hearlier.asymm

/-- So it is with what has come out for the slot, which is nothing or all that came in for it. -/
theorem pair_delivered (h : c.Regular coarse fine) {r s : Nat × Nat} {a b : Arrival τ}
    (ha : c.arrival? r = some a) (hb : c.arrival? s = some b) (hr : c.InSlot coarse q r)
    (hs : c.InSlot coarse q s) (hearlier : Earlier r s) {n : Nat}
    (hcame : tag s b.timer ∈ (List.range n).flatMap (c.gathering coarse q).yielded) :
    [tag r a.timer, tag s b.timer].Sublist
      ((List.range n).flatMap (c.gathering coarse q).yielded) := by
  cases n with
  | zero => exact absurd hcame List.not_mem_nil
  | succ n =>
    rw [delivered_of_gathers (h.gathering q) (gathers_gathering c coarse q) n] at hcame ⊢
    split at hcame
    · exact absurd hcame List.not_mem_nil
    next hover =>
      rw [if_neg hover]
      exact pair_incoming ha hb hr hs hearlier hcame

/-- Of two prompt arrivals for one slot, the earlier one has come out, and before, when the later
one has. -/
theorem numbers_in_order (h : c.Regular coarse fine) {r s : Nat × Nat} (hr : c.InSlot coarse q r)
    (hs : c.InSlot coarse q s) (hearlier : Earlier r s) {n : Nat}
    (hout : s ∈ (List.range n).flatMap fun m => (c.numbered.yielded m).map numberOf) :
    [r, s].Sublist ((List.range n).flatMap fun m => (c.numbered.yielded m).map numberOf) := by
  obtain ⟨a, ha, -⟩ := id hr
  obtain ⟨b, hb, -⟩ := id hs
  obtain ⟨m, hm, hyielded⟩ := List.mem_flatMap.1 hout
  rw [mem_numbers_iff_gathering h hb hs] at hyielded
  have hpair := pair_delivered h ha hb hr hs hearlier (List.mem_flatMap.2 ⟨m, hm, hyielded⟩)
  have hamong : ((List.range n).flatMap (c.gathering coarse q).yielded).Sublist
      ((List.range n).flatMap c.numbered.yielded) := by
    rw [funext (yielded_gathering (c := c)), ← List.filter_flatMap]
    exact List.filter_sublist
  have hnumbers := (hpair.trans hamong).map numberOf
  rw [List.map_flatMap, List.map_cons, List.map_cons, numberOf_tag, numberOf_tag] at hnumbers
  exact hnumbers

/-- Take a matched wheel that is ticked as its finest level asks for it, while timers fall in
between the ticks, at any level and with any reading of the clock. What the ticks yield can be put
down to arrivals with the same records, and to none of them twice, so that the following holds of
each prompt arrival, which falls in by itself, with the reading of the clock, and is due no more
than a turn of the coarsest level ahead. It comes out as many ticks later as whole slots of the
finest level are left until it is due, or on the next tick if none is, and on no other tick. And of
two prompt arrivals that are due in the same slot, the earlier one comes out first. -/
theorem delivered_on_the_tick (h : c.Regular coarse fine) :
    ∃ came : Nat → List (Nat × Nat),
      (∀ m, (came m).map (fun r => (c.arrival? r).map Arrival.timer) = (c.yielded m).map some) ∧
      (∀ n, ((List.range n).flatMap came).Nodup) ∧
      (∀ k i a, c.arrival? (k, i) = some a → c.Prompt coarse k a → ∀ m,
        (k, i) ∈ came m ↔ (m : Int) = k + max 1 ((a.timer.due - a.now) / fine.width)) ∧
      (∀ r s a b, c.arrival? r = some a → c.Prompt coarse r.1 a → c.arrival? s = some b →
        c.Prompt coarse s.1 b → c.slot a.timer = c.slot b.timer → Earlier r s → ∀ n,
        s ∈ (List.range n).flatMap came → [r, s].Sublist ((List.range n).flatMap came)) := by
  refine ⟨fun m => (c.numbered.yielded m).map numberOf, ?_, ?_, ?_, ?_⟩
  · exact numbers_of_yielded h.valid h.specs_ne_nil
  · exact numbers_nodup h.valid h.specs_ne_nil
  · exact fun k i a ha hprompt m => mem_numbers_iff h ha hprompt m
  · exact fun r s a b ha hprompt hb hprompt' hslot hearlier n hout =>
      numbers_in_order h ⟨a, ha, hprompt, hslot⟩ ⟨b, hb, hprompt', rfl⟩ hearlier hout

/-- With two levels: a timer that is due at 65 falls in at the start, and one that is due at 61
after four ticks. Both are handed down on the tick at 60, which yields them in the order of their
coming, though behind a timer that was put into the finest level. -/
theorem delivered_on_the_tick_at_sixty : ∃ (c : Timeline Unit) (came : Nat → List (Nat × Nat)),
    c.arrival? (0, 0) = some ⟨.once ⟨1⟩ 65 none, 0, none⟩ ∧
    c.arrival? (4, 0) = some ⟨.once ⟨2⟩ 64 none, 40, some 1⟩ ∧
    c.arrival? (4, 1) = some ⟨.once ⟨3⟩ 61 none, 40, none⟩ ∧
    c.yielded 6 = [.once ⟨2⟩ 64 none, .once ⟨1⟩ 65 none, .once ⟨3⟩ 61 none] ∧
    (came 6).map (fun r => (c.arrival? r).map Arrival.timer) = (c.yielded 6).map some ∧
    (∀ m, (0, 0) ∈ came m ↔ m = 6) ∧ (∀ m, (4, 1) ∈ came m ↔ m = 6) ∧
    [(0, 0), (4, 1)].Sublist ((List.range 7).flatMap came) := by
  let c : Timeline Unit :=
    { specs := [⟨3, 30, "coarse"⟩, ⟨3, 10, "fine"⟩], start := 0, step := 10,
      arrivals := fun k => match k with
        | 0 => [⟨.once ⟨1⟩ 65 none, 0, none⟩]
        | 4 => [⟨.once ⟨2⟩ 64 none, 40, some 1⟩, ⟨.once ⟨3⟩ 61 none, 40, none⟩]
        | _ => [] }
  have hregular : c.Regular ⟨3, 30, "coarse"⟩ ⟨3, 10, "fine"⟩ :=
    ⟨by decide, ⟨rfl, trivial⟩, rfl, rfl, rfl, by decide, by decide⟩
  obtain ⟨came, hrecords, -, hticks, horder⟩ := delivered_on_the_tick hregular
  have hfirst (m : Nat) : (0, 0) ∈ came m ↔ m = 6 :=
    (hticks 0 0 _ rfl (by decide) m).trans Int.natCast_inj
  have hsecond (m : Nat) : (4, 1) ∈ came m ↔ m = 6 :=
    (hticks 4 1 _ rfl (by decide) m).trans Int.natCast_inj
  have hout : (4, 1) ∈ (List.range 7).flatMap came :=
    List.mem_flatMap.2 ⟨6, by decide, (hsecond 6).2 rfl⟩
  exact ⟨c, came, rfl, rfl, rfl, by decide, hrecords 6, hfirst, hsecond,
    horder (0, 0) (4, 1) _ _ rfl (by decide) rfl (by decide) (by decide) (.inl (by decide)) 7 hout⟩

end

end Timeline

end TimingWheel.Wheel
