import TimingWheel.Proofs.Wheel.Meshing
import TimingWheel.Proofs.Wheel.Projection

/-!
# Timers that are due together

Timers that are due in the same one of the ticks to come and fall in one after the other fall into
the same slot, in their order. Ticks move them on together. In a matched wheel that holds nothing
else, a tick of the right length yields all of them in their order, or else it leaves them just
where they would fall in after it. For the time that is left and the time that the cursors stand for
change alike: a level that stands still keeps the slot which it would give them, one that moves has
it one slot nearer, and where the slot is reached, they find their places in the finer levels as if
they came in then.

## Main definitions

- `Level.putAll` — timers are appended to one slot
- `Wheel.lead` — how far ahead a due time lies, told by the ticks that the cursors show
- `Wheel.Alongside` — timers that are due in the same one of the ticks to come
- `Wheel.handOut` — what a tick does once all of the levels have moved
- `Wheel.Together` — timers come out in their order, or stay where they would fall in

## Main statements

- `Wheel.placeAll_of_reaches`, `Wheel.placeAll_of_falls` — timers that are due together stay
  together as they fall in
- `Wheel.together_handOut`, `Wheel.together_turn` — and so they do in a tick
-/

namespace TimingWheel

variable {τ : Type}

/-! ### One slot -/

namespace Level

/-- Puts timers into a slot, behind those that are there. -/
def putAll (i : Nat) (ts : List (Timer τ)) (l : Level τ) : Level τ :=
  { l with slots := l.slots.modify i (· ++ ts) }

section

variable {l : Level τ} {i : Nat} {ts : List (Timer τ)}

@[simp] theorem putAll_nil : l.putAll i [] = l := by
  have hslots : l.slots.modify i (· ++ []) = l.slots :=
    Array.ext (by simp) fun j hj hj' => by
      rw [Array.getElem_modify]
      split <;> simp
  rw [putAll, hslots]

theorem putAll_put (t : Timer τ) : (l.put i t).putAll i ts = l.putAll i (t :: ts) := by
  simp only [putAll, put, Level.mk.injEq, true_and]
  refine Array.ext (by simp) fun j hj hj' => ?_
  simp only [Array.getElem_modify]
  split <;> simp

theorem slot_putAll (h : i < l.slots.size) (j : Nat) :
    (l.putAll i ts).slot j = if i = j then l.slot j ++ ts else l.slot j := by
  unfold putAll slot
  by_cases hij : i = j
  · subst hij
    simp [h, Array.getElem_modify]
  · simp [Array.getElem?_modify, hij]

/-- Whatever is put into the slot under the cursor goes as that slot is emptied. -/
theorem drain_putAll_cursor : (l.putAll l.cursor ts).drain = l.drain := by
  simp only [drain, putAll, Level.mk.injEq, true_and]
  refine Array.ext_getElem? fun j => ?_
  by_cases hcursor : l.cursor = j
  · simp [Array.getElem?_setIfInBounds, hcursor]
  · simp [Array.getElem?_setIfInBounds_ne hcursor, Array.getElem?_modify, hcursor]

theorem drain_putAll_of_ne (h : i ≠ l.cursor) : (l.putAll i ts).drain = l.drain.putAll i ts := by
  simp only [drain, putAll, Level.mk.injEq, true_and]
  refine Array.ext_getElem? fun j => ?_
  by_cases hcursor : l.cursor = j
  · have hij : i ≠ j := fun hij => h (hij.trans hcursor.symm)
    simp [Array.getElem?_setIfInBounds, Array.getElem?_modify, hcursor, hij]
  · simp [Array.getElem?_setIfInBounds_ne hcursor, Array.getElem?_modify]

theorem slot_of_no_timer (h : l.timers = []) (j : Nat) : l.slot j = [] := by
  refine List.eq_nil_iff_forall_not_mem.2 fun t ht => ?_
  exact List.not_mem_nil (h ▸ mem_timers.2 ⟨j, ht⟩)

end

end Level

namespace Wheel

/-! ### Falling in together -/

theorem all_atLast_of_faces {levels levels' : List (Level τ)} (h : faces levels' = faces levels) :
    levels'.all Level.atLast = levels.all Level.atLast := by
  have hfaces : ∀ ls : List (Level τ), ls.all Level.atLast =
      (faces ls).all fun face => decide (face.1.slotCount ≤ face.2.1 + 1) := by
    intro ls
    rw [faces, List.all_map]
    rfl
  rw [hfaces, hfaces, h]

section

variable {ts : List (Timer τ)} {now : Int} {l : Level τ} {finer : List (Level τ)}

theorem placeAll_nil (ts : List (Timer τ)) (now : Int) :
    placeAll ts now ([] : List (Level τ)) = [] := by
  induction ts with
  | nil => rfl
  | cons t ts ih => exact ih

theorem placeAll_concat (ts : List (Timer τ)) (t : Timer τ) (now : Int) (levels : List (Level τ)) :
    placeAll (ts ++ [t]) now levels = place t now (placeAll ts now levels) := by
  rw [placeAll, List.foldl_append]
  rfl

/-- Where each of them is at least one slot ahead, and in the same slot, all of them are put into
it. -/
theorem placeAll_of_reaches {i : Nat} (h : ∀ u ∈ ts,
      l.reaches (distance u now finer) = true ∧ l.slotAt (distance u now finer) = i) :
    placeAll ts now (l :: finer) = l.putAll i ts :: finer := by
  induction ts generalizing l with
  | nil => rw [Level.putAll_nil]; rfl
  | cons u ts ih =>
    obtain ⟨⟨hreaches, hslot⟩, hts⟩ := List.forall_mem_cons.1 h
    show placeAll ts now (place u now (l :: finer)) = _
    rw [place, if_pos hreaches, hslot]
    exact (ih (l := l.put i u) hts).trans (congrArg (· :: finer) (Level.putAll_put u))

/-- Where each of them is due sooner, all of them fall on. -/
theorem placeAll_of_falls (h : ∀ u ∈ ts, l.reaches (distance u now finer) = false)
    (hne : finer ≠ []) : placeAll ts now (l :: finer) = l :: placeAll ts now finer := by
  induction ts generalizing finer with
  | nil => rfl
  | cons u ts ih =>
    obtain ⟨hfalls, hts⟩ := List.forall_mem_cons.1 h
    have hfaces := faces_place u now finer
    have hplaced : place u now (l :: finer) = l :: place u now finer := by
      rw [place, hfalls, if_neg Bool.false_ne_true, if_neg]
      rwa [List.isEmpty_iff]
    show placeAll ts now (place u now (l :: finer)) = _
    rw [hplaced]
    refine ih (fun v hv => ?_) (ne_nil_of_specsOf_eq (specsOf_place u now finer) hne)
    rw [distance, elapsedIn_of_faces hfaces]
    exact hts v hv

/-- At the finest level they go into the slot to be emptied next. -/
theorem placeAll_of_last (h : ∀ u ∈ ts, l.reaches (distance u now []) = false) :
    placeAll ts now [l] = [l.putAll l.nextSlot ts] := by
  induction ts generalizing l with
  | nil => rw [Level.putAll_nil]; rfl
  | cons u ts ih =>
    obtain ⟨hfalls, hts⟩ := List.forall_mem_cons.1 h
    show placeAll ts now (place u now [l]) = _
    rw [place, hfalls, if_neg Bool.false_ne_true]
    exact (ih (l := l.put _ u) hts).trans (congrArg (fun l' => [l']) (Level.putAll_put u))

end

/-! ### The distance in ticks -/

/-- Near times are not rounded: the reading of the clock, the due time and the distance between
them are in the range of times, with room for the widest slot. -/
structure WithinRange (wide : Nat) (now due : Int) : Prop where
  least_le : Time.least ≤ now
  fits : due + wide ≤ Time.greatest
  far : due + wide ≤ now + Time.greatest
  wide_le : (wide : Int) ≤ Time.greatest

theorem WithinRange.later {wide : Nat} {now due : Int} (h : WithinRange wide now due)
    (grain : Nat) : WithinRange wide (now + grain) due := by
  obtain ⟨hleast, hfits, hfar, hwide⟩ := h
  exact ⟨by omega, hfits, by omega, hwide⟩

/-- How far a due time lies ahead of the time at which the slot above the `finer` levels was
reached, if each of their ticks took `grain`. -/
def lead (grain : Nat) (due now : Int) (finer : List (Level τ)) : Int :=
  due + (odometer finer * grain : Nat) - now

section

variable {grain wide : Nat} {now : Int} {t : Timer τ} {l : Level τ} {finer : List (Level τ)}

theorem meshed_congr {m : Level τ} {finer' : List (Level τ)}
    (h : LevelSpec.Meshed grain wide (specsOf (l :: finer))) (hl : m.toLevelSpec = l.toLevelSpec)
    (hfiner : specsOf finer' = specsOf finer) :
    LevelSpec.Meshed grain wide (specsOf (m :: finer')) := by
  rw [specsOf_cons, hl, hfiner]
  exact h

theorem reaches_iff_lead (hpos : 0 < l.width) (hfiner : LevelsWellFormed finer)
    (hmeshed : LevelSpec.Meshed grain wide (specsOf (l :: finer)))
    (hrange : WithinRange wide now t.due) :
    l.reaches (distance t now finer) = true ↔ (l.width : Int) ≤ lead grain t.due now finer := by
  have hdistance := distance_of_meshed hfiner hmeshed hrange.least_le hrange.fits hrange.far
    hrange.wide_le
  rw [Level.reaches, decide_eq_true_iff, lead]
  omega

theorem slotAt_lead (hfiner : LevelsWellFormed finer)
    (hmeshed : LevelSpec.Meshed grain wide (specsOf (l :: finer)))
    (hrange : WithinRange wide now t.due) :
    l.slotAt (distance t now finer) =
      l.slotAhead ((lead grain t.due now finer).toNat / l.width) := by
  have hdistance := distance_of_meshed hfiner hmeshed hrange.least_le hrange.fits hrange.far
    hrange.wide_le
  have hnat : (distance t now finer).toNat = (lead grain t.due now finer).toNat := by
    rw [lead]
    omega
  rw [Level.slotAt, hnat]

theorem grain_pos_of_meshed (h : LevelsWellFormed (l :: finer))
    (hmeshed : LevelSpec.Meshed grain wide (specsOf (l :: finer))) : 0 < grain := by
  have hpos : 0 < l.width := (h l List.mem_cons_self).valid.2
  rw [width_eq_of_meshed hmeshed] at hpos
  exact Nat.pos_of_mul_pos_left hpos

/-- Whether a due time lies whole ticks ahead is told by the whole ticks that are left until
then. -/
theorem le_lead_iff (hgrain : 0 < grain) {due : Int} (m : Nat) :
    ((m * grain : Nat) : Int) ≤ lead grain due now finer ↔
      (m : Int) ≤ (due - now) / grain + odometer finer := by
  have hticks : ((m : Int) - odometer finer) * grain =
      (m * grain : Nat) - (odometer finer * grain : Nat) := by
    push_cast
    ring
  have hfloor := Int.le_ediv_iff_mul_le (a := m - odometer finer) (b := due - now)
    (Int.natCast_pos.2 hgrain)
  rw [hticks] at hfloor
  rw [lead]
  omega

/-- Near times at which timers are due in the same one of the ticks to come as one that is due at
`due`. -/
structure Alongside (grain wide : Nat) (now due : Int) (ts : List (Timer τ)) : Prop where
  grain_pos : 0 < grain
  same : ∀ u ∈ ts, (u.due - now) / grain = (due - now) / grain
  range : ∀ u ∈ ts, WithinRange wide now u.due

theorem Alongside.later {due : Int} {ts : List (Timer τ)} (h : Alongside grain wide now due ts) :
    Alongside grain wide (now + grain) due ts where
  grain_pos := h.grain_pos
  same u hu := by
    have hne : (grain : Int) ≠ 0 := Int.natCast_ne_zero.2 h.grain_pos.ne'
    have hfloor (d : Int) : (d - (now + grain)) / grain = (d - now) / grain - 1 := by
      rw [← Int.sub_sub, Int.sub_ediv_of_dvd _ (Int.dvd_refl _), Int.ediv_self hne]
    rw [hfloor, hfloor, h.same u hu]
  range u hu := (h.range u hu).later grain

section

variable {due : Int} {ts : List (Timer τ)}

/-- Where one of them is whole slots ahead, so are all of them. -/
theorem Alongside.le_lead_iff (h : Alongside grain wide now due ts)
    (hmeshed : LevelSpec.Meshed grain wide (specsOf (l :: finer))) (k : Nat) :
    ∀ u ∈ ts, ((k * l.width : Nat) : Int) ≤ lead grain u.due now finer ↔
      ((k * l.width : Nat) : Int) ≤ lead grain due now finer := by
  intro u hu
  rw [width_eq_of_meshed hmeshed, ← Nat.mul_assoc, Wheel.le_lead_iff h.grain_pos,
    Wheel.le_lead_iff h.grain_pos, h.same u hu]

/-- Timers that are due `k` slots ahead fall into the slot that lies so far ahead of the cursor. -/
theorem placeAll_of_ahead (h : Alongside grain wide now due ts) (hpos : 0 < l.width)
    (hfiner : LevelsWellFormed finer)
    (hmeshed : LevelSpec.Meshed grain wide (specsOf (l :: finer))) {k : Nat} (hk : 1 ≤ k)
    (hlow : ((k * l.width : Nat) : Int) ≤ lead grain due now finer)
    (hhigh : lead grain due now finer < ((k + 1) * l.width : Nat)) :
    placeAll ts now (l :: finer) = l.putAll (l.slotAhead k) ts :: finer := by
  have hwhole : l.width ≤ k * l.width := Nat.le_mul_of_pos_left _ hk
  refine placeAll_of_reaches fun u hu => ?_
  have hlow' := (h.le_lead_iff hmeshed k u hu).2 hlow
  have hhigh' := mt (h.le_lead_iff hmeshed (k + 1) u hu).1 (Int.not_le.2 hhigh)
  have hreaches := (reaches_iff_lead hpos hfiner hmeshed (h.range u hu)).2 (by omega)
  have hfloor : (lead grain u.due now finer).toNat / l.width = k :=
    Nat.div_eq_of_lt_le (by omega) (by omega)
  exact ⟨hreaches, by rw [slotAt_lead hfiner hmeshed (h.range u hu), hfloor]⟩

/-- Timers that are due sooner than a slot ahead do not reach any slot of the level. -/
theorem falls_of_alongside (h : Alongside grain wide now due ts) (hpos : 0 < l.width)
    (hfiner : LevelsWellFormed finer)
    (hmeshed : LevelSpec.Meshed grain wide (specsOf (l :: finer)))
    (hlt : lead grain due now finer < l.width) :
    ∀ u ∈ ts, l.reaches (distance u now finer) = false := by
  intro u hu
  have hone := h.le_lead_iff hmeshed 1 u hu
  rw [Nat.one_mul] at hone
  rw [← Bool.not_eq_true, reaches_iff_lead hpos hfiner hmeshed (h.range u hu), hone]
  exact Int.not_le.2 hlt

end

theorem exists_slots_ahead {width : Nat} (hpos : 0 < width) {d : Int} (h : (width : Int) ≤ d) :
    ∃ k, 1 ≤ k ∧ ((k * width : Nat) : Int) ≤ d ∧ d < ((k + 1) * width : Nat) := by
  refine ⟨d.toNat / width, (Nat.le_div_iff_mul_le hpos).2 (by omega), ?_, ?_⟩
  · have hfloor := Nat.div_mul_le_self d.toNat width
    omega
  · have hceil := Nat.lt_mul_div_succ d.toNat hpos
    rw [Nat.mul_comm] at hceil
    omega

end

/-! ### A tick of all levels -/

/-- Levels that have just moved hand their slots down, and the last of them gives its slot away. -/
def handOut (now : Int) (levels : List (Level τ)) : List (Timer τ) × List (Level τ) :=
  yield (cascade now (levels.length - 1) levels)

section

variable {now : Int} {l : Level τ} {finer levels : List (Level τ)}

theorem handOut_cons (hne : finer ≠ []) :
    handOut now (l :: finer) = ((handOut now (placeAll l.current now finer)).1,
      l.drain :: (handOut now (placeAll l.current now finer)).2) := by
  have hlength : (placeAll l.current now finer).length = finer.length := by
    rw [← length_specsOf, specsOf_placeAll, length_specsOf]
  obtain ⟨n, hn⟩ : ∃ n, finer.length = n + 1 :=
    Nat.exists_eq_succ_of_ne_zero fun hzero => hne (List.length_eq_zero_iff.1 hzero)
  have hspecs := specsOf_cascade now n (placeAll l.current now finer)
  have hcascaded := ne_nil_of_specsOf_eq (hspecs.trans (specsOf_placeAll _ now finer)) hne
  rw [handOut, handOut, List.length_cons, hlength, hn, Nat.add_sub_cancel, Nat.add_sub_cancel,
    cascade, yield_cons _ hcascaded]

theorem settled_handOut (h : LevelsWellFormed levels) (now : Int) :
    Settled (handOut now levels).2 := by
  cases levels with
  | nil => exact fun l hl => absurd hl List.not_mem_nil
  | cons l finer => exact settled_yield_cascade h now (List.length_cons)

@[simp] theorem specsOf_handOut (now : Int) (levels : List (Level τ)) :
    specsOf (handOut now levels).2 = specsOf levels := by
  rw [handOut, specsOf_yield, specsOf_cascade]

@[simp] theorem odometer_handOut (now : Int) (levels : List (Level τ)) :
    odometer (handOut now levels).2 = odometer levels := by
  rw [handOut, odometer_yield, odometer_cascade]

theorem turn_of_atLast (hlast : finer.all Level.atLast = true) :
    turn now (l :: finer) = handOut now (l.step :: finer.map Level.step) := by
  rw [turn, if_pos hlast, handOut, List.length_cons, List.length_map, Nat.add_sub_cancel]

theorem turn_of_not_atLast (hlast : finer.all Level.atLast = false) :
    turn now (l :: finer) = ((turn now finer).1, l :: (turn now finer).2) := by
  rw [turn, hlast, if_neg Bool.false_ne_true]

/-- A level with an empty slot under its cursor hands nothing down. -/
theorem handOut_of_idle (hidle : l.current = []) :
    handOut now (l :: finer) = ((handOut now finer).1, l.drain :: (handOut now finer).2) := by
  cases finer with
  | nil => exact congrArg (·, [l.drain]) hidle
  | cons f rest =>
    rw [handOut_cons (List.cons_ne_nil f rest), hidle]
    rfl

/-- A level with nothing in the slot that it reaches has no part in a tick. -/
theorem turn_of_idle (hidle : l.step.current = []) :
    turn now (l :: finer) = ((turn now finer).1,
      (if finer.all Level.atLast then l.step.drain else l) :: (turn now finer).2) := by
  cases hlast : finer.all Level.atLast with
  | false => rw [turn_of_not_atLast hlast, if_neg Bool.false_ne_true]
  | true =>
    rw [turn_of_atLast hlast, if_pos rfl, handOut_of_idle hidle]
    cases finer with
    | nil => rfl
    | cons f rest =>
      rw [List.all_cons, Bool.and_eq_true_iff] at hlast
      rw [turn_of_atLast hlast.2]
      rfl

theorem yielded_of_no_timer (h : timersIn levels = []) (now : Int) : (turn now levels).1 = [] := by
  have hcleared := clear_turn now levels
  rw [clear_of_no_timer h] at hcleared
  exact congrArg Prod.fst hcleared

theorem handed_of_no_timer (h : timersIn levels = []) (now : Int) :
    (handOut now levels).1 = [] := by
  have hcleared := yield_project (fun _ => none) (cascade now (levels.length - 1) levels)
  rw [project_cascade now keepsDue_none, project_of_no_timer _ _ h] at hcleared
  rw [handOut, hcleared]
  simp

/-- In a tick the lead over the finer levels stays as it is, or it is one turn of theirs less, if
they complete it. -/
theorem lead_turn_cases (h : LevelsWellFormed finer) (grain : Nat) (due now : Int) :
    finer.all Level.atLast = false ∧
        lead grain due (now + grain) (turn (now + grain) finer).2 = lead grain due now finer ∨
      finer.all Level.atLast = true ∧ lead grain due (now + grain) (turn (now + grain) finer).2 =
        lead grain due now finer - (turnOf finer * grain : Nat) := by
  cases hlast : finer.all Level.atLast with
  | false =>
    refine Or.inl ⟨rfl, ?_⟩
    rw [lead, lead, odometer_turn h hlast, Nat.succ_mul]
    omega
  | true =>
    have hturn := (odometer_succ_eq_turnOf_iff h).2 hlast
    have hzero : odometer (turn (now + grain) finer).2 = 0 := by
      cases finer with
      | nil => rfl
      | cons f rest =>
        rw [turn_of_atLast (Bool.and_eq_true_iff.1 hlast).2, odometer_handOut]
        exact odometer_map_step h hlast
    refine Or.inr ⟨rfl, ?_⟩
    rw [lead, lead, hzero, ← hturn, Nat.succ_mul]
    omega

end

/-! ### Ticks of timers that are due together -/

/-- What comes of levels with the timers `ts`, beside what comes of them without these: the timers
come out in their order, or they stay where they would fall in. -/
def Together (ts : List (Timer τ)) (now : Int) (held bare : List (Timer τ) × List (Level τ)) :
    Prop :=
  held = (ts, bare.2) ∨ held = ([], placeAll ts now bare.2)

section

variable {grain wide : Nat} {now due : Int} {ts : List (Timer τ)} {l : Level τ}
  {finer levels : List (Level τ)}

/-- A level above, at which they are not due a slot ahead, has no part in it. -/
theorem Together.cons {held bare : List (Timer τ) × List (Level τ)} (h : Together ts now held bare)
    (hne : bare.2 ≠ []) (hfalls : ∀ u ∈ ts, l.reaches (distance u now bare.2) = false) :
    Together ts now (held.1, l :: held.2) (bare.1, l :: bare.2) := by
  rcases h with rfl | rfl
  · exact Or.inl rfl
  · exact Or.inr (congrArg (([], ·)) (placeAll_of_falls hfalls hne).symm)

theorem current_putAll_cursor (hl : l.WellFormed) (hbare : l.timers = []) :
    (l.putAll l.cursor ts).current = ts := by
  have hlt : l.cursor < l.slots.size := by
    rw [hl.size_slots]
    exact hl.cursor_lt
  rw [Level.current]
  refine (Level.slot_putAll hlt _).trans ((if_pos rfl).trans ?_)
  exact congrArg (· ++ ts) (Level.slot_of_no_timer hbare _)

/-- The finest level gives away what is in the slot under its cursor. -/
theorem handOut_of_last (hl : l.WellFormed) (hbare : l.timers = []) (ts : List (Timer τ))
    (now : Int) : handOut now [l.putAll l.cursor ts] = (ts, (handOut now [l]).2) :=
  Prod.ext (current_putAll_cursor hl hbare) (congrArg ([·]) Level.drain_putAll_cursor)

/-- A slot other than the one under the cursor stays as it is. -/
theorem current_putAll_of_ne (hl : l.WellFormed) (hbare : l.timers = []) {i : Nat}
    (hi : i < l.slotCount) (hne : i ≠ l.cursor) : (l.putAll i ts).current = [] := by
  rw [Level.current]
  rw [Level.slot_putAll (hl.size_slots.symm ▸ hi)]
  exact (if_neg hne).trans (Level.slot_of_no_timer hbare _)

theorem slotAhead_ne_cursor (hl : l.WellFormed) {k : Nat} (hpos : 0 < k) (hk : k < l.slotCount) :
    l.slotAhead k ≠ l.cursor := by
  have hcursor := hl.cursor_lt
  rw [Level.slotAhead]
  by_cases hwrap : l.cursor + k < l.slotCount
  · rw [Nat.mod_eq_of_lt hwrap]
    omega
  · rw [Nat.mod_eq_sub_mod (Nat.not_lt.1 hwrap), Nat.mod_eq_of_lt (by omega)]
    omega

/-- Where levels have just moved to their first slots, timers that are due within a turn of them
come out at once, or stay where they would fall in. -/
theorem together_handOut (halong : Alongside grain wide now due ts) (h : LevelsWellFormed levels)
    (hmeshed : LevelSpec.Meshed grain wide (specsOf levels)) (hbare : timersIn levels = [])
    (hzero : odometer levels = 0) (hfresh : ∀ l ∈ levels, l.drained = false)
    (hnear : due < now + (turnOf levels * grain : Nat)) :
    Together ts now (handOut now (placeAll ts now levels)) (handOut now levels) := by
  induction levels with
  | nil =>
    rw [placeAll_nil]
    exact Or.inr (congrArg (([], ·)) (placeAll_nil ts now).symm)
  | cons l finer ih =>
    obtain ⟨hl, hfiner⟩ := List.forall_mem_cons.1 h
    obtain ⟨hundrained, hfreshFiner⟩ := List.forall_mem_cons.1 hfresh
    rw [timersIn_cons, List.append_eq_nil_iff] at hbare
    have hzeroFiner := Nat.eq_zero_of_add_eq_zero_left hzero
    have hpos : 0 < l.width := hl.valid.2
    rw [turnOf_cons, Nat.mul_assoc, ← width_eq_of_meshed hmeshed] at hnear
    -- All cursors are on their first slots, so that the distance is the time that is left.
    have hlead : lead grain due now finer = due - now := by
      rw [lead, hzeroFiner]
      omega
    have hleadBare : lead grain due now (handOut now finer).2 = due - now := by
      rw [lead, odometer_handOut]
      exact hlead
    have hmeshedBare := meshed_congr (m := l.drain) hmeshed rfl (specsOf_handOut now finer)
    have hfinerBare := (settled_handOut hfiner now).wellFormed
    have hidle : l.current = [] := Level.slot_of_no_timer hbare.1 _
    by_cases hreach : (l.width : Int) ≤ due - now
    case pos =>
      obtain ⟨k, hone, hlow, hhigh⟩ := exists_slots_ahead hpos hreach
      have hk : k < l.slotCount := Nat.lt_of_mul_lt_mul_right (a := l.width) (by omega)
      have hslot := slotAhead_ne_cursor hl hone hk
      have hstays := placeAll_of_ahead (l := l.drain) halong hpos hfinerBare hmeshedBare hone
        (hleadBare ▸ hlow) (hleadBare ▸ hhigh)
      right
      rw [placeAll_of_ahead halong hpos hfiner hmeshed hone (hlead ▸ hlow) (hlead ▸ hhigh),
        handOut_of_idle (current_putAll_of_ne hl hbare.1 (l.slotAhead_lt k hl.valid.1) hslot),
        handOut_of_idle hidle, handed_of_no_timer hbare.2, Level.drain_putAll_of_ne hslot, hstays]
      rfl
    case neg =>
      have hfalls := falls_of_alongside halong hpos hfiner hmeshed (hlead ▸ Int.not_le.1 hreach)
      cases finer with
      | nil =>
        have hnext : l.nextSlot = l.cursor := if_neg (by rw [hundrained]; exact Bool.false_ne_true)
        rw [placeAll_of_last hfalls, hnext]
        exact Or.inl (handOut_of_last hl hbare.1 ts now)
      | cons f rest =>
        rw [placeAll_of_falls hfalls (List.cons_ne_nil f rest), handOut_of_idle hidle,
          handOut_of_idle hidle]
        have hnearFiner : due < now + (turnOf (f :: rest) * grain : Nat) := by
          rw [← width_eq_of_meshed hmeshed]
          omega
        refine (ih hfiner hmeshed.tail hbare.2 hzeroFiner hfreshFiner hnearFiner).cons ?_ ?_
        · exact ne_nil_of_specsOf_eq (specsOf_handOut now (f :: rest)) (List.cons_ne_nil f rest)
        · exact falls_of_alongside halong hpos hfinerBare hmeshedBare
            (hleadBare ▸ Int.not_le.1 hreach)

/-- What is in the slot under the cursor of a level that has just moved comes out at once, or finds
its place in the finer levels. -/
theorem together_handOut_of_current (halong : Alongside grain wide now due ts)
    (h : LevelsWellFormed (l :: finer))
    (hmeshed : LevelSpec.Meshed grain wide (specsOf (l :: finer)))
    (hbare : timersIn (l :: finer) = []) (hzero : odometer finer = 0)
    (hfresh : ∀ l ∈ finer, l.drained = false) (hnear : due < now + l.width) :
    Together ts now (handOut now (l.putAll l.cursor ts :: finer)) (handOut now (l :: finer)) := by
  obtain ⟨hl, hfiner⟩ := List.forall_mem_cons.1 h
  rw [timersIn_cons, List.append_eq_nil_iff] at hbare
  cases finer with
  | nil => exact Or.inl (handOut_of_last hl hbare.1 ts now)
  | cons f rest =>
    have hne := List.cons_ne_nil f rest
    rw [handOut_cons hne, current_putAll_cursor hl hbare.1, Level.drain_putAll_cursor,
      handOut_of_idle (Level.slot_of_no_timer hbare.1 _)]
    have hnearFiner : due < now + (turnOf (f :: rest) * grain : Nat) := by
      rw [← width_eq_of_meshed hmeshed]
      exact hnear
    refine (together_handOut halong hfiner hmeshed.tail hbare.2 hzero hfresh
      hnearFiner).cons (ne_nil_of_specsOf_eq (specsOf_handOut now (f :: rest)) hne) ?_
    have hlead : lead grain due now (handOut now (f :: rest)).2 < l.width := by
      rw [lead, odometer_handOut, hzero]
      omega
    exact falls_of_alongside (l := l.drain) halong hl.valid.2
      (settled_handOut hfiner now).wellFormed
      (meshed_congr hmeshed rfl (specsOf_handOut now (f :: rest))) hlead

/-- The slot that lies `k` slots ahead of a cursor lies one slot less ahead after a step. -/
theorem slotAhead_step (l : Level τ) (k : Nat) : l.step.slotAhead k = l.slotAhead (k + 1) := by
  show ((l.cursor + 1) % l.slotCount + k) % l.slotCount = (l.cursor + (k + 1)) % l.slotCount
  rw [Nat.mod_add_mod, Nat.add_assoc, Nat.add_comm 1 k]

/-- Timers in a slot that lies `k` slots ahead: the level stands still, or it moves towards the
slot, or it reaches the slot and hands it down. -/
theorem together_turn_of_ahead (halong : Alongside grain wide now due ts) (h : Settled (l :: finer))
    (hmeshed : LevelSpec.Meshed grain wide (specsOf (l :: finer)))
    (hbare : timersIn (l :: finer) = []) {k : Nat} (hone : 1 ≤ k) (hk : k ≤ l.slotCount)
    (hlow : ((k * l.width : Nat) : Int) ≤ lead grain due now finer)
    (hhigh : lead grain due now finer < ((k + 1) * l.width : Nat)) :
    Together ts (now + grain) (turn (now + grain) (l.putAll (l.slotAhead k) ts :: finer))
      (turn (now + grain) (l :: finer)) := by
  have hl : l.Settled := h l List.mem_cons_self
  have hfiner : Settled finer := (List.forall_mem_cons.1 h).2
  rw [timersIn_cons, List.append_eq_nil_iff] at hbare
  have hpos : 0 < l.width := hl.valid.2
  have hwidth := width_eq_of_meshed hmeshed
  have hlstep := Level.wellFormed_step hl.toWellFormed
  have hidle : l.step.current = [] := Level.slot_of_no_timer hbare.1 _
  -- The levels without the timers, after the tick.
  have halongLater := halong.later
  have hfinerBare := (settled_turn hfiner (now + grain)).wellFormed
  have hspecsBare := specsOf_turn (now + grain) finer
  rcases lead_turn_cases hfiner.wellFormed grain due now with ⟨hlast, hlead⟩ | ⟨hlast, hlead⟩
  · right
    have hstays := placeAll_of_ahead halongLater hpos hfinerBare
      (meshed_congr hmeshed rfl hspecsBare) hone (hlead ▸ hlow) (hlead ▸ hhigh)
    rw [turn_of_not_atLast hlast, turn_of_not_atLast hlast, yielded_of_no_timer hbare.2, hstays]
  · rw [← hwidth] at hlead
    obtain ⟨k, rfl⟩ := Nat.exists_eq_add_of_le' hone
    rw [Nat.succ_mul] at hlow
    rw [Nat.succ_mul, Nat.succ_mul] at hhigh
    rw [← slotAhead_step l k]
    rcases Nat.eq_zero_or_pos k with rfl | hmore
    · -- The slot is reached.
      rw [Level.slotAhead_zero hlstep]
      rw [turn_of_atLast hlast, turn_of_atLast hlast]
      have hnear : due < now + grain + l.width := by
        have hturn := (odometer_succ_eq_turnOf_iff hfiner.wellFormed).2 hlast
        rw [hwidth, ← hturn, Nat.succ_mul] at hhigh ⊢
        rw [lead] at hhigh
        omega
      have hmeshedStep := meshed_congr (m := l.step) hmeshed rfl (specsOf_map_step finer)
      refine together_handOut_of_current halongLater (wellFormed_map_step h.wellFormed)
        hmeshedStep ?_ (odometer_map_step hfiner.wellFormed hlast) drained_map_step hnear
      rw [timersIn_cons, timersIn_map_step, Level.timers_step, hbare.1, hbare.2]
      rfl
    · -- The slot is still ahead.
      have hslot := slotAhead_ne_cursor hlstep hmore (Nat.lt_of_succ_le hk)
      have hi := l.step.slotAhead_lt k hl.valid.1
      have hlow' : ((k * l.width : Nat) : Int) ≤
          lead grain due (now + grain) (turn (now + grain) finer).2 := by omega
      have hhigh' : lead grain due (now + grain) (turn (now + grain) finer).2 <
          ((k + 1) * l.width : Nat) := by
        rw [Nat.succ_mul]
        omega
      have hstays := placeAll_of_ahead (l := l.step.drain) halongLater hpos hfinerBare
        (meshed_congr hmeshed rfl hspecsBare) hmore hlow' hhigh'
      right
      rw [turn_of_idle (l := l.putAll _ ts) (current_putAll_of_ne hlstep hbare.1 hi hslot),
        turn_of_idle hidle, yielded_of_no_timer hbare.2, hlast, if_pos rfl, if_pos rfl, hstays]
      exact congrArg (fun l' => ([], l' :: (turn (now + grain) finer).2))
        (Level.drain_putAll_of_ne (l := l.step) hslot)

/-- A tick of matched levels that hold nothing else yields timers that are due together in their
order, or it leaves them where they would fall in after it. The only condition is that they were
not due too far ahead for the first level. -/
theorem together_turn (halong : Alongside grain wide now due ts) (h : Settled levels)
    (hmeshed : LevelSpec.Meshed grain wide (specsOf levels)) (hbare : timersIn levels = [])
    (hhead : ∀ l ∈ levels.head?,
      lead grain due now levels.tail < ((l.slotCount + 1) * l.width : Nat)) :
    Together ts (now + grain) (turn (now + grain) (placeAll ts now levels))
      (turn (now + grain) levels) := by
  induction levels with
  | nil =>
    rw [placeAll_nil]
    exact Or.inr (congrArg (([], ·)) (placeAll_nil ts _).symm)
  | cons l finer ih =>
    have hl : l.Settled := h l List.mem_cons_self
    have hfiner : Settled finer := (List.forall_mem_cons.1 h).2
    rw [timersIn_cons, List.append_eq_nil_iff] at hbare
    have hpos : 0 < l.width := hl.valid.2
    have hbound := hhead l rfl
    rw [List.tail_cons] at hbound
    by_cases hreach : (l.width : Int) ≤ lead grain due now finer
    case pos =>
      obtain ⟨k, hone, hlow, hhigh⟩ := exists_slots_ahead hpos hreach
      have hk : k < l.slotCount + 1 := Nat.lt_of_mul_lt_mul_right (a := l.width) (by omega)
      rw [placeAll_of_ahead halong hpos hfiner.wellFormed hmeshed hone hlow hhigh]
      exact together_turn_of_ahead halong h hmeshed (List.append_eq_nil_iff.2 hbare) hone
        (Nat.le_of_lt_succ hk) hlow hhigh
    case neg =>
      have hnear : lead grain due now finer < l.width := Int.not_le.1 hreach
      have hfalls := falls_of_alongside halong hpos hfiner.wellFormed hmeshed hnear
      cases finer with
      | nil =>
        have hnext : l.nextSlot = l.step.cursor := if_pos hl.drained
        rw [placeAll_of_last hfalls, hnext]
        exact Or.inl
          (handOut_of_last (Level.wellFormed_step hl.toWellFormed) hbare.1 ts (now + grain))
      | cons f rest =>
        have hidle : l.step.current = [] := Level.slot_of_no_timer hbare.1 _
        have hne := List.cons_ne_nil f rest
        have hatLast := all_atLast_of_faces (faces_placeAll ts now (f :: rest))
        rw [placeAll_of_falls hfalls hne, turn_of_idle hidle, turn_of_idle hidle, hatLast]
        have hheadFiner : ∀ f' ∈ (f :: rest).head?,
            lead grain due now rest < ((f'.slotCount + 1) * f'.width : Nat) := by
          -- What does not reach a slot of this level is within a turn of the next finer one.
          rintro f' ⟨⟩
          have hspan : l.width = f.slotCount * f.width := hmeshed.matched.1
          have hcursors := Nat.mul_le_mul_right grain (odometer_le_cons f rest)
          rw [lead] at hnear ⊢
          rw [Nat.succ_mul, ← hspan]
          omega
        have hlead :
            lead grain due (now + grain) (turn (now + grain) (f :: rest)).2 < l.width := by
          rcases lead_turn_cases hfiner.wellFormed grain due now with ⟨-, hlead⟩ | ⟨-, hlead⟩
          all_goals omega
        have hfinerBare := (settled_turn hfiner (now + grain)).wellFormed
        refine (ih hfiner hmeshed.tail hbare.2 hheadFiner).cons
          (ne_nil_of_specsOf_eq (specsOf_turn _ (f :: rest)) hne) ?_
        have hmeshedBare := meshed_congr (m := l) hmeshed rfl
          (specsOf_turn (now + grain) (f :: rest))
        have hfallsBare := falls_of_alongside halong.later hpos hfinerBare hmeshedBare hlead
        split
        · exact hfallsBare
        · exact hfallsBare

/-- Levels that cover the time ahead of the clock keep timers together which are due by then, and
in the same one of the ticks to come. -/
theorem together_turn_of_covers {ahead : Nat}
    (hsame : ∀ u ∈ ts, (u.due - now) / grain = (due - now) / grain) (h : Settled levels)
    (hcovers : LevelSpec.Covers grain wide ahead (specsOf levels))
    (hbare : timersIn levels = []) (hleast : Time.least ≤ now)
    (hfits : ∀ u ∈ ts, u.due + wide ≤ Time.greatest) (hby : ∀ u ∈ ts, u.due ≤ now + ahead)
    (hahead : due ≤ now + ahead) :
    Together ts (now + grain) (turn (now + grain) (placeAll ts now levels))
      (turn (now + grain) levels) := by
  cases levels with
  | nil =>
    rw [placeAll_nil]
    exact Or.inr (congrArg (([], ·)) (placeAll_nil ts _).symm)
  | cons l finer =>
    have hroom := hcovers.fits
    have hwide := hcovers.wide_le
    have halong : Alongside grain wide now due ts := by
      refine ⟨grain_pos_of_meshed h.wellFormed hcovers.toMeshed, hsame, fun u hu => ?_⟩
      have hdue := hfits u hu
      have hnear := hby u hu
      exact ⟨hleast, hdue, by omega, by omega⟩
    refine together_turn halong h hcovers.toMeshed hbare ?_
    rintro l' ⟨⟩
    have hspan : ahead ≤ l.slotCount * l.width := hcovers.ahead_le _ rfl
    have hcursors := odometer_mul_lt_width h.wellFormed hcovers.toMeshed
    rw [List.tail_cons, lead, Nat.succ_mul]
    omega

end

end Wheel

end TimingWheel
