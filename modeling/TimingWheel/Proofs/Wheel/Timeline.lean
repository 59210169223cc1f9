import Mathlib.Data.Nat.Pairing
import TimingWheel.Proofs.Wheel.Conservation
import TimingWheel.Proofs.Wheel.Projection

/-!
# A wheel in use

A new wheel is ticked at an even pace, and between the ticks timers fall into it, at any level and
with any reading of the clock. Nothing tells one timer from another one with the same record, so
that arrivals are given numbers, and the numbers are followed instead of the records. What the wheel
yields does not depend on them.

## Main definitions

- `Wheel.Arrival` — a timer that is put into a wheel, and how
- `Wheel.Timeline` — the levels of a wheel, its ticks, and what comes in between them
- `Wheel.Timeline.wheel`, `Wheel.Timeline.yielded` — the wheel after a tick, and what the tick
  yields
- `Wheel.Timeline.project` — a timeline with each of its timers dropped or replaced
- `Wheel.Timeline.numbered` — a timeline whose timers have their numbers as handles

## Main statements

- `Wheel.Timeline.conserved` — what came in was yielded or is held
- `Wheel.Timeline.yielded_project` — the timers that remain come out as they did
- `Wheel.Timeline.numbers_of_yielded` — the numbers of what a tick yields
-/

namespace TimingWheel.Wheel

variable {τ : Type}

/-! ### Arrivals -/

/-- A timer that is put into a wheel. -/
structure Arrival (τ : Type) where
  timer : Timer τ
  /-- The reading of the clock that it comes with. -/
  now : Int
  /-- The level at which it falls in, if that is not left to the wheel. -/
  entry : Option Nat := none
deriving DecidableEq, Repr

/-- The arrival with the timer that `f` gives in place of its own. -/
def Arrival.project (f : Timer τ → Option (Timer τ)) (a : Arrival τ) : Option (Arrival τ) :=
  (f a.timer).map fun timer => { a with timer }

def enter (w : Wheel τ) (a : Arrival τ) : Wheel τ :=
  match a.entry with
  | none => w.insert a.timer a.now
  | some i => w.insertAt i a.timer a.now

/-- Lets timers fall in, one after the other. -/
def receive (w : Wheel τ) (arrivals : List (Arrival τ)) : Wheel τ := arrivals.foldl enter w

/-- A new wheel with the given levels. -/
def ofSpecs (specs : List LevelSpec) : Wheel τ := ⟨specs.map Level.ofSpec⟩

/-- New wheels are those that levels were appended to and nothing else was done to. -/
theorem append_ofSpecs {spec : LevelSpec} (h : spec.Valid) (specs : List LevelSpec) :
    (ofSpecs specs : Wheel τ).append spec = .ok (ofSpecs (specs ++ [spec])) := by
  rw [append, if_pos h, ofSpecs, ofSpecs, List.map_append]
  rfl

theorem timers_ofSpecs (specs : List LevelSpec) : (ofSpecs specs : Wheel τ).timers = [] := by
  refine List.flatMap_eq_nil_iff.2 fun l hl => ?_
  obtain ⟨spec, -, rfl⟩ := List.mem_map.1 hl
  exact Level.timers_ofSpec spec

section

variable {w : Wheel τ}

theorem enter_eq_insertAt (w : Wheel τ) (a : Arrival τ) :
    w.enter a = w.insertAt (a.entry.getD 0) a.timer a.now := by
  rw [enter]
  cases a.entry with
  | none => exact insert_eq_insertAt a.timer a.now w
  | some i => rfl

theorem settled_insertAt (h : Settled w.levels) (i : Nat) (t : Timer τ) (now : Int) :
    Settled (w.insertAt i t now).levels :=
  List.forall_mem_append.2 ⟨fun l hl => h l (List.mem_of_mem_take hl),
    settled_place (fun l hl => h l (List.mem_of_mem_drop hl)) t now⟩

theorem specsOf_receive (w : Wheel τ) (arrivals : List (Arrival τ)) :
    specsOf (w.receive arrivals).levels = specsOf w.levels := by
  induction arrivals generalizing w with
  | nil => rfl
  | cons a arrivals ih =>
    refine (ih (w.enter a)).trans ?_
    rw [enter_eq_insertAt, specsOf_insertAt]

theorem settled_receive (h : Settled w.levels) (arrivals : List (Arrival τ)) :
    Settled (w.receive arrivals).levels := by
  induction arrivals generalizing w with
  | nil => exact h
  | cons a arrivals ih =>
    refine ih (w := w.enter a) ?_
    rw [enter_eq_insertAt]
    exact settled_insertAt h _ a.timer a.now

/-- What comes in is held, as long as there are levels. -/
theorem timers_receive (h : Settled w.levels) (hne : w.levels ≠ []) (arrivals : List (Arrival τ)) :
    (w.receive arrivals).timers.Perm (arrivals.map Arrival.timer ++ w.timers) := by
  induction arrivals generalizing w with
  | nil => exact .refl _
  | cons a arrivals ih =>
    have hentered : (w.enter a).timers.Perm (a.timer :: w.timers) := by
      have hsome : w.accepts (.insertAt (a.entry.getD 0) a.timer a.now) = [a.timer] :=
        if_neg (mt isEmpty_iff.1 hne)
      have hperm := timers_insertAt h.wellFormed (a.entry.getD 0) a.timer a.now
      rwa [hsome, ← enter_eq_insertAt] at hperm
    have hsettled : Settled (w.enter a).levels := settled_receive h [a]
    have hspecs : specsOf (w.enter a).levels = specsOf w.levels := specsOf_receive w [a]
    refine (ih hsettled (ne_nil_of_specsOf_eq hspecs hne)).trans ?_
    exact (hentered.append_left _).trans List.perm_middle

/-! ### Some of the arrivals -/

variable {f : Timer τ → Option (Timer τ)} (hf : KeepsDue f)

include hf

theorem project_enter (a : Arrival τ) (w : Wheel τ) :
    project f (w.enter a).levels =
      (receive ⟨project f w.levels⟩ (a.project f).toList).levels := by
  have hsplit (i : Nat) : project f (w.insertAt i a.timer a.now).levels =
      project f (w.levels.take (min i (w.depth - 1))) ++
        project f (place a.timer a.now (w.levels.drop (min i (w.depth - 1)))) :=
    project_append f _ _
  rw [enter_eq_insertAt, hsplit, Arrival.project]
  cases h : f a.timer with
  | none =>
    rw [project_place_of_none a.now h, ← project_append, List.take_append_drop]
    rfl
  | some t =>
    have hdepth : (⟨project f w.levels⟩ : Wheel τ).depth = w.depth := length_project f w.levels
    rw [project_place_of_some a.now h (hf _ _ h)]
    show _ = (enter ⟨project f w.levels⟩ { a with timer := t }).levels
    rw [enter_eq_insertAt, insertAt, hdepth]
    exact congrArg₂ (· ++ ·) List.map_take (congrArg (place t a.now) List.map_drop)

theorem project_receive (arrivals : List (Arrival τ)) (w : Wheel τ) :
    project f (w.receive arrivals).levels =
      (receive ⟨project f w.levels⟩ (arrivals.filterMap (Arrival.project f))).levels := by
  induction arrivals generalizing w with
  | nil => rfl
  | cons a arrivals ih =>
    refine (ih (w.enter a)).trans ?_
    rw [project_enter hf]
    cases h : a.project f with
    | none => rw [List.filterMap_cons_none h]; rfl
    | some b => rw [List.filterMap_cons_some h]; rfl

end

/-! ### Timelines -/

/-- A new wheel that is ticked at an even pace while timers fall in. -/
structure Timeline (τ : Type) where
  specs : List LevelSpec
  /-- The reading of the clock at the start. -/
  start : Int
  /-- The time from one tick to the next one. -/
  step : Nat
  /-- What comes in after so many ticks and before the next one. -/
  arrivals : Nat → List (Arrival τ)

namespace Timeline

variable (c : Timeline τ)

/-- The reading of the clock on a tick. -/
def reading (k : Nat) : Int := c.start + (k * c.step : Nat)

/-- The wheel after `k` ticks. -/
def wheel : Nat → Wheel τ
  | 0 => ofSpecs c.specs
  | k + 1 => (((wheel k).receive (c.arrivals k)).tick (c.reading (k + 1))).2

/-- What tick `k` yields. The ticks are counted from one. -/
def yielded : Nat → List (Timer τ)
  | 0 => []
  | k + 1 => (((c.wheel k).receive (c.arrivals k)).tick (c.reading (k + 1))).1

/-- The timers that come in after `k` ticks. -/
def incoming (k : Nat) : List (Timer τ) := (c.arrivals k).map Arrival.timer

theorem reading_succ (k : Nat) : c.reading (k + 1) = c.reading k + c.step := by
  rw [reading, reading, Nat.succ_mul]
  omega

theorem start_le_reading (k : Nat) : c.start ≤ c.reading k := by
  rw [reading]
  omega

theorem reading_mono {j k : Nat} (h : j ≤ k) : c.reading j ≤ c.reading k := by
  have hmul := Nat.mul_le_mul_right c.step h
  rw [reading, reading]
  omega

theorem specsOf_wheel (k : Nat) : specsOf (c.wheel k).levels = c.specs := by
  induction k with
  | zero =>
    show (c.specs.map Level.ofSpec).map Level.toLevelSpec = c.specs
    rw [List.map_map]
    exact List.map_id c.specs
  | succ k ih => rw [wheel, specsOf_tick, specsOf_receive, ih]

theorem levels_ne_nil {c : Timeline τ} (h : c.specs ≠ []) (k : Nat) : (c.wheel k).levels ≠ [] := by
  intro hnil
  have hspecs := c.specsOf_wheel k
  rw [hnil] at hspecs
  exact h hspecs.symm

theorem settled_wheel {c : Timeline τ} (h : ∀ spec ∈ c.specs, spec.Valid) (k : Nat) :
    Settled (c.wheel k).levels := by
  induction k with
  | zero =>
    intro l hl
    obtain ⟨spec, hspec, rfl⟩ := List.mem_map.1 hl
    exact { Level.wellFormed_ofSpec (h spec hspec) with drained := rfl }
  | succ k ih =>
    rw [wheel, tick_eq_turn]
    exact settled_turn (settled_receive ih (c.arrivals k)) _

theorem flatMap_range_succ {α : Type} (f : Nat → List α) (k : Nat) :
    (List.range (k + 1)).flatMap f = (List.range k).flatMap f ++ f k := by
  rw [List.range_succ, List.flatMap_append, List.flatMap_singleton]

/-- What came in was yielded or is held. -/
theorem conserved {c : Timeline τ} (h : ∀ spec ∈ c.specs, spec.Valid) (hne : c.specs ≠ [])
    (k : Nat) : ((List.range (k + 1)).flatMap c.yielded ++ (c.wheel k).timers).Perm
      ((List.range k).flatMap c.incoming) := by
  induction k with
  | zero =>
    rw [wheel, timers_ofSpecs]
    exact .refl _
  | succ k ih =>
    have hsettled := settled_wheel h k
    have hin := timers_receive hsettled (levels_ne_nil hne k) (c.arrivals k)
    have hout := timers_tick (settled_receive hsettled (c.arrivals k)).wellFormed
      (c.reading (k + 1))
    rw [flatMap_range_succ c.yielded, flatMap_range_succ c.incoming, List.append_assoc]
    refine ((hout.trans hin).append_left _).trans ?_
    refine (List.perm_append_comm_assoc ..).trans ?_
    exact (ih.append_left _).trans List.perm_append_comm

/-! ### Some of the timers -/

/-- The timeline with the timers that `f` gives in place of its own. -/
def project (f : Timer τ → Option (Timer τ)) : Timeline τ :=
  { c with arrivals := fun k => (c.arrivals k).filterMap (Arrival.project f) }

section

variable {c} {f : Timer τ → Option (Timer τ)}

theorem incoming_project (k : Nat) : (c.project f).incoming k = (c.incoming k).filterMap f := by
  rw [incoming, incoming, project, List.map_filterMap, List.filterMap_map]
  refine List.filterMap_congr fun a _ => ?_
  rw [Arrival.project, Option.map_map]
  exact Option.map_id'

theorem wheel_project (hf : KeepsDue f) (k : Nat) :
    (c.project f).wheel k = ⟨Wheel.project f (c.wheel k).levels⟩ := by
  induction k with
  | zero =>
    refine congrArg Wheel.mk ?_
    rw [Wheel.project, wheel, ofSpecs, List.map_map]
    exact List.map_congr_left fun spec _ => (Level.project_ofSpec f spec).symm
  | succ k ih =>
    have hreceived := project_receive hf (c.arrivals k) (c.wheel k)
    have hticked := tick_project (c.reading (k + 1)) hf ((c.wheel k).receive (c.arrivals k))
    rw [wheel, ih]
    rw [hreceived] at hticked
    exact congrArg Prod.snd hticked

/-- The timers that remain come out as they did among the others. -/
theorem yielded_project (hf : KeepsDue f) (k : Nat) :
    (c.project f).yielded k = (c.yielded k).filterMap f := by
  cases k with
  | zero => rfl
  | succ k =>
    have hreceived := project_receive hf (c.arrivals k) (c.wheel k)
    have hticked := tick_project (c.reading (k + 1)) hf ((c.wheel k).receive (c.arrivals k))
    rw [yielded, wheel_project hf]
    rw [hreceived] at hticked
    exact congrArg Prod.fst hticked

end

/-! ### Numbers of arrivals -/

/-- The arrival with a number: the tick after which it comes in, and its place among those that come
in then. -/
def arrival? (r : Nat × Nat) : Option (Arrival τ) := (c.arrivals r.1)[r.2]?

/-- A timer with a number as its handle. -/
def tag (r : Nat × Nat) (t : Timer τ) : Timer τ := { t with id := ⟨Nat.pair r.1 r.2⟩ }

/-- The number that a timer has as its handle. -/
def numberOf (t : Timer τ) : Nat × Nat := t.id.value.unpair

/-- The timeline whose timers have their numbers as handles. -/
def numbered : Timeline τ :=
  { c with arrivals := fun k => (c.arrivals k).zipIdx.map fun (a, i) =>
      { a with timer := tag (k, i) a.timer } }

/-- A timer with the handle of the arrival whose number it has. -/
def untag (t : Timer τ) : Timer τ :=
  { t with id := ((c.arrival? (numberOf t)).map (·.timer.id)).getD t.id }

/-- The number belongs to an earlier arrival. -/
def Earlier (r s : Nat × Nat) : Prop := r.1 < s.1 ∨ r.1 = s.1 ∧ r.2 < s.2

@[simp] theorem numberOf_tag (r : Nat × Nat) (t : Timer τ) : numberOf (tag r t) = r :=
  Nat.unpair_pair r.1 r.2

theorem Earlier.ne {r s : Nat × Nat} (h : Earlier r s) : r ≠ s := by
  rintro rfl
  rw [Earlier] at h
  omega

theorem Earlier.asymm {r s : Nat × Nat} (h : Earlier r s) : ¬Earlier s r := by
  rw [Earlier] at h ⊢
  omega

section

variable {c}

theorem untag_tag {r : Nat × Nat} {a : Arrival τ} (h : c.arrival? r = some a) :
    c.untag (tag r a.timer) = a.timer := by
  rw [untag, numberOf_tag, h]
  rfl

theorem keepsDue_untag : KeepsDue (some ∘ c.untag) := by
  rintro t _ ⟨⟩
  rfl

theorem mem_incoming_numbered {k : Nat} {t : Timer τ} :
    t ∈ c.numbered.incoming k ↔ ∃ i a, c.arrival? (k, i) = some a ∧ t = tag (k, i) a.timer := by
  rw [incoming, numbered, List.map_map, List.mem_map]
  constructor
  · rintro ⟨⟨a, i⟩, hmem, rfl⟩
    exact ⟨i, a, List.mk_mem_zipIdx_iff_getElem?.1 hmem, rfl⟩
  · rintro ⟨i, a, ha, rfl⟩
    exact ⟨(a, i), List.mk_mem_zipIdx_iff_getElem?.2 ha, rfl⟩

/-- Without the numbers the timeline is as it was. -/
theorem project_untag_numbered (c : Timeline τ) : c.numbered.project (some ∘ c.untag) = c := by
  have harrivals (k : Nat) : (c.numbered.arrivals k).filterMap (Arrival.project (some ∘ c.untag)) =
      c.arrivals k := by
    rw [numbered, List.filterMap_map]
    have hsame : ∀ entry ∈ (c.arrivals k).zipIdx,
        (Arrival.project (some ∘ c.untag) ∘ fun (a, i) => { a with timer := tag (k, i) a.timer })
          entry = some entry.1 := by
      rintro ⟨a, i⟩ hmem
      have ha : c.arrival? (k, i) = some a := List.mk_mem_zipIdx_iff_getElem?.1 hmem
      show some { a with timer := c.untag (tag (k, i) a.timer) } = some a
      rw [untag_tag ha]
    rw [List.filterMap_congr hsame, List.filterMap_eq_map', List.zipIdx_map_fst]
  exact congrArg (Timeline.mk c.specs c.start c.step) (funext harrivals)

/-- Arrivals come in in the order of their numbers. -/
theorem incoming_in_order (c : Timeline τ) (n : Nat) :
    ((List.range n).flatMap c.numbered.incoming).Pairwise fun t u =>
      Earlier (numberOf t) (numberOf u) := by
  refine List.pairwise_flatMap.2 ⟨fun k _ => ?_, List.pairwise_lt_range.imp ?_⟩
  · have hplaces : ((c.arrivals k).zipIdx.map Prod.snd).Pairwise (· < ·) := by
      rw [List.zipIdx_map_snd]
      exact List.pairwise_lt_range'
    rw [incoming, numbered, List.map_map, List.pairwise_map]
    refine (List.pairwise_map.1 hplaces).imp fun hlt => ?_
    exact .inr ⟨by simp, by simpa using hlt⟩
  · intro k l hkl t ht u hu
    obtain ⟨i, a, -, rfl⟩ := mem_incoming_numbered.1 ht
    obtain ⟨j, b, -, rfl⟩ := mem_incoming_numbered.1 hu
    rw [numberOf_tag, numberOf_tag]
    exact .inl hkl

variable (h : ∀ spec ∈ c.specs, spec.Valid) (hne : c.specs ≠ [])

include h hne

/-- What comes out had come in before. -/
theorem exists_arrival_of_yielded {m : Nat} {t : Timer τ} (ht : t ∈ c.numbered.yielded m) :
    ∃ k < m, ∃ i a, c.arrival? (k, i) = some a ∧ t = tag (k, i) a.timer := by
  have hmem : t ∈ (List.range (m + 1)).flatMap c.numbered.yielded :=
    List.mem_flatMap.2 ⟨m, List.mem_range.2 (Nat.lt_succ_self m), ht⟩
  have hcame := (conserved (c := c.numbered) h hne m).subset (List.mem_append_left _ hmem)
  obtain ⟨k, hk, hin⟩ := List.mem_flatMap.1 hcame
  exact ⟨k, List.mem_range.1 hk, mem_incoming_numbered.1 hin⟩

/-- What a tick yields are the arrivals whose numbers it yields. -/
theorem numbers_of_yielded (m : Nat) :
    ((c.numbered.yielded m).map numberOf).map (fun r => (c.arrival? r).map Arrival.timer) =
      (c.yielded m).map some := by
  have hyielded := yielded_project (c := c.numbered) (keepsDue_untag (c := c)) m
  rw [project_untag_numbered] at hyielded
  rw [hyielded, List.filterMap_eq_map, List.map_map, List.map_map]
  refine List.map_congr_left fun t ht => ?_
  obtain ⟨k, -, i, a, ha, rfl⟩ := exists_arrival_of_yielded h hne ht
  show (c.arrival? (numberOf (tag (k, i) a.timer))).map Arrival.timer = some (c.untag _)
  rw [numberOf_tag, ha, untag_tag ha]
  rfl

/-- No arrival comes out twice. -/
theorem numbers_nodup (n : Nat) :
    ((List.range n).flatMap fun m => (c.numbered.yielded m).map numberOf).Nodup := by
  have hall : (((List.range n).flatMap c.numbered.incoming).map numberOf).Nodup :=
    List.pairwise_map.2 ((incoming_in_order c n).imp Earlier.ne)
  have hkept := ((conserved (c := c.numbered) h hne n).map numberOf).nodup_iff.2 hall
  rw [List.map_append, List.map_flatMap, flatMap_range_succ] at hkept
  exact (List.nodup_append.1 (List.nodup_append.1 hkept).1).1

end

end Timeline

end TimingWheel.Wheel
