import Mathlib.Data.List.Induction
import TimingWheel.Proofs.Wheel.Conservation
import TimingWheel.Proofs.Wheel.Machine
import TimingWheel.Proofs.Wheel.Odometer

/-!
# A wheel runs safely on a machine

Take a new wheel and let a machine with words perform any operations on it, refused levels
included. As long as whole turns of all levels together take no more time than a word can hold,
nothing that the machine computes leaves its word, nothing is divided by zero, and no slot is looked
up that is not there. That holds for any due times and any readings of the clock, and the machine
ends up with the very wheel that the functions on wheels give. The one thing that stops it is the
index of a level that is not there, and then it has changed nothing.

## Main definitions

- `Machine.Sound` — levels that fit the words of the machine
- `Wheel.handDown` — one level hands its current slot down
- `Wheel.Reply.outcome` — a reply as the machine gives it

## Main statements

- `Machine.fall_run`, `Machine.advance_run` — the loop and the recursion of the machine
- `Machine.perform_run`, `Machine.performAll_run` — one operation, and a list of them
- `Machine.carried_out` — any operations on a new wheel
-/

namespace TimingWheel

/-- The numbers that describe a level are words of 32 bits. -/
def LevelSpec.InWords (spec : LevelSpec) : Prop :=
  spec.slotCount < 4294967296 ∧ spec.width < 4294967296

instance (spec : LevelSpec) : Decidable spec.InWords := inferInstanceAs (Decidable (_ ∧ _))

/-! ### Steps from the fine end -/

namespace Wheel

variable {τ : Type}

/-- The level with index `n` hands its current slot down to the levels after it. -/
def handDown (now : Int) : Nat → List (Level τ) → List (Level τ)
  | _, [] => []
  | 0, l :: finer => l.drain :: placeAll l.current now finer
  | n + 1, l :: finer => l :: handDown now n finer

theorem handDown_length (now : Int) (front : List (Level τ)) (l : Level τ)
    (finer : List (Level τ)) : handDown now front.length (front ++ l :: finer) =
      front ++ l.drain :: placeAll l.current now finer := by
  induction front with
  | nil => rfl
  | cons m front ih => exact congrArg (m :: ·) ih

/-- Of the levels that hand their slots down, the finest one comes last. -/
theorem cascade_succ (now : Int) (n : Nat) (levels : List (Level τ)) :
    cascade now (n + 1) levels = handDown now n (cascade now n levels) := by
  induction n generalizing levels with
  | zero => cases levels <;> rfl
  | succ n ih =>
    cases levels with
    | nil => rfl
    | cons l finer => exact congrArg (l.drain :: ·) (ih (placeAll l.current now finer))

/-- A level that does not complete a turn moves alone, and so does the coarsest one. -/
theorem advanceAt_of_alone (now : Int) (front : List (Level τ)) {l : Level τ}
    (halone : front ≠ [] → l.atLast = false) (finer : List (Level τ)) :
    advanceAt now front.length (front ++ l :: finer) = front ++ l.step :: finer := by
  induction front with
  | nil => rfl
  | cons m front ih =>
    have hlast := halone (List.cons_ne_nil m front)
    have hstop : ((front ++ l :: finer).take (front.length + 1)).all Level.atLast = false := by
      rw [List.take_length_add_append, List.all_append]
      simp [hlast]
    rw [List.cons_append, List.length_cons, advanceAt, hstop, if_neg Bool.false_ne_true,
      Nat.add_sub_cancel, ih fun _ => hlast]
    rfl

/-- A level that completes a turn moves first. Then the next coarser level moves, with whatever
moves along with it, and hands down the slot that it reaches. -/
theorem advanceAt_of_atLast (now : Int) {l : Level τ} (hlast : l.atLast = true)
    (front : List (Level τ)) (m : Level τ) (finer : List (Level τ)) :
    advanceAt now (front.length + 1) (front ++ m :: l :: finer) =
      handDown now front.length (advanceAt now front.length (front ++ m :: l.step :: finer)) := by
  induction front with
  | nil =>
    rw [List.nil_append, List.nil_append, advanceAt, advanceAt]
    simp only [List.length_nil, Nat.zero_add, List.take_succ_cons, List.take_zero, List.all_cons,
      hlast, List.all_nil, Bool.and_self, if_true]
    rfl
  | cons k front ih =>
    have hahead : (front ++ m :: l :: finer).take (front.length + 2) = front ++ [m, l] := by
      rw [List.take_length_add_append]
      rfl
    have hbefore : (front ++ m :: l.step :: finer).take (front.length + 1) = front ++ [m] := by
      rw [List.take_length_add_append]
      rfl
    have hafter : (front ++ m :: l :: finer).drop (front.length + 2) = finer := by
      rw [List.drop_length_add_append]
      rfl
    have hrest : (front ++ m :: l.step :: finer).drop (front.length + 1) = l.step :: finer := by
      rw [List.drop_length_add_append]
      rfl
    have hall : (front ++ [m, l]).all Level.atLast = (front ++ [m]).all Level.atLast := by
      simp [hlast]
    rw [List.cons_append, List.cons_append, List.length_cons, advanceAt, advanceAt]
    rw [hahead, hbefore, hafter, hrest, hall]
    by_cases hturn : (front ++ [m]).all Level.atLast = true
    · -- Both lists of levels have made the same steps; one more of them hands its slot down.
      rw [if_pos hturn, if_pos hturn, ← cascade_succ]
      simp
    · rw [if_neg hturn, if_neg hturn, Nat.add_sub_cancel, Nat.add_sub_cancel, ih]
      rfl

theorem insertAt_append (t : Timer τ) (now : Int) (front : List (Level τ))
    {fine : List (Level τ)} (hne : fine ≠ []) :
    insertAt front.length t now ⟨front ++ fine⟩ = ⟨front ++ place t now fine⟩ := by
  have hpos := List.length_pos_iff.2 hne
  have hentry : min front.length ((front ++ fine).length - 1) = front.length := by
    rw [List.length_append]
    omega
  rw [insertAt, depth, hentry, List.take_left, List.drop_left]

end Wheel

namespace Machine

open Wheel

variable {τ α β : Type}

/-! ### Computations that are carried out -/

theorem run_bind {x : Machine τ α} {w w' : Wheel τ} {a : α} (h : x.run w = .ok a w')
    (f : α → Machine τ β) : (x >>= f).run w = (f a).run w' := by
  show EStateM.bind x f w = f a w'
  rw [EStateM.bind, show x w = .ok a w' from h]

theorem run_get (f : Wheel τ → Machine τ β) (w : Wheel τ) : (get >>= f).run w = (f w).run w := rfl

theorem run_bind_error {x : Machine τ α} {w w' : Wheel τ} {trap : Trap}
    (h : x.run w = .error trap w') (f : α → Machine τ β) : (x >>= f).run w = .error trap w' := by
  show EStateM.bind x f w = _
  rw [EStateM.bind, show x w = .error trap w' from h]

theorem run_compute {x : Except Trap α} {a : α} (h : x = .ok a) (w : Wheel τ) :
    (compute x).run w = .ok a w := by
  rw [h]
  rfl

/-! ### Words -/

theorem long_of_fits {value : Int} (h : Time.Fits value) : long value = .ok value := if_pos h

theorem fits_of_le {value : Int} (hnonneg : 0 ≤ value) (hle : value ≤ Time.greatest) :
    Time.Fits value := by
  rw [Time.Fits, Time.least]
  omega

/-- Where nothing is negative, cutting off is rounding down. -/
theorem quotient_eq {a b : Int} (ha : 0 ≤ a) (hfits : a ≤ Time.greatest) (hb : 0 < b) :
    quotient a b = .ok (a / b) := by
  have hle : a / b ≤ a := Int.ediv_le_self b ha
  rw [quotient, if_neg (Int.ne_of_gt hb), Int.tdiv_eq_ediv_of_nonneg ha]
  exact long_of_fits (fits_of_le (Int.ediv_nonneg ha (Int.le_of_lt hb)) (Int.le_trans hle hfits))

theorem remainder_eq {a b : Int} (ha : 0 ≤ a) (hfits : a ≤ Time.greatest) (hb : 0 < b) :
    remainder a b = .ok (a % b) := by
  rw [remainder, quotient_eq ha hfits hb, Int.tmod_eq_emod_of_nonneg ha]
  rfl

theorem slotAhead_eq {l : Level τ} (h : l.WellFormed) (hcount : l.slotCount < 4294967296)
    {offset : Nat} (hfits : (offset : Int) ≤ Time.greatest) :
    slotAhead l offset = .ok (l.slotAhead offset : Int) := by
  have hpos : (0 : Int) < l.slotCount := Int.natCast_pos.2 h.valid.1
  have hrest : offset % l.slotCount < l.slotCount := Nat.mod_lt _ h.valid.1
  have hcursor := h.cursor_lt
  have hsum : ((l.cursor + offset % l.slotCount : Nat) : Int) ≤ Time.greatest := by
    rw [Time.greatest]
    omega
  rw [slotAhead, remainder_eq (Int.natCast_nonneg offset) hfits hpos]
  show (long (l.cursor + (offset % l.slotCount : Nat)) >>= fun sum => remainder sum l.slotCount) = _
  rw [← Int.natCast_add, long_of_fits (fits_of_le (Int.natCast_nonneg _) hsum)]
  show remainder ((l.cursor + offset % l.slotCount : Nat) : Int) l.slotCount = _
  rw [remainder_eq (Int.natCast_nonneg _) hsum hpos, ← Int.natCast_emod, Nat.add_mod_mod]
  rfl

/-- The sum is formed from the coarse end, and no part of it is larger than the whole. -/
theorem elapsed_eq (levels : List (Level τ)) (h : (elapsedSum levels : Int) ≤ Time.greatest) :
    elapsed levels = .ok (elapsedSum levels : Int) := by
  have hfrom : ∀ start : Nat, ((start + elapsedSum levels : Nat) : Int) ≤ Time.greatest →
      levels.foldlM (fun (sum : Int) (l : Level τ) => do
        let own ← long (l.cursor * l.width)
        long (sum + own)) (start : Int) = .ok ((start + elapsedSum levels : Nat) : Int) := by
    clear h
    induction levels with
    | nil => exact fun start _ => rfl
    | cons l finer ih =>
      intro start hle
      rw [elapsedSum_cons, ← Nat.add_assoc] at hle ⊢
      have hpart : ((start + l.cursor * l.width : Nat) : Int) ≤ Time.greatest := by omega
      have hown : ((l.cursor * l.width : Nat) : Int) ≤ Time.greatest := by omega
      rw [List.foldlM_cons, ← Int.natCast_mul,
        long_of_fits (fits_of_le (Int.natCast_nonneg _) hown)]
      show (long ((start : Int) + (l.cursor * l.width : Nat)) >>= _) = _
      rw [← Int.natCast_add, long_of_fits (fits_of_le (Int.natCast_nonneg _) hpart)]
      exact ih (start + l.cursor * l.width) hle
  have hall := hfrom 0 (by rwa [Nat.zero_add])
  rwa [Nat.zero_add] at hall

/-! ### Levels and slots -/

/-- Levels that fit the words of the machine. -/
structure Sound (levels : List (Level τ)) : Prop where
  wellFormed : LevelsWellFormed levels
  inWords : ∀ spec ∈ specsOf levels, spec.InWords
  /-- The cursors never stand for a time that a word cannot hold. -/
  total_le : (LevelSpec.totalSpan (specsOf levels) : Int) ≤ Time.greatest

theorem Sound.congr {levels levels' : List (Level τ)} (h : Sound levels)
    (hspecs : specsOf levels' = specsOf levels) (hwell : LevelsWellFormed levels') :
    Sound levels' where
  wellFormed := hwell
  inWords := hspecs ▸ h.inWords
  total_le := hspecs ▸ h.total_le

theorem Sound.suffix {levels fine : List (Level τ)} (h : Sound levels) (hsuffix : fine <:+ levels) :
    Sound fine := by
  obtain ⟨front, rfl⟩ := hsuffix
  have htotal := h.total_le
  rw [specsOf_append, LevelSpec.totalSpan_append] at htotal
  refine ⟨(List.forall_mem_append.1 h.wellFormed).2, ?_, by omega⟩
  intro spec hspec
  refine h.inWords spec ?_
  rw [specsOf_append]
  exact List.mem_append_right _ hspec

theorem Sound.elapsed_eq {levels : List (Level τ)} (h : Sound levels) :
    elapsed levels = .ok (elapsedIn levels) := by
  rw [elapsedIn_eq_elapsedSum h.wellFormed h.total_le]
  have hsum := elapsedSum_le_totalSpan h.wellFormed
  have htotal := h.total_le
  exact Machine.elapsed_eq levels (by omega)

theorem Sound.slotCount_lt {levels : List (Level τ)} (h : Sound levels) {l : Level τ}
    (hl : l ∈ levels) : l.slotCount < 4294967296 :=
  (h.inWords l.toLevelSpec (List.mem_map_of_mem hl)).1

theorem levelAt_run (front : List (Level τ)) (l : Level τ) (finer : List (Level τ)) :
    (levelAt front.length).run ⟨front ++ l :: finer⟩ = .ok l ⟨front ++ l :: finer⟩ := by
  have hl : (⟨front ++ l :: finer⟩ : Wheel τ).level? front.length = some l := by simp [level?]
  rw [levelAt, run_get, hl]
  rfl

/-- Looking up a level that is not there stops the machine. -/
theorem levelAt_run_error {w : Wheel τ} {i : Nat} (h : w.depth ≤ i) :
    (levelAt i).run w = .error (.noLevel ⟨w.depth, i⟩) w := by
  have hl : w.level? i = none := List.getElem?_eq_none h
  rw [levelAt, run_get, hl]
  rfl

theorem setLevel_run (front : List (Level τ)) (l m : Level τ) (finer : List (Level τ)) :
    (setLevel front.length m).run ⟨front ++ l :: finer⟩ = .ok () ⟨front ++ m :: finer⟩ := by
  have hset : (front ++ l :: finer).set front.length m = front ++ m :: finer := by simp
  rw [← hset]
  rfl

theorem putAt_run (front : List (Level τ)) {l : Level τ} {slot : Nat} (h : slot < l.slots.size)
    (t : Timer τ) (finer : List (Level τ)) :
    (putAt front.length slot t).run ⟨front ++ l :: finer⟩ =
      .ok () ⟨front ++ l.put slot t :: finer⟩ := by
  have hslot : 0 ≤ (slot : Int) ∧ (slot : Int) < l.slots.size := by omega
  rw [putAt, run_bind (levelAt_run front l finer), if_pos hslot, Int.toNat_natCast]
  exact setLevel_run front l (l.put slot t) finer

theorem takeCurrent_run (front : List (Level τ)) {l : Level τ} (h : l.WellFormed)
    (finer : List (Level τ)) : (takeCurrent front.length).run ⟨front ++ l :: finer⟩ =
      .ok l.current ⟨front ++ l.drain :: finer⟩ := by
  have hcursor : l.cursor < l.slots.size := by
    rw [h.size_slots]
    exact h.cursor_lt
  rw [takeCurrent, run_bind (levelAt_run front l finer), if_pos hcursor,
    run_bind (setLevel_run front l l.drain finer)]
  rfl

theorem stepAt_run (front : List (Level τ)) {l : Level τ} (h : l.WellFormed)
    (hcount : l.slotCount < 4294967296) (finer : List (Level τ)) :
    (stepAt front.length).run ⟨front ++ l :: finer⟩ =
      .ok l.atLast ⟨front ++ l.step :: finer⟩ := by
  have hcursor : l.cursor + 1 < 4294967296 := Nat.lt_of_le_of_lt h.cursor_lt hcount
  have hshort : short (l.cursor + 1) = .ok (l.cursor + 1) := if_pos hcursor
  rw [stepAt, run_bind (levelAt_run front l finer), run_bind (run_compute hshort _)]
  by_cases hbefore : l.cursor + 1 < l.slotCount
  · have hlast : l.atLast = false := decide_eq_false (Nat.not_le_of_lt hbefore)
    have hstep : l.step = { l with cursor := l.cursor + 1, drained := false } := by
      rw [Level.step, Nat.mod_eq_of_lt hbefore]
    rw [if_pos hbefore, ← hstep, run_bind (setLevel_run front l l.step finer), hlast]
    rfl
  · have hlast : l.atLast = true := decide_eq_true (Nat.le_of_not_lt hbefore)
    have hfirst : shortRemainder (l.cursor + 1) l.slotCount =
        .ok ((l.cursor + 1) % l.slotCount) := if_neg (Nat.ne_of_gt h.valid.1)
    rw [if_neg hbefore, run_bind (run_compute hfirst _)]
    show (setLevel front.length l.step >>= _).run _ = _
    rw [run_bind (setLevel_run front l l.step finer), hlast]
    rfl

/-! ### A timer falls in -/

theorem distance_le (t : Timer τ) (now : Int) (finer : List (Level τ)) :
    distance t now finer ≤ Time.greatest := (Time.fits_saturate _).2

/-- A slot at least one width ahead is found without leaving the words. -/
theorem slotAt_run (t : Timer τ) {ahead : Int} (hfits : ahead ≤ Time.greatest)
    (front : List (Level τ)) {l : Level τ} (h : l.WellFormed) (hcount : l.slotCount < 4294967296)
    (hreach : l.width ≤ ahead) (finer : List (Level τ)) :
    (do
      let slots ← compute (quotient ahead l.width)
      let slot ← compute (slotAhead l slots)
      putAt front.length slot t : Machine τ Unit).run ⟨front ++ l :: finer⟩ =
      .ok () ⟨front ++ l.put (l.slotAt ahead) t :: finer⟩ := by
  have hwidth : (0 : Int) < l.width := Int.natCast_pos.2 h.valid.2
  obtain ⟨n, rfl⟩ := Int.eq_ofNat_of_zero_le (Int.le_trans (Int.le_of_lt hwidth) hreach)
  have hslots : quotient (n : Int) l.width = .ok ((n / l.width : Nat) : Int) :=
    quotient_eq (Int.natCast_nonneg n) hfits hwidth
  have hoffset : ((n / l.width : Nat) : Int) ≤ Time.greatest := by
    have hle := Nat.div_le_self n l.width
    omega
  rw [run_bind (run_compute hslots _), run_bind (run_compute (slotAhead_eq h hcount hoffset) _)]
  exact putAt_run front (Level.slotAt_lt h n) t finer

/-- The loop that lets a timer fall in. The induction is on the levels below the one at which it
has arrived. -/
theorem fall_run (t : Timer τ) (now : Int) (front : List (Level τ)) {l : Level τ}
    {finer : List (Level τ)} (h : Sound (l :: finer)) :
    (fall t now front.length finer.length).run ⟨front ++ l :: finer⟩ =
      .ok () ⟨front ++ place t now (l :: finer)⟩ := by
  have hl : l.WellFormed := h.wellFormed l List.mem_cons_self
  have hcount : l.slotCount < 4294967296 := h.slotCount_lt List.mem_cons_self
  induction finer generalizing front l with
  | nil =>
    have hnone : elapsedIn ([] : List (Level τ)) = 0 := Time.wrap_of_fits (t := 0) (by decide)
    have hahead : Time.minus (Time.plus t.due 0) now = distance t now ([] : List (Level τ)) := by
      rw [distance, hnone]
    rw [List.length_nil, fall, run_bind (levelAt_run front l []), place, hahead]
    by_cases hreach : l.width ≤ distance t now ([] : List (Level τ))
    · have hreaches : l.reaches (distance t now []) = true := decide_eq_true hreach
      rw [if_pos hreach, if_pos hreaches]
      exact slotAt_run t (distance_le t now []) front hl hcount hreach []
    · have hreaches : l.reaches (distance t now []) = false := decide_eq_false hreach
      have hempty : ([] : List (Level τ)).isEmpty = true := rfl
      rw [if_neg hreach, hreaches, if_neg Bool.false_ne_true, if_pos hempty]
      have hnext := Level.nextSlot_lt hl
      rw [Level.nextSlot] at hnext ⊢
      cases hdrained : l.drained with
      | true =>
        rw [hdrained, if_pos rfl] at hnext
        have hfits : ((1 : Nat) : Int) ≤ Time.greatest := by decide
        have hone : slotAhead l 1 = .ok (l.slotAhead 1 : Int) := slotAhead_eq hl hcount hfits
        rw [if_pos rfl, if_pos rfl, run_bind (run_compute hone _)]
        exact putAt_run front hnext t []
      | false =>
        rw [hdrained, if_neg Bool.false_ne_true] at hnext
        rw [if_neg Bool.false_ne_true, if_neg Bool.false_ne_true]
        exact putAt_run front hnext t []
  | cons m rest ih =>
    have hfiner : Sound (m :: rest) := h.suffix (List.suffix_cons l (m :: rest))
    have hdrop : (front ++ l :: m :: rest).drop (front.length + 1) = m :: rest := by
      rw [List.drop_length_add_append]
      rfl
    have htime : elapsed ((front ++ l :: m :: rest).drop (front.length + 1)) =
        .ok (elapsedIn (m :: rest)) := by
      rw [hdrop]
      exact hfiner.elapsed_eq
    have hahead : Time.minus (Time.plus t.due (elapsedIn (m :: rest))) now =
        distance t now (m :: rest) := rfl
    rw [List.length_cons, fall, run_get,
      run_bind (run_compute htime _), run_bind (levelAt_run front l (m :: rest)), place, hahead]
    by_cases hreach : l.width ≤ distance t now (m :: rest)
    · have hreaches : l.reaches (distance t now (m :: rest)) = true := decide_eq_true hreach
      rw [if_pos hreach, if_pos hreaches]
      exact slotAt_run t (distance_le t now (m :: rest)) front hl hcount hreach (m :: rest)
    · have hreaches : l.reaches (distance t now (m :: rest)) = false := decide_eq_false hreach
      have hbelow := ih (front ++ [l]) hfiner (hfiner.wellFormed m List.mem_cons_self)
        (hfiner.slotCount_lt List.mem_cons_self)
      rw [List.length_append, List.append_assoc, List.append_assoc] at hbelow
      rw [if_neg hreach, hreaches, if_neg Bool.false_ne_true]
      exact hbelow

theorem insertAt_run {w : Wheel τ} (h : Sound w.levels) (i : Nat) (t : Timer τ) (now : Int) :
    (insertAt i t now).run w = .ok () (w.insertAt i t now) := by
  rw [insertAt, run_get]
  by_cases hempty : w.isEmpty = true
  · rw [if_pos hempty, insertAt_of_isEmpty hempty]
    rfl
  · rw [if_neg hempty]
    have hpos : 0 < w.levels.length := List.length_pos_iff.2 (mt isEmpty_iff.2 hempty)
    have hentry : min i (w.depth - 1) < w.levels.length := by
      rw [depth]
      omega
    show (fall t now (min i (w.depth - 1)) (w.depth - 1 - min i (w.depth - 1))).run w = _
    rw [Wheel.insertAt]
    generalize min i (w.depth - 1) = entry at hentry ⊢
    have hfall : Sound (w.levels.drop entry) := h.suffix (List.drop_suffix entry w.levels)
    have hlength : (w.levels.take entry).length = entry :=
      List.length_take_of_le (Nat.le_of_lt hentry)
    have hfiner : w.depth - 1 - entry = (w.levels.drop (entry + 1)).length := by
      rw [List.length_drop, depth]
      omega
    rw [List.drop_eq_getElem_cons hentry] at hfall
    have hrun := fall_run t now (w.levels.take entry) hfall
    rwa [← hfiner, hlength, ← List.drop_eq_getElem_cons hentry, List.take_append_drop] at hrun

/-- The timers that a level hands down fall in one after the other. -/
theorem insertAll_run (ts : List (Timer τ)) (now : Int) (front : List (Level τ))
    {fine : List (Level τ)} (h : Sound (front ++ fine)) (hne : fine ≠ []) :
    (ts.forM fun t => insertAt front.length t now).run ⟨front ++ fine⟩ =
      .ok () ⟨front ++ placeAll ts now fine⟩ := by
  induction ts generalizing fine with
  | nil => rfl
  | cons t ts ih =>
    have hfirst := insertAt_run (w := ⟨front ++ fine⟩) h front.length t now
    rw [insertAt_append t now front hne] at hfirst
    have hspecs : specsOf (front ++ place t now fine) = specsOf (front ++ fine) := by simp
    have hwell : LevelsWellFormed (front ++ place t now fine) := by
      obtain ⟨hfront, hfine⟩ := List.forall_mem_append.1 h.wellFormed
      exact List.forall_mem_append.2 ⟨hfront, wellFormed_place hfine t now⟩
    show (insertAt front.length t now >>= fun _ =>
      ts.forM fun t => insertAt front.length t now).run _ = _
    rw [run_bind hfirst]
    exact ih (h.congr hspecs hwell) (ne_nil_of_specsOf_eq (specsOf_place t now fine) hne)

/-! ### A level moves -/

theorem split_of_lt {levels : List (Level τ)} {i : Nat} (hi : i < levels.length) :
    ∃ front l finer, levels = front ++ l :: finer ∧ front.length = i := by
  have hlevel : (⟨levels⟩ : Wheel τ).level? i = some levels[i] := List.getElem?_eq_getElem hi
  obtain ⟨front, finer, hlevels, hlength⟩ := split_of_level? hlevel
  exact ⟨front, levels[i], finer, hlevels, hlength⟩

/-- A level hands its current slot down, and the timers fall in one level below. -/
theorem handDown_run {levels : List (Level τ)} (h : Sound levels) (now : Int) {i : Nat}
    (hi : i + 1 < levels.length) :
    (do
      let ts ← takeCurrent i
      ts.forM fun t => insertAt (i + 1) t now : Machine τ Unit).run ⟨levels⟩ =
      .ok () ⟨handDown now i levels⟩ := by
  obtain ⟨front, l, finer, rfl, rfl⟩ := split_of_lt (Nat.lt_of_succ_lt hi)
  have hl : l.WellFormed := h.wellFormed l (by simp)
  have hne : finer ≠ [] := by
    rintro rfl
    simp at hi
  have hbelow : Sound ((front ++ [l.drain]) ++ finer) := by
    refine h.congr (by simp) ?_
    have hparts := List.forall_mem_append.1 h.wellFormed
    refine List.forall_mem_append.2 ⟨List.forall_mem_append.2 ⟨hparts.1, ?_⟩, ?_⟩
    · exact List.forall_mem_singleton.2 (Level.wellFormed_drain hl)
    · exact (List.forall_mem_cons.1 hparts.2).2
  have hall := insertAll_run l.current now (front ++ [l.drain]) hbelow hne
  rw [List.length_append, List.append_assoc, List.append_assoc] at hall
  rw [run_bind (takeCurrent_run front hl finer), handDown_length]
  exact hall

/-- The recursion that moves a level. The induction is on the levels above the one that moves. -/
theorem advance_run {levels : List (Level τ)} (h : Sound levels) (now : Int) {i : Nat}
    (hi : i < levels.length) :
    (advance now i).run ⟨levels⟩ = .ok () ⟨advanceAt now i levels⟩ := by
  obtain ⟨front, l, finer, rfl, rfl⟩ := split_of_lt hi
  clear hi
  induction front using List.reverseRecOn generalizing l finer with
  | nil =>
    have hstep := stepAt_run [] (h.wellFormed l (by simp)) (h.slotCount_lt (by simp)) finer
    rw [List.length_nil] at hstep ⊢
    rw [advance, run_bind hstep]
    rfl
  | append_singleton front m ih =>
    have hl : l.WellFormed := h.wellFormed l (by simp)
    have hstep := stepAt_run (front ++ [m]) hl (h.slotCount_lt (by simp)) finer
    rw [List.length_append] at hstep ⊢
    rw [List.length_singleton] at hstep ⊢
    rw [advance, run_bind hstep]
    cases hlast : l.atLast with
    | false =>
      have halone := advanceAt_of_alone now (front ++ [m]) (fun _ => hlast) finer
      rw [List.length_append, List.length_singleton] at halone
      rw [if_neg Bool.false_ne_true, halone]
      rfl
    | true =>
      have hmove := advanceAt_of_atLast now hlast front m finer
      rw [List.append_assoc, List.append_assoc, if_pos rfl]
      rw [List.append_assoc] at h
      have hsound : Sound (front ++ m :: l.step :: finer) := by
        refine h.congr (by simp) ?_
        have hparts := List.forall_mem_append.1 h.wellFormed
        have hcoarse := List.forall_mem_cons.1 hparts.2
        refine List.forall_mem_append.2 ⟨hparts.1, List.forall_mem_cons.2 ⟨hcoarse.1, ?_⟩⟩
        exact List.forall_mem_cons.2
          ⟨Level.wellFormed_step hl, (List.forall_mem_cons.1 hcoarse.2).2⟩
      -- Once the coarser levels have moved, the levels are still as many and as sound.
      have hspecs := specsOf_advanceAt now front.length (front ++ m :: l.step :: finer)
      have hmoved : Sound (advanceAt now front.length (front ++ m :: l.step :: finer)) :=
        hsound.congr hspecs (wellFormed_advanceAt hsound.wellFormed now _)
      have hlength := congrArg List.length hspecs
      rw [length_specsOf, length_specsOf] at hlength
      have hdown := handDown_run hmoved now (i := front.length) (by rw [hlength]; simp)
      show (advance now front.length >>= fun _ => _).run ⟨front ++ m :: l.step :: finer⟩ = _
      rw [run_bind (ih m (l.step :: finer) hsound)]
      exact hdown.trans (by rw [← hmove]; rfl)

theorem advance_run_error (now : Int) {w : Wheel τ} {i : Nat} (h : w.depth ≤ i) :
    (advance now i).run w = .error (.noLevel ⟨w.depth, i⟩) w := by
  have hstep : (stepAt i).run w = .error (.noLevel ⟨w.depth, i⟩) w :=
    run_bind_error (levelAt_run_error h) _
  cases i with
  | zero => exact run_bind_error hstep _
  | succ i => exact run_bind_error hstep _

/-- The current slot of a level is taken out if and only if there is such a level. -/
theorem takeCurrent_eq {w : Wheel τ} (h : LevelsWellFormed w.levels) (i : Nat) :
    (takeCurrent i).run w =
      match w.level? i with
      | some l => .ok l.current ⟨w.levels.set i l.drain⟩
      | none => .error (.noLevel ⟨w.depth, i⟩) w := by
  cases hl : w.level? i with
  | none => exact run_bind_error (levelAt_run_error (List.getElem?_eq_none_iff.1 hl)) _
  | some l =>
    have htake : w.take i = .ok (l.current, ⟨w.levels.set i l.drain⟩) := by rw [take, hl]
    obtain ⟨coarse, m, finer, hlevels, rfl, hts, hrest⟩ := eq_of_take htake
    show (takeCurrent coarse.length).run w = .ok l.current ⟨w.levels.set coarse.length l.drain⟩
    rw [hts, hrest, ← takeCurrent_run coarse (h m (by simp [hlevels])) finer, ← hlevels]

theorem advanceFinest_run {w : Wheel τ} (h : Sound w.levels) (now : Int) :
    (advanceFinest now).run w = .ok () (w.advanceFinest now) := by
  rw [advanceFinest, run_get]
  by_cases hempty : w.isEmpty = true
  · obtain ⟨levels⟩ := w
    obtain rfl : levels = [] := isEmpty_iff.1 hempty
    rfl
  · have hpos : 0 < w.levels.length := List.length_pos_iff.2 (mt isEmpty_iff.2 hempty)
    rw [if_neg hempty]
    exact advance_run h now (Nat.sub_lt hpos Nat.one_pos)

theorem takeFinest_run {w : Wheel τ} (h : Sound w.levels) :
    takeFinest.run w = .ok w.takeFinest.1 w.takeFinest.2 := by
  rw [takeFinest, run_get, Wheel.takeFinest, finest?]
  cases hlast : w.levels.getLast? with
  | none =>
    have hempty : w.isEmpty = true := isEmpty_iff.2 (List.getLast?_eq_none_iff.1 hlast)
    rw [if_pos hempty]
    rfl
  | some l =>
    obtain ⟨coarse, hlevels⟩ := List.getLast?_eq_some_iff.1 hlast
    obtain ⟨levels⟩ := w
    obtain rfl : levels = coarse ++ [l] := hlevels
    have hne : ¬(⟨coarse ++ [l]⟩ : Wheel τ).isEmpty = true := by simp [Wheel.isEmpty_iff]
    have hfinest : (⟨coarse ++ [l]⟩ : Wheel τ).depth - 1 = coarse.length := by simp [depth]
    rw [if_neg hne, hfinest, takeCurrent_run coarse (h.wellFormed l (by simp)) []]
    simp

theorem runTicks_run {w : Wheel τ} (h : Sound w.levels) (now step : Int) (k n : Nat) :
    (runTicks now step k n).run w =
      .ok (run.go now step k n w).1 (run.go now step k n w).2 := by
  induction n generalizing k w with
  | zero => rfl
  | succ n ih =>
    have hspecs := specsOf_advanceAt (now + k * step) (w.depth - 1) w.levels
    have hmoved : Sound (w.advanceFinest (now + k * step)).levels :=
      h.congr hspecs (wellFormed_advanceAt h.wellFormed _ _)
    have hticked : Sound (w.tick (now + k * step)).2.levels :=
      h.congr (specsOf_tick _ w) (wellFormed_tick h.wellFormed _)
    rw [runTicks, run_bind (advanceFinest_run h _), run_bind (takeFinest_run hmoved)]
    show (runTicks now step (k + 1) n >>= _).run (w.tick (now + k * step)).2 = _
    rw [run_bind (ih hticked (k + 1))]
    rfl

end Machine

/-! ### Any operations -/

/-- What a machine answers. An index out of range is not answered: it stops the machine. -/
def Wheel.Reply.outcome {τ : Type} : Wheel.Reply τ → Except Trap (Wheel.Reply τ)
  | .outOfRange reason => .error (.noLevel reason)
  | .done => .ok .done
  | .refused reason => .ok (.refused reason)
  | .taken ts => .ok (.taken ts)
  | .ran entries => .ok (.ran entries)

namespace Machine

open Wheel

variable {τ : Type}

/-- The machine carries out any operation as the functions on wheels do. -/
theorem perform_run {w : Wheel τ} (h : Sound w.levels) (op : Operation τ) :
    (perform op).run w = (compute (w.perform op).1.outcome).run (w.perform op).2 := by
  cases op with
  | append spec =>
    rw [perform, run_get, Wheel.perform]
    cases w.append spec <;> rfl
  | insert t now =>
    rw [perform, run_bind (insertAt_run h 0 t now), Wheel.perform, insert_eq_insertAt]
    rfl
  | insertAt i t now =>
    rw [perform, run_bind (insertAt_run h i t now)]
    rfl
  | advance i now =>
    by_cases hi : i < w.depth
    · rw [perform, run_bind (advance_run h now hi), Wheel.perform, Wheel.advance, if_pos hi]
      rfl
    · have hout := advance_run_error now (Nat.le_of_not_lt hi)
      rw [perform, run_bind_error hout, Wheel.perform, Wheel.advance, if_neg hi]
      rfl
  | advanceFinest now =>
    rw [perform, run_bind (advanceFinest_run h now)]
    rfl
  | take i =>
    have hrun := takeCurrent_eq h.wellFormed i
    rw [perform, Wheel.perform, take]
    cases hl : w.level? i with
    | some l =>
      rw [hl] at hrun
      rw [run_bind hrun]
      rfl
    | none =>
      rw [hl] at hrun
      rw [run_bind_error hrun]
      rfl
  | takeFinest =>
    rw [perform, run_bind (takeFinest_run h)]
    rfl
  | run now step count =>
    rw [perform, run_bind (runTicks_run h now step 1 count)]
    rfl

/-- A wheel only grows: if it is sound in the end, it has been from the start. -/
theorem sound_of_performAll {w : Wheel τ} (h : LevelsWellFormed w.levels)
    {ops : List (Operation τ)} (hfinal : Sound (w.performAll ops).2.levels) : Sound w.levels where
  wellFormed := h
  inWords := by
    have hwords := hfinal.inWords
    rw [specsOf_performAll] at hwords
    exact fun spec hspec => hwords spec (List.mem_append_left _ hspec)
  total_le := by
    have htotal := hfinal.total_le
    rw [specsOf_performAll, LevelSpec.totalSpan_append] at htotal
    omega

theorem performAll_run {w : Wheel τ} (h : LevelsWellFormed w.levels) {ops : List (Operation τ)}
    (hfinal : Sound (w.performAll ops).2.levels) :
    performAll ops w = ((w.performAll ops).1.map Reply.outcome, (w.performAll ops).2) := by
  induction ops generalizing w with
  | nil => rfl
  | cons op rest ih =>
    have hfirst := perform_run (sound_of_performAll h hfinal) op
    have hrest := ih (wellFormed_perform h op) hfinal
    rw [performAll, hfirst]
    cases houtcome : (w.perform op).1.outcome with
    | ok reply =>
      show (Except.ok reply :: (performAll rest (w.perform op).2).1,
        (performAll rest (w.perform op).2).2) = _
      rw [hrest, ← houtcome]
      rfl
    | error trap =>
      show (Except.error trap :: (performAll rest (w.perform op).2).1,
        (performAll rest (w.perform op).2).2) = _
      rw [hrest, ← houtcome]
      rfl

/-- Let a machine perform any operations on a new wheel, and let the numbers that describe its
levels be words, and whole turns of all levels together be no longer than a word can hold. Then the
machine answers what the functions on wheels answer and has their wheel in the end; only indices
out of range stop it. Each level keeps its shape, with the cursor on one of its slots. The machine
can add up what the cursors stand for from any level on, and it lets any timer fall in at any level
at any reading of the clock. It moves a level and takes out a slot if and only if there is such a
level; if there is none, nothing has changed. -/
theorem carried_out (ops : List (Operation τ))
    (hwords : ∀ l ∈ ((Wheel.empty : Wheel τ).performAll ops).2.levels, l.InWords)
    (htotal : (LevelSpec.totalSpan
      (specsOf ((Wheel.empty : Wheel τ).performAll ops).2.levels) : Int) ≤ Time.greatest) :
    let replies := ((Wheel.empty : Wheel τ).performAll ops).1
    let w := ((Wheel.empty : Wheel τ).performAll ops).2
    performAll ops Wheel.empty = (replies.map Reply.outcome, w) ∧
    (∀ l ∈ w.levels, 1 ≤ l.slotCount ∧ 1 ≤ l.width ∧ l.cursor < l.slotCount ∧
      l.slots.size = l.slotCount) ∧
    (∀ i, elapsed (w.levels.drop i) = .ok (w.elapsed i)) ∧
    (∀ i t now, (insertAt i t now).run w = .ok () (w.insertAt i t now)) ∧
    (∀ i now, (advance now i).run w =
      if i < w.depth then .ok () ⟨advanceAt now i w.levels⟩
      else .error (.noLevel ⟨w.depth, i⟩) w) ∧
    (∀ i, (takeCurrent i).run w =
      match w.level? i with
      | some l => .ok l.current ⟨w.levels.set i l.drain⟩
      | none => .error (.noLevel ⟨w.depth, i⟩) w) := by
  have hnew : LevelsWellFormed (Wheel.empty : Wheel τ).levels :=
    fun l hl => absurd hl List.not_mem_nil
  have hsound : Sound ((Wheel.empty : Wheel τ).performAll ops).2.levels := by
    refine ⟨wellFormed_performAll hnew ops, ?_, htotal⟩
    intro spec hspec
    obtain ⟨l, hl, rfl⟩ := List.mem_map.1 hspec
    exact hwords l hl
  refine ⟨performAll_run hnew hsound, ?_, ?_, insertAt_run hsound, ?_,
    takeCurrent_eq hsound.wellFormed⟩
  · intro l hl
    have h := hsound.wellFormed l hl
    exact ⟨h.valid.1, h.valid.2, h.cursor_lt, h.size_slots⟩
  · intro i
    exact (hsound.suffix (List.drop_suffix i _)).elapsed_eq
  · intro i now
    generalize ((Wheel.empty : Wheel τ).performAll ops).2 = w at hsound ⊢
    split
    next hi => exact advance_run hsound now hi
    next hi => exact advance_run_error now (Nat.le_of_not_lt hi)

/-- A level without slots is refused. Two timers fall in whose due times are at the ends of the
range, while the readings of the clock are at the opposite ends. The machine is stopped twice, by an
index out of range, and goes on afterwards with the wheel that it had. -/
theorem carried_out_at_both_ends : ∃ (ops : List (Operation Unit)) (w : Wheel Unit),
    performAll ops Wheel.empty =
      (((Wheel.empty : Wheel Unit).performAll ops).1.map Reply.outcome, w) ∧
    ((Wheel.empty : Wheel Unit).performAll ops).1 = [.refused (.invalidLevel 0 5), .done, .done,
      .done, .done, .outOfRange ⟨2, 2⟩, .ran [(1, .once ⟨2⟩ Time.least none)],
      .outOfRange ⟨2, 9⟩] ∧
    elapsed (w.levels.drop 0) = .ok (w.elapsed 0) ∧ w.elapsed 0 = 4294967305 ∧
    (advance 0 2).run w = .error (.noLevel ⟨w.depth, 2⟩) w := by
  let ops : List (Operation Unit) :=
    [.append ⟨0, 5, "none"⟩, .append ⟨3, 4294967295, "coarse"⟩, .append ⟨2, 10, "fine"⟩,
      .insert (.once ⟨1⟩ Time.greatest none) Time.least,
      .insertAt 7 (.once ⟨2⟩ Time.least none) Time.greatest, .advance 2 Time.greatest,
      .run 0 10 3, .take 9]
  obtain ⟨hall, -, helapsed, -, hadvance, -⟩ :=
    carried_out ops (by decide +kernel) (by decide +kernel)
  have hdepth : ¬2 < ((Wheel.empty : Wheel Unit).performAll ops).2.depth := by decide +kernel
  exact ⟨ops, _, hall, by decide +kernel, helapsed 0, by decide +kernel,
    (hadvance 2 0).trans (if_neg hdepth)⟩

end Machine

end TimingWheel
