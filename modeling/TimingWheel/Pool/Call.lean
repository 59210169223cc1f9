import TimingWheel.Pool.Basic

/-!
# Whole calls on a worker pool

What a caller or a worker does from end to end, when nothing comes between its
steps. Each of these is a sequence of steps of the pool.

## Main statements

- `Pool.run_submit`, `Pool.run_submit_rejected` — handing a job over, while others may do so too
- `Pool.run_takeUp` — taking the first job up
- `Pool.run_finish` — ending a run that the worker survives
-/

namespace TimingWheel

namespace Worker

variable {β : Type}

def isIdle : Worker β → Bool
  | idle => true
  | _ => false

/-- What becomes of a worker when the queue is closed and empty. -/
def retire : Worker β → Worker β
  | idle => left
  | w => w

theorem eq_idle_of_isIdle {w : Worker β} (h : w.isIdle = true) : w = idle := by
  cases w <;> simp_all [isIdle]

end Worker

namespace Pool

variable {β : Type}

/-- Hands a job over and answers whether it was accepted. It is refused if the pool is
closed or has no workers left. -/
def submit (job : β) (p : Pool β) : Bool × Pool β :=
  if p.isOpen && p.hasReceiver then
    (true, { p with
      queue := p.queue ++ [job]
      queued := p.queued + 1
      outstanding := p.outstanding + 1 })
  else (false, p)

/-- Hands jobs over, one after the other. -/
def submitAll (jobs : List β) (p : Pool β) : Pool β :=
  jobs.foldl (fun p job => (p.submit job).2) p

/-- The first idle worker takes up the first job of the queue, if there are both. -/
def takeUp (p : Pool β) : Option (Nat × β × Pool β) :=
  match p.workers.findIdx? Worker.isIdle, p.queue with
  | some w, job :: rest =>
    some (w, job, { p.setWorker w (.running job) with
      queue := rest
      queued := wordPred p.queued })
  | _, _ => none

/-- Worker `w` ends the run of its job. It reports the job as finished, unless the job
has ended the worker. -/
def finish (w : Nat) (ending : Ending) (p : Pool β) : Pool β :=
  match p.workers[w]?, ending with
  | some (.running job), .fatal => (p.bury w job).1
  | some (.running _), _ => { p.setWorker w .idle with outstanding := p.outstanding - 1 }
  | _, _ => p

/-- Closes a pool whose workers have nothing left to do, and lets them go. -/
def shut (p : Pool β) : Pool β :=
  { p with gate := .closed, workers := p.workers.map Worker.retire }

/-! ### Calls as sequences of steps -/

variable {p : Pool β}

theorem eraseIdx_last {α : Type} (l : List α) (a : α) : (l ++ [a]).eraseIdx l.length = l := by
  rw [List.eraseIdx_append_of_length_le (Nat.le_refl _), Nat.sub_self]
  exact List.append_nil l

/-- A job that finds a receiver is counted, announced and sent, whatever other jobs are being
handed over. -/
theorem run_submit (job : β) (hopen : p.isOpen = true) (hlive : p.hasReceiver = true) :
    p.run [.submit job, .announce p.submissions.length, .send p.submissions.length] =
      some ((p.submit job).2, [.accepted job]) := by
  have hreceives : p.workers.any Worker.isLive = true := hlive
  simp [run, step, submit, hopen, hasReceiver, hreceives, eraseIdx_last, -List.any_eq_true]

/-- A job that finds none is counted and announced, and both are taken back. -/
theorem run_submit_rejected (job : β) (hopen : p.isOpen = true) (hgone : p.hasReceiver = false) :
    p.run [.submit job, .announce p.submissions.length, .send p.submissions.length,
      .retract p.submissions.length, .refuse p.submissions.length] =
      some (p, [.refused job]) := by
  have hreceives : p.workers.any Worker.isLive = false := hgone
  simp [run, step, hopen, hasReceiver, hreceives, eraseIdx_last, wordPred, -List.any_eq_true,
    -List.any_eq_false]

/-- A job is received and counted off the queue. -/
theorem run_takeUp {q : Pool β} {w : Nat} {job : β} (h : p.takeUp = some (w, job, q)) :
    p.run [.receive w, .begin w] = some (q, [.taken w job]) := by
  unfold takeUp at h
  split at h
  · rename_i v first rest hfind hqueue
    obtain ⟨rfl, rfl, rfl⟩ : v = w ∧ first = job ∧ _ = q := by simpa using h
    obtain ⟨hlt, hidle, -⟩ := List.findIdx?_eq_some_iff_getElem.1 hfind
    simp [run, step, setWorker, Worker.eq_idle_of_isIdle hidle, hqueue, hlt]
  · simp at h

/-- The run of a job ends and is reported. -/
theorem run_finish {w : Nat} {job : β} {ending : Ending}
    (hw : p.workers[w]? = some (.running job)) (he : ending ≠ .fatal) :
    p.run [.complete w ending, .report w] =
      some (p.finish w ending, [.ran w job ending, .finished job]) := by
  obtain ⟨hlt, hworker⟩ := List.getElem?_eq_some_iff.1 hw
  cases ending with
  | fatal => exact absurd rfl he
  | returned => simp [run, step, finish, setWorker, hworker, hlt]
  | failed => simp [run, step, finish, setWorker, hworker, hlt]

end Pool

end TimingWheel
