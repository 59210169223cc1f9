import TimingWheel.Fault

/-!
# Worker pools

A pool is a fixed number of workers that take jobs from one queue, first come first
served. Callers hand jobs over and do not wait for them. Closing the queue lets the
workers finish what is queued and then leave.

Callers and workers run at the same time and share two counters: the jobs that are
queued, and the jobs that are outstanding, which is to say handed over and not yet
finished. The pool is therefore a state with small steps, each of which is taken at
once while anything may happen between two of them.

## Main definitions

- `Pool` — the queue, the counters, the workers, and the calls in progress
- `Pool.Action` — the steps of callers, of workers and of closing the pool
- `Pool.step` — the state after a step, if it can be taken, and what it amounts to
- `Pool.run` — a sequence of steps

## Design notes

What a job does is left open (`β`), and so is how it ends: that is part of the step
that completes it. A queue that no worker can receive from any more loses what it
holds, as nobody could ever see it.
-/

namespace TimingWheel

/-- How the run of a job ends. -/
inductive Ending where
  | returned
  /-- It fails in a way that its worker contains. -/
  | failed
  /-- It fails in a way that ends its worker too. -/
  | fatal
deriving DecidableEq, Repr

/-- A worker and the job in its hands. -/
inductive Worker (β : Type) where
  | idle
  /-- Has received a job but not yet counted it off the queue. -/
  | received (job : β)
  | running (job : β)
  /-- Has run a job but not yet reported it as finished. -/
  | completed (job : β)
  /-- Has left, after the queue was closed. -/
  | left
  /-- Was ended by a job, which stays unfinished. -/
  | dead (job : β)
deriving DecidableEq, Repr

namespace Worker

variable {β : Type}

/-- The worker can still receive from the queue. -/
def isLive : Worker β → Bool
  | left | dead _ => false
  | idle | received _ | running _ | completed _ => true

end Worker

/-- A call that hands a job over, and how far it has come. -/
inductive Submission (β : Type) where
  /-- The job counts as outstanding. -/
  | counted (job : β)
  /-- The job counts as queued, too. -/
  | announced (job : β)
  /-- The queue has no receivers left, and both counters are to be taken back. -/
  | rejected (job : β)
  /-- The job no longer counts as queued. -/
  | retracted (job : β)
deriving DecidableEq, Repr

/-- Whether the queue of a pool takes jobs. -/
inductive Gate where
  | opened
  /-- It is closed, and the closing call waits for the workers to leave. A job that
  closes its own pool runs on the worker `inside`, which is not waited for. -/
  | closing (inside : Option Nat)
  /-- It is closed, and the closing call has returned. -/
  | closed
deriving DecidableEq, Repr

/-- A worker pool. -/
structure Pool (β : Type) where
  workers : List (Worker β)
  gate : Gate := .opened
  /-- The queue: jobs that were sent and not yet received. -/
  queue : List β := []
  /-- The calls in progress that hand a job over. -/
  submissions : List (Submission β) := []
  /-- The counter of queued jobs. It is a word that wraps. -/
  queued : Nat := 0
  /-- The counter of outstanding jobs. It never goes below zero. -/
  outstanding : Nat := 0
deriving DecidableEq, Repr

namespace Pool

variable {β : Type}

/-- A pool with the given number of workers, all of them idle. -/
def ofSize (size : Nat) : Pool β := { workers := List.replicate size .idle }

def create (size : Nat) : Except Fault (Pool β) :=
  if size = 0 then .error .noWorkers else .ok (ofSize size)

/-- A pool made where the system may refuse threads: `spawn n` tells why it refuses the thread asked
for after `n` others, if it does. The threads that it gave are let go again then. -/
def createOn (spawn : Nat → Option String) (size : Nat) : Except Fault (Pool β) :=
  if size = 0 then .error .noWorkers
  else match (List.range size).findSome? spawn with
    | some reason => .error (.spawnFailed reason)
    | none => .ok (ofSize size)

def isOpen (p : Pool β) : Bool := decide (p.gate = .opened)

/-- Number of workers that were not yet let go. A worker that a job has ended still
counts. -/
def size (p : Pool β) : Nat := if p.isOpen then p.workers.length else 0

/-- Some worker can still receive from the queue. -/
def hasReceiver (p : Pool β) : Bool := p.workers.any Worker.isLive

/-- No job is outstanding, so that a caller who waits for this goes on. -/
def isIdle (p : Pool β) : Bool := decide (p.outstanding = 0)

/-- The predecessor of a word that wraps. -/
def wordPred (n : Nat) : Nat := if n = 0 then 18446744073709551615 else n - 1

/-- A step of a caller, of a worker, or of closing the pool. Calls in progress and
workers are named by their positions. -/
inductive Action (β : Type) where
  /-- A caller begins to hand a job over and counts it as outstanding. -/
  | submit (job : β)
  /-- Call `i` counts its job as queued. -/
  | announce (i : Nat)
  /-- Call `i` sends its job to the queue. -/
  | send (i : Nat)
  /-- Call `i`, whose job was rejected, no longer counts it as queued. -/
  | retract (i : Nat)
  /-- Call `i` no longer counts its job as outstanding, and answers that it was refused. -/
  | refuse (i : Nat)
  /-- Worker `w` receives the first job of the queue. -/
  | receive (w : Nat)
  /-- Worker `w` counts the job off the queue and begins to run it. -/
  | begin (w : Nat)
  | complete (w : Nat) (ending : Ending)
  | report (w : Nat)
  /-- Worker `w` leaves, since the queue is closed and empty. -/
  | leave (w : Nat)
  /-- The queue is closed, by an outside caller or by the job of worker `inside`. -/
  | close (inside : Option Nat)
  | closed
deriving DecidableEq, Repr

/-- What a step amounts to, seen from outside. -/
inductive Event (β : Type) where
  | accepted (job : β)
  | refused (job : β)
  /-- A worker has taken the job up. -/
  | taken (w : Nat) (job : β)
  | ran (w : Nat) (job : β) (ending : Ending)
  | finished (job : β)
  /-- The last worker died and the queue lost the job. -/
  | lost (job : β)
deriving DecidableEq, Repr

def setWorker (w : Nat) (worker : Worker β) (p : Pool β) : Pool β :=
  { p with workers := p.workers.set w worker }

/-- The end of worker `w`. With the last worker the queue is lost. -/
def bury (w : Nat) (job : β) (p : Pool β) : Pool β × List (Event β) :=
  let p := p.setWorker w (.dead job)
  if p.hasReceiver then (p, []) else ({ p with queue := [] }, p.queue.map .lost)

/-- Every worker has left or is dead, but for the worker that is not waited for. -/
def allGone (inside : Option Nat) (p : Pool β) : Bool :=
  p.workers.zipIdx.all fun (worker, w) => !worker.isLive || inside == some w

/-- The closing call may come from outside at any time, and from a worker while it
runs a job. -/
def mayClose (inside : Option Nat) (p : Pool β) : Bool :=
  match inside with
  | none => true
  | some w => match p.workers[w]? with
    | some (.running _) => true
    | _ => false

/-- The state after a step, if the step can be taken, and what it amounts to. -/
def step (p : Pool β) : Action β → Option (Pool β × List (Event β))
  | .submit job =>
    if p.isOpen then
      some ({ p with
        outstanding := p.outstanding + 1
        submissions := p.submissions ++ [.counted job] }, [])
    else some (p, [.refused job])
  | .announce i =>
    match p.submissions[i]? with
    | some (.counted job) =>
      some ({ p with
        queued := p.queued + 1
        submissions := p.submissions.set i (.announced job) }, [])
    | _ => none
  | .send i =>
    match p.submissions[i]? with
    | some (.announced job) =>
      if p.hasReceiver then
        some ({ p with
          queue := p.queue ++ [job]
          submissions := p.submissions.eraseIdx i }, [.accepted job])
      else some ({ p with submissions := p.submissions.set i (.rejected job) }, [])
    | _ => none
  | .retract i =>
    match p.submissions[i]? with
    | some (.rejected job) =>
      some ({ p with
        queued := wordPred p.queued
        submissions := p.submissions.set i (.retracted job) }, [])
    | _ => none
  | .refuse i =>
    match p.submissions[i]? with
    | some (.retracted job) =>
      some ({ p with
        outstanding := p.outstanding - 1
        submissions := p.submissions.eraseIdx i }, [.refused job])
    | _ => none
  | .receive w =>
    match p.workers[w]?, p.queue with
    | some .idle, job :: rest =>
      some ({ p.setWorker w (.received job) with queue := rest }, [.taken w job])
    | _, _ => none
  | .begin w =>
    match p.workers[w]? with
    | some (.received job) =>
      some ({ p.setWorker w (.running job) with queued := wordPred p.queued }, [])
    | _ => none
  | .complete w ending =>
    match p.workers[w]?, ending with
    | some (.running job), .fatal =>
      let (p, lost) := p.bury w job
      some (p, .ran w job .fatal :: lost)
    | some (.running job), ending => some (p.setWorker w (.completed job), [.ran w job ending])
    | _, _ => none
  | .report w =>
    match p.workers[w]? with
    | some (.completed job) =>
      some ({ p.setWorker w .idle with outstanding := p.outstanding - 1 }, [.finished job])
    | _ => none
  | .leave w =>
    match p.workers[w]?, p.queue with
    | some .idle, [] => if p.isOpen then none else some (p.setWorker w .left, [])
    | _, _ => none
  | .close inside =>
    if p.isOpen && p.submissions.isEmpty && p.mayClose inside then
      some ({ p with gate := .closing inside }, [])
    else none
  | .closed =>
    match p.gate with
    | .closing inside => if p.allGone inside then some ({ p with gate := .closed }, []) else none
    | _ => none

/-- Takes the given steps, as long as each can be taken. -/
def run (p : Pool β) : List (Action β) → Option (Pool β × List (Event β))
  | [] => some (p, [])
  | action :: rest => do
    let (p, events) ← p.step action
    let (p, later) ← p.run rest
    return (p, events ++ later)

theorem run_append (p : Pool β) (before after : List (Action β)) :
    p.run (before ++ after) =
      (p.run before).bind fun (q, events) =>
        (q.run after).map fun (r, later) => (r, events ++ later) := by
  induction before generalizing p with
  | nil =>
    show p.run after = (p.run after).map _
    cases p.run after <;> simp
  | cons action rest ih =>
    simp only [List.cons_append, run]
    cases p.step action with
    | none => rfl
    | some next =>
      obtain ⟨q, events⟩ := next
      simp only [Option.bind_eq_bind, Option.bind_some, ih]
      cases q.run rest with
      | none => rfl
      | some last =>
        obtain ⟨r, later⟩ := last
        simp only [Option.bind_some, Option.pure_def]
        cases r.run after <;> simp

end Pool

end TimingWheel
