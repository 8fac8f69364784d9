import Mathlib.Data.Int.Notation
import Mathlib.Data.Nat.Notation
import Mathlib.Logic.Function.Basic
import Tribuchet.Base.Runs

/-! Cancelling a build whose clients are gone (`run_job` in `hub/relay.rs`, `build` in
`hub/submit.rs`, `handle_cancel` in `worker/session.rs`, `abort_reason` and
`adopt_assignment` in `worker.rs`). The hub decides that a job is abandoned, takes it off
the list, and sends `Cancel`; the worker flags the dedupe key, the thread of the build
consumes the flag, aborts the build, and its result goes to the job that was assigned
last. Chunks, outputs and logs are left out, and of a verdict only whether it says
`build cancelled`. -/

namespace Tribuchet.Session.Cancel

open Runs Function

variable {K J C W : Type} [DecidableEq K] [DecidableEq J] [DecidableEq C] [DecidableEq W]

/-- `CANCEL_GRACE`, in seconds. -/
def cancelGrace : ℕ := 10

inductive Verdict
  | finished (exitCode : ℤ)
  /-- a failing result with the error `build cancelled` -/
  | cancelled
  | lost
  deriving DecidableEq

/-! ### The hub's jobs -/

/-- How far `run_job` is with abandoning its job. -/
inductive Watch
  /-- `abandoned_since` -/
  | watching (since : Option ℕ)
  | decided
  | unlisted
  | cancelSent
  deriving DecidableEq

inductive Phase (C : Type)
  | listed (c : C)
  | queued
  | running (session : ℕ) (watch : Watch)
  | concluded
  | finished
  deriving DecidableEq

structure Job (K C : Type) where
  key : K
  /-- its `Listing` is there -/
  listed : Bool
  /-- the clients whose streams its `Replay` feeds -/
  subs : List C
  /-- the verdicts in the `Replay`'s buffer -/
  events : List Verdict
  phase : Phase C
  abandoned : Bool
  deriving DecidableEq

inductive HubMsg (K J : Type)
  | assign (j : J) (key : K)
  | cancel (j : J) (key : K)
  | ack (key : K)
  deriving DecidableEq

/-! ### The worker's builds -/

structure Entry (J : Type) where
  id : J
  session : ℕ
  finished : Option Verdict
  deriving DecidableEq

/-- The thread of a launched build, and whether it has consumed a cancel flag. -/
structure Thread (K : Type) where
  key : K
  aborted : Bool
  deriving DecidableEq

structure Worker (K J : Type) where
  session : Option ℕ
  active : List (J × K)
  resumable : K → Option (Entry J)
  cancelled : List K
  threads : List (Thread K)
  /-- calls of `record_finished` that have not removed the flag yet -/
  recording : List K
  /-- calls of `try_deliver` -/
  calls : List K

namespace Worker

def initial : Worker K J := ⟨none, [], fun _ => none, [], [], [], []⟩

def setEntry (w : Worker K J) (key : K) (e : Option (Entry J)) : Worker K J :=
  { w with resumable := update w.resumable key e }

/-- `handle_assignment`. -/
def assign (w : Worker K J) (session : ℕ) (j : J) (key : K) : Worker K J :=
  match w.resumable key with
  | some e => { w.setEntry key (some { e with id := j, session := session }) with calls := w.calls ++ [key] }
  | none => { w with active := w.active.filter (fun b => b.1 ≠ j) ++ [(j, key)] }

def stages (w : Worker K J) (j : J) : Prop := ∃ b ∈ w.active, b.1 = j

instance (w : Worker K J) (j : J) : Decidable (w.stages j) := inferInstanceAs (Decidable (∃ b ∈ w.active, b.1 = j))

/-- `handle_cancel` for a build that is not staging. -/
def flag (w : Worker K J) (key : K) : Worker K J :=
  match w.resumable key with
  | some e => if e.finished = none then { w with cancelled := key :: w.cancelled } else w
  | none => w

def ack (w : Worker K J) (key : K) : Worker K J :=
  match w.resumable key with
  | some e => if e.finished.isSome then w.setEntry key none else w
  | none => w

/-- `launch_build` replaces what is held under the key. -/
def launch (w : Worker K J) (session : ℕ) (j : J) (key : K) : Worker K J :=
  { w.setEntry key (some ⟨j, session, none⟩) with
    active := w.active.filter (fun b => b.1 ≠ j), threads := ⟨key, false⟩ :: w.threads }

def abort (w : Worker K J) (key : K) : Worker K J :=
  { w with
    cancelled := w.cancelled.filter (fun k => k ≠ key)
    threads := ⟨key, true⟩ :: w.threads.erase ⟨key, false⟩ }

/-- The first half of `record_finished`. -/
def record (w : Worker K J) (t : Thread K) (v : Verdict) : Worker K J :=
  { w.setEntry t.key ((w.resumable t.key).map fun e => { e with finished := some v }) with
    threads := w.threads.erase t, recording := w.recording ++ [t.key] }

/-- The flag goes, then comes `try_deliver`. -/
def clear (w : Worker K J) (key : K) : Worker K J :=
  { w with
    cancelled := w.cancelled.filter (fun k => k ≠ key)
    recording := w.recording.erase key
    calls := w.calls ++ [key] }

end Worker

/-! ### Runs -/

structure State (K J C W : Type) where
  jobs : J → Option (Job K C)
  byKey : K → Option J
  joining : List (C × J)
  received : List (C × J × Verdict)
  down : ℕ → List (HubMsg K J)
  up : ℕ → List (J × Verdict)
  workers : W → Worker K J
  sessions : ℕ
  now : ℕ

namespace State

def initial : State K J C W := ⟨fun _ => none, fun _ => none, [], [], fun _ => [], fun _ => [], fun _ => .initial, 0, 0⟩

def setJob (s : State K J C W) (j : J) (job : Job K C) : State K J C W :=
  { s with jobs := update s.jobs j (some job) }

/-- A job's `Listing` is dropped, if it has not been. -/
def unlist (s : State K J C W) (j : J) (job : Job K C) : State K J C W :=
  if job.listed then { s.setJob j { job with listed := false } with byKey := update s.byKey job.key none }
  else s.setJob j job

def setWorker (s : State K J C W) (w : W) (worker : Worker K J) : State K J C W :=
  { s with workers := update s.workers w worker }

def setDown (s : State K J C W) (n : ℕ) (ms : List (HubMsg K J)) : State K J C W :=
  { s with down := update s.down n ms }

def setUp (s : State K J C W) (n : ℕ) (ms : List (J × Verdict)) : State K J C W :=
  { s with up := update s.up n ms }

def send (s : State K J C W) (n : ℕ) (m : HubMsg K J) : State K J C W := s.setDown n (s.down n ++ [m])

def report (s : State K J C W) (n : ℕ) (j : J) (v : Verdict) : State K J C W := s.setUp n (s.up n ++ [(j, v)])

/-- `Replay::publish` of a verdict. -/
def publish (s : State K J C W) (j : J) (job : Job K C) (v : Verdict) : State K J C W :=
  { s.setJob j { job with events := job.events ++ [v], phase := .concluded } with
    received := s.received ++ job.subs.map fun c => (c, j, v) }

end State

inductive Action (K J C W : Type)
  | lookUp (c : C) (key : K)
  | list (c : C) (j : J) (key : K)
  | subscribe (c : C) (j : J)
  | enqueue (j : J)
  | leave (c : C) (j : J)
  | dispatch (j : J) (session : ℕ)
  | drop (j : J)
  | check (j : J)
  | unlist (j : J)
  | sendCancel (j : J)
  | requeue (j : J)
  | giveUp (j : J)
  | take (session : ℕ)
  | finish (j : J)
  | connect (w : W)
  | receive (w : W)
  | launch (w : W) (j : J)
  | abort (w : W) (key : K)
  | record (w : W) (t : Thread K) (v : Verdict)
  | clear (w : W) (key : K)
  | deliver (w : W) (key : K)
  | reap (w : W) (key : K)
  | tick (seconds : ℕ)

/-- The check of `run_job`. -/
def Job.check (job : Job K C) (session : ℕ) (since : Option ℕ) (now : ℕ) : Job K C :=
  if job.subs = [] then
    let since := since.getD now
    if since + cancelGrace < now then { job with phase := .running session .decided, abandoned := true }
    else { job with phase := .running session (.watching (some since)) }
  else { job with phase := .running session (.watching none) }

def State.handle (s : State K J C W) (w : W) (n : ℕ) : HubMsg K J → State K J C W
  | .assign j key => s.setWorker w ((s.workers w).assign n j key)
  | .cancel j key =>
    if (s.workers w).stages j then
      (s.setWorker w { s.workers w with active := (s.workers w).active.filter (fun b => b.1 ≠ j) }).report n j .cancelled
    else s.setWorker w ((s.workers w).flag key)
  | .ack key => s.setWorker w ((s.workers w).ack key)

def step (s : State K J C W) : Action K J C W → Option (State K J C W)
  | .lookUp c key =>
    match s.byKey key with
    | some j => some { s with joining := (c, j) :: s.joining }
    | none => none
  | .list c j key =>
    match s.jobs j, s.byKey key with
    | none, none => some { s.setJob j ⟨key, true, [], [], .listed c, false⟩ with
        byKey := update s.byKey key (some j), joining := (c, j) :: s.joining }
    | _, _ => none
  | .subscribe c j =>
    match s.jobs j with
    | none => none
    | some job =>
      if (c, j) ∈ s.joining then
        -- the backlog first; a replay that is done takes no more subscribers
        some { s.setJob j { job with subs := if job.phase = .finished then job.subs else job.subs ++ [c] } with
          joining := s.joining.erase (c, j)
          received := s.received ++ job.events.map fun v => (c, j, v) }
      else none
  | .enqueue j =>
    match s.jobs j with
    | none => none
    | some job =>
      match job.phase with
      | .listed c => if (c, j) ∈ s.joining then none else some (s.setJob j { job with phase := .queued })
      | _ => none
  | .leave c j =>
    match s.jobs j with
    | none => none
    | some job => if c ∈ job.subs then some (s.setJob j { job with subs := job.subs.erase c }) else none
  | .dispatch j session =>
    match s.jobs j with
    | none => none
    | some job =>
      if job.phase = .queued then
        some ((s.setJob j { job with phase := .running session (.watching none) }).send session (.assign j job.key))
      else none
  | .drop j =>
    match s.jobs j with
    | none => none
    | some job =>
      if job.phase = .queued ∧ job.subs = [] then some (s.unlist j { job with phase := .finished }) else none
  | .check j =>
    match s.jobs j with
    | none => none
    | some job =>
      match job.phase with
      | .running session (.watching since) => some (s.setJob j (job.check session since s.now))
      | _ => none
  | .unlist j =>
    match s.jobs j with
    | none => none
    | some job =>
      match job.phase with
      | .running session .decided => some (s.unlist j { job with phase := .running session .unlisted })
      | _ => none
  | .sendCancel j =>
    match s.jobs j with
    | none => none
    | some job =>
      match job.phase with
      | .running session .unlisted =>
        some ((s.setJob j { job with phase := .running session .cancelSent }).send session (.cancel j job.key))
      | _ => none
  | .requeue j =>
    match s.jobs j with
    | none => none
    | some job =>
      match job.phase with
      | .running _ _ => some (s.setJob j { job with phase := .queued })
      | _ => none
  | .giveUp j =>
    match s.jobs j with
    | none => none
    | some job =>
      match job.phase with
      | .running _ _ => some (s.publish j job .lost)
      | _ => none
  | .take session =>
    match s.up session with
    | [] => none
    | (j, v) :: ms =>
      let s := s.setUp session ms
      match s.jobs j with
      | none => some s
      | some job =>
        match job.phase with
        | .running n _ => if n = session then some ((s.publish j job v).send session (.ack job.key)) else some s
        | _ => some s
  | .finish j =>
    match s.jobs j with
    | none => none
    | some job =>
      if job.phase = .concluded then some (s.unlist j { job with phase := .finished, subs := [] }) else none
  | .connect w =>
    some { s.setWorker w { s.workers w with session := some s.sessions, active := [] } with sessions := s.sessions + 1 }
  | .receive w =>
    match (s.workers w).session with
    | none => none
    | some n =>
      match s.down n with
      | [] => none
      | m :: ms => some ((s.setDown n ms).handle w n m)
  | .launch w j =>
    match (s.workers w).session, (s.workers w).active.find? (fun b => b.1 = j) with
    | some n, some b => some (s.setWorker w ((s.workers w).launch n j b.2))
    | _, _ => none
  | .abort w key =>
    if key ∈ (s.workers w).cancelled ∧ ⟨key, false⟩ ∈ (s.workers w).threads then
      some (s.setWorker w ((s.workers w).abort key))
    else none
  | .record w t v =>
    if t ∈ (s.workers w).threads ∧ (v = .cancelled ↔ t.aborted = true) then
      some (s.setWorker w ((s.workers w).record t v))
    else none
  | .clear w key =>
    if key ∈ (s.workers w).recording then some (s.setWorker w ((s.workers w).clear key)) else none
  | .deliver w key =>
    if key ∈ (s.workers w).calls then
      let s' := s.setWorker w { s.workers w with calls := (s.workers w).calls.erase key }
      match (s.workers w).resumable key with
      | none => some s'
      | some e =>
        match e.finished with
        | some v => if (s.workers w).session = some e.session then some (s'.report e.session e.id v) else some s'
        | none => some s'
    else none
  | .reap w key =>
    match (s.workers w).resumable key with
    | none => none
    | some e => if e.finished.isSome then some (s.setWorker w ((s.workers w).setEntry key none)) else none
  | .tick seconds => some { s with now := s.now + seconds }

def system (K J C W : Type) [DecidableEq K] [DecidableEq J] [DecidableEq C] [DecidableEq W] :
    System (State K J C W) (Action K J C W) where
  init s := s = .initial
  step := step

end Tribuchet.Session.Cancel
