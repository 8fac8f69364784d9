import Mathlib.Data.List.AList

/-! The hub's job queue as `hub/state.rs` keeps it: which queued job a worker's
session may take. `take_job` looks for the first job the worker serves and no
other session holds, `take_job_by_key` for the first job whose dedupe key this
worker announced. Both remove the job under the queue lock; whether it still has
an attach client is asked afterwards, in a step of its own. -/

namespace Tribuchet.Hub

structure Job where
  id : String
  key : String
  system : String
  features : List String
  deriving DecidableEq

structure WorkerCaps where
  systems : AList fun _ : String => List String

def WorkerCaps.serves (caps : WorkerCaps) (system : String) (features : List String) : Bool :=
  match caps.systems.lookup system with
  | some honoured => features.all fun f => honoured.contains f
  | none => false

abbrev Held := AList fun _ : ℕ => List String

def elsewhere (held : Held) (worker : ℕ) (key : String) : Bool :=
  held.entries.any fun e => e.1 != worker && e.2.contains key

def removeFirst (eligible : Job → Bool) (queue : List Job) : Option (Job × List Job) :=
  match queue.findIdx? eligible with
  | some pos => (queue[pos]?).map fun j => (j, queue.eraseIdx pos)
  | none => none

/-- The locked section of `take_job`. -/
def takeEligible (caps : WorkerCaps) (worker : ℕ) (held : Held) (queue : List Job) :
    Option (Job × List Job) :=
  removeFirst (fun j => caps.serves j.system j.features && !elsewhere held worker j.key) queue

/-- `take_job_by_key`: each held key is honoured once. -/
def takeJobByKey (worker : ℕ) (held : Held) (queue : List Job) : Option (Job × List Job × Held) :=
  match held.lookup worker with
  | none => none
  | some keys =>
    (removeFirst (fun j => keys.contains j.key) queue).map fun (j, rest) =>
      (j, rest, held.insert worker (keys.erase j.key))

end Tribuchet.Hub
