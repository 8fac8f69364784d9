import Mathlib.Logic.Function.Basic
import Tribuchet.Base.Runs
import Tribuchet.Base.Table
import Tribuchet.Hub.Queue

/-! Worker sessions on the hub (`worker_loop`, `route_loop` and `CapsGuard` in `hub.rs`,
`record_departed` and `servability` in `hub/state.rs`). A session enters its capabilities
and the keys it holds, its route task replaces those keys at every heartbeat, and its guard
removes both again, each under a lock of its own; meanwhile other tasks take jobs and ask
whether a platform is served. Time is in seconds since the hub started. -/

namespace Tribuchet.Hub.Sessions

open Runs Function

def capsOf (system : String) : WorkerCaps := ⟨(∅ : AList fun _ : String => List String).insert system []⟩

/-- How far `worker_loop` is. -/
inductive Guard
  | entered
  | serving
  | leaving
  /-- `CapsGuard::drop` has removed the capabilities at this time -/
  | uncapped (since : ℕ)
  | unheld (since : ℕ)
  | written (since : ℕ)
  /-- `record_departed` has read the clock -/
  | stamped (since stamp : ℕ)
  | dropped (since : ℕ)
  deriving DecidableEq

def Guard.departed : Guard → Option ℕ
  | .entered | .serving | .leaving => none
  | .uncapped since | .unheld since | .written since | .stamped since _ | .dropped since => some since

/-- Where `route_loop` is. -/
inductive Route
  | unspawned
  | waiting
  | heartbeat (keys : List String)
  | stopped
  deriving DecidableEq

structure Session where
  caps : WorkerCaps
  guard : Guard
  route : Route
  /-- `route.abort()` was called -/
  aborted : Bool

/-- A task in `servability` that found no capable worker, and the clock it read since. -/
structure Query where
  system : String
  features : List String
  clock : Option ℕ
  deriving DecidableEq

inductive Servability
  | now
  | expectedBy (deadline : ℕ)
  | never
  deriving DecidableEq

/-- An answer, and the serving workers that had departed less than the grace period ago. -/
structure Answer where
  system : String
  features : List String
  result : Servability
  recent : List ℕ
  deriving DecidableEq

structure State where
  sessions : ℕ → Option Session
  nextWorkerId : ℕ
  workerCaps : AList fun _ : ℕ => WorkerCaps
  held : Held
  departed : List (WorkerCaps × ℕ)
  queue : List Job
  queries : ℕ → Option Query
  answers : List Answer
  now : ℕ

namespace State

def initial : State := ⟨fun _ => none, 0, ∅, ∅, [], [], fun _ => none, [], 0⟩

def setSession (s : State) (id : ℕ) (x : Session) : State :=
  { s with sessions := update s.sessions id (some x) }

def setQuery (s : State) (q : ℕ) (x : Option Query) : State := { s with queries := update s.queries q x }

/-- A worker that served the platform until it departed less than `grace` ago. -/
def departedLately (s : State) (grace : ℕ) (system : String) (features : List String) (id : ℕ) : Prop :=
  ∃ x ∈ s.sessions id, x.caps.serves system features = true ∧ ∃ since ∈ x.guard.departed, s.now < since + grace

instance (s : State) (grace : ℕ) (system : String) (features : List String) (id : ℕ) :
    Decidable (s.departedLately grace system features id) :=
  match h : s.sessions id with
  | none => .isFalse (by simp [departedLately, h])
  | some x =>
    match h' : x.guard.departed with
    | none => .isFalse (by simp [departedLately, h, h'])
    | some since => decidable_of_iff (x.caps.serves system features = true ∧ s.now < since + grace)
        (by simp [departedLately, h, h'])

def answer (s : State) (grace : ℕ) (q : ℕ) (x : Query) (result : Servability) : State :=
  { s.setQuery q none with
    answers := s.answers ++ [⟨x.system, x.features, result,
      (List.range s.nextWorkerId).filter fun id => s.departedLately grace x.system x.features id⟩] }

end State

/-- The latest time a departed worker that serves the platform is due. -/
def expectedDeadline (grace : ℕ) (departed : List (WorkerCaps × ℕ)) (system : String) (features : List String) :
    Option ℕ :=
  ((departed.filter fun d => d.1.serves system features).map fun d => d.2 + grace).max?

def prune (grace clock : ℕ) (departed : List (WorkerCaps × ℕ)) : List (WorkerCaps × ℕ) :=
  departed.filter fun d => clock < d.2 + grace

inductive Action
  /-- `CapsGuard::new` -/
  | enter (caps : WorkerCaps)
  | serve (id : ℕ) (keys : List String)
  | heartbeat (id : ℕ) (keys : List String)
  | insertHeld (id : ℕ)
  | stopRoute (id : ℕ)
  | leave (id : ℕ)
  | removeCaps (id : ℕ)
  | removeHeld (id : ℕ)
  | regenNixConfig (id : ℕ)
  | stamp (id : ℕ)
  | recordDeparted (id : ℕ)
  /-- `servability` looks at the connected workers -/
  | ask (q : ℕ) (system : String) (features : List String)
  | readClock (q : ℕ)
  | scanDeparted (q : ℕ)
  | push (job : Job)
  | takeJob (id : ℕ)
  | takeJobByKey (id : ℕ)
  | tick (seconds : ℕ)

def step (grace : ℕ) (s : State) : Action → Option State
  | .enter caps =>
    let s' := s.setSession s.nextWorkerId ⟨caps, .entered, .unspawned, false⟩
    some { s' with nextWorkerId := s.nextWorkerId + 1, workerCaps := s.workerCaps.insert s.nextWorkerId caps }
  | .serve id keys =>
    match s.sessions id with
    | none => none
    | some x =>
      if x.guard = .entered then
        some { s.setSession id { x with guard := .serving, route := .waiting } with held := s.held.insert id keys }
      else none
  | .heartbeat id keys =>
    match s.sessions id with
    | none => none
    | some x =>
      -- an aborted task does not come past an await
      if x.route = .waiting ∧ x.aborted = false then some (s.setSession id { x with route := .heartbeat keys }) else none
  | .insertHeld id =>
    match s.sessions id with
    | none => none
    | some x =>
      match x.route with
      | .heartbeat keys => some { s.setSession id { x with route := .waiting } with held := s.held.insert id keys }
      | _ => none
  | .stopRoute id =>
    match s.sessions id with
    | none => none
    | some x => if x.route = .waiting then some (s.setSession id { x with route := .stopped }) else none
  | .leave id =>
    match s.sessions id with
    | none => none
    | some x =>
      if x.guard = .serving then some (s.setSession id { x with guard := .leaving, aborted := true }) else none
  | .removeCaps id =>
    match s.sessions id with
    | none => none
    | some x =>
      if x.guard = .leaving then
        some { s.setSession id { x with guard := .uncapped s.now } with workerCaps := s.workerCaps.erase id }
      else none
  | .removeHeld id =>
    match s.sessions id with
    | none => none
    | some x =>
      match x.guard with
      | .uncapped since => some { s.setSession id { x with guard := .unheld since } with held := s.held.erase id }
      | _ => none
  | .regenNixConfig id =>
    match s.sessions id with
    | none => none
    | some x =>
      match x.guard with
      | .unheld since => some (s.setSession id { x with guard := .written since })
      | _ => none
  | .stamp id =>
    match s.sessions id with
    | none => none
    | some x =>
      match x.guard with
      | .written since => some (s.setSession id { x with guard := .stamped since s.now })
      | _ => none
  | .recordDeparted id =>
    match s.sessions id with
    | none => none
    | some x =>
      match x.guard with
      | .stamped since stamp => some { s.setSession id { x with guard := .dropped since } with
          departed := prune grace stamp s.departed ++ [(x.caps, stamp)] }
      | _ => none
  | .ask q system features =>
    match s.queries q with
    | some _ => none
    | none =>
      if s.workerCaps.entries.any fun e => e.2.serves system features then
        some (s.answer grace q ⟨system, features, none⟩ .now)
      else some (s.setQuery q (some ⟨system, features, none⟩))
  | .readClock q =>
    match s.queries q with
    | none => none
    | some x =>
      match x.clock with
      | some _ => none
      | none =>
        -- during the startup window every platform is awaited
        if s.now < grace then some (s.answer grace q x (.expectedBy grace))
        else some (s.setQuery q (some { x with clock := some s.now }))
  | .scanDeparted q =>
    match s.queries q with
    | none => none
    | some x =>
      match x.clock with
      | none => none
      | some clock =>
        let departed := prune grace clock s.departed
        let result := match expectedDeadline grace departed x.system x.features with
          | some deadline => .expectedBy deadline
          | none => .never
        some { s.answer grace q x result with departed := departed }
  | .push job => some { s with queue := s.queue ++ [job] }
  | .takeJob id =>
    match s.sessions id with
    | none => none
    | some x =>
      if x.guard = .serving then
        (takeEligible x.caps id s.held s.queue).map fun (_, queue) => { s with queue := queue }
      else none
  | .takeJobByKey id =>
    match s.sessions id with
    | none => none
    | some x =>
      if x.guard = .serving then
        (Hub.takeJobByKey id s.held s.queue).map fun (_, queue, held) => { s with queue := queue, held := held }
      else none
  | .tick seconds => some { s with now := s.now + seconds }

def system (grace : ℕ) : System State Action where
  init s := s = .initial
  step := step grace

theorem setSession_sessions {s : State} (id i : ℕ) (x : Session) :
    (s.setSession id x).sessions i = if i = id then some x else s.sessions i := update_apply ..

theorem setQuery_queries {s : State} (q i : ℕ) (x : Option Query) :
    (s.setQuery q x).queries i = if i = q then x else s.queries i := update_apply ..

end Tribuchet.Hub.Sessions
