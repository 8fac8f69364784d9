import Tribuchet.Staging.Exchange

/-! The staging exchange over the bounded channels of a session (`session` and `route_loop`
in `hub.rs`, `run_job` in `hub/relay.rs`, `session_loop` in `worker/session.rs`). All builds
share one channel each way, and `route_loop` hands the worker's messages to a channel per
build. A task that awaits a send does nothing else until there is room; only the sends of
`Staging::progress` are polled together with the build's channel. -/

namespace Tribuchet.Staging.Bounded

open Runs Function

variable {B P H : Type} [DecidableEq B] [DecidableEq P] [DecidableEq H]

structure Caps where
  toWorker : ℕ
  toHub : ℕ
  build : ℕ

inductive HubItem (P H : Type)
  | staging (m : HubMsg P H)
  | resultAck

inductive WorkerItem (B P H : Type)
  | build (b : B) (m : WorkerMsg P H)
  | log (b : B)
  /-- `Heartbeat` and `RequestJob` -/
  | session

/-- `msg_build_id`. -/
def WorkerItem.buildId : WorkerItem B P H → Option B
  | .build b _ | .log b => some b
  | .session => none

structure State (B P H : Type) where
  worker : Worker B P H
  executing : List B
  relays : B → Option (Relay P H)
  sending : B → List (HubItem P H)
  toWorker : List (B × HubItem P H)
  outbox : List (WorkerItem B P H)
  toHub : List (WorkerItem B P H)
  /-- the message `route_loop` has for a build -/
  routing : Option (B × WorkerItem B P H)
  /-- the channels registered with the `Router` -/
  inbox : B → Option (List (WorkerItem B P H))
  dispatched : List B

namespace State

def setRelay (s : State B P H) (b : B) (r : Option (Relay P H)) : State B P H :=
  { s with relays := update s.relays b r }

def setSending (s : State B P H) (b : B) (items : List (HubItem P H)) : State B P H :=
  { s with sending := update s.sending b items }

def setInbox (s : State B P H) (b : B) (q : Option (List (WorkerItem B P H))) : State B P H :=
  { s with inbox := update s.inbox b q }

/-- A relay ends with an error: its channel is unregistered, and the worker is sent a
`Cancel`. -/
def failRelay (s : State B P H) (b : B) : State B P H :=
  ((s.setRelay b none).setInbox b none).setSending b [.staging .cancel]

end State

/-- What `advance_staging` sends after a handler of a build. -/
def report (b : B) : Option (WorkerMsg P H) → List (WorkerItem B P H)
  | none => []
  | some (.need n) => [.build b (.need n)]
  | some (.result e) => [.build b (.result e), .session]

namespace State

/-- The session loop has run a handler and has its messages to send. -/
def handled (s : State B P H) (b : B) (r : Worker B P H × Option (WorkerMsg P H))
    (more : List (WorkerItem B P H)) : State B P H :=
  { s with worker := r.1, outbox := report b r.2 ++ more }

/-- The session loop takes a hub message. Setting a build up or unpacking its tmp dir may
fail. -/
def receive (cat : Catalog P H) (pin : Pinning P) (answer : Finset P) (failure : Option String)
    (s : State B P H) (b : B) : HubItem P H → State B P H
  | .resultAck => s
  | .staging m =>
    match m, failure with
    | .assignment _, some text => { s with outbox := [.build b (.result (.setupFailed text)), .session] }
    | .tmpDir _, some text => s.handled b (s.worker.stop b (.setupFailed text)) []
    | .assignment inputs, none =>
      s.handled b (s.worker.receive cat.refs pin answer b (.assignment inputs)) [.session]
    | .cancel, _ =>
      s.handled b (s.worker.receive cat.refs pin answer b .cancel)
        (if (s.worker.active b).isSome then [] else [.session])
    | m, _ => s.handled b (s.worker.receive cat.refs pin answer b m) []

/-- The loop of `run_job` takes a message off the channel of its build. A result ends it
with an acknowledgement. -/
def takeItem (cat : Catalog P H) (cached : P → List H) (s : State B P H) (b : B) (r : Relay P H) :
    WorkerItem B P H → State B P H
  | .build _ (.need n) =>
    match r.handleNeed cat cached n with
    | .error _ => s.failRelay b
    | .ok (r, again) => (s.setRelay b (some r)).setSending b (again.map fun m => .staging (.manifest m))
  | .build _ (.result _) => (s.setRelay b none).setSending b [.resultAck]
  | .log _ | .session => s

end State

inductive Action (B P H : Type)
  | dispatch (b : B) (offered inline : List P) (tmpChunks : ℕ)
  | push (b : B)
  | recv (pin : Pinning P) (answer : Finset P) (failure : Option String)
  | wake
  | fire (i : ℕ)
  | importDone (b : B) (path : P) (outcome : ImportOutcome H)
  | launch (b : B)
  | heartbeat
  | slotFreed
  | log (b : B)
  | send
  /-- `route_loop` takes a message -/
  | route
  /-- `route_loop` hands its message on -/
  | deliver
  | take (b : B) (cached : P → List H)
  | computed (b : B) (path : P)
  | flush (b : B)
  | serve (b : B) (cached : P → List H)
  | cancel (b : B)
  | forget (hash : H)
  | collect (keep : Finset P)
  | register (path : P)

namespace State

/-- The relay of a build that is in its loop and awaits no send. -/
def looping (s : State B P H) (b : B) : Option (Relay P H) :=
  if (s.sending b).isEmpty then s.relays b else none

/-- Put a message on the channel to the worker, if there is room. -/
def post (caps : Caps) (s : State B P H) (b : B) (m : HubItem P H) : Option (State B P H) :=
  if s.toWorker.length < caps.toWorker then some { s with toWorker := s.toWorker ++ [(b, m)] } else none

end State

/-- The steps of the worker's session loop, which awaits no send. -/
def stepWorker (cat : Catalog P H) (s : State B P H) : Action B P H → Option (State B P H)
  | .recv pin answer failure =>
    match s.toWorker with
    | [] => none
    | (b, m) :: rest =>
      if (match m with | .staging m => decide (pin.fitsMsg answer s.worker.valid m) | .resultAck => true) then
        some ({ s with toWorker := rest }.receive cat pin answer failure b m)
      else none
  | .wake =>
    match s.worker.wakes with
    | [] => none
    | (b, path) :: rest =>
      let w := { s.worker with wakes := rest }
      some (s.handled b (w.handle b (woken w.store b path)) [])
  | .launch b =>
    match s.worker.active b with
    | none => none
    | some x =>
      if x.tryComplete = .ready then
        some { s with
          worker := { s.worker with active := update s.worker.active b none }
          executing := b :: s.executing
          outbox := [.session] }
      else none
  | .heartbeat => some { s with outbox := [.session, .session] }
  | .slotFreed => some { s with outbox := [.session] }
  | _ => none

def stepRelay (cat : Catalog P H) (caps : Caps) (s : State B P H) (b : B) (r : Relay P H) :
    Action B P H → Option (State B P H)
  | .take _ cached =>
    match s.inbox b with
    | some (m :: rest) => some ((s.setInbox b (some rest)).takeItem cat cached b r m)
    | _ => none
  | .computed _ path => (r.computed path).map fun r => s.setRelay b (some r)
  | .flush _ => (r.flush cat).bind fun (r, m) => (s.setRelay b (some r)).post caps b (.staging (.manifest m))
  | .serve _ cached => (r.serve cat cached).bind fun
      | .ok (r, frame) => (s.setRelay b (some r)).post caps b (.staging (.chunk frame))
      | .error _ => some (s.failRelay b)
  | .cancel _ =>
    if r.cancelSent then none
    else some ((s.setRelay b (some { r with cancelSent := true })).setSending b [.staging .cancel])
  | _ => none

def step (cat : Catalog P H) (caps : Caps) (s : State B P H) (a : Action B P H) : Option (State B P H) :=
  match a with
  | .dispatch b offered inline tmpChunks =>
    if b ∉ s.dispatched ∧ offered.Nodup ∧ (∀ p ∈ offered, ∀ r ∈ cat.refs p, r ∈ offered) ∧
        (∀ p ∈ inline, p ∈ offered) then
      some { ((s.setRelay b (some (.new offered inline))).setInbox b (some [])).setSending b
          ((opening cat offered inline tmpChunks).map .staging) with
        dispatched := b :: s.dispatched }
    else none
  | .push b =>
    match s.sending b with
    | [] => none
    | m :: rest =>
      ((s.setSending b rest).post caps b m).map fun s =>
        -- the task of a relay that has ended unregisters its channel
        if rest.isEmpty && (s.relays b).isNone then s.setInbox b none else s
  | .recv _ _ _ | .wake | .launch _ | .heartbeat | .slotFreed =>
    if s.outbox.isEmpty then stepWorker cat s a else none
  | .fire i => (s.worker.fire i).map fun w => { s with worker := w }
  | .importDone b path outcome => (s.worker.importDone cat.refs b path outcome).map fun w => { s with worker := w }
  | .log b =>
    if b ∈ s.executing ∧ s.toHub.length < caps.toHub then some { s with toHub := s.toHub ++ [.log b] } else none
  | .send =>
    match s.outbox with
    | [] => none
    | m :: rest =>
      if s.toHub.length < caps.toHub then some { s with outbox := rest, toHub := s.toHub ++ [m] } else none
  | .route =>
    match s.routing, s.toHub with
    | none, m :: rest =>
      some { s with
        toHub := rest
        routing := m.buildId.bind fun b => if (s.inbox b).isSome then some (b, m) else none }
    | _, _ => none
  | .deliver =>
    match s.routing with
    | none => none
    | some (b, m) =>
      match s.inbox b with
      | none => some { s with routing := none }
      | some q =>
        if q.length < caps.build then some { s.setInbox b (some (q ++ [m])) with routing := none } else none
  | .take b _ | .computed b _ | .flush b | .serve b _ | .cancel b =>
    (s.looping b).bind fun r => stepRelay cat caps s b r a
  | .forget hash => some { s with worker := { s.worker with store := s.worker.store.erase hash } }
  | .collect keep =>
    if keep ⊆ s.worker.valid ∧ (∀ p ∈ keep, ∀ r ∈ cat.refs p, r ∈ keep) ∧
        ∀ b ∈ s.dispatched, ∀ p ∈ s.worker.roots b, p ∈ s.worker.valid → p ∈ keep then
      some { s with worker := { s.worker with valid := keep } }
    else none
  | .register path =>
    if ∀ r ∈ cat.refs path, r = path ∨ r ∈ s.worker.valid then
      some { s with worker := { s.worker with valid := insert path s.worker.valid } }
    else none

/-- The session has begun with the declaration of the worker's capacity. -/
def State.initial (store : Finset H) (valid : Finset P) : State B P H :=
  ⟨⟨fun _ => none, .empty, [], store, valid⟩, [], fun _ => none, fun _ => [], [], [.session], [], none,
    fun _ => none, []⟩

def session (B : Type) [DecidableEq B] (cat : Catalog P H) (caps : Caps) : System (State B P H) (Action B P H) where
  init s := ∃ store valid, (∀ p ∈ valid, ∀ r ∈ cat.refs p, r ∈ valid) ∧ s = State.initial store valid
  step := step cat caps

end Tribuchet.Staging.Bounded
