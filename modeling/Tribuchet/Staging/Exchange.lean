import Tribuchet.Base.Runs
import Tribuchet.Staging.Relay

/-! The staging exchange of one worker session: any number of builds, each with its
relay on the hub and a FIFO channel each way, the worker's session loop, its import
pools, its chunk store and its daemon's store (`worker/session.rs`). The tasks of the
system take their steps in any order. -/

namespace Tribuchet.Staging

open Hoare Runs Function

variable {B P H : Type} [DecidableEq B] [DecidableEq P] [DecidableEq H]

/-! ### The worker -/

structure Worker (B P H : Type) where
  active : B → Option (ActiveBuild P H)
  claims : Claims B P
  /-- `Wake`s sent and not yet received -/
  wakes : List (B × P)
  store : Finset H
  valid : Finset P

namespace Worker

/-- `abort_active`: tear a build down. -/
def drop (w : Worker B P H) (b : B) (l : Local B P H) : Worker B P H :=
  { w with active := update w.active b none, claims := abort b l }

/-- Run a handler on a build and do as `advance_staging`: forward its `Need`, or abort
and report the error. -/
def handle (w : Worker B P H) (b : B) (m : WorkerM B P H (Option (Need P H))) :
    Worker B P H × Option (WorkerMsg P H) :=
  match w.active b with
  | none => (w, none)
  | some x =>
    match exec m ⟨x, w.claims⟩ with
    | (.ok need, l) =>
      ({ w with active := update w.active b (some l.build), claims := l.claims }, need.map .need)
    | (.error e, l) => (w.drop b l, some (.result e))

/-- `handle_cancel`, and any failure outside the handlers. -/
def stop (w : Worker B P H) (b : B) (e : Error P) : Worker B P H × Option (WorkerMsg P H) :=
  w.handle b (throw e)

/-- `handle_assignment`; a duplicate of an active build is torn down first. -/
def assign (w : Worker B P H) (b : B) : Worker B P H :=
  let w := match w.active b with
    | none => w
    | some x => w.drop b ⟨x, w.claims⟩
  { w with active := update w.active b (some .new) }

/-- The session loop takes a hub message. For an assignment, `pin` and `answer` are
what the store's database and its daemon say. -/
def receive (refs : P → List P) (pin : Pinning P) (answer : Finset P) (w : Worker B P H) (b : B) :
    HubMsg P H → Worker B P H × Option (WorkerMsg P H)
  | .assignment inputs => (w.assign b).handle b (negotiate b refs pin answer w.store inputs)
  | .tmpDir eof => w.handle b (onBuild (feedTmpDir eof))
  | .manifest m => w.handle b (onBuild (feedManifest w.store m))
  | .chunk (.data hash) =>
    let w := if (w.active b).isSome then { w with store := insert hash w.store } else w
    w.handle b (onBuild (feedChunk w.store (.data hash)))
  | .chunk .eof => w.handle b (onBuild (feedChunk w.store .eof))
  | .cancel => w.stop b .cancelled

/-- A watcher sees that its claim settled and sends the `Wake`. -/
def fire (w : Worker B P H) (i : ℕ) : Option (Worker B P H) :=
  match w.claims.watchers[i]? with
  | none => none
  | some watcher =>
    if (w.claims.channels watcher.channel).state = .running then none
    else some { w with
      claims := { w.claims with watchers := w.claims.watchers.eraseIdx i }
      wakes := w.wakes ++ [(watcher.build, watcher.path)] }

/-- An import ends: the pool fills in the result and sends the `Wake`. The daemon
accepts a path only with its references. -/
def importDone (refs : P → List P) (w : Worker B P H) (b : B) (path : P) (outcome : ImportOutcome H) :
    Option (Worker B P H) :=
  match w.active b with
  | none => none
  | some x =>
    if x.imports.lookup path = some none ∧ (outcome.error = none → ∀ r ∈ refs path, r = path ∨ r ∈ w.valid) then
      some { w with
        active := update w.active b (some { x with imports := x.imports.insert path (some outcome) })
        wakes := w.wakes ++ [(b, path)]
        store := w.store.filter (· ∉ outcome.bad)
        valid := if outcome.error = none then insert path w.valid else w.valid }
    else none

def roots (w : Worker B P H) (b : B) : Finset P :=
  match w.active b with
  | none => ∅
  | some x => x.roots

end Worker

/-! ### The exchange -/

structure State (B P H : Type) where
  worker : Worker B P H
  relays : B → Option (Relay P H)
  toWorker : B → List (HubMsg P H)
  toHub : B → List (WorkerMsg P H)
  offered : AList fun _ : B => List P
  workerErrors : List (Error P)
  hubErrors : List (RelayError P)

namespace State

def sendHub (s : State B P H) (b : B) (ms : List (WorkerMsg P H)) : State B P H :=
  { s with toHub := update s.toHub b (s.toHub b ++ ms) }

def sendWorker (s : State B P H) (b : B) (ms : List (HubMsg P H)) : State B P H :=
  { s with toWorker := update s.toWorker b (s.toWorker b ++ ms) }

def setRelay (s : State B P H) (b : B) (r : Option (Relay P H)) : State B P H :=
  { s with relays := update s.relays b r }

/-- The worker after a step for build `b`, with what it sends. -/
def answer (s : State B P H) (b : B) (r : Worker B P H × Option (WorkerMsg P H)) : State B P H :=
  let s := { s with worker := r.1 }
  match r.2 with
  | none => s
  | some (.need n) => s.sendHub b [.need n]
  | some (.result e) => { s.sendHub b [.result e] with workerErrors := s.workerErrors ++ [e] }

def failRelay (s : State B P H) (b : B) (e : RelayError P) : State B P H :=
  { s.setRelay b none with hubErrors := s.hubErrors ++ [e] }

end State

inductive Action (B P H : Type)
  /-- `run_job` starts: the assignment, with some manifests inline, and the tmp dir -/
  | dispatch (b : B) (offered inline : List P) (tmpChunks : ℕ)
  | recv (b : B) (pin : Pinning P) (answer : Finset P)
  /-- the worker takes the next `Wake` -/
  | wake
  | fire (i : ℕ)
  | importDone (b : B) (path : P) (outcome : ImportOutcome H)
  | launch (b : B)
  | fail (b : B) (text : String)
  | route (b : B) (cached : P → List H)
  | computed (b : B) (path : P)
  | flush (b : B)
  | serve (b : B) (cached : P → List H)
  | cancel (b : B)
  | forget (hash : H)
  /-- a garbage collection leaves the paths `keep` -/
  | collect (keep : Finset P)
  | register (path : P)

def opening (cat : Catalog P H) (offered inline : List P) (tmpChunks : ℕ) : List (HubMsg P H) :=
  .assignment (offered.map (cat.offer inline)) :: List.replicate tmpChunks (.tmpDir false) ++ [.tmpDir true]

/-- What the store says fits an assignment: every path called valid is so by now, being
rooted, and a second answer was asked for if need be. -/
def Pinning.fitsMsg (pin : Pinning P) (answer valid : Finset P) : HubMsg P H → Prop
  | .assignment inputs => answer ⊆ valid ∧ pin.fits (inputs.map Manifest.storePath) answer
  | _ => True

instance (pin : Pinning P) (answer valid : Finset P) (m : HubMsg P H) : Decidable (pin.fitsMsg answer valid m) :=
  match m with
  | .assignment _ => inferInstanceAs (Decidable (_ ∧ _))
  | .tmpDir _ | .manifest _ | .chunk _ | .cancel => inferInstanceAs (Decidable True)

def stepHub (cat : Catalog P H) (s : State B P H) (b : B) (r : Relay P H) (cached : P → List H) :
    WorkerMsg P H → State B P H
  | .result _ => s.setRelay b none
  | .need n =>
    match r.handleNeed cat cached n with
    | .error e => s.failRelay b e
    | .ok (r, again) => (s.setRelay b (some r)).sendWorker b (again.map .manifest)

def step (cat : Catalog P H) (s : State B P H) : Action B P H → Option (State B P H)
  | .dispatch b offered inline tmpChunks =>
    if b ∉ s.offered ∧ offered.Nodup ∧ (∀ p ∈ offered, ∀ r ∈ cat.refs p, r ∈ offered) ∧ (∀ p ∈ inline, p ∈ offered) then
      some { (s.setRelay b (some (.new offered inline))).sendWorker b (opening cat offered inline tmpChunks) with
        offered := s.offered.insert b offered }
    else none
  | .recv b pin answer =>
    match s.toWorker b with
    | [] => none
    | m :: rest =>
      if pin.fitsMsg answer s.worker.valid m then
        let s := { s with toWorker := update s.toWorker b rest }
        some (s.answer b (s.worker.receive cat.refs pin answer b m))
      else none
  | .wake =>
    match s.worker.wakes with
    | [] => none
    | (b, path) :: rest =>
      let w := { s.worker with wakes := rest }
      some (s.answer b (w.handle b (woken w.store b path)))
  | .fire i => (s.worker.fire i).map fun w => { s with worker := w }
  | .importDone b path outcome => (s.worker.importDone cat.refs b path outcome).map fun w => { s with worker := w }
  | .launch b =>
    match s.worker.active b with
    | none => none
    | some x =>
      if x.tryComplete = .ready then
        some { s with worker := { s.worker with active := update s.worker.active b none } }
      else none
  | .fail b text => some (s.answer b (s.worker.stop b (.setupFailed text)))
  | .route b cached =>
    match s.relays b, s.toHub b with
    | some r, m :: rest => some (stepHub cat { s with toHub := update s.toHub b rest } b r cached m)
    | _, _ => none
  | .computed b path => ((s.relays b).bind fun r => r.computed path).map fun r => s.setRelay b (some r)
  | .flush b => ((s.relays b).bind fun r => r.flush cat).map fun (r, m) =>
      (s.setRelay b (some r)).sendWorker b [.manifest m]
  | .serve b cached => ((s.relays b).bind fun r => r.serve cat cached).map fun
      | .ok (r, frame) => (s.setRelay b (some r)).sendWorker b [.chunk frame]
      | .error e => s.failRelay b e
  | .cancel b =>
    match s.relays b with
    | none => none
    | some r =>
      if r.cancelSent then none else some ((s.setRelay b (some { r with cancelSent := true })).sendWorker b [.cancel])
  | .forget hash => some { s with worker := { s.worker with store := s.worker.store.erase hash } }
  | .collect keep =>
    if keep ⊆ s.worker.valid ∧ (∀ p ∈ keep, ∀ r ∈ cat.refs p, r ∈ keep) ∧
        ∀ b ∈ s.offered.keys, ∀ p ∈ s.worker.roots b, p ∈ s.worker.valid → p ∈ keep then
      some { s with worker := { s.worker with valid := keep } }
    else none
  | .register path =>
    if ∀ r ∈ cat.refs path, r = path ∨ r ∈ s.worker.valid then
      some { s with worker := { s.worker with valid := insert path s.worker.valid } }
    else none

/-- No build yet, and any chunks and any valid paths, these with their references. -/
def State.initial (store : Finset H) (valid : Finset P) : State B P H :=
  ⟨⟨fun _ => none, .empty, [], store, valid⟩, fun _ => none, fun _ => [], fun _ => [], ∅, [], []⟩

def exchange (B : Type) [DecidableEq B] (cat : Catalog P H) : System (State B P H) (Action B P H) where
  init s := ∃ store valid, (∀ p ∈ valid, ∀ r ∈ cat.refs p, r ∈ valid) ∧ s = State.initial store valid
  step := step cat

end Tribuchet.Staging
