import Mathlib.Data.Finset.Card
import Tribuchet.Staging.Build

/-! The hub's side of staging (`hub/relay.rs`, `hub/relay/staging.rs`, `serve_need` in
`hub/relay/serve.rs`): late manifests as recipes complete, chunks on every `Need`. A
path stands for its `(Info, Recipe)`, which the hub's store fixes. The set of paths a
worker is known to have decides only which manifests are inline, and the session's
semaphore only when a `Need` is served; both are left out. -/

namespace Tribuchet.Staging

variable {P H : Type} [DecidableEq P] [DecidableEq H]

inductive HubMsg (P H : Type)
  | assignment (inputs : List (Manifest P H))
  | tmpDir (eof : Bool)
  | manifest (m : Manifest P H)
  | chunk (frame : ChunkFrame H)
  | cancel

inductive WorkerMsg (P H : Type)
  | need (n : Need P H)
  | result (error : Error P)

inductive RelayError (P : Type)
  | unofferedPath (path : P)
  | outsideManifests

/-- A running `serve_need`: the chunks it has still to send, and whether it then finds
every hash it was asked for served. -/
structure Serving (H : Type) where
  frames : List H
  complete : Bool

structure Relay (P H : Type) where
  offered : List P
  sent : List P
  unsent : List P
  computing : Finset P
  tasks : List P
  queued : List (Finset H)
  serving : Option (Serving H)
  firstNeed : Bool
  cancelSent : Bool

namespace Relay

/-- `Staging::new` and `assignment_inputs`. -/
def new (offered inline : List P) : Relay P H := ⟨offered, inline, [], ∅, [], [], none, true, false⟩

@[simps] def setComputing (r : Relay P H) (paths : Finset P) : Relay P H := { r with computing := paths }

/-- The first `Need` came. -/
@[simps] def answered (r : Relay P H) : Relay P H := { r with firstNeed := false }

@[simps] def schedule (r : Relay P H) (new : List P) : Relay P H := { r with tasks := r.tasks ++ new }

@[simps] def enqueue (r : Relay P H) (needed : Finset H) : Relay P H := { r with queued := r.queued ++ [needed] }

/-- One turn of the loop in `serve_need`, with the chunks served so far and their
frames: first what the cache holds, then the rest in recipe order. -/
def serveEntry (cat : Catalog P H) (needed : Finset H) (cached : P → List H) (acc : Finset H × List H) (path : P) :
    Finset H × List H :=
  let recipe := (cat.recipe path).hashes
  let todo := recipe.toFinset.filter fun h => h ∈ needed ∧ h ∉ acc.1
  let hits := (cached path).filter (· ∈ todo)
  (acc.1 ∪ todo, acc.2 ++ hits ++ recipe.filter fun h => h ∈ todo ∧ h ∉ hits)

/-- Each needed chunk ships from the first manifest holding it. -/
def serveNeed (cat : Catalog P H) (sent : List P) (needed : Finset H) (cached : P → List H) : Serving H :=
  let (served, frames) := sent.foldl (serveEntry cat needed cached) (∅, [])
  ⟨frames, served.card = needed.card⟩

def serveNext (cat : Catalog P H) (cached : P → List H) (r : Relay P H) : Relay P H :=
  match r.queued with
  | [] => r
  | needed :: queued => { r with queued := queued, serving := some (serveNeed cat r.sent needed cached) }

/-- One turn of the second loop in `handle_need`, with the manifests to send again and
the paths whose recipe is to be computed. -/
def request (cat : Catalog P H) (first : Bool) (acc : Relay P H × List (Manifest P H) × List P) (path : P) :
    Relay P H × List (Manifest P H) × List P :=
  let (r, again, new) := acc
  if path ∈ r.sent then (r, if first then again else again ++ [cat.manifest path], new)
  else if path ∈ r.computing then (r, again, new)
  else (r.setComputing (insert path r.computing), again, new ++ [path])

/-- The relay after a `Need`, and the manifests it sends again. -/
def handleNeed (cat : Catalog P H) (cached : P → List H) (r : Relay P H) (n : Need P H) :
    Except (RelayError P) (Relay P H × List (Manifest P H)) :=
  match n.paths.find? (· ∉ r.offered) with
  | some path => .error (.unofferedPath path)
  | none =>
    let (r₁, again, new) := n.paths.foldl (request cat r.firstNeed) (r.answered, [], [])
    let r₂ := r₁.schedule new
    if n.hashes = [] then .ok (r₂, again)
    else
      let r₃ := r₂.enqueue n.hashes.toFinset
      .ok (if r₃.serving.isNone then r₃.serveNext cat cached else r₃, again)

/-! The branches of `progress`. -/

def flush (cat : Catalog P H) (r : Relay P H) : Option (Relay P H × Manifest P H) :=
  match r.unsent with
  | [] => none
  | path :: unsent =>
    some ({ r with unsent := unsent, computing := r.computing.erase path, sent := r.sent ++ [path] },
      cat.manifest path)

def computed (r : Relay P H) (path : P) : Option (Relay P H) :=
  if path ∈ r.tasks then some { r with tasks := r.tasks.erase path, unsent := r.unsent ++ [path] } else none

/-- The `Need` being served sends its next frame; after the last one the next `Need`
has its turn. -/
def serve (cat : Catalog P H) (cached : P → List H) (r : Relay P H) :
    Option (Except (RelayError P) (Relay P H × ChunkFrame H)) :=
  match r.serving with
  | none => none
  | some ⟨hash :: frames, complete⟩ => some (.ok ({ r with serving := some ⟨frames, complete⟩ }, .data hash))
  | some ⟨[], true⟩ => some (.ok ({ r with serving := none }.serveNext cat cached, .eof))
  | some ⟨[], false⟩ => some (.error .outsideManifests)

end Relay

end Tribuchet.Staging
