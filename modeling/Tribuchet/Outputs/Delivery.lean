import Tribuchet.Hub.Jobs
import Tribuchet.Outputs.Client
import Tribuchet.Staging.Chunks

/-! The hub's side of a build's outputs (`verify_set` and `deliver_outputs` in
`hub/relay/outputs.rs`, `run_job` in `hub/relay.rs`, `supervise_job` in `hub.rs`, `requeue`
in `hub/state.rs`). A job is dispatched any number of times; what the worker sends, what
the chunk cache holds and where an attempt breaks off are choices of the environment. The
steps say which event is published. -/

namespace Tribuchet.Outputs

open ByteStrings Staging

variable {H T : Type} [DecidableEq H]

/-- The fields of a `Manifest` that describe an output. -/
structure Manifest (H : Type) where
  storePath : String
  hashes : List H
  sizes : List ℕ
  deriving DecidableEq

structure Announced (H : Type) where
  storePath : String
  recipe : Recipe H
  deriving DecidableEq

/-- The errors `run_job` ends with. -/
inductive RelayError
  | unrequested (path : String)
  | missing (path : String)
  | recipe (e : Staging.Error String)
  | disconnected
  | notAChunk (name : String)
  | outOfOrder
  | undecodable (cached : Bool)
  | caching
  | uncached
  | notTheEnd (name : String)
  | exitCode (code : ℤ)
  | other (text : String)

def RelayError.text : RelayError → String
  | .unrequested path => "worker result contains unrequested output " ++ path
  | .missing path => "worker result is missing output " ++ path
  | .recipe e => e.text
  | .disconnected => "worker disconnected or went silent"
  | .notAChunk name => "expected output chunk, got " ++ name
  | .outOfOrder => "worker sent output chunks out of recipe order"
  | .undecodable cached => if cached then "cached output chunk" else "output chunk"
  | .caching => "caching output chunk"
  | .uncached => "pinned output chunk missing from the cache"
  | .notTheEnd name => "expected end of output chunks, got " ++ name
  | .exitCode code => "worker sent invalid exit code " ++ toString code
  | .other text => text

/-- `Announced::new`. -/
def Announced.ofManifest (m : Manifest H) : Except RelayError (Announced H) :=
  match parseRecipe m.storePath m.hashes m.sizes with
  | .ok recipe => .ok ⟨m.storePath, recipe⟩
  | .error e => .error (.recipe e)

/-- The loop of `verify_set`, after the paths in `seen`. -/
def verifyAfter (requested : List String) : List String → List (Manifest H) →
    Except RelayError (List (Announced H))
  | seen, [] =>
    match requested.find? fun r => !seen.contains r with
    | some path => .error (.missing path)
    | none => .ok []
  | seen, o :: rest =>
    if o.storePath ∉ requested ∨ o.storePath ∈ seen then .error (.unrequested o.storePath)
    else
      match Announced.ofManifest o with
      | .error e => .error e
      | .ok a => (verifyAfter requested (o.storePath :: seen) rest).map (a :: ·)

def verifySet (reported : List (Manifest H)) (requested : List String) :
    Except RelayError (List (Announced H)) :=
  verifyAfter requested [] reported

def parseExtras : List (Manifest H) → Except RelayError (List (Announced H))
  | [] => .ok []
  | m :: rest =>
    match Announced.ofManifest m with
    | .error e => .error e
    | .ok a => (parseExtras rest).map (a :: ·)

/-- `decode_chunk`: the plaintext of a frame, checked against its recipe entry. -/
def decodeChunk (codec : Codec H T) (frame : Bytes) (hash : H) (size : ℕ) : Option Bytes :=
  (codec.decompress frame).filter fun raw => decide (raw.length = size ∧ codec.blake3 raw = hash)

inductive WorkerMsg (H : Type)
  | chunk (hash : H) (zstd : Bytes) (eof : Bool)
  | other (name : String)

def WorkerMsg.name : WorkerMsg H → String
  | .chunk _ _ _ => "ChunkFrame"
  | .other name => name

/-- What comes to one turn of the delivery: the next message, nothing when the channel is
closed, the frame the cache has, whether it takes the new one, and whether the import of an
extra goes on. -/
structure Supply (H : Type) where
  message : Option (WorkerMsg H)
  cached : Option Bytes
  admitted : Bool
  importing : Bool

/-- `ChunkSource::receive`. -/
def receive (message : Option (WorkerMsg H)) (hash : H) : Except RelayError Bytes :=
  match message with
  | none => .error .disconnected
  | some (.chunk h zstd false) => if h = hash then .ok zstd else .error .outOfOrder
  | some m => .error (.notAChunk m.name)

/-- `ChunkSource::get`, with the hashes that are still needed. -/
def get (codec : Codec H T) (needed : List H) (hash : H) (size : ℕ) (s : Supply H) :
    Except RelayError (Bytes × List H) :=
  if hash ∈ needed then
    match receive s.message hash with
    | .error e => .error e
    | .ok frame =>
      if (decodeChunk codec frame hash size).isNone then .error (.undecodable false)
      else if !s.admitted then .error .caching
      else .ok (frame, needed.erase hash)
  else
    match s.cached with
    | none => .error .uncached
    | some frame =>
      if (decodeChunk codec frame hash size).isNone then .error (.undecodable true)
      else .ok (frame, needed)

/-- The delivery of a result: the outputs and then the extras that are left, the first of
them with what is left of its recipe. -/
structure Delivery (H : Type) where
  outputs : List (Announced H)
  extras : List (Announced H)
  needed : List H

/-- The chunks that are asked for: each once, if the cache lacks it. -/
def neededOf (located : H → Bool) (recipes : List (Recipe H)) : List H :=
  recipes.flatten.foldl (fun needed e => if e.1 ∈ needed ∨ located e.1 then needed else needed ++ [e.1]) []

inductive Turn (H : Type)
  | goOn (e : Option Event) (d : Delivery H)
  | finished
  | failed (e : RelayError)

/-- One turn of `deliver_outputs`. -/
def Delivery.turn (codec : Codec H T) (attempt : ℕ) (d : Delivery H) (s : Supply H) : Turn H :=
  match d.outputs with
  | ⟨path, (hash, size) :: recipe⟩ :: outputs =>
    match get codec d.needed hash size s with
    | .error e => .failed e
    | .ok (frame, needed) =>
      .goOn (some (.output path ⟨frame, attempt⟩ false))
        { d with outputs := ⟨path, recipe⟩ :: outputs, needed := needed }
  | ⟨path, []⟩ :: outputs => .goOn (some (.output path ⟨[], attempt⟩ true)) { d with outputs := outputs }
  | [] =>
    match d.extras with
    | ⟨path, (hash, size) :: recipe⟩ :: extras =>
      match get codec d.needed hash size s with
      | .error e => .failed e
      | .ok (_, needed) =>
        -- a rejected frame ends the loop over the recipe
        .goOn none { d with
          extras := ⟨path, if s.importing then recipe else []⟩ :: extras
          needed := needed }
    | ⟨path, []⟩ :: extras =>
      if s.importing then .goOn (some (.addedPath path)) { d with extras := extras }
      else .failed (.other "registering extra")
    | [] =>
      match s.message with
      | none => .failed .disconnected
      | some (.chunk _ _ true) => .finished
      | some m => .failed (.notTheEnd m.name)

/-! ### A job -/

inductive Phase (H : Type)
  | queued
  | staging
  | building
  | delivering (d : Delivery H)
  /-- `run_job` has failed -/
  | broken (dispatched : Bool) (e : RelayError)
  /-- `requeue` has yet to publish the restart of these outputs -/
  | requeuing (rest : List String)
  | verdict (code : ℤ)
  | failing (text : String)
  /-- `finish` is next -/
  | concluded
  | finished

structure Job (H : Type) where
  phase : Phase H
  attempts : ℕ
  /-- not of the source: the outputs that the worker of this attempt has announced -/
  announced : List (Announced H)

def Job.initial : Job H := ⟨.queued, 0, []⟩

/-- `BuildResult`. -/
structure BuildResult (H : Type) where
  exitCode : ℤ
  error : String
  outputs : List (Manifest H)
  extras : List (Manifest H)

inductive Move (H : Type)
  | dispatch (worker : String)
  | unservable (text : String)
  /-- `take_job` finds no client -/
  | abandon
  | assign
  | log (data : Bytes)
  | result (r : BuildResult H) (located : H → Bool)
  | deliver (s : Supply H)
  /-- `run_job` fails -/
  | die (e : RelayError)
  | settle (sessionDead : Bool)
  | restart
  | requeue
  | conclude
  | finish

inductive Effect
  | nothing
  | publish (e : Event)
  | close
  deriving DecidableEq

namespace Job

/-- Bytes of the line that `publish_worker_failure` logs. -/
def errorLine (text : String) : Bytes := ("tribuchet worker error: " ++ text ++ "\n").toUTF8.toList

/-- `run_job` on a result. -/
def settleResult (requested : List String) (j : Job H) (r : BuildResult H) (located : H → Bool) :
    Job H × Effect :=
  if r.exitCode ≠ 0 then
    if 1 ≤ r.exitCode ∧ r.exitCode ≤ 255 then
      ({ j with phase := .verdict r.exitCode },
        if r.error = "" then .nothing else .publish (.log (errorLine r.error)))
    else ({ j with phase := .broken true (.exitCode r.exitCode) }, .nothing)
  else
    match verifySet r.outputs requested with
    | .error e => ({ j with phase := .broken true e }, .nothing)
    | .ok outputs =>
      match parseExtras r.extras with
      | .error e => ({ j with phase := .broken true e }, .nothing)
      | .ok extras =>
        let needed := neededOf located ((outputs ++ extras).map Announced.recipe)
        ({ j with phase := .delivering ⟨outputs, extras, needed⟩, announced := outputs }, .nothing)

/-- `deliver_outputs` and `finish_relay`, turn by turn. -/
def deliver (codec : Codec H T) (j : Job H) (d : Delivery H) (s : Supply H) : Job H × Effect :=
  match d.turn codec j.attempts s with
  | .goOn e d => ({ j with phase := .delivering d }, match e with | some e => .publish e | none => .nothing)
  | .finished => ({ j with phase := .verdict 0 }, .nothing)
  | .failed e => ({ j with phase := .broken true e }, .nothing)

/-- The end of `supervise_job`. -/
def settle (requested : List String) (j : Job H) (dispatched : Bool) (e : RelayError)
    (sessionDead : Bool) : Job H :=
  if (sessionDead ∨ ¬dispatched) ∧ j.attempts < Hub.Jobs.maxJobAttempts then
    { j with phase := .requeuing requested, attempts := j.attempts + 1 }
  else { j with phase := .failing e.text }

def step (codec : Codec H T) (requested : List String) (j : Job H) (m : Move H) : Option (Job H × Effect) :=
  match j.phase, m with
  | .queued, .dispatch worker =>
    some ({ j with phase := .staging, announced := [] }, .publish (.dispatched worker))
  | .queued, .unservable text => some ({ j with phase := .failing text }, .nothing)
  | .queued, .abandon => some ({ j with phase := .concluded }, .nothing)
  | .staging, .assign => some ({ j with phase := .building }, .nothing)
  | .staging, .die e => some ({ j with phase := .broken false e }, .nothing)
  | .building, .log data => some (j, .publish (.log data))
  | .building, .result r located => some (j.settleResult requested r located)
  | .building, .die e => some ({ j with phase := .broken true e }, .nothing)
  | .delivering d, .deliver s => some (j.deliver codec d s)
  | .delivering _, .die e => some ({ j with phase := .broken true e }, .nothing)
  | .broken dispatched e, .settle sessionDead => some (j.settle requested dispatched e sessionDead, .nothing)
  | .requeuing (path :: rest), .restart =>
    some ({ j with phase := .requeuing rest }, .publish (.outputRestart path))
  | .requeuing [], .requeue => some ({ j with phase := .queued }, .nothing)
  | .verdict code, .conclude => some ({ j with phase := .concluded }, .publish (.exitCode code))
  | .failing text, .conclude => some ({ j with phase := .concluded }, .publish (.error text))
  | .concluded, .finish => some ({ j with phase := .finished }, .close)
  | _, _ => none

end Job

end Tribuchet.Outputs
