import Tribuchet.ChunkStore.Calls
import Tribuchet.Outputs.Frames

/-! The chunks of a finished build on their way from the worker (`send_chunks` in
`worker/resume/delivery.rs`) to the hub (`ChunkSource` and `deliver_outputs` in
`hub/relay/outputs.rs`), while other jobs use the hub's chunk cache. The worker walks its frames
files and removes from the set it was asked for; the hub walks the recipes and takes each chunk
from the channel or from the cache, which it fills as it goes. Every use of the cache's lock is a
step of its own, and a located frame is read without the lock. File operations do not fail. -/

namespace Tribuchet.Outputs.Transfer

open ByteStrings Hoare Runs Staging
open ChunkStore (Hash FrameRef)

/-! ### The worker -/

/-- `PackedOutput` and `PackedExtra`, with the content of the frames file. -/
structure Packed where
  storePath : String
  framesFile : Bytes
  chunks : List (OutChunk Hash)
  deriving DecidableEq

structure FinishedBuild where
  outputs : List Packed
  extras : List Packed

/-- What `deliver` tells the hub. -/
def Packed.manifest (p : Packed) : Manifest Hash := ⟨p.storePath, p.chunks.map OutChunk.hash, p.chunks.map OutChunk.size⟩

def Packed.announced (p : Packed) : Announced Hash := ⟨p.storePath, p.chunks.map fun c => (c.hash, c.size)⟩

/-- The frame is accepted for the entry and is that of the plaintext. -/
def Packed.Honest {T : Type} (codec : Codec Hash T) (plain : Hash → Bytes) (p : Packed) : Prop :=
  ∀ c ∈ p.chunks, c.len < 2 ^ 32 ∧ ∃ frame, readExact p.framesFile c.off c.len = some frame ∧
    decodeChunk codec frame c.hash c.size = some (plain c.hash)

inductive SendError
  | reading
  | outsideRecipes
  deriving DecidableEq

/-- `send_chunks` between two turns: the files that are left, the first with what is left of its
chunks, and what is still needed. -/
structure Sending where
  files : List Packed
  needed : Finset Hash

inductive Sent
  | goOn (m : Option (WorkerMsg Hash)) (w : Sending)
  | finished
  | failed (e : SendError)

/-- One turn of `send_chunks`. -/
def Sending.turn (w : Sending) : Sent :=
  match w.files with
  | ⟨path, file, c :: chunks⟩ :: files =>
    if c.hash ∈ w.needed then
      match readExact file c.off c.len with
      | none => .failed .reading
      | some frame =>
        .goOn (some (.chunk c.hash frame false)) ⟨⟨path, file, chunks⟩ :: files, w.needed.erase c.hash⟩
    else .goOn none ⟨⟨path, file, chunks⟩ :: files, w.needed⟩
  | ⟨_, _, []⟩ :: files => .goOn none ⟨files, w.needed⟩
  | [] => if w.needed = ∅ then .finished else .failed .outsideRecipes

/-! ### The hub -/

/-- Where `deliver_outputs` is. -/
inductive Phase
  | pinning
  /-- the loop that fills `needed` -/
  | asking (rest : List Hash) (needed : List Hash)
  | ready (d : Delivery Hash)
  | received (d : Delivery Hash) (m : WorkerMsg Hash)
  | storing (t : Turn Hash)
  | located (d : Delivery Hash) (r : Option FrameRef)
  | finished
  | failed (e : RelayError)

/-- The hash of the next chunk of the delivery, unless it is at the end of a path. -/
def nextHash {H : Type} (d : Delivery H) : Option H := (d.outputs ++ d.extras).head?.bind fun a => a.recipe.head?.map Prod.fst

structure State where
  cache : ChunkStore.State
  phase : Phase
  sending : Option Sending
  refused : Option SendError
  channel : List (WorkerMsg Hash)
  sent : List (WorkerMsg Hash)
  consumed : List (WorkerMsg Hash)
  events : List Event

namespace State

def put (s : State) (m : WorkerMsg Hash) : State := { s with channel := s.channel ++ [m], sent := s.sent ++ [m] }

/-- The worker's thread goes on. An error is reported as a failing result. -/
def worker (s : State) : Option State :=
  match s.sending with
  | none => none
  | some w =>
    match w.turn with
    | .goOn none w => some { s with sending := some w }
    | .goOn (some m) w => some { s.put m with sending := some w }
    | .finished => some { s.put (.chunk (.ofSlice []) [] true) with sending := none }
    | .failed e => some { s.put (.other "Result") with sending := none, refused := some e }

def conclude (s : State) : Turn Hash → State
  | .goOn e d => { s with phase := .ready d, events := s.events ++ e.toList }
  | .finished => { s with phase := .finished }
  | .failed e => { s with phase := .failed e }

/-- The next message for the delivery, and where it goes with it. -/
def take (s : State) (next : WorkerMsg Hash → State → State) : Option State :=
  match s.channel with
  | [] => none
  | m :: rest => some (next m { s with channel := rest, consumed := s.consumed ++ [m] })

end State

section

variable {T : Type} (codec : Codec Hash T) (plain : Hash → Bytes) (fin : FinishedBuild)
variable (outputs extras : List (Announced Hash)) (attempt : ℕ)

/-- The hashes of `all()`. -/
def allHashes : List Hash := ((outputs ++ extras).flatMap Announced.recipe).map Prod.fst

/-- `deliver_outputs` goes on. The import of an extra reads every chunk, and has a result at the end. -/
def State.hub (s : State) (imported : Bool) : Option State :=
  match s.phase with
  | .pinning => (ChunkStore.step (fun _ _ => true) s.cache (.pin (allHashes outputs extras))).map fun c =>
      { s with cache := c, phase := .asking (allHashes outputs extras) [] }
  | .asking (hash :: rest) needed =>
    if hash ∈ needed then some { s with phase := .asking rest needed }
    else (s.cache.locating hash).map fun (r, c) =>
      { s with cache := c, phase := .asking rest (if r.isNone then needed ++ [hash] else needed) }
  | .asking [] needed => some { s with
      phase := .ready ⟨outputs, extras, needed⟩
      sending := some ⟨fin.outputs ++ fin.extras, needed.toFinset⟩ }
  | .ready d =>
    match nextHash d with
    | some hash =>
      if hash ∈ d.needed then s.take fun m s => { s with phase := .received d m }
      else (s.cache.locating hash).map fun (r, c) => { s with cache := c, phase := .located d r }
    | none =>
      if d.outputs = [] ∧ d.extras = [] then s.take fun m s => s.conclude (d.turn codec attempt ⟨some m, none, true, true⟩)
      else some (s.conclude (d.turn codec attempt ⟨none, none, true, imported⟩))
  | .received d m =>
    match d.turn codec attempt ⟨some m, none, true, true⟩, m with
    | .goOn e d, .chunk hash frame _ => (s.cache.admitting hash frame).map fun (admitted, c) =>
        { s with cache := c, phase := if admitted then .storing (.goOn e d) else .failed .caching }
    | t, _ => some (s.conclude t)
  | .storing t => s.cache.idle.map fun _ => s.conclude t
  | .located d r => some (s.conclude (d.turn codec attempt ⟨none, r.bind s.cache.readBack, true, true⟩))
  | .finished | .failed _ => none

def Phase.pinned : Phase → Bool
  | .pinning | .finished | .failed _ => false
  | _ => true

/-- What other jobs do with the cache. They admit frames they have checked and drop their own guards only. -/
def foreign (s : State) (a : ChunkStore.Action) : Prop :=
  (∀ o ∈ a.outcomes, o = .ok) ∧
    match a with
    | .start _ _ | .forget _ | .quit => False
    | .insert hash frame _ => codec.decompress frame = some (plain hash)
    | .dropGuard i => s.phase.pinned = true → allHashes outputs extras ∈ s.cache.guards.eraseIdx i
    | _ => True

instance (s : State) (a : ChunkStore.Action) : Decidable (foreign codec plain outputs extras s a) :=
  match a with
  | .start _ _ | .insert _ _ _ | .evict _ | .locate _ _ | .peek _ _ | .forget _ | .pin _ | .dropGuard _ | .quit =>
    inferInstanceAs (Decidable (_ ∧ _))

inductive Action
  | other (a : ChunkStore.Action)
  | worker
  | hub (imported : Bool)

def step (s : State) : Action → Option State
  | .other a =>
    if foreign codec plain outputs extras s a then
      (ChunkStore.step (fun _ _ => true) s.cache a).map fun c => { s with cache := c }
    else none
  | .worker => s.worker
  | .hub imported => s.hub codec fin outputs extras attempt imported

/-- A running cache that agrees with its directory, and whose frames are intact. -/
structure Intact (c : ChunkStore.State) : Prop where
  running : ∃ p, c.process = some p
  sound : ChunkStore.Sound c
  frames : ∀ hash frame, c.admitted.lookup hash = some frame → codec.decompress frame = some (plain hash)

def system : System State Action where
  init s := ∃ c, Intact codec plain c ∧ s = ⟨c, .pinning, none, none, [], [], [], []⟩
  step := step codec plain fin outputs extras attempt

end

end Tribuchet.Outputs.Transfer
