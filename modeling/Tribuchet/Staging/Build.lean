import Mathlib.Tactic.Simps.Basic
import Tribuchet.Staging.Chunks
import Tribuchet.Staging.Claims

/-! Staging of one build on the worker (`worker/build.rs`, `worker/build/chunks.rs`,
`worker/pins.rs`): the handlers the session loop calls for a hub message or a `Wake`.
They change the build and, through the worker's context, the registry of claims; the
chunk store is read as the set of hashes in it. Hash sets and maps that are iterated
over are lists; their order means nothing. -/

namespace Tribuchet.Staging

open Hoare

variable {B P H : Type} [DecidableEq P] [DecidableEq H]

/-- `MAX_RESEND_ROUNDS`. -/
def maxResendRounds : ℕ := 3

structure PathInfo (P : Type) where
  references : List P
  narSize : ℕ

structure Manifest (P H : Type) where
  storePath : P
  info : Option (PathInfo P)
  hashes : List H
  sizes : List ℕ

structure Need (P H : Type) where
  paths : List P
  hashes : List H

structure Catalog (P H : Type) where
  info : P → PathInfo P
  recipe : P → Recipe H

def Catalog.refs (cat : Catalog P H) (p : P) : List P := (cat.info p).references

def Catalog.manifest (cat : Catalog P H) (p : P) : Manifest P H :=
  ⟨p, some (cat.info p), (cat.recipe p).hashes, (cat.recipe p).map Prod.snd⟩

/-- An input of the assignment: with its manifest where that is offered inline. -/
def Catalog.offer (cat : Catalog P H) (inline : List P) (p : P) : Manifest P H :=
  if p ∈ inline then cat.manifest p else ⟨p, none, [], []⟩

/-- A `ChunkFrame`: a chunk, or the end of the answer to a `Need`. -/
inductive ChunkFrame (H : Type)
  | data (hash : H)
  | eof

/-- The result of an import and the chunks found corrupt or missing. -/
structure ImportOutcome (H : Type) where
  error : Option String
  bad : List H
  deriving DecidableEq

inductive StagingStatus
  | inProgress
  | ready
  deriving DecidableEq

structure ActiveBuild (P H : Type) where
  inputs : Finset P
  pending : Finset P
  infos : AList fun _ : P => PathInfo P
  parked : List P
  waits : AList fun _ : P => ℕ
  claimed : List P
  tmpDirDone : Bool
  resendRounds : ℕ
  needsOutstanding : ℕ
  roots : Finset P
  imports : AList fun _ : P => Option (ImportOutcome H)
  chunks : ChunkStaging P H

abbrev BuildM (P H : Type) := Act (ActiveBuild P H) (Error P)

def ActiveBuild.new : ActiveBuild P H :=
  ⟨∅, ∅, ∅, [], ∅, [], false, 0, 0, ∅, ∅, .empty⟩

def ActiveBuild.tolerated (x : ActiveBuild P H) (path : P) : Prop := path ∈ x.inputs ∨ path ∈ x.waits

instance (x : ActiveBuild P H) (path : P) : Decidable (x.tolerated path) :=
  inferInstanceAs (Decidable (_ ∨ _))

def ActiveBuild.tryComplete (x : ActiveBuild P H) : StagingStatus :=
  if x.tmpDirDone = false ∨ x.pending ≠ ∅ ∨ x.imports.keys ≠ [] ∨ x.waits.keys ≠ [] then .inProgress
  else .ready

namespace ActiveBuild

@[simps] def park (x : ActiveBuild P H) (path : P) : ActiveBuild P H := { x with parked := x.parked.insert path }

@[simps] def unpark (x : ActiveBuild P H) : ActiveBuild P H := { x with parked := [] }

@[simps] def setChunks (x : ActiveBuild P H) (c : ChunkStaging P H) : ActiveBuild P H := { x with chunks := c }

/-- A path leaves `pending` for the import pool. -/
@[simps] def dispatch (x : ActiveBuild P H) (path : P) : ActiveBuild P H :=
  { x with pending := x.pending.erase path, imports := x.imports.insert path none }

@[simps] def addPending (x : ActiveBuild P H) (path : P) : ActiveBuild P H := { x with pending := insert path x.pending }

@[simps] def addInput (x : ActiveBuild P H) (path : P) : ActiveBuild P H := { x with inputs := insert path x.inputs }

/-- One `Need` more, if it carries hashes. -/
@[simps] def ask (x : ActiveBuild P H) (hashes : List H) : ActiveBuild P H :=
  { x with needsOutstanding := x.needsOutstanding + if hashes = [] then 0 else 1 }

@[simps] def nextRound (x : ActiveBuild P H) : ActiveBuild P H := { x with resendRounds := x.resendRounds + 1 }

@[simps] def addClaim (x : ActiveBuild P H) (path : P) : ActiveBuild P H :=
  { x with claimed := x.claimed.insert path, pending := insert path x.pending }

@[simps] def dropClaim (x : ActiveBuild P H) (path : P) : ActiveBuild P H :=
  { x with claimed := x.claimed.filter (· ≠ path) }

@[simps] def addWait (x : ActiveBuild P H) (path : P) (channel : ℕ) : ActiveBuild P H :=
  { x with waits := x.waits.insert path channel }

@[simps] def dropWait (x : ActiveBuild P H) (path : P) : ActiveBuild P H := { x with waits := x.waits.erase path }

@[simps] def dropImport (x : ActiveBuild P H) (path : P) : ActiveBuild P H := { x with imports := x.imports.erase path }

@[simps] def forget (x : ActiveBuild P H) (path : P) : ActiveBuild P H :=
  { x with chunks := x.chunks.forgetPath path, infos := x.infos.erase path }

end ActiveBuild

def onChunks {α : Type} (m : ChunkM P H α) : BuildM P H α := zoom (·.chunks) ActiveBuild.setChunks m

/-! ### Imports -/

def unstagedRef (path : P) : BuildM P H (Option P) := do
  let x ← get
  match x.infos.lookup path with
  | none => throw .panicked
  | some info =>
    match info.references.find? fun r => r ≠ path ∧ r ∉ x.inputs with
    | none => pure none
    | some r =>
      if r ∈ x.pending ∨ r ∈ x.imports ∨ r ∈ x.waits then pure (some r) else throw (.outsideClosure r path)

def dispatchImport (path : P) : BuildM P H Unit := do
  let x ← get
  if path ∉ x.chunks.recipes then throw (.noRecipe path)
  else if path ∉ x.pending then throw (.notPending path)
  else if path ∉ x.infos then throw .panicked
  else set (x.dispatch path)

/-- The loop of `start_chunk_import`. -/
def startLoop : ℕ → List P → BuildM P H Unit
  | _, [] => pure ()
  | 0, _ :: _ => throw .outOfFuel
  | fuel + 1, path :: queue => do
    match ← unstagedRef path with
    | some _ =>
      modify (·.park path)
      startLoop fuel queue
    | none =>
      dispatchImport path
      let parked := (← get).parked
      modify (·.unpark)
      startLoop fuel (parked ++ queue)

/-- Dispatch a complete path once its references are inputs, else park it. A dispatch
looks at every parked path again. -/
def startChunkImport (path : P) : BuildM P H Unit := do
  let fuel := ((← get).parked.length + 2) * ((← get).parked.length + 2)
  startLoop fuel [path]

def startAll (paths : List P) : BuildM P H Unit := paths.foldlM (fun _ p => startChunkImport p) ()

def retryParked : BuildM P H Unit := do
  let parked := (← get).parked
  modify (·.unpark)
  startAll parked

/-! ### Hub messages -/

def need (paths : List P) (hashes : List H) : BuildM P H (Option (Need P H)) := do
  if paths = [] ∧ hashes = [] then pure none
  else
    modify (·.ask hashes)
    pure (some ⟨paths, hashes⟩)

/-- A manifest for a pending path: dispatch it if complete, else return the chunk hashes
to request. -/
def takeManifest (store : Finset H) (m : Manifest P H) : BuildM P H (List H) := do
  let x ← get
  if m.storePath ∉ x.pending then
    if x.tolerated m.storePath then pure [] else throw (.unrequestedPath m.storePath)
  else
    match m.info with
    | none => throw (.lacksPathInfo m.storePath)
    | some info =>
      if maxNarBytes < info.narSize then throw (.narLimit m.storePath)
      else
        set { x with infos := x.infos.insert m.storePath info }
        let (hashes, ready) ← onChunks (ChunkStaging.addRecipe store m.storePath m.hashes m.sizes)
        if ready then startChunkImport m.storePath
        pure hashes

def feedManifest (store : Finset H) (m : Manifest P H) : BuildM P H (Option (Need P H)) := do
  let hashes ← takeManifest store m
  need [] hashes

/-- One turn of the first loop in `restage`. -/
def restageOne (store : Finset H) (acc : List H × List P) (path : P) : BuildM P H (List H × List P) := do
  let x ← get
  match x.chunks.recipes.lookup path with
  | none => throw (.noRecipe path)
  | some recipe =>
    let (c, hashes) := x.chunks.awaitMissing store path recipe
    set ((x.setChunks c).addPending path)
    pure (acc.1 ++ hashes, if path ∈ c.remaining then acc.2 else acc.2 ++ [path])

/-- Put imported-but-failed paths back to pending and await their chunks again. -/
def restage (store : Finset H) (paths : List P) : BuildM P H (Option (Need P H)) := do
  let (hashes, ready) ← paths.foldlM (restageOne store) ([], [])
  startAll ready
  need [] hashes

/-- Chunks were lost: count the round in which they are requested again. -/
def countRound (hashes : List H) : BuildM P H Unit := do
  if hashes = [] then pure ()
  else if maxResendRounds ≤ (← get).resendRounds then throw .chunksKeepMissing
  else modify (·.nextRound)

/-- Every `Need` was answered and paths still wait on chunks. -/
def requestStuck (store : Finset H) : BuildM P H (Option (Need P H)) := do
  let (hashes, ready) ← onChunks (ChunkStaging.reawaitStuck store)
  countRound hashes
  startAll ready
  need [] hashes

/-- `feed_chunk`; the frame of a chunk is in the store already. -/
def feedChunk (store : Finset H) : ChunkFrame H → BuildM P H (Option (Need P H))
  | .eof => do
    let x ← get
    match x.needsOutstanding with
    | 0 => throw .eofWithoutNeed
    | n + 1 =>
      set { x with needsOutstanding := n }
      if n = 0 ∧ x.chunks.remaining.keys ≠ [] then requestStuck store else pure none
  | .data hash => do
    let ready ← onChunks (ChunkStaging.ingest hash)
    startAll ready
    pure none

/-- The end of `feed_tmp_dir`; the tmp dir is unpacked when the stream ends. -/
def feedTmpDir (eof : Bool) : BuildM P H (Option (Need P H)) := do
  modify fun x => { x with tmpDirDone := x.tmpDirDone || eof }
  pure none

/-! ### Claims -/

/-- A build and what it shares with the other builds of the worker. -/
structure Local (B P H : Type) where
  build : ActiveBuild P H
  claims : Claims B P

abbrev WorkerM (B P H : Type) := Act (Local B P H) (Error P)

def onBuild {α : Type} (m : BuildM P H α) : WorkerM B P H α := zoom (·.build) (fun s x => { s with build := x }) m

/-- True when the path is ours to request, else we wait on it. -/
def claim (b : B) (path : P) : WorkerM B P H Bool := do
  let s ← get
  match s.claims.claimOrWait path b with
  | (none, claims) =>
    set (⟨s.build.addClaim path, claims⟩ : Local B P H)
    pure true
  | (some channel, claims) =>
    set (⟨s.build.addWait path channel, claims⟩ : Local B P H)
    pure false

def settle (path : P) (state : ClaimState) : WorkerM B P H Unit :=
  modify fun s =>
    if path ∈ s.build.claimed then ⟨s.build.dropClaim path, s.claims.settle path state⟩ else s

/-- A finished import makes the path an input and lets parked referrers dispatch. One
that failed on corrupt or vanished chunks is staged again. -/
def importFinished (store : Finset H) (path : P) :
    Option (ImportOutcome H) → WorkerM B P H (Option (Need P H))
  | none => throw (.unfinishedImport path)
  | some ⟨some text, bad⟩ => onBuild do
    let x ← get
    if bad = [] ∨ maxResendRounds ≤ x.resendRounds then throw (.importFailed text)
    else
      set x.nextRound
      restage store [path]
  | some ⟨none, _⟩ => do
    onBuild (modify (·.forget path))
    settle path .done
    onBuild do
      modify (·.addInput path)
      retryParked
    pure none

variable [DecidableEq B]

/-- The claim a build waits on settled: use the path, or try to take it over. -/
def claimSettled (b : B) (path : P) (state : ClaimState) : WorkerM B P H (Option (Need P H)) := do
  modify fun s => ⟨s.build.dropWait path, s.claims.dropWait b path⟩
  if state = .done then
    onBuild do
      modify (·.addInput path)
      retryParked
    pure none
  else if ← claim b path then onBuild (need [path] [])
  else pure none

/-- An own import finished or a claim this build waits on settled. -/
def woken (store : Finset H) (b : B) (path : P) : WorkerM B P H (Option (Need P H)) := do
  let s ← get
  match s.build.imports.lookup path with
  | some result =>
    set { s with build := s.build.dropImport path }
    importFinished store path result
  | none =>
    match (s.build.waits.lookup path).bind s.claims.settled with
    | none => pure none
    | some state => claimSettled b path state

/-! ### Negotiation -/

/-- `plan_pins`: the offered paths that need their own temp root, given the paths a
snapshot of the store database calls valid. -/
def planPins (refs : P → List P) (dbValid : Finset P) (offered : List P) : List P :=
  offered.filter fun p => ¬ (p ∈ dbValid ∧ ∃ q ∈ offered, q ∈ dbValid ∧ q ≠ p ∧ p ∈ refs q)

/-- How the store looked to `check_inputs` before its last look at it. -/
structure Pinning (P : Type) where
  dbValid : Option (Finset P)
  first : Option (Finset P)

/-- A path of the snapshot is not valid in the daemon's answer. -/
def Pinning.raced (pin : Pinning P) (offered : List P) (answer : Finset P) : Prop :=
  ∃ p ∈ offered, p ∈ pin.dbValid.getD ∅ ∧ p ∉ answer

instance (pin : Pinning P) (offered : List P) (answer : Finset P) : Decidable (pin.raced offered answer) :=
  inferInstanceAs (Decidable (∃ p ∈ offered, _))

/-- The looks fit the store: the daemon is asked again exactly when its first answer
lacks a path of the snapshot. -/
def Pinning.fits (pin : Pinning P) (offered : List P) (valid : Finset P) : Prop :=
  match pin.first with
  | none => ¬ pin.raced offered valid
  | some answer => pin.raced offered answer

instance (pin : Pinning P) (offered : List P) (valid : Finset P) : Decidable (pin.fits offered valid) :=
  match pin with
  | ⟨_, none⟩ => inferInstanceAs (Decidable (¬ _))
  | ⟨_, some answer⟩ => inferInstanceAs (Decidable (Pinning.raced _ offered answer))

/-- The temp roots `check_inputs` adds. -/
def Pinning.roots (pin : Pinning P) (refs : P → List P) (offered : List P) : List P :=
  match pin.first, pin.dbValid with
  | none, some dbValid => planPins refs dbValid offered
  | _, _ => offered

/-- One turn of the last loop in `check_inputs`. -/
def checkOne (b : B) (valid : Finset P) (missing : List P) (path : P) : WorkerM B P H (List P) := do
  if path ∈ valid then
    onBuild (modify (·.addInput path))
    pure missing
  else if ← claim b path then pure (missing ++ [path])
  else pure missing

def checkInputs (b : B) (refs : P → List P) (pin : Pinning P) (valid : Finset P) (offered : List P) :
    WorkerM B P H (List P) := do
  modify fun s => { s with build := { s.build with roots := (pin.roots refs offered).toFinset } }
  offered.foldlM (checkOne b valid) []

def takeInline (store : Finset H) (hashes : List H) (m : Manifest P H) : BuildM P H (List H) := do
  if m.info.isSome then return hashes ++ (← takeManifest store m)
  else return hashes

/-- Pin and check the inputs, take inline manifests, and answer with the first `Need`
listing every path this build imports. -/
def negotiate (b : B) (refs : P → List P) (pin : Pinning P) (valid : Finset P) (store : Finset H)
    (inputs : List (Manifest P H)) : WorkerM B P H (Option (Need P H)) := do
  let missing ← checkInputs b refs pin valid (inputs.map Manifest.storePath)
  onBuild do
    let hashes ← inputs.foldlM (takeInline store) []
    modify (·.ask hashes)
    pure (some ⟨missing, hashes⟩)

def abort (b : B) (s : Local B P H) : Claims B P :=
  (s.claims.settleAll s.build.claimed .failed).dropWaits b

end Tribuchet.Staging
