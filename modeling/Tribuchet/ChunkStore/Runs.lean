import Tribuchet.Base.Runs
import Tribuchet.ChunkStore.Store

/-! Runs of a chunk store over one directory: operations of a process, stops of
the process inside or between them, and reopening. For each hash the bytes of its
latest admission are kept beside the model, and for each `FrameRef` handed out the
bytes it should read. -/

namespace Tribuchet.ChunkStore

open ByteStrings Filesystem Hoare Runs

structure Process where
  store : Store
  /-- the count of unfreed rounds, while an `insert` is in its eviction loop -/
  evicting : Option ℕ

structure State where
  dir : Directory FileName
  process : Option Process
  /-- the live `PinGuard`s -/
  guards : List (List Hash)
  admitted : AList fun _ : Hash => Bytes
  /-- the `FrameRef`s handed out, each with the frame admitted at the time -/
  issued : List (FrameRef × Option Bytes)

inductive Action
  /-- `ChunkStore::open` -/
  | start (budget : ℕ) (outcomes : List Outcome)
  | insert (hash : Hash) (frame : Bytes) (outcomes : List Outcome)
  | evict (outcomes : List Outcome)
  | locate (hash : Hash) (outcomes : List Outcome)
  | peek (hash : Hash) (outcomes : List Outcome)
  | forget (hash : Hash)
  | pin (hashes : List Hash)
  | dropGuard (i : ℕ)
  | quit

def Action.outcomes : Action → List Outcome
  | .start _ outcomes | .insert _ _ outcomes | .evict outcomes => outcomes
  | .locate _ outcomes | .peek _ outcomes => outcomes
  | _ => []

/-- The state after an operation on the store: a stop or a panic ends the process,
any other error is returned to the caller. -/
def State.after {α : Type} (s : State) (r : Except Error α × World) (k : α → Store → State → State) :
    State :=
  match r with
  | (.ok a, w) => k a w.store { s with dir := w.disk.dir, process := some ⟨w.store, none⟩ }
  | (.error (.io _), w) => { s with dir := w.disk.dir, process := some ⟨w.store, none⟩ }
  | (.error _, w) => { s with dir := w.disk.dir, process := none }

def State.world (s : State) (store : Store) (outcomes : List Outcome) : World := ⟨store, ⟨s.dir, outcomes⟩⟩

def State.idle (s : State) : Option Store :=
  match s.process with
  | some ⟨store, none⟩ => some store
  | _ => none

/-- Remember a `FrameRef` and what it should read. -/
def State.issue (s : State) (hash : Hash) (r : Option FrameRef) : State :=
  { s with issued := (r.map fun r => (r, s.admitted.lookup hash)).toList ++ s.issued }

def step (intact : Bytes → Hash → Bool) (s : State) : Action → Option State
  | .start budget outcomes =>
    match s.process with
    | some _ => none
    | none =>
      let w := s.world (Store.initial budget) outcomes
      match exec (load intact) w with
      | (.ok _, w) => some ⟨w.disk.dir, some ⟨w.store, none⟩, [], ∅, []⟩
      | (.error _, w) => some ⟨w.disk.dir, none, [], ∅, []⟩
  | .insert hash frame outcomes => s.idle.map fun store =>
      let s := if store.contains hash then s else { s with admitted := s.admitted.insert hash frame }
      s.after (exec (insertFrame hash frame) (s.world store outcomes)) fun fresh store s =>
        { s with process := some ⟨store, if fresh then some 0 else none⟩ }
  | .evict outcomes =>
    match s.process with
    | some ⟨store, some unfreedRound⟩ => some <|
      s.after (exec (evictTurn unfreedRound) (s.world store outcomes)) fun next store s =>
        match next with
        | none => { s with process := some ⟨store.trimGhost, none⟩ }
        | some n => { s with process := some ⟨store, some n⟩ }
    | _ => none
  | .locate hash outcomes => s.idle.map fun store =>
      s.after (exec (locate hash) (s.world store outcomes)) fun r _ s => s.issue hash r
  | .peek hash outcomes => s.idle.map fun store =>
      s.after (exec (peek hash) (s.world store outcomes)) fun r _ s => s.issue hash r
  | .forget hash => s.idle.map fun store => { s with process := some ⟨store.forget hash, none⟩ }
  | .pin hashes => s.idle.map fun store =>
      { s with process := some ⟨store.pin hashes, none⟩, guards := hashes :: s.guards }
  | .dropGuard i =>
    match s.process, s.guards[i]? with
    | some p, some hashes =>
      some { s with process := some { p with store := p.store.unpin hashes }, guards := s.guards.eraseIdx i }
    | _, _ => none
  | .quit => some { s with process := none }

def State.empty : State := ⟨Directory.empty, none, [], ∅, []⟩

def system (intact : Bytes → Hash → Bool) : System State Action where
  init s := s = State.empty
  step := step intact

end Tribuchet.ChunkStore
