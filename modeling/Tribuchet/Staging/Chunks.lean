import Mathlib.Algebra.GroupWithZero.Nat
import Mathlib.Data.Finset.Basic
import Tribuchet.Base.Hoare
import Tribuchet.Base.Table

/-! Chunk bookkeeping of one build's staging (`ChunkStaging` in
`worker/build/chunks.rs`, `parse_recipe` in `chunker.rs`). The chunk store counts
only as the set of hashes it contains; the pin that goes with a recipe keeps its
chunks from being evicted and is left out, since here a chunk may vanish from the
store at any time. -/

namespace Tribuchet.Staging

open Hoare

variable {P H : Type} [DecidableEq P] [DecidableEq H]

inductive Error (P : Type)
  | unrequestedPath (path : P)
  | lacksPathInfo (path : P)
  | narLimit (path : P)
  | malformedRecipe (path : P)
  | oversizedRecipe (path : P)
  | noRecipe (path : P)
  | noRemainingCount
  | eofWithoutNeed
  | chunksKeepMissing
  | outsideClosure (reference path : P)
  | notPending (path : P)
  | unfinishedImport (path : P)
  | importFailed (text : String)
  | cancelled
  | setupFailed (text : String)
  | panicked
  /-- not of the source: the fuel of a modelled loop ran out -/
  | outOfFuel

/-- `MAX_CHUNK_BYTES`. -/
def maxChunkBytes : ℕ := 2 ^ 20

/-- `MAX_NAR_BYTES`. -/
def maxNarBytes : ℕ := 64 * 2 ^ 30

def Error.text [ToString P] : Error P → String
  | .unrequestedPath path => "hub sent a manifest for unrequested path " ++ toString path
  | .lacksPathInfo path => "manifest for " ++ toString path ++ " lacks path info"
  | .narLimit path => "input " ++ toString path ++ " exceeds the " ++ toString maxNarBytes ++ " byte NAR limit"
  | .malformedRecipe path => "malformed recipe for " ++ toString path
  | .oversizedRecipe path => "oversized recipe for " ++ toString path
  | .noRecipe path => "no recipe for ready path " ++ toString path
  | .noRemainingCount => "waiter without remaining count"
  | .eofWithoutNeed => "chunk eof without a Need"
  | .chunksKeepMissing => "input chunks keep going missing"
  | .outsideClosure reference path =>
    "reference " ++ toString reference ++ " of " ++ toString path ++ " is outside the input closure"
  | .notPending path => "chunk-ready path " ++ toString path ++ " was not pending"
  | .unfinishedImport path => "woken for unfinished import " ++ toString path
  | .importFailed text | .setupFailed text => text
  | .cancelled => "build cancelled"
  | .panicked | .outOfFuel => ""

abbrev Recipe (H : Type) := List (H × ℕ)

def Recipe.hashes (r : Recipe H) : List H := r.map Prod.fst

/-- The entries of a recipe after `total` bytes. -/
def parseEntries (path : P) : ℕ → List (H × ℕ) → Except (Error P) (Recipe H)
  | _, [] => .ok []
  | total, (hash, size) :: rest =>
    if maxChunkBytes < size ∨ maxNarBytes < total + size then .error (.oversizedRecipe path)
    else (parseEntries path (total + size) rest).map ((hash, size) :: ·)

def parseRecipe (path : P) (hashes : List H) (sizes : List ℕ) : Except (Error P) (Recipe H) :=
  if hashes.length ≠ sizes.length then .error (.malformedRecipe path)
  else parseEntries path 0 (hashes.zip sizes)

omit [DecidableEq P] [DecidableEq H] in
theorem parseEntries_ok {path : P} {total : ℕ} {es r : List (H × ℕ)} (h : parseEntries path total es = .ok r) :
    r = es := by
  induction es generalizing total r with
  | nil =>
    cases h
    rfl
  | cons e es ih =>
    obtain ⟨hash, size⟩ := e
    simp only [parseEntries] at h
    split_ifs at h
    cases hr : parseEntries path (total + size) es with
    | error e =>
      rw [hr] at h
      cases h
    | ok rest =>
      rw [hr] at h
      cases h
      rw [ih hr]

structure ChunkStaging (P H : Type) where
  recipes : AList fun _ : P => Recipe H
  waiters : AList fun _ : H => List P
  remaining : AList fun _ : P => ℕ

abbrev ChunkM (P H : Type) := Act (ChunkStaging P H) (Error P)

namespace ChunkStaging

def empty : ChunkStaging P H := ⟨∅, ∅, ∅⟩

def waitersOf (waiters : AList fun _ : H => List P) (hash : H) : List P := (waiters.lookup hash).getD []

/-- One turn of the loop in `await_missing`: the waiters, the hashes to request and
the number of chunks missing. -/
def awaitOne (store : Finset H) (path : P) (acc : (AList fun _ : H => List P) × List H × ℕ) (hash : H) :
    (AList fun _ : H => List P) × List H × ℕ :=
  let (waiters, need, missing) := acc
  if hash ∈ store then acc
  else
    let ws := waitersOf waiters hash
    let need := if ws = [] then need ++ [hash] else need
    if path ∈ ws then (waiters, need, missing) else (waiters.insert hash (ws ++ [path]), need, missing + 1)

def awaitMissing (c : ChunkStaging P H) (store : Finset H) (path : P) (recipe : Recipe H) :
    ChunkStaging P H × List H :=
  let (waiters, need, missing) := recipe.hashes.foldl (awaitOne store path) (c.waiters, [], 0)
  let remaining :=
    if 0 < missing then c.remaining.insert path ((c.remaining.lookup path).getD 0 + missing) else c.remaining
  ({ c with waiters := waiters, remaining := remaining }, need)

def addRecipe (store : Finset H) (path : P) (hashes : List H) (sizes : List ℕ) : ChunkM P H (List H × Bool) := do
  match parseRecipe path hashes sizes with
  | .error e => throw e
  | .ok recipe =>
    let (c, need) := (← get).awaitMissing store path recipe
    set { c with recipes := c.recipes.insert path recipe }
    pure (need, path ∉ c.remaining)

/-- One turn of the loop in `reawait_stuck`. -/
def reawaitOne (store : Finset H) (acc : List H × List P) (path : P) : ChunkM P H (List H × List P) := do
  match (← get).recipes.lookup path with
  | none => throw .panicked
  | some recipe =>
    let (c, need) := (← get).awaitMissing store path recipe
    set c
    pure (acc.1 ++ need, if path ∈ c.remaining then acc.2 else acc.2 ++ [path])

/-- The hashes to request again and the paths that are complete now. -/
def reawaitStuck (store : Finset H) : ChunkM P H (List H × List P) := do
  let stuck := (← get).remaining.keys
  modify fun c => { c with waiters := ∅, remaining := ∅ }
  stuck.foldlM (reawaitOne store) ([], [])

/-- One turn of the loop in `ingest`. -/
def arrived (ready : List P) (path : P) : ChunkM P H (List P) := do
  match (← get).remaining.lookup path with
  | none => throw .noRemainingCount
  | some 0 => throw .panicked
  | some 1 =>
    modify fun c => { c with remaining := c.remaining.erase path }
    pure (ready ++ [path])
  | some (left + 2) =>
    modify fun c => { c with remaining := c.remaining.insert path (left + 1) }
    pure ready

/-- A frame is in the store: the paths whose last missing chunk arrived. -/
def ingest (hash : H) : ChunkM P H (List P) := do
  let waiting := waitersOf (← get).waiters hash
  modify fun c => { c with waiters := c.waiters.erase hash }
  waiting.foldlM arrived []

def forgetPath (c : ChunkStaging P H) (path : P) : ChunkStaging P H :=
  { c with recipes := c.recipes.erase path }

end ChunkStaging

end Tribuchet.Staging
