import Mathlib.Data.Finset.Card
import Mathlib.Data.List.Dedup
import Tribuchet.Nar.Chunks

/-! Serving the chunks of a `Need` (`hub/relay/serve.rs`, `hub/chunkcache.rs`): cached frames as
stored, the other chunks by packing the path again that holds them. The cache is shared with the
other jobs, and what its chunk store answers is left open. -/

namespace Tribuchet.Hub.Serve

open ByteStrings Feeding Hoare Nar

/-- `SEEN_CAP`. -/
def seenCap : ℕ := 256 * 1024

structure ChunkCache (H σ : Type) where
  store : σ
  seen : List H
  seenSet : Finset H

inductive Disposition (R : Type)
  | cached (frame : R)
  | toAdmit
  | firstSeen

structure Manifest (H P : Type) where
  storePath : P
  recipe : List (H × ℕ)

/-- What the relay runs in. The chunk store may answer anything; `read` is a read of a located
frame, outside the lock. -/
structure Host (H σ R P : Type) where
  locate : H → σ → Option R × σ
  insert : H → Bytes → σ → Bool × σ
  read : R → σ → Option Bytes × σ
  others : ChunkCache H σ → ChunkCache H σ
  compress : Bytes → Option Bytes
  decompress : Bytes → Option Bytes
  tree : P → Node
  reads : P → Path → ℕ → ℕ
  lost : ℕ → Bool
  iter : List H → List H
  iter_perm : ∀ l, (iter l).Perm l

inductive ServeError (P : Type)
  | outsideManifests
  | connectionLost
  | compressing
  | packing (path : P) (e : IoError)

structure Relay (H σ : Type) where
  cache : ChunkCache H σ
  sent : List (H × Bytes)

variable {H σ R P α : Type} [DecidableEq H] (host : Host H σ R P) (blake3 : Bytes → H) (cdc : Cdc)

/-! ### The cache -/

def trimSeen : List H → Finset H → List H × Finset H
  | [], seenSet => ([], seenSet)
  | old :: seen, seenSet =>
    if seenCap < seen.length + 1 then trimSeen seen (seenSet.erase old) else (old :: seen, seenSet)

namespace ChunkCache

def classify (hash : H) (c : ChunkCache H σ) : Disposition R × ChunkCache H σ :=
  match host.locate hash c.store with
  | (some frame, store) => (.cached frame, { c with store := store })
  | (none, store) =>
    if hash ∈ c.seenSet then (.toAdmit, { c with store := store, seenSet := c.seenSet.erase hash })
    else
      let (seen, seenSet) := trimSeen (c.seen ++ [hash]) (insert hash c.seenSet)
      (.firstSeen, ⟨store, seen, seenSet⟩)

def locateAll : List H → ChunkCache H σ → Option (List (H × R)) × ChunkCache H σ
  | [], c => (some [], c)
  | hash :: hashes, c =>
    match host.locate hash c.store with
    | (none, store) => (none, { c with store := store })
    | (some frame, store) =>
      let (frames, c) := locateAll hashes { c with store := store }
      (frames.map ((hash, frame) :: ·), c)

def admitFrame (hash : H) (frame : Bytes) (c : ChunkCache H σ) : Bool × ChunkCache H σ :=
  let (ok, store) := host.insert hash frame c.store
  (ok, { c with store := store })

def read (frame : R) (c : ChunkCache H σ) : Option Bytes × ChunkCache H σ :=
  let (bytes, store) := host.read frame c.store
  (bytes, { c with store := store })

end ChunkCache

/-- One use of the cache, which others used since the last one. -/
def use (f : ChunkCache H σ → α × ChunkCache H σ) : Act (Relay H σ) (ServeError P) α := fun s =>
  let (a, cache) := f (host.others s.cache)
  (.ok a, { s with cache := cache })

/-! ### Sending -/

def sendFrame (hash : H) (frame : Bytes) : Act (Relay H σ) (ServeError P) Unit := fun s =>
  if host.lost s.sent.length = true then (.error .connectionLost, s)
  else (.ok (), { s with sent := s.sent ++ [(hash, frame)] })

/-- The loop of `serve_cached` over the located frames, with the hashes that are left. -/
def sendCached : List (H × R) → List H → Act (Relay H σ) (ServeError P) (List H)
  | [], rest => pure rest
  | (hash, ref) :: frames, rest => do
    match ← use host (ChunkCache.read host ref) with
    | none => pure rest
    | some frame =>
      sendFrame host hash frame
      sendCached frames (rest.erase hash)

def serveCached (todo : List H) : Act (Relay H σ) (ServeError P) (List H) := do
  match ← use host (ChunkCache.locateAll host (host.iter todo)) with
  | none => pure todo
  | some frames => sendCached host frames todo

/-- The end of `frame_for`. A chunk that could not be admitted only loses later hits. -/
def compressed (chunk : Chunk H) (toAdmit : Bool) : Act (Relay H σ) (ServeError P) Bytes :=
  match host.compress chunk.data with
  | none => throw .compressing
  | some frame => do
    if toAdmit = true then
      let _ ← use host (ChunkCache.admitFrame host chunk.hash frame)
      pure frame
    else pure frame

def frameFor (chunk : Chunk H) : Act (Relay H σ) (ServeError P) Bytes := do
  match ← use host (ChunkCache.classify host chunk.hash) with
  | .cached ref =>
    match ← use host (ChunkCache.read host ref) with
    | some frame => pure frame
    | none => compressed host chunk false
  | .firstSeen => compressed host chunk false
  | .toAdmit => compressed host chunk true

/-- What becomes of a chunk of the packed path. The frames are made in parallel and sent in the
order of the chunks; `others` stands for the frames of later chunks, too. -/
def onChunk (todo : List H) : Callback (Chunk H) (Relay H σ) (ServeError P) := fun chunk s =>
  if chunk.hash ∈ todo then
    exec (do
      let frame ← frameFor host chunk
      sendFrame host chunk.hash frame
      pure true) s
  else (.ok true, s)

def streamPathChunks (path : P) (todo : List H) : Act (Relay H σ) (ServeError P) Unit := fun s =>
  match chunkStorePath blake3 cdc (onChunk host todo) (host.reads path) (host.tree path) s with
  | (.ok (), s) => (.ok (), s)
  | (.error (.serializing e), s) => (.error (.packing path e), s)
  | (.error (.sink e), s) => (.error e, s)

def Manifest.hashes (m : Manifest H P) : List H := m.recipe.map Prod.fst

def todo (needed served : Finset H) (m : Manifest H P) : List H :=
  (m.hashes.filter fun h => h ∈ needed ∧ h ∉ served).dedup

/-- One turn of the loop in `serve_need`, with the hashes served so far. -/
def serveManifest (needed served : Finset H) (m : Manifest H P) : Act (Relay H σ) (ServeError P) (Finset H) :=
  if todo needed served m = [] then pure served
  else do
    let rest ← serveCached host (todo needed served m)
    if rest = [] then pure (served ∪ (todo needed served m).toFinset)
    else
      streamPathChunks host blake3 cdc m.storePath rest
      pure (served ∪ (todo needed served m).toFinset)

def serveNeed (sent : List (Manifest H P)) (needed : Finset H) : Act (Relay H σ) (ServeError P) Unit := do
  let served ← sent.foldlM (serveManifest host blake3 cdc needed) ∅
  if served.card ≠ needed.card then throw .outsideManifests else pure ()

end Tribuchet.Hub.Serve
