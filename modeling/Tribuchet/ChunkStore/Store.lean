import Mathlib.Data.Finset.Basic
import Mathlib.Data.List.Sort
import Tribuchet.ChunkStore.Pack

/-! The log-structured chunk cache with S3-FIFO eviction (`chunkstore.rs`). Ids,
offsets and byte counts are natural numbers. `insert` is split at its eviction
loop: `insertFrame` is what comes before the loop and `evictTurn` one turn of it. A turn
holds the pin lock while it retires a pack, and a `PinGuard` is dropped without
the store lock, so guards may go between two turns. -/

namespace Tribuchet.ChunkStore

open ByteStrings Filesystem Hoare

def smallFraction : ℕ := 10

def freqMax : ℕ := 3

def ghostKey (hash : Hash) : ℕ := fromLe (hash.1.take 8)

inductive Queue
  | small
  | main
  deriving DecidableEq

structure Entry where
  pack : ℕ
  offset : ℕ
  len : ℕ
  freq : ℕ
  deriving DecidableEq

structure FrameRef where
  file : ℕ
  offset : ℕ
  len : ℕ
  deriving DecidableEq

structure Store where
  budget : ℕ
  sealBytes : ℕ
  map : AList fun _ : Hash => Entry
  packs : AList fun _ : ℕ => ℕ
  readers : AList fun _ : ℕ => ℕ
  small : List ℕ
  main : List ℕ
  activeSmall : Option PackWriter
  activeMain : Option PackWriter
  smallBytes : ℕ
  mainBytes : ℕ
  ghost : List ℕ
  ghostSet : Finset ℕ
  pins : AList fun _ : Hash => ℕ
  nextId : ℕ

namespace Store

/-- The store `open` starts from, before it looks at the directory. -/
def initial (budget : ℕ) : Store where
  budget := budget
  sealBytes := max (4 * 2 ^ 20) (min (budget / 16) (256 * 2 ^ 20))
  map := ∅
  packs := ∅
  readers := ∅
  small := []
  main := []
  activeSmall := none
  activeMain := none
  smallBytes := 0
  mainBytes := 0
  ghost := []
  ghostSet := ∅
  pins := ∅
  nextId := 0

def writer (s : Store) : Queue → Option PackWriter
  | .small => s.activeSmall
  | .main => s.activeMain

def setWriter (s : Store) (q : Queue) (w : Option PackWriter) : Store :=
  match q with
  | .small => { s with activeSmall := w }
  | .main => { s with activeMain := w }

def setBytes (s : Store) (q : Queue) (f : ℕ → ℕ) : Store :=
  match q with
  | .small => { s with smallBytes := f s.smallBytes }
  | .main => { s with mainBytes := f s.mainBytes }

def pushBack (s : Store) (q : Queue) (id : ℕ) : Store :=
  match q with
  | .small => { s with small := s.small ++ [id] }
  | .main => { s with main := s.main ++ [id] }

/-- The active writer `w` of a queue has become `w'` by one more record, which the map
now names. -/
def pushRecord (s : Store) (q : Queue) (w w' : PackWriter) (hash : Hash) (e : Entry) : Store :=
  ({ s.setWriter q (some w') with map := s.map.insert hash e }).setBytes q (· + (w'.len - w.len))

def bytes (s : Store) : ℕ := s.smallBytes + s.mainBytes

def contains (s : Store) (hash : Hash) : Bool := (s.map.lookup hash).isSome

def forget (s : Store) (hash : Hash) : Store := { s with map := s.map.erase hash }

def pinOne (pins : AList fun _ : Hash => ℕ) (hash : Hash) : AList fun _ : Hash => ℕ :=
  pins.insert hash ((pins.lookup hash).getD 0 + 1)

def unpinOne (pins : AList fun _ : Hash => ℕ) (hash : Hash) : AList fun _ : Hash => ℕ :=
  match pins.lookup hash with
  | none => pins
  | some n => if n - 1 = 0 then pins.erase hash else pins.insert hash (n - 1)

def pin (s : Store) (hashes : List Hash) : Store := { s with pins := hashes.foldl pinOne s.pins }

/-- `PinGuard::drop`. -/
def unpin (s : Store) (hashes : List Hash) : Store := { s with pins := hashes.foldl unpinOne s.pins }

def ghostPush (s : Store) (hash : Hash) : Store :=
  let key := ghostKey hash
  if key ∈ s.ghostSet then s
  else { s with ghostSet := insert key s.ghostSet, ghost := s.ghost ++ [key] }

/-- A cold entry leaves the map; from the small queue it leaves a ghost. -/
def dropEntry (s : Store) (q : Queue) (hash : Hash) : Store :=
  let s := { s with map := s.map.erase hash }
  match q with
  | .small => s.ghostPush hash
  | .main => s

/-- Lazy removal: the queue entry stays and is skipped at trim. -/
def ghostRemove (s : Store) (hash : Hash) : Bool × Store :=
  (ghostKey hash ∈ s.ghostSet, { s with ghostSet := s.ghostSet.erase (ghostKey hash) })

def trimGhost (s : Store) : Store :=
  let dropped := s.ghost.length - max s.map.keys.length 1024
  { s with
    ghost := s.ghost.drop dropped
    ghostSet := s.ghostSet \ (s.ghost.take dropped).toFinset }

end Store

structure World where
  store : Store
  disk : Disk

abbrev StoreM := Act World Error

def onDisk {α : Type} (x : DiskM α) : StoreM α := zoom World.disk (fun w d => { w with disk := d }) x

def getStore : StoreM Store := do return (← get).store

def modifyStore (f : Store → Store) : StoreM Unit := modify fun w => { w with store := f w.store }

/-! ### Reading -/

def reader (pack : ℕ) : StoreM ℕ := do
  match (← getStore).readers.lookup pack with
  | some file => pure file
  | none =>
    let file ← onDisk (openPack pack)
    modifyStore fun s => { s with readers := s.readers.insert pack file }
    pure file

def frame (pack offset len : ℕ) : StoreM Bytes := do
  let file ← reader pack
  tryCatch (onDisk (readFrame file offset len)) fun e => do
    if e ≠ .stopped then
      modifyStore fun s => { s with readers := s.readers.erase pack }
    throw e

def peek (hash : Hash) : StoreM (Option FrameRef) := do
  match (← getStore).map.lookup hash with
  | none => pure none
  | some entry =>
    tryCatch
      (do
        let file ← reader entry.pack
        pure (some { file := file, offset := entry.offset, len := entry.len }))
      fun e => if e = .stopped then throw e else pure none

def locate (hash : Hash) : StoreM (Option FrameRef) := do
  match (← getStore).map.lookup hash with
  | none => pure none
  | some entry =>
    modifyStore fun s =>
      { s with map := s.map.insert hash { entry with freq := min (entry.freq + 1) freqMax } }
    peek hash

def FrameRef.read (r : FrameRef) : DiskM Bytes := readFrame r.file r.offset r.len

/-! ### Appending and sealing -/

def sealQueue (q : Queue) : StoreM Unit := do
  match (← getStore).writer q with
  | none => pure ()
  | some w =>
    modifyStore fun s => s.setWriter q none
    onDisk w.sealPack
    modifyStore fun s => { s with packs := s.packs.insert w.id w.len }.pushBack q w.id

def activeWriter (q : Queue) : StoreM PackWriter := do
  let s ← getStore
  match s.writer q with
  | some w => pure w
  | none =>
    modifyStore fun s => { s with nextId := s.nextId + 1 }
    let w ← onDisk (PackWriter.create s.nextId)
    modifyStore fun s => s.setWriter q (some w)
    pure w

def append (q : Queue) (hash : Hash) (frame : Bytes) (freq : ℕ) : StoreM Unit := do
  let w ← activeWriter q
  let (w', offset) ← onDisk (w.append hash frame)
  modifyStore fun s => s.pushRecord q w w' hash ⟨w'.id, offset, frame.length, freq⟩
  let s ← getStore
  if s.sealBytes ≤ w'.len then
    sealQueue q

/-! ### Eviction -/

/-- What `retire` does with one entry of the pack's index: skip it unless the map
still names this pack, drop it, or copy it forward. -/
def retireEntry (id : ℕ) (q : Queue) (promoted : Bool) (e : IndexEntry) : StoreM Bool := do
  let s ← getStore
  match s.map.lookup e.hash with
  | none => pure promoted
  | some entry =>
    if entry.pack ≠ id then
      pure promoted
    else if entry.freq = 0 ∧ s.pins.lookup e.hash = none then
      modifyStore fun s => s.dropEntry q e.hash
      pure promoted
    else
      let bytes ← frame entry.pack entry.offset entry.len
      modifyStore fun s => { s with map := s.map.erase e.hash }
      append .main e.hash bytes (match q with
        | .small => entry.freq
        | .main => entry.freq - 1)
      pure true

def removePack (id : ℕ) : StoreM Unit := do
  modifyStore fun s => { s with readers := s.readers.erase id }
  onDisk (removeFile (.pack id))
  ignore (· == .stopped) (onDisk (removeFile (.index id)))

def retire (id : ℕ) (q : Queue) : StoreM Unit := do
  let entries ← onDisk (loadIndex id)
  let promoted ← entries.foldlM (retireEntry id q) false
  let s ← getStore
  match s.packs.lookup id with
  | none => throw .panicked
  | some size =>
    modifyStore fun s => { s with packs := s.packs.erase id }.setBytes q (· - size)
    if promoted ∧ s.activeMain.isSome then
      onDisk syncData
    removePack id

/-- Retire the oldest main pack, if there is one, and count the rounds that freed
nothing. -/
def retireMain (unfreedRound : ℕ) : StoreM (Option ℕ) := do
  let s ← getStore
  match s.main with
  | [] => pure none
  | id :: rest =>
    modifyStore fun s => { s with main := rest }
    retire id .main
    let t ← getStore
    if t.bytes < s.bytes then pure (some 0)
    else if t.main.length < unfreedRound + 1 then pure none
    else pure (some (unfreedRound + 1))

/-- The part of a turn of `evict` that looks at the main queue. -/
def evictMain (unfreedRound : ℕ) : StoreM (Option ℕ) := do
  if (← getStore).main = [] then
    sealQueue .main
  retireMain unfreedRound

def retireSmall (unfreedRound : ℕ) : StoreM (Option ℕ) := do
  match (← getStore).small with
  | id :: rest =>
    modifyStore fun s => { s with small := rest }
    retire id .small
    pure (some unfreedRound)
  | [] => evictMain unfreedRound

/-- One turn of the loop of `evict`; `none` leaves the loop. -/
def evictTurn (unfreedRound : ℕ) : StoreM (Option ℕ) := do
  let s ← getStore
  if s.bytes ≤ s.budget then
    pure none
  else if s.budget / smallFraction < s.smallBytes then
    if s.small = [] then
      sealQueue .small
    retireSmall unfreedRound
  else
    evictMain unfreedRound

/-- `insert` up to its eviction loop; `false` if the hash is present. -/
def insertFrame (hash : Hash) (frame : Bytes) : StoreM Bool := do
  let s ← getStore
  if s.contains hash then
    pure false
  else
    let (hit, s) := s.ghostRemove hash
    modifyStore fun _ => s
    append (if hit then .main else .small) hash frame 0
    pure true

/-! ### Opening -/

def packIds (dir : Directory FileName) : List ℕ :=
  (dir.names.keys.filterMap fun
    | .pack id => some id
    | _ => none).insertionSort (· ≤ ·)

def addEntries (id : ℕ) (entries : List IndexEntry) (map : AList fun _ : Hash => Entry) :
    AList fun _ : Hash => Entry :=
  entries.foldl (fun map e => map.insert e.hash ⟨id, e.offset, e.len, 0⟩) map

/-- The index of a pack, recovered by scanning when there is none. -/
def indexOf (intact : Bytes → Hash → Bool) (id : ℕ) : DiskM (List IndexEntry) :=
  tryCatch (loadIndex id) fun e => if e = .io .notFound then recover intact id else throw e

def loadPack (intact : Bytes → Hash → Bool) (_ : Unit) (id : ℕ) : StoreM Unit := do
  let entries ← onDisk (indexOf intact id)
  let data ← onDisk (readFile (.pack id))
  modifyStore fun s => { s with
    map := addEntries id entries s.map
    packs := s.packs.insert id data.length
    main := s.main ++ [id]
    mainBytes := s.mainBytes + data.length
    nextId := max s.nextId (id + 1) }

def load (intact : Bytes → Hash → Bool) : StoreM Unit := do
  let w ← get
  (packIds w.disk.dir).foldlM (loadPack intact) ()

end Tribuchet.ChunkStore
