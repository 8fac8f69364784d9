import Tribuchet.Base.Filesystem
import Tribuchet.Base.Hoare

/-! Append-only pack files (`chunkstore/pack.rs`): records of length, hash and
zstd frame, with a sidecar index written at seal. Every file operation meets an
outcome chosen by the environment: it completes, it fails, or the process stops
at it. A failing write, and a stop at a write, may leave a first part of it in the
file. Fsync has no effect on what a completed operation leaves behind. -/

namespace Tribuchet.ChunkStore

open ByteStrings Filesystem Hoare

abbrev Hash := { bs : Bytes // bs.length = 32 }

/-- `copy_from_slice` into a zeroed hash. -/
def Hash.ofSlice (bs : Bytes) : Hash := ⟨(bs ++ List.replicate 32 0).take 32, by simp⟩

theorem Hash.ofSlice_val (h : Hash) : Hash.ofSlice h.1 = h :=
  Subtype.ext (List.take_left' h.2)

inductive FileName
  | pack (id : ℕ)
  | index (id : ℕ)
  | indexTmp (id : ℕ)
  deriving DecidableEq

inductive Outcome
  | ok
  | fail (written : ℕ)
  | stop (written : ℕ)
  deriving DecidableEq

inductive ErrorKind
  | notFound
  | alreadyExists
  | unexpectedEof
  | invalidInput
  | other
  deriving DecidableEq

inductive Error
  | io (kind : ErrorKind)
  | panicked
  | stopped
  deriving DecidableEq

/-- The directory of the store and the outcomes to come; past the end of the list
every operation completes. -/
structure Disk where
  dir : Directory FileName
  outcomes : List Outcome

abbrev DiskM := Act Disk Error

/-! ### File operations -/

variable {α : Type}

/-- One file operation; `torn` is what a failure or a stop leaves of it. -/
def fileOp (torn : ℕ → Directory FileName → Directory FileName)
    (op : Directory FileName → Except ErrorKind (α × Directory FileName)) : DiskM α := fun d =>
  match d.outcomes.headD .ok with
  | .ok =>
    match op d.dir with
    | .ok (a, dir) => (.ok a, ⟨dir, d.outcomes.tail⟩)
    | .error kind => (.error (.io kind), ⟨d.dir, d.outcomes.tail⟩)
  | .fail written => (.error (.io .other), ⟨torn written d.dir, d.outcomes.tail⟩)
  | .stop written => (.error .stopped, ⟨torn written d.dir, d.outcomes.tail⟩)

def createNew (n : FileName) : DiskM ℕ :=
  fileOp (fun _ d => d) fun d => (d.createNew n).elim (.error .alreadyExists) .ok

def create (n : FileName) : DiskM ℕ := fileOp (fun _ d => d) fun d => .ok (d.create n)

def openFile (n : FileName) : DiskM ℕ :=
  fileOp (fun _ d => d) fun d => (d.file n).elim (.error .notFound) fun i => .ok (i, d)

/-- `fs::read`. -/
def readFile (n : FileName) : DiskM Bytes :=
  fileOp (fun _ d => d) fun d => (d.content n).elim (.error .notFound) fun bs => .ok (bs, d)

def readAll (file : ℕ) : DiskM Bytes := fileOp (fun _ d => d) fun d => .ok (d.data file, d)

def readExactAt (file offset len : ℕ) : DiskM Bytes :=
  fileOp (fun _ d => d) fun d =>
    (readExact (d.data file) offset len).elim (.error .unexpectedEof) fun bs => .ok (bs, d)

def writeAllAt (file : ℕ) (bs : Bytes) (offset : ℕ) : DiskM Unit :=
  fileOp (fun written d => d.write file offset (bs.take written)) fun d =>
    .ok ((), d.write file offset bs)

def setFileLen (file len : ℕ) : DiskM Unit :=
  fileOp (fun _ d => d) fun d => .ok ((), d.truncate file len)

def syncData : DiskM Unit := fileOp (fun _ d => d) fun d => .ok ((), d)

def rename (m n : FileName) : DiskM Unit :=
  fileOp (fun _ d => d) fun d => (d.rename m n).elim (.error .notFound) fun d' => .ok ((), d')

def removeFile (n : FileName) : DiskM Unit :=
  fileOp (fun _ d => d) fun d =>
    (d.file n).elim (.error .notFound) fun _ => .ok ((), d.unlink n)

/-! ### Records and the index -/

def headerLen : ℕ := 4 + 32

def record (hash : Hash) (frame : Bytes) : Bytes := toLe 4 frame.length ++ hash.1 ++ frame

structure IndexEntry where
  hash : Hash
  offset : ℕ
  len : ℕ
  deriving DecidableEq

def IndexEntry.encode (e : IndexEntry) : Bytes := e.hash.1 ++ toLe 8 e.offset ++ toLe 4 e.len

def IndexEntry.decode (bs : Bytes) : IndexEntry where
  hash := Hash.ofSlice (bs.take 32)
  offset := fromLe (slice bs 32 8)
  len := fromLe (slice bs 40 4)

def encodeIndex (entries : List IndexEntry) : Bytes := (entries.map IndexEntry.encode).flatten

def decodeIndex (data : Bytes) : List IndexEntry := (chunksExact 44 data).map IndexEntry.decode

def writeIndex (id : ℕ) (entries : List IndexEntry) : DiskM Unit := do
  let f ← create (.indexTmp id)
  writeAllAt f (encodeIndex entries) 0
  syncData
  rename (.indexTmp id) (.index id)

def loadIndex (id : ℕ) : DiskM (List IndexEntry) := do
  let data ← readFile (.index id)
  pure (decodeIndex data)

structure PackWriter where
  file : ℕ
  id : ℕ
  len : ℕ
  entries : List IndexEntry

namespace PackWriter

def create (id : ℕ) : DiskM PackWriter := do
  let file ← createNew (.pack id)
  pure { file := file, id := id, len := 0, entries := [] }

def push (w : PackWriter) (hash : Hash) (frame : Bytes) : PackWriter := { w with
  len := w.len + headerLen + frame.length
  entries := w.entries ++ [⟨hash, w.len + headerLen, frame.length⟩] }

/-- Append one record at the tracked end. Returns the payload offset too. -/
def append (w : PackWriter) (hash : Hash) (frame : Bytes) : DiskM (PackWriter × ℕ) := do
  if 2 ^ 32 ≤ frame.length then
    throw (.io .invalidInput)
  writeAllAt w.file (record hash frame) w.len
  pure (w.push hash frame, w.len + headerLen)

def sealPack (w : PackWriter) : DiskM Unit := do
  setFileLen w.file w.len
  syncData
  writeIndex w.id w.entries

end PackWriter

/-- The records at the start of `rest`, which begins at `pos`, and where they end.
Decompression and hashing are not part of this repository: `intact` says whether a
frame decompresses to data with the hash. -/
def scan (intact : Bytes → Hash → Bool) : ℕ → ℕ → Bytes → List IndexEntry × ℕ
  | 0, pos, _ => ([], pos)
  | fuel + 1, pos, rest =>
    if rest.length < headerLen then ([], pos)
    else
      let len := fromLe (rest.take 4)
      if rest.length < headerLen + len then ([], pos)
      else
        let hash := Hash.ofSlice (slice rest 4 32)
        let frame := slice rest headerLen len
        if intact frame hash then
          let (entries, stop) := scan intact fuel (pos + headerLen + len) (rest.drop (headerLen + len))
          (⟨hash, pos + headerLen, len⟩ :: entries, stop)
        else ([], pos)

/-- Scan an unsealed pack up to the last intact record, truncate the rest and seal
it. A turn of the scan consumes bytes, so their number is fuel enough. -/
def recover (intact : Bytes → Hash → Bool) (id : ℕ) : DiskM (List IndexEntry) := do
  let file ← openFile (.pack id)
  let data ← readAll file
  let (entries, pos) := scan intact data.length 0 data
  setFileLen file pos
  syncData
  writeIndex id entries
  pure entries

def openPack (id : ℕ) : DiskM ℕ := openFile (.pack id)

def readFrame (file offset len : ℕ) : DiskM Bytes := readExactAt file offset len

end Tribuchet.ChunkStore
