import Mathlib.Data.Finset.Insert
import Tribuchet.Base.Bytes
import Tribuchet.Base.Table
import Tribuchet.Outputs.Replay

/-! The attach client (`attempt_build` and `handle_output_chunk` in `attach.rs`). Output
events of a path are unpacked as they come; a restart drops the unpacker, and the next
event of the path starts over. An event is handled together with whether the local input
and output it leads to fails: an unpacker that stopped, a disk that is full, a closed
standard error. -/

namespace Tribuchet.Outputs

open ByteStrings Function AList

/-- A piece of a compressed output NAR, with the dispatch attempt that published it, which
is not of the source and which no function reads. -/
structure Chunk where
  zstd : Bytes
  attempt : ℕ
  deriving DecidableEq

/-- `AttachEvent`. -/
inductive Event
  | log (data : Bytes)
  | output (storePath : String) (chunk : Chunk) (eof : Bool)
  | exitCode (code : ℤ)
  | error (text : String)
  | outputRestart (path : String)
  | addedPath (path : String)
  | dispatched (worker : String)
  deriving DecidableEq

/-- `event_size`. -/
def Event.size : Event → ℕ
  | .log data => data.length + 64
  | .output _ chunk _ => chunk.zstd.length + 64
  | .outputRestart p | .addedPath p | .dispatched p => p.utf8ByteSize + 64
  | .error e => e.utf8ByteSize + 64
  | .exitCode _ => 64

def Event.verdict : Event → Bool
  | .exitCode _ | .error _ => true
  | _ => false

/-- The hash of a chunk, decompression of any number of zstd frames, and the NAR encoding
of a tree with the unpacker that inverts it. -/
structure Codec (H T : Type) where
  blake3 : Bytes → H
  decompress : Bytes → Option Bytes
  nar : T → Bytes
  restore : Bytes → Option T
  decompress_nil : decompress [] = some []
  decompress_append : ∀ {a b x y}, decompress a = some x → decompress b = some y →
    decompress (a ++ b) = some (x ++ y)
  restore_iff : ∀ {b t}, restore b = some t ↔ nar t = b

/-- Frames that are their own plaintext, hashed by their length, and a NAR with one byte of
framing. -/
def plainCodec : Codec ℕ (List UInt8) where
  blake3 := List.length
  decompress := some
  nar t := 13 :: t
  restore
    | 13 :: t => some t
    | _ => none
  decompress_nil := rfl
  decompress_append ha hb := by
    cases ha
    cases hb
    rfl
  restore_iff := by
    intro b t
    constructor
    · intro h
      split at h
      · cases h
        rfl
      · cases h
    · rintro rfl
      rfl

variable {H T : Type}

def sendOn (sent : List Chunk) (chunk : Chunk) : List Chunk :=
  if chunk.zstd = [] then sent else sent ++ [chunk]

/-- `unpack_zstd_chunks`, on all chunks it is sent. -/
def Codec.unpack (codec : Codec H T) (chunks : List Chunk) : Option T :=
  (codec.decompress (chunks.map Chunk.zstd).flatten).bind codec.restore

inductive Content (T : Type)
  | absent
  | torn
  | tree (chunks : List Chunk) (t : T)
  | foreign

inductive AttachError
  | unexpectedOutput (path : String)
  | unpacking (path : String)
  | unfinishedTransfers
  | remote (text : String)
  | stream (code : Code)
  | closed
  | io
  deriving DecidableEq

inductive Outcome
  | done (code : ℤ)
  | retry (e : AttachError)
  /-- `attempt_build` returns an error -/
  | failed (e : AttachError)
  deriving DecidableEq

/-- A call of `attempt_build` that has subscribed. -/
structure Attempt (T : Type) where
  unpackers : AList fun _ : String => List Chunk
  addedPaths : Finset String
  disk : String → Content T
  resultJson : Option (Finset String)
  outcome : Option Outcome

namespace Attempt

def start (disk : String → Content T) : Attempt T := ⟨∅, ∅, disk, none, none⟩

def fail (a : Attempt T) (e : AttachError) : Attempt T := { a with outcome := some (.failed e) }

/-- What the unpacker of a path was sent; a path without one gets one. -/
def sent (a : Attempt T) (path : String) : List Chunk := (a.unpackers.lookup path).getD []

/-- `remove_tree`, for a path that gets an unpacker. -/
def opened (a : Attempt T) (path : String) : Attempt T :=
  if (a.unpackers.lookup path).isSome then a
  else { a with disk := update a.disk path .torn }

def setUnpacker (a : Attempt T) (path : String) (sent : List Chunk) : Attempt T :=
  { a with unpackers := a.unpackers.insert path sent }

def dropUnpacker (a : Attempt T) (path : String) : Attempt T :=
  { a with unpackers := a.unpackers.erase path }

def closeUnpacker (codec : Codec H T) (a : Attempt T) (path : String) (sent : List Chunk)
    (broken : Bool) : Attempt T :=
  match codec.unpack sent with
  | some t =>
    if broken then (a.dropUnpacker path).fail .io
    else { a.dropUnpacker path with disk := update a.disk path (.tree sent t) }
  | none => (a.dropUnpacker path).fail .io

def handleOutputChunk (codec : Codec H T) (expected : List String) (a : Attempt T) (path : String)
    (chunk : Chunk) (eof broken : Bool) : Attempt T :=
  if path ∉ expected then a.fail (.unexpectedOutput path)
  else if chunk.zstd ≠ [] ∧ broken then ((a.opened path).dropUnpacker path).fail (.unpacking path)
  else if eof then (a.opened path).closeUnpacker codec path (sendOn (a.sent path) chunk) broken
  else (a.opened path).setUnpacker path (sendOn (a.sent path) chunk)

/-- `cleanup_unpackers`. -/
def cleanup (a : Attempt T) : Attempt T := { a with unpackers := ∅ }

/-- The loop of `attempt_build` on one event. -/
def handleEvent (codec : Codec H T) (expected : List String) (a : Attempt T) (e : Event)
    (broken : Bool) : Attempt T :=
  match e with
  | .log _ | .dispatched _ => if broken then a.fail .io else a
  | .output path chunk eof => a.handleOutputChunk codec expected path chunk eof broken
  | .addedPath path => { a with addedPaths := insert path a.addedPaths }
  | .outputRestart path => a.dropUnpacker path
  | .exitCode code =>
    if !a.unpackers.entries.isEmpty then a.fail .unfinishedTransfers
    else if code = 0 ∧ a.addedPaths ≠ ∅ then
      if broken then a.fail .io
      else { a with resultJson := some a.addedPaths, outcome := some (.done code) }
    else { a with outcome := some (.done code) }
  | .error text => a.cleanup.fail (.remote text)

end Attempt

def retryable : Code → Bool
  | .failedPrecondition | .invalidArgument | .permissionDenied | .notFound | .alreadyExists
  | .resourceExhausted | .unimplemented => false
  | .unavailable | .other => true

namespace Attempt

def handleStatus (a : Attempt T) (code : Code) : Attempt T :=
  { a.cleanup with
    outcome := some (if retryable code then .retry (.stream code) else .failed (.stream code)) }

def handleEnd (a : Attempt T) : Attempt T := { a.cleanup with outcome := some (.retry .closed) }

end Attempt

/-! ### The transfer of one output -/

/-- How far the transfer of one path is, going by its events alone. -/
inductive Transfer
  | idle
  | receiving (chunks : List Chunk)
  | complete (chunks : List Chunk)

namespace Transfer

def chunks : Transfer → List Chunk
  | .receiving chunks => chunks
  | _ => []

def restart : Transfer → Transfer
  | .receiving _ => .idle
  | t => t

def feed (path : String) (t : Transfer) : Event → Transfer
  | .output p chunk eof =>
    if p = path then
      if eof then .complete (sendOn t.chunks chunk) else .receiving (sendOn t.chunks chunk)
    else t
  | .outputRestart p => if p = path then t.restart else t
  | _ => t

end Transfer

def transfer (path : String) (es : List Event) : Transfer := es.foldl (Transfer.feed path) .idle

theorem transfer_append (path : String) (es : List Event) (e : Event) :
    transfer path (es ++ [e]) = (transfer path es).feed path e := by
  unfold transfer
  rw [List.foldl_append]
  rfl

/-- The client has what the transfer says; a complete one is on the disk. -/
def Attempt.Shows (codec : Codec H T) (a : Attempt T) (path : String) : Transfer → Prop
  | .idle => a.unpackers.lookup path = none
  | .receiving chunks => a.unpackers.lookup path = some chunks
  | .complete chunks => a.unpackers.lookup path = none ∧
      ∃ t, codec.unpack chunks = some t ∧ a.disk path = .tree chunks t

namespace Attempt

variable {codec : Codec H T} {expected : List String} {a a' : Attempt T} {path p : String}
variable {t : Transfer} {e : Event} {chunk : Chunk} {eof broken : Bool}

variable (h : a.Shows codec path t)

include h

theorem Shows.congr (hl : a'.unpackers.lookup path = a.unpackers.lookup path)
    (hd : a'.disk path = a.disk path) : a'.Shows codec path t := by
  cases t with
  | idle => exact hl.trans h
  | receiving chunks => exact hl.trans h
  | complete chunks =>
    obtain ⟨hn, tree, hu, ht⟩ := h
    exact ⟨hl.trans hn, tree, hu, hd.trans ht⟩

theorem Shows.sent : a.sent path = t.chunks := by
  unfold Attempt.sent
  cases t with
  | idle | receiving chunks => exact congrArg (·.getD []) h
  | complete chunks => exact congrArg (·.getD []) h.1

omit h in
theorem opened_unpackers : (a.opened p).unpackers = a.unpackers := by
  unfold opened
  split_ifs <;> rfl

omit h in
theorem opened_disk_of_ne (h : path ≠ p) : (a.opened p).disk path = a.disk path := by
  unfold opened
  split_ifs
  · rfl
  · exact update_of_ne h _ _

omit h in
theorem closeUnpacker_of_running {sent : List Chunk} (h : (a.closeUnpacker codec p sent broken).outcome = none) :
    ∃ tree, codec.unpack sent = some tree ∧ a.closeUnpacker codec p sent broken =
      { a.dropUnpacker p with disk := update a.disk p (.tree sent tree) } := by
  unfold closeUnpacker at h ⊢
  split at h
  · rename_i tree hu
    refine ⟨tree, hu, ?_⟩
    simp only
    split_ifs at h with hb
    · cases h
    · exact if_neg hb
  · cases h

omit h in
theorem handleOutputChunk_of_running (h : (a.handleOutputChunk codec expected p chunk eof broken).outcome = none) :
    let sent := sendOn (a.sent p) chunk
    (eof = false ∧ a.handleOutputChunk codec expected p chunk eof broken = (a.opened p).setUnpacker p sent) ∨
      eof = true ∧ ∃ tree, codec.unpack sent = some tree ∧
        a.handleOutputChunk codec expected p chunk eof broken =
          { (a.opened p).dropUnpacker p with
            disk := update (a.opened p).disk p (.tree sent tree) } := by
  unfold handleOutputChunk at h ⊢
  split_ifs at h ⊢ with hexp hb heof
  · cases h
  · exact .inr ⟨heof, closeUnpacker_of_running h⟩
  · exact .inl ⟨Bool.eq_false_iff.mpr heof, rfl⟩
  · cases h

theorem Shows.handleOutputChunk_self
    (hrun : (a.handleOutputChunk codec expected path chunk eof broken).outcome = none) :
    (a.handleOutputChunk codec expected path chunk eof broken).Shows codec path
      (t.feed path (.output path chunk eof)) := by
  simp only [Transfer.feed, if_true, ← h.sent]
  rcases handleOutputChunk_of_running hrun with ⟨rfl, he⟩ | ⟨rfl, tree, hu, he⟩
  · rw [he]
    exact lookup_insert _
  · rw [he]
    exact ⟨lookup_erase _ _, tree, hu, update_self _ _ _⟩

theorem Shows.handleOutputChunk_of_ne (hne : path ≠ p)
    (hrun : (a.handleOutputChunk codec expected p chunk eof broken).outcome = none) :
    (a.handleOutputChunk codec expected p chunk eof broken).Shows codec path t := by
  rcases handleOutputChunk_of_running hrun with ⟨-, he⟩ | ⟨-, tree, -, he⟩
  · rw [he]
    apply h.congr
    · show ((a.opened p).unpackers.insert p _).lookup path = _
      rw [lookup_insert_ne hne, opened_unpackers]
    · exact opened_disk_of_ne hne
  · rw [he]
    apply h.congr
    · show ((a.opened p).unpackers.erase p).lookup path = _
      rw [lookup_erase_ne hne, opened_unpackers]
    · exact (update_of_ne hne _ _).trans (opened_disk_of_ne hne)

theorem Shows.dropUnpacker : (a.dropUnpacker p).Shows codec path (t.feed path (.outputRestart p)) := by
  by_cases hp : p = path
  · subst hp
    have hl : (a.dropUnpacker p).unpackers.lookup p = none := lookup_erase _ _
    simp only [Transfer.feed, if_true]
    cases t with
    | idle => exact hl
    | receiving chunks => exact hl
    | complete chunks => exact ⟨hl, h.2⟩
  · simp only [Transfer.feed, if_neg hp]
    exact h.congr (lookup_erase_ne (Ne.symm hp)) rfl

theorem Shows.handleEvent (hrun : (a.handleEvent codec expected e broken).outcome = none) :
    (a.handleEvent codec expected e broken).Shows codec path (t.feed path e) := by
  cases e with
  | output p chunk eof =>
    by_cases hp : p = path
    · subst hp
      exact h.handleOutputChunk_self hrun
    · simp only [Transfer.feed, if_neg hp]
      exact h.handleOutputChunk_of_ne (Ne.symm hp) hrun
  | outputRestart p => exact h.dropUnpacker
  | addedPath p => exact h.congr rfl rfl
  | log data | dispatched worker =>
    simp only [Attempt.handleEvent] at hrun ⊢
    split_ifs at hrun ⊢
    · cases hrun
    · exact h
  | exitCode code =>
    simp only [Attempt.handleEvent] at hrun
    split_ifs at hrun <;> cases hrun
  | error text => cases hrun

omit h

theorem closeUnpacker_not_done {sent : List Chunk} (ha : a.outcome = none) (code : ℤ) :
    (a.closeUnpacker codec p sent broken).outcome ≠ some (.done code) := by
  intro h
  unfold closeUnpacker at h
  split at h
  · split_ifs at h
    · cases h
    · cases ha.symm.trans h
  · cases h

theorem handleOutputChunk_not_done (ha : a.outcome = none) (code : ℤ) :
    (a.handleOutputChunk codec expected p chunk eof broken).outcome ≠ some (.done code) := by
  have hopen : (a.opened p).outcome = none := by
    unfold opened
    split_ifs <;> exact ha
  intro h
  unfold handleOutputChunk at h
  split_ifs at h
  · cases h
  · exact closeUnpacker_not_done hopen code h
  · cases hopen.symm.trans h
  · cases h

theorem handleEvent_success (ha : a.outcome = none)
    (h : (a.handleEvent codec expected e broken).outcome = some (.done 0)) :
    e = .exitCode 0 ∧ (a.handleEvent codec expected e broken).disk = a.disk := by
  cases e with
  | exitCode code =>
    simp only [Attempt.handleEvent] at h ⊢
    split_ifs at h ⊢ with hu hadded hb
    · cases h
    · cases h
    · cases h
      exact ⟨rfl, rfl⟩
    · cases h
      exact ⟨rfl, rfl⟩
  | output p chunk eof => exact absurd h (handleOutputChunk_not_done ha 0)
  | log data | dispatched worker =>
    simp only [Attempt.handleEvent] at h
    split_ifs at h
    · cases h
    · cases ha.symm.trans h
  | outputRestart p | addedPath p => cases ha.symm.trans h
  | error text => cases h

end Attempt

end Tribuchet.Outputs
