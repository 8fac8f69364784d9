import Tribuchet.ChunkStore.Books

/-! Stops of a process and what they leave of its files. Bytes that were fsynced
survive and others may be lost. A pack is fsynced before its index is written and an
index before it gets its name, so the files of a sealed pack survive as they are. Of a
pack without an index, the part survives that `retire` fsynced before it unlinked the
source of its copies. -/

namespace Tribuchet.ChunkStore.Crash

open ByteStrings Filesystem Hoare Runs

/-! ### The fsync of a turn -/

/-- `retire` from where it takes the pack off the books to where it has fsynced the copies;
returns the pack it fsynced. -/
def syncCopies (id : ℕ) (q : Queue) (promoted : Bool) : StoreM (Option PackWriter) := do
  let s ← getStore
  match s.packs.lookup id with
  | none => throw .panicked
  | some size =>
    modifyStore fun s => { s with packs := s.packs.erase id }.setBytes q (· - size)
    if promoted ∧ s.activeMain.isSome then
      onDisk syncData
      pure s.activeMain
    else
      pure none

theorem dropPack_eq (id : ℕ) (q : Queue) (promoted : Bool) :
    dropPack id q promoted = (do let _ ← syncCopies id q promoted; removePack id) := by
  funext w
  change exec (dropPack id q promoted) w = exec (do let _ ← syncCopies id q promoted; removePack id) w
  unfold dropPack syncCopies
  rw [bind_assoc, exec_getStore, exec_getStore]
  cases w.store.packs.lookup id with
  | none => rfl
  | some size =>
    dsimp only
    split_ifs
    · simp only [bind_assoc, pure_bind]
    · simp only [bind_assoc, pure_bind]

/-- The pack that a turn of `evict` retires, the bytes counted before, and the pack whose
copies it fsynced. -/
structure Copied where
  id : ℕ
  queue : Queue
  before : ℕ
  pack : Option PackWriter

/-- A turn of `evict` up to the unlink. -/
def syncTurn : StoreM (Option Copied) := do
  match ← victim with
  | none => pure none
  | some (id, q) =>
    let s ← getStore
    let promoted ← copyForward id q
    let pack ← syncCopies id q promoted
    pure (some ⟨id, q, s.bytes, pack⟩)

/-- What is left of a turn of `evict`. -/
def unlinkTurn (unfreedRound : ℕ) : Option Copied → StoreM (Option ℕ)
  | none => pure none
  | some c => do
    removePack c.id
    match c.queue with
    | .small => pure (some unfreedRound)
    | .main =>
      let t ← getStore
      if t.bytes < c.before then pure (some 0)
      else if t.main.length < unfreedRound + 1 then pure none
      else pure (some (unfreedRound + 1))

theorem evictTurn_eq_sync (n : ℕ) : evictTurn n = syncTurn >>= unlinkTurn n := by
  rw [evictTurn_eq, syncTurn, bind_assoc]
  congr 1
  funext v
  match v with
  | none => rfl
  | some (id, .small) =>
    simp only [retireVictim, retire_eq, dropPack_eq, bind_assoc, pure_bind, unlinkTurn]
    rfl
  | some (id, .main) =>
    simp only [retireVictim, retire_eq, dropPack_eq, bind_assoc, pure_bind, unlinkTurn]

/-! ### The machine -/

structure Machine where
  state : State
  /-- how many bytes at the start of an inode `retire` has fsynced -/
  synced : ℕ → ℕ
  /-- not of the source: the chunks that the next open has to find -/
  owed : List Hash

inductive Event
  | op (a : Action)
  | lose (i : ℕ) (data : Bytes)

/-- The store in memory when an operation ends or the process stops in it. -/
def memory (t : State) : Action → Option Store
  | .insert hash frame outcomes => t.idle.map fun store =>
      (exec (insertFrame hash frame) (t.world store outcomes)).2.store
  | .evict outcomes =>
    match t.process with
    | some ⟨store, some n⟩ => some (exec (evictTurn n) (t.world store outcomes)).2.store
    | _ => none
  | .locate hash outcomes => t.idle.map fun store => (exec (locate hash) (t.world store outcomes)).2.store
  | .peek hash outcomes => t.idle.map fun store => (exec (peek hash) (t.world store outcomes)).2.store
  | .quit => t.process.map Process.store
  | _ => none

def syncedBy (t : State) (a : Action) (synced : ℕ → ℕ) : ℕ → ℕ :=
  match a, t.process with
  | .evict outcomes, some ⟨store, some _⟩ =>
    match (exec syncTurn (t.world store outcomes)).1 with
    | .ok (some ⟨_, _, _, some w⟩) => Function.update synced w.file w.len
    | _ => synced
  | _, _ => synced

/-- The record was made durable: its pack was sealed or its bytes were fsynced. -/
def durable (dir : Directory FileName) (synced : ℕ → ℕ) (e : Entry) : Bool :=
  (dir.file (.index e.pack)).isSome || (dir.file (.pack e.pack)).any fun i => e.offset + e.len ≤ synced i

def frameIntact (intact : Bytes → Hash → Bool) (dir : Directory FileName) (hash : Hash) (e : Entry) : Bool :=
  (dir.content (.pack e.pack)).any fun data => (readExact data e.offset e.len).any (intact · hash)

def owing (intact : Bytes → Hash → Bool) (store : Store) (dir : Directory FileName) (synced : ℕ → ℕ) : List Hash :=
  store.map.keys.filter fun hash =>
    (store.map.lookup hash).any fun e => durable dir synced e && frameIntact intact dir hash e

def volatile (dir : Directory FileName) (i : ℕ) : Bool :=
  dir.names.keys.all fun
    | .pack id => dir.file (.pack id) != some i || (dir.file (.index id)).isNone
    | .index id => dir.file (.index id) != some i
    | .indexTmp _ => true

def step (intact : Bytes → Hash → Bool) (m : Machine) : Event → Option Machine
  | .op a => (ChunkStore.step intact m.state a).map fun t =>
      let synced := syncedBy m.state a m.synced
      ⟨t, synced,
        match t.process, memory m.state a with
        | some _, _ => []
        | none, some store => owing intact store t.dir synced
        | none, none => m.owed⟩
  | .lose i data =>
    if m.state.process.isNone && volatile m.state.dir i &&
        ((m.state.dir.data i).take (m.synced i)).isPrefixOf data && data.length ≤ (m.state.dir.data i).length then
      some { m with state := { m.state with dir := m.state.dir.setData i data } }
    else none

def Machine.empty : Machine := ⟨State.empty, fun _ => 0, []⟩

def system (intact : Bytes → Hash → Bool) : System Machine Event where
  init m := m = .empty
  step := step intact

def Readable (intact : Bytes → Hash → Bool) (store : Store) (dir : Directory FileName) (hash : Hash) : Prop :=
  ∃ e data frame, store.map.lookup hash = some e ∧ dir.content (.pack e.pack) = some data ∧
    readExact data e.offset e.len = some frame ∧ intact frame hash = true

/-- Frames are verified before they are admitted, and the store is opened only on directories
without a stale index. -/
def Verified (intact : Bytes → Hash → Bool) (m : Machine) : Event → Prop
  | .op (.insert hash frame _) => intact frame hash = true
  | .op (.start _ _) => Unstale m.state.dir
  | _ => True

end Tribuchet.ChunkStore.Crash
