import Mathlib.Algebra.BigOperators.Group.List.Basic
import Mathlib.Algebra.GroupWithZero.Nat
import Tribuchet.ChunkStore.Frames
import Tribuchet.ChunkStore.Reopen

/-! The four books of a running store: the byte counts, the queues, the sealed packs
with their sizes, and the map. They agree as long as no I/O error comes out of sealing
a pack or out of copying a retired pack's frames forward. A pack is taken out of its
writer before it is sealed and off its queue before it is retired, so an error there
leaves bytes that are counted, and entries that are in the map, for a pack that no
queue has. Any other file operation may fail. -/

namespace Tribuchet.ChunkStore

open ByteStrings Filesystem Hoare Runs List Table Directory
open PackWriter hiding id
open Option hiding bind_assoc map_map

variable {α : Type} {allowed : Outcome → Prop} {d d' : Directory FileName} {s s' : Store}

def Store.queue (s : Store) : Queue → List ℕ
  | .small => s.small
  | .main => s.main

def Store.queueBytes (s : Store) : Queue → ℕ
  | .small => s.smallBytes
  | .main => s.mainBytes

def Store.activeLen (s : Store) (q : Queue) : ℕ := (s.writer q).elim 0 len

/-- The books agree. The keys of a table are distinct, so a pack is in exactly one queue,
once. -/
structure Balanced (s : Store) : Prop where
  bytes : s.smallBytes + s.mainBytes =
    (s.packs.entries.map Sigma.snd).sum + (s.activeLen .small + s.activeLen .main)
  queues : (s.small ++ s.main).Perm s.packs.keys
  map : ∀ hash e, s.map.lookup hash = some e →
    e.pack ∈ s.packs.keys ∨ ∃ q w, s.writer q = some w ∧ w.id = e.pack

/-! ### Where an error does harm -/

/-- `append` before it seals: whether the pack is full. -/
def appendRecord (q : Queue) (hash : Hash) (frame : Bytes) (freq : ℕ) : StoreM Bool := do
  let w ← activeWriter q
  let (w', offset) ← onDisk (w.append hash frame)
  modifyStore fun s => s.pushRecord q w w' hash ⟨w'.id, offset, frame.length, freq⟩
  let s ← getStore
  pure (s.sealBytes ≤ w'.len)

theorem append_eq (q : Queue) (hash : Hash) (frame : Bytes) (freq : ℕ) :
    append q hash frame freq = (do if ← appendRecord q hash frame freq then sealQueue q) := by
  simp [append, appendRecord]

/-- `retire` before it takes the pack off the books. -/
def copyForward (id : ℕ) (q : Queue) : StoreM Bool := do
  let entries ← onDisk (loadIndex id)
  entries.foldlM (retireEntry id q) false

/-- What is left of `retire`. -/
def dropPack (id : ℕ) (q : Queue) (promoted : Bool) : StoreM Unit := do
  let s ← getStore
  match s.packs.lookup id with
  | none => throw .panicked
  | some size =>
    modifyStore fun s => { s with packs := s.packs.erase id }.setBytes q (· - size)
    if promoted ∧ s.activeMain.isSome then
      onDisk syncData
    removePack id

theorem retire_eq (id : ℕ) (q : Queue) : retire id q = copyForward id q >>= dropPack id q := by
  simp only [retire, copyForward, bind_assoc]
  rfl

def popMain : StoreM (Option (ℕ × Queue)) := do
  match (← getStore).main with
  | [] => pure none
  | id :: rest =>
    modifyStore fun s => { s with main := rest }
    pure (some (id, .main))

/-- The main pack that a turn of `evict` is to retire, off its queue. -/
def mainVictim : StoreM (Option (ℕ × Queue)) := do
  if (← getStore).main = [] then
    sealQueue .main
  popMain

def smallVictim : StoreM (Option (ℕ × Queue)) := do
  match (← getStore).small with
  | id :: rest =>
    modifyStore fun s => { s with small := rest }
    pure (some (id, .small))
  | [] => mainVictim

/-- The pack that a turn of `evict` is to retire, off its queue. -/
def victim : StoreM (Option (ℕ × Queue)) := do
  let s ← getStore
  if s.bytes ≤ s.budget then
    pure none
  else if s.budget / smallFraction < s.smallBytes then
    if s.small = [] then
      sealQueue .small
    smallVictim
  else
    mainVictim

/-- What a turn of `evict` does with its pack. -/
def retireVictim (unfreedRound : ℕ) : Option (ℕ × Queue) → StoreM (Option ℕ)
  | none => pure none
  | some (id, .small) => do
    retire id .small
    pure (some unfreedRound)
  | some (id, .main) => do
    let s ← getStore
    retire id .main
    let t ← getStore
    if t.bytes < s.bytes then pure (some 0)
    else if t.main.length < unfreedRound + 1 then pure none
    else pure (some (unfreedRound + 1))

theorem exec_getStore (f : Store → StoreM α) (w : World) : exec (getStore >>= f) w = exec (f w.store) w := rfl

theorem evictMain_eq (n : ℕ) : evictMain n = mainVictim >>= retireVictim n := by
  have hretire : ∀ w, exec (retireMain n) w = exec (popMain >>= retireVictim n) w := by
    intro w
    unfold retireMain popMain
    rw [bind_assoc, exec_getStore, exec_getStore]
    cases w.store.main with
    | nil => rfl
    | cons id rest => rfl
  funext w
  change exec (evictMain n) w = exec (mainVictim >>= retireVictim n) w
  unfold evictMain mainVictim
  rw [bind_assoc, exec_getStore, exec_getStore]
  split_ifs
  · rw [bind_assoc, exec_bind, exec_bind]
    cases exec (sealQueue .main) w with
    | mk r w' =>
      cases r with
      | ok => exact hretire w'
      | error => rfl
  · exact hretire w

theorem evictTurn_eq (n : ℕ) : evictTurn n = victim >>= retireVictim n := by
  have hretire : ∀ w, exec (retireSmall n) w = exec (smallVictim >>= retireVictim n) w := by
    intro w
    unfold retireSmall smallVictim
    rw [bind_assoc, exec_getStore, exec_getStore]
    cases w.store.small with
    | nil => exact congrFun (evictMain_eq n) w
    | cons id rest => rfl
  funext w
  change exec (evictTurn n) w = exec (victim >>= retireVictim n) w
  unfold evictTurn victim
  rw [bind_assoc, exec_getStore, exec_getStore]
  split_ifs
  · rfl
  · rw [bind_assoc, exec_bind, exec_bind]
    cases exec (sealQueue .small) w with
    | mk r w' =>
      cases r with
      | ok => exact hretire w'
      | error => rfl
  · exact hretire w
  · exact congrFun (evictMain_eq n) w

/-- A turn of `evict` before it takes its pack off the books. -/
def copyVictim : StoreM Unit := do
  match ← victim with
  | none => pure ()
  | some (id, q) => discard (copyForward id q)

def Completes (x : StoreM α) (w : World) : Prop := ∀ kind, (exec x w).1 ≠ .error (.io kind)

/-- The queue that `insert` appends to. -/
def Store.insertQueue (s : Store) (hash : Hash) : Queue := if (s.ghostRemove hash).1 then .main else .small

/-- The pack that an `insert` fills is sealed without an I/O error, and so are the packs
that a turn of `evict` seals and copies. -/
def Unbroken (t : State) : Action → Prop
  | .insert hash frame outcomes => ∀ store w, t.idle = some store → store.contains hash = false →
      exec (appendRecord (store.insertQueue hash) hash frame 0)
        (t.world (store.ghostRemove hash).2 outcomes) = (.ok true, w) →
      Completes (sealQueue (store.insertQueue hash)) w
  | .evict outcomes => ∀ store n, t.process = some ⟨store, some n⟩ →
      Completes copyVictim (t.world store outcomes)
  | _ => True

/-! ### The invariant -/

def Listed (d : Directory FileName) (id : ℕ) (hash : Hash) : Prop :=
  ∃ idx, d.content (.index id) = some idx ∧ hash ∈ (decodeIndex idx).map IndexEntry.hash

def Store.sizeOf (s : Store) (id : ℕ) : ℕ := (s.packs.lookup id).getD 0

/-- The books agree with each other and with the indexes on disk. `front` are packs that
have just been taken off their queue. -/
structure Books (front : Queue → List ℕ) (s : Store) (d : Directory FileName) : Prop where
  bytes : ∀ q, s.queueBytes q = ((front q ++ s.queue q).map s.sizeOf).sum + s.activeLen q
  queues : ((front .small ++ s.small) ++ (front .main ++ s.main)).Perm s.packs.keys
  below : ∀ id ∈ s.packs.keys, id < s.nextId
  active : ∀ q w, s.writer q = some w → w.id < s.nextId ∧ w.id ∉ s.packs.keys ∧ PackFile d w.file
  distinct : ∀ q q' w w', s.writer q = some w → s.writer q' = some w' → q ≠ q' → w.id ≠ w'.id
  map : ∀ hash e, s.map.lookup hash = some e → (e.pack ∈ s.packs.keys ∧ Listed d e.pack hash) ∨
    ∃ q w, s.writer q = some w ∧ w.id = e.pack ∧ hash ∈ w.entries.map IndexEntry.hash

def noPack : Queue → List ℕ := fun _ => []

def onePack (id : ℕ) (q : Queue) : Queue → List ℕ := fun q' => if q' = q then [id] else []

variable {front : Queue → List ℕ}

theorem Books.balanced (h : Books noPack s d) : Balanced s where
  bytes := by
    have hsmall : s.smallBytes = (s.small.map s.sizeOf).sum + s.activeLen .small := h.bytes .small
    have hmain : s.mainBytes = (s.main.map s.sizeOf).sum + s.activeLen .main := h.bytes .main
    have hsizes : (s.packs.entries.map Sigma.snd).sum = ((s.small ++ s.main).map s.sizeOf).sum := by
      have hperm : (s.small ++ s.main).Perm s.packs.keys := h.queues
      rw [(hperm.map s.sizeOf).sum_eq, AList.keys, keys, map_map]
      refine congrArg sum (map_congr_left fun e he => ?_)
      have hl : s.packs.lookup e.1 = some e.2 := AList.mem_lookup_iff.mpr he
      simp [Store.sizeOf, hl]
    rw [hsmall, hmain, hsizes, map_append, sum_append]
    omega
  queues := h.queues
  map hash e he := by
    rcases h.map hash e he with ⟨hp, -⟩ | ⟨q, w, hq, hid, -⟩
    · exact .inl hp
    · exact .inr ⟨q, w, hq, hid⟩

def Store.ledger (s : Store) : Option PackWriter × Option PackWriter × List ℕ × List ℕ × ℕ × ℕ ×
    (AList fun _ : ℕ => ℕ) × ℕ :=
  (s.activeSmall, s.activeMain, s.small, s.main, s.smallBytes, s.mainBytes, s.packs, s.nextId)

variable (h : Books front s d)

include h

theorem Books.congr (hl : s'.ledger = s.ledger)
    (hm : ∀ hash e, s'.map.lookup hash = some e → ∃ e', s.map.lookup hash = some e' ∧ e'.pack = e.pack) :
    Books front s' d := by
  simp only [Store.ledger, Prod.mk.injEq] at hl
  obtain ⟨h1, h2, h3, h4, h5, h6, h7, h8⟩ := hl
  have hw : s'.writer = s.writer := by
    funext q
    cases q <;> assumption
  have hq : s'.queue = s.queue := by
    funext q
    cases q <;> assumption
  have hb : s'.queueBytes = s.queueBytes := by
    funext q
    cases q <;> assumption
  have hz : s'.sizeOf = s.sizeOf := by
    funext id
    rw [Store.sizeOf, Store.sizeOf, h7]
  refine ⟨fun q => ?_, by rw [h3, h4, h7]; exact h.queues, by rw [h7, h8]; exact h.below,
    by rw [hw, h7, h8]; exact h.active, by rw [hw]; exact h.distinct, fun hash e he => ?_⟩
  · rw [Store.activeLen, hw, hq, hb, hz]
    exact h.bytes q
  · obtain ⟨e', he', hp⟩ := hm hash e he
    rw [hw, h7, ← hp]
    exact h.map hash e' he'

theorem Books.congr_map (hl : s'.ledger = s.ledger) (hm : s'.map = s.map) :
    Books front s' d := h.congr hl fun _ e he => ⟨e, hm ▸ he, rfl⟩

theorem Books.erase (hash : Hash) : Books front { s with map := s.map.erase hash } d :=
  h.congr rfl fun hash' e he => by
    rw [lookup_erase_eq] at he
    split_ifs at he
    exact ⟨e, he, rfl⟩

theorem Books.disk (hp : ∀ i, PackFile d i → PackFile d' i)
    (hi : ∀ id ∈ s.packs.keys, d'.content (.index id) = d.content (.index id)) : Books front s d' where
  bytes := h.bytes
  queues := h.queues
  below := h.below
  active q w hq := by
    obtain ⟨h1, h2, h3⟩ := h.active q w hq
    exact ⟨h1, h2, hp _ h3⟩
  distinct := h.distinct
  map hash e he := by
    rcases h.map hash e he with ⟨hk, idx, hidx, hm⟩ | hw
    · exact .inl ⟨hk, idx, (hi e.pack hk).trans hidx, hm⟩
    · exact .inr hw

omit h

theorem content_setData_packFile {i : ℕ} {n : FileName} (hi : PackFile d i) (hn : n.isPack = false) (bs : Bytes) :
    (d.setData i bs).content n = d.content n := by
  refine map_congr fun j hj => ?_
  have hji : j ≠ i := by
    rintro rfl
    simpa [hn] using hi.2 n hj
  exact Function.update_of_ne hji _ _

variable {w : PackWriter}

theorem Books.setData (h : Books front s d) {q : Queue} (hq : s.writer q = some w) (bs : Bytes) :
    Books front s (d.setData w.file bs) :=
  h.disk (fun _ hi => hi) fun _ _ => content_setData_packFile (h.active q w hq).2.2 rfl bs

/-! ### Appending and sealing -/

theorem Books.setWriter {q : Queue} {t : Store} (h : Books front s d) (grown : ℕ)
    (hid : w.id < s.nextId ∧ w.id ∉ s.packs.keys ∧ PackFile d w.file)
    (hother : ∀ q' w', q' ≠ q → s.writer q' = some w' → w'.id ≠ w.id) (hlen : w.len = s.activeLen q + grown)
    (hold : ∀ w₀, s.writer q = some w₀ → w₀.id = w.id ∧ ∀ e ∈ w₀.entries, e ∈ w.entries)
    (ht : t.ledger = ((s.setWriter q (some w)).setBytes q (· + grown)).ledger)
    (hm : ∀ hash e, t.map.lookup hash = some e → s.map.lookup hash = some e ∨
      e.pack = w.id ∧ hash ∈ w.entries.map IndexEntry.hash) : Books front t d := by
  have hwr : ∀ q', t.writer q' = if q' = q then some w else s.writer q' := by
    intro q'
    simp only [Store.ledger, Prod.mk.injEq] at ht
    obtain ⟨h1, h2, -⟩ := ht
    cases q <;> cases q' <;> assumption
  have hb : ∀ q', t.queueBytes q' = if q' = q then s.queueBytes q' + grown else s.queueBytes q' := by
    intro q'
    simp only [Store.ledger, Prod.mk.injEq] at ht
    obtain ⟨-, -, -, -, h5, h6, -⟩ := ht
    cases q <;> cases q' <;> assumption
  have hrest : t.small = s.small ∧ t.main = s.main ∧ t.packs = s.packs ∧ t.nextId = s.nextId := by
    simp only [Store.ledger, Prod.mk.injEq] at ht
    obtain ⟨-, -, h3, h4, -, -, h7, h8⟩ := ht
    cases q <;> exact ⟨h3, h4, h7, h8⟩
  obtain ⟨h3, h4, h7, h8⟩ := hrest
  have hq : t.queue = s.queue := by
    funext q'
    cases q' <;> assumption
  have hz : t.sizeOf = s.sizeOf := by
    funext id
    rw [Store.sizeOf, Store.sizeOf, h7]
  refine ⟨fun q' => ?_, by rw [h3, h4, h7]; exact h.queues, by rw [h7, h8]; exact h.below,
    fun q' w' hq' => ?_, fun q₁ q₂ w₁ w₂ h₁ h₂ hne => ?_, fun hash e he => ?_⟩
  · have hbytes := h.bytes q'
    rw [hb, hq, hz, Store.activeLen, hwr]
    split_ifs with hqq
    · subst hqq
      rw [hbytes, elim_some, hlen]
      omega
    · exact hbytes
  · rw [hwr] at hq'
    rw [h7, h8]
    split_ifs at hq' with hqq
    · cases hq'
      exact hid
    · exact h.active q' w' hq'
  · rw [hwr] at h₁ h₂
    split_ifs at h₁ h₂ with e₁ e₂ e₂
    · exact absurd (e₁.trans e₂.symm) hne
    · cases h₁
      exact (hother q₂ w₂ e₂ h₂).symm
    · cases h₂
      exact hother q₁ w₁ e₁ h₁
    · exact h.distinct q₁ q₂ w₁ w₂ h₁ h₂ hne
  · rw [h7]
    rcases hm hash e he with he | ⟨hp, hlisted⟩
    · rcases h.map hash e he with hp | ⟨q', w', hq', hid', hm'⟩
      · exact .inl hp
      · refine .inr ?_
        rcases eq_or_ne q' q with rfl | hqq
        · obtain ⟨hsame, hsub⟩ := hold w' hq'
          obtain ⟨x, hx, rfl⟩ := mem_map.mp hm'
          exact ⟨q', w, by rw [hwr, if_pos rfl], hsame ▸ hid', mem_map_of_mem (hsub x hx)⟩
        · exact ⟨q', w', by rw [hwr, if_neg hqq]; exact hq', hid', hm'⟩
    · exact .inr ⟨q, w, by rw [hwr, if_pos rfl], hp.symm, hlisted⟩

theorem books_activeWriter (q : Queue) (h : Books front s d) : EndsFrom allowed (activeWriter q) s d
    (fun w s' d' => Books front s' d' ∧ s'.writer q = some w ∧ s'.packs = s.packs ∧ s'.map = s.map)
    (fun _ => Books front) := by
  unfold activeWriter
  refine endsFrom_getStore ?_
  cases hq : s.writer q with
  | some w => exact endsFrom_pure ⟨h, hq, rfl, rfl⟩
  | none =>
    have h₁ : Books front { s with nextId := s.nextId + 1 } d := by
      refine ⟨h.bytes, h.queues, fun id hid => Nat.lt_succ_of_lt (h.below id hid), fun q' w hw => ?_,
        h.distinct, h.map⟩
      obtain ⟨h1, h2, h3⟩ := h.active q' w hw
      exact ⟨Nat.lt_succ_of_lt h1, h2, h3⟩
    refine endsFrom_modifyStore (EndsFrom.bind
      (R := fun w s' d' => s' = { s with nextId := s.nextId + 1 } ∧ Books front s' d' ∧ w.id = s.nextId ∧
        w.len = 0 ∧ PackFile d' w.file)
      (endsFrom_onDisk (R := fun w d' => d' = d.allocate (.pack s.nextId) ∧ w.id = s.nextId ∧ w.len = 0 ∧
        w.file = d.next) (F := fun _ d' => d' = d) ?_ ?_ ?_) ?_)
    · refine EndsIn.bind (R := fun i d' => i = d.next ∧ d' = d.allocate (.pack s.nextId))
        (endsIn_fileOp ?_ ?_ fun _ _ => ⟨rfl, rfl⟩) ?_
      · intro i d' hop
        cases hc : d.createNew (.pack s.nextId) with
        | none => simp [hc] at hop
        | some r =>
          simp only [hc, elim_some, Except.ok.injEq] at hop
          subst hop
          unfold Directory.createNew at hc
          split at hc <;> cases hc
          exact ⟨rfl, rfl⟩
      · intro kind hop
        rfl
      · rintro i d' ⟨rfl, rfl⟩
        exact endsIn_pure ⟨rfl, rfl, rfl, rfl⟩
    · rintro w d' ⟨rfl, hid, hlen, hfile⟩
      have hnew : PackFile (d.allocate (.pack s.nextId)) d.next := by
        refine ⟨Nat.lt_succ_self _, fun n hn => ?_⟩
        rw [file_allocate] at hn
        split_ifs at hn with hp
        · rw [hp]
          rfl
        · exact absurd (file_lt hn) (lt_irrefl _)
      refine ⟨rfl, h₁.disk (fun i hi => (grows_allocate _ i hi).1) fun id _ => ?_, hid, hlen, hfile ▸ hnew⟩
      rw [content_allocate, if_neg (by simp)]
    · rintro _ _ rfl
      exact h₁
    · rintro w _ d' ⟨rfl, h₂, hid, hlen, hfile⟩
      refine endsFrom_modifyStore (f := fun _ => pure w) (endsFrom_pure ⟨?_, ?_, ?_, ?_⟩)
      · have hkeys : ∀ id ∈ s.packs.keys, id ≠ w.id := fun id hid' => by
          have := h.below id hid'
          omega
        refine h₂.setWriter (q := q) (w := w) 0
          ⟨by rw [hid]; exact Nat.lt_succ_self _, fun hm => hkeys _ hm rfl, hfile⟩ ?_ ?_ ?_ ?_ ?_
        · intro q' w' _ hq'
          have := (h.active q' w' hq').1
          omega
        · have hnone : ({ s with nextId := s.nextId + 1 } : Store).writer q = none := hq
          rw [Store.activeLen, hnone, hlen]
          rfl
        · intro w₀ hw₀
          rw [show ({ s with nextId := s.nextId + 1 } : Store).writer q = s.writer q from rfl, hq] at hw₀
          cases hw₀
        · cases q <;> rfl
        · intro hash e he
          left
          cases q <;> exact he
      · rw [writer_setWriter, if_pos rfl]
      · cases q <;> rfl
      · cases q <;> rfl

theorem books_appendRecord (q : Queue) (hash : Hash) (bytes : Bytes) (freq : ℕ) (h : Books front s d) :
    EndsFrom allowed (appendRecord q hash bytes freq) s d
      (fun _ s' d' => Books front s' d' ∧ s'.packs = s.packs ∧
        ∃ e, s'.map = s.map.insert hash e ∧ e.pack ∉ s.packs.keys) (fun _ => Books front) := by
  unfold appendRecord
  refine EndsFrom.bind (books_activeWriter q h) ?_
  rintro w s₁ d₁ ⟨h₁, hq, hp₁, hm₁⟩
  refine EndsFrom.bind
    (R := fun r s' d' => s' = s₁ ∧ r = (w.push hash bytes, w.len + headerLen) ∧ Books front s₁ d')
    (endsFrom_onDisk (R := fun r d' => r = (w.push hash bytes, w.len + headerLen) ∧ Books front s₁ d')
      (F := fun _ d' => Books front s₁ d') ?_ (fun _ _ hr => ⟨rfl, hr⟩) fun _ _ hr => hr) ?_
  · unfold PackWriter.append
    by_cases hbig : 2 ^ 32 ≤ bytes.length
    · rw [if_pos hbig]
      exact EndsIn.bind (R := fun _ _ => False) (endsIn_throw h₁) (by simp)
    · rw [if_neg hbig]
      refine EndsIn.bind ((endsIn_writeAllAt _ _ _).mono (fun _ _ h => h) ?_) ?_
      · rintro _ _ ⟨-, n, rfl⟩
        exact h₁.setData hq _
      · rintro _ _ rfl
        exact endsIn_pure ⟨rfl, h₁.setData hq _⟩
  rintro _ s₁ d₂ ⟨rfl, rfl, h₂⟩
  refine endsFrom_modifyStore (endsFrom_getStore (endsFrom_pure ⟨?_, ?_,
    ⟨w.id, w.len + headerLen, bytes.length, freq⟩, ?_, ?_⟩))
  · have hlen : s₁.activeLen q = w.len := by rw [Store.activeLen, hq, elim_some]
    refine h₂.setWriter (q := q) (w := w.push hash bytes) ((w.push hash bytes).len - w.len)
      (h₂.active q w hq) (fun q' w' hne hq' => h₂.distinct q' q w' w hq' hq hne) ?_ ?_ ?_ ?_
    · rw [hlen]
      have : w.len ≤ (w.push hash bytes).len := by simp only [push]; omega
      omega
    · intro w₀ hw₀
      rw [hq, some.injEq] at hw₀
      subst hw₀
      exact ⟨rfl, fun e he => mem_append_left _ he⟩
    · cases q <;> rfl
    · intro hash' e he
      have hmap : (s₁.pushRecord q w (w.push hash bytes) hash ⟨w.id, w.len + headerLen, bytes.length, freq⟩).map =
          s₁.map.insert hash ⟨w.id, w.len + headerLen, bytes.length, freq⟩ := by cases q <;> rfl
      rw [show (w.push hash bytes).id = w.id from rfl, hmap, lookup_insert_eq] at he
      split_ifs at he with heq
      · cases he
        subst heq
        exact .inr ⟨rfl, by simp [push]⟩
      · exact .inl he
  · rw [← hp₁]
    cases q <;> rfl
  · rw [← hm₁]
    cases q <;> rfl
  · rw [← hp₁]
    exact (h₂.active q w hq).2.1

theorem endsIn_sealPack_listed (hw : PackFile d w.file) : EndsIn allowed w.sealPack d
    (fun _ d' => (∀ i, PackFile d i → PackFile d' i) ∧ d'.content (.index w.id) = some (encodeIndex w.entries) ∧
      ∀ id, id ≠ w.id → d'.content (.index id) = d.content (.index id)) (fun _ _ => True) := by
  unfold sealPack
  refine EndsIn.bind ((endsIn_total fun d => d.truncate w.file w.len).mono (fun _ _ h => h) fun _ _ _ => trivial) ?_
  rintro - d₁ rfl
  refine EndsIn.bind (endsIn_syncData.mono (fun _ _ h => h) fun _ _ _ => trivial) ?_
  rintro - d₂ rfl
  refine (endsIn_writeIndex w.id w.entries).mono ?_ fun _ _ _ => trivial
  rintro - d' ⟨hb, hi, -⟩
  refine ⟨fun i hp => (hb.grows i hp).1, hi, fun id hid => ?_⟩
  rw [hb.only.content (.index id) hid]
  exact content_setData_packFile hw rfl _

theorem hash_decodeIndex (entries : List IndexEntry) :
    (decodeIndex (encodeIndex entries)).map IndexEntry.hash = entries.map IndexEntry.hash := by
  rw [decodeIndex, encodeIndex, chunksExact_flatten (by omega) (by simp), map_map, map_map]
  refine map_congr_left fun e _ => ?_
  have hh : e.encode.take 32 = e.hash.1 := by
    rw [IndexEntry.encode, append_assoc, take_left' e.hash.2]
  simp only [Function.comp_apply, IndexEntry.decode, hh, Hash.ofSlice_val]

theorem Books.sealWriter {q : Queue} (h : Books front s d) (hq : s.writer q = some w)
    (hp : ∀ i, PackFile d i → PackFile d' i) (hi : d'.content (.index w.id) = some (encodeIndex w.entries))
    (hother : ∀ id, id ≠ w.id → d'.content (.index id) = d.content (.index id)) :
    Books front (s.sealWriter q w) d' := by
  obtain ⟨hid, hnew, -⟩ := h.active q w hq
  have hpacks : (s.sealWriter q w).packs = s.packs.insert w.id w.len := by cases q <;> rfl
  have hkeys : (s.sealWriter q w).packs.keys = w.id :: s.packs.keys := by
    rw [hpacks, AList.keys_insert, erase_of_not_mem hnew]
  have hnext : (s.sealWriter q w).nextId = s.nextId := by cases q <;> rfl
  have hmap : (s.sealWriter q w).map = s.map := by cases q <;> rfl
  have hold : ∀ id ∈ s.packs.keys, (s.sealWriter q w).sizeOf id = s.sizeOf id := by
    intro id hk
    have hne : id ≠ w.id := fun heq => hnew (heq ▸ hk)
    rw [Store.sizeOf, hpacks, lookup_insert_eq, if_neg hne, Store.sizeOf]
  have hqueued : ∀ q', ∀ id ∈ front q' ++ s.queue q', id ∈ s.packs.keys := by
    intro q' id hm
    refine h.queues.subset ?_
    cases q' with
    | small => exact mem_append_left _ hm
    | main => exact mem_append_right _ hm
  refine ⟨fun q' => ?_, ?_, fun id hk => ?_, fun q' w' hq' => ?_, fun q₁ q₂ w₁ w₂ h₁ h₂ hne => ?_,
    fun hash e he => ?_⟩
  · have hsizes : ((front q' ++ s.queue q').map (s.sealWriter q w).sizeOf) =
        (front q' ++ s.queue q').map s.sizeOf := map_congr_left fun id hm => hold id (hqueued q' id hm)
    have hb : (s.sealWriter q w).queueBytes q' = s.queueBytes q' := by cases q <;> cases q' <;> rfl
    have hbytes := h.bytes q'
    rw [hb, hbytes, Store.activeLen, Store.activeLen, writer_sealWriter]
    split_ifs with hqq
    · subst hqq
      have hqueue : (s.sealWriter q' w).queue q' = s.queue q' ++ [w.id] := by cases q' <;> rfl
      have hsize : (s.sealWriter q' w).sizeOf w.id = w.len := by
        rw [Store.sizeOf, hpacks, lookup_insert_eq, if_pos rfl, getD_some]
      have hsum : ((front q' ++ (s.queue q' ++ [w.id])).map (s.sealWriter q' w).sizeOf).sum =
          ((front q' ++ s.queue q').map s.sizeOf).sum + w.len := by
        rw [← append_assoc, map_append, sum_append, hsizes]
        simp [hsize]
      rw [hqueue, hsum, hq]
      rfl
    · have hqueue : (s.sealWriter q w).queue q' = s.queue q' := by
        cases q <;> cases q' <;> first | rfl | exact absurd rfl hqq
      rw [hqueue, hsizes]
  · rw [hkeys]
    refine List.Perm.trans ?_ (List.Perm.cons w.id h.queues)
    cases q with
    | small =>
      change (front .small ++ (s.small ++ [w.id]) ++ (front .main ++ s.main)).Perm _
      rw [← append_assoc (front .small), append_assoc (front .small ++ s.small)]
      exact perm_middle
    | main =>
      change (front .small ++ s.small ++ (front .main ++ (s.main ++ [w.id]))).Perm _
      rw [← append_assoc (front .main), ← append_assoc]
      exact perm_append_singleton _ _
  · rw [hkeys] at hk
    rw [hnext]
    rcases mem_cons.mp hk with rfl | hk
    · exact hid
    · exact h.below id hk
  · rw [writer_sealWriter] at hq'
    split_ifs at hq' with hqq
    obtain ⟨h1, h2, h3⟩ := h.active q' w' hq'
    rw [hkeys, hnext]
    refine ⟨h1, fun hm => ?_, hp _ h3⟩
    rcases mem_cons.mp hm with heq | hm
    · exact h.distinct q' q w' w hq' hq hqq heq
    · exact h2 hm
  · rw [writer_sealWriter] at h₁ h₂
    split_ifs at h₁ h₂
    exact h.distinct q₁ q₂ w₁ w₂ h₁ h₂ hne
  · rw [hmap] at he
    rw [hkeys]
    rcases h.map hash e he with ⟨hk, idx, hidx, hm⟩ | ⟨q', w', hq', hid', hm⟩
    · have hne : e.pack ≠ w.id := fun heq => hnew (heq ▸ hk)
      exact .inl ⟨mem_cons_of_mem _ hk, idx, (hother e.pack hne).trans hidx, hm⟩
    · rcases eq_or_ne q' q with rfl | hqq
      · rw [hq, some.injEq] at hq'
        subst hq'
        rw [← hid']
        exact .inl ⟨mem_cons_self, _, hi, by rw [hash_decodeIndex]; exact hm⟩
      · exact .inr ⟨q', w', by rw [writer_sealWriter, if_neg hqq]; exact hq', hid', hm⟩

theorem books_sealQueue (q : Queue) (h : Books front s d) : EndsFrom allowed (sealQueue q) s d
    (fun _ s' d' => Books front s' d' ∧ s'.map = s.map) (fun _ _ _ => True) := by
  unfold sealQueue
  refine endsFrom_getStore ?_
  cases hq : s.writer q with
  | none => exact endsFrom_pure ⟨h, rfl⟩
  | some w =>
    refine endsFrom_modifyStore (EndsFrom.bind
      (R := fun _ s' d' => s' = s.setWriter q none ∧ (∀ i, PackFile d i → PackFile d' i) ∧
        d'.content (.index w.id) = some (encodeIndex w.entries) ∧
        ∀ id, id ≠ w.id → d'.content (.index id) = d.content (.index id))
      (endsFrom_onDisk (endsIn_sealPack_listed (h.active q w hq).2.2) (fun _ _ hr => ⟨rfl, hr⟩)
        fun _ _ _ => trivial) ?_)
    rintro - _ d' ⟨rfl, hp, hi, hother⟩
    exact endsFrom_modify ⟨h.sealWriter hq hp hi hother, by cases q <;> rfl⟩

end Tribuchet.ChunkStore
