import Tribuchet.Nar.Chunks
import Tribuchet.Outputs.Delivery

/-! Packing an output (`pack_one_nar` in `worker/build/outputs.rs`): its chunks are collected in
batches, compressed by several threads and appended to a file of frames, with an entry for each.
A deadline and a limit of the size are checked at every chunk. File operations do not fail. -/

namespace Tribuchet.Outputs

open ByteStrings Cutting Feeding Nar List Node

/-- A zstd frame at `off..off+len` of a frames file. -/
structure OutChunk (H : Type) where
  hash : H
  size : ℕ
  off : ℕ
  len : ℕ
  deriving DecidableEq

inductive PackError
  | timedOut
  | tooLarge
  | compressing
  /-- a size that does not fit a `u32` -/
  | unbounded
  deriving DecidableEq

def batchSize : ℕ := 64

def maxNarBytes : ℕ := 64 * 1024 * 1024 * 1024

structure FrameWriter (H : Type) where
  file : Bytes
  chunks : List (OutChunk H)
  off : ℕ

/-- What `pack_one_nar` keeps between chunks. -/
structure Packing (H ρ : Type) where
  scan : Option ρ
  frames : FrameWriter H
  batch : List (Nar.Chunk H)
  total : ℕ
  readings : ℕ

structure NarPackResult (H P : Type) where
  references : List P
  chunks : List (OutChunk H)
  file : Bytes

structure Scanner (ρ P : Type) where
  feed : ρ → Bytes → ρ
  foundPaths : ρ → List P

section

variable {H ρ P : Type} (compress : Bytes → Option Bytes)

namespace FrameWriter

def add (w : FrameWriter H) (c : Nar.Chunk H × Bytes) : FrameWriter H :=
  ⟨w.file ++ c.2, w.chunks ++ [⟨c.1.hash, c.1.data.length, w.off, c.2.length⟩], w.off + c.2.length⟩

def push (w : FrameWriter H) (c : Nar.Chunk H × Bytes) : Except PackError (FrameWriter H) :=
  if 2 ^ 32 ≤ c.1.data.length ∨ 2 ^ 32 ≤ c.2.length then .error .unbounded else .ok (w.add c)

def compressAll (threads : ℕ) (batch : List (Nar.Chunk H)) : Option (List Bytes) :=
  let per := max 1 ((batch.length + threads - 1) / threads)
  ((chunksOf per batch).mapM fun part : List (Nar.Chunk H) => part.mapM fun c => compress c.data).map flatten

def write (parallelism : ℕ) (batch : List (Nar.Chunk H)) (w : FrameWriter H) : Except PackError (FrameWriter H) :=
  match compressAll compress (min (max 1 parallelism) 4) batch with
  | none => .error .compressing
  | some frames => (batch.zip frames).foldlM push w

end FrameWriter

variable (scanner : Scanner ρ P) (parallelism : ℕ → ℕ) (now : ℕ → ℕ) (deadline : ℕ)

/-- What is done with a chunk; the clock shows `now i` when it is read for the `i`-th time, and
`parallelism i` threads are available after `i` chunks were written. -/
def Packing.onChunk : Callback (Nar.Chunk H) (Packing H ρ) PackError := fun c s =>
  let s := { s with readings := s.readings + 1 }
  if deadline ≤ now (s.readings - 1) then (.error .timedOut, s)
  else
    let s := { s with total := s.total + c.data.length }
    if maxNarBytes < s.total then (.error .tooLarge, s)
    else
      let s := { s with scan := s.scan.map fun r => scanner.feed r c.data, batch := s.batch ++ [c] }
      if s.batch.length = batchSize then
        match s.frames.write compress (parallelism s.frames.chunks.length) s.batch with
        | .error e => (.error e, s)
        | .ok frames => (.ok true, { s with frames := frames, batch := [] })
      else (.ok true, s)

variable [DecidableEq P] (blake3 : Bytes → H) (cdc : Cdc)

def packOneNar (scan : Option ρ) (selfPath : Option P) (reads : Path → ℕ → ℕ) (root : Node) :
    Except (ChunkError PackError) (NarPackResult H P) :=
  match chunkStorePath blake3 cdc (Packing.onChunk compress scanner parallelism now deadline) reads root
      ⟨scan, ⟨[], [], 0⟩, [], 0, 0⟩ with
  | (.error e, _) => .error e
  | (.ok _, s) =>
    match s.frames.write compress (parallelism s.frames.chunks.length) s.batch with
    | .error e => .error (.sink e)
    | .ok frames =>
      .ok ⟨((s.scan.map scanner.foundPaths).getD []).filter fun p => selfPath ≠ some p, frames.chunks, frames.file⟩

end

/-! ### Batches -/

section

variable {H : Type} {compress : Bytes → Option Bytes}

open FrameWriter

theorem mapM_flatten {α β : Type} (f : α → Option β) (l : List (List α)) :
    (l.mapM fun part : List α => part.mapM f).map flatten = l.flatten.mapM f := by
  induction l with
  | nil => rfl
  | cons part l ih =>
    rw [mapM_cons, flatten_cons, mapM_append, ← ih]
    cases part.mapM f with
    | none => rfl
    | some frames => cases l.mapM fun part : List α => part.mapM f <;> rfl

theorem compressAll_eq (threads : ℕ) (batch : List (Nar.Chunk H)) :
    compressAll compress threads batch = batch.mapM fun c => compress c.data := by
  unfold compressAll
  rw [mapM_flatten, flatten_chunksOf (by omega)]

theorem zip_of_mapM {α β : Type} {f : α → Option β} {l : List α} {r : List β} (h : l.mapM f = some r) :
    (l.zip r).map Prod.fst = l ∧ ∀ p ∈ l.zip r, f p.1 = some p.2 := by
  induction l generalizing r with
  | nil => simp
  | cons a l ih =>
    rw [mapM_cons] at h
    obtain ⟨b, hb, h⟩ := Option.bind_eq_some_iff.mp h
    obtain ⟨rest, hrest, h⟩ := Option.bind_eq_some_iff.mp h
    obtain rfl : b :: rest = r := Option.some.inj h
    obtain ⟨hfst, hall⟩ := ih hrest
    refine ⟨by rw [zip_cons_cons, map_cons, hfst], ?_⟩
    rw [zip_cons_cons, forall_mem_cons]
    exact ⟨hb, hall⟩

theorem mapM_isSome {α β : Type} {f : α → Option β} {l : List α} (h : ∀ a ∈ l, ∃ b, f a = some b) :
    ∃ r, l.mapM f = some r := by
  induction l with
  | nil => exact ⟨[], rfl⟩
  | cons a l ih =>
    obtain ⟨b, hb⟩ := h a mem_cons_self
    obtain ⟨r, hr⟩ := ih fun a' ha => h a' (mem_cons_of_mem a ha)
    exact ⟨b :: r, by rw [mapM_cons, hb, hr]; rfl⟩

variable {l : List (Nar.Chunk H × Bytes)} {w w' : FrameWriter H}

theorem foldlM_push (h : l.foldlM push w = .ok w') : w' = l.foldl add w := by
  induction l generalizing w with
  | nil => exact (Except.ok.inj h).symm
  | cons p l ih =>
    rw [foldlM_cons] at h
    unfold push at h
    split_ifs at h
    · cases h
    · exact ih h

theorem foldlM_push_ok (w : FrameWriter H) (h : ∀ p ∈ l, p.1.data.length < 2 ^ 32 ∧ p.2.length < 2 ^ 32) :
    l.foldlM push w = .ok (l.foldl add w) := by
  induction l generalizing w with
  | nil => rfl
  | cons p l ih =>
    obtain ⟨hp, hl⟩ := forall_mem_cons.mp h
    rw [foldlM_cons, push, if_neg (by omega)]
    exact ih (w.add p) hl

variable {parallelism : ℕ} {batch : List (Nar.Chunk H)}

theorem write_spec (h : w.write compress parallelism batch = .ok w') :
    ∃ l : List (Nar.Chunk H × Bytes), l.map Prod.fst = batch ∧ (∀ p ∈ l, compress p.1.data = some p.2) ∧
      w' = l.foldl add w := by
  unfold write at h
  rw [compressAll_eq] at h
  cases hframes : batch.mapM fun c => compress c.data with
  | none => simp [hframes] at h
  | some frames =>
    simp only [hframes] at h
    obtain ⟨hfst, hall⟩ := zip_of_mapM hframes
    exact ⟨batch.zip frames, hfst, hall, foldlM_push h⟩

theorem write_ok (w : FrameWriter H)
    (h : ∀ c ∈ batch, c.data.length < 2 ^ 32 ∧ ∃ frame, compress c.data = some frame ∧ frame.length < 2 ^ 32) :
    ∃ w', w.write compress parallelism batch = .ok w' := by
  obtain ⟨frames, hframes⟩ : ∃ frames, (batch.mapM fun c => compress c.data) = some frames := by
    refine mapM_isSome fun c hc => ?_
    obtain ⟨-, frame, hframe, -⟩ := h c hc
    exact ⟨frame, hframe⟩
  obtain ⟨hfst, hall⟩ := zip_of_mapM hframes
  refine ⟨(batch.zip frames).foldl add w, ?_⟩
  rw [write, compressAll_eq, hframes]
  refine foldlM_push_ok w fun p hp => ?_
  have hmem : p.1 ∈ batch := by
    rw [← hfst]
    exact mem_map_of_mem hp
  obtain ⟨hsize, frame, hframe, hlen⟩ := h p.1 hmem
  have heq : some p.2 = some frame := (hall p hp).symm.trans hframe
  exact ⟨hsize, Option.some.inj heq ▸ hlen⟩

/-! ### The frames file -/

/-- The ranges follow each other from `start` to `stop`. -/
def Tiling (start stop : ℕ) : List (OutChunk H) → Prop
  | [] => start = stop
  | c :: rest => c.off = start ∧ Tiling (start + c.len) stop rest

theorem tiling_snoc {start stop : ℕ} {l : List (OutChunk H)} (h : Tiling start stop l) {c : OutChunk H} (hc : c.off = stop) :
    Tiling start (stop + c.len) (l ++ [c]) := by
  induction l generalizing start with
  | nil =>
    cases h
    exact ⟨hc, rfl⟩
  | cons d l ih => exact ⟨h.1, ih h.2⟩

/-- What a frames file and its entries are after these chunks. -/
structure Framed (l : List (Nar.Chunk H × Bytes)) (w : FrameWriter H) : Prop where
  off : w.off = w.file.length
  tiling : Tiling 0 w.file.length w.chunks
  entries : w.chunks.map (fun e => (e.hash, e.size)) = l.map fun p => (p.1.hash, p.1.data.length)
  frames : w.chunks.map (fun e => readExact w.file e.off e.len) = l.map fun p => some p.2

theorem framed_nil : Framed [] (⟨[], [], 0⟩ : FrameWriter H) := ⟨rfl, rfl, rfl, rfl⟩

theorem tiling_mem {start stop : ℕ} {l : List (OutChunk H)} (h : Tiling start stop l) :
    start ≤ stop ∧ ∀ c ∈ l, c.off + c.len ≤ stop := by
  induction l generalizing start with
  | nil =>
    cases h
    exact ⟨le_rfl, nofun⟩
  | cons d l ih =>
    obtain ⟨hle, hall⟩ := ih h.2
    have hd := h.1
    exact ⟨by omega, forall_mem_cons.mpr ⟨by omega, hall⟩⟩

theorem readExact_append {file more : Bytes} {off len : ℕ} (h : off + len ≤ file.length) :
    readExact (file ++ more) off len = readExact file off len := by
  unfold readExact slice
  rw [if_pos h, if_pos (by rw [length_append]; omega), drop_append_of_le_length (by omega),
    take_append_of_le_length (by rw [length_drop]; omega)]

theorem Framed.add (h : Framed l w) (p : Nar.Chunk H × Bytes) : Framed (l ++ [p]) (w.add p) where
  off := by
    have hoff := h.off
    simp only [FrameWriter.add, length_append]
    omega
  tiling := by
    have htiling := tiling_snoc h.tiling (c := ⟨p.1.hash, p.1.data.length, w.off, p.2.length⟩) h.off
    simp only [FrameWriter.add, length_append]
    exact htiling
  entries := by simp only [FrameWriter.add, map_append, h.entries, map_cons, map_nil]
  frames := by
    -- earlier frames stay where they are
    have hearlier : w.chunks.map (fun e => readExact (w.file ++ p.2) e.off e.len) =
        w.chunks.map fun e => readExact w.file e.off e.len :=
      map_congr_left fun e he => readExact_append ((tiling_mem h.tiling).2 e he)
    have hlast : readExact (w.file ++ p.2) w.off p.2.length = some p.2 := by
      rw [readExact, if_pos (by rw [length_append, h.off]), slice, h.off, drop_left, take_length]
    simp only [FrameWriter.add, map_append, hearlier, h.frames, map_cons, map_nil, hlast]

theorem Framed.foldl {more : List (Nar.Chunk H × Bytes)} (h : Framed l w) :
    Framed (l ++ more) (more.foldl FrameWriter.add w) := by
  induction more generalizing l w with
  | nil =>
    rw [append_nil]
    exact h
  | cons p more ih =>
    have hrest := ih (h.add p)
    rw [append_assoc] at hrest
    exact hrest

theorem Framed.write (h : Framed l w) (hw : w.write compress parallelism batch = .ok w') :
    ∃ more : List (Nar.Chunk H × Bytes), more.map Prod.fst = batch ∧ (∀ p ∈ more, compress p.1.data = some p.2) ∧
      Framed (l ++ more) w' := by
  obtain ⟨more, hbatch, hmore, rfl⟩ := write_spec hw
  exact ⟨more, hbatch, hmore, h.foldl⟩

/-- The frames written so far are those of the chunks in `past`, in order. -/
def Written (compress : Bytes → Option Bytes) (past : List (Nar.Chunk H)) (w : FrameWriter H) : Prop :=
  ∃ l : List (Nar.Chunk H × Bytes), l.map Prod.fst = past ∧ (∀ p ∈ l, compress p.1.data = some p.2) ∧ Framed l w

theorem written_nil : Written compress [] (⟨[], [], 0⟩ : FrameWriter H) := ⟨[], rfl, forall_mem_nil _, framed_nil⟩

theorem Written.write {past : List (Nar.Chunk H)} (h : Written compress past w) (hw : w.write compress parallelism batch = .ok w') :
    Written compress (past ++ batch) w' := by
  obtain ⟨l, rfl, hl, hframed⟩ := h
  obtain ⟨more, rfl, hmore, hframed'⟩ := hframed.write hw
  refine ⟨l ++ more, map_append, fun p hp => ?_, hframed'⟩
  rcases mem_append.mp hp with hp | hp
  · exact hl p hp
  · exact hmore p hp

theorem Written.batches {past : List (Nar.Chunk H)} (h : Written compress past w)
    {batches : List (ℕ × List (Nar.Chunk H))}
    (hw : batches.foldlM (fun w b => FrameWriter.write compress b.1 b.2 w) w = .ok w') :
    Written compress (past ++ batches.flatMap Prod.snd) w' := by
  induction batches generalizing past w with
  | nil =>
    obtain rfl : w = w' := Except.ok.inj hw
    rw [flatMap_nil, append_nil]
    exact h
  | cons b batches ih =>
    rw [foldlM_cons] at hw
    cases hb : w.write compress b.1 b.2 with
    | error e =>
      rw [hb] at hw
      cases hw
    | ok w₁ =>
      rw [hb] at hw
      have hrest := ih (h.write hb) hw
      rw [append_assoc] at hrest
      exact hrest

end

/-! ### Packing -/

section

variable {H ρ P : Type} {compress : Bytes → Option Bytes} {scanner : Scanner ρ P} {parallelism : ℕ → ℕ} {now : ℕ → ℕ}
  {deadline : ℕ}

theorem onChunk_ok {c : Nar.Chunk H} {s s' : Packing H ρ}
    (h : Packing.onChunk compress scanner parallelism now deadline c s = (.ok true, s')) :
    now s.readings < deadline ∧ s'.readings = s.readings + 1 ∧ s'.total = s.total + c.data.length ∧
      s'.total ≤ maxNarBytes ∧ (s'.frames = s.frames ∧ s'.batch = s.batch ++ [c] ∨ s'.batch = [] ∧
        s.frames.write compress (parallelism s.frames.chunks.length) (s.batch ++ [c]) = .ok s'.frames) := by
  unfold Packing.onChunk at h
  simp only [Nat.add_sub_cancel] at h
  split_ifs at h with hnow htotal hbatch
  · cases h
  · cases h
  · split at h
    · cases h
    · rename_i frames hframes
      cases h
      exact ⟨lt_of_not_ge hnow, rfl, rfl, le_of_not_gt htotal, .inr ⟨rfl, hframes⟩⟩
  · cases h
    exact ⟨lt_of_not_ge hnow, rfl, rfl, le_of_not_gt htotal, .inl ⟨rfl, rfl⟩⟩

theorem onChunk_ne_false (c : Nar.Chunk H) (s : Packing H ρ) :
    (Packing.onChunk compress scanner parallelism now deadline c s).1 ≠ .ok false := by
  unfold Packing.onChunk
  simp only
  split_ifs
  · exact nofun
  · exact nofun
  · split <;> exact nofun
  · exact nofun

variable (compress now deadline) in
/-- After the chunks in `past`: they are written or in the batch, within the limits. -/
structure Packing.After (past : List (Nar.Chunk H)) (s : Packing H ρ) : Prop where
  written : ∃ done, past = done ++ s.batch ∧ Written compress done s.frames
  total : s.total = (past.flatMap Nar.Chunk.data).length
  readings : s.readings = past.length
  limit : s.total ≤ maxNarBytes
  time : ∀ i < past.length, now i < deadline

theorem Packing.After.step {past : List (Nar.Chunk H)} {c : Nar.Chunk H} {s s' : Packing H ρ}
    (h : s.After compress now deadline past)
    (hc : Packing.onChunk compress scanner parallelism now deadline c s = (.ok true, s')) :
    s'.After compress now deadline (past ++ [c]) := by
  obtain ⟨⟨done, hpast, hwritten⟩, htotal, hreadings, -, htime⟩ := h
  obtain ⟨hnow, hreadings', htotal', hlimit, hbatch⟩ := onChunk_ok hc
  refine ⟨?_, ?_, ?_, hlimit, ?_⟩
  · rcases hbatch with ⟨hframes, hbatch⟩ | ⟨hbatch, hwrite⟩
    · exact ⟨done, by rw [hpast, hbatch, append_assoc], hframes ▸ hwritten⟩
    · refine ⟨past ++ [c], by rw [hbatch, append_nil], ?_⟩
      have hnew := hwritten.write hwrite
      rw [← append_assoc, ← hpast] at hnew
      exact hnew
  · rw [htotal', htotal, flatMap_append, length_append]
    simp
  · rw [hreadings', hreadings, length_append]
    rfl
  · intro i hi
    rw [length_append, length_singleton] at hi
    rcases Nat.lt_succ_iff_lt_or_eq.mp hi with hi | rfl
    · exact htime i hi
    · rw [← hreadings]
      exact hnow

theorem after_nil (scan : Option ρ) :
    (⟨scan, ⟨[], [], 0⟩, [], 0, 0⟩ : Packing H ρ).After compress now deadline [] where
  written := ⟨[], rfl, written_nil⟩
  total := rfl
  readings := rfl
  limit := Nat.zero_le _
  time := nofun

variable [DecidableEq P] {blake3 : Bytes → H} {cdc : Cdc} {scan : Option ρ} {selfPath : Option P} {reads : Path → ℕ → ℕ}
  {root : Node}

theorem packOneNar_ok (h : root.WellFormed) {r : NarPackResult H P}
    (hr : packOneNar compress scanner parallelism now deadline blake3 cdc scan selfPath reads root = .ok r) :
    ∃ w : FrameWriter H, r.chunks = w.chunks ∧ r.file = w.file ∧ Written compress (root.chunks blake3 cdc reads) w ∧
      root.tree.nar.length ≤ maxNarBytes ∧ ∀ i < (root.chunks blake3 cdc reads).length, now i < deadline := by
  unfold packOneNar at hr
  rw [chunkStorePath_feed h] at hr
  rcases hfeed : feed (Packing.onChunk compress scanner parallelism now deadline) (root.chunks blake3 cdc reads)
      ⟨scan, ⟨[], [], 0⟩, [], 0, 0⟩ with ⟨e | _ | _, s⟩
  · simp [hfeed, settled] at hr
  · have hne : (feed (Packing.onChunk compress scanner parallelism now deadline) (root.chunks blake3 cdc reads)
        ⟨scan, ⟨[], [], 0⟩, [], 0, 0⟩).1 ≠ .ok false := feed_ne_false onChunk_ne_false _ _
    rw [hfeed] at hne
    exact absurd rfl hne
  · have hafter : s.After compress now deadline ([] ++ root.chunks blake3 cdc reads) :=
      feed_invariant (fun past a s s' hs hc => hs.step hc) (after_nil scan) hfeed
    rw [nil_append] at hafter
    obtain ⟨⟨done, hdone, hwritten⟩, htotal, -, hlimit, htime⟩ := hafter
    rw [hfeed] at hr
    simp only [settled] at hr
    split at hr
    · cases hr
    · rename_i frames hframes
      cases hr
      refine ⟨frames, rfl, rfl, ?_, ?_, htime⟩
      · rw [hdone]
        exact hwritten.write hframes
      · rw [← chunks_data blake3 cdc h reads, ← htotal]
        exact hlimit

theorem packOneNar_total (h : root.WellFormed) (hnar : root.tree.nar.length ≤ maxNarBytes)
    (htime : ∀ i < (root.chunks blake3 cdc reads).length, now i < deadline)
    (hcompress : ∀ data : Bytes, data.length ≤ maxChunkBytes →
      ∃ frame, compress data = some frame ∧ frame.length < 2 ^ 32) :
    ∃ r, packOneNar compress scanner parallelism now deadline blake3 cdc scan selfPath reads root = .ok r := by
  have hwrite : ∀ (w : FrameWriter H) (n : ℕ) (batch : List (Nar.Chunk H)),
      (∀ c ∈ batch, c ∈ root.chunks blake3 cdc reads) → ∃ w', w.write compress n batch = .ok w' := by
    intro w n batch hbatch
    refine write_ok w fun c hc => ?_
    have hlen := (sound_of_mem_chunks blake3 cdc (hbatch c hc)).2.1
    exact ⟨hlen.trans_lt (by decide), hcompress c.data hlen⟩
  have hdata := chunks_data blake3 cdc h reads
  have hfeed := feed_complete (f := Packing.onChunk compress scanner parallelism now deadline)
    (I := fun past s => s.After compress now deadline past) (l := root.chunks blake3 cdc reads) (fun past c rest s hl hs => ?_)
    (after_nil scan)
  · obtain ⟨s, hfeed, ⟨done, hdone, -⟩, -⟩ := hfeed
    obtain ⟨w, hw⟩ := hwrite s.frames (parallelism s.frames.chunks.length) s.batch fun c hc => by
      rw [hdone]
      exact mem_append_right _ hc
    unfold packOneNar
    rw [chunkStorePath_feed h, hfeed]
    simp only [settled, hw]
    exact ⟨_, rfl⟩
  · obtain ⟨done, hdone, -⟩ := hs.written
    obtain ⟨w, hw⟩ := hwrite s.frames (parallelism s.frames.chunks.length) (s.batch ++ [c]) fun d hd => by
      rw [hl, hdone]
      simp only [mem_append, mem_cons, not_mem_nil, or_false] at hd ⊢
      tauto
    have hnow : now s.readings < deadline := by
      rw [hs.readings]
      exact htime _ (by rw [hl, length_append, length_cons]; omega)
    have hlimit : s.total + c.data.length ≤ maxNarBytes := by
      rw [hl, flatMap_append, flatMap_cons] at hdata
      rw [hs.total]
      refine le_trans ?_ hnar
      rw [← hdata, length_append, length_append]
      omega
    have hok : ∃ s', Packing.onChunk compress scanner parallelism now deadline c s = (.ok true, s') := by
      unfold Packing.onChunk
      simp only [Nat.add_sub_cancel]
      rw [if_neg (Nat.not_le.mpr hnow), if_neg (not_lt.mpr hlimit)]
      split_ifs
      · rw [hw]
        exact ⟨_, rfl⟩
      · exact ⟨_, rfl⟩
    obtain ⟨s', hc⟩ := hok
    exact ⟨s', hc, hs.step hc⟩

end

/-! ### Stopping -/

section

variable {H σ ε ρ P : Type} [DecidableEq P] (blake3 : Bytes → H) (cdc : Cdc)

/-- The sink is asked about chunks of the archive in order and not again after it answered anything
but `true`. Its error is the result, and the result is `Ok` only if all chunks were accepted or the
sink asked to stop. So an output is reported as packed only with all its chunks, and neither the
deadline nor the size limit was passed. -/
theorem sink_stops {root : Node} (h : root.WellFormed) (reads : Path → ℕ → ℕ) :
    toVec reads root = .ok ((root.chunks blake3 cdc reads).flatMap Nar.Chunk.data) ∧
    (∀ (sink : Callback (Nar.Chunk H) σ ε) (s : σ), ∃ calls : List (Nar.Chunk H × Except ε Bool),
      chunkStorePath blake3 cdc (logged sink) reads root (s, []) =
          ((chunkStorePath blake3 cdc sink reads root s).1, (chunkStorePath blake3 cdc sink reads root s).2, calls) ∧
        calls.map Prod.fst <+: root.chunks blake3 cdc reads ∧
        (∀ early c late, calls = early ++ c :: late → c.2 ≠ .ok true → late = []) ∧
        (∀ c e, (c, .error e) ∈ calls → (chunkStorePath blake3 cdc sink reads root s).1 = .error (.sink e)) ∧
        ((chunkStorePath blake3 cdc sink reads root s).1 = .ok () →
          calls = (root.chunks blake3 cdc reads).map (fun c => (c, .ok true)) ∨ ∃ c, (c, .ok false) ∈ calls)) ∧
    ∀ (compress : Bytes → Option Bytes) (scanner : Scanner ρ P) (parallelism now : ℕ → ℕ) (deadline : ℕ) (scan : Option ρ)
      (selfPath : Option P) (r : NarPackResult H P),
      packOneNar compress scanner parallelism now deadline blake3 cdc scan selfPath reads root = .ok r →
        r.chunks.map (fun e => (e.hash, e.size)) =
            (root.chunks blake3 cdc reads).map (fun c => (c.hash, c.data.length)) ∧
          root.tree.nar.length ≤ maxNarBytes ∧ ∀ i < r.chunks.length, now i < deadline := by
  refine ⟨by rw [chunks_data blake3 cdc h, toVec_eq h], fun sink s => ?_, ?_⟩
  · obtain ⟨calls, hfeed, hcalls⟩ := feed_logged sink (root.chunks blake3 cdc reads) s []
    rw [nil_append] at hfeed
    refine ⟨calls, ?_, hcalls.items, fun _ _ _ => hcalls.last, ?_, ?_⟩
    · rw [chunkStorePath_feed h, chunkStorePath_feed h, hfeed]
    · intro c e hmem
      rw [chunkStorePath_feed h, hcalls.result hmem (by simp)]
      rfl
    · rw [chunkStorePath_feed h]
      intro hok
      rcases hcalls.complete with ⟨-, hall⟩ | ⟨hne, c, hmem, hanswer⟩
      · exact .inl hall
      · rcases hfin : (feed sink (root.chunks blake3 cdc reads) s).1 with e | _ | _
        · simp [hfin, settled] at hok
        · rw [hfin] at hanswer
          exact .inr ⟨c.1, hanswer ▸ hmem⟩
        · exact absurd hfin hne
  · intro compress scanner parallelism now deadline scan selfPath r hr
    obtain ⟨w, hchunks, -, ⟨l, hl, -, hframed⟩, hlimit, htime⟩ := packOneNar_ok h hr
    have hentries : r.chunks.map (fun e => (e.hash, e.size)) =
        (root.chunks blake3 cdc reads).map fun c => (c.hash, c.data.length) := by
      rw [hchunks, hframed.entries, ← hl, map_map]
      rfl
    have hlength := congrArg length hentries
    rw [length_map, length_map] at hlength
    exact ⟨hentries, hlimit, fun i hi => htime i (hlength ▸ hi)⟩

/-- A sink that fails at a file. -/
theorem sink_stops_file : ∃ calls : List (Nar.Chunk ℕ × Except Unit Bool),
    chunkStorePath length bytewise (logged fun _ _ => (.error (), ())) (fun _ _ => 1) (.regular 0o644 1 [7]) ((), []) =
        ((chunkStorePath length bytewise (fun _ _ => (.error (), ())) (fun _ _ => 1) (.regular 0o644 1 [7]) ()).1,
          (chunkStorePath length bytewise (fun _ _ => (.error (), ())) (fun _ _ => 1) (.regular 0o644 1 [7]) ()).2,
          calls) ∧
      ∀ early c late, calls = early ++ c :: late → c.2 ≠ .ok true → late = [] := by
  have hwf : (regular 0o644 1 [7]).WellFormed := ⟨rfl, by decide⟩
  obtain ⟨-, hsink, -⟩ := sink_stops (H := ℕ) (σ := Unit) (ε := Unit) (ρ := Unit) (P := Unit) length bytewise hwf
    fun _ _ => 1
  obtain ⟨calls, hcalls, -, hlast, -⟩ := hsink (fun _ _ => (.error (), ())) ()
  exact ⟨calls, hcalls, hlast⟩

end

/-! ### Decoding -/

section

variable {H T ρ P : Type} [DecidableEq H] [DecidableEq P]

/-- The entries are those of the chunks in order, their ranges tile the file, and each range holds a
frame that is accepted as its chunk. -/
structure Decodes (codec : Codec H T) (chunks : List (Nar.Chunk H)) (entries : List (OutChunk H)) (file : Bytes) : Prop where
  listed : entries.map (fun e => (e.hash, e.size)) = chunks.map fun c => (c.hash, c.data.length)
  tiling : Tiling 0 file.length entries
  decoded : entries.map (fun e => (readExact file e.off e.len).bind fun frame => decodeChunk codec frame e.hash e.size) =
    chunks.map fun c => some c.data

theorem decodeChunk_frame {codec : Codec H T} {frame data : Bytes} (h : codec.decompress frame = some data) :
    decodeChunk codec frame (codec.blake3 data) data.length = some data := by
  simp [decodeChunk, h, Option.filter]

theorem Written.decodes {codec : Codec H T} {compress : Bytes → Option Bytes}
    (hc : ∀ data frame, compress data = some frame → codec.decompress frame = some data) {chunks : List (Nar.Chunk H)}
    (hash : ∀ c ∈ chunks, c.hash = codec.blake3 c.data) {w : FrameWriter H} (h : Written compress chunks w) :
    Decodes codec chunks w.chunks w.file := by
  obtain ⟨l, rfl, hl, hframed⟩ := h
  refine ⟨by rw [hframed.entries, map_map]; rfl, hframed.tiling, ?_⟩
  have hdecode : ∀ (entries : List (OutChunk H)) (l : List (Nar.Chunk H × Bytes)),
      (∀ p ∈ l, p.1.hash = codec.blake3 p.1.data ∧ compress p.1.data = some p.2) →
      entries.map (fun e => (e.hash, e.size)) = l.map (fun p => (p.1.hash, p.1.data.length)) →
      entries.map (fun e => readExact w.file e.off e.len) = l.map (fun p => some p.2) →
      entries.map (fun e => (readExact w.file e.off e.len).bind fun frame => decodeChunk codec frame e.hash e.size) =
        l.map fun p => some p.1.data := by
    intro entries
    induction entries with
    | nil =>
      intro l _ he _
      rw [map_nil, nil_eq, map_eq_nil_iff] at he
      rw [he]
      rfl
    | cons e entries ih =>
      intro l hall he hf
      cases l with
      | nil => simp at he
      | cons p l =>
        obtain ⟨hp, hall⟩ := forall_mem_cons.mp hall
        simp only [map_cons, cons.injEq, Prod.mk.injEq] at he hf
        obtain ⟨⟨hhash, hsize⟩, he⟩ := he
        rw [map_cons, map_cons, ih l hall he hf.2, hf.1, Option.bind_some, hhash, hsize, hp.1,
          decodeChunk_frame (hc _ _ hp.2)]
  have hmain := hdecode w.chunks l
    (fun p hp => ⟨hash p.1 (mem_map_of_mem hp), hl p hp⟩) hframed.entries hframed.frames
  rw [hmain, map_map]
  rfl

/-- However chunks come in batches and whatever the number of threads, the entries of a frames file
list them in order, and their ranges tile the file and decode to them. So the ranges of a packed
output decode to its archive; and an output within the limits is packed. -/
theorem frames_decode_to_archive (codec : Codec H T) {compress : Bytes → Option Bytes}
    (hc : ∀ data frame, compress data = some frame → codec.decompress frame = some data) :
    (∀ (batches : List (ℕ × List (Nar.Chunk H))) (w : FrameWriter H),
      (∀ b ∈ batches, ∀ c ∈ b.2, c.hash = codec.blake3 c.data) →
      batches.foldlM (fun w b => FrameWriter.write compress b.1 b.2 w) ⟨[], [], 0⟩ = .ok w →
        Decodes codec (batches.flatMap Prod.snd) w.chunks w.file) ∧
    ∀ (root : Node) (cdc : Cdc) (scanner : Scanner ρ P) (parallelism now : ℕ → ℕ) (deadline : ℕ) (scan : Option ρ)
      (selfPath : Option P) (reads : Path → ℕ → ℕ), root.WellFormed →
      (∀ r : NarPackResult H P,
        packOneNar compress scanner parallelism now deadline codec.blake3 cdc scan selfPath reads root = .ok r →
          Decodes codec (root.chunks codec.blake3 cdc reads) r.chunks r.file ∧
            toVec reads root = .ok ((root.chunks codec.blake3 cdc reads).flatMap Nar.Chunk.data)) ∧
      (root.tree.nar.length ≤ maxNarBytes → (∀ i, now i < deadline) →
        (∀ data : Bytes, data.length ≤ maxChunkBytes → ∃ frame, compress data = some frame ∧ frame.length < 2 ^ 32) →
        ∃ r, packOneNar compress scanner parallelism now deadline codec.blake3 cdc scan selfPath reads root = .ok r) := by
  refine ⟨fun batches w hash hw => ?_, fun root cdc scanner parallelism now deadline scan selfPath reads h => ⟨?_, ?_⟩⟩
  · refine Written.decodes hc (fun c hmem => ?_) (written_nil.batches hw)
    obtain ⟨b, hb, hmem⟩ := mem_flatMap.mp hmem
    exact hash b hb c hmem
  · intro r hr
    obtain ⟨w, hchunks, hfile, hwritten, -⟩ := packOneNar_ok h hr
    rw [hchunks, hfile]
    refine ⟨hwritten.decodes hc fun c hmem => (sound_of_mem_chunks _ _ hmem).2.2, ?_⟩
    rw [chunks_data _ cdc h, toVec_eq h]
  · intro hnar htime hcompress
    exact packOneNar_total h hnar (fun i _ => htime i) hcompress

theorem frames_decode_to_archive_link : ∃ r : NarPackResult ℕ Unit,
    packOneNar some (⟨fun s _ => s, fun _ => []⟩ : Scanner Unit Unit) (fun _ => 4) (fun _ => 0) 1 length bytewise
        none none (fun _ _ => 1) (.symlink (ascii "a")) = .ok r ∧
      Decodes plainCodec ((symlink (ascii "a")).chunks length bytewise fun _ _ => 1) r.chunks r.file := by
  have hwf : (symlink (ascii "a")).WellFormed := by simp [WellFormed, ascii]
  have hplain : ∀ data frame : Bytes, some data = some frame → plainCodec.decompress frame = some data :=
    fun _ _ h => h.symm
  obtain ⟨hdecodes, htotal⟩ := (frames_decode_to_archive (H := ℕ) (ρ := Unit) (P := Unit) plainCodec hplain).2 (.symlink (ascii "a")) bytewise ⟨fun s _ => s, fun _ => []⟩ (fun _ => 4)
    (fun _ => 0) 1 none none (fun _ _ => 1) hwf
  obtain ⟨r, hr⟩ := htotal (by decide +kernel) (fun _ => by decide)
    fun data hlen => ⟨data, rfl, hlen.trans_lt (by decide)⟩
  exact ⟨r, hr, (hdecodes r hr).1⟩

/-- Frames that `decode_chunk` accepts for the entries of a packed output, wherever they come from, together hold
the archive of its tree, unless one of them has the hash of another chunk. -/
theorem recipe_authenticates_tree {codec : Codec H T} {compress : Bytes → Option Bytes} {root : Node} {cdc : Cdc}
    {scanner : Scanner ρ P} {parallelism now : ℕ → ℕ} {deadline : ℕ} {scan : Option ρ} {selfPath : Option P}
    {reads : Path → ℕ → ℕ} (h : root.WellFormed) {r : NarPackResult H P}
    (hr : packOneNar compress scanner parallelism now deadline codec.blake3 cdc scan selfPath reads root = .ok r)
    {frame plain : OutChunk H → Bytes}
    (hok : ∀ e ∈ r.chunks, decodeChunk codec (frame e) e.hash e.size = some (plain e))
    (hcoll : ∀ e ∈ r.chunks, ∀ c ∈ root.chunks codec.blake3 cdc reads, codec.blake3 (plain e) = c.hash → plain e = c.data) :
    parse (r.chunks.flatMap plain) = some root.tree := by
  obtain ⟨w, hentries, -, ⟨l, hl, -, hframed⟩, -⟩ := packOneNar_ok h hr
  have hlisted := congrArg (map Prod.fst) hframed.entries
  rw [map_map, map_map, ← hentries] at hlisted
  have hdata : r.chunks.map plain = (root.chunks codec.blake3 cdc reads).map Nar.Chunk.data := by
    rw [← hl, map_map]
    refine ext_getElem (by simpa using congrArg length hlisted) fun i hi hi' => ?_
    rw [length_map] at hi hi'
    have he := hok r.chunks[i] (getElem_mem hi)
    simp only [decodeChunk, Option.filter_eq_some_iff, decide_eq_true_eq] at he
    have hkey := getElem_of_eq hlisted (by rwa [length_map])
    simp only [getElem_map, Function.comp] at hkey ⊢
    exact hcoll _ (getElem_mem hi) _ (hl ▸ mem_map_of_mem (getElem_mem hi')) (he.2.2.trans hkey)
  rw [flatMap_def, hdata, ← flatMap_def, chunks_data _ cdc h, parse_nar (tree_canonical root h)]

def link : Node := .symlink (ascii "a")

theorem recipe_authenticates_tree_link : ∃ r : NarPackResult ℕ Unit,
    parse (r.chunks.flatMap fun _ => link.tree.nar) = some link.tree := by
  have hpack : (packOneNar some (⟨fun s _ => s, fun _ => []⟩ : Scanner Unit Unit) (fun _ => 4) (fun _ => 0) 1
      plainCodec.blake3 bytewise none none (fun _ _ => 1) link).toOption.any (fun r => ∀ e ∈ r.chunks,
        decodeChunk plainCodec link.tree.nar e.hash e.size = some link.tree.nar) := by decide +kernel
  unfold Except.toOption at hpack
  split at hpack
  next r hr =>
    have hok := of_decide_eq_true hpack
    exact ⟨r, recipe_authenticates_tree (by simp [link, WellFormed, ascii]) hr hok fun _ _ => by decide +kernel⟩
  next => cases hpack

end

end Tribuchet.Outputs
