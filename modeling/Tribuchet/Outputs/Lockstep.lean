import Tribuchet.Outputs.Transfer

/-! The worker and the hub walk the recipes of a result in lockstep. Both take from the set of
needed chunks each hash where it first occurs; the chunks in the channel are those the worker is
ahead. What the hub does not take from the channel it has pinned in the cache. -/

namespace Tribuchet.Outputs.Transfer

open ByteStrings Hoare Runs Staging List Option
open ChunkStore (Hash FrameRef)

/-! ### The order -/

/-- The hashes that a walk takes from a set: each once, where it first occurs. -/
def firsts : Finset Hash → List Hash → List Hash
  | _, [] => []
  | needed, hash :: rest => if hash ∈ needed then hash :: firsts (needed.erase hash) rest else firsts needed rest

def Sending.hashes (w : Sending) : List Hash := w.files.flatMap fun p => p.chunks.map OutChunk.hash

theorem decompress_of_decodeChunk {H T : Type} [DecidableEq H] {codec : Codec H T} {frame raw : Bytes} {hash : H} {size : ℕ}
    (h : decodeChunk codec frame hash size = some raw) :
    codec.decompress frame = some raw ∧ codec.blake3 raw = hash ∧ raw.length = size := by
  obtain ⟨hraw, hchecks⟩ := filter_eq_some_iff.mp h
  rw [decide_eq_true_iff] at hchecks
  exact ⟨hraw, hchecks.2, hchecks.1⟩

theorem length_of_readExact {file frame : Bytes} {off len : ℕ} (h : readExact file off len = some frame) : frame.length = len := by
  unfold readExact at h
  split_ifs at h with hle
  cases h
  rw [slice, length_take, length_drop]
  omega

section

variable {T : Type} (codec : Codec Hash T) (plain : Hash → Bytes)

structure Sending.Honest (w : Sending) : Prop where
  files : ∀ p ∈ w.files, p.Honest codec plain
  needed : ∀ hash ∈ w.needed, hash ∈ w.hashes

/-- The hub takes these hashes next: the first ones are in the channel, the others the worker is
going to send, and then the end. -/
inductive Lockstep : List Hash → List (WorkerMsg Hash) → Option Sending → Prop
  | arrived {hash frame hashes channel sending} : codec.decompress frame = some (plain hash) → frame.length < 2 ^ 32 →
      Lockstep hashes channel sending → Lockstep (hash :: hashes) (.chunk hash frame false :: channel) sending
  | working {w} : w.Honest codec plain → Lockstep (firsts w.needed w.hashes) [] (some w)
  | ended : Lockstep [] [.chunk (.ofSlice []) [] true] none

variable {codec plain} {w w' : Sending} {hashes : List Hash} {channel more : List (WorkerMsg Hash)}
variable {m : WorkerMsg Hash} {sending sending' : Option Sending}

theorem Sending.Honest.turn (h : w.Honest codec plain) :
    (∃ w', w.turn = .goOn none w' ∧ Lockstep codec plain (firsts w.needed w.hashes) [] (some w')) ∨
    (∃ m w', w.turn = .goOn (some m) w' ∧ Lockstep codec plain (firsts w.needed w.hashes) [m] (some w')) ∨
    w.turn = .finished ∧ firsts w.needed w.hashes = [] := by
  obtain ⟨files, needed⟩ := w
  obtain ⟨hfiles, hneeded⟩ := h
  cases files with
  | nil =>
    have hempty : needed = ∅ := Finset.eq_empty_of_forall_notMem fun hash hh => by cases hneeded hash hh
    exact .inr (.inr ⟨by simp [Sending.turn, hempty], rfl⟩)
  | cons p files =>
    obtain ⟨path, file, chunks⟩ := p
    obtain ⟨hp, hothers⟩ := forall_mem_cons.mp hfiles
    cases chunks with
    | nil => exact .inl ⟨⟨files, needed⟩, rfl, .working (w := ⟨files, needed⟩) ⟨hothers, hneeded⟩⟩
    | cons c chunks =>
      obtain ⟨⟨hlen, frame, hread, hdecode⟩, hchunks⟩ := forall_mem_cons.mp hp
      have hrest : ∀ p ∈ (⟨path, file, chunks⟩ : Packed) :: files, p.Honest codec plain :=
        forall_mem_cons.mpr ⟨hchunks, hothers⟩
      have hhashes : (Sending.mk (⟨path, file, c :: chunks⟩ :: files) needed).hashes =
        c.hash :: (Sending.mk (⟨path, file, chunks⟩ :: files) needed).hashes := rfl
      rw [hhashes] at hneeded ⊢
      by_cases hc : c.hash ∈ needed
      · refine .inr (.inl ⟨_, _, by simp only [Sending.turn, if_pos hc, hread]; rfl, ?_⟩)
        rw [firsts, if_pos hc]
        refine .arrived (decompress_of_decodeChunk hdecode).1 (by rw [length_of_readExact hread]; exact hlen) ?_
        refine .working (w := ⟨⟨path, file, chunks⟩ :: files, needed.erase c.hash⟩) ⟨hrest, fun hash hh => ?_⟩
        obtain ⟨hne, hh⟩ := Finset.mem_erase.mp hh
        exact (mem_cons.mp (hneeded hash hh)).resolve_left hne
      · refine .inl ⟨_, by simp only [Sending.turn, if_neg hc]; rfl, ?_⟩
        rw [firsts, if_neg hc]
        refine .working (w := ⟨⟨path, file, chunks⟩ :: files, needed⟩) ⟨hrest, fun hash hh => ?_⟩
        refine (mem_cons.mp (hneeded hash hh)).resolve_left ?_
        rintro rfl
        exact hc hh

theorem Lockstep.extend (h : Lockstep codec plain hashes channel (some w))
    (hw : w.Honest codec plain → Lockstep codec plain (firsts w.needed w.hashes) more sending') :
    Lockstep codec plain hashes (channel ++ more) sending' := by
  generalize hs : some w = sending at h
  induction h with
  | arrived hframe hlen _ ih => exact .arrived hframe hlen (ih hs)
  | working h =>
    cases hs
    exact hw h
  | ended => cases hs

theorem Lockstep.honest (h : Lockstep codec plain hashes channel (some w)) : w.Honest codec plain := by
  generalize hs : some w = sending at h
  induction h with
  | arrived _ _ _ ih => exact ih hs
  | working h =>
    cases hs
    exact h
  | ended => cases hs

theorem Lockstep.take (h : Lockstep codec plain hashes (m :: channel) sending) :
    (∃ hash frame rest, hashes = hash :: rest ∧ m = .chunk hash frame false ∧ codec.decompress frame = some (plain hash) ∧
      frame.length < 2 ^ 32 ∧ Lockstep codec plain rest channel sending) ∨
    hashes = [] ∧ m = .chunk (.ofSlice []) [] true ∧ channel = [] ∧ sending = none := by
  cases h with
  | arrived hframe hlen h => exact .inl ⟨_, _, _, rfl, rfl, hframe, hlen, h⟩
  | ended => exact .inr ⟨rfl, rfl, rfl, rfl⟩

theorem Lockstep.waiting (h : Lockstep codec plain hashes [] sending) : ∃ w, sending = some w := by
  cases h with
  | working h => exact ⟨_, rfl⟩

end

/-! ### The delivery -/

inductive Shown
  | chunk (path : String) (raw : Option Bytes)
  | done (path : String)
  | added (path : String)
  | other
  deriving DecidableEq

section

variable {H T : Type} (codec : Codec H T) (plain : H → Bytes) (attempt : ℕ)

def shown : Event → Shown
  | .output path c false => .chunk path (codec.decompress c.zstd)
  | .output path _ true => .done path
  | .addedPath path => .added path
  | _ => .other

/-- What a result is to show: the plaintexts of every output in the order of its recipe, then the extras. -/
def script (outputs extras : List (Announced H)) : List Shown :=
  outputs.flatMap (fun a => a.recipe.map (fun e => .chunk a.storePath (some (plain e.1))) ++ [.done a.storePath]) ++
    extras.map fun a => .added a.storePath

def left (d : Delivery H) : Recipe H := (d.outputs ++ d.extras).flatMap Announced.recipe

def Accepted (e : H × ℕ) : Prop := codec.blake3 (plain e.1) = e.1 ∧ (plain e.1).length = e.2

/-- The delivery goes on with these entries and this set, and has shown what the script had next. -/
structure Advances (d : Delivery H) (rest : Recipe H) (needed : List H) (e : Option Event) (d' : Delivery H) : Prop where
  left : left d' = rest
  needed : d'.needed = needed
  shown : e.toList.map (shown codec) ++ script plain d'.outputs d'.extras = script plain d.outputs d.extras

variable [DecidableEq H] {codec plain attempt} {d : Delivery H} {hash : H} {size : ℕ} {frame : Bytes} {needed : List H}

variable (h : Accepted codec plain (hash, size))

include h

variable (hframe : codec.decompress frame = some (plain hash))

include hframe

theorem Accepted.decode : decodeChunk codec frame hash size = some (plain hash) := by
  have hdecode := decodeChunk_frame hframe
  rwa [h.1, h.2] at hdecode

theorem get_received (hmem : hash ∈ needed) (hnodup : needed.Nodup) : ∃ rest,
      get codec needed hash size ⟨some (.chunk hash frame false), none, true, true⟩ = .ok (frame, rest) ∧
        rest.Nodup ∧ ∀ x, x ∈ rest ↔ x ≠ hash ∧ x ∈ needed := by
  refine ⟨needed.erase hash, ?_, hnodup.erase hash, fun x => hnodup.mem_erase_iff⟩
  simp [get, hmem, receive, h.decode hframe]

omit hframe

omit h

variable (codec plain attempt) in
theorem turn_chunk (hn : nextHash d = some hash) : ∃ size rest, left d = (hash, size) :: rest ∧
    ∀ (s : Supply H) (frame : Bytes) (needed : List H), s.importing = true →
      get codec d.needed hash size s = .ok (frame, needed) → codec.decompress frame = some (plain hash) →
      ∃ e d', d.turn codec attempt s = .goOn e d' ∧ Advances codec plain d rest needed e d' := by
  obtain ⟨outputs, extras, old⟩ := d
  cases outputs with
  | cons a outputs =>
    obtain ⟨path, recipe⟩ := a
    cases recipe with
    | nil => cases hn
    | cons entry recipe =>
      obtain ⟨h, size⟩ := entry
      obtain rfl : h = hash := some_inj.mp hn
      refine ⟨size, _, rfl, fun s frame needed _ hget hframe => ?_⟩
      refine ⟨_, _, by simp only [Delivery.turn, hget]; rfl, rfl, rfl, ?_⟩
      simp [script, Transfer.shown, hframe]
  | nil =>
    cases extras with
    | nil => cases hn
    | cons a extras =>
      obtain ⟨path, recipe⟩ := a
      cases recipe with
      | nil => cases hn
      | cons entry recipe =>
        obtain ⟨h, size⟩ := entry
        obtain rfl : h = hash := some_inj.mp hn
        refine ⟨size, _, rfl, fun s frame needed himport hget _ => ?_⟩
        refine ⟨_, _, by simp only [Delivery.turn, hget, himport, if_true]; rfl, rfl, rfl, rfl⟩

variable (codec plain attempt) in
theorem turn_path (hn : nextHash d = none) (hd : ¬ (d.outputs = [] ∧ d.extras = [])) (imported : Bool) :
    (∃ e d', d.turn codec attempt ⟨none, none, true, imported⟩ = .goOn e d' ∧
      Advances codec plain d (left d) d.needed e d') ∨
    d.turn codec attempt ⟨none, none, true, imported⟩ = .failed (.other "registering extra") := by
  obtain ⟨outputs, extras, old⟩ := d
  cases outputs with
  | cons a outputs =>
    obtain ⟨path, recipe⟩ := a
    cases recipe with
    | cons entry recipe => cases hn
    | nil => exact .inl ⟨_, _, rfl, rfl, rfl, rfl⟩
  | nil =>
    cases extras with
    | nil => exact absurd ⟨rfl, rfl⟩ hd
    | cons a extras =>
      obtain ⟨path, recipe⟩ := a
      cases recipe with
      | cons entry recipe => cases hn
      | nil =>
        cases imported with
        | true => exact .inl ⟨_, _, rfl, rfl, rfl, rfl⟩
        | false => exact .inr rfl

end

end Tribuchet.Outputs.Transfer
