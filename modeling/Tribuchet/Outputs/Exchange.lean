import Tribuchet.Outputs.Delivery

/-! One job, its replay buffer and any number of attach clients that submit the same
request. Clients subscribe at any moment and read at any speed. The events of all dispatch
attempts share the buffer; the invariant says, attempt by attempt, how far the transfer of
each path is in what was published. -/

namespace Tribuchet.Outputs

open ByteStrings Staging Runs List Option

variable {H T C : Type} [DecidableEq H] [DecidableEq C]

structure State (H T C : Type) where
  job : Job H
  replay : Replay Event C
  clients : C → Option (Attempt T)

def State.initial : State H T C := ⟨.initial, .empty, fun _ => none⟩

inductive Action (H T C : Type)
  | job (m : Move H) (stalled : List C)
  | subscribe (c : C) (disk : String → Content T)
  | receive (c : C) (broken : Bool)
  | ended (c : C)
  | severed (c : C) (code : Code)

def Replay.apply (r : Replay Event C) (stalled : List C) : Effect → Replay Event C
  | .nothing => r
  | .publish e => r.publish Event.size e stalled
  | .close => r.finish

namespace State

def setClient (s : State H T C) (c : C) (replay : Replay Event C) (a : Attempt T) : State H T C :=
  { s with
    replay := if a.outcome.isSome then replay.hangUp c else replay
    clients := Function.update s.clients c (some a) }

def running (s : State H T C) (c : C) : Option (Attempt T) :=
  (s.clients c).filter fun a => a.outcome.isNone

end State

def step (codec : Codec H T) (requested : List String) (s : State H T C) :
    Action H T C → Option (State H T C)
  | .job m stalled => (s.job.step codec requested m).map fun (j, effect) =>
      { s with job := j, replay := s.replay.apply stalled effect }
  | .subscribe c disk =>
    if (s.clients c).isSome then none
    else some { s with
      replay := s.replay.subscribe Event.verdict c
      clients := Function.update s.clients c (some (.start disk)) }
  | .receive c broken =>
    match s.running c, s.replay.take c with
    | some a, some (.ok e, replay) => some (s.setClient c replay (a.handleEvent codec requested e broken))
    | some a, some (.error code, replay) => some (s.setClient c replay (a.handleStatus code))
    | _, _ => none
  | .ended c =>
    match s.running c with
    | some a => if s.replay.ended c then some (s.setClient c s.replay a.handleEnd) else none
    | none => none
  | .severed c code =>
    match s.running c with
    | some a => some (s.setClient c s.replay (a.handleStatus code))
    | none => none

def system (codec : Codec H T) (requested : List String) : System (State H T C) (Action H T C) where
  init s := s = .initial
  step := step codec requested

/-! ### What the chunks of a transfer are -/

/-- The chunks are of one attempt and decompress to plaintexts that match the recipe. -/
structure Carries (codec : Codec H T) (attempt : ℕ) (recipe : Recipe H) (chunks : List Chunk) : Prop where
  attempt : ∀ c ∈ chunks, c.attempt = attempt
  plain : ∃ raws, Forall₂ (fun raw e => raw.length = e.2 ∧ codec.blake3 raw = e.1) raws recipe ∧
    codec.decompress (chunks.map Chunk.zstd).flatten = some raws.flatten

variable {codec : Codec H T} {attempt size : ℕ} {recipe : Recipe H} {chunks : List Chunk}
variable {frame raw : Bytes} {hash : H} {needed needed' : List H} {supply : Supply H}

omit [DecidableEq H] in
theorem Carries.nil : Carries codec attempt [] [] where
  attempt := by simp
  plain := ⟨[], .nil, codec.decompress_nil⟩

theorem decodeChunk_eq_some (h : decodeChunk codec frame hash size = some raw) :
    codec.decompress frame = some raw ∧ raw.length = size ∧ codec.blake3 raw = hash := by
  unfold decodeChunk at h
  obtain ⟨hd, hc⟩ := filter_eq_some_iff.mp h
  exact ⟨hd, of_decide_eq_true hc⟩

theorem Carries.snoc (h : Carries codec attempt recipe chunks) (hd : decodeChunk codec frame hash size = some raw) :
    Carries codec attempt (recipe ++ [(hash, size)]) (sendOn chunks ⟨frame, attempt⟩) := by
  obtain ⟨hframe, hsize, hhash⟩ := decodeChunk_eq_some hd
  obtain ⟨raws, hraws, hplain⟩ := h.plain
  have hmatch := rel_append hraws (.cons ⟨hsize, hhash⟩ .nil : Forall₂ _ [raw] [(hash, size)])
  unfold sendOn
  split_ifs with hempty
  · refine ⟨h.attempt, raws ++ [raw], hmatch, ?_⟩
    have hnil : raw = [] := by
      have hframe : codec.decompress [] = some raw := hempty ▸ hframe
      rw [codec.decompress_nil] at hframe
      exact (some.inj hframe).symm
    simpa [hnil] using hplain
  · refine ⟨fun c hc => ?_, raws ++ [raw], hmatch, ?_⟩
    · rcases mem_append.mp hc with hc | hc
      · exact h.attempt c hc
      · rw [mem_singleton.mp hc]
    · simpa using codec.decompress_append hplain hframe

theorem get_decodes (h : get codec needed hash size supply = .ok (frame, needed')) :
    ∃ raw, decodeChunk codec frame hash size = some raw := by
  have hsome : ∀ f, ¬(decodeChunk codec f hash size).isNone = true →
      ∃ raw, decodeChunk codec f hash size = some raw := by
    intro f hf
    rw [isNone_iff_eq_none] at hf
    exact ne_none_iff_exists'.mp hf
  unfold get at h
  split at h
  · split at h
    · cases h
    · split_ifs at h with hd
      cases h
      exact hsome _ hd
  · split at h
    · cases h
    · split_ifs at h with hd
      cases h
      exact hsome _ hd

/-! ### The published events -/

def Receiving (path : String) (log : List Event) : Prop := ∃ chunks, transfer path log = .receiving chunks

/-- The transfer of an output is complete, with the chunks this attempt published. -/
def Arrived (codec : Codec H T) (attempt : ℕ) (log : List Event) (a : Announced H) : Prop :=
  ∃ chunks, transfer a.storePath log = .complete chunks ∧ Carries codec attempt a.recipe chunks

/-- The worker has announced exactly the requested outputs, each once. -/
structure Exactly (requested : List String) (announced : List (Announced H)) : Prop where
  nodup : (announced.map Announced.storePath).Nodup
  mem : ∀ path, path ∈ announced.map Announced.storePath ↔ path ∈ requested

/-- The delivery is at its first output, after those that have arrived. -/
inductive Underway (codec : Codec H T) (attempt : ℕ) (log : List Event) :
    List (Announced H) → List (Announced H) → Prop
  | between {before : List (Announced H)} :
    (∀ a ∈ before, Arrived codec attempt log a) → (∀ path, ¬Receiving path log) →
      Underway codec attempt log before []
  | within {before more : List (Announced H)} {path : String} {sent recipe : Recipe H} :
    (∀ a ∈ before, Arrived codec attempt log a) →
      Carries codec attempt sent (transfer path log).chunks → (∀ p, Receiving p log → p = path) →
      Underway codec attempt log (before ++ ⟨path, sent ++ recipe⟩ :: more) (⟨path, recipe⟩ :: more)

variable (codec) in
def Published (requested : List String) (j : Job H) (log : List Event) : Prop :=
  match j.phase with
  | .queued | .staging | .building => .exitCode 0 ∉ log ∧ ∀ path, ¬Receiving path log
  | .delivering d => .exitCode 0 ∉ log ∧ Exactly requested j.announced ∧
      Underway codec j.attempts log j.announced d.outputs
  | .broken _ _ => .exitCode 0 ∉ log ∧ ∀ path, Receiving path log → path ∈ requested
  | .requeuing rest => .exitCode 0 ∉ log ∧ ∀ path, Receiving path log → path ∈ rest
  | .verdict code => .exitCode 0 ∉ log ∧
      (code = 0 → Exactly requested j.announced ∧ ∀ a ∈ j.announced, Arrived codec j.attempts log a)
  | .failing _ => .exitCode 0 ∉ log
  | .concluded | .finished => ∀ l r, log = l ++ .exitCode 0 :: r → r = [] ∧
      Exactly requested j.announced ∧ ∀ a ∈ j.announced, Arrived codec j.attempts l a

def Effect.events : Effect → List Event
  | .publish e => [e]
  | .nothing | .close => []

end Tribuchet.Outputs
