import Tribuchet.Staging.Preserved

/-! Neither side of the exchange ever sees the other break the protocol, and every
`Need` that carries hashes is accounted for until its answer has been taken. -/

set_option linter.unusedSectionVars false

namespace Tribuchet.Staging

open Hoare Runs List Option WorkerMsg

variable {B P H : Type} [DecidableEq B] [DecidableEq P] [DecidableEq H]
variable {cat : Catalog P H} {s : State B P H} {b : B}

def Error.isProtocol : Error P → Bool
  | .unrequestedPath _ | .lacksPathInfo _ | .malformedRecipe _ | .noRecipe _ | .noRemainingCount | .eofWithoutNeed
  | .outsideClosure .. | .notPending _ | .unfinishedImport _ | .panicked | .outOfFuel => true
  | .narLimit _ | .oversizedRecipe _ | .chunksKeepMissing | .importFailed _ | .cancelled | .setupFailed _ => false

theorem Excused.not_isProtocol {e : Error P} (h : Excused e) : e.isProtocol = false := by
  cases e <;> first | rfl | exact absurd h id

/-! ### No protocol error -/

/-- No relay ends with an error, and no handler of the worker returns one that is the
exchange's fault. -/
theorem no_protocol_error (h : (exchange B cat).Reachable s) :
    s.hubErrors = [] ∧ ∀ e ∈ s.workerErrors, e.isProtocol = false :=
  ⟨(inv_reachable h).hubErrors, fun e he => ((inv_reachable h).workerErrors e he).not_isProtocol⟩

/-- Three paths, each with one chunk of its own; `1` refers to `0` and to itself, `2` to
`1`. -/
def chain : Catalog (Fin 3) (Fin 3) where
  info p := ⟨if p = 0 then [] else if p = 1 then [0, 1] else [1], 1⟩
  recipe p := [(p, 1)]

/-- Two builds share the first two paths: the second waits on the claims of the first,
which imports one, fails to import the other and is given up, so that the second
takes over. -/
def takeover : List (Action (Fin 2) (Fin 3) (Fin 3)) :=
  let recv b := .recv b ⟨none, none⟩ ∅
  let route b := .route b fun _ => []
  let serve b := .serve b fun _ => []
  [.dispatch 0 [0, 1] [1] 0, recv 0, recv 0, route 0, .dispatch 1 [0, 1, 2] [0] 1, recv 1, recv 1,
    serve 0, serve 0, recv 0, recv 0, .computed 0 0, .flush 0, recv 0, route 0, serve 0, recv 0, serve 0, recv 0,
    .importDone 0 0 ⟨none, []⟩, .wake, .fire 0, .wake, .importDone 0 1 ⟨some "corrupt", [1]⟩, .wake,
    .fail 0 "no space", .fire 0, .wake, route 1, route 1]

theorem no_protocol_error_takeover : ∃ s, (exchange (Fin 2) chain).Reachable s ∧ s.workerErrors.length = 1 ∧
    s.hubErrors = [] ∧ ∀ e ∈ s.workerErrors, e.isProtocol = false := by
  obtain ⟨s, hr, hlen⟩ := (exchange (Fin 2) chain).exists_reachable_of_exec (State.initial ∅ ∅) takeover
    (fun s => s.workerErrors.length = 1) ⟨∅, ∅, by decide, rfl⟩ (by decide +kernel)
  exact ⟨s, hr, hlen, no_protocol_error hr⟩

/-! ### Answers -/

/-- No `Need` with hashes waits for an answer, and no part of one is under way. -/
structure NoAnswer (r : Relay P H) (toWorker : List (HubMsg P H)) (toHub : List (WorkerMsg P H)) : Prop where
  needs : ∀ n, WorkerMsg.need n ∈ toHub → n.hashes = []
  queued : r.queued = []
  serving : r.serving = none
  frames : ∀ m ∈ toWorker, m.isChunk = false

theorem Link.noAnswer {x : ActiveBuild P H} {r : Relay P H} {rest : List (HubMsg P H)} {toHub : List (WorkerMsg P H)}
    (h : Link x r (.chunk .eof :: rest) toHub) (hg : RelayGood cat r (.chunk .eof :: rest) toHub)
    (hn : x.needsOutstanding = 1) : NoAnswer r rest toHub := by
  have hc := h.counted
  rw [hn, countP_cons_of_pos (by rfl)] at hc
  have hserving : r.serving = none := by
    by_contra hs
    have : r.serves = 1 := by rw [Relay.serves, if_pos (isSome_iff_ne_none.mpr hs)]
    omega
  refine ⟨?_, eq_nil_of_length_eq_zero (by omega), hserving, ?_⟩
  · intro n hm
    by_contra hne
    have : 0 < toHub.countP WorkerMsg.asks := countP_pos_iff.mpr ⟨_, hm, by simpa [WorkerMsg.asks] using hne⟩
    omega
  · apply no_chunk_of_finished
    · by_contra hu
      have := hg.pop.frames (by simpa using hu)
      simp [hserving] at this
    · omega

theorem feedChunk_eof_counts {x : ActiveBuild P H} {n : ℕ} (hn : x.needsOutstanding = n + 1)
    (h : ¬ (n = 0 ∧ x.chunks.remaining.keys ≠ [])) (store : Finset H) :
    exec (feedChunk store .eof) x = (.ok none, { x with needsOutstanding := n }) := by
  unfold feedChunk
  rw [exec_bind]
  simp only [show exec (get : BuildM P H _) x = (.ok x, x) from rfl, hn, exec_bind]
  change exec (if n = 0 ∧ x.chunks.remaining.keys ≠ [] then requestStuck store else pure none)
    { x with needsOutstanding := n } = _
  rw [if_neg h]
  rfl

/-- The counter of a build is exact, a path that waits on chunks has an answer to come,
and the chunks of stuck paths are requested again only when no answer is under way. -/
theorem needs_accounted (h : (exchange B cat).Reachable s) {x : ActiveBuild P H} (hx : s.worker.active b = some x) :
    ∃ r, s.relays b = some r ∧
      x.needsOutstanding = (s.toHub b).countP asks + r.queued.length + r.serves +
        (s.toWorker b).countP HubMsg.isEof ∧
      ((∃ p, p ∈ x.chunks.remaining) → 0 < x.needsOutstanding) ∧
      ∀ rest store, s.toWorker b = .chunk .eof :: rest →
        exec (feedChunk store .eof) x = (.ok none, { x with needsOutstanding := x.needsOutstanding - 1 }) ∨
          NoAnswer r rest (s.toHub b) := by
  have hinv := inv_reachable h
  obtain ⟨o, r, -, hr, hs, hl⟩ := hinv.builds b x hx
  have hgood := (hinv.relays b r hr).2
  refine ⟨r, hr, hl.counted, hs.expecting, ?_⟩
  intro rest store htw
  rw [htw] at hl hgood
  obtain ⟨n, hn⟩ : ∃ n, x.needsOutstanding = n + 1 := by
    have hc := hl.counted
    rw [countP_cons_of_pos (by rfl)] at hc
    exact ⟨x.needsOutstanding - 1, by omega⟩
  by_cases hlast : n = 0 ∧ x.chunks.remaining.keys ≠ []
  · right
    exact hl.noAnswer hgood (by omega)
  · left
    rw [feedChunk_eof_counts hn hlast, hn]
    rfl

theorem needs_accounted_takeover : ∃ s x, (exchange (Fin 2) chain).Reachable s ∧ s.worker.active 0 = some x ∧
    x.needsOutstanding = 1 ∧ ∃ r, s.relays 0 = some r ∧
      x.needsOutstanding = (s.toHub 0).countP asks + r.queued.length + r.serves +
        (s.toWorker 0).countP HubMsg.isEof ∧
      ((∃ p, p ∈ x.chunks.remaining) → 0 < x.needsOutstanding) ∧
      ∀ rest store, s.toWorker 0 = .chunk .eof :: rest →
        exec (feedChunk store .eof) x = (.ok none, { x with needsOutstanding := x.needsOutstanding - 1 }) ∨
          NoAnswer r rest (s.toHub 0) := by
  obtain ⟨s, hr, htest⟩ := (exchange (Fin 2) chain).exists_reachable_of_exec (State.initial ∅ ∅) (takeover.take 9)
    (fun s => (s.worker.active 0).map (·.needsOutstanding) = some 1) ⟨∅, ∅, by decide, rfl⟩ (by decide +kernel)
  obtain ⟨x, hx, hn⟩ := map_eq_some_iff.mp htest
  exact ⟨s, x, hr, hx, hn, needs_accounted hr hx⟩

/-! ### The chunk account -/

open ChunkStaging in
/-- `remaining` counts the hashes that a path waits for, and no list of waiters names a path twice. A
chunk completes exactly the paths that wait for it and nothing else, each once, and neither `ingest`
nor `reawait_stuck` panics. In every call of `await_missing` a hash of the recipe is requested iff the
store lacks it and nobody waits for it. -/
theorem chunk_account_exact {x : ActiveBuild P H} (h : (exchange B cat).Reachable s) (hx : s.worker.active b = some x) :
    (∀ p, x.chunks.remaining.lookup p =
      if waiting x.chunks.waiters p = 0 then none else some (waiting x.chunks.waiters p)) ∧
    (∀ hash, (waitersOf x.chunks.waiters hash).Nodup) ∧
    (∀ hash, Ends (ingest hash) x.chunks (fun ready c => c.Counted ∧ ready.Nodup ∧
      ∀ p, p ∈ ready ↔ p ∈ waitersOf x.chunks.waiters hash ∧ waiting x.chunks.waiters p = 1) fun _ _ => False) ∧
    (∀ store, Ends (reawaitStuck store) x.chunks (fun r c => c.Counted ∧ r.2.Nodup ∧
      ∀ p, p ∈ r.2 ↔ p ∈ x.chunks.remaining ∧ p ∉ c.remaining) fun _ _ => False) ∧
    ∀ (c : ChunkStaging P H) store path recipe, (c.Counted → (c.awaitMissing store path recipe).1.Counted) ∧
      (c.awaitMissing store path recipe).2.Nodup ∧ ∀ hash, hash ∈ (c.awaitMissing store path recipe).2 ↔
        hash ∈ recipe.hashes ∧ hash ∉ store ∧ waitersOf c.waiters hash = [] := by
  obtain ⟨o, r, -, -, hstaged, -⟩ := (inv_reachable h).builds b x hx
  have hgood := hstaged.good
  refine ⟨hgood.counted.remaining, hgood.counted.nodup_waitersOf, fun hash => ingest_ready hgood.counted hash, fun store => ?_,
    fun c store path recipe => ⟨fun hc => (awaited store path hc recipe).counted, need_awaitMissing store path c recipe⟩⟩
  refine (reawaitStuck_spec store fun p hp => (hgood.remaining p hp).2).imp fun r c hr => ?_
  refine ⟨hr.counted, hr.nodup, fun p => ⟨fun hp => ⟨(hr.split p).mpr (.inl hp), hr.apart p hp⟩, fun hp => ?_⟩⟩
  exact ((hr.split p).mp hp.1).resolve_right hp.2

theorem chunk_account_exact_takeover : ∃ s x, (exchange (Fin 2) chain).Reachable s ∧ s.worker.active 0 = some x ∧
    (∃ p, p ∈ x.chunks.remaining) ∧ ∀ hash, (ChunkStaging.waitersOf x.chunks.waiters hash).Nodup := by
  obtain ⟨s, hr, htest⟩ := (exchange (Fin 2) chain).exists_reachable_of_exec (State.initial ∅ ∅) (takeover.take 9)
    (fun s => (s.worker.active 0).map (·.chunks.remaining.keys.isEmpty) = some false) ⟨∅, ∅, by decide, rfl⟩ (by decide +kernel)
  obtain ⟨x, hx, hn⟩ := map_eq_some_iff.mp htest
  obtain ⟨p, hp⟩ := exists_mem_of_ne_nil _ (isEmpty_eq_false_iff.mp hn)
  exact ⟨s, x, hr, hx, ⟨p, AList.mem_keys.mp hp⟩, (chunk_account_exact hr hx).2.1⟩

/-! ### Claims and wakes -/

/-- The build has claimed the path, to request or to import it. -/
def Stages (s : State B P H) (b : B) (p : P) : Prop :=
  ∃ x, s.worker.active b = some x ∧ (p ∈ x.pending ∨ p ∈ x.imports)

/-- The registry has exactly the paths that some build stages, each by one build. Claims in it have not settled, and
a build waits for one of them or for one that has. -/
theorem claims_exact (h : (exchange B cat).Reachable s) :
    (∀ p, p ∈ s.worker.claims.map ↔ ∃ b, Stages s b p) ∧ (∀ b b' p, Stages s b p → Stages s b' p → b = b') ∧
    (∀ p ch, s.worker.claims.map.lookup p = some ch → s.worker.claims.settled ch = none) ∧
    ∀ b x p ch, s.worker.active b = some x → x.waits.lookup p = some ch →
      s.worker.claims.map.lookup p = some ch ∨ s.worker.claims.settled ch ≠ none := by
  have hinv := inv_reachable h
  have hown : ∀ b p, Stages s b p ↔ owns s.worker.active b p := by
    refine fun b p => exists_congr fun x => and_congr_right fun hx => ?_
    obtain ⟨o, r, -, -, hs, -⟩ := hinv.builds b x hx
    exact (hs.good.claimed p).symm
  simp only [hown]
  refine ⟨hinv.agree.owner, hinv.agree.exclusive, fun p ch hl => ?_, fun b x p ch hx hl => ?_⟩
  · rw [Claims.settled, (hinv.agree.running p ch hl).2]
  · refine (hinv.agree.waiting b p ch (by rw [waitsOn, hx]; exact hl)).2.imp_right fun hn => ?_
    unfold Claims.settled
    split <;> simp_all

theorem claims_exact_takeover : ∃ s ch, (exchange (Fin 2) chain).Reachable s ∧ s.worker.claims.map.lookup 1 = some ch ∧
    s.worker.claims.settled ch = none := by
  obtain ⟨s, hr, htest⟩ := (exchange (Fin 2) chain).exists_reachable_of_exec (State.initial ∅ ∅) (takeover.take 9)
    (fun s => (s.worker.claims.map.lookup 1).isSome) ⟨∅, ∅, by decide, rfl⟩ (by decide +kernel)
  obtain ⟨ch, hl⟩ := isSome_iff_exists.mp htest
  exact ⟨s, ch, hr, hl, (claims_exact hr).2.2.1 1 ch hl⟩

/-- One `Wake` is queued or watched for, for each path that a build waits on or whose import ended, and none for any
other; one manifest is asked for, computed or under way for each path that it has claimed without a recipe. -/
theorem one_wake_one_manifest (h : (exchange B cat).Reachable s) {x : ActiveBuild P H} (hx : s.worker.active b = some x) :
    (∀ p, s.worker.wakes.count (b, p) + s.worker.claims.watching b p =
      if p ∈ x.waits ∨ (x.imports.lookup p).join.isSome then 1 else 0) ∧
    ∃ r, s.relays b = some r ∧ (∀ p, (r.requests (s.toHub b)).count p + (if p ∈ r.computing then 1 else 0) +
      (s.toWorker b).countP (HubMsg.isManifest p) = if p ∈ x.pending ∧ p ∉ x.chunks.recipes then 1 else 0) ∧
    ∀ m, HubMsg.manifest m ∈ s.toWorker b → ∃ p ∈ r.sent, m = cat.manifest p := by
  have hinv := inv_reachable h
  obtain ⟨o, r, -, hr, hs, hl⟩ := hinv.builds b x hx
  exact ⟨hs.held.wakes, r, hr, hl.requested, (hinv.relays b r hr).2.manifests⟩

theorem one_wake_one_manifest_takeover : ∃ s x, (exchange (Fin 2) chain).Reachable s ∧ s.worker.active 1 = some x ∧
    1 ∈ x.waits ∧ s.worker.wakes.count (1, 1) + s.worker.claims.watching 1 1 = 1 := by
  obtain ⟨s, hr, htest⟩ := (exchange (Fin 2) chain).exists_reachable_of_exec (State.initial ∅ ∅) (takeover.take 9)
    (fun s => (s.worker.active 1).any fun x => decide (1 ∈ x.waits)) ⟨∅, ∅, by decide, rfl⟩ (by decide +kernel)
  obtain ⟨x, hx, hw⟩ := (any_eq_true _ _).mp htest
  have hw := of_decide_eq_true hw
  exact ⟨s, x, hr, hx, hw, ((one_wake_one_manifest hr hx).1 1).trans (if_pos (.inl hw))⟩

end Tribuchet.Staging
