import Tribuchet.Outputs.Published

/-! The outputs a successful client has on its disk. A client's transfers are where the
events it has taken lead them; the exit code 0 is published once and last, so a client that
takes it has taken everything, and each of its outputs is the tree announced by the worker
of the last attempt. -/

namespace Tribuchet.Outputs

open Staging Runs Function List Option Replay Attempt

variable {H T C : Type} {codec : Codec H T} {requested : List String}
variable {s s' : State H T C} {c : C} {a : Attempt T} {log l r : List Event}

/-- The tree at an output's path has as its NAR the concatenation of plaintexts that match
the announced recipe, and its unpack got chunks of one attempt only. -/
def Restored (codec : Codec H T) (attempt : ℕ) (o : Announced H) (content : Content T) : Prop :=
  ∃ chunks tree raws, content = .tree chunks tree ∧ (∀ c ∈ chunks, c.attempt = attempt) ∧
    Forall₂ (fun raw e => raw.length = e.2 ∧ codec.blake3 raw = e.1) raws o.recipe ∧
    codec.nar tree = raws.flatten

theorem Arrived.restored {attempt : ℕ} {o : Announced H} (h : Arrived codec attempt log o)
    (hs : a.Shows codec o.storePath (transfer o.storePath log)) : Restored codec attempt o (a.disk o.storePath) := by
  obtain ⟨chunks, ht, hc⟩ := h
  rw [ht] at hs
  obtain ⟨-, tree, hu, hdisk⟩ := hs
  obtain ⟨raws, hmatch, hplain⟩ := hc.plain
  rw [Codec.unpack, hplain] at hu
  exact ⟨chunks, tree, raws, hdisk, hc.attempt, hmatch, codec.restore_iff.mp hu⟩

/-- The job is over and a client's disk has the outputs of its last attempt. -/
structure Delivered (codec : Codec H T) (requested : List String) (j : Job H) (a : Attempt T) : Prop where
  ended : j.phase = .concluded ∨ j.phase = .finished
  exactly : Exactly requested j.announced
  restored : ∀ o ∈ j.announced, Restored codec j.attempts o (a.disk o.storePath)

structure Inv (codec : Codec H T) (requested : List String) (s : State H T C) : Prop where
  faithful : s.replay.Faithful
  published : Published codec requested s.job s.replay.published
  fresh : ∀ c, s.clients c = none → s.replay.received c = [] ∧ c ∉ s.replay.subs
  shows : ∀ c a, s.clients c = some a → a.outcome = none →
    ∀ path, a.Shows codec path (transfer path (s.replay.received c))
  delivered : ∀ c a, s.clients c = some a → a.outcome = some (.done 0) → Delivered codec requested s.job a

theorem inv_initial : Inv codec requested (.initial : State H T C) where
  faithful := faithful_empty
  published := ⟨by simp [State.initial, empty], fun path ⟨chunks, h⟩ => by cases h⟩
  fresh _ _ := ⟨rfl, by simp [State.initial, empty]⟩
  shows _ _ h := by cases h
  delivered _ _ h := by cases h

theorem Published.ended {j : Job H} (hp : Published codec requested j log) (hl : log = l ++ .exitCode 0 :: r) :
    (j.phase = .concluded ∨ j.phase = .finished) ∧ Exactly requested j.announced ∧
      ∀ o ∈ j.announced, Arrived codec j.attempts l o := by
  have hm : Event.exitCode 0 ∈ log := by
    rw [hl]
    simp
  unfold Published at hp
  split at hp
  case h_9 => exact ⟨.inl ‹_›, (hp l r hl).2⟩
  case h_10 => exact ⟨.inr ‹_›, (hp l r hl).2⟩
  case h_8 => exact absurd hm hp
  all_goals exact absurd hm hp.1

/-! ### The steps of the hub -/

variable [DecidableEq C]

omit [DecidableEq C] in
theorem Delivered.step [DecidableEq H] {j j' : Job H} {m : Move H} {effect : Effect} (h : Delivered codec requested j a)
    (hs : j.step codec requested m = some (j', effect)) : Delivered codec requested j' a := by
  obtain ⟨phase, attempts, announced⟩ := j
  unfold Job.step at hs
  rcases h.ended with ho | ho
  · cases ho
    cases m <;> cases hs
    exact ⟨.inr rfl, h.exactly, h.restored⟩
  · cases ho
    cases m <;> cases hs

theorem apply_replay (r : Replay Event C) (stalled : List C) (effect : Effect) :
    (r.Faithful → (r.apply stalled effect).Faithful) ∧ (r.apply stalled effect).received = r.received ∧
      (r.apply stalled effect).published = r.published ++ effect.events ∧
      ∀ c, c ∈ (r.apply stalled effect).subs → c ∈ r.subs := by
  cases effect with
  | nothing => exact ⟨id, rfl, (append_nil _).symm, fun _ => id⟩
  | close => exact ⟨.finish, rfl, (append_nil _).symm, nofun⟩
  | publish e =>
    refine ⟨.publish, publish_received, publish_published, fun c h => ?_⟩
    rw [apply, publish_subs] at h
    exact mem_subs_of_reached h

theorem Inv.jobStep [DecidableEq H] (h : Inv codec requested s) {m : Move H} {j : Job H} {effect : Effect}
    (hs : s.job.step codec requested m = some (j, effect)) (stalled : List C) :
    Inv codec requested { s with job := j, replay := s.replay.apply stalled effect } := by
  obtain ⟨hf, hr, hp, hsubs⟩ := apply_replay s.replay stalled effect
  refine ⟨hf h.faithful, ?_, fun c hc => ?_, fun c a hc ha path => ?_, fun c a hc ha => ?_⟩
  · show Published codec requested j (s.replay.apply stalled effect).published
    rw [hp]
    exact h.published.step hs
  · obtain ⟨hn, hm⟩ := h.fresh c hc
    exact ⟨(congrFun hr c).trans hn, fun hmem => hm (hsubs c hmem)⟩
  · show a.Shows codec path (transfer path ((s.replay.apply stalled effect).received c))
    rw [hr]
    exact h.shows c a hc ha path
  · exact (h.delivered c a hc ha).step hs

/-! ### The steps of a client -/

theorem Inv.subscribe (h : Inv codec requested s) (hc : s.clients c = none) (disk : String → Content T) :
    Inv codec requested { s with
      replay := s.replay.subscribe Event.verdict c
      clients := update s.clients c (some (.start disk)) } := by
  obtain ⟨hr, hm⟩ := h.fresh c hc
  refine ⟨h.faithful.subscribe hr hm, h.published, fun c' hc' => ?_, fun c' a hc' ha path => ?_,
    fun c' a hc' ha => ?_⟩
  · by_cases hcc : c' = c
    · subst hcc
      simp at hc'
    · obtain ⟨hr, hm⟩ := h.fresh c' (by simpa [hcc] using hc')
      refine ⟨hr, fun hmem => hm ?_⟩
      have hmem : c' ∈ if s.replay.overflowed || s.replay.done then s.replay.subs else s.replay.subs ++ [c] :=
        hmem
      split_ifs at hmem
      · exact hmem
      · simpa [hcc] using hmem
  · show a.Shows codec path (transfer path (s.replay.received c'))
    by_cases hcc : c' = c
    · subst hcc
      rw [hr]
      have : some (start disk) = some a := by simpa using hc'
      cases this
      exact AList.lookup_empty path
    · exact h.shows c' a (by simpa [hcc] using hc') ha path
  · by_cases hcc : c' = c
    · subst hcc
      have : some (start disk) = some a := by simpa using hc'
      cases this
      cases ha
    · exact h.delivered c' a (by simpa [hcc] using hc') ha

variable {replay : Replay Event C}

variable (h : Inv codec requested s)

include h

theorem Inv.setClient (hf : replay.Faithful)
    (hp : replay.published = s.replay.published) (hsubs : replay.subs = s.replay.subs)
    (hr : ∀ c', c' ≠ c → replay.received c' = s.replay.received c')
    (hs : a.outcome = none → ∀ path, a.Shows codec path (transfer path (replay.received c)))
    (hd : a.outcome = some (.done 0) → Delivered codec requested s.job a) :
    Inv codec requested (s.setClient c replay a) := by
  have hreplay : (s.setClient c replay a).replay.Faithful ∧
      (s.setClient c replay a).replay.received = replay.received ∧
      (s.setClient c replay a).replay.published = replay.published ∧
      (s.setClient c replay a).replay.subs = replay.subs := by
    unfold State.setClient
    dsimp only
    split_ifs
    · exact ⟨hf.hangUp, rfl, rfl, rfl⟩
    · exact ⟨hf, rfl, rfl, rfl⟩
  obtain ⟨hfaithful, hreceived, hpublished, hsubs'⟩ := hreplay
  have hclients : (s.setClient c replay a).clients = update s.clients c (some a) := rfl
  refine ⟨hfaithful, ?_, fun c' hc' => ?_, fun c' b hc' hb path => ?_, fun c' b hc' hb => ?_⟩
  · rw [hpublished, hp]
    exact h.published
  · rw [hclients] at hc'
    by_cases hcc : c' = c
    · subst hcc
      simp at hc'
    · rw [hreceived, hsubs', hsubs, hr c' hcc]
      exact h.fresh c' (by simpa [hcc] using hc')
  · rw [hclients] at hc'
    rw [hreceived]
    by_cases hcc : c' = c
    · subst hcc
      have : some a = some b := by simpa using hc'
      cases this
      exact hs hb path
    · rw [hr c' hcc]
      exact h.shows c' b (by simpa [hcc] using hc') hb path
  · rw [hclients] at hc'
    by_cases hcc : c' = c
    · subst hcc
      have : some a = some b := by simpa using hc'
      cases this
      exact hd hb
    · exact h.delivered c' b (by simpa [hcc] using hc') hb

omit h in
omit [DecidableEq C] in
theorem running_eq_some (h : s.running c = some a) : s.clients c = some a ∧ a.outcome = none := by
  obtain ⟨hc, ho⟩ := filter_eq_some_iff.mp h
  exact ⟨hc, isNone_iff_eq_none.mp ho⟩

theorem Inv.giveUp (hf : replay.Faithful)
    (hp : replay.published = s.replay.published) (hsubs : replay.subs = s.replay.subs)
    (hr : ∀ c', c' ≠ c → replay.received c' = s.replay.received c') (hsome : a.outcome ≠ none)
    (hdone : a.outcome ≠ some (.done 0)) : Inv codec requested (s.setClient c replay a) :=
  h.setClient hf hp hsubs hr (fun ho => absurd ho hsome) fun ho => absurd ho hdone

omit h in
theorem handleStatus_outcome (a : Attempt T) (code : Code) :
    (a.handleStatus code).outcome ≠ none ∧ (a.handleStatus code).outcome ≠ some (.done 0) := by
  unfold handleStatus
  dsimp only
  split_ifs <;> simp

theorem Inv.handleEvent {e : Event} {broken : Bool}
    (ha : s.running c = some a) (ht : s.replay.take c = some (.ok e, replay)) :
    Inv codec requested (s.setClient c replay (a.handleEvent codec requested e broken)) := by
  obtain ⟨hc, ho⟩ := running_eq_some ha
  have hf := h.faithful.take ht
  obtain ⟨items, hstream, rfl⟩ := take_cases ht
  have htaken : update s.replay.received c (s.replay.received c ++ eventsOf [.ok e]) c =
      s.replay.received c ++ [e] := update_self _ _ _
  refine h.setClient hf rfl rfl (fun c' hcc => update_of_ne hcc _ _) (fun hrun path => ?_) fun hdone => ?_
  · dsimp only
    rw [htaken, transfer_append]
    exact (h.shows c a hc ho path).handleEvent hrun
  · obtain ⟨rfl, hdisk⟩ := handleEvent_success ho hdone
    -- everything published was taken
    obtain ⟨rest, hrest⟩ := h.faithful.ahead c _ hstream
    have hl : s.replay.published = s.replay.received c ++ .exitCode 0 :: (eventsOf items ++ rest) := by
      rw [← hrest, append_assoc]
      rfl
    obtain ⟨hover, hexactly, harrived⟩ := h.published.ended hl
    refine ⟨hover, hexactly, fun o hmem => ?_⟩
    rw [hdisk]
    exact (harrived o hmem).restored (h.shows c a hc ho _)

theorem inv_step [DecidableEq H] {act : Action H T C} (hs : step codec requested s act = some s') :
    Inv codec requested s' := by
  cases act with
  | job m stalled =>
    obtain ⟨⟨j, effect⟩, hj, rfl⟩ := map_eq_some_iff.mp hs
    exact h.jobStep hj stalled
  | subscribe c disk =>
    simp only [step] at hs
    split_ifs at hs with hc
    cases hs
    exact h.subscribe (by simpa using hc) disk
  | receive c broken =>
    simp only [step] at hs
    split at hs
    · rename_i a e replay ha ht
      cases hs
      exact h.handleEvent ha ht
    · rename_i a code replay ha ht
      cases hs
      have hf := h.faithful.take ht
      obtain ⟨items, -, rfl⟩ := take_cases ht
      exact h.giveUp hf rfl rfl (fun c' hcc => update_of_ne hcc _ _)
        (handleStatus_outcome a code).1 (handleStatus_outcome a code).2
    · cases hs
  | ended c =>
    simp only [step] at hs
    split at hs
    · split_ifs at hs
      cases hs
      exact h.giveUp h.faithful rfl rfl (fun _ _ => rfl) (by simp [handleEnd]) (by simp [handleEnd])
    · cases hs
  | severed c code =>
    simp only [step] at hs
    split at hs
    · rename_i a ha
      cases hs
      exact h.giveUp h.faithful rfl rfl (fun _ _ => rfl) (handleStatus_outcome a code).1
        (handleStatus_outcome a code).2
    · cases hs

omit h

theorem inv_reachable [DecidableEq H] (h : (system codec requested).Reachable s) : Inv codec requested s :=
  h.invariant (I := Inv codec requested)
    (fun s hi => by
      have hi : s = .initial := hi
      rw [hi]
      exact inv_initial)
    fun _ _ _ hi hs => inv_step hi hs

/-- However many attempts broke off and whenever the client subscribed: when it ends with
exit code 0, every requested output was announced by the worker of the last attempt, and
its path holds exactly the tree announced, unpacked from chunks of that attempt alone. -/
theorem success_has_last_outputs [DecidableEq H] (hr : (system codec requested).Reachable s)
    (hc : s.clients c = some a) (h0 : a.outcome = some (.done 0)) {path : String} (hp : path ∈ requested) :
    (∃ o ∈ s.job.announced, o.storePath = path) ∧
      ∀ o ∈ s.job.announced, o.storePath = path → Restored codec s.job.attempts o (a.disk path) := by
  have hd := (inv_reachable hr).delivered c a hc h0
  constructor
  · exact mem_map.mp ((hd.exactly.mem path).mpr hp)
  · intro o ho hpath
    rw [← hpath]
    exact hd.restored o ho

def plainChunk (zstd : List UInt8) : Supply ℕ := ⟨some (.chunk zstd.length zstd false), none, true, true⟩

/-- A worker dies after the first of two chunks; another one builds something else. A client
listens from the start, a second one joins between the attempts. -/
def retriedRun : List (Action ℕ (List UInt8) ℕ) :=
  let announce (recipe : List ℕ) : Move ℕ := .result ⟨0, "", [⟨"out", recipe, recipe⟩], []⟩ fun _ => false
  [.subscribe 0 fun _ => .foreign, .job (.dispatch "w0") [], .job .assign [], .job (announce [2, 1]) [],
    .job (.deliver (plainChunk [13, 7])) [], .receive 0 false, .receive 0 false, .job (.die .disconnected) [],
    .job (.settle true) [], .job .restart [], .job .requeue [], .subscribe 1 fun _ => .absent,
    .job (.dispatch "w1") [], .job .assign [], .job (announce [3]) [], .job (.deliver (plainChunk [13, 1, 2])) [],
    .job (.deliver (plainChunk [])) [], .job (.deliver ⟨some (.chunk 0 [] true), none, true, true⟩) [],
    .job .conclude [], .job .finish []] ++
    replicate 5 (.receive 0 false) ++ replicate 7 (.receive 1 false)

theorem success_has_last_outputs_after_retry : ∃ (s : State ℕ (List UInt8) ℕ) (a : Attempt (List UInt8)),
    s.clients 1 = some a ∧ a.outcome = some (.done 0) ∧ s.job.attempts = 1 ∧
      ∃ o ∈ s.job.announced, o.storePath = "out" ∧ Restored plainCodec 1 o (a.disk "out") := by
  obtain ⟨s, hr, hp⟩ := (system plainCodec ["out"]).exists_reachable_of_exec .initial retriedRun
    (fun s => s.job.attempts = 1 ∧ (s.clients 1).any fun a => a.outcome = some (.done 0)) rfl
    (by decide +kernel)
  obtain ⟨hattempts, hany⟩ := hp
  obtain ⟨a, ha, h0⟩ := (any_eq_true _ _).mp hany
  have h0 := of_decide_eq_true h0
  obtain ⟨⟨o, ho, hpath⟩, hrestored⟩ := success_has_last_outputs hr ha h0 (mem_singleton.mpr rfl)
  exact ⟨s, a, ha, h0, hattempts, o, ho, hpath, hattempts ▸ hrestored o ho hpath⟩

end Tribuchet.Outputs
