import Tribuchet.Outputs.Exchange

/-! What is published, along every sequence of dispatch attempts. A restart of every output
follows an attempt that breaks off, so the next one finds no transfer open; the exit code 0
comes after all outputs of one attempt, and last. -/

namespace Tribuchet.Outputs

open ByteStrings Staging List Announced

variable {H T : Type} {codec : Codec H T} {requested : List String}
variable {log : List Event} {e : Event} {path p : String} {attempt : ℕ}

/-! ### The announced set -/

variable {a : Announced H}

theorem ofManifest_storePath {m : Manifest H} (h : ofManifest m = .ok a) : a.storePath = m.storePath := by
  unfold ofManifest at h
  split at h
  · cases h
    rfl
  · cases h

theorem verifyAfter_ok {seen : List String} {reported : List (Manifest H)} {announced : List (Announced H)}
    (h : verifyAfter requested seen reported = .ok announced) : (announced.map storePath).Nodup ∧
      ∀ path, path ∈ announced.map storePath ↔ path ∈ requested ∧ path ∉ seen := by
  induction reported generalizing seen announced with
  | nil =>
    unfold verifyAfter at h
    split at h
    · cases h
    · rename_i hfind
      cases h
      refine ⟨nodup_nil, fun path => ⟨by simp, ?_⟩⟩
      rintro ⟨hr, hs⟩
      have := find?_eq_none.mp hfind path hr
      simp [hs] at this
  | cons o rest ih =>
    unfold verifyAfter at h
    split_ifs at h with hbad
    push Not at hbad
    split at h
    · cases h
    · rename_i a ha
      cases hrest : verifyAfter requested (o.storePath :: seen) rest with
      | error e =>
        rw [hrest] at h
        cases h
      | ok more =>
        rw [hrest] at h
        cases h
        obtain ⟨hnodup, hmem⟩ := ih hrest
        rw [map_cons, ofManifest_storePath ha]
        refine ⟨nodup_cons.mpr ⟨fun hm => ?_, hnodup⟩, fun path => ?_⟩
        · exact ((hmem _).mp hm).2 mem_cons_self
        · rw [mem_cons, hmem, mem_cons]
          by_cases hp : path = o.storePath
          · subst hp
            simp [hbad]
          · simp [hp]

theorem verifySet_exactly {reported : List (Manifest H)} {announced : List (Announced H)}
    (h : verifySet reported requested = .ok announced) : Exactly requested announced := by
  obtain ⟨hnodup, hmem⟩ := verifyAfter_ok h
  exact ⟨hnodup, fun path => by simp [hmem]⟩

/-! ### One more event -/

def Neutral (e : Event) : Prop := ∀ path t, Transfer.feed path t e = t

theorem Neutral.transfer (h : Neutral e) (path : String) (log : List Event) :
    transfer path (log ++ [e]) = transfer path log := by
  rw [transfer_append, h]

theorem Neutral.receiving (h : Neutral e) : Receiving path (log ++ [e]) ↔ Receiving path log := by
  unfold Receiving
  rw [h.transfer]

theorem Neutral.arrived (h : Neutral e) (ha : Arrived codec attempt log a) : Arrived codec attempt (log ++ [e]) a := by
  unfold Arrived
  rw [h.transfer]
  exact ha

theorem notMem_append (h : .exitCode 0 ∉ log) (he : e ≠ .exitCode 0) : .exitCode 0 ∉ log ++ [e] := by
  intro hm
  rcases mem_append.mp hm with hm | hm
  · exact h hm
  · exact he (mem_singleton.mp hm).symm

theorem receiving_restart (h : Receiving path (log ++ [.outputRestart p])) : path ≠ p ∧ Receiving path log := by
  obtain ⟨chunks, h⟩ := h
  rw [transfer_append, Transfer.feed] at h
  split_ifs at h with hp
  · cases ht : transfer path log <;> rw [ht] at h <;> cases h
  · exact ⟨Ne.symm hp, chunks, h⟩

theorem transfer_output_self (log : List Event) (path : String) (chunk : Chunk) (eof : Bool) :
    transfer path (log ++ [.output path chunk eof]) =
      if eof then .complete (sendOn (transfer path log).chunks chunk)
      else .receiving (sendOn (transfer path log).chunks chunk) := by
  rw [transfer_append, Transfer.feed, if_pos rfl]

theorem transfer_output_of_ne (h : p ≠ path) (log : List Event) (chunk : Chunk) (eof : Bool) :
    transfer path (log ++ [.output p chunk eof]) = transfer path log := by
  rw [transfer_append, Transfer.feed, if_neg h]

theorem transfer_chunks_of_not_receiving (h : ¬Receiving path log) : (transfer path log).chunks = [] := by
  cases ht : transfer path log with
  | receiving chunks => exact absurd ⟨chunks, ht⟩ h
  | idle | complete => rfl

theorem Arrived.output_of_ne (h : Arrived codec attempt log a) (hne : p ≠ a.storePath)
    (chunk : Chunk) (eof : Bool) : Arrived codec attempt (log ++ [.output p chunk eof]) a := by
  unfold Arrived
  rw [transfer_output_of_ne hne]
  exact h

/-! ### The delivery -/

variable {before more announced : List (Announced H)} {recipe sent : Recipe H}
variable {outputs : List (Announced H)}

theorem Underway.of_silent (hb : ∀ a ∈ before, Arrived codec attempt log a)
    (hs : ∀ path, ¬Receiving path log) : Underway codec attempt log (before ++ outputs) outputs := by
  cases outputs with
  | nil =>
    rw [append_nil]
    exact .between hb hs
  | cons a more =>
    have hnone : Carries codec attempt [] (transfer a.storePath log).chunks := by
      rw [transfer_chunks_of_not_receiving (hs _)]
      exact .nil
    exact .within hb hnone fun p hp => absurd hp (hs p)

theorem ne_of_before (hn : ((before ++ ⟨path, recipe⟩ :: more).map storePath).Nodup)
    (ha : a ∈ before) : path ≠ a.storePath := by
  rw [map_append, map_cons, nodup_append] at hn
  exact (hn.2.2 a.storePath (mem_map_of_mem ha) path mem_cons_self).symm

theorem Underway.chunk [DecidableEq H] {frame raw : Bytes} {hash : H} {size : ℕ}
    (h : Underway codec attempt log announced (⟨path, (hash, size) :: recipe⟩ :: more))
    (hn : (announced.map storePath).Nodup) (hd : decodeChunk codec frame hash size = some raw) :
    Underway codec attempt (log ++ [.output path ⟨frame, attempt⟩ false]) announced
      (⟨path, recipe⟩ :: more) := by
  cases h with
  | @within before _ _ sent _ hb hc hr =>
    have hsplit : sent ++ (hash, size) :: recipe = (sent ++ [(hash, size)]) ++ recipe := by simp
    rw [hsplit] at hn ⊢
    refine .within (fun a ha => (hb a ha).output_of_ne (ne_of_before hn ha) _ _) ?_ fun p hp => ?_
    · rw [transfer_output_self]
      exact hc.snoc hd
    · by_contra hne
      obtain ⟨chunks, hp⟩ := hp
      rw [transfer_output_of_ne (Ne.symm hne)] at hp
      exact hne (hr p ⟨chunks, hp⟩)

theorem Underway.eof (h : Underway codec attempt log announced (⟨path, []⟩ :: more))
    (hn : (announced.map storePath).Nodup) :
    Underway codec attempt (log ++ [.output path ⟨[], attempt⟩ true]) announced more := by
  cases h with
  | @within before _ _ sent _ hb hc hr =>
    rw [append_cons before]
    have hself : transfer path (log ++ [.output path ⟨[], attempt⟩ true]) =
        .complete (transfer path log).chunks := by
      rw [transfer_output_self]
      rfl
    refine .of_silent (fun a ha => ?_) fun p hp => ?_
    · rcases mem_append.mp ha with ha | ha
      · exact (hb a ha).output_of_ne (ne_of_before hn ha) _ _
      · cases mem_singleton.mp ha
        refine ⟨_, hself, ?_⟩
        rw [append_nil]
        exact hc
    · obtain ⟨chunks, hp⟩ := hp
      by_cases hpath : p = path
      · subst hpath
        rw [hself] at hp
        cases hp
      · rw [transfer_output_of_ne (Ne.symm hpath)] at hp
        exact hpath (hr p ⟨chunks, hp⟩)

theorem Underway.neutral (h : Underway codec attempt log announced outputs)
    (he : Neutral e) : Underway codec attempt (log ++ [e]) announced outputs := by
  cases h with
  | between hb hs => exact .between (fun a ha => he.arrived (hb a ha)) fun p => he.receiving.not.mpr (hs p)
  | within hb hc hr =>
    refine .within (fun a ha => he.arrived (hb a ha)) ?_ fun p hp => hr p (he.receiving.mp hp)
    rw [he.transfer]
    exact hc

theorem Underway.arrived (h : Underway codec attempt log announced []) :
    ∀ a ∈ announced, Arrived codec attempt log a := by
  cases h with
  | between hb _ => exact hb

theorem Underway.receiving (h : Underway codec attempt log announced outputs)
    (hp : Receiving p log) : p ∈ announced.map storePath := by
  cases h with
  | between _ hs => exact absurd hp (hs p)
  | within _ _ hr =>
    rw [hr p hp]
    simp

/-! ### The steps of a job -/

variable [DecidableEq H] {j j' : Job H} {m : Move H} {effect : Effect} {d : Delivery H}

omit [DecidableEq H] in
theorem concluded_of_notMem {Q : List Event → List Event → Prop} (h : .exitCode 0 ∉ log) :
    ∀ l r, log = l ++ .exitCode 0 :: r → Q l r := by
  intro l r hl
  exfalso
  apply h
  rw [hl]
  simp

omit [DecidableEq H] in
theorem eq_of_exitCode_last {l r : List Event} (h : .exitCode 0 ∉ log)
    (hl : log ++ [.exitCode 0] = l ++ .exitCode 0 :: r) : l = log ∧ r = [] := by
  rcases eq_nil_or_concat r with rfl | ⟨r', x, rfl⟩
  · exact ⟨(append_inj_left' hl rfl).symm, rfl⟩
  · exfalso
    apply h
    have : log = l ++ .exitCode 0 :: r' := by
      rw [concat_eq_append, ← cons_append, ← append_assoc] at hl
      exact append_inj_left' hl rfl
    rw [this]
    simp

omit [DecidableEq H] in
theorem append_nothing (log : List Event) : log ++ Effect.nothing.events = log := append_nil log

omit [DecidableEq H] in
theorem append_close (log : List Event) : log ++ Effect.close.events = log := append_nil log

theorem Published.settleResult {r : BuildResult H} {located : H → Bool} (hx : .exitCode 0 ∉ log)
    (hs : ∀ path, ¬Receiving path log) (hr : j.settleResult requested r located = (j', effect)) :
    Published codec requested j' (log ++ effect.events) := by
  unfold Job.settleResult at hr
  split_ifs at hr with hcode hrange herror
  · cases hr
    rw [append_nothing]
    exact ⟨hx, fun h0 => absurd h0 hcode⟩
  · cases hr
    exact ⟨notMem_append hx (by simp), fun h0 => absurd h0 hcode⟩
  · cases hr
    rw [append_nothing]
    exact ⟨hx, fun path hp => absurd hp (hs path)⟩
  · split at hr
    · cases hr
      rw [append_nothing]
      exact ⟨hx, fun path hp => absurd hp (hs path)⟩
    · rename_i outputs hv
      split at hr
      · cases hr
        rw [append_nothing]
        exact ⟨hx, fun path hp => absurd hp (hs path)⟩
      · cases hr
        rw [append_nothing]
        have hnone : ∀ a ∈ ([] : List (Announced H)), Arrived codec j.attempts log a := by simp
        exact ⟨hx, verifySet_exactly hv, Underway.of_silent hnone hs⟩

/-- What a turn of the delivery can do to the outputs that are left. -/
inductive Advances (codec : Codec H T) (attempt : ℕ) :
    List (Announced H) → Option Event → List (Announced H) → Prop
  | chunk {path : String} {hash : H} {size : ℕ} {recipe : Recipe H} {more : List (Announced H)}
      {frame raw : Bytes} : decodeChunk codec frame hash size = some raw →
    Advances codec attempt (⟨path, (hash, size) :: recipe⟩ :: more)
      (some (.output path ⟨frame, attempt⟩ false)) (⟨path, recipe⟩ :: more)
  | eof {path : String} {more : List (Announced H)} :
    Advances codec attempt (⟨path, []⟩ :: more) (some (.output path ⟨[], attempt⟩ true)) more
  | extra : Advances codec attempt [] none []
  | added {path : String} : Advances codec attempt [] (some (.addedPath path)) []

variable {supply : Supply H}

theorem turn_goOn {d d' : Delivery H} {e : Option Event}
    (h : d.turn codec attempt supply = .goOn e d') : Advances codec attempt d.outputs e d'.outputs := by
  unfold Delivery.turn at h
  split at h
  · rename_i houtputs
    rw [houtputs]
    split at h
    · cases h
    · rename_i hget
      cases h
      obtain ⟨raw, hd⟩ := get_decodes hget
      exact .chunk hd
  · rename_i houtputs
    rw [houtputs]
    cases h
    exact .eof
  · rename_i houtputs
    rw [houtputs]
    split at h
    · split at h
      · cases h
      · cases h
        rw [houtputs]
        exact .extra
    · split_ifs at h
      cases h
      rw [houtputs]
      exact .added
    · split at h <;> cases h

theorem turn_finished {d : Delivery H} (h : d.turn codec attempt supply = .finished) :
    d.outputs = [] := by
  unfold Delivery.turn at h
  split at h
  · split at h <;> cases h
  · cases h
  · assumption

theorem Published.deliver (hx : .exitCode 0 ∉ log)
    (he : Exactly requested j.announced) (hu : Underway codec j.attempts log j.announced d.outputs)
    (hr : j.deliver codec d supply = (j', effect)) : Published codec requested j' (log ++ effect.events) := by
  unfold Job.deliver at hr
  split at hr
  · rename_i e d' hturn
    have hadv := turn_goOn hturn
    generalize d.outputs = outputs at hu hadv
    generalize houtputs' : d'.outputs = outputs' at hadv
    cases hadv with
    | chunk hd =>
      cases hr
      exact ⟨notMem_append hx (by simp), he, houtputs' ▸ hu.chunk he.nodup hd⟩
    | eof =>
      cases hr
      exact ⟨notMem_append hx (by simp), he, houtputs' ▸ hu.eof he.nodup⟩
    | extra =>
      cases hr
      rw [append_nothing]
      exact ⟨hx, he, houtputs' ▸ hu⟩
    | added =>
      cases hr
      exact ⟨notMem_append hx (by simp), he, houtputs' ▸ hu.neutral fun _ _ => rfl⟩
  · rename_i hturn
    cases hr
    rw [append_nothing]
    rw [turn_finished hturn] at hu
    exact ⟨hx, fun _ => ⟨he, hu.arrived⟩⟩
  · cases hr
    rw [append_nothing]
    exact ⟨hx, fun path hp => (he.mem path).mp (hu.receiving hp)⟩

theorem Published.step (hp : Published codec requested j log) (h : j.step codec requested m = some (j', effect)) :
    Published codec requested j' (log ++ effect.events) := by
  obtain ⟨phase, attempts, announced⟩ := j
  have hneutral : ∀ e, Neutral e → e ≠ .exitCode 0 → (.exitCode 0 ∉ log ∧ ∀ path, ¬Receiving path log) →
      .exitCode 0 ∉ log ++ [e] ∧ ∀ path, ¬Receiving path (log ++ [e]) := by
    intro e hn hne h
    exact ⟨notMem_append h.1 hne, fun path => hn.receiving.not.mpr (h.2 path)⟩
  unfold Job.step at h
  dsimp only at h
  split at h
  case h_1 => -- dispatch
    cases h
    exact hneutral _ (fun _ _ => rfl) (by simp) hp
  case h_2 => -- unservable
    cases h
    rw [append_nothing]
    exact hp.1
  case h_3 => -- abandon
    cases h
    rw [append_nothing]
    exact concluded_of_notMem hp.1
  case h_4 => -- assign
    cases h
    rw [append_nothing]
    exact hp
  case h_5 | h_8 => -- die before a result
    cases h
    rw [append_nothing]
    exact ⟨hp.1, fun path hr => absurd hr (hp.2 path)⟩
  case h_6 => -- log
    cases h
    exact hneutral _ (fun _ _ => rfl) (by simp) hp
  case h_7 => exact Published.settleResult hp.1 hp.2 (Option.some.inj h)
  case h_9 => exact Published.deliver hp.1 hp.2.1 hp.2.2 (Option.some.inj h)
  case h_10 => -- die during the delivery
    cases h
    rw [append_nothing]
    exact ⟨hp.1, fun path hr => (hp.2.1.mem path).mp (hp.2.2.receiving hr)⟩
  case h_11 => -- settle
    cases h
    rw [append_nothing]
    unfold Job.settle
    split_ifs
    · exact hp
    · exact hp.1
  case h_12 => -- restart
    cases h
    refine ⟨notMem_append hp.1 (by simp), fun path hr => ?_⟩
    obtain ⟨hne, hr⟩ := receiving_restart hr
    exact (mem_cons.mp (hp.2 path hr)).resolve_left hne
  case h_13 => -- requeue
    cases h
    rw [append_nothing]
    exact ⟨hp.1, fun path hr => by cases hp.2 path hr⟩
  case h_14 => -- the verdict
    rename_i code
    cases h
    intro l r hl
    by_cases h0 : code = 0
    · subst h0
      obtain ⟨rfl, rfl⟩ := eq_of_exitCode_last hp.1 hl
      exact ⟨rfl, hp.2 rfl⟩
    · exact concluded_of_notMem (Q := fun _ r => r = [] ∧ _) (notMem_append hp.1 (by simp [h0])) l r hl
  case h_15 => -- the error
    cases h
    exact concluded_of_notMem (notMem_append hp (by simp))
  case h_16 => -- finish
    cases h
    rw [append_close]
    exact hp
  case h_17 => cases h

end Tribuchet.Outputs
