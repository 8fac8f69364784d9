import Tribuchet.Staging.Protocol

/-! Imports run in reference order, a build that is ready has all of its inputs, and
staging never wedges: whatever a path is blocked by comes earlier in an order given by
the references, so the first blocked path of all builds has a step to come. -/

set_option linter.unusedSectionVars false

namespace Tribuchet.Staging

open Relation Runs List Option Table HubMsg

variable {B P H : Type} [DecidableEq B] [DecidableEq P] [DecidableEq H]
variable {cat : Catalog P H} {s : State B P H} {b : B} {x : ActiveBuild P H}

/-! ### Reference order -/

theorem Inv.valid_of_reaches (h : Inv cat s) {p r : P} (hp : p ∈ s.worker.valid) (hr : cat.reaches p r) :
    r ∈ s.worker.valid := by
  induction hr with
  | refl => exact hp
  | tail _ href ih => exact h.closed _ ih _ href

theorem Inv.input_valid (h : Inv cat s) (hac : cat.Acyclic) (hx : s.worker.active b = some x) {p : P}
    (hp : p ∈ x.inputs) : p ∈ s.worker.valid := by
  obtain ⟨o, r, -, -, hs, -⟩ := h.builds b x hx
  obtain ⟨root, -, hv, hreach⟩ := hs.held.kept hac p hp
  exact h.valid_of_reaches hv hreach

/-- Each offered path is in one place, an import has its references in the store, so
that the daemon takes it, and a build that is ready has every offered path there. -/
theorem staging_ordered (hac : cat.Acyclic) (h : (exchange B cat).Reachable s) (hx : s.worker.active b = some x)
    {o : List P} (ho : s.offered.lookup b = some o) : (∀ p ∈ o, x.places p = 1) ∧
      (∀ p ∈ x.imports, ∀ r ∈ cat.refs p, r ≠ p → r ∈ x.inputs ∧ r ∈ s.worker.valid) ∧
      (∀ p, x.imports.lookup p = some none → (s.worker.importDone cat.refs b p ⟨none, []⟩).isSome) ∧
      (x.tryComplete = .ready → ∀ p ∈ o, p ∈ s.worker.valid) := by
  have hinv := inv_reachable h
  obtain ⟨o', r, ho', -, hs, -⟩ := hinv.builds b x hx
  obtain rfl : o = o' := some.inj (ho.symm.trans ho')
  have hrefs : ∀ p ∈ x.imports, ∀ r ∈ cat.refs p, r ≠ p → r ∈ x.inputs ∧ r ∈ s.worker.valid := by
    intro p hp r hr hne
    have hin := ((hs.good.imports p hp).2 r hr).resolve_left hne
    exact ⟨hin, hinv.input_valid hac hx hin⟩
  refine ⟨?_, hrefs, ?_, ?_⟩
  · intro p hp
    rw [hs.good.placed p, if_pos hp]
  · intro p hp
    have hmem : p ∈ x.imports := mem_of_lookup hp
    have hok : ∀ r ∈ cat.refs p, r = p ∨ r ∈ s.worker.valid := by
      intro r hr
      by_cases hne : r = p
      · exact .inl hne
      · exact .inr (hrefs p hmem r hr hne).2
    simp only [Worker.importDone, hx, hp]
    rw [if_pos ⟨trivial, fun _ => hok⟩]
    rfl
  · intro hready p hp
    obtain ⟨-, hpend, himp, hwait⟩ := ActiveBuild.tryComplete_ready.mp hready
    rcases hs.good.placed_cases hp with hin | hm | hm | hm
    · exact hinv.input_valid hac hx hin
    · simp [hpend] at hm
    · rw [himp] at hm
      cases hm
    · rw [hwait] at hm
      cases hm

theorem chain_acyclic : chain.Acyclic := ⟨Fin.val, by decide⟩

theorem staging_ordered_takeover : ∃ s x, (exchange (Fin 2) chain).Reachable s ∧ s.worker.active 1 = some x ∧
    s.offered.lookup 1 = some [0, 1, 2] ∧ (∀ p ∈ [0, 1, 2], x.places p = 1) ∧
      (∀ p ∈ x.imports, ∀ r ∈ chain.refs p, r ≠ p → r ∈ x.inputs ∧ r ∈ s.worker.valid) ∧
      (∀ p, x.imports.lookup p = some none → (s.worker.importDone chain.refs 1 p ⟨none, []⟩).isSome) ∧
      (x.tryComplete = .ready → ∀ p ∈ [0, 1, 2], p ∈ s.worker.valid) := by
  obtain ⟨s, hr, htest⟩ := (exchange (Fin 2) chain).exists_reachable_of_exec (State.initial ∅ ∅) takeover
    (fun s => (s.worker.active 1).isSome ∧ s.offered.lookup 1 = some [0, 1, 2]) ⟨∅, ∅, by decide, rfl⟩ (by decide +kernel)
  obtain ⟨hx, ho⟩ := htest
  obtain ⟨x, hx⟩ := isSome_iff_exists.mp hx
  exact ⟨s, x, hr, hx, ho, staging_ordered chain_acyclic hr hx ho⟩

/-! ### Blocked paths -/

/-- What a path of a staging build waits for: the build that has claimed it, or one of
its references in its own build. -/
inductive BlockedBy (cat : Catalog P H) (s : State B P H) : B × P → B × P → Prop
  | claim {b b' : B} {x y : ActiveBuild P H} {p : P} {ch : ℕ} (hx : s.worker.active b = some x)
    (hw : x.waits.lookup p = some ch) (hrun : (s.worker.claims.channels ch).state = .running)
    (hy : s.worker.active b' = some y) (hc : p ∈ y.claimed) : BlockedBy cat s (b, p) (b', p)
  | reference {b : B} {x : ActiveBuild P H} {p r : P} (hx : s.worker.active b = some x) (hp : p ∈ x.pending)
    (hr : r ∈ cat.refs p) (hne : r ≠ p) (hin : r ∉ x.inputs) : BlockedBy cat s (b, p) (b, r)

/-- References come first, and a claim before those who wait on it. -/
def depth (rank : P → ℕ) (s : State B P H) (z : B × P) : ℕ :=
  2 * rank z.2 + if (waitsOn s.worker.active z.1 z.2).isSome then 1 else 0

theorem depth_lt {rank : P → ℕ} (hrank : ∀ p, ∀ r ∈ cat.refs p, r ≠ p → rank r < rank p) (h : Inv cat s)
    {z z' : B × P} (hz : BlockedBy cat s z z') : depth rank s z' < depth rank s z := by
  unfold depth
  cases hz with
  | @claim b b' x y p ch hx hw hrun hy hc =>
    obtain ⟨o, r, -, -, hs, -⟩ := h.builds b' y hy
    have hnot : p ∉ y.waits := by
      intro hm
      obtain ⟨-, hpend, himp⟩ := hs.good.of_waits hm
      exact ((hs.good.claimed p).mp hc).elim hpend himp
    have hnone : waitsOn s.worker.active b' p = none := by
      rw [waitsOn, hy]
      exact AList.lookup_eq_none.mpr hnot
    have hsome : waitsOn s.worker.active b p = some ch := by
      rw [waitsOn, hx]
      exact hw
    simp [hnone, hsome]
  | @reference b x p r hx hp hr hne hin =>
    have hlt := hrank p r hr hne
    simp only
    split_ifs <;> omega

/-! ### Steps to come -/

/-- A step of build `b` that is still to come. -/
inductive ToCome (s : State B P H) (b : B) (x : ActiveBuild P H) (r : Relay P H) : Prop
  /-- a manifest was requested: the `Need` is on its way, the recipe is being computed,
  or the manifest is on its way -/
  | manifest (p : P) (hw : x.wants p) (h : p ∈ r.requests (s.toHub b) ∨ p ∈ r.computing ∨
      ∃ m, .manifest m ∈ s.toWorker b ∧ m.storePath = p)
  /-- a `Need` with hashes is on its way, queued or being served, or the end of its
  answer is on its way -/
  | answer (h : (∃ n, .need n ∈ s.toHub b ∧ n.hashes ≠ []) ∨ r.queued ≠ [] ∨ r.serving.isSome ∨
      .chunk .eof ∈ s.toWorker b)
  /-- an import is in the pool, or its `Wake` is queued -/
  | import (p : P) (h : x.imports.lookup p = some none ∨ p ∈ x.imports ∧ (b, p) ∈ s.worker.wakes)
  /-- a claim settled, and its `Wake` is queued or about to be sent -/
  | wake (p : P) (ch : ℕ) (hw : x.waits.lookup p = some ch) (hs : (s.worker.claims.channels ch).state ≠ .running)
    (h : (b, p) ∈ s.worker.wakes ∨ ⟨ch, b, p⟩ ∈ s.worker.claims.watchers)

section ToCome

variable {r : Relay P H} {p : P}

theorem Link.manifest_to_come (h : Link x r (s.toWorker b) (s.toHub b)) (hw : x.wants p) : ToCome s b x r := by
  have hreq := h.requested p
  rw [if_pos hw] at hreq
  refine .manifest p hw ?_
  by_contra hn
  simp only [not_or, not_exists, not_and] at hn
  obtain ⟨h1, h2, h3⟩ := hn
  rw [count_eq_zero.mpr h1, if_neg h2, countP_eq_zero.mpr] at hreq
  · omega
  · intro m hm
    cases m with
    | manifest m => simpa [isManifest] using h3 m hm
    | _ => simp [isManifest]

theorem Link.answer_to_come (h : Link x r (s.toWorker b) (s.toHub b)) (hn : 0 < x.needsOutstanding) : ToCome s b x r := by
  have hc := h.counted
  refine .answer ?_
  by_contra hno
  simp only [not_or, not_exists, not_and, not_not] at hno
  obtain ⟨h1, h2, h3, h4⟩ := hno
  rw [countP_eq_zero.mpr, h2, Relay.serves, if_neg h3, countP_eq_zero.mpr] at hc
  · simp only [length_nil] at hc
    omega
  · intro m hm
    cases m with
    | chunk frame =>
      cases frame with
      | eof => exact absurd hm h4
      | data hash => simp [isEof]
    | _ => simp [isEof]
  · intro m hm
    cases m with
    | need n => simpa [WorkerMsg.asks] using h1 n hm
    | result e => simp [WorkerMsg.asks]

theorem Held.import_to_come {o : List P} (h : Held cat s.worker o b x) (hw : p ∉ x.waits)
    (hagree : s.worker.claims.Agree s.worker.active) (hx : s.worker.active b = some x) (hp : p ∈ x.imports) :
    ToCome s b x r := by
  refine .import p ?_
  obtain ⟨result, hres⟩ := exists_lookup hp
  cases result with
  | none => exact .inl hres
  | some outcome =>
    right
    refine ⟨hp, ?_⟩
    have hcount := h.wakes p
    rw [if_pos (.inr (by simp [hres]))] at hcount
    -- no watcher is about: the build does not wait on the path
    have hzero : s.worker.claims.watching b p = 0 := by
      refine countP_eq_zero.mpr fun w hm => ?_
      simp only [decide_eq_true_eq]
      rintro ⟨rfl, rfl⟩
      have hwait := hagree.watchers w hm
      rw [waitsOn, hx] at hwait
      exact hw (AList.lookup_isSome.mp (by simpa using congrArg isSome hwait))
    exact count_pos_iff.mp (by omega)

theorem Held.wake_to_come {o : List P} (h : Held cat s.worker o b x) (hagree : s.worker.claims.Agree s.worker.active)
    (hx : s.worker.active b = some x) {ch : ℕ} (hw : x.waits.lookup p = some ch)
    (hs : (s.worker.claims.channels ch).state ≠ .running) : ToCome s b x r := by
  refine .wake p ch hw hs ?_
  have hcount := h.wakes p
  rw [if_pos (.inl (mem_of_lookup hw))] at hcount
  by_cases hq : (b, p) ∈ s.worker.wakes
  · exact .inl hq
  · right
    rw [count_eq_zero.mpr hq] at hcount
    obtain ⟨w, hm, hwp⟩ := countP_pos_iff.mp (show 0 < s.worker.claims.watching b p by omega)
    obtain ⟨rfl, rfl⟩ := of_decide_eq_true hwp
    have hwait := hagree.watchers w hm
    rw [waitsOn, hx] at hwait
    obtain rfl : w.channel = ch := some.inj (hwait.symm.trans hw)
    exact hm

end ToCome

/-! ### No wedge -/

/-- A path that is not an input yet has a step to come, or is blocked by one that is not
an input yet either. -/
theorem Inv.to_come_or_blocked (h : Inv cat s) (hx : s.worker.active b = some x) {p : P}
    (hp : p ∈ x.pending ∨ p ∈ x.imports ∨ p ∈ x.waits) :
    (∃ r, s.relays b = some r ∧ ToCome s b x r) ∨ ∃ b' y q, s.worker.active b' = some y ∧
      BlockedBy cat s (b, p) (b', q) ∧ (q ∈ y.pending ∨ q ∈ y.imports ∨ q ∈ y.waits) := by
  obtain ⟨o, r, ho, hr, hs, hl⟩ := h.builds b x hx
  rcases hp with hp | hp | hp
  · by_cases hrec : p ∈ x.chunks.recipes
    · by_cases hrem : p ∈ x.chunks.remaining
      · exact .inl ⟨r, hr, hl.answer_to_come (hs.expecting ⟨p, hrem⟩)⟩
      · right
        -- complete, so it is parked behind a reference
        have hparked := (hs.good.complete p ⟨hp, hrec, hrem⟩).resolve_right (by simp)
        obtain ⟨-, q, hq, hne, hin⟩ := hs.good.parked p hparked
        have hoff := (h.offers b o ho).2 p (hs.good.mem_offered (.inr (.inl hp))) q hq
        exact ⟨b, x, q, hx, .reference hx hp hq hne hin, (hs.good.placed_cases hoff).resolve_left hin⟩
    · exact .inl ⟨r, hr, hl.manifest_to_come ⟨hp, hrec⟩⟩
  · exact .inl ⟨r, hr, hs.held.import_to_come (hs.good.of_imports hp).2.2 h.agree hx hp⟩
  · obtain ⟨ch, hch⟩ := exists_lookup hp
    by_cases hrun : (s.worker.claims.channels ch).state = .running
    · right
      have hw : waitsOn s.worker.active b p = some ch := by
        rw [waitsOn, hx]
        exact hch
      obtain ⟨b', y, hy, hc⟩ := h.agree.running_owned hw hrun
      obtain ⟨o', r', -, -, hs', -⟩ := h.builds b' y hy
      exact ⟨b', y, p, hy, .claim hx hch hrun hy hc, ((hs'.good.claimed p).mp hc).imp_right .inl⟩
    · exact .inl ⟨r, hr, hs.held.wake_to_come h.agree hx hch hrun⟩

theorem Inv.exists_to_come (hac : cat.Acyclic) (h : Inv cat s) (hx : s.worker.active b = some x) {p : P}
    (hp : p ∈ x.pending ∨ p ∈ x.imports ∨ p ∈ x.waits) :
    ∃ b' y r, s.worker.active b' = some y ∧ s.relays b' = some r ∧ ToCome s b' y r := by
  obtain ⟨rank, hrank⟩ := hac
  generalize hn : depth rank s (b, p) = n
  induction n using Nat.strong_induction_on generalizing b x p with
  | _ n ih =>
    rcases h.to_come_or_blocked hx hp with ⟨r, hr, hc⟩ | ⟨b', y, q, hy, hz, hq⟩
    · exact ⟨b, x, r, hx, hr, hc⟩
    · exact ih _ (hn ▸ depth_lt hrank h hz) hy hq rfl

/-- Staging never wedges: while a build with its tmp dir is not ready some build has a
step to come. No path is parked with its references staged, a claim that runs has its
owner at work, and nothing waits for itself. -/
theorem staging_never_wedges (hac : cat.Acyclic) (h : (exchange B cat).Reachable s)
    (hx : s.worker.active b = some x) : (x.tmpDirDone = true → x.tryComplete ≠ .ready →
      ∃ b' y r, s.worker.active b' = some y ∧ s.relays b' = some r ∧ ToCome s b' y r) ∧
    (∀ p ∈ x.parked, ∃ r ∈ cat.refs p, r ≠ p ∧ r ∉ x.inputs) ∧
    (∀ p ch, x.waits.lookup p = some ch → (s.worker.claims.channels ch).state = .running →
      ∃ b' y, s.worker.active b' = some y ∧ p ∈ y.claimed) ∧
    ∀ z, ¬ TransGen (BlockedBy cat s) z z := by
  have hinv := inv_reachable h
  obtain ⟨o, r, -, -, hs, -⟩ := hinv.builds b x hx
  refine ⟨?_, fun p hp => (hs.good.parked p hp).2, ?_, ?_⟩
  · intro htmp hready
    have hsome : ∃ p, p ∈ x.pending ∨ p ∈ x.imports ∨ p ∈ x.waits := by
      by_contra hn
      simp only [not_exists, not_or] at hn
      apply hready
      refine ActiveBuild.tryComplete_ready.mpr ⟨htmp, ?_, ?_, ?_⟩
      · exact Finset.eq_empty_of_forall_notMem fun p => (hn p).1
      · exact eq_empty_of_forall_notMem fun p => (hn p).2.1
      · exact eq_empty_of_forall_notMem fun p => (hn p).2.2
    obtain ⟨p, hp⟩ := hsome
    exact hinv.exists_to_come hac hx hp
  · intro p ch hw hrun
    refine hinv.agree.running_owned (b := b) ?_ hrun
    rw [waitsOn, hx]
    exact hw
  · obtain ⟨rank, hrank⟩ := hac
    intro z hz
    have hlt : ∀ z', TransGen (BlockedBy cat s) z z' → depth rank s z' < depth rank s z := by
      intro z' hz'
      induction hz' with
      | single hs => exact depth_lt hrank hinv hs
      | tail _ hs ih => exact Nat.lt_trans (depth_lt hrank hinv hs) ih
    exact lt_irrefl _ (hlt z hz)

theorem staging_never_wedges_takeover : ∃ s x, (exchange (Fin 2) chain).Reachable s ∧ s.worker.active 1 = some x ∧
    x.tmpDirDone = true ∧ x.tryComplete ≠ .ready ∧
    (∃ b' y r, s.worker.active b' = some y ∧ s.relays b' = some r ∧ ToCome s b' y r) := by
  obtain ⟨s, hr, htest⟩ := (exchange (Fin 2) chain).exists_reachable_of_exec (State.initial ∅ ∅)
    (takeover.take 7 ++ [.recv 1 ⟨none, none⟩ ∅])
    (fun s => (s.worker.active 1).map (fun x => (x.tmpDirDone, x.tryComplete)) = some (true, .inProgress))
    ⟨∅, ∅, by decide, rfl⟩ (by decide +kernel)
  obtain ⟨x, hx, hpair⟩ := map_eq_some_iff.mp htest
  obtain ⟨htmp, hprog⟩ := Prod.mk.inj hpair
  have hready : x.tryComplete ≠ .ready := by
    rw [hprog]
    decide
  exact ⟨s, x, hr, hx, htmp, hready, (staging_never_wedges chain_acyclic hr hx).1 htmp hready⟩

end Tribuchet.Staging
