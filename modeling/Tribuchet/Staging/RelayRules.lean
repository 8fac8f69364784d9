import Tribuchet.Staging.Relay

/-! What the relay's steps do: `serve_need` finds every chunk of a manifest that was sent,
and `handle_need` turns each requested path into a manifest to send again or a recipe to
compute, and each hash-carrying `Need` into a turn in the queue. -/

set_option linter.unusedSectionVars false

namespace Tribuchet.Staging

open List

variable {P H : Type} [DecidableEq P] [DecidableEq H]

namespace Relay

def knows (cat : Catalog P H) (r : Relay P H) (hash : H) : Prop := ∃ p ∈ r.sent, hash ∈ (cat.recipe p).hashes

/-- Whether a `Need` is being served. -/
def serves (r : Relay P H) : ℕ := if r.serving.isSome then 1 else 0

theorem serveEntry_served (cat : Catalog P H) (needed : Finset H) (cached : P → List H) (sent : List P)
    (acc : Finset H × List H) (hacc : acc.1 ⊆ needed) : (sent.foldl (serveEntry cat needed cached) acc).1 ⊆ needed ∧
      ∀ h ∈ needed, (h ∈ acc.1 ∨ ∃ p ∈ sent, h ∈ (cat.recipe p).hashes) →
        h ∈ (sent.foldl (serveEntry cat needed cached) acc).1 := by
  induction sent generalizing acc with
  | nil => exact ⟨hacc, fun h _ hor => hor.resolve_right (by simp)⟩
  | cons p sent ih =>
    rw [foldl_cons]
    have hstep : (serveEntry cat needed cached acc p).1 ⊆ needed := by
      intro h hm
      rcases Finset.mem_union.mp hm with hm | hm
      · exact hacc hm
      · exact (Finset.mem_filter.mp hm).2.1
    obtain ⟨h1, h2⟩ := ih _ hstep
    refine ⟨h1, fun h hn hor => h2 h hn ?_⟩
    by_cases hin : h ∈ (serveEntry cat needed cached acc p).1
    · exact .inl hin
    · right
      rcases hor with hm | ⟨q, hq, hm⟩
      · exact absurd (Finset.mem_union_left _ hm) hin
      · rcases mem_cons.mp hq with rfl | hq
        · refine absurd ?_ hin
          by_cases hold : h ∈ acc.1
          · exact Finset.mem_union_left _ hold
          · exact Finset.mem_union_right _ (Finset.mem_filter.mpr ⟨mem_toFinset.mpr hm, hn, hold⟩)
        · exact ⟨q, hq, hm⟩

theorem serveNeed_complete {cat : Catalog P H} {sent : List P} {needed : Finset H} (cached : P → List H)
    (h : ∀ hash ∈ needed, ∃ p ∈ sent, hash ∈ (cat.recipe p).hashes) :
    (serveNeed cat sent needed cached).complete = true := by
  obtain ⟨h1, h2⟩ := serveEntry_served cat needed cached sent (∅, []) (Finset.empty_subset _)
  have heq : (sent.foldl (serveEntry cat needed cached) (∅, [])).1 = needed :=
    Finset.Subset.antisymm h1 fun hash hm => h2 hash hm (.inr (h hash hm))
  unfold serveNeed
  simp only [decide_eq_true_eq]
  rw [heq]

/-- The next `Need` has its turn, if there is one. -/
structure TurnTaken (cat : Catalog P H) (r r' : Relay P H) : Prop where
  offered : r'.offered = r.offered
  sent : r'.sent = r.sent
  unsent : r'.unsent = r.unsent
  computing : r'.computing = r.computing
  tasks : r'.tasks = r.tasks
  firstNeed : r'.firstNeed = r.firstNeed
  waiting : r'.queued.length + r'.serves = r.queued.length + r.serves
  queued : ∀ q ∈ r'.queued, q ∈ r.queued
  serving : (∀ q ∈ r.queued, ∀ hash ∈ q, r.knows cat hash) → ∀ sv, r'.serving = some sv → sv.complete = true

theorem serveNext_spec (cat : Catalog P H) (cached : P → List H) {r : Relay P H} (h : r.serving = none) :
    TurnTaken cat r (r.serveNext cat cached) := by
  unfold serveNext
  split
  · exact ⟨rfl, rfl, rfl, rfl, rfl, rfl, rfl, fun _ hq => hq, by simp [h]⟩
  · rename_i needed queued hq
    refine ⟨rfl, rfl, rfl, rfl, rfl, rfl, ?_, ?_, ?_⟩
    · simp [serves, h, hq]
    · intro q hm
      rw [hq]
      exact mem_cons_of_mem _ hm
    · rintro hk _ ⟨⟩
      exact serveNeed_complete cached (hk needed (by simp [hq]))

/-- The second loop of `handle_need`: a path already sent has its manifest sent again,
any other is computed unless it is so already. -/
structure Requested (cat : Catalog P H) (first : Bool) (paths : List P)
    (acc acc' : Relay P H × List (Manifest P H) × List P) : Prop where
  relay : ∃ computing, acc'.1 = acc.1.setComputing computing
  computing : ∀ p, p ∈ acc'.1.computing ↔ p ∈ acc.1.computing ∨ p ∈ paths ∧ p ∉ acc.1.sent
  again : acc'.2.1 = acc.2.1 ++ if first then [] else (paths.filter (· ∈ acc.1.sent)).map cat.manifest
  new : ∃ added, acc'.2.2 = acc.2.2 ++ added ∧ added.Nodup ∧
    ∀ p, p ∈ added ↔ p ∈ acc'.1.computing ∧ p ∉ acc.1.computing

theorem foldl_request (cat : Catalog P H) (first : Bool) (paths : List P)
    (acc : Relay P H × List (Manifest P H) × List P) :
    Requested cat first paths acc (paths.foldl (request cat first) acc) := by
  induction paths generalizing acc with
  | nil => exact ⟨⟨_, rfl⟩, by simp, by simp, [], by simp, nodup_nil, by simp⟩
  | cons path paths ih =>
    obtain ⟨r, again, new⟩ := acc
    rw [foldl_cons]
    by_cases hs : path ∈ r.sent
    · have hr : request cat first (r, again, new) path =
          (r, if first then again else again ++ [cat.manifest path], new) := by simp [request, hs]
      rw [hr]
      obtain ⟨h1, h2, h3, h4⟩ := ih (r, if first then again else again ++ [cat.manifest path], new)
      refine ⟨h1, fun p => ?_, ?_, h4⟩
      · rw [h2 p, mem_cons]
        constructor
        · rintro (h | ⟨h, h'⟩)
          · exact .inl h
          · exact .inr ⟨.inr h, h'⟩
        · rintro (h | ⟨rfl | h, h'⟩)
          · exact .inl h
          · exact absurd hs h'
          · exact .inr ⟨h, h'⟩
      · rw [h3]
        cases first <;> simp [hs]
    · by_cases hc : path ∈ r.computing
      · have hr : request cat first (r, again, new) path = (r, again, new) := by simp [request, hs, hc]
        rw [hr]
        obtain ⟨h1, h2, h3, h4⟩ := ih (r, again, new)
        refine ⟨h1, fun p => ?_, ?_, h4⟩
        · rw [h2 p, mem_cons]
          constructor
          · rintro (h | ⟨h, h'⟩)
            · exact .inl h
            · exact .inr ⟨.inr h, h'⟩
          · rintro (h | ⟨rfl | h, h'⟩)
            · exact .inl h
            · exact .inl hc
            · exact .inr ⟨h, h'⟩
        · rw [h3]
          simp [hs]
      · have hr : request cat first (r, again, new) path =
            (r.setComputing (insert path r.computing), again, new ++ [path]) := by simp [request, hs, hc]
        rw [hr]
        obtain ⟨⟨computing, h1⟩, h2, h3, added, h4, h5, h6⟩ :=
          ih (r.setComputing (insert path r.computing), again, new ++ [path])
        generalize paths.foldl (request cat first) (r.setComputing (insert path r.computing), again, new ++ [path]) =
          acc' at h1 h2 h3 h4 h6 ⊢
        simp only [setComputing_computing, setComputing_sent, Finset.mem_insert] at h2 h3 h4 h6
        refine ⟨⟨computing, h1⟩, fun p => ?_, ?_, path :: added, ?_, ?_, fun p => ?_⟩
        · rw [h2 p, mem_cons]
          constructor
          · rintro ((rfl | h) | ⟨h, h'⟩)
            · exact .inr ⟨.inl rfl, hs⟩
            · exact .inl h
            · exact .inr ⟨.inr h, h'⟩
          · rintro (h | ⟨rfl | h, h'⟩)
            · exact .inl (.inr h)
            · exact .inl (.inl rfl)
            · exact .inr ⟨h, h'⟩
        · rw [h3]
          simp [hs]
        · rw [h4]
          simp
        · refine nodup_cons.mpr ⟨fun hm => ?_, h5⟩
          exact ((h6 path).mp hm).2 (.inl rfl)
        · rw [mem_cons, h6 p, not_or]
          constructor
          · rintro (rfl | ⟨h, -, h'⟩)
            · exact ⟨(h2 p).mpr (.inl (.inl rfl)), hc⟩
            · exact ⟨h, h'⟩
          · rintro ⟨h, h'⟩
            by_cases hp : p = path
            · exact .inl hp
            · exact .inr ⟨h, hp, h'⟩

/-- What `handle_need` makes of a relay. -/
structure Handles (cat : Catalog P H) (r : Relay P H) (n : Need P H) (r' : Relay P H) (again : List (Manifest P H)) :
    Prop where
  offered : r'.offered = r.offered
  sent : r'.sent = r.sent
  unsent : r'.unsent = r.unsent
  firstNeed : r'.firstNeed = false
  computing : ∀ p, p ∈ r'.computing ↔ p ∈ r.computing ∨ p ∈ n.paths ∧ p ∉ r.sent
  resent : again = if r.firstNeed then [] else (n.paths.filter (· ∈ r.sent)).map cat.manifest
  tasks : ∃ added, r'.tasks = r.tasks ++ added ∧ added.Nodup ∧ ∀ p, p ∈ added ↔ p ∈ r'.computing ∧ p ∉ r.computing
  waiting : r'.queued.length + r'.serves = r.queued.length + r.serves + if n.hashes = [] then 0 else 1
  queued : ∀ q ∈ r'.queued, q ∈ r.queued ∨ q = n.hashes.toFinset
  serving : (∀ q ∈ r.queued, ∀ hash ∈ q, r.knows cat hash) → (∀ hash ∈ n.hashes, r.knows cat hash) →
    ∀ sv, r'.serving = some sv → r.serving = some sv ∨ sv.complete = true
  busy : r.serving.isSome → r'.serving.isSome

theorem handleNeed_spec (cat : Catalog P H) (cached : P → List H) {r : Relay P H} {n : Need P H}
    (h : ∀ p ∈ n.paths, p ∈ r.offered) :
    ∃ r' again, r.handleNeed cat cached n = .ok (r', again) ∧ Handles cat r n r' again := by
  have hfind : n.paths.find? (· ∉ r.offered) = none := by
    refine find?_eq_none.mpr ?_
    intro p hp
    simp [h p hp]
  have hreq := foldl_request cat r.firstNeed n.paths (r.answered, [], [])
  unfold handleNeed
  rw [hfind]
  generalize n.paths.foldl (request cat r.firstNeed) (r.answered, [], []) = acc at hreq
  obtain ⟨r₁, again, new⟩ := acc
  obtain ⟨⟨computing, hrelay⟩, hcomp, hagain, added, hnew, hnodup, hadded⟩ := hreq
  dsimp only at hrelay hcomp hagain hnew hadded ⊢
  rw [nil_append] at hagain hnew
  subst hrelay hnew
  split_ifs with hh hidle
  · exact ⟨_, _, rfl, rfl, rfl, rfl, rfl, hcomp, hagain, ⟨new, rfl, hnodup, hadded⟩, by simp [serves, hh],
      fun q hq => .inl hq, fun _ _ sv hsv => .inl hsv, id⟩
  · have hnone : r.serving = none := by simpa using hidle
    refine ⟨_, _, rfl, ?_⟩
    have hturn := serveNext_spec cat cached
      (r := ((r.answered.setComputing computing).schedule new).enqueue n.hashes.toFinset) hnone
    refine ⟨hturn.offered, hturn.sent, hturn.unsent, hturn.firstNeed, ?_, hagain, ⟨new, hturn.tasks, hnodup, ?_⟩,
      ?_, ?_, ?_, ?_⟩
    · rw [hturn.computing]
      exact hcomp
    · rw [hturn.computing]
      exact hadded
    · rw [hturn.waiting]
      simp [serves, hnone, hh]
    · intro q hq
      simpa using hturn.queued q hq
    · intro hk hk' sv hsv
      refine .inr (hturn.serving ?_ sv hsv)
      intro q hq hash hhash
      rcases mem_append.mp hq with hq | hq
      · exact hk q hq hash hhash
      · rw [mem_singleton.mp hq, mem_toFinset] at hhash
        exact hk' hash hhash
    · simp [hnone]
  · refine ⟨_, _, rfl, rfl, rfl, rfl, rfl, hcomp, hagain, ⟨new, rfl, hnodup, hadded⟩, ?_, ?_,
      fun _ _ sv hsv => .inl hsv, id⟩
    · simp only [serves, enqueue_queued, schedule_queued, setComputing_queued, answered_queued, length_append,
        length_singleton, enqueue_serving, schedule_serving, setComputing_serving, answered_serving, hh, if_false]
      omega
    · intro q hq
      simpa using hq

end Relay

end Tribuchet.Staging
