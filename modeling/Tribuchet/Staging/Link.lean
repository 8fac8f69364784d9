import Mathlib.Data.List.Count
import Tribuchet.Staging.Handlers
import Tribuchet.Staging.RelayRules

/-! The link between a staging build and its relay. `RelayGood` holds of a relay and its
two channels whatever the build does; `Link` counts, across the build, the relay and both
channels, the answers still to come and, for each path, the manifests still to come. -/

set_option linter.unusedSectionVars false

namespace Tribuchet.Staging

open List HubMsg Relay WorkerMsg

variable {P H : Type} [DecidableEq P] [DecidableEq H]

/-! ### Messages -/

def WorkerMsg.paths : WorkerMsg P H → List P
  | .need n => n.paths
  | .result _ => []

/-- A `Need` that carries hashes. -/
def WorkerMsg.asks : WorkerMsg P H → Bool
  | .need n => n.hashes ≠ []
  | .result _ => false

def HubMsg.isEof : HubMsg P H → Bool
  | .chunk .eof => true
  | _ => false

def HubMsg.isManifest (p : P) : HubMsg P H → Bool
  | .manifest m => m.storePath = p
  | _ => false

def HubMsg.isChunk : HubMsg P H → Bool
  | .chunk _ => true
  | _ => false

/-- Whether a chunk comes after the last eof, given whether one did before. -/
def unfinished : Bool → List (HubMsg P H) → Bool
  | o, [] => o
  | _, .chunk (.data _) :: ms => unfinished true ms
  | _, .chunk .eof :: ms => unfinished false ms
  | o, .assignment _ :: ms | o, .tmpDir _ :: ms | o, .manifest _ :: ms | o, .cancel :: ms => unfinished o ms

theorem unfinished_append (o : Bool) (ms ms' : List (HubMsg P H)) :
    unfinished o (ms ++ ms') = unfinished (unfinished o ms) ms' := by
  induction ms generalizing o with
  | nil => rfl
  | cons m ms ih =>
    cases m with
    | chunk frame =>
      cases frame with
      | data hash => exact ih true
      | eof => exact ih false
    | _ => exact ih o

variable {ms : List (HubMsg P H)}

theorem unfinished_mono (h : unfinished false ms = true) : unfinished true ms = true := by
  induction ms with
  | nil => rfl
  | cons m ms ih =>
    cases m with
    | chunk frame =>
      cases frame with
      | data hash => exact h
      | eof => exact h
    | _ => exact ih h

theorem unfinished_cons {m : HubMsg P H} (h : unfinished false ms = true) : unfinished false (m :: ms) = true := by
  cases m with
  | chunk frame =>
    cases frame with
    | data hash => exact unfinished_mono h
    | eof => exact h
  | _ => exact h

theorem no_chunk_of_finished (hu : unfinished false ms = false)
    (he : ms.countP isEof = 0) : ∀ m ∈ ms, m.isChunk = false := by
  have htrue : ∀ ms : List (HubMsg P H), ms.countP isEof = 0 → unfinished true ms = true := by
    intro ms h
    induction ms with
    | nil => rfl
    | cons m ms ih =>
      rw [countP_cons] at h
      have hms := ih (by omega)
      cases m with
      | chunk frame =>
        cases frame with
        | data hash => exact hms
        | eof => simp [isEof] at h
      | _ => exact hms
  induction ms with
  | nil => simp
  | cons m ms ih =>
    rw [countP_cons] at he
    have hms : ms.countP isEof = 0 := by omega
    intro m' hm
    cases m with
    | chunk frame =>
      cases frame with
      | data hash =>
        rw [unfinished, htrue ms hms] at hu
        cases hu
      | eof => simp [isEof] at he
    | _ =>
      rcases mem_cons.mp hm with rfl | hm
      · rfl
      · exact ih hu hms m' hm

theorem unfinished_manifests (o : Bool) (ms : List (Manifest P H)) : unfinished o (ms.map manifest) = o := by
  induction ms with
  | nil => rfl
  | cons m ms ih => exact ih

/-! ### The invariants -/

structure RelayGood (cat : Catalog P H) (r : Relay P H) (toWorker : List (HubMsg P H)) (toHub : List (WorkerMsg P H)) :
    Prop where
  tasks : (r.tasks ++ r.unsent).Nodup
  computing : ∀ p, p ∈ r.computing ↔ p ∈ r.tasks ∨ p ∈ r.unsent
  early : r.firstNeed = true → r.computing = ∅
  needs : ∀ n, WorkerMsg.need n ∈ toHub → (∀ p ∈ n.paths, p ∈ r.offered) ∧ ∀ hash ∈ n.hashes, r.knows cat hash
  queued : ∀ q ∈ r.queued, ∀ hash ∈ q, r.knows cat hash
  serving : ∀ sv, r.serving = some sv → sv.complete = true
  manifests : ∀ m, manifest m ∈ toWorker → ∃ p ∈ r.sent, m = cat.manifest p
  frames : unfinished false toWorker = true → r.serving.isSome

/-- The paths requested by `Need`s on the way to the relay that it will answer with a
manifest: not those it sent inline and that the first `Need` names. -/
def Relay.requests (r : Relay P H) (toHub : List (WorkerMsg P H)) : List P :=
  match r.firstNeed, toHub with
  | true, m :: rest => m.paths.filter (· ∉ r.sent) ++ rest.flatMap paths
  | _, toHub => toHub.flatMap paths

def ActiveBuild.wants (x : ActiveBuild P H) (p : P) : Prop := p ∈ x.pending ∧ p ∉ x.chunks.recipes

instance (x : ActiveBuild P H) (p : P) : Decidable (x.wants p) := inferInstanceAs (Decidable (_ ∧ _))

structure Link (x : ActiveBuild P H) (r : Relay P H) (toWorker : List (HubMsg P H)) (toHub : List (WorkerMsg P H)) :
    Prop where
  counted : x.needsOutstanding =
    toHub.countP asks + r.queued.length + r.serves + toWorker.countP isEof
  first : r.firstNeed = true → toHub ≠ []
  known : ∀ p ∈ x.chunks.recipes, p ∈ r.sent
  requested : ∀ p, (r.requests toHub).count p + (if p ∈ r.computing then 1 else 0) +
    toWorker.countP (isManifest p) = if x.wants p then 1 else 0
  staging : ∀ e, result e ∉ toHub
  assigned : ∀ inputs, assignment inputs ∉ toWorker

/-! ### Steps of the relay -/

section RelaySteps

variable {cat : Catalog P H} {x : ActiveBuild P H} {r r' : Relay P H} {toWorker : List (HubMsg P H)}
variable {toHub : List (WorkerMsg P H)} {n : Need P H} {again : List (Manifest P H)}

theorem RelayGood.need (h : RelayGood cat r toWorker (.need n :: toHub)) (hn : Handles cat r n r' again) :
    RelayGood cat r' (toWorker ++ again.map .manifest) toHub := by
  obtain ⟨added, htasks, hnodup, hadded⟩ := hn.tasks
  have hknows : ∀ hash, r'.knows cat hash ↔ r.knows cat hash := by
    intro hash
    unfold knows
    rw [hn.sent]
  have hnew := h.needs n (by simp)
  have hfresh : ∀ p ∈ added, p ∉ r.tasks ∧ p ∉ r.unsent := by
    intro p hp
    have hc := ((hadded p).mp hp).2
    rw [h.computing, not_or] at hc
    exact hc
  refine ⟨?_, ?_, ?_, ?_, ?_, ?_, ?_, ?_⟩
  · have hperm : (r.tasks ++ added ++ r.unsent).Perm (r.tasks ++ r.unsent ++ added) := by
      rw [append_assoc, append_assoc]
      exact perm_append_comm.append_left _
    rw [htasks, hn.unsent, hperm.nodup_iff, nodup_append]
    refine ⟨h.tasks, hnodup, ?_⟩
    rintro p hp q hq rfl
    exact (mem_append.mp hp).elim (hfresh p hq).1 (hfresh p hq).2
  · intro p
    rw [htasks, hn.unsent, mem_append, hadded]
    by_cases hc : p ∈ r.computing
    · simp only [(hn.computing p).mpr (.inl hc), true_iff]
      exact ((h.computing p).mp hc).imp_left .inl
    · have hc' := hc
      rw [h.computing, not_or] at hc'
      simp [hc, hc'.1, hc'.2]
  · intro hf
    rw [hn.firstNeed] at hf
    cases hf
  · intro m hm
    simp only [hn.offered, hknows]
    exact h.needs m (mem_cons_of_mem _ hm)
  · intro q hq hash hh
    rw [hknows]
    rcases hn.queued q hq with hq | rfl
    · exact h.queued q hq hash hh
    · exact hnew.2 hash (mem_toFinset.mp hh)
  · intro sv hsv
    exact (hn.serving h.queued hnew.2 sv hsv).elim (h.serving sv) id
  · intro m hm
    rw [hn.sent]
    rcases mem_append.mp hm with hm | hm
    · exact h.manifests m hm
    · obtain ⟨m', hm', heq⟩ := mem_map.mp hm
      cases heq
      rw [hn.resent] at hm'
      split_ifs at hm'
      · cases hm'
      · obtain ⟨p, hp, rfl⟩ := mem_map.mp hm'
        exact ⟨p, by simpa using (mem_filter.mp hp).2, rfl⟩
  · intro hu
    rw [unfinished_append, unfinished_manifests] at hu
    exact hn.busy (h.frames hu)

theorem countP_manifests (p : P) (paths : List P) :
    ((paths.map cat.manifest).map manifest).countP (isManifest p) = paths.count p := by
  rw [map_map, countP_map]
  refine countP_congr fun q _ => ?_
  simp [isManifest, Catalog.manifest]

theorem countP_isEof_manifests (ms : List (Manifest P H)) : (ms.map manifest).countP isEof = 0 := by
  rw [countP_eq_zero]
  intro m hm
  obtain ⟨m', -, rfl⟩ := mem_map.mp hm
  simp [isEof]

theorem Link.need (h : Link x r toWorker (.need n :: toHub)) (hn : Handles cat r n r' again) :
    Link x r' (toWorker ++ again.map .manifest) toHub := by
  have hreq : ∀ p, (r'.requests toHub).count p = (toHub.flatMap paths).count p := by
    intro p
    unfold requests
    rw [hn.firstNeed]
  refine ⟨?_, ?_, ?_, ?_, ?_, ?_⟩
  · have hw := hn.waiting
    rw [h.counted, countP_append, countP_isEof_manifests, countP_cons]
    simp only [asks, ne_eq, decide_not, Bool.not_eq_true', decide_eq_false_iff_not]
    split_ifs at hw ⊢ <;> omega
  · intro hf
    rw [hn.firstNeed] at hf
    cases hf
  · rw [hn.sent]
    exact h.known
  · intro p
    have hp := h.requested p
    have hle : (if x.wants p then 1 else 0) ≤ 1 := by split_ifs <;> omega
    rw [hreq, countP_append, hn.resent]
    simp only [hn.computing]
    unfold requests at hp
    by_cases hs : p ∈ r.sent
    · have hc : (n.paths.filter (· ∈ r.sent)).count p = n.paths.count p := count_filter (by simpa using hs)
      have hz : (n.paths.filter (· ∉ r.sent)).count p = 0 := count_eq_zero.mpr (by simp [hs])
      simp only [hs, not_true_eq_false, and_false, or_false]
      cases hf : r.firstNeed <;>
        simp only [hf, flatMap_cons, paths, count_append, if_true, Bool.false_eq_true, if_false, map_nil,
          countP_nil, countP_manifests] at hp ⊢ <;> omega
    · have hc : (n.paths.filter (· ∉ r.sent)).count p = n.paths.count p := count_filter (by simpa using hs)
      have hz : (n.paths.filter (· ∈ r.sent)).count p = 0 := count_eq_zero.mpr (by simp [hs])
      cases hf : r.firstNeed <;>
        simp only [hf, flatMap_cons, paths, count_append, if_true, Bool.false_eq_true, if_false, map_nil,
          countP_nil, countP_manifests] at hp ⊢
      all_goals
        by_cases hm : p ∈ n.paths
        · have := count_pos_iff.mpr hm
          by_cases hcomp : p ∈ r.computing
          · simp only [hcomp, if_true] at hp
            omega
          · simp only [hcomp, if_false] at hp
            simp only [hm, hs, not_false_eq_true, and_self, or_true, if_true]
            omega
        · have := count_eq_zero.mpr hm
          simp only [hm, false_and, or_false]
          omega
  · intro e he
    exact h.staging e (mem_cons_of_mem _ he)
  · intro inputs hm
    rcases mem_append.mp hm with hm | hm
    · exact h.assigned inputs hm
    · obtain ⟨m, -, heq⟩ := mem_map.mp hm
      cases heq

variable (h : RelayGood cat r toWorker toHub)

include h

theorem RelayGood.computed {p : P} (hr : r.computed p = some r') : RelayGood cat r' toWorker toHub := by
  unfold Relay.computed at hr
  split_ifs at hr with hp
  cases hr
  have hperm : (r.tasks.erase p ++ (r.unsent ++ [p])).Perm (r.tasks ++ r.unsent) := by
    refine List.Perm.trans ?_ ((perm_cons_erase hp).append_right r.unsent).symm
    rw [← append_assoc]
    exact perm_append_singleton _ _
  refine ⟨hperm.nodup_iff.mpr h.tasks, fun q => ?_, h.early, h.needs, h.queued, h.serving, h.manifests, h.frames⟩
  rw [h.computing, ← mem_append, ← mem_append]
  exact hperm.mem_iff.symm

omit h in
theorem Link.computed (h : Link x r toWorker toHub) {p : P} (hr : r.computed p = some r') :
    Link x r' toWorker toHub := by
  unfold Relay.computed at hr
  split_ifs at hr
  cases hr
  exact ⟨h.counted, h.first, h.known, h.requested, h.staging, h.assigned⟩

theorem RelayGood.flush {m : Manifest P H} (hr : r.flush cat = some (r', m)) :
    RelayGood cat r' (toWorker ++ [.manifest m]) toHub := by
  unfold Relay.flush at hr
  split at hr
  · cases hr
  · rename_i p unsent hu
    cases hr
    have hcomp : p ∈ r.computing := (h.computing p).mpr (.inr (by simp [hu]))
    have hperm : (r.tasks ++ p :: unsent).Perm (p :: (r.tasks ++ unsent)) := perm_middle
    have hnodup := h.tasks
    rw [hu, hperm.nodup_iff, nodup_cons] at hnodup
    have hknows : ∀ hash, r.knows cat hash → knows cat { r with
        unsent := unsent, computing := r.computing.erase p, sent := r.sent ++ [p] } hash := by
      rintro hash ⟨q, hq, hh⟩
      exact ⟨q, mem_append_left _ hq, hh⟩
    refine ⟨hnodup.2, ?_, ?_, ?_, ?_, h.serving, ?_, ?_⟩
    · intro q
      rw [Finset.mem_erase, h.computing, hu, mem_cons]
      constructor
      · rintro ⟨hne, hq | rfl | hq⟩
        · exact .inl hq
        · exact absurd rfl hne
        · exact .inr hq
      · intro hq
        refine ⟨?_, hq.imp_right .inr⟩
        rintro rfl
        exact hnodup.1 (mem_append.mpr hq)
    · intro hf
      rw [h.early hf] at hcomp
      cases hcomp
    · intro n hn
      exact ⟨(h.needs n hn).1, fun hash hh => hknows hash ((h.needs n hn).2 hash hh)⟩
    · intro q hq hash hh
      exact hknows hash (h.queued q hq hash hh)
    · intro m hm
      rcases mem_append.mp hm with hm | hm
      · obtain ⟨q, hq, heq⟩ := h.manifests m hm
        exact ⟨q, mem_append_left _ hq, heq⟩
      · cases mem_singleton.mp hm
        exact ⟨p, by simp, rfl⟩
    · intro hu
      rw [unfinished_append] at hu
      exact h.frames hu

omit h in
theorem Link.flush (h : Link x r toWorker toHub) (hg : RelayGood cat r toWorker toHub) {m : Manifest P H}
    (hr : r.flush cat = some (r', m)) : Link x r' (toWorker ++ [.manifest m]) toHub := by
  unfold Relay.flush at hr
  split at hr
  · cases hr
  · rename_i p unsent hu
    cases hr
    have hcomp : p ∈ r.computing := (hg.computing p).mpr (.inr (by simp [hu]))
    have hfirst : r.firstNeed = false := by
      by_contra hf
      rw [hg.early (by simpa using hf)] at hcomp
      cases hcomp
    refine ⟨?_, h.first, ?_, ?_, h.staging, ?_⟩
    · rw [h.counted, countP_append]
      rfl
    · intro q hq
      exact mem_append_left _ (h.known q hq)
    · intro q
      have hq := h.requested q
      unfold requests at hq ⊢
      simp only [hfirst] at hq ⊢
      rw [countP_append, countP_singleton]
      simp only [isManifest, Catalog.manifest, Finset.mem_erase]
      by_cases hqp : q = p
      · subst hqp
        rw [if_pos hcomp] at hq
        simp only [ne_eq, not_true_eq_false, false_and, if_false, decide_true, if_true]
        omega
      · simpa [hqp, Ne.symm hqp] using hq
    · intro inputs hm
      rcases mem_append.mp hm with hm | hm
      · exact h.assigned inputs hm
      · cases mem_singleton.mp hm

theorem RelayGood.serve {cached : P → List H}
    {res : Except (RelayError P) (Relay P H × ChunkFrame H)} (hr : r.serve cat cached = some res) :
    ∃ r' frame, res = .ok (r', frame) ∧ r'.offered = r.offered ∧ RelayGood cat r' (toWorker ++ [.chunk frame]) toHub ∧
      ∀ x : ActiveBuild P H, Link x r toWorker toHub → Link x r' (toWorker ++ [.chunk frame]) toHub := by
  have hman : ∀ (frame : ChunkFrame H) m, manifest m ∈ toWorker ++ [.chunk frame] → manifest m ∈ toWorker := by
    intro frame m hm
    rcases mem_append.mp hm with hm | hm
    · exact hm
    · cases mem_singleton.mp hm
  have hass : ∀ (frame : ChunkFrame H) inputs, assignment inputs ∈ toWorker ++ [.chunk frame] →
      assignment inputs ∈ toWorker := by
    intro frame inputs hm
    rcases mem_append.mp hm with hm | hm
    · exact hm
    · cases mem_singleton.mp hm
  have hcount : ∀ (frame : ChunkFrame H) p, (toWorker ++ [chunk frame]).countP (isManifest p) =
      toWorker.countP (isManifest p) := by
    intro frame p
    rw [countP_append]
    rfl
  unfold Relay.serve at hr
  split at hr
  · cases hr
  · rename_i hash frames complete hs
    cases hr
    refine ⟨_, _, rfl, rfl, ⟨h.tasks, h.computing, h.early, h.needs, h.queued, ?_, ?_, fun _ => rfl⟩, ?_⟩
    · rintro _ ⟨⟩
      exact h.serving ⟨hash :: frames, complete⟩ hs
    · exact fun m hm => h.manifests m (hman _ m hm)
    · intro x hl
      refine ⟨?_, hl.first, hl.known, ?_, hl.staging, fun inputs hm => hl.assigned inputs (hass _ inputs hm)⟩
      · rw [hl.counted, countP_append]
        simp [serves, hs, isEof]
      · intro p
        rw [hcount]
        exact hl.requested p
  · rename_i hs
    cases hr
    have hturn := serveNext_spec cat cached (r := { r with serving := none }) rfl
    refine ⟨_, _, rfl, hturn.offered, ⟨?_, ?_, ?_, ?_, ?_, ?_, ?_, ?_⟩, ?_⟩
    · rw [hturn.tasks, hturn.unsent]
      exact h.tasks
    · rw [hturn.computing, hturn.tasks, hturn.unsent]
      exact h.computing
    · rw [hturn.firstNeed, hturn.computing]
      exact h.early
    · unfold knows
      rw [hturn.offered, hturn.sent]
      exact h.needs
    · intro q hq hash hh
      unfold knows
      rw [hturn.sent]
      exact h.queued q (hturn.queued q hq) hash hh
    · exact hturn.serving h.queued
    · intro m hm
      rw [hturn.sent]
      exact h.manifests m (hman _ m hm)
    · intro hu
      rw [unfinished_append] at hu
      cases hu
    · intro x hl
      refine ⟨?_, ?_, ?_, ?_, hl.staging, fun inputs hm => hl.assigned inputs (hass _ inputs hm)⟩
      · have hw := hturn.waiting
        rw [hl.counted, countP_append]
        simp only [serves, hs, Option.isSome_none, Option.isSome_some, Bool.false_eq_true, if_false, if_true,
          countP_singleton, isEof] at hw ⊢
        omega
      · rw [hturn.firstNeed]
        exact hl.first
      · rw [hturn.sent]
        exact hl.known
      · intro p
        have hp := hl.requested p
        unfold requests at hp ⊢
        rw [hcount, hturn.computing, hturn.firstNeed, hturn.sent]
        exact hp
  · rename_i hs
    have := h.serving _ hs
    cases this

theorem RelayGood.cancel : RelayGood cat { r with cancelSent := true } (toWorker ++ [.cancel]) toHub := by
  refine ⟨h.tasks, h.computing, h.early, h.needs, h.queued, h.serving, ?_, ?_⟩
  · intro m hm
    rcases mem_append.mp hm with hm | hm
    · exact h.manifests m hm
    · cases mem_singleton.mp hm
  · intro hu
    rw [unfinished_append] at hu
    exact h.frames hu

omit h

theorem Link.cancel (h : Link x r toWorker toHub) :
    Link x { r with cancelSent := true } (toWorker ++ [.cancel]) toHub := by
  refine ⟨?_, h.first, h.known, ?_, h.staging, ?_⟩
  · rw [h.counted, countP_append]
    rfl
  · intro p
    rw [countP_append]
    exact h.requested p
  · intro inputs hm
    rcases mem_append.mp hm with hm | hm
    · exact h.assigned inputs hm
    · cases mem_singleton.mp hm

end RelaySteps

/-! ### Steps of the worker -/

section WorkerSteps

variable {cat : Catalog P H} {x y : ActiveBuild P H} {r : Relay P H} {toWorker toWorker' : List (HubMsg P H)}
variable {toHub : List (WorkerMsg P H)} {m : HubMsg P H}

theorem RelayGood.pop (h : RelayGood cat r (m :: toWorker) toHub) : RelayGood cat r toWorker toHub :=
  ⟨h.tasks, h.computing, h.early, h.needs, h.queued, h.serving, fun m hm => h.manifests m (mem_cons_of_mem _ hm),
    fun hu => h.frames (unfinished_cons hu)⟩

theorem RelayGood.push (h : RelayGood cat r toWorker toHub) {msg : WorkerMsg P H}
    (hm : ∀ n, msg = .need n → (∀ p ∈ n.paths, p ∈ r.offered) ∧ ∀ hash ∈ n.hashes, r.knows cat hash) :
    RelayGood cat r toWorker (toHub ++ [msg]) := by
  refine ⟨h.tasks, h.computing, h.early, ?_, h.queued, h.serving, h.manifests, h.frames⟩
  intro n hn
  rcases mem_append.mp hn with hn | hn
  · exact h.needs n hn
  · exact hm n (mem_singleton.mp hn).symm

/-- The messages a handler's `Need` makes. -/
def needMsgs (need : Option (Need P H)) : List (WorkerMsg P H) := (need.map .need).toList

theorem countP_asks_needMsgs (need : Option (Need P H)) : (needMsgs need).countP asks = asked need := by
  cases need with
  | none => rfl
  | some n =>
    unfold needMsgs asked
    simp only [Option.map_some, Option.toList_some, countP_singleton, asks]
    by_cases hn : n.hashes = [] <;> simp [hn]

theorem flatMap_paths_needMsgs (need : Option (Need P H)) : (needMsgs need).flatMap paths = askedPaths need := by
  cases need with
  | none => rfl
  | some n => simp [needMsgs, paths, askedPaths]

theorem requests_append (hf : r.firstNeed = true → toHub ≠ []) (ms : List (WorkerMsg P H)) :
    r.requests (toHub ++ ms) = r.requests toHub ++ ms.flatMap paths := by
  unfold requests
  cases h : r.firstNeed with
  | false => simp
  | true =>
    cases toHub with
    | nil => exact absurd rfl (hf h)
    | cons m rest => simp

theorem Link.advance (h : Link x r toWorker toHub) {need : Option (Need P H)} (hsub : toWorker' ⊆ toWorker)
    (hcount : y.needsOutstanding + toWorker.countP isEof =
      x.needsOutstanding + toWorker'.countP isEof + asked need)
    (hwants : ∀ p, (if y.wants p then 1 else 0) + toWorker.countP (isManifest p) =
      (if x.wants p then 1 else 0) + toWorker'.countP (isManifest p) + (askedPaths need).count p)
    (hknown : ∀ p ∈ y.chunks.recipes, p ∈ r.sent) : Link y r toWorker' (toHub ++ needMsgs need) := by
  refine ⟨?_, ?_, hknown, ?_, ?_, ?_⟩
  · have := h.counted
    rw [countP_append, countP_asks_needMsgs]
    omega
  · intro hf hnil
    exact h.first hf (append_eq_nil_iff.mp hnil).1
  · intro p
    have h1 := h.requested p
    have h2 := hwants p
    rw [requests_append h.first, flatMap_paths_needMsgs, count_append]
    omega
  · intro e he
    rcases mem_append.mp he with he | he
    · exact h.staging e he
    · cases need with
      | none => cases he
      | some n => cases mem_singleton.mp he
  · exact fun inputs hm => h.assigned inputs (hsub hm)

theorem Link.quiet (h : Link x r toWorker toHub) (hn : y.needsOutstanding = x.needsOutstanding)
    (hwants : ∀ p, y.wants p ↔ x.wants p) (hrec : ∀ p ∈ y.chunks.recipes, p ∈ x.chunks.recipes) :
    Link y r toWorker (toHub ++ needMsgs none) := by
  refine h.advance (List.Subset.refl _) ?_ ?_ fun p hp => h.known p (hrec p hp)
  · rw [hn]
    rfl
  · intro p
    simp only [hwants, askedPaths, count_nil, add_zero]

end WorkerSteps

end Tribuchet.Staging
