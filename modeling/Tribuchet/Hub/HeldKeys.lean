import Tribuchet.Hub.Sessions

/-! Whose keys are in `held`. The guard of a session removes its keys after it has aborted
the route task; a task that has received a heartbeat by then still enters its keys, and
nobody removes them again. -/

namespace Tribuchet.Hub.Sessions

open Runs Option List AList

variable {grace : ℕ} {s s' : State} {id : ℕ}

def State.connected (s : State) (id : ℕ) : Prop := ∃ x, s.sessions id = some x ∧ ∀ since, x.guard ≠ .dropped since

def Guard.holds : Guard → Bool
  | .serving | .leaving | .uncapped _ => true
  | .entered | .unheld _ | .written _ | .stamped .. | .dropped _ => false

/-- The guard removes the keys when the route task is not between a heartbeat and its
insertion. -/
def Quiet (s : State) : Action → Prop
  | .removeHeld id => ∀ x ∈ s.sessions id, ∀ keys, x.route ≠ .heartbeat keys
  | _ => True

/-- A task with a heartbeat belongs to a guard that has the removal ahead, and a task
without one gets no more once it is aborted. -/
structure Session.Ok (x : Session) : Prop where
  pending : ∀ keys, x.route = .heartbeat keys → x.guard.holds = true
  unspawned : x.guard = .entered → x.route = .unspawned
  aborted : x.aborted = false → x.guard = .entered ∨ x.guard = .serving

theorem Session.Ok.past {x : Session} (h : x.Ok) (hholds : x.guard.holds = false) (hne : x.guard ≠ .entered) {g : Guard}
    (hg : g ≠ .entered) : Session.Ok { x with guard := g } := by
  refine ⟨fun keys hc => ?_, fun hc => absurd hc hg, fun hc => ?_⟩
  · have := h.pending keys hc
    rw [hholds] at this
    cases this
  · rcases h.aborted hc with hc | hc
    · exact absurd hc hne
    · rw [hc] at hholds
      cases hholds

structure Tidy (s : State) : Prop where
  sessions : ∀ id x, s.sessions id = some x → x.Ok
  held : ∀ id ∈ s.held, ∃ x, s.sessions id = some x ∧ x.guard.holds = true
  fresh : ∀ id, s.nextWorkerId ≤ id → s.sessions id = none

theorem tidy_initial : Tidy State.initial := by
  refine ⟨?_, ?_, ?_⟩ <;> simp [State.initial]

theorem Tidy.setSession (h : Tidy s) {x x' : Session} (hx : s.sessions id = some x) (hok : x'.Ok)
    (hs : ∀ i, s'.sessions i = if i = id then some x' else s.sessions i) (hn : s'.nextWorkerId = s.nextWorkerId)
    (hheld : ∀ i ∈ s'.held, i ≠ id → i ∈ s.held) (hself : id ∈ s'.held → x'.guard.holds = true) : Tidy s' := by
  refine ⟨?_, ?_, ?_⟩
  · intro i y hy
    rw [hs] at hy
    split_ifs at hy
    · cases hy
      exact hok
    · exact h.sessions i y hy
  · intro i hi
    rw [hs]
    split_ifs with hid
    · exact ⟨x', rfl, hself (hid ▸ hi)⟩
    · exact h.held i (hheld i hi hid)
  · intro i hi
    rw [hn] at hi
    rw [hs, if_neg]
    · exact h.fresh i hi
    · rintro rfl
      rw [h.fresh i hi] at hx
      cases hx

theorem Tidy.holds (h : Tidy s) {x : Session} (hx : s.sessions id = some x) (hid : id ∈ s.held) :
    x.guard.holds = true := by
  obtain ⟨y, hy, hholds⟩ := h.held id hid
  cases hx.symm.trans hy
  exact hholds

theorem Tidy.past (h : Tidy s) {x : Session} (hx : s.sessions id = some x) (hholds : x.guard.holds = false)
    (hne : x.guard ≠ .entered) {g : Guard} (hg : g ≠ .entered)
    (hs : ∀ i, s'.sessions i = if i = id then some { x with guard := g } else s.sessions i)
    (hn : s'.nextWorkerId = s.nextWorkerId) (hheld : s'.held = s.held) : Tidy s' := by
  apply h.setSession hx ((h.sessions id x hx).past hholds hne hg) hs hn
  · intro i hi _
    exact hheld ▸ hi
  · intro hi
    have := h.holds hx (hheld ▸ hi)
    rw [hholds] at this
    cases this

theorem mem_takeJobByKey {worker : ℕ} {held held' : Held} {queue queue' : List Job} {j : Job}
    (h : takeJobByKey worker held queue = some (j, queue', held')) {i : ℕ} (hi : i ∈ held') : i ∈ held := by
  unfold takeJobByKey at h
  split at h
  · cases h
  · rename_i keys hkeys
    obtain ⟨found, -, heq⟩ := map_eq_some_iff.mp h
    cases heq
    rcases mem_insert _ |>.mp hi with rfl | hi
    · exact Table.mem_of_lookup hkeys
    · exact hi

theorem tidy_step {a : Action} (h : Tidy s) (ha : Quiet s a) (hs : step grace s a = some s') : Tidy s' := by
  have hcongr : ∀ {s' : State}, s'.sessions = s.sessions → s'.held = s.held → s'.nextWorkerId = s.nextWorkerId →
      Tidy s' := by
    intro s' h1 h2 h3
    refine ⟨h1 ▸ h.sessions, ?_, ?_⟩
    · rw [h1, h2]
      exact h.held
    · rw [h1, h3]
      exact h.fresh
  cases a with
  | enter caps =>
    cases hs
    refine ⟨?_, ?_, ?_⟩
    · intro i y hy
      rw [setSession_sessions] at hy
      split_ifs at hy
      · cases hy
        exact ⟨nofun, fun _ => rfl, fun _ => .inl rfl⟩
      · exact h.sessions i y hy
    · intro i hi
      obtain ⟨y, hy, hholds⟩ := h.held i hi
      refine ⟨y, ?_, hholds⟩
      rw [setSession_sessions, if_neg]
      · exact hy
      · rintro rfl
        rw [h.fresh _ le_rfl] at hy
        cases hy
    · intro i hi
      rw [setSession_sessions, if_neg (Nat.ne_of_gt hi)]
      exact h.fresh i (Nat.le_of_succ_le hi)
  | serve id keys =>
    simp only [step] at hs
    split at hs
    · cases hs
    · rename_i x hx
      split_ifs at hs with hg
      cases hs
      refine h.setSession hx ?_ (setSession_sessions id · _) rfl ?_ (fun _ => rfl)
      · exact ⟨nofun, nofun, fun _ => .inr rfl⟩
      · exact fun i hi hne => (mem_insert _ |>.mp hi).resolve_left hne
  | heartbeat id keys =>
    simp only [step] at hs
    split at hs
    · cases hs
    · rename_i x hx
      obtain ⟨⟨hroute, hab⟩, hs⟩ := ite_none_right_eq_some.mp hs
      cases hs
      have hok := h.sessions id x hx
      -- the task is spawned and not aborted, so the session is in its loop
      have hserving : x.guard = .serving := by
        refine (hok.aborted hab).resolve_left fun hc => ?_
        have := hok.unspawned hc
        rw [hroute] at this
        cases this
      refine h.setSession hx ?_ (setSession_sessions id · _) rfl (fun i hi _ => hi) (fun hi => (h.holds hx hi :))
      refine ⟨fun _ _ => ?_, fun hc => ?_, hok.aborted⟩
      · show x.guard.holds = true
        rw [hserving]
        rfl
      · rw [show x.guard = .entered from hc] at hserving
        cases hserving
  | insertHeld id =>
    simp only [step] at hs
    split at hs
    · cases hs
    · rename_i x hx
      split at hs
      · rename_i keys hroute
        cases hs
        have hok := h.sessions id x hx
        have hholds := hok.pending keys hroute
        refine h.setSession hx ?_ (setSession_sessions id · _) rfl ?_ (fun _ => hholds)
        · refine ⟨nofun, fun hc => ?_, hok.aborted⟩
          rw [show x.guard = .entered from hc] at hholds
          cases hholds
        · exact fun i hi hne => (mem_insert _ |>.mp hi).resolve_left hne
      · cases hs
  | stopRoute id =>
    simp only [step] at hs
    split at hs
    · cases hs
    · rename_i x hx
      split_ifs at hs with hroute
      cases hs
      have hok := h.sessions id x hx
      refine h.setSession hx ?_ (setSession_sessions id · _) rfl (fun i hi _ => hi) (fun hi => (h.holds hx hi :))
      refine ⟨nofun, fun hc => ?_, hok.aborted⟩
      rw [hok.unspawned hc] at hroute
      cases hroute
  | leave id =>
    simp only [step] at hs
    split at hs
    · cases hs
    · rename_i x hx
      split_ifs at hs
      cases hs
      refine h.setSession hx ?_ (setSession_sessions id · _) rfl (fun i hi _ => hi) (fun _ => rfl)
      exact ⟨fun _ _ => rfl, nofun, nofun⟩
  | removeCaps id =>
    simp only [step] at hs
    split at hs
    · cases hs
    · rename_i x hx
      split_ifs at hs with hg
      cases hs
      have hok := h.sessions id x hx
      refine h.setSession hx ?_ (setSession_sessions id · _) rfl (fun i hi _ => hi) (fun _ => rfl)
      refine ⟨fun _ _ => rfl, nofun, fun hc => ?_⟩
      rcases hok.aborted hc with hc | hc <;> rw [hg] at hc <;> cases hc
  | removeHeld id =>
    simp only [step] at hs
    split at hs
    · cases hs
    · rename_i x hx
      split at hs
      · rename_i since hg
        cases hs
        have hok := h.sessions id x hx
        refine h.setSession hx ?_ (setSession_sessions id · _) rfl ?_ ?_
        · refine ⟨fun keys hc => absurd hc (ha x hx keys), nofun, fun hc => ?_⟩
          rcases hok.aborted hc with hc | hc <;> rw [hg] at hc <;> cases hc
        · exact fun i hi _ => ((mem_erase).mp hi).2
        · exact fun hi => absurd rfl ((mem_erase).mp hi).1
      · cases hs
  | regenNixConfig id | stamp id | recordDeparted id =>
    simp only [step] at hs
    split at hs
    · cases hs
    · rename_i x hx
      split at hs
      · rename_i hg
        cases hs
        exact h.past hx (by rw [hg]; rfl) (by simp [hg]) (by simp) (setSession_sessions id · _) rfl rfl
      · cases hs
  | ask q system features =>
    simp only [step] at hs
    split at hs
    · cases hs
    · split_ifs at hs <;> cases hs <;> exact hcongr rfl rfl rfl
  | readClock q =>
    simp only [step] at hs
    split at hs
    · cases hs
    · split at hs
      · cases hs
      · split_ifs at hs <;> cases hs <;> exact hcongr rfl rfl rfl
  | scanDeparted q =>
    simp only [step] at hs
    split at hs
    · cases hs
    · split at hs
      · cases hs
      · cases hs
        exact hcongr rfl rfl rfl
  | takeJob id =>
    simp only [step] at hs
    split at hs
    · cases hs
    · split_ifs at hs
      obtain ⟨-, -, rfl⟩ := map_eq_some_iff.mp hs
      exact hcongr rfl rfl rfl
  | takeJobByKey id =>
    simp only [step] at hs
    split at hs
    · cases hs
    · split_ifs at hs
      obtain ⟨⟨j, queue, held⟩, htake, rfl⟩ := map_eq_some_iff.mp hs
      exact ⟨h.sessions, fun i hi => h.held i (mem_takeJobByKey htake hi), h.fresh⟩
  | push job | tick seconds =>
    cases hs
    exact hcongr rfl rfl rfl

/-! ### Every queued job can be taken -/

def State.holds (s : State) (id : ℕ) (key : String) : Prop := ∃ keys, s.held.lookup id = some keys ∧ key ∈ keys

theorem removeFirst_cons {p : Job → Bool} {j : Job} (hj : p j = true) (queue : List Job) :
    removeFirst p (j :: queue) = some (j, queue) := by
  simp [removeFirst, findIdx?_cons, hj]

theorem removeFirst_isSome {p : Job → Bool} {j : Job} {queue : List Job} (hmem : j ∈ queue) (hj : p j = true) :
    (removeFirst p queue).isSome := by
  unfold removeFirst
  cases hfind : queue.findIdx? p with
  | none =>
    have := findIdx?_eq_none_iff.mp hfind j hmem
    rw [hj] at this
    cases this
  | some pos =>
    obtain ⟨hlt, -⟩ := findIdx?_eq_some_iff_getElem.mp hfind
    simp [getElem?_eq_getElem hlt]

theorem elsewhere_eq_false {held : Held} {worker : ℕ} {key : String}
    (h : ∀ i keys, held.lookup i = some keys → key ∉ keys) : elsewhere held worker key = false := by
  refine any_eq_false.mpr fun e he => ?_
  have hno := h e.1 e.2 (mem_lookup_iff.mpr he)
  simp [hno]

/-- In such runs `held` has keys of connected sessions only, and a queued job that a
connected worker serves is taken when its turn comes: by that worker, if nobody holds its
key, and otherwise by a connected one that does. -/
theorem held_connected_if_quiet (h : (system grace).ReachableIf Quiet s) : (∀ id ∈ s.held, s.connected id) ∧
      ∀ j ∈ s.queue, ∀ id x, s.sessions id = some x → s.connected id → x.caps.serves j.system j.features = true →
        ((∀ i, s.connected i → ¬ s.holds i j.key) ∧ (takeEligible x.caps id s.held s.queue).isSome ∧
          ∀ queue, takeEligible x.caps id s.held (j :: queue) = some (j, queue)) ∨
        ∃ i, s.connected i ∧ s.holds i j.key ∧ (takeJobByKey i s.held s.queue).isSome ∧
          ∀ queue, ∃ held, takeJobByKey i s.held (j :: queue) = some (j, queue, held) := by
  have htidy : Tidy s := by
    refine h.invariant ?_ ?_
    · rintro s rfl
      exact tidy_initial
    · intro s a s' hs ha hstep
      exact tidy_step hs ha hstep
  have hconn : ∀ id ∈ s.held, s.connected id := by
    intro id hid
    obtain ⟨x, hx, hholds⟩ := htidy.held id hid
    refine ⟨x, hx, fun since hc => ?_⟩
    rw [hc] at hholds
    cases hholds
  refine ⟨hconn, fun j hj id x hx _ hserves => ?_⟩
  by_cases hany : ∃ i, s.holds i j.key
  · obtain ⟨i, keys, hkeys, hmem⟩ := hany
    have hcontains : keys.contains j.key = true := elem_eq_true_of_mem hmem
    refine .inr ⟨i, hconn i (Table.mem_of_lookup hkeys), ⟨keys, hkeys, hmem⟩, ?_, fun queue => ?_⟩
    · unfold takeJobByKey
      rw [hkeys]
      dsimp only
      rw [isSome_map]
      exact removeFirst_isSome hj hcontains
    · unfold takeJobByKey
      rw [hkeys]
      exact ⟨_, by dsimp only; rw [removeFirst_cons hcontains]; rfl⟩
  · have heligible : (x.caps.serves j.system j.features && !elsewhere s.held id j.key) = true := by
      rw [hserves, elsewhere_eq_false fun i keys hkeys hmem => hany ⟨i, keys, hkeys, hmem⟩]
      rfl
    exact .inl ⟨fun i _ hi => hany ⟨i, hi⟩, removeFirst_isSome hj heligible, fun queue => removeFirst_cons heligible queue⟩

def Route.entering : Route → Bool
  | .heartbeat _ => true
  | .unspawned | .waiting | .stopped => false

instance (r : Route) : Decidable (∀ keys, r ≠ .heartbeat keys) := 
  decidable_of_iff (r.entering = false) (by cases r <;> simp [Route.entering])

instance (s : State) (a : Action) : Decidable (Quiet s a) :=
  match a with
  | .removeHeld id => inferInstanceAs (Decidable (∀ x ∈ s.sessions id, ∀ keys, x.route ≠ .heartbeat keys))
  | .enter _ | .serve .. | .heartbeat .. | .insertHeld _ | .stopRoute _ | .leave _ | .removeCaps _
  | .regenNixConfig _ | .stamp _ | .recordDeparted _ | .ask .. | .readClock _ | .scanDeparted _ | .push _ | .takeJob _
  | .takeJobByKey _ | .tick _ => inferInstanceAs (Decidable True)

/-- The first worker is torn down between two heartbeats; the second can take the job. -/
theorem held_connected_after_teardown : ∃ s, (system 10).ReachableIf Quiet s ∧
    s.queue = [⟨"j1", "k1", "aarch64-darwin", []⟩] ∧ (s.sessions 1).isSome ∧ ∀ id ∈ s.held, s.connected id := by
  obtain ⟨s, hr, htest⟩ := (system 10).exists_reachableIf_of_decide Quiet State.initial
    [.enter (capsOf "aarch64-darwin"), .serve 0 [], .heartbeat 0 ["k1"], .insertHeld 0, .leave 0, .removeCaps 0, .removeHeld 0,
      .regenNixConfig 0, .stamp 0, .recordDeparted 0, .enter (capsOf "aarch64-darwin"), .serve 1 [],
      .push ⟨"j1", "k1", "aarch64-darwin", []⟩]
    (fun s => s.queue = [⟨"j1", "k1", "aarch64-darwin", []⟩] ∧ (s.sessions 1).isSome) rfl (by decide)
  obtain ⟨hqueue, hsess⟩ := htest
  exact ⟨s, hr, hqueue, hsess, (held_connected_if_quiet hr).1⟩

/-- The route task enters its keys after the guard has removed them: no worker ever takes a
job with such a key. -/
theorem held_stale_after_teardown : ∃ s, (system 10).Reachable s ∧ s.held.lookup 0 = some ["k1"] ∧
    (s.sessions 0).map Session.guard = some (.dropped 0) ∧ (s.sessions 1).map Session.guard = some .serving ∧
    s.queue = [⟨"j1", "k1", "aarch64-darwin", []⟩] ∧
    (takeEligible (capsOf "aarch64-darwin") 1 s.held s.queue).isNone ∧ (takeJobByKey 1 s.held s.queue).isNone := by
  exact (system 10).exists_reachable_of_exec State.initial
    [.enter (capsOf "aarch64-darwin"), .serve 0 [], .heartbeat 0 ["k1"], .leave 0, .removeCaps 0, .removeHeld 0, .insertHeld 0,
      .regenNixConfig 0, .stamp 0, .recordDeparted 0, .enter (capsOf "aarch64-darwin"), .serve 1 [],
      .push ⟨"j1", "k1", "aarch64-darwin", []⟩] _ rfl (by decide)

end Tribuchet.Hub.Sessions
