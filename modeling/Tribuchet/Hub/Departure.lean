import Mathlib.Data.List.MinMax
import Tribuchet.Hub.Sessions

/-! Platforms of workers that just departed. Once a departure is recorded it is found for
the whole grace period; between the removal of a session's capabilities and the record of
its departure nothing speaks for its platform. -/

namespace Tribuchet.Hub.Sessions

open Runs List

variable {grace : ℕ} {s s' : State}

/-- The capabilities are removed and the departure is not recorded yet. -/
def Guard.midway : Guard → Bool
  | .uncapped _ | .unheld _ | .written _ | .stamped .. => true
  | .entered | .serving | .leaving | .dropped _ => false

/-- `servability` looks at the departures when no guard of a serving worker is midway. -/
def Recorded (s : State) : Action → Prop
  | .scanDeparted q => ∀ x ∈ s.queries q, ∀ id < s.nextWorkerId, ∀ y ∈ s.sessions id,
      y.caps.serves x.system x.features = true → y.guard.midway = false
  | _ => True

/-! ### Departures -/

/-- Times that were read lie in the past, and a departure is on record as long as it
matters. -/
structure Guard.Ok (grace now : ℕ) (departed : List (WorkerCaps × ℕ)) (caps : WorkerCaps) (g : Guard) : Prop where
  past : ∀ since, g.departed = some since → since ≤ now
  stamped : ∀ since stamp, g = .stamped since stamp → since ≤ stamp ∧ stamp ≤ now
  recorded : ∀ since, g = .dropped since → since + grace ≤ now ∨ ∃ stamp, since ≤ stamp ∧ (caps, stamp) ∈ departed

structure Timely (grace : ℕ) (s : State) : Prop where
  sessions : ∀ id x, s.sessions id = some x → x.guard.Ok grace s.now s.departed x.caps
  queries : ∀ q x clock, s.queries q = some x → x.clock = some clock → clock ≤ s.now
  answers : ∀ a ∈ s.answers, a.result = .never → a.recent = []

theorem timely_initial : Timely grace State.initial := by
  refine ⟨?_, ?_, ?_⟩ <;> simp [State.initial]

variable {departed : List (WorkerCaps × ℕ)}

theorem Guard.Ok.mono {now now' : ℕ} {departed' : List (WorkerCaps × ℕ)} {caps : WorkerCaps} {g : Guard}
    (h : g.Ok grace now departed caps) (hnow : now ≤ now')
    (hdep : ∀ stamp, (caps, stamp) ∈ departed → stamp + grace ≤ now' ∨ (caps, stamp) ∈ departed') :
    g.Ok grace now' departed' caps := by
  refine ⟨fun since hs => le_trans (h.past since hs) hnow, ?_, ?_⟩
  · intro since stamp hg
    have := h.stamped since stamp hg
    omega
  · intro since hg
    rcases h.recorded since hg with hle | ⟨stamp, hle, hm⟩
    · exact .inl (le_trans hle hnow)
    · rcases hdep stamp hm with hold | hm
      · exact .inl (by omega)
      · exact .inr ⟨stamp, hle, hm⟩

theorem mem_prune (grace clock : ℕ) {d : WorkerCaps × ℕ} (hd : d ∈ departed) :
    d.2 + grace ≤ clock ∨ d ∈ prune grace clock departed := by
  by_cases hlt : clock < d.2 + grace
  · exact .inr (mem_filter.mpr ⟨hd, decide_eq_true hlt⟩)
  · exact .inl (by omega)

variable (h : Timely grace s)

include h

theorem Timely.congr (hs : s'.sessions = s.sessions) (hd : s'.departed = s.departed)
    (hn : s'.now = s.now) (hq : s'.queries = s.queries) (ha : s'.answers = s.answers) : Timely grace s' := by
  refine ⟨?_, ?_, ha ▸ h.answers⟩
  · rw [hs, hd, hn]
    exact h.sessions
  · rw [hq, hn]
    exact h.queries

theorem Timely.setSession {id : ℕ} {x : Session} (hx : x.guard.Ok grace s.now s.departed x.caps) :
    Timely grace (s.setSession id x) := by
  refine ⟨?_, h.queries, h.answers⟩
  intro i y hy
  rw [setSession_sessions] at hy
  split_ifs at hy
  · cases hy
    exact hx
  · exact h.sessions i y hy

theorem Timely.setQuery {q : ℕ} {x : Option Query}
    (hx : ∀ y ∈ x, ∀ clock, y.clock = some clock → clock ≤ s.now) : Timely grace (s.setQuery q x) := by
  refine ⟨h.sessions, ?_, h.answers⟩
  intro i y clock hy hc
  rw [setQuery_queries] at hy
  split_ifs at hy
  · exact hx y hy clock hc
  · exact h.queries i y clock hy hc

theorem Timely.setDeparted
    (hdep : ∀ d ∈ s.departed, d.2 + grace ≤ s.now ∨ d ∈ departed) : Timely grace { s with departed := departed } :=
  ⟨fun id x hx => (h.sessions id x hx).mono le_rfl fun _ hm => hdep _ hm, h.queries, h.answers⟩

theorem Timely.answer {q : ℕ} {x : Query} {result : Servability}
    (hr : result = .never → ∀ id < s.nextWorkerId, ¬ s.departedLately grace x.system x.features id) :
    Timely grace (s.answer grace q x result) := by
  have hq : Timely grace (s.setQuery q none) := h.setQuery nofun
  refine ⟨hq.sessions, hq.queries, ?_⟩
  intro a ha hnever
  rcases mem_append.mp ha with ha | ha
  · exact h.answers a ha hnever
  · rw [mem_singleton.mp ha] at hnever ⊢
    refine filter_eq_nil_iff.mpr fun id hid => ?_
    simpa using hr hnever id (mem_range.mp hid)

omit h in
theorem Guard.Ok.move {now : ℕ} {caps : WorkerCaps} {g g' : Guard}
    (h : g.Ok grace now departed caps) (hdep : g'.departed = g.departed) (hst : ∀ since stamp, g' ≠ .stamped since stamp)
    (hdr : ∀ since, g' ≠ .dropped since) : g'.Ok grace now departed caps :=
  ⟨fun since hs => h.past since (hdep ▸ hs), fun since stamp hg => absurd hg (hst since stamp),
    fun since hg => absurd hg (hdr since)⟩

theorem Timely.not_departedLately {q clock : ℕ} {x : Query} (hx : s.queries q = some x)
    (hc : x.clock = some clock) (hrec : Recorded s (.scanDeparted q))
    (hnone : expectedDeadline grace (prune grace clock s.departed) x.system x.features = none) {id : ℕ}
    (hid : id < s.nextWorkerId) : ¬ s.departedLately grace x.system x.features id := by
  rintro ⟨y, hy, hserves, since, hsince, hlate⟩
  have hok := h.sessions id y hy
  have hclock := h.queries q x clock hx hc
  have hmid := hrec x hx id hid y hy hserves
  obtain ⟨since', hg⟩ : ∃ since, y.guard = .dropped since := by
    cases hg : y.guard with
    | dropped since => exact ⟨since, rfl⟩
    | entered | serving | leaving =>
      rw [hg] at hsince
      cases hsince
    | uncapped | unheld | written | stamped =>
      rw [hg] at hmid
      cases hmid
  rw [hg] at hsince
  cases hsince
  rcases hok.recorded since hg with hold | ⟨stamp, hle, hm⟩
  · omega
  · have hkept : (y.caps, stamp) ∈ prune grace clock s.departed := by
      rcases mem_prune grace clock hm with hold | hkept
      · dsimp only at hold
        omega
      · exact hkept
    have hnil := max?_eq_none_iff.mp hnone
    have hmem : stamp + grace ∈ ((prune grace clock s.departed).filter fun d => d.1.serves x.system x.features).map
        fun d => d.2 + grace := mem_map.mpr ⟨_, mem_filter.mpr ⟨hkept, hserves⟩, rfl⟩
    rw [hnil] at hmem
    cases hmem

theorem timely_step {a : Action} (ha : Recorded s a) (hs : step grace s a = some s') : Timely grace s' := by
  cases a with
  | enter caps =>
    cases hs
    have hset : Timely grace (s.setSession s.nextWorkerId ⟨caps, .entered, .unspawned, false⟩) :=
      h.setSession ⟨nofun, nofun, nofun⟩
    exact hset.congr rfl rfl rfl rfl rfl
  | serve id keys =>
    simp only [step] at hs
    split at hs
    · cases hs
    · rename_i x hx
      split_ifs at hs with hg
      cases hs
      have hset : Timely grace (s.setSession id { x with guard := .serving, route := .waiting }) := by
        refine h.setSession ((h.sessions id x hx).move ?_ nofun nofun)
        rw [hg]
        rfl
      exact hset.congr rfl rfl rfl rfl rfl
  | insertHeld id =>
    simp only [step] at hs
    split at hs
    · cases hs
    · rename_i x hx
      split at hs
      · cases hs
        have hset : Timely grace (s.setSession id { x with route := .waiting }) := h.setSession (h.sessions id x hx)
        exact hset.congr rfl rfl rfl rfl rfl
      · cases hs
  | heartbeat id keys | stopRoute id =>
    simp only [step] at hs
    split at hs
    · cases hs
    · rename_i x hx
      split_ifs at hs
      cases hs
      exact h.setSession (h.sessions id x hx)
  | leave id =>
    simp only [step] at hs
    split at hs
    · cases hs
    · rename_i x hx
      split_ifs at hs with hg
      cases hs
      refine h.setSession ((h.sessions id x hx).move ?_ nofun nofun)
      rw [hg]
      rfl
  | removeCaps id =>
    simp only [step] at hs
    split at hs
    · cases hs
    · rename_i x hx
      split_ifs at hs
      cases hs
      have hset : Timely grace (s.setSession id { x with guard := .uncapped s.now }) := by
        refine h.setSession ⟨fun since hg => ?_, nofun, nofun⟩
        cases hg
        exact le_rfl
      exact hset.congr rfl rfl rfl rfl rfl
  | removeHeld id =>
    simp only [step] at hs
    split at hs
    · cases hs
    · rename_i x hx
      split at hs
      · rename_i since hg
        cases hs
        have hset : Timely grace (s.setSession id { x with guard := .unheld since }) := by
          refine h.setSession ((h.sessions id x hx).move ?_ nofun nofun)
          rw [hg]
          rfl
        exact hset.congr rfl rfl rfl rfl rfl
      · cases hs
  | regenNixConfig id =>
    simp only [step] at hs
    split at hs
    · cases hs
    · rename_i x hx
      split at hs
      · rename_i since hg
        cases hs
        refine h.setSession ((h.sessions id x hx).move ?_ nofun nofun)
        rw [hg]
        rfl
      · cases hs
  | stamp id =>
    simp only [step] at hs
    split at hs
    · cases hs
    · rename_i x hx
      split at hs
      · rename_i since hg
        cases hs
        have hpast : since ≤ s.now := (h.sessions id x hx).past since (by rw [hg]; rfl)
        refine h.setSession ⟨fun since' hg => ?_, fun since' stamp hg => ?_, nofun⟩
        · cases hg
          exact hpast
        · cases hg
          exact ⟨hpast, le_rfl⟩
      · cases hs
  | recordDeparted id =>
    simp only [step] at hs
    split at hs
    · cases hs
    · rename_i x hx
      split at hs
      · rename_i since stamp hg
        cases hs
        obtain ⟨hle, hnow⟩ := (h.sessions id x hx).stamped since stamp hg
        have hpast : since ≤ s.now := le_trans hle hnow
        have hdep : Timely grace { s with departed := prune grace stamp s.departed ++ [(x.caps, stamp)] } := by
          refine h.setDeparted fun d hd => ?_
          rcases mem_prune grace stamp hd with hold | hkept
          · exact .inl (by omega)
          · exact .inr (mem_append_left _ hkept)
        have hset := @Timely.setSession _ _ hdep id { x with guard := .dropped since } (by
          refine ⟨fun since' hg => ?_, nofun, fun since' hg => ?_⟩
          · cases hg
            exact hpast
          · cases hg
            exact .inr ⟨stamp, hle, by simp⟩)
        exact hset.congr rfl rfl rfl rfl rfl
      · cases hs
  | ask q system features =>
    simp only [step] at hs
    split at hs
    · cases hs
    · split_ifs at hs
      · cases hs
        exact h.answer nofun
      · cases hs
        refine h.setQuery fun y hy clock hc => ?_
        cases hy
        cases hc
  | readClock q =>
    simp only [step] at hs
    split at hs
    · cases hs
    · split at hs
      · cases hs
      · split_ifs at hs
        · cases hs
          exact h.answer nofun
        · cases hs
          refine h.setQuery fun y hy clock hc => ?_
          cases hy
          cases hc
          exact le_rfl
  | scanDeparted q =>
    simp only [step] at hs
    split at hs
    · cases hs
    · rename_i x hx
      split at hs
      · cases hs
      · rename_i clock hc
        cases hs
        have hclock := h.queries q x clock hx hc
        refine Timely.setDeparted (h.answer fun hnever id hid => ?_) fun d hd => ?_
        · refine h.not_departedLately hx hc ha ?_ hid
          cases hd : expectedDeadline grace (prune grace clock s.departed) x.system x.features with
          | none => rfl
          | some deadline =>
            rw [hd] at hnever
            cases hnever
        · rcases mem_prune grace clock hd with hold | hkept
          · exact .inl (le_trans hold hclock)
          · exact .inr hkept
  | push job =>
    cases hs
    exact h.congr rfl rfl rfl rfl rfl
  | takeJob id | takeJobByKey id =>
    simp only [step] at hs
    split at hs
    · cases hs
    · split_ifs at hs
      obtain ⟨-, -, rfl⟩ := Option.map_eq_some_iff.mp hs
      exact h.congr rfl rfl rfl rfl rfl
  | tick seconds =>
    cases hs
    refine ⟨fun id x hx => ?_, fun q x clock hx hc => ?_, h.answers⟩
    · exact (h.sessions id x hx).mono (Nat.le_add_right _ _) fun stamp hm => .inr hm
    · exact le_trans (h.queries q x clock hx hc) (Nat.le_add_right _ _)

omit h

/-- In such runs a platform is given up only when no worker that served it departed less
than the grace period ago. -/
theorem never_not_lately_if_recorded (h : (system grace).ReachableIf Recorded s) {a : Answer} (ha : a ∈ s.answers)
    (hnever : a.result = .never) : a.recent = [] := by
  have ht : Timely grace s := by
    refine h.invariant ?_ ?_
    · rintro s rfl
      exact timely_initial
    · intro s a s' hs ha hstep
      exact timely_step hs ha hstep
  exact ht.answers a ha hnever

instance (s : State) (a : Action) : Decidable (Recorded s a) := by
  cases a <;> dsimp only [Recorded] <;> infer_instance

/-- A departed worker is waited for; after the grace period it is not. -/
theorem never_after_grace : ∃ s, (system 10).ReachableIf Recorded s ∧ s.answers =
    [⟨"x86_64-linux", [], .expectedBy 30, [0]⟩, ⟨"x86_64-linux", [], .never, []⟩] ∧
    ∀ a ∈ s.answers, a.result = .never → a.recent = [] := by
  obtain ⟨s, hr, htest⟩ := (system 10).exists_reachableIf_of_decide Recorded State.initial
    [.enter (capsOf "x86_64-linux"), .serve 0 [], .tick 20, .leave 0, .removeCaps 0, .removeHeld 0, .regenNixConfig 0, .stamp 0,
      .recordDeparted 0, .ask 0 "x86_64-linux" [], .readClock 0, .scanDeparted 0, .tick 10, .ask 0 "x86_64-linux" [],
      .readClock 0, .scanDeparted 0]
    (fun s => s.answers = [⟨"x86_64-linux", [], .expectedBy 30, [0]⟩, ⟨"x86_64-linux", [], .never, []⟩]) rfl (by decide)
  exact ⟨s, hr, htest, fun a ha hnever => never_not_lately_if_recorded hr ha hnever⟩

/-- While the guard writes the Nix config, the platform of its worker is given up. -/
theorem never_while_departing : ∃ s, (system 10).Reachable s ∧ s.answers = [⟨"x86_64-linux", [], .never, [0]⟩] := by
  exact (system 10).exists_reachable_of_exec State.initial
    [.enter (capsOf "x86_64-linux"), .serve 0 [], .tick 20, .leave 0, .removeCaps 0, .removeHeld 0, .ask 0 "x86_64-linux" [],
      .readClock 0, .scanDeparted 0, .regenNixConfig 0] _ rfl (by decide)

end Tribuchet.Hub.Sessions
