import Tribuchet.Worker.Registry

/-! No finished build stays undelivered. A call of `try_deliver` that finds another
delivery of its key in flight gives up, so it has to rely on that delivery carrying the
id and the session of the latest assignment. -/

set_option linter.unusedSectionVars false

namespace Tribuchet.Worker.Resume

open Runs List Option

variable {K I H : Type} [DecidableEq K] [DecidableEq I] [DecidableEq H]
variable {s s' : State K I H} {key : K} {id : I} {a : Action K I H}

/-- A call of `try_deliver` gives up on account of a delivery in flight only if that one
carries the latest id of the build. -/
def Current (s : State K I H) : Action K I H → Prop
  | .tryDeliver key => ∀ e ∈ s.registry.lookup key, e.delivering = true →
      ∃ d ∈ s.deliveries, d.key = key ∧ d.buildId = e.buildId
  | _ => True

theorem isUp_congr (hsession : s'.session = s.session) (hup : s'.up = s.up) (n : ℕ) : s'.isUp n = s.isUp n := by
  unfold State.isUp
  rw [hsession, hup]

/-- The result of a build was sent to the session of its latest assignment, or somebody
is going to see to it. -/
def SeenTo (s : State K I H) (key : K) (e : Entry I H) (n : ℕ) (fin : Finished H) : Prop :=
  (n, .result e.buildId fin) ∈ s.sent ∨ key ∈ s.calls ∨ s.loop.key = some key ∨
    ⟨key, e.buildId, n, fin, false⟩ ∈ s.deliveries

structure Cared (s : State K I H) : Prop where
  latest : ∀ d ∈ s.deliveries, ∀ e, s.registry.lookup d.key = some e → d.buildId = e.buildId →
    e.outTx = some d.session ∧ e.finished = some d.fin
  done : ∀ d ∈ s.deliveries, d.done = true → (d.session, .result d.buildId d.fin) ∈ s.sent ∨ ¬ s.isUp d.session
  due : ∀ k e fin n, s.registry.lookup k = some e → e.finished = some fin → e.outTx = some n → s.isUp n →
    SeenTo s k e n fin

theorem cared_initial : Cared (State.initial : State K I H) := by
  refine ⟨?_, ?_, ?_⟩ <;> simp [State.initial]

variable (h : Cared s)

include h

theorem Cared.mono (hn : Numbered s)
    (hreg : ∀ k e', s'.registry.lookup k = some e' → ∃ e, s.registry.lookup k = some e ∧ e.buildId = e'.buildId ∧
      e.outTx = e'.outTx ∧ e.finished = e'.finished)
    (hdel : ∀ d ∈ s'.deliveries, d ∈ s.deliveries) (hwaits : ∀ d ∈ s.deliveries, d.done = false → d ∈ s'.deliveries)
    (hsent : ∀ m ∈ s.sent, m ∈ s'.sent) (hup : ∀ n ≤ s.session, s'.isUp n → s.isUp n) (hcalls : ∀ k ∈ s.calls, k ∈ s'.calls)
    (hloop : ∀ k, s'.up = true → s.loop.key = some k → s'.loop.key = some k ∨ k ∈ s'.calls) : Cared s' := by
  refine ⟨?_, ?_, ?_⟩
  · intro d hd e' he' hid
    obtain ⟨e, he, hid', hout, hfin⟩ := hreg d.key e' he'
    rw [← hout, ← hfin]
    exact h.latest d (hdel d hd) e he (hid.trans hid'.symm)
  · intro d hd hover
    rcases h.done d (hdel d hd) hover with hm | hdown
    · exact .inl (hsent _ hm)
    · exact .inr fun hc => hdown (hup _ (hn.deliveries d (hdel d hd)).2 hc)
  · intro k e' fin n he' hfin hout hisUp
    obtain ⟨e, he, hid, hout', hfin'⟩ := hreg k e' he'
    rw [← hfin'] at hfin
    rw [← hout'] at hout
    unfold SeenTo
    rw [← hid]
    rcases h.due k e fin n he hfin hout (hup n (hn.senders k e n he hout) hisUp) with hm | hc | hl | hd
    · exact .inl (hsent _ hm)
    · exact .inr (.inl (hcalls k hc))
    · rcases hloop k hisUp.2 hl with hl | hc
      · exact .inr (.inr (.inl hl))
      · exact .inr (.inl hc)
    · exact .inr (.inr (.inr (hwaits _ hd rfl)))

theorem Cared.setId (hn : Numbered s) {e : Entry I H} (he : e.buildId = id) (hid : id ∉ s.assigned)
    (hreg : ∀ k, s'.registry.lookup k = if k = key then some e else s.registry.lookup k)
    (hself : e.finished = none ∨ s'.loop.key = some key)
    (hdel : s'.deliveries = s.deliveries) (hsent : s'.sent = s.sent) (hsession : s'.session = s.session)
    (hup : s'.up = s.up) (hcalls : s'.calls = s.calls)
    (hloop : ∀ k, s.loop.key = some k → s'.loop.key = some k) : Cared s' := by
  have hold : ∀ k e', s'.registry.lookup k = some e' → k ≠ key → s.registry.lookup k = some e' := by
    intro k e' he' hk
    rw [hreg, if_neg hk] at he'
    exact he'
  have hnew : ∀ e', s'.registry.lookup key = some e' → e' = e := by
    intro e' he'
    rw [hreg, if_pos rfl] at he'
    exact (some.inj he').symm
  have hisUp : ∀ n, s'.isUp n = s.isUp n := isUp_congr hsession hup
  refine ⟨?_, ?_, ?_⟩
  · intro d hd e' he' heq
    rw [hdel] at hd
    by_cases hk : d.key = key
    · rw [hk] at he'
      rw [hnew e' he', he] at heq
      exact absurd (heq ▸ (hn.deliveries d hd).1) hid
    · exact h.latest d hd e' (hold _ e' he' hk) heq
  · intro d hd hover
    rw [hdel] at hd
    rw [hsent, hisUp]
    exact h.done d hd hover
  · intro k e' fin n he' hfin hout hup'
    unfold SeenTo
    rw [hsent, hcalls, hdel]
    by_cases hk : k = key
    · subst hk
      rw [hnew e' he'] at hfin
      rcases hself with hnone | hl
      · rw [hnone] at hfin
        cases hfin
      · exact .inr (.inr (.inl hl))
    · rcases h.due k e' fin n (hold k e' he' hk) hfin hout (hisUp n ▸ hup') with hm | hc | hl | hd
      · exact .inl hm
      · exact .inr (.inl hc)
      · exact .inr (.inr (.inl (hloop k hl)))
      · exact .inr (.inr (.inr hd))

theorem Cared.giveUp (hnone : s.deliverable key = none) (hcur : Current s (.tryDeliver key)) :
    Cared { s with calls := s.calls.erase key } := by
  refine ⟨h.latest, h.done, ?_⟩
  intro k e fin n he hfin hout hup
  by_cases hk : k = key
  · subst hk
    have hdel : e.delivering = true := by
      by_contra hno
      have hsome : s.deliverable k = some (e, n, fin) :=
        deliverable_eq_some.mpr ⟨he, by simpa using hno, hfin, hout⟩
      rw [hnone] at hsome
      cases hsome
    obtain ⟨⟨dk, di, dn, df, done⟩, hd, hkey, hid⟩ := hcur e he hdel
    dsimp only at hkey hid
    subst hkey hid
    obtain ⟨hout', hfin'⟩ := h.latest _ hd e he rfl
    obtain rfl : n = dn := some.inj (hout.symm.trans hout')
    obtain rfl : fin = df := some.inj (hfin.symm.trans hfin')
    cases done with
    | false => exact .inr (.inr (.inr hd))
    | true =>
      rcases h.done _ hd rfl with hm | hdown
      · exact .inl hm
      · exact absurd hup hdown
  · rcases h.due k e fin n he hfin hout hup with hm | hc | hl | hd
    · exact .inl hm
    · exact .inr (.inl ((mem_erase_of_ne hk).mpr hc))
    · exact .inr (.inr (.inl hl))
    · exact .inr (.inr (.inr hd))

theorem Cared.takeUp {e : Entry I H} {session : ℕ} {fin : Finished H}
    (he : s.registry.lookup key = some e) (hfin : e.finished = some fin) (hout : e.outTx = some session) :
    Cared { s.setEntry key { e with delivering := true } with
      calls := s.calls.erase key, deliveries := ⟨key, e.buildId, session, fin, false⟩ :: s.deliveries } := by
  have hreg : ∀ k e', (s.setEntry key { e with delivering := true }).registry.lookup k = some e' →
      ∃ e₀, s.registry.lookup k = some e₀ ∧ e₀.buildId = e'.buildId ∧ e₀.outTx = e'.outTx ∧
        e₀.finished = e'.finished := by
    intro k e' he'
    rw [lookup_setEntry] at he'
    split_ifs at he' with hk
    · cases he'
      exact ⟨e, hk ▸ he, rfl, rfl, rfl⟩
    · exact ⟨e', he', rfl, rfl, rfl⟩
  refine ⟨?_, ?_, ?_⟩
  · intro d hd e' he' hid
    obtain ⟨e₀, h₀, hid', hout', hfin'⟩ := hreg d.key e' he'
    rw [← hout', ← hfin']
    rcases mem_cons.mp hd with rfl | hd
    · obtain rfl : e = e₀ := some.inj (he.symm.trans h₀)
      exact ⟨hout, hfin⟩
    · exact h.latest d hd e₀ h₀ (hid.trans hid'.symm)
  · intro d hd hover
    rcases mem_cons.mp hd with rfl | hd
    · cases hover
    · exact h.done d hd hover
  · intro k e' fin' n he' hfin' hn hup
    obtain ⟨e₀, h₀, hid, hout', hfin₀⟩ := hreg k e' he'
    rw [← hfin₀] at hfin'
    rw [← hout'] at hn
    unfold SeenTo
    rw [← hid]
    by_cases hk : k = key
    · subst hk
      obtain rfl : e = e₀ := some.inj (he.symm.trans h₀)
      obtain rfl : n = session := some.inj (hn.symm.trans hout)
      obtain rfl : fin' = fin := some.inj (hfin'.symm.trans hfin)
      exact .inr (.inr (.inr (mem_cons_self ..)))
    · rcases h.due k e₀ fin' n h₀ hfin' hn hup with hm | hc | hl | hd
      · exact .inl hm
      · exact .inr (.inl ((mem_erase_of_ne hk).mpr hc))
      · exact .inr (.inr (.inl hl))
      · exact .inr (.inr (.inr (mem_cons_of_mem _ hd)))

theorem Cared.finish {e : Entry I H} {fin : Finished H} (serials : ℕ)
    (he : s.registry.lookup key = some e) (hfin : e.finished = none) :
    Cared { s.setEntry key { e with finished := some fin } with serials := serials, calls := s.calls ++ [key] } := by
  have hreg : ∀ k e', (s.setEntry key { e with finished := some fin }).registry.lookup k = some e' →
      ∃ e₀, s.registry.lookup k = some e₀ ∧ e₀.buildId = e'.buildId ∧ e₀.outTx = e'.outTx ∧ (k ≠ key → e₀ = e') := by
    intro k e' he'
    rw [lookup_setEntry] at he'
    split_ifs at he' with hk
    · cases he'
      exact ⟨e, hk ▸ he, rfl, rfl, fun hne => absurd hk hne⟩
    · exact ⟨e', he', rfl, rfl, fun _ => rfl⟩
  refine ⟨?_, h.done, ?_⟩
  · intro d hd e' he' hid
    obtain ⟨e₀, h₀, hid', -, heq⟩ := hreg d.key e' he'
    have hlatest := h.latest d hd e₀ h₀ (hid.trans hid'.symm)
    by_cases hk : d.key = key
    · rw [hk, he] at h₀
      obtain rfl := some.inj h₀
      rw [hfin] at hlatest
      cases hlatest.2
    · exact heq hk ▸ hlatest
  · intro k e' fin' n he' hfin' hn hup
    by_cases hk : k = key
    · exact .inr (.inl (by simp [hk]))
    · obtain ⟨e₀, h₀, -, -, heq⟩ := hreg k e' he'
      obtain rfl := heq hk
      rcases h.due k e₀ fin' n h₀ hfin' hn hup with hm | hc | hl | hd
      · exact .inl hm
      · exact .inr (.inl (mem_append_left _ hc))
      · exact .inr (.inr (.inl hl))
      · exact .inr (.inr (.inr hd))

theorem Cared.deliver {d : Delivery K I H} (hd : d ∈ s.deliveries) :
    Cared { s.send d.session (.result d.buildId d.fin) with
      deliveries := { d with done := true } :: s.deliveries.erase d } := by
  have hsent : ∀ m ∈ s.sent, m ∈ (s.send d.session (.result d.buildId d.fin)).sent := by
    intro m hm
    rw [send_sent]
    split_ifs
    · exact mem_append_left _ hm
    · exact hm
  have hself : s.isUp d.session →
      (d.session, .result d.buildId d.fin) ∈ (s.send d.session (.result d.buildId d.fin)).sent := by
    intro hup
    rw [send_sent, if_pos hup]
    exact mem_append_right _ (mem_singleton_self _)
  have hisUp : ∀ n, (s.send d.session (.result d.buildId d.fin)).isUp n → s.isUp n := by
    intro n hup
    rw [← isUp_congr (send_session s ..) (send_up s ..)]
    exact hup
  have hreg := send_registry s d.session (.result d.buildId d.fin)
  -- the copy that is over has the same key, id, session and result
  have hdel : ∀ d' ∈ { d with done := true } :: s.deliveries.erase d, ∃ d₀ ∈ s.deliveries, d₀.key = d'.key ∧
      d₀.buildId = d'.buildId ∧ d₀.session = d'.session ∧ d₀.fin = d'.fin := by
    intro d' hd'
    rcases mem_cons.mp hd' with rfl | hd'
    · exact ⟨d, hd, rfl, rfl, rfl, rfl⟩
    · exact ⟨d', mem_of_mem_erase hd', rfl, rfl, rfl, rfl⟩
  refine ⟨?_, ?_, ?_⟩
  · intro d' hd' e he hid
    obtain ⟨d₀, h₀, hkey, hid₀, hsess, hfin⟩ := hdel d' hd'
    rw [hreg, ← hkey] at he
    rw [← hsess, ← hfin]
    exact h.latest d₀ h₀ e he (hid₀.trans hid)
  · intro d' hd' hover
    rcases mem_cons.mp hd' with rfl | hd'
    · by_cases hup : s.isUp d.session
      · exact .inl (hself hup)
      · exact .inr fun hc => hup (hisUp _ hc)
    · rcases h.done d' (mem_of_mem_erase hd') hover with hm | hdown
      · exact .inl (hsent _ hm)
      · exact .inr fun hc => hdown (hisUp _ hc)
  · intro k e fin n he hfin hn hup
    rw [hreg] at he
    have hup' : s.isUp n := hisUp n hup
    rcases h.due k e fin n he hfin hn hup' with hm | hc | hl | hd'
    · exact .inl (hsent _ hm)
    · exact .inr (.inl (send_calls s .. ▸ hc))
    · exact .inr (.inr (.inl (send_loop s .. ▸ hl)))
    · by_cases heq : d = ⟨k, e.buildId, n, fin, false⟩
      · subst heq
        exact .inl (hself hup')
      · exact .inr (.inr (.inr (mem_cons_of_mem _ ((mem_erase_of_ne (Ne.symm heq)).mpr hd'))))

theorem cared_step (hn : Numbered s) (ha : Current s a) (hs : Step s a s') : Cared s' := by
  have hsame : ∀ k e, s.registry.lookup k = some e → ∃ e₀, s.registry.lookup k = some e₀ ∧ e₀.buildId = e.buildId ∧
      e₀.outTx = e.outTx ∧ e₀.finished = e.finished := fun k e he => ⟨e, he, rfl, rfl, rfl⟩
  -- a delivery that is over sees to nothing
  have hkeep : ∀ d : Delivery K I H, d.done = true → ∀ d' ∈ s.deliveries, d'.done = false → d' ∈ s.deliveries.erase d := by
    intro d hover d' hd' hover'
    refine (mem_erase_of_ne ?_).mpr hd'
    rintro rfl
    rw [hover] at hover'
    cases hover'
  cases hs with
  | connect =>
    refine h.mono hn hsame (fun _ hd => hd) (fun _ hd _ => hd) (fun _ hm => hm) ?_ (fun _ hk => hk)
      (fun _ _ hk => .inl hk)
    intro n hn hup
    have := hup.1
    dsimp only at this
    omega
  | lose =>
    exact h.mono hn hsame (fun _ hd => hd) (fun _ hd _ => hd) (fun _ hm => hm)
      (fun _ _ hup => by cases hup.2) (fun _ hk => hk) (fun _ _ hk => .inl hk)
  | needDropped | needServed | ackEarly | tick | serveLost =>
    exact h.mono hn hsame (fun _ hd => hd) (fun _ hd _ => hd) (fun _ hm => hm) (fun _ _ hup => hup)
      (fun _ hk => hk) (fun _ _ hk => .inl hk)
  | ack | reap =>
    exact h.mono hn (fun k e he => hsame k e (lookup_of_drop he)) (fun _ hd => hd) (fun _ hd _ => hd) (fun _ hm => hm) (fun _ _ hup => hup)
      (fun _ hk => hk) (fun _ _ hk => .inl hk)
  | launch _ _ hid =>
    exact h.setId hn (e := ⟨_, some s.session, none, false⟩) rfl hid (lookup_setEntry _)
      (.inl rfl) rfl rfl rfl rfl rfl (fun _ hk => hk)
  | readopt _ _ hid =>
    exact h.setId hn (e := ⟨_, none, none, false⟩) rfl hid (lookup_setEntry _) (.inl rfl)
      rfl rfl rfl rfl rfl (fun _ hk => hk)
  | @adopt key id e he _ hloop hid =>
    refine h.setId hn (e := { e with buildId := id, outTx := some s.session }) rfl hid (lookup_setEntry _)
      (.inr rfl) rfl rfl rfl rfl rfl (fun k hk => ?_)
    rw [hloop] at hk
    cases hk
  | @sendResumed key id hloop =>
    refine h.mono hn hsame (fun _ hd => hd) (fun _ hd _ => hd) (fun _ hm => mem_append_left _ hm)
      (fun _ _ hup => hup) (fun _ hk => hk) (fun k _ hk => .inl ?_)
    rw [hloop] at hk
    exact hk
  | resumeLost _ hup =>
    refine h.mono hn hsame (fun _ hd => hd) (fun _ hd _ => hd) (fun _ hm => hm) (fun _ _ hup => hup)
      (fun _ hk => hk) (fun k hup' _ => ?_)
    rw [hup] at hup'
    cases hup'
  | @spawn key hloop =>
    refine h.mono hn hsame (fun _ hd => hd) (fun _ hd _ => hd) (fun _ hm => hm) (fun _ _ hup => hup)
      (fun _ hk => mem_append_left _ hk) (fun k _ hk => .inr ?_)
    rw [hloop] at hk
    cases hk
    exact mem_append_right _ (mem_singleton_self _)
  | finish he hfin => exact h.finish _ he hfin
  | giveUp _ hnone => exact h.giveUp hnone ha
  | takeUp _ he _ hfin hout => exact h.takeUp he hfin hout
  | deliver hd => exact h.deliver hd
  | @delivered d e hd hover he =>
    refine h.mono hn ?_ (fun _ hd => mem_of_mem_erase hd) (hkeep d hover) (fun _ hm => hm)
      (fun _ _ hup => hup) (fun _ hk => hk) (fun _ _ hk => .inl hk)
    intro k e' he'
    rw [lookup_setEntry] at he'
    split_ifs at he' with hk
    · cases he'
      exact ⟨e, hk ▸ he, rfl, rfl, rfl⟩
    · exact hsame k e' he'
  | @deliveredGone d hd hover _ =>
    exact h.mono hn hsame (fun _ hd => mem_of_mem_erase hd) (hkeep d hover) (fun _ hm => hm)
      (fun _ _ hup => hup) (fun _ hk => hk) (fun _ _ hk => .inl hk)
  | serve =>
    exact h.mono hn hsame (fun _ hd => hd) (fun _ hd _ => hd) (fun _ hm => mem_append_left _ hm)
      (fun _ _ hup => hup) (fun _ hk => hk) (fun _ _ hk => .inl hk)

omit h

/-- No call of `try_deliver` is running, scheduled or about to be. -/
def Settled (s : State K I H) : Prop := s.calls = [] ∧ s.deliveries = [] ∧ s.loop = .idle

instance (s : State K I H) : Decidable (Settled s) := inferInstanceAs (Decidable (_ ∧ _))

/-- Once all calls of `try_deliver` are done, every finished build has had its result sent
under its latest id and to the session of its latest assignment, if that one is up. -/
theorem no_result_left_unless_overtaken (h : (system K I H).ReachableIf Current s) (hsettled : Settled s)
    {e : Entry I H} {fin : Finished H} {n : ℕ} (he : s.registry.lookup key = some e) (hfin : e.finished = some fin)
    (hout : e.outTx = some n) (hup : s.isUp n) : (n, .result e.buildId fin) ∈ s.sent := by
  have hcared : Cared s := by
    refine h.invariant_with ?_ ?_
    · rintro s rfl
      exact cared_initial
    · intro s a s' hr hs ha hstep
      exact cared_step hs (numbered_reachable hr) ha (step_cases hstep)
  obtain ⟨hcalls, hdel, hloop⟩ := hsettled
  rcases hcared.due key e fin n he hfin hout hup with hm | hc | hl | hd
  · exact hm
  · rw [hcalls] at hc
    cases hc
  · rw [hloop] at hl
    cases hl
  · rw [hdel] at hd
    cases hd

instance (s : State K I H) (a : Action K I H) : Decidable (Current s a) :=
  match a with
  | .tryDeliver key => inferInstanceAs (Decidable (∀ e ∈ s.registry.lookup key, e.delivering = true →
      ∃ d ∈ s.deliveries, d.key = key ∧ d.buildId = e.buildId))
  | .connect | .lose | .launch .. | .readopt .. | .adopt .. | .sendResumed | .spawn | .finish .. | .deliver _
  | .delivered _ | .need .. | .serve .. | .ack _ | .reap _ | .tick _ => inferInstanceAs (Decidable True)

/-- The delivery to the first session is over when the build is adopted on the second. -/
theorem no_result_left_after_reconnect : ∃ s, (system ℕ ℕ ℕ).ReachableIf Current s ∧ Settled s ∧ s.isUp 2 ∧
    s.registry.lookup 0 = some ⟨1, some 2, some ⟨0, 0, [], 0⟩, false⟩ ∧ (2, .result 1 ⟨0, 0, [], 0⟩) ∈ s.sent := by
  obtain ⟨s, hr, htest⟩ := (system ℕ ℕ ℕ).exists_reachableIf_of_decide Current State.initial
    [.connect, .launch 0 0, .lose, .finish 0 0 [], .tryDeliver 0, .deliver ⟨0, 0, 1, ⟨0, 0, [], 0⟩, false⟩,
      .delivered ⟨0, 0, 1, ⟨0, 0, [], 0⟩, true⟩, .connect, .adopt 0 1, .sendResumed, .spawn, .tryDeliver 0,
      .deliver ⟨0, 1, 2, ⟨0, 0, [], 0⟩, false⟩, .delivered ⟨0, 1, 2, ⟨0, 0, [], 0⟩, true⟩]
    (fun s => Settled s ∧ s.isUp 2 ∧ s.registry.lookup 0 = some ⟨1, some 2, some ⟨0, 0, [], 0⟩, false⟩) rfl (by decide)
  obtain ⟨hsettled, hup, he⟩ := htest
  exact ⟨s, hr, hsettled, hup, he, no_result_left_unless_overtaken hr hsettled he rfl rfl hup⟩

/-- The delivery to the first session is still in flight when the build is adopted on the
second: the call for the new assignment gives up, and nothing is ever sent for id `1`. -/
theorem result_left_undelivered : ∃ s, (system ℕ ℕ ℕ).Reachable s ∧ Settled s ∧ s.isUp 2 ∧
    s.registry.lookup 0 = some ⟨1, some 2, some ⟨0, 0, [], 0⟩, false⟩ ∧ s.sent = [(2, .resumed 1)] := by
  exact (system ℕ ℕ ℕ).exists_reachable_of_exec State.initial
    [.connect, .launch 0 0, .finish 0 0 [], .tryDeliver 0, .lose, .connect, .adopt 0 1, .sendResumed, .spawn,
      .tryDeliver 0, .deliver ⟨0, 0, 1, ⟨0, 0, [], 0⟩, false⟩, .delivered ⟨0, 0, 1, ⟨0, 0, [], 0⟩, true⟩] _ rfl (by decide)

end Tribuchet.Worker.Resume
