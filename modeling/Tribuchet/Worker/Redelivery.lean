import Mathlib.Tactic.Tauto
import Tribuchet.Worker.Registry

/-! How often a result is delivered under one id, in which order with `Resumed`, and
whether a finished build can be left undelivered. The `delivering` flag keeps two calls of
`try_deliver` apart only while one of them is sending: a call that starts afterwards sends
the result again, and a call that starts meanwhile gives up although the other one may be
sending on a session that is gone. -/

set_option linter.unusedSectionVars false

namespace Tribuchet.Worker.Resume

open Runs List Delivery

variable {K I H : Type} [DecidableEq K] [DecidableEq I] [DecidableEq H]
variable {s s' : State K I H} {key : K} {id : I} {a : Action K I H}

@[simp] def waits (id : I) (d : Delivery K I H) : Bool := d.buildId = id ∧ d.done = false

/-- The `Result`s of `deliver` for an id that are sent or about to be. -/
def State.started (s : State K I H) (id : I) : ℕ :=
  s.sent.countP (fun m => m.2.isResult id) + s.deliveries.countP (waits id)

open State

theorem Msg.isResult_eq_true {m : Msg I H} (h : m.isResult id = true) : ∃ fin, m = .result id fin := by
  cases m with
  | result i fin => exact ⟨fin, by rw [of_decide_eq_true h]⟩
  | _ => cases h

/-! ### At most one result -/

/-- A call of `try_deliver` takes up a result only if no other call for the key is
scheduled and no assignment of the key is being handled. -/
def Alone (s : State K I H) : Action K I H → Prop
  | .tryDeliver key => (s.deliverable key).isSome → s.calls.count key ≤ 1 ∧ s.loop.key ≠ some key
  | _ => True

/-- Once a result is taken up under the id of its entry, nobody is left to take it up
again under that id. -/
structure Once (s : State K I H) : Prop where
  once : ∀ id, s.started id ≤ 1
  spent : ∀ k e, s.registry.lookup k = some e → 0 < s.started e.buildId →
    e.finished.isSome ∧ k ∉ s.calls ∧ s.loop.key ≠ some k

theorem once_initial : Once (initial : State K I H) := by
  refine ⟨?_, ?_⟩ <;> simp [initial, started]

theorem Numbered.assigned_of_started (h : Numbered s) (hid : 0 < s.started id) : id ∈ s.assigned := by
  rcases Nat.add_pos_iff_pos_or_pos.mp hid with hpos | hpos
  · obtain ⟨m, hm, hres⟩ := countP_pos_iff.mp hpos
    obtain ⟨fin, hfin⟩ := Msg.isResult_eq_true hres
    exact (h.sent m hm).2 id fin hfin
  · obtain ⟨d, hd, hwaits⟩ := countP_pos_iff.mp hpos
    obtain rfl : d.buildId = id := (of_decide_eq_true hwaits).1
    exact (h.deliveries d hd).1

theorem Once.mono (h : Once s)
    (hreg : ∀ k e', s'.registry.lookup k = some e' → ∃ e, s.registry.lookup k = some e ∧ e.buildId = e'.buildId ∧
      e.finished = e'.finished)
    (hcalls : ∀ k ∈ s'.calls, k ∈ s.calls) (hloop : ∀ k, s'.loop.key = some k → s.loop.key = some k)
    (hst : ∀ id, s'.started id ≤ s.started id) : Once s' := by
  refine ⟨?_, ?_⟩
  · exact fun id => le_trans (hst id) (h.once id)
  · intro k e' he' hpos
    obtain ⟨e, he, hid, hfin⟩ := hreg k e' he'
    rw [← hid] at hpos
    obtain ⟨h1, h2, h3⟩ := h.spent k e he (lt_of_lt_of_le hpos (hst _))
    exact ⟨hfin ▸ h1, fun hm => h2 (hcalls k hm), fun hk => h3 (hloop k hk)⟩

theorem started_append {n : ℕ} {m : Msg I H} (hm : m.isResult id = false) (hsent : s'.sent = s.sent ++ [(n, m)])
    (hdel : s'.deliveries = s.deliveries) : s'.started id = s.started id := by
  unfold started
  rw [hsent, hdel, countP_append, countP_singleton]
  simp [hm]

variable {d : Delivery K I H}

theorem started_deliver (hd : d ∈ s.deliveries) (hover : d.done = false)
    (hsent : s'.sent = (s.send d.session (.result d.buildId d.fin)).sent)
    (hdel : s'.deliveries = { d with done := true } :: s.deliveries.erase d) (id : I) : s'.started id ≤ s.started id := by
  have hcount : s.deliveries.countP (waits id) =
      (s.deliveries.erase d).countP (waits id) + if d.buildId = id then 1 else 0 := by
    rw [(perm_cons_erase hd).countP_eq, countP_cons]
    simp [hover]
  unfold started
  rw [hsent, hdel, hcount, send_sent, countP_cons_of_neg (by simp)]
  by_cases hup : s.isUp d.session
  · rw [if_pos hup, countP_append, countP_singleton]
    by_cases hid : d.buildId = id
    · rw [if_pos hid]
      split_ifs <;> omega
    · have hno : (Msg.result d.buildId d.fin).isResult id = false := decide_eq_false hid
      simp [hno]
  · rw [if_neg hup]
    omega

theorem started_delivered (hd : d ∈ s.deliveries) (hover : d.done = true)
    (hsent : s'.sent = s.sent) (hdel : s'.deliveries = s.deliveries.erase d) (id : I) : s'.started id = s.started id := by
  unfold started
  rw [hsent, hdel, (perm_cons_erase hd).countP_eq, countP_cons_of_neg (by simp [hover])]

theorem started_cons_ne (hsent : s'.sent = s.sent) (hdel : s'.deliveries = d :: s.deliveries)
    (hid : d.buildId ≠ id) : s'.started id = s.started id := by
  unfold started
  rw [hsent, hdel, countP_cons_of_neg (by simp [hid])]

theorem started_cons_self (hsent : s'.sent = s.sent) (hdel : s'.deliveries = d :: s.deliveries)
    (hid : d.buildId = id) (hover : d.done = false) : s'.started id = s.started id + 1 := by
  unfold started
  rw [hsent, hdel, countP_cons_of_pos (by simp [hid, hover])]
  omega

theorem Once.setId (h : Once s) (hn : Numbered s) {e : Entry I H} (he : e.buildId = id) (hid : id ∉ s.assigned)
    (hreg : ∀ k, s'.registry.lookup k = if k = key then some e else s.registry.lookup k)
    (hcalls : ∀ k ∈ s'.calls, k = key ∨ k ∈ s.calls)
    (hloop : ∀ k, s'.loop.key = some k → k = key ∨ s.loop.key = some k) (hst : ∀ id, s'.started id = s.started id) :
    Once s' := by
  have hold : ∀ k e', s'.registry.lookup k = some e' → k ≠ key → s.registry.lookup k = some e' := by
    intro k e' he' hk
    rw [hreg, if_neg hk] at he'
    exact he'
  have hnew : ∀ e', s'.registry.lookup key = some e' → e'.buildId = id := by
    intro e' he'
    rw [hreg, if_pos rfl] at he'
    cases he'
    exact he
  refine ⟨?_, ?_⟩
  · exact fun i => (hst i).symm ▸ h.once i
  · intro k e' he' hpos
    rw [hst] at hpos
    by_cases hk : k = key
    · subst hk
      rw [hnew e' he'] at hpos
      exact absurd (hn.assigned_of_started hpos) hid
    · obtain ⟨h1, h2, h3⟩ := h.spent k e' (hold k e' he' hk) hpos
      exact ⟨h1, fun hm => (hcalls k hm).elim hk h2, fun hm => (hloop k hm).elim hk h3⟩

theorem Once.update (h : Once s) (hn : Numbered s) {e e' : Entry I H} (he : s.registry.lookup key = some e)
    (hid : e'.buildId = e.buildId)
    (hreg : ∀ k, s'.registry.lookup k = if k = key then some e' else s.registry.lookup k)
    (hst : ∀ i, i ≠ e.buildId → s'.started i = s.started i) (honce : s'.started e.buildId ≤ 1)
    (hloop : s'.loop = s.loop) (hcalls : ∀ k ∈ s'.calls, k ≠ key → k ∈ s.calls)
    (hself : 0 < s'.started e.buildId → e'.finished.isSome ∧ key ∉ s'.calls ∧ s.loop.key ≠ some key) : Once s' := by
  have hold : ∀ k e₁, s'.registry.lookup k = some e₁ → ∃ e₀, s.registry.lookup k = some e₀ ∧ e₀.buildId = e₁.buildId ∧
      (k ≠ key → e₀ = e₁) := by
    intro k e₁ h₁
    rw [hreg] at h₁
    split_ifs at h₁ with hk
    · cases h₁
      exact ⟨e, hk ▸ he, hid.symm, fun hn => absurd hk hn⟩
    · exact ⟨e₁, h₁, rfl, fun _ => rfl⟩
  refine ⟨?_, ?_⟩
  · intro i
    by_cases hie : i = e.buildId
    · rw [hie]
      exact honce
    · rw [hst i hie]
      exact h.once i
  · intro k e₁ h₁ hpos
    rw [hloop]
    by_cases hk : k = key
    · subst hk
      rw [hreg, if_pos rfl] at h₁
      cases h₁
      rw [hid] at hpos
      exact hself hpos
    · obtain ⟨e₀, h₀, -, heq⟩ := hold k e₁ h₁
      obtain rfl := heq hk
      have hne : e₀.buildId ≠ e.buildId := fun hc => hk (hn.distinct k key e₀ e h₀ he hc)
      rw [hst _ hne] at hpos
      obtain ⟨h1, h2, h3⟩ := h.spent k e₀ h₀ hpos
      exact ⟨h1, fun hm => h2 (hcalls k hm hk), h3⟩

theorem once_step (h : Once s) (hn : Numbered s) (ha : Alone s a) (hs : Step s a s') : Once s' := by
  have hsame : ∀ k e, s.registry.lookup k = some e →
      ∃ e₀, s.registry.lookup k = some e₀ ∧ e₀.buildId = e.buildId ∧ e₀.finished = e.finished :=
    fun k e he => ⟨e, he, rfl, rfl⟩
  cases hs with
  | connect | lose | needDropped | needServed | ackEarly | tick | serveLost =>
    exact h.mono hsame (fun _ hk => hk) (fun _ hk => hk) (fun _ => le_rfl)
  | ack | reap =>
    exact h.mono (fun k e he => hsame k e (lookup_of_drop he)) (fun _ hk => hk) (fun _ hk => hk) (fun _ => le_rfl)
  | launch _ _ hid | readopt _ _ hid =>
    exact h.setId hn (e := ⟨_, _, none, false⟩) rfl hid (lookup_setEntry _) (fun _ hk => .inr hk)
      (fun _ hk => .inr hk) (fun _ => rfl)
  | @adopt key id e he _ _ hid =>
    refine h.setId hn (e := { e with buildId := id, outTx := some s.session }) rfl hid (lookup_setEntry _)
      (fun _ hk => .inr hk) (fun k hk => .inl ?_) (fun _ => rfl)
    exact (Option.some.inj hk).symm
  | @sendResumed key id hloop =>
    refine h.mono hsame (fun _ hk => hk) (fun k hk => ?_) (fun i => le_of_eq ?_)
    · rw [hloop]
      exact hk
    · exact started_append rfl (by rfl) (by rfl)
  | resumeLost => exact h.mono hsame (fun _ hk => hk) (fun _ hk => by cases hk) (fun _ => le_rfl)
  | @spawn key hloop =>
    refine ⟨h.once, fun k e he hpos => ?_⟩
    obtain ⟨h1, h2, h3⟩ := h.spent k e he hpos
    refine ⟨h1, fun hm => ?_, by simp [Loop.key]⟩
    rcases mem_append.mp hm with hm | hm
    · exact h2 hm
    · rw [mem_singleton.mp hm, hloop] at h3
      exact h3 rfl
  | @finish key exitCode hashes e he hfin =>
    -- an unfinished build was never taken up under its id
    have hzero : s.started e.buildId = 0 := by
      by_contra hpos
      have := (h.spent key e he (Nat.pos_of_ne_zero hpos)).1
      simp [hfin] at this
    refine h.update hn he (by rfl) (lookup_setEntry { e with finished := some ⟨s.serials, exitCode, hashes, s.now⟩ })
      (fun _ _ => rfl) (h.once _) rfl ?_ ?_
    · intro k hm hk
      rcases mem_append.mp hm with hm | hm
      · exact hm
      · exact absurd (mem_singleton.mp hm) hk
    · intro hpos
      exact absurd hzero (Nat.ne_of_gt hpos)
  | giveUp =>
    exact h.mono hsame (fun _ hk => mem_of_mem_erase hk) (fun _ hk => hk) (fun _ => le_rfl)
  | @takeUp key e session fin hcall he hidle hfin hout =>
    have hzero : s.started e.buildId = 0 := by
      by_contra hpos
      exact (h.spent key e he (Nat.pos_of_ne_zero hpos)).2.1 hcall
    obtain ⟨hcount, hloop⟩ := ha (by rw [deliverable_eq_some.mpr ⟨he, hidle, hfin, hout⟩]; rfl)
    refine h.update hn he (by rfl) (lookup_setEntry { e with delivering := true }) ?_ ?_ rfl ?_ ?_
    · intro i hi
      exact started_cons_ne (by rfl) (by rfl) (Ne.symm hi)
    · have hone : { s with deliveries := ⟨key, e.buildId, session, fin, false⟩ :: s.deliveries }.started e.buildId =
          s.started e.buildId + 1 := started_cons_self (by rfl) (by rfl) (by rfl) (by rfl)
      rw [hzero] at hone
      exact le_of_eq hone
    · exact fun k hm _ => mem_of_mem_erase hm
    · refine fun _ => ⟨by simp [hfin], fun hm => ?_, hloop⟩
      have hpos : 0 < (s.calls.erase key).count key := count_pos_iff.mpr hm
      rw [count_erase_self] at hpos
      omega
  | @deliver d hd hover =>
    refine h.mono ?_ ?_ ?_ (fun i => started_deliver hd hover (by rfl) (by rfl) i)
    · simpa only [send_registry] using hsame
    · simp [send_calls]
    · simp [send_loop]
  | deliveredGone hd hover =>
    exact h.mono hsame (fun _ hk => hk) (fun _ hk => hk)
      (fun i => le_of_eq (started_delivered hd hover (by rfl) (by rfl) i))
  | @delivered d e hd hover he =>
    refine h.mono ?_ (fun _ hk => hk) (fun _ hk => hk)
      (fun i => le_of_eq (started_delivered hd hover (by rfl) (by rfl) i))
    intro k e' he'
    simp only [lookup_setEntry] at he'
    split_ifs at he' with hk
    · cases he'
      exact ⟨e, hk ▸ he, rfl, rfl⟩
    · exact hsame k e' he'
  | @serve t error _ _ =>
    refine h.mono hsame (fun _ hk => hk) (fun _ hk => hk) (fun i => le_of_eq ?_)
    exact started_append (next_not_result ..) (by rfl) (by rfl)

/-! ### `Resumed` comes first -/

/-- No result of an adopted build comes before its `Resumed`, and neither a `Resumed` nor
another result after it. -/
def Ordered (adopted : List I) (sent : List (ℕ × Msg I H)) : Prop :=
  ∀ pre post n i fin, sent = pre ++ (n, .result i fin) :: post →
    (i ∈ adopted → (n, .resumed i) ∈ pre) ∧ ∀ m ∈ post, m.2.isResult i = false ∧ m.2.isResumed i = false

theorem Ordered.append {adopted : List I} {sent : List (ℕ × Msg I H)} (h : Ordered adopted sent) {n : ℕ} {m : Msg I H}
    (hnew : ∀ i fin, m = .result i fin → i ∈ adopted → (n, .resumed i) ∈ sent)
    (hold : ∀ i, (m.isResult i = true ∨ m.isResumed i = true) → ∀ m' ∈ sent, m'.2.isResult i = false) :
    Ordered adopted (sent ++ [(n, m)]) := by
  intro pre post k i fin heq
  rcases eq_nil_or_concat post with rfl | ⟨post', last, rfl⟩
  · obtain ⟨rfl, hlast⟩ := append_inj' heq rfl
    cases hlast
    exact ⟨hnew i fin rfl, by simp⟩
  · rw [concat_eq_append] at heq ⊢
    rw [← cons_append, ← append_assoc] at heq
    obtain ⟨rfl, hlast⟩ := append_inj' heq rfl
    cases hlast
    obtain ⟨h1, h2⟩ := h pre post' k i fin rfl
    refine ⟨h1, fun m' hm' => ?_⟩
    rcases mem_append.mp hm' with hm' | hm'
    · exact h2 m' hm'
    · rw [mem_singleton.mp hm']
      have hmem : (k, Msg.result i fin) ∈ pre ++ (k, .result i fin) :: post' := by simp
      have hself : (Msg.result i fin : Msg I H).isResult i = true := decide_eq_true rfl
      refine ⟨?_, ?_⟩
      · by_contra hc
        have := hold i (.inl (by simpa using hc)) _ hmem
        rw [hself] at this
        cases this
      · by_contra hc
        have := hold i (.inr (by simpa using hc)) _ hmem
        rw [hself] at this
        cases this

structure Announced (s : State K I H) : Prop where
  adopted : ∀ i ∈ s.adopted, i ∈ s.assigned
  resumed : ∀ n i, (n, .resumed i) ∈ s.sent → i ∈ s.adopted
  heard : ∀ k e n, s.registry.lookup k = some e → e.outTx = some n → e.buildId ∈ s.adopted →
    s.loop = .adopted k e.buildId ∨ (n, .resumed e.buildId) ∈ s.sent ∨ ¬ s.isUp n
  waiting : ∀ d ∈ s.deliveries, d.done = false → d.buildId ∈ s.adopted →
    (d.session, .resumed d.buildId) ∈ s.sent ∨ ¬ s.isUp d.session
  adopting : ∀ k i, s.loop = .adopted k i → i ∈ s.adopted ∧ s.started i = 0 ∧
    ∀ k' e, s.registry.lookup k' = some e → e.buildId = i → k' = k
  ordered : Ordered s.adopted s.sent

theorem announced_initial : Announced (initial : State K I H) := by
  refine ⟨?_, ?_, ?_, ?_, ?_, ?_⟩ <;> simp [initial, Ordered]

theorem Announced.mono (h : Announced s)
    (hreg : ∀ k e', s'.registry.lookup k = some e' → ∃ e, s.registry.lookup k = some e ∧ e.buildId = e'.buildId ∧
      e.outTx = e'.outTx)
    (hdel : ∀ d ∈ s'.deliveries, ∃ d₀ ∈ s.deliveries, d₀.session = d.session ∧ d₀.buildId = d.buildId ∧
      (d.done = false → d₀.done = false))
    (hsess : s'.session = s.session) (hup : s'.up = true → s.up = true)
    (hloop : ∀ k i, s'.loop = .adopted k i → s.loop = .adopted k i)
    (hheard : ∀ k i, s.loop = .adopted k i → s'.loop = .adopted k i ∨ (s.session, .resumed i) ∈ s'.sent ∨ s'.up = false)
    (hst : ∀ i, s'.started i ≤ s.started i) (hsub : ∀ m ∈ s.sent, m ∈ s'.sent)
    (hres : ∀ n i, (n, .resumed i) ∈ s'.sent → i ∈ s.adopted) (hord : Ordered s.adopted s'.sent)
    (had : s'.adopted = s.adopted) (has : s'.assigned = s.assigned) : Announced s' := by
  have hlive : ∀ n, s'.isUp n → s.isUp n := by
    rintro n ⟨h1, h2⟩
    exact ⟨h1.trans hsess, hup h2⟩
  refine ⟨?_, ?_, ?_, ?_, ?_, had ▸ hord⟩
  · rw [had, has]
    exact h.adopted
  · rw [had]
    exact hres
  · intro k e' n he' hn hid
    obtain ⟨e, he, hide, hout⟩ := hreg k e' he'
    rw [had, ← hide] at hid
    rw [← hide]
    rcases h.heard k e n he (hout.trans hn) hid with hl | hm | hnot
    · rcases hheard k _ hl with hl | hm | hdown
      · exact .inl hl
      · by_cases hcur : n = s.session
        · exact .inr (.inl (hcur ▸ hm))
        · exact .inr (.inr fun hc => hcur (hlive n hc).1)
      · exact .inr (.inr fun hc => Bool.false_ne_true (hdown.symm.trans hc.2))
    · exact .inr (.inl (hsub _ hm))
    · exact .inr (.inr fun hc => hnot (hlive n hc))
  · intro d hd hover hid
    obtain ⟨d₀, hd₀, hs, hide, hov⟩ := hdel d hd
    rw [had, ← hide] at hid
    rw [← hs, ← hide]
    rcases h.waiting d₀ hd₀ (hov hover) hid with hm | hnot
    · exact .inl (hsub _ hm)
    · exact .inr fun hc => hnot (hlive _ hc)
  · intro k i hl
    obtain ⟨h1, h2, h3⟩ := h.adopting k i (hloop k i hl)
    refine ⟨had ▸ h1, ?_, ?_⟩
    · have := hst i
      omega
    · intro k' e' he' hid
      obtain ⟨e, he, hide, -⟩ := hreg k' e' he'
      exact h3 k' e he (hide.trans hid)

theorem Announced.setId (h : Announced s) (hn : Numbered s) {e : Entry I H} (he : e.buildId = id) (hid : id ∉ s.assigned)
    (hreg : ∀ k, s'.registry.lookup k = if k = key then some e else s.registry.lookup k)
    (hdel : s'.deliveries = s.deliveries) (hsess : s'.session = s.session) (hup : s'.up = s.up)
    (hloop : s'.loop = s.loop ∧ s'.adopted = s.adopted ∨
      s.loop = .idle ∧ s'.loop = .adopted key id ∧ s'.adopted = s.adopted ++ [id])
    (hsent : s'.sent = s.sent) (has : s'.assigned = s.assigned ++ [id]) : Announced s' := by
  have hzero : s.started id = 0 := by
    by_contra hpos
    exact hid (hn.assigned_of_started (Nat.pos_of_ne_zero hpos))
  have hlive : ∀ n, s'.isUp n ↔ s.isUp n := by
    intro n
    unfold isUp
    rw [hsess, hup]
  have hsub : ∀ i, i ∈ s.assigned → i ∈ s'.adopted → i ∈ s.adopted := by
    intro i hi hm
    rcases hloop with ⟨-, had⟩ | ⟨-, -, had⟩
    · exact had ▸ hm
    · rw [had] at hm
      rcases mem_append.mp hm with hm | hm
      · exact hm
      · exact absurd (mem_singleton.mp hm ▸ hi) hid
  have hmem : ∀ i ∈ s.adopted, i ∈ s'.adopted := by
    intro i hi
    rcases hloop with ⟨-, had⟩ | ⟨-, -, had⟩
    · exact had ▸ hi
    · rw [had]
      exact mem_append_left _ hi
  refine ⟨?_, ?_, ?_, ?_, ?_, ?_⟩
  · intro i hi
    rw [has]
    rcases hloop with ⟨-, had⟩ | ⟨-, -, had⟩
    · exact mem_append_left _ (h.adopted i (had ▸ hi))
    · rw [had] at hi
      rcases mem_append.mp hi with hi | hi
      · exact mem_append_left _ (h.adopted i hi)
      · exact mem_append_right _ hi
  · intro n i hm
    rw [hsent] at hm
    exact hmem i (h.resumed n i hm)
  · intro k e' n he' hout hi
    rw [hlive, hsent]
    rw [hreg] at he'
    split_ifs at he' with hk
    · cases he'
      rcases hloop with ⟨-, had⟩ | ⟨-, hl, -⟩
      · rw [had, he] at hi
        exact absurd (h.adopted id hi) hid
      · exact .inl (by rw [hl, hk, he])
    · have hi₀ := hsub _ (hn.entries k e' he') hi
      rcases h.heard k e' n he' hout hi₀ with hl | hr
      · rcases hloop with ⟨hl', -⟩ | ⟨hidle, -⟩
        · exact .inl (hl'.trans hl)
        · cases hidle.symm.trans hl
      · exact .inr hr
  · intro d hd hover hi
    rw [hdel] at hd
    rw [hlive, hsent]
    exact h.waiting d hd hover (hsub _ (hn.deliveries d hd).1 hi)
  · intro k i hl
    have hst : s'.started i = s.started i := by rw [started, started, hsent, hdel]
    rcases hloop with ⟨hl', had⟩ | ⟨-, hl', had⟩
    · obtain ⟨h1, h2, h3⟩ := h.adopting k i (hl'.symm.trans hl)
      refine ⟨had ▸ h1, hst.trans h2, fun k' e' he' hide => ?_⟩
      rw [hreg] at he'
      split_ifs at he'
      · cases he'
        exact absurd (h.adopted i h1) (hide.symm.trans he ▸ hid)
      · exact h3 k' e' he' hide
    · cases hl'.symm.trans hl
      refine ⟨by simp [had], hst.trans hzero, fun k' e' he' hide => ?_⟩
      rw [hreg] at he'
      split_ifs at he' with hk
      · exact hk
      · exact absurd (hide ▸ hn.entries k' e' he') hid
  · intro pre post n i fin heq
    rw [hsent] at heq
    obtain ⟨h1, h2⟩ := h.ordered pre post n i fin heq
    exact ⟨fun hi => h1 (hsub i ((hn.sent (n, .result i fin) (by simp [heq])).2 i fin rfl) hi), h2⟩

theorem next_not_resumed (t : Serving I H) (error : Option String) (i : I) : (t.next error).1.isResumed i = false := by
  unfold Serving.next
  split
  · rfl
  · split
    · rfl
    · split <;> rfl

theorem not_result_of_count {sent : List (ℕ × Msg I H)} (h : sent.countP (fun m => m.2.isResult id) = 0) :
    ∀ m ∈ sent, m.2.isResult id = false := by
  intro m hm
  simpa using countP_eq_zero.mp h m hm

theorem announced_step (h : Announced s) (hn : Numbered s) (ho : Once s) (ha : Alone s a) (hs : Step s a s') :
    Announced s' := by
  have hsame : ∀ k e, s.registry.lookup k = some e →
      ∃ e₀, s.registry.lookup k = some e₀ ∧ e₀.buildId = e.buildId ∧ e₀.outTx = e.outTx :=
    fun k e he => ⟨e, he, rfl, rfl⟩
  have hset : ∀ key e e', s.registry.lookup key = some e → e'.buildId = e.buildId → e'.outTx = e.outTx →
      ∀ k e₁, (s.setEntry key e').registry.lookup k = some e₁ →
        ∃ e₀, s.registry.lookup k = some e₀ ∧ e₀.buildId = e₁.buildId ∧ e₀.outTx = e₁.outTx := by
    intro key e e' he hid hout k e₁
    exact lookup_setEntry_cases (P := fun e e' => e.buildId = e'.buildId ∧ e.outTx = e'.outTx) (fun _ => ⟨rfl, rfl⟩) he
      ⟨hid.symm, hout.symm⟩
  have hkeep : ∀ d ∈ s.deliveries, ∃ d₀ ∈ s.deliveries, d₀.session = d.session ∧ d₀.buildId = d.buildId ∧
      (d.done = false → d₀.done = false) := fun d hd => ⟨d, hd, rfl, rfl, id⟩
  have hless : ∀ d, ∀ d' ∈ s.deliveries.erase d, ∃ d₀ ∈ s.deliveries, d₀.session = d'.session ∧
      d₀.buildId = d'.buildId ∧ (d'.done = false → d₀.done = false) := fun d d' hd => hkeep d' (mem_of_mem_erase hd)
  have hmsg : ∀ m : Msg I H, (∀ i, m.isResumed i = false) → ∀ n n' i, (n, .resumed i) ∈ s.sent ++ [(n', m)] →
      i ∈ s.adopted := by
    intro m hm n n' i hi
    rcases mem_append.mp hi with hi | hi
    · exact h.resumed n i hi
    · cases mem_singleton.mp hi
      simpa [Msg.isResumed] using hm i
  cases hs with
  | needDropped | needServed | ackEarly | tick | serveLost | giveUp =>
    exact h.mono hsame hkeep rfl id (fun _ _ hl => hl) (fun _ _ hl => .inl hl) (fun _ => le_rfl) (fun _ hm => hm)
      h.resumed h.ordered rfl rfl
  | lose =>
    exact h.mono hsame hkeep rfl (fun hc => by cases hc) (fun _ _ hl => hl) (fun _ _ hl => .inl hl)
      (fun _ => le_rfl) (fun _ hm => hm) h.resumed h.ordered rfl rfl
  | ack | reap =>
    exact h.mono (fun k e he => hsame k e (lookup_of_drop he)) hkeep rfl id (fun _ _ hl => hl) (fun _ _ hl => .inl hl) (fun _ => le_rfl)
      (fun _ hm => hm) h.resumed h.ordered rfl rfl
  | connect hup hloop =>
    refine ⟨h.adopted, h.resumed, ?_, ?_, ?_, h.ordered⟩
    · intro k e n he hout _
      refine .inr (.inr fun hc => ?_)
      have hle := hn.senders k e n he hout
      have heq : n = s.session + 1 := hc.1
      omega
    · intro d hd _ _
      refine .inr fun hc => ?_
      have hle := (hn.deliveries d hd).2
      have heq : d.session = s.session + 1 := hc.1
      omega
    · intro k i hl
      rw [hloop] at hl
      cases hl
  | launch _ _ hid =>
    exact h.setId hn (e := ⟨_, some s.session, none, false⟩) rfl hid (lookup_setEntry _) rfl rfl rfl (.inl ⟨rfl, rfl⟩) rfl rfl
  | readopt _ _ hid =>
    exact h.setId hn (e := ⟨_, none, none, false⟩) rfl hid (lookup_setEntry _) rfl rfl rfl (.inl ⟨rfl, rfl⟩) rfl rfl
  | @adopt key id e he _ hloop hid =>
    exact h.setId hn (e := { e with buildId := id, outTx := some s.session }) rfl hid (lookup_setEntry _) rfl rfl rfl
      (.inr ⟨hloop, rfl, rfl⟩) rfl rfl
  | @sendResumed key id hloop =>
    obtain ⟨hid, hzero, -⟩ := h.adopting key id hloop
    refine h.mono hsame hkeep rfl (fun hc => hc) (fun _ _ hl => by cases hl) ?_ (fun i => le_of_eq ?_)
      (fun _ hm => mem_append_left _ hm) ?_ ?_ rfl rfl
    · intro k i hl
      rw [hloop] at hl
      cases hl
      exact .inr (.inl (by simp))
    · exact started_append rfl (by rfl) (by rfl)
    · intro n i hm
      rcases mem_append.mp hm with hm | hm
      · exact h.resumed n i hm
      · cases mem_singleton.mp hm
        exact hid
    · refine h.ordered.append (fun i fin hm _ => by cases hm) fun i hm => ?_
      obtain rfl : id = i := by simpa [Msg.isResult, Msg.isResumed] using hm
      exact not_result_of_count (Nat.eq_zero_of_add_eq_zero_right hzero)
  | resumeLost hloop hup =>
    exact h.mono hsame hkeep rfl id (fun _ _ hl => by cases hl) (fun _ _ _ => .inr (.inr hup)) (fun _ => le_rfl)
      (fun _ hm => hm) h.resumed h.ordered rfl rfl
  | @spawn key hloop =>
    exact h.mono hsame hkeep rfl id (fun _ _ hl => by cases hl) (fun _ _ hl => by rw [hloop] at hl; cases hl)
      (fun _ => le_rfl) (fun _ hm => hm) h.resumed h.ordered rfl rfl
  | @finish key exitCode hashes e he hfin =>
    exact h.mono (hset key e _ he rfl rfl) hkeep rfl id (fun _ _ hl => hl) (fun _ _ hl => .inl hl)
      (fun _ => le_rfl) (fun _ hm => hm) h.resumed h.ordered rfl rfl
  | @takeUp key e session fin hcall he hidle hfin hout =>
    obtain ⟨-, hloop⟩ := ha (by rw [deliverable_eq_some.mpr ⟨he, hidle, hfin, hout⟩]; rfl)
    have hreg := hset key e { e with delivering := true } he rfl rfl
    refine ⟨h.adopted, h.resumed, ?_, ?_, ?_, h.ordered⟩
    · intro k e₁ n h₁ hn hi
      obtain ⟨e₀, h₀, hid₀, hout₀⟩ := hreg k e₁ h₁
      rw [← hid₀] at hi ⊢
      exact h.heard k e₀ n h₀ (hout₀.trans hn) hi
    · intro d hd hover hi
      rcases mem_cons.mp hd with rfl | hd
      · refine (h.heard key e session he hout hi).resolve_left fun hl => hloop ?_
        rw [hl]
        rfl
      · exact h.waiting d hd hover hi
    · intro k i hl
      obtain ⟨h1, h2, h3⟩ := h.adopting k i hl
      have hne : e.buildId ≠ i := by
        intro hc
        apply hloop
        rw [h3 key e he hc, show s.loop = .adopted k i from hl]
        rfl
      refine ⟨h1, (started_cons_ne (s := s) (by rfl) (by rfl) hne).trans h2, fun k' e₁ h₁ hid => ?_⟩
      obtain ⟨e₀, h₀, hid₀, -⟩ := hreg k' e₁ h₁
      exact h3 k' e₀ h₀ (hid₀.trans hid)
  | @deliver d hd hover =>
    have hdel : ∀ d' ∈ { d with done := true } :: s.deliveries.erase d, ∃ d₀ ∈ s.deliveries,
        d₀.session = d'.session ∧ d₀.buildId = d'.buildId ∧ (d'.done = false → d₀.done = false) := by
      intro d' hd'
      rcases mem_cons.mp hd' with rfl | hd'
      · exact ⟨d, hd, rfl, rfl, fun _ => hover⟩
      · exact hless d d' hd'
    have hst : ∀ i, { s.send d.session (.result d.buildId d.fin) with
        deliveries := { d with done := true } :: s.deliveries.erase d }.started i ≤ s.started i :=
      fun i => started_deliver hd hover (by rfl) (by rfl) i
    by_cases hup : s.isUp d.session
    · have hsend : s.send d.session (.result d.buildId d.fin) =
          { s with sent := s.sent ++ [(d.session, .result d.buildId d.fin)] } := if_pos hup
      rw [hsend] at hst ⊢
      refine h.mono hsame hdel rfl (fun hc => hc) (fun _ _ hl => hl) (fun _ _ hl => .inl hl) hst
        (fun _ hm => mem_append_left _ hm) (fun n i => hmsg _ (fun _ => rfl) n _ i) ?_ rfl rfl
      refine h.ordered.append ?_ fun i hm => ?_
      · intro i fin hm hi
        cases hm
        exact (h.waiting d hd hover hi).resolve_right fun hn => hn hup
      · obtain rfl : d.buildId = i := by simpa [Msg.isResult, Msg.isResumed] using hm
        -- the one result of this id is the one about to be sent
        have hone := ho.once d.buildId
        have hpos : 0 < s.deliveries.countP (waits d.buildId) :=
          countP_pos_iff.mpr ⟨d, hd, by simp [hover]⟩
        unfold started at hone
        exact not_result_of_count (by omega)
    · have hsend : s.send d.session (.result d.buildId d.fin) = s := if_neg hup
      rw [hsend] at hst ⊢
      exact h.mono hsame hdel rfl (fun hc => hc) (fun _ _ hl => hl) (fun _ _ hl => .inl hl) hst (fun _ hm => hm) h.resumed
        h.ordered rfl rfl
  | deliveredGone hd hover =>
    exact h.mono hsame (hless _) rfl id (fun _ _ hl => hl) (fun _ _ hl => .inl hl)
      (fun i => le_of_eq (started_delivered hd hover (by rfl) (by rfl) i)) (fun _ hm => hm) h.resumed h.ordered rfl rfl
  | @delivered d e hd hover he =>
    exact h.mono (hset d.key e _ he rfl rfl) (hless _) rfl id (fun _ _ hl => hl) (fun _ _ hl => .inl hl)
      (fun i => le_of_eq (started_delivered hd hover (by rfl) (by rfl) i)) (fun _ hm => hm) h.resumed h.ordered rfl rfl
  | @serve t error ht hup =>
    refine h.mono hsame hkeep rfl id (fun _ _ hl => hl) (fun _ _ hl => .inl hl) (fun i => le_of_eq ?_)
      (fun _ hm => mem_append_left _ hm) (fun n i => hmsg _ (next_not_resumed t error) n _ i) ?_ rfl rfl
    · exact started_append (next_not_result ..) (by rfl) (by rfl)
    · refine h.ordered.append (fun i fin hm _ => ?_) fun i hm => ?_
      · have := next_not_result t error i
        simp [hm, Msg.isResult] at this
      · rw [next_not_result, next_not_resumed] at hm
        simp at hm

/-- In runs whose calls of `try_deliver` take up results alone, a result is sent at most
once under an id, after the `Resumed` of that id if it was adopted; and after it comes
neither another result nor a `Resumed` of that id. -/
theorem result_sent_once_unless_crowded (h : (system K I H).ReachableIf Alone s) :
    (∀ i, s.sent.countP (fun m => m.2.isResult i) ≤ 1) ∧ Ordered s.adopted s.sent := by
  obtain ⟨honce, hann⟩ : Once s ∧ Announced s := by
    refine h.invariant_with (I := fun s => Once s ∧ Announced s) ?_ ?_
    · rintro _ rfl
      exact ⟨once_initial, announced_initial⟩
    · intro s a s' hr ⟨ho, han⟩ ha hstep
      have hs := step_cases hstep
      have hn := numbered_reachable hr
      exact ⟨once_step ho hn ha hs, announced_step han hn ho ha hs⟩
  refine ⟨fun i => ?_, hann.ordered⟩
  have hone := honce.once i
  unfold started at hone
  omega

instance (s : State K I H) (a : Action K I H) : Decidable (Alone s a) := by
  cases a <;> dsimp only [Alone] <;> infer_instance

/-- A build left by an earlier process is adopted under id `1` and finishes afterwards. -/
theorem result_sent_once_after_adoption : ∃ s, (system ℕ ℕ ℕ).ReachableIf Alone s ∧
    s.sent = [(1, .resumed 1), (1, .result 1 ⟨0, 0, [], 0⟩)] ∧
    (∀ i, s.sent.countP (fun m => m.2.isResult i) ≤ 1) ∧ Ordered s.adopted s.sent := by
  obtain ⟨s, hr, hsent⟩ := (system ℕ ℕ ℕ).exists_reachableIf_of_decide Alone initial
    [.readopt 0 0, .connect, .adopt 0 1, .sendResumed, .spawn, .tryDeliver 0, .finish 0 0 [], .tryDeliver 0,
      .deliver ⟨0, 1, 1, ⟨0, 0, [], 0⟩, false⟩]
    (fun s => s.sent = [(1, .resumed 1), (1, .result 1 ⟨0, 0, [], 0⟩)]) rfl (by decide)
  exact ⟨s, hr, hsent, result_sent_once_unless_crowded hr⟩

/-- The build finishes between its adoption and `Resumed`: its own call of `try_deliver`
sends the result, then comes `Resumed`, then the result once more. -/
theorem result_sent_twice : ∃ s, (system ℕ ℕ ℕ).Reachable s ∧ s.up = true ∧
    s.sent = [(1, .result 1 ⟨0, 0, [], 0⟩), (1, .resumed 1), (1, .result 1 ⟨0, 0, [], 0⟩)] := by
  exact (system ℕ ℕ ℕ).exists_reachable_of_exec initial
    [.readopt 0 0, .connect, .adopt 0 1, .finish 0 0 [], .tryDeliver 0, .deliver ⟨0, 1, 1, ⟨0, 0, [], 0⟩, false⟩,
      .delivered ⟨0, 1, 1, ⟨0, 0, [], 0⟩, true⟩, .sendResumed, .spawn, .tryDeliver 0,
      .deliver ⟨0, 1, 1, ⟨0, 0, [], 0⟩, false⟩] _ rfl (by decide)

end Tribuchet.Worker.Resume
