import Tribuchet.Worker.Resume

/-! The registry of builds across steps: where the entries, the deliveries and the messages
after a step come from, and that an id belongs to one build and a sender to a session the
worker has had. -/

set_option linter.unusedSectionVars false

namespace Tribuchet.Worker.Resume

open Runs List Option

variable {K I H : Type} [DecidableEq K] [DecidableEq I] [DecidableEq H]
variable {s s' : State K I H} {key : K} {id : I} {a : Action K I H}

/-! ### Fields -/

theorem lookup_setEntry (e : Entry I H) (k : K) :
    (s.setEntry key e).registry.lookup k = if k = key then some e else s.registry.lookup k :=
  Table.lookup_insert_eq ..

theorem lookup_drop (k : K) : (s.drop key).registry.lookup k = if k = key then none else s.registry.lookup k :=
  Table.lookup_erase_eq ..

section Send

variable (s) (n : ℕ) (m : Msg I H)

omit [DecidableEq K] [DecidableEq I] [DecidableEq H]

theorem send_registry : (s.send n m).registry = s.registry := by unfold State.send; split <;> rfl

theorem send_session : (s.send n m).session = s.session := by unfold State.send; split <;> rfl

theorem send_up : (s.send n m).up = s.up := by unfold State.send; split <;> rfl

theorem send_calls : (s.send n m).calls = s.calls := by unfold State.send; split <;> rfl

theorem send_servings : (s.send n m).servings = s.servings := by unfold State.send; split <;> rfl

theorem send_assigned : (s.send n m).assigned = s.assigned := by unfold State.send; split <;> rfl

theorem send_loop : (s.send n m).loop = s.loop := by unfold State.send; split <;> rfl

theorem send_sent : (s.send n m).sent = if s.isUp n then s.sent ++ [(n, m)] else s.sent := by
  unfold State.send
  split <;> rfl

end Send

theorem mem_send_sent {m : Msg I H} {n : ℕ} {m' : ℕ × Msg I H} (h : m' ∈ (s.send n m).sent) :
    m' ∈ s.sent ∨ m' = (n, m) ∧ s.isUp n := by
  rw [send_sent] at h
  split_ifs at h with hup
  · rcases mem_append.mp h with hm | hm
    · exact .inl hm
    · exact .inr ⟨mem_singleton.mp hm, hup⟩
  · exact .inl h

theorem prefix_send_sent (n : ℕ) (m : Msg I H) : s.sent <+: (s.send n m).sent := by
  rw [send_sent]
  split_ifs
  · exact prefix_append ..
  · exact prefix_rfl

theorem lookup_of_drop {k : K} {e : Entry I H} (h : (s.drop key).registry.lookup k = some e) :
    s.registry.lookup k = some e := by
  rw [lookup_drop] at h
  split_ifs at h
  exact h

theorem lookup_setEntry_cases {P : Entry I H → Entry I H → Prop} (hrefl : ∀ e, P e e) {e e' : Entry I H}
    (he : s.registry.lookup key = some e) (hp : P e e') {k : K} {e₁ : Entry I H}
    (h₁ : (s.setEntry key e').registry.lookup k = some e₁) : ∃ e₀, s.registry.lookup k = some e₀ ∧ P e₀ e₁ := by
  rw [lookup_setEntry] at h₁
  split_ifs at h₁ with hk
  · cases h₁
    exact ⟨e, hk ▸ he, hp⟩
  · exact ⟨e₁, h₁, hrefl e₁⟩

/-! ### Where things come from -/

theorem next_not_result (t : Serving I H) (error : Option String) (id : I) : (t.next error).1.isResult id = false := by
  unfold Serving.next
  split
  · rfl
  · split
    · rfl
    · split <;> rfl

def Action.names : Action K I H → Option (K × I)
  | .launch key id | .readopt key id | .adopt key id => some (key, id)
  | _ => none

def Action.displaces : Action K I H → Option K
  | .adopt key _ | .ack key | .reap key => some key
  | _ => none

variable (hs : Step s a s')

include hs

theorem Step.entry {k : K} {e' : Entry I H} (he' : s'.registry.lookup k = some e') :
    (∃ e, s.registry.lookup k = some e ∧ e.buildId = e'.buildId ∧ e.outTx = e'.outTx) ∨
      a.names = some (k, e'.buildId) ∧ e'.buildId ∉ s.assigned ∧ e'.buildId ∈ s'.assigned ∧
        ∀ n, e'.outTx = some n → n = s.session := by
  have hnew : ∀ {key : K} {e : Entry I H}, e.buildId ∉ s.assigned → (∀ n, e.outTx = some n → n = s.session) →
      (s.setEntry key e).registry.lookup k = some e' →
      (∃ e, s.registry.lookup k = some e ∧ e.buildId = e'.buildId ∧ e.outTx = e'.outTx) ∨
        some (key, e.buildId) = some (k, e'.buildId) ∧ e'.buildId ∉ s.assigned ∧
          e'.buildId ∈ s.assigned ++ [e.buildId] ∧ ∀ n, e'.outTx = some n → n = s.session := by
    intro key e hid hout h
    rw [lookup_setEntry] at h
    split_ifs at h with hk
    · cases h
      exact .inr ⟨by rw [hk], hid, by simp, hout⟩
    · exact .inl ⟨e', h, rfl, rfl⟩
  have hset : ∀ {key : K} {e e₁ : Entry I H}, s.registry.lookup key = some e → e.buildId = e₁.buildId →
      e.outTx = e₁.outTx → (s.setEntry key e₁).registry.lookup k = some e' →
      ∃ e, s.registry.lookup k = some e ∧ e.buildId = e'.buildId ∧ e.outTx = e'.outTx := by
    intro key e e₁ he hid hout h
    exact lookup_setEntry_cases (P := fun e e' => e.buildId = e'.buildId ∧ e.outTx = e'.outTx) (fun _ => ⟨rfl, rfl⟩) he
      ⟨hid, hout⟩ h
  cases hs with
  | launch _ _ hid => exact hnew hid (fun n hn => (some.inj hn).symm) he'
  | readopt _ _ hid => exact hnew hid (fun n hn => by cases hn) he'
  | @adopt key id e _ _ _ hid =>
    exact hnew (e := { e with buildId := id, outTx := some s.session }) hid (fun n hn => (some.inj hn).symm) he'
  | finish he | takeUp _ he | delivered _ _ he => exact .inl (hset he (by rfl) (by rfl) he')
  | ack | reap =>
    exact .inl ⟨e', lookup_of_drop he', rfl, rfl⟩
  | deliver =>
    rw [send_registry] at he'
    exact .inl ⟨e', he', rfl, rfl⟩
  | _ => exact .inl ⟨e', he', rfl, rfl⟩

def State.Keeps (s : State K I H) (k : K) (e : Entry I H) : Prop :=
  ∃ e', s.registry.lookup k = some e' ∧ e'.buildId = e.buildId ∧ ∀ fin, e.finished = some fin → e'.finished = some fin

theorem Step.kept {k : K} {e : Entry I H} (he : s.registry.lookup k = some e) :
    a.displaces = some k ∨ s'.Keeps k e := by
  have hset : ∀ {key : K} {e₀ e₁ : Entry I H}, s.registry.lookup key = some e₀ → e₁.buildId = e₀.buildId →
      (∀ fin, e₀.finished = some fin → e₁.finished = some fin) → (s.setEntry key e₁).Keeps k e := by
    intro key e₀ e₁ h₀ hid hfin
    rw [State.Keeps, lookup_setEntry]
    split_ifs with hk
    · obtain rfl : e₀ = e := some.inj (h₀.symm.trans (hk ▸ he))
      exact ⟨e₁, rfl, hid, hfin⟩
    · exact ⟨e, he, rfl, fun _ h => h⟩
  have hadd : ∀ {key : K} (e₁ : Entry I H), key ∉ s.registry → (s.setEntry key e₁).Keeps k e := by
    intro key e₁ hkey
    rw [State.Keeps, lookup_setEntry, if_neg fun hk => hkey (AList.lookup_isSome.mp (by rw [← hk, he]; rfl))]
    exact ⟨e, he, rfl, fun _ h => h⟩
  have hdrop : ∀ key, some key = some k ∨ (s.drop key).Keeps k e := by
    intro key
    rw [State.Keeps, lookup_drop]
    split_ifs with hk
    · exact .inl (by rw [hk])
    · exact .inr ⟨e, he, rfl, fun _ h => h⟩
  cases hs with
  | launch _ hkey | readopt _ hkey => exact .inr (hadd _ hkey)
  | @adopt key id e₀ h₀ =>
    by_cases hk : k = key
    · exact .inl (by rw [hk]; rfl)
    · refine .inr ⟨e, ?_, rfl, fun _ h => h⟩
      rw [lookup_setEntry, if_neg hk]
      exact he
  | finish h₀ hnone => exact .inr (hset h₀ rfl fun fin hfin => by rw [hnone] at hfin; cases hfin)
  | takeUp _ h₀ | delivered _ _ h₀ => exact .inr (hset h₀ rfl fun _ h => h)
  | @ack key => exact hdrop key
  | @reap key => exact hdrop key
  | deliver =>
    refine .inr ⟨e, ?_, rfl, fun _ h => h⟩
    rw [send_registry]
    exact he
  | _ => exact .inr ⟨e, he, rfl, fun _ h => h⟩

theorem Step.delivery {d' : Delivery K I H} (hd' : d' ∈ s'.deliveries) :
    (∃ d ∈ s.deliveries, d.key = d'.key ∧ d.buildId = d'.buildId ∧ d.session = d'.session ∧ d.fin = d'.fin ∧
      (d'.done = false → d.done = false)) ∨
    a = .tryDeliver d'.key ∧ ∃ e, s.registry.lookup d'.key = some e ∧ e.buildId = d'.buildId ∧
      e.outTx = some d'.session ∧ e.finished = some d'.fin := by
  have hold : d' ∈ s.deliveries → ∃ d ∈ s.deliveries, d.key = d'.key ∧ d.buildId = d'.buildId ∧
      d.session = d'.session ∧ d.fin = d'.fin ∧ (d'.done = false → d.done = false) :=
    fun h => ⟨d', h, rfl, rfl, rfl, rfl, fun h => h⟩
  cases hs with
  | takeUp _ he _ hfin hout =>
    rcases mem_cons.mp hd' with rfl | hd'
    · exact .inr ⟨rfl, _, he, rfl, hout, hfin⟩
    · exact .inl (hold hd')
  | @deliver d hd hover =>
    rcases mem_cons.mp hd' with rfl | hd'
    · exact .inl ⟨d, hd, rfl, rfl, rfl, rfl, fun _ => hover⟩
    · exact .inl (hold (mem_of_mem_erase hd'))
  | delivered | deliveredGone => exact .inl (hold (mem_of_mem_erase hd'))
  | _ => exact .inl (hold hd')

theorem Step.message {m : ℕ × Msg I H} (hm : m ∈ s'.sent) :
    m ∈ s.sent ∨ s.isUp m.1 ∧ ∀ i fin, m.2 = .result i fin → ∃ d ∈ s.deliveries, d.done = false ∧ d.session = m.1 ∧
      d.buildId = i ∧ d.fin = fin := by
  cases hs with
  | sendResumed _ hup =>
    rcases mem_append.mp hm with hm | hm
    · exact .inl hm
    · rw [mem_singleton.mp hm]
      exact .inr ⟨⟨rfl, hup⟩, nofun⟩
  | @deliver d hd hover =>
    rcases mem_send_sent hm with hm | ⟨rfl, hup⟩
    · exact .inl hm
    · refine .inr ⟨hup, fun i fin h => ?_⟩
      cases h
      exact ⟨d, hd, hover, rfl, rfl, rfl⟩
  | @serve t error _ hup =>
    rcases mem_append.mp hm with hm | hm
    · exact .inl hm
    · rw [mem_singleton.mp hm]
      refine .inr ⟨hup, fun i fin h => ?_⟩
      have hno := next_not_result t error i
      rw [show (t.next error).1 = .result i fin from h] at hno
      simp [Msg.isResult] at hno
  | _ => exact .inl hm

theorem Step.sent : s.sent <+: s'.sent := by
  cases hs with
  | sendResumed | serve => exact prefix_append ..
  | deliver => exact prefix_send_sent ..
  | _ => exact prefix_rfl

theorem Step.assigned : s.assigned <+: s'.assigned := by
  cases hs with
  | launch | readopt | adopt => exact prefix_append ..
  | deliver => exact send_assigned s .. ▸ prefix_rfl
  | _ => exact prefix_rfl

theorem Step.requests : s.requests <+: s'.requests := by
  cases hs with
  | needDropped | needServed => exact prefix_append ..
  | deliver =>
    unfold State.send
    split <;> exact prefix_rfl
  | _ => exact prefix_rfl

theorem Step.session :
    s'.session = s.session ∧ (s'.up = true → s.up = true) ∨ s'.session = s.session + 1 ∧ s.up = false := by
  cases hs with
  | connect hup => exact .inr ⟨rfl, hup⟩
  | lose => exact .inl ⟨rfl, nofun⟩
  | deliver => exact .inl ⟨send_session .., fun h => send_up s .. ▸ h⟩
  | _ => exact .inl ⟨rfl, fun h => h⟩

theorem Step.session_le : s.session ≤ s'.session := by
  rcases hs.session with ⟨h, -⟩ | ⟨h, -⟩ <;> omega

theorem Step.isUp {n : ℕ} (hn : n ≤ s.session) (hup : s'.isUp n) : s.isUp n := by
  rcases hs.session with ⟨hsess, hlive⟩ | ⟨hsess, -⟩
  · exact ⟨hup.1.trans hsess, hlive hup.2⟩
  · have := hup.1
    omega

omit hs

/-! ### Ids and sessions -/

/-- Ids belong to one entry each, and nothing comes from a session the worker has not had. -/
structure Numbered (s : State K I H) : Prop where
  entries : ∀ k e, s.registry.lookup k = some e → e.buildId ∈ s.assigned
  distinct : ∀ k k' e e', s.registry.lookup k = some e → s.registry.lookup k' = some e' → e.buildId = e'.buildId → k = k'
  senders : ∀ k e n, s.registry.lookup k = some e → e.outTx = some n → n ≤ s.session
  deliveries : ∀ d ∈ s.deliveries, d.buildId ∈ s.assigned ∧ d.session ≤ s.session
  sent : ∀ m ∈ s.sent, m.1 ≤ s.session ∧ ∀ i fin, m.2 = .result i fin → i ∈ s.assigned

theorem numbered_initial : Numbered (State.initial : State K I H) := by
  refine ⟨?_, ?_, ?_, ?_, ?_⟩ <;> simp [State.initial]

theorem numbered_step (h : Numbered s) (hs : Step s a s') : Numbered s' := by
  have has : ∀ {i}, i ∈ s.assigned → i ∈ s'.assigned := fun hi => hs.assigned.subset hi
  have hle := hs.session_le
  refine ⟨?_, ?_, ?_, ?_, ?_⟩
  · intro k e' he'
    rcases hs.entry he' with ⟨e, he, hid, -⟩ | ⟨-, -, hmem, -⟩
    · exact hid ▸ has (h.entries k e he)
    · exact hmem
  · -- a new id is nobody else's, and only one key gets it
    intro k k' e e' he he' heq
    rcases hs.entry he with ⟨e₀, h₀, hid₀, -⟩ | ⟨hname, hnew, -⟩ <;>
      rcases hs.entry he' with ⟨e₁, h₁, hid₁, -⟩ | ⟨hname', hnew', -⟩
    · exact h.distinct k k' e₀ e₁ h₀ h₁ (by rw [hid₀, hid₁, heq])
    · exact absurd (h.entries k e₀ h₀) (by rw [hid₀, heq]; exact hnew')
    · exact absurd (h.entries k' e₁ h₁) (by rw [hid₁, ← heq]; exact hnew)
    · exact (Prod.mk.inj (some.inj (hname.symm.trans hname'))).1
  · intro k e' n he' hn
    rcases hs.entry he' with ⟨e, he, -, hout⟩ | ⟨-, -, -, hout⟩
    · exact le_trans (h.senders k e n he (hout.trans hn)) hle
    · exact hout n hn ▸ hle
  · intro d' hd'
    rcases hs.delivery hd' with ⟨d, hd, -, hid, hsess, -⟩ | ⟨-, e, he, hid, hout, -⟩
    · exact ⟨hid ▸ has (h.deliveries d hd).1, hsess ▸ le_trans (h.deliveries d hd).2 hle⟩
    · exact ⟨hid ▸ has (h.entries _ e he), le_trans (h.senders _ e _ he hout) hle⟩
  · intro m hm
    rcases hs.message hm with hm | ⟨hup, hres⟩
    · exact ⟨le_trans (h.sent m hm).1 hle, fun i fin hi => has ((h.sent m hm).2 i fin hi)⟩
    · refine ⟨hup.1 ▸ hle, fun i fin hi => ?_⟩
      obtain ⟨d, hd, -, -, hid, -⟩ := hres i fin hi
      exact hid ▸ has (h.deliveries d hd).1

theorem numbered_reachable {ok : State K I H → Action K I H → Prop} (h : (system K I H).ReachableIf ok s) :
    Numbered s := by
  refine h.invariant ?_ ?_
  · rintro s rfl
    exact numbered_initial
  · intro s a s' hn _ hstep
    exact numbered_step hn (step_cases hstep)

end Tribuchet.Worker.Resume
