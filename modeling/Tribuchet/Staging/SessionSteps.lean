import Tribuchet.Staging.Session

/-! What the steps of a session leave alone. A step of one build's task touches that build
only, and of the shared channels only the one to the worker. A build that was not dispatched
is nowhere in the session. -/

set_option linter.unusedSectionVars false

namespace Tribuchet.Staging.Bounded

open Function List Option Bounded WorkerItem Worker

variable {B P H : Type} {cat : Catalog P H} {caps : Caps} {s s' s'' : State B P H} {a : Action B P H} {b c : B}
variable {r : Relay P H}

/-! ### The tasks of the builds -/

structure Frame (caps : Caps) (c : B) (s s' : State B P H) : Prop where
  worker : s'.worker = s.worker
  executing : s'.executing = s.executing
  relays : ∀ b, b ≠ c → s'.relays b = s.relays b
  sending : ∀ b, b ≠ c → s'.sending b = s.sending b
  toWorker : s'.toWorker = s.toWorker ∨
    s.toWorker.length < caps.toWorker ∧ ∃ m, s'.toWorker = s.toWorker ++ [(c, m)]
  outbox : s'.outbox = s.outbox
  toHub : s'.toHub = s.toHub
  routing : s'.routing = s.routing
  inbox : ∀ b, b ≠ c → s'.inbox b = s.inbox b
  dispatched : s'.dispatched = s.dispatched

theorem Frame.refl : Frame caps c s s :=
  ⟨rfl, rfl, fun _ _ => rfl, fun _ _ => rfl, .inl rfl, rfl, rfl, rfl, fun _ _ => rfl, rfl⟩

theorem Frame.post {m : HubItem P H} (h : Frame caps c s s') (hdown : s'.toWorker = s.toWorker)
    (hs : s'.post caps c m = some s'') : Frame caps c s s'' := by
  unfold State.post at hs
  split_ifs at hs with hroom
  cases hs
  rw [hdown] at hroom
  exact { h with toWorker := .inr ⟨hroom, m, by rw [hdown]⟩ }

variable [DecidableEq B]

theorem sending_setSending_of_ne {items : List (HubItem P H)} (hb : b ≠ c) :
    (s.setSending c items).sending b = s.sending b :=
  update_of_ne hb _ _

theorem inbox_setInbox_of_ne {q : Option (List (WorkerItem B P H))} (hb : b ≠ c) :
    (s.setInbox c q).inbox b = s.inbox b :=
  update_of_ne hb _ _

theorem inbox_setInbox_self {q : Option (List (WorkerItem B P H))} : (s.setInbox c q).inbox c = q :=
  update_self _ _ _

variable (h : Frame caps c s s')

include h

theorem Frame.setRelay (r : Option (Relay P H)) : Frame caps c s (s'.setRelay c r) :=
  { h with relays := fun b hb => (update_of_ne hb _ _).trans (h.relays b hb) }

theorem Frame.setSending (items : List (HubItem P H)) : Frame caps c s (s'.setSending c items) :=
  { h with sending := fun b hb => (sending_setSending_of_ne hb).trans (h.sending b hb) }

theorem Frame.setInbox (q : Option (List (WorkerItem B P H))) : Frame caps c s (s'.setInbox c q) :=
  { h with inbox := fun b hb => (inbox_setInbox_of_ne hb).trans (h.inbox b hb) }

theorem Frame.failRelay : Frame caps c s (s'.failRelay c) :=
  ((h.setRelay _).setInbox _).setSending _

theorem Frame.takeItem [DecidableEq P] [DecidableEq H] (cached : P → List H)
    (m : WorkerItem B P H) : Frame caps c s (s'.takeItem cat cached c r m) := by
  cases m with
  | build c' m =>
    cases m with
    | need n =>
      unfold State.takeItem
      dsimp only
      split
      · exact h.failRelay
      · exact (h.setRelay _).setSending _
    | result e => exact (h.setRelay _).setSending _
  | log c' => exact h
  | session => exact h

omit h

theorem Frame.of_stepRelay [DecidableEq P] [DecidableEq H] (hs : stepRelay cat caps s c r a = some s') :
    Frame caps c s s' := by
  cases a with
  | take _ cached =>
    simp only [stepRelay] at hs
    split at hs
    · cases hs
      exact (Frame.refl.setInbox _).takeItem cached _
    · cases hs
  | computed _ path =>
    obtain ⟨r', -, rfl⟩ := map_eq_some_iff.mp hs
    exact Frame.refl.setRelay _
  | flush =>
    obtain ⟨⟨r', m⟩, -, hp⟩ := bind_eq_some_iff.mp hs
    exact (Frame.refl.setRelay _).post rfl hp
  | serve _ cached =>
    obtain ⟨x, -, hp⟩ := bind_eq_some_iff.mp hs
    split at hp
    · exact (Frame.refl.setRelay _).post rfl hp
    · cases hp
      exact Frame.refl.failRelay
  | cancel =>
    simp only [stepRelay] at hs
    split_ifs at hs
    cases hs
    exact (Frame.refl.setRelay _).setSending _
  | _ => cases hs

theorem push_eq_some [DecidableEq P] [DecidableEq H] (hs : step cat caps s (.push c) = some s') :
    ∃ m rest t, s.sending c = m :: rest ∧ (s.setSending c rest).post caps c m = some t ∧
      (s' = t ∨ s' = t.setInbox c none) := by
  simp only [step] at hs
  split at hs
  · cases hs
  · rename_i m rest hsending
    obtain ⟨t, ht, rfl⟩ := map_eq_some_iff.mp hs
    refine ⟨m, rest, t, hsending, ht, ?_⟩
    split_ifs
    · exact .inr rfl
    · exact .inl rfl

theorem Frame.of_push [DecidableEq P] [DecidableEq H] (hs : step cat caps s (.push c) = some s') :
    Frame caps c s s' := by
  obtain ⟨m, rest, t, -, ht, rfl | rfl⟩ := push_eq_some hs
  · exact (Frame.refl.setSending rest).post rfl ht
  · exact ((Frame.refl.setSending rest).post rfl ht).setInbox none

/-! ### The worker -/

section
variable [DecidableEq P] [DecidableEq H] {w : Worker B P H}

theorem handle_active (hb : b ≠ c) (m : WorkerM B P H (Option (Need P H))) :
    (w.handle c m).1.active b = w.active b := by
  unfold handle
  split
  · rfl
  · split
    · exact update_of_ne hb _ _
    · exact update_of_ne hb _ _

theorem assign_active (hb : b ≠ c) : (w.assign c).active b = w.active b := by
  unfold assign
  split
  · exact update_of_ne hb _ _
  · exact (update_of_ne hb _ _).trans (update_of_ne hb _ _)

theorem receive_active (hb : b ≠ c) (pin : Pinning P) (answer : Finset P) (m : HubMsg P H) :
    (w.receive cat.refs pin answer c m).1.active b = w.active b := by
  unfold receive
  split
  · exact (handle_active hb _).trans (assign_active hb)
  · exact handle_active hb _
  · exact handle_active hb _
  · dsimp only
    split
    · exact handle_active hb _
    · exact handle_active hb _
  · exact handle_active hb _
  · exact handle_active hb _

theorem fire_active {i : ℕ} {w' : Worker B P H} (h : w.fire i = some w') : w'.active = w.active := by
  unfold fire at h
  split at h
  · cases h
  · split_ifs at h
    cases h
    rfl

theorem importDone_active {p : P} {outcome : ImportOutcome H} {w' : Worker B P H} (hb : w.active b = none)
    (h : w.importDone cat.refs c p outcome = some w') : w'.active b = none := by
  unfold importDone at h
  split at h
  · cases h
  · rename_i x hx
    have hbc : b ≠ c := by
      rintro rfl
      rw [hb] at hx
      cases hx
    split at h
    · cases h
      exact (update_of_ne hbc _ _).trans hb
    · cases h

end

/-! ### Messages under way -/

def WorkerItem.isOf (b : B) (m : WorkerItem B P H) : Bool := m.buildId = some b

/-- The messages of the worker for a build that its relay has not taken. -/
def State.underWay (s : State B P H) (b : B) : ℕ :=
  s.outbox.countP (isOf b) + s.toHub.countP (isOf b) +
    (if s.routing.map Prod.fst = some b then 1 else 0) + ((s.inbox b).getD []).length

theorem underWay_congr (houtbox : s'.outbox = s.outbox) (hup : s'.toHub = s.toHub)
    (hrouting : s'.routing = s.routing) (hinbox : s'.inbox b = s.inbox b) : s'.underWay b = s.underWay b := by
  unfold State.underWay
  rw [houtbox, hup, hrouting, hinbox]

theorem underWay_unregister : (s.setInbox c none).underWay b ≤ s.underWay b := by
  by_cases hb : b = c
  · subst hb
    unfold State.underWay
    rw [inbox_setInbox_self]
    exact Nat.add_le_add_left (Nat.zero_le _) _
  · exact le_of_eq (underWay_congr rfl rfl rfl (inbox_setInbox_of_ne hb))

variable {m : WorkerItem B P H}

theorem underWay_send {rest : List (WorkerItem B P H)} (hs : s.outbox = m :: rest) :
    State.underWay { s with outbox := rest, toHub := s.toHub ++ [m] } b = s.underWay b := by
  unfold State.underWay
  simp only [hs, countP_append, countP_cons, countP_nil]
  omega

theorem underWay_route {rest : List (WorkerItem B P H)} (hr : s.routing = none) (hs : s.toHub = m :: rest) :
    State.underWay { s with
      toHub := rest
      routing := m.buildId.bind fun b => if (s.inbox b).isSome then some (b, m) else none } b ≤ s.underWay b := by
  -- only a message for the build is routed to it
  have hone : (if (m.buildId.bind fun b => if (s.inbox b).isSome then some (b, m) else none).map Prod.fst = some b
      then 1 else 0) ≤ if m.isOf b then 1 else 0 := by
    split_ifs with hrouted hof
    · exact le_rfl
    · exfalso
      apply hof
      obtain ⟨⟨b', m'⟩, hbind, rfl⟩ := map_eq_some_iff.mp hrouted
      obtain ⟨b₁, hid, hsome⟩ := bind_eq_some_iff.mp hbind
      split_ifs at hsome
      cases hsome
      simp [isOf, hid]
    · exact Nat.zero_le _
    · exact le_rfl
  unfold State.underWay
  simp only [hs, hr, countP_cons, map_none, reduceCtorEq, if_false]
  omega

theorem underWay_deliver {q : List (WorkerItem B P H)} (hr : s.routing = some (c, m)) (hi : s.inbox c = some q) :
    State.underWay { s.setInbox c (some (q ++ [m])) with routing := none } b = s.underWay b := by
  unfold State.underWay State.setInbox
  by_cases hb : b = c
  · subst hb
    simp only [hr, hi, map_none, map_some, update_self, getD_some,
      length_append, length_singleton, reduceCtorEq, if_false, if_true]
    omega
  · have hcb : ¬c = b := fun h => hb h.symm
    simp [hr, hb, hcb]

theorem underWay_unrouted : State.underWay { s with routing := none } b ≤ s.underWay b := by
  unfold State.underWay
  simp only [map_none, reduceCtorEq, if_false]
  omega

theorem underWay_outbox (hitems : s'.outbox.countP (isOf b) = 0) (hup : s'.toHub = s.toHub)
    (hrouting : s'.routing = s.routing) (hinbox : s'.inbox b = s.inbox b) : s'.underWay b ≤ s.underWay b := by
  unfold State.underWay
  rw [hitems, hup, hrouting, hinbox]
  omega

theorem countP_report (hb : b ≠ c) (m : Option (WorkerMsg P H)) : (report c m).countP (isOf b) = 0 := by
  have hc : ¬c = b := fun h => hb h.symm
  unfold report
  split <;> simp [isOf, buildId, hc]

theorem countP_replicate_session (n : ℕ) :
    (replicate n (.session : WorkerItem B P H)).countP (isOf b) = 0 := by
  simp [countP_replicate, isOf, buildId]

/-! ### Builds that were not dispatched -/

structure Untouched (s : State B P H) (b : B) : Prop where
  active : s.worker.active b = none
  executing : b ∉ s.executing
  relays : s.relays b = none
  sending : s.sending b = []
  toWorker : ∀ x ∈ s.toWorker, x.1 ≠ b
  inbox : s.inbox b = none
  underWay : s.underWay b = 0

theorem untouched_initial (store : Finset H) (valid : Finset P) :
    Untouched (State.initial store valid : State B P H) b :=
  ⟨rfl, not_mem_nil, rfl, rfl, by simp [State.initial], rfl,
    by simp [State.initial, State.underWay, isOf, buildId]⟩

theorem Untouched.frame (h : Untouched s b) (hf : Frame caps c s s') (hb : b ≠ c) : Untouched s' b where
  active := hf.worker ▸ h.active
  executing := hf.executing ▸ h.executing
  relays := (hf.relays b hb).trans h.relays
  sending := (hf.sending b hb).trans h.sending
  toWorker := by
    obtain hdown | ⟨-, m, hdown⟩ := hf.toWorker
    · rw [hdown]
      exact h.toWorker
    · intro x hx
      rw [hdown, mem_append, mem_singleton] at hx
      obtain hx | rfl := hx
      · exact h.toWorker x hx
      · exact hb.symm
  inbox := (hf.inbox b hb).trans h.inbox
  underWay := (underWay_congr hf.outbox hf.toHub hf.routing (hf.inbox b hb)).trans h.underWay

theorem Untouched.setWorker (h : Untouched s b) (hactive : s'.worker.active b = s.worker.active b)
    (hexecuting : b ∉ s'.executing) (hrelays : s'.relays = s.relays)
    (hsending : s'.sending = s.sending) (hdown : ∀ x ∈ s'.toWorker, x ∈ s.toWorker)
    (hinbox : s'.inbox = s.inbox) (hle : s'.underWay b ≤ s.underWay b) : Untouched s' b where
  active := hactive.trans h.active
  executing := hexecuting
  relays := hrelays ▸ h.relays
  sending := hsending ▸ h.sending
  toWorker x hx := h.toWorker x (hdown x hx)
  inbox := hinbox ▸ h.inbox
  underWay := Nat.le_zero.mp (h.underWay ▸ hle)

theorem Untouched.handled (h : Untouched s b) (hb : b ≠ c) {x : Worker B P H × Option (WorkerMsg P H)}
    (hx : x.1.active b = s.worker.active b) {more : List (WorkerItem B P H)}
    (hmore : more.countP (isOf b) = 0) : Untouched (s.handled c x more) b := by
  refine h.setWorker hx h.executing rfl rfl (fun _ hx => hx) rfl ?_
  apply underWay_outbox
  · show (report c x.2 ++ more).countP _ = 0
    rw [countP_append, countP_report hb, hmore]
  · rfl
  · rfl
  · rfl

variable [DecidableEq P] [DecidableEq H]

theorem Untouched.receive (h : Untouched s b) (hb : b ≠ c) (pin : Pinning P) (answer : Finset P)
    (failure : Option String) (m : HubItem P H) : Untouched (s.receive cat pin answer failure c m) b := by
  have hc : ¬c = b := fun h => hb h.symm
  have hsession : [(.session : WorkerItem B P H)].countP (isOf b) = 0 := countP_replicate_session 1
  unfold State.receive
  split
  · exact h
  · split
    · refine h.setWorker rfl h.executing rfl rfl (fun _ hx => hx) rfl ?_
      apply underWay_outbox
      · simp [isOf, buildId, hc]
      · rfl
      · rfl
      · rfl
    · exact h.handled hb (handle_active hb _) rfl
    · exact h.handled hb (receive_active hb _ _ _) hsession
    · apply h.handled hb (receive_active hb _ _ _)
      split_ifs
      · rfl
      · exact hsession
    · exact h.handled hb (receive_active hb _ _ _) rfl

theorem dispatched_receive {pin : Pinning P} {answer : Finset P} {failure : Option String} {m : HubItem P H} :
    (s.receive cat pin answer failure c m).dispatched = s.dispatched := by
  unfold State.receive
  split
  · rfl
  · split <;> rfl

theorem Untouched.stepWorker (h : b ∉ s.dispatched → Untouched s b) (hs : stepWorker cat s a = some s')
    (hb : b ∉ s'.dispatched) : Untouched s' b := by
  cases a with
  | recv pin answer failure =>
    simp only [stepWorker] at hs
    split at hs
    · cases hs
    · rename_i c m rest hdown
      split_ifs at hs
      cases hs
      rw [dispatched_receive] at hb
      have h := h hb
      have hb : b ≠ c := fun hb => h.toWorker (c, m) (hdown ▸ mem_cons_self) hb.symm
      have hrest : Untouched { s with toWorker := rest } b :=
        h.setWorker rfl h.executing rfl rfl (fun _ hx => hdown ▸ mem_cons_of_mem _ hx) rfl le_rfl
      exact hrest.receive hb pin answer failure m
  | wake =>
    simp only [stepWorker] at hs
    split at hs
    · cases hs
    · rename_i c path rest _
      cases hs
      have h := h hb
      by_cases hb : b = c
      · subst hb
        simp only [handle, h.active]
        refine h.setWorker rfl h.executing rfl rfl (fun _ hx => hx) rfl ?_
        exact underWay_outbox rfl rfl rfl rfl
      · refine h.handled hb ?_ rfl
        exact handle_active hb _
  | launch c =>
    simp only [stepWorker] at hs
    split at hs
    · cases hs
    · rename_i x hx
      split_ifs at hs
      cases hs
      have h := h hb
      have hb : b ≠ c := by
        rintro rfl
        rw [h.active] at hx
        cases hx
      refine h.setWorker (update_of_ne hb _ _) ?_ rfl rfl (fun _ hx => hx) rfl ?_
      · exact not_mem_cons_of_ne_of_not_mem hb h.executing
      · exact underWay_outbox (countP_replicate_session 1) rfl rfl rfl
  | heartbeat | slotFreed =>
    cases hs
    exact (h hb).setWorker rfl (h hb).executing rfl rfl (fun _ hx => hx) rfl
      (underWay_outbox rfl rfl rfl rfl)
  | _ => cases hs

theorem Untouched.step (h : b ∉ s.dispatched → Untouched s b) (hs : step cat caps s a = some s') (hb : b ∉ s'.dispatched) :
    Untouched s' b := by
  cases a with
  | dispatch c offered inline tmpChunks =>
    simp only [step] at hs
    split_ifs at hs
    cases hs
    have hf : Frame caps c s (((s.setRelay c (some (.new offered inline))).setInbox c (some [])).setSending c
        ((opening cat offered inline tmpChunks).map .staging)) :=
      ((Frame.refl.setRelay _).setInbox _).setSending _
    have h := h fun hd => hb (mem_cons_of_mem c hd)
    obtain ⟨h₁, h₂, h₃, h₄, h₅, h₆, h₇⟩ := h.frame hf (ne_of_not_mem_cons hb)
    exact ⟨h₁, h₂, h₃, h₄, h₅, h₆, h₇⟩
  | push c =>
    have hf := Frame.of_push hs
    have h := h (hf.dispatched ▸ hb)
    have hc : b ≠ c := by
      rintro rfl
      obtain ⟨m, rest, t, hsending, -⟩ := push_eq_some hs
      rw [h.sending] at hsending
      cases hsending
    exact h.frame hf hc
  | recv | wake | launch | heartbeat | slotFreed =>
    simp only [step] at hs
    split_ifs at hs
    exact .stepWorker h hs hb
  | fire i =>
    obtain ⟨w, hw, rfl⟩ := map_eq_some_iff.mp hs
    exact (h hb).setWorker (congrFun (fire_active hw) b) (h hb).executing rfl rfl (fun _ hx => hx) rfl le_rfl
  | importDone c path outcome =>
    obtain ⟨w, hw, rfl⟩ := map_eq_some_iff.mp hs
    have h := h hb
    exact h.setWorker ((importDone_active h.active hw).trans h.active.symm) h.executing rfl rfl (fun _ hx => hx) rfl
      le_rfl
  | log c =>
    simp only [step] at hs
    split_ifs at hs with hc
    cases hs
    have h := h hb
    have hcb : ¬c = b := by
      rintro rfl
      exact h.executing hc.1
    refine h.setWorker rfl h.executing rfl rfl (fun _ hx => hx) rfl ?_
    unfold State.underWay
    simp [isOf, buildId, hcb]
  | send =>
    simp only [step] at hs
    split at hs
    · cases hs
    · rename_i hout
      split_ifs at hs
      cases hs
      exact (h hb).setWorker rfl (h hb).executing rfl rfl (fun _ hx => hx) rfl (le_of_eq (underWay_send hout))
  | route =>
    simp only [step] at hs
    split at hs
    · rename_i hr hup
      cases hs
      exact (h hb).setWorker rfl (h hb).executing rfl rfl (fun _ hx => hx) rfl (underWay_route hr hup)
    · cases hs
  | deliver =>
    simp only [step] at hs
    split at hs
    · cases hs
    · rename_i c m hr
      split at hs
      · cases hs
        exact (h hb).setWorker rfl (h hb).executing rfl rfl (fun _ hx => hx) rfl underWay_unrouted
      · rename_i q hi
        split_ifs at hs
        cases hs
        have h := h hb
        have hc : b ≠ c := by
          rintro rfl
          rw [h.inbox] at hi
          cases hi
        have hf : Frame caps c s (s.setInbox c (some (q ++ [m]))) := Frame.refl.setInbox _
        exact (h.frame hf hc).setWorker rfl h.executing rfl rfl (fun _ hx => hx) rfl underWay_unrouted
  | take c cached | computed c path | flush c | serve c cached | cancel c =>
    obtain ⟨r, hr, hs⟩ := bind_eq_some_iff.mp hs
    have hf := Frame.of_stepRelay hs
    have h := h (hf.dispatched ▸ hb)
    have hc : b ≠ c := by
      rintro rfl
      unfold State.looping at hr
      split_ifs at hr
      rw [h.relays] at hr
      cases hr
    exact h.frame hf hc
  | forget hash =>
    cases hs
    exact (h hb).setWorker rfl (h hb).executing rfl rfl (fun _ hx => hx) rfl le_rfl
  | collect keep | register path =>
    simp only [step] at hs
    split_ifs at hs
    cases hs
    exact (h hb).setWorker rfl (h hb).executing rfl rfl (fun _ hx => hx) rfl le_rfl

theorem untouched_reachable {ok : State B P H → Action B P H → Prop} (h : (session B cat caps).ReachableIf ok s)
    (hb : b ∉ s.dispatched) : Untouched s b := by
  have hall : ∀ b, b ∉ s.dispatched → Untouched s b := by
    apply h.invariant
    · rintro s ⟨store, valid, -, rfl⟩ b -
      exact untouched_initial store valid
    · intro s a s' hs _ hstep b hb
      exact .step (hs b) hstep hb
  exact hall b hb

end Tribuchet.Staging.Bounded
