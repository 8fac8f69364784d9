import Mathlib.Data.Fintype.Basic
import Tribuchet.Staging.Protocol
import Tribuchet.Staging.SessionSteps

/-! Deadlock of a session. A relay that awaits a send does not read the channel of its
build; when that channel is full too, `route_loop` stops, then the worker's session loop,
which is the one to make room. This is for good. It cannot happen while the messages under
way to a build whose relay awaits a send fit into the channel of the build. -/

namespace Tribuchet.Staging.Bounded

open Runs Function Option List Bounded

variable {B P H : Type} {cat : Catalog P H} {caps : Caps} {s s' : State B P H} {a : Action B P H} {b c : B}
variable {r : Relay P H}

/-- A relay waits to send on the full channel to the worker, `route_loop` on the full
channel of the relay's build, and the worker's session loop on its full channel to the
hub. -/
structure Deadlock (caps : Caps) (s : State B P H) (b : B) : Prop where
  relay : s.sending b ≠ []
  toWorker : caps.toWorker ≤ s.toWorker.length
  routing : ∃ m q, s.routing = some (b, m) ∧ s.inbox b = some q ∧ caps.build ≤ q.length
  worker : s.outbox ≠ []
  toHub : caps.toHub ≤ s.toHub.length

/-! ### A deadlock is for good -/

/-- A deadlock of a build that was dispatched, so that it is not dispatched again. -/
structure Stuck (caps : Caps) (s : State B P H) (b : B) : Prop extends Deadlock caps s b where
  dispatched : b ∈ s.dispatched

theorem Stuck.congr (h : Stuck caps s b) (hsending : s'.sending b = s.sending b)
    (hdown : s'.toWorker = s.toWorker) (hrouting : s'.routing = s.routing) (hinbox : s'.inbox b = s.inbox b)
    (houtbox : s'.outbox = s.outbox) (hup : s'.toHub = s.toHub) (hd : b ∈ s.dispatched → b ∈ s'.dispatched) :
    Stuck caps s' b where
  relay := hsending ▸ h.relay
  toWorker := hdown ▸ h.toWorker
  routing := by
    rw [hrouting, hinbox]
    exact h.routing
  worker := houtbox ▸ h.worker
  toHub := hup ▸ h.toHub
  dispatched := hd h.dispatched

theorem Stuck.frame (h : Stuck caps s b) (hf : Frame caps c s s') (hc : b ≠ c) : Stuck caps s' b := by
  obtain hdown | ⟨hroom, -⟩ := hf.toWorker
  · exact h.congr (hf.sending b hc) hdown hf.routing (hf.inbox b hc) hf.outbox hf.toHub
      (fun hd => hf.dispatched ▸ hd)
  · exact absurd hroom (not_lt.mpr h.toWorker)

theorem Stuck.ne_of_looping (h : Stuck caps s b) (hr : s.looping c = some r) : b ≠ c := by
  rintro rfl
  unfold State.looping at hr
  split_ifs at hr with he
  exact h.relay (isEmpty_iff.mp he)

variable [DecidableEq B] [DecidableEq P] [DecidableEq H]

theorem Stuck.step (h : Stuck caps s b) (hs : step cat caps s a = some s') : Stuck caps s' b := by
  obtain ⟨m, q, hrouting, hinbox, hfull⟩ := h.routing
  have hup := h.toHub
  -- the session loop has something to send
  have hbusy : ¬s.outbox.isEmpty = true := fun he => h.worker (isEmpty_iff.mp he)
  cases a with
  | dispatch c offered inline tmpChunks =>
    simp only [step] at hs
    split_ifs at hs with hnew
    cases hs
    have hc : b ≠ c := by
      rintro rfl
      exact hnew.1 h.dispatched
    exact h.congr (update_of_ne hc _ _) rfl rfl (update_of_ne hc _ _) rfl rfl
      (mem_cons_of_mem c)
  | push c =>
    obtain ⟨m, rest, t, -, ht, -⟩ := push_eq_some hs
    unfold State.post at ht
    split_ifs at ht with hroom
    exact absurd hroom (not_lt.mpr h.toWorker)
  | recv | wake | launch | heartbeat | slotFreed => simp [step, hbusy] at hs
  | fire i | importDone c path outcome =>
    obtain ⟨w, -, rfl⟩ := map_eq_some_iff.mp hs
    exact h.congr rfl rfl rfl rfl rfl rfl id
  | log c =>
    simp only [step] at hs
    rw [if_neg (by omega)] at hs
    cases hs
  | send =>
    simp only [step] at hs
    split at hs
    · cases hs
    · rw [if_neg (by omega)] at hs
      cases hs
  | route => simp [step, hrouting] at hs
  | deliver =>
    simp only [step, hrouting, hinbox] at hs
    rw [if_neg (by omega)] at hs
    cases hs
  | take c cached | computed c path | flush c | serve c cached | cancel c =>
    obtain ⟨r, hr, hs⟩ := bind_eq_some_iff.mp hs
    exact h.frame (Frame.of_stepRelay hs) (h.ne_of_looping hr)
  | forget hash =>
    cases hs
    exact h.congr rfl rfl rfl rfl rfl rfl id
  | collect keep | register path =>
    simp only [step] at hs
    split_ifs at hs
    cases hs
    exact h.congr rfl rfl rfl rfl rfl rfl id

theorem Stuck.exec {as : List (Action B P H)} (h : Stuck caps s b)
    (hs : (session B cat caps).exec s as = some s') : Stuck caps s' b := by
  induction as generalizing s with
  | nil =>
    cases hs
    exact h
  | cons a as ih =>
    obtain ⟨t, ht, hs⟩ := bind_eq_some_iff.mp hs
    exact ih (h.step ht) hs

/-! ### Room for the messages under way -/

section
omit [DecidableEq B] [DecidableEq P] [DecidableEq H]

def State.awaits (s : State B P H) (b : B) : Prop := (s.inbox b).isSome ∧ s.sending b ≠ []

end

section
omit [DecidableEq P] [DecidableEq H]

/-- The messages under way to a build whose relay awaits a send fit into its channel. -/
def Roomy (caps : Caps) (s : State B P H) : Prop := ∀ b, s.awaits b → s.underWay b ≤ caps.build

theorem Deadlock.not_roomy (h : Deadlock caps s b) : ¬Roomy caps s := by
  intro hroomy
  obtain ⟨m, q, hrouting, hinbox, hfull⟩ := h.routing
  have hle := hroomy b ⟨by simp [hinbox], h.relay⟩
  unfold State.underWay at hle
  simp only [hrouting, hinbox, map_some, if_true, getD_some] at hle
  omega

structure Settling (s s' : State B P H) : Prop where
  underWay : ∀ b, s'.underWay b ≤ s.underWay b
  awaits : ∀ b, s'.awaits b → s.awaits b

theorem Roomy.settling (h : Roomy caps s) (hm : Settling s s') : Roomy caps s' := by
  intro b hb
  exact le_trans (hm.underWay b) (h b (hm.awaits b hb))

theorem Settling.trans {s'' : State B P H} (h : Settling s s') (h' : Settling s' s'') : Settling s s'' where
  underWay b := le_trans (h'.underWay b) (h.underWay b)
  awaits b hb := h.awaits b (h'.awaits b hb)

theorem Settling.of_underWay (h : ∀ b, s'.underWay b ≤ s.underWay b) (hsending : s'.sending = s.sending)
    (hinbox : ∀ b, (s'.inbox b).isSome → (s.inbox b).isSome) : Settling s s' where
  underWay := h
  awaits b hb := ⟨hinbox b hb.1, hsending ▸ hb.2⟩

theorem Settling.congr (houtbox : s'.outbox = s.outbox) (hup : s'.toHub = s.toHub)
    (hrouting : s'.routing = s.routing) (hinbox : s'.inbox = s.inbox) (hsending : s'.sending = s.sending) :
    Settling s s' :=
  .of_underWay (fun b => le_of_eq (underWay_congr houtbox hup hrouting (congrFun hinbox b))) hsending
    (fun _ hb => hinbox ▸ hb)

theorem Settling.announce (n : ℕ) (houtbox : s'.outbox = replicate n .session) (hup : s'.toHub = s.toHub)
    (hrouting : s'.routing = s.routing) (hinbox : s'.inbox = s.inbox) (hsending : s'.sending = s.sending) :
    Settling s s' := by
  apply Settling.of_underWay _ hsending (fun _ hb => hinbox ▸ hb)
  intro b
  apply underWay_outbox _ hup hrouting (congrFun hinbox b)
  rw [houtbox]
  exact countP_replicate_session n

theorem Settling.setInbox_none : Settling s (s.setInbox c none) := by
  apply Settling.of_underWay (fun b => underWay_unregister) rfl
  intro b hb
  by_cases hc : b = c
  · rw [hc, inbox_setInbox_self] at hb
    cases hb
  · rwa [inbox_setInbox_of_ne hc] at hb

theorem Settling.post {m : HubItem P H} (hs : s.post caps c m = some s') : Settling s s' := by
  unfold State.post at hs
  split_ifs at hs
  cases hs
  exact .congr rfl rfl rfl rfl rfl

theorem Settling.setSending {items : List (HubItem P H)} (h : (s.inbox c).isSome → s.sending c ≠ []) :
    Settling s (s.setSending c items) where
  underWay b := le_of_eq (underWay_congr rfl rfl rfl rfl)
  awaits b hb := by
    refine ⟨hb.1, ?_⟩
    by_cases hc : b = c
    · subst hc
      exact h hb.1
    · exact sending_setSending_of_ne hc ▸ hb.2

theorem Settling.failRelay : Settling s (s.failRelay c) := by
  have hrelay : Settling s (s.setRelay c none) := .congr rfl rfl rfl rfl rfl
  apply (hrelay.trans .setInbox_none).trans
  apply Settling.setSending
  rw [inbox_setInbox_self]
  intro hnone
  cases hnone

end

/-! ### No deadlock -/

/-- A step that adds a message for a build or makes its relay await a send leaves, if the
relay awaits one then, no more messages under way to the build than its channel holds. -/
def Fits (cat : Catalog P H) (caps : Caps) (s : State B P H) (a : Action B P H) : Prop :=
  match a with
  | .recv _ _ _ | .wake | .log _ | .take _ _ | .cancel _ =>
    ∀ s' ∈ step cat caps s a, ∀ b, s'.awaits b → (s.awaits b → s.underWay b < s'.underWay b) →
      s'.underWay b ≤ caps.build
  | _ => True

omit [DecidableEq P] [DecidableEq H] in
theorem Roomy.of_fits (h : Roomy caps s)
    (hok : ∀ t ∈ some s', ∀ b, t.awaits b → (s.awaits b → s.underWay b < t.underWay b) →
      t.underWay b ≤ caps.build) : Roomy caps s' := by
  intro b hb
  by_cases hmore : s.awaits b → s.underWay b < s'.underWay b
  · exact hok s' rfl b hb hmore
  · obtain ⟨hbefore, hle⟩ := Classical.not_imp.mp hmore
    exact le_trans (not_lt.mp hle) (h b hbefore)

theorem Roomy.step (h : Roomy caps s) (hu : ∀ b, b ∉ s.dispatched → Untouched s b) (hok : Fits cat caps s a)
    (hs : step cat caps s a = some s') : Roomy caps s' := by
  cases a with
  | dispatch c offered inline tmpChunks =>
    simp only [step] at hs
    split_ifs at hs with hnew
    cases hs
    have huc := hu c hnew.1
    intro b hb
    by_cases hc : b = c
    · -- nothing is under way to a new build
      subst hc
      have hzero := huc.underWay
      unfold State.underWay at hzero
      show s.outbox.countP _ + s.toHub.countP _ + (if s.routing.map Prod.fst = some b then 1 else 0) +
        ((update s.inbox b (some []) b).getD []).length ≤ caps.build
      rw [update_self, getD_some, length_nil]
      omega
    · have hinbox : update s.inbox c (some []) b = s.inbox b := update_of_ne hc _ _
      have hsending : update s.sending c ((opening cat offered inline tmpChunks).map .staging) b = s.sending b :=
        update_of_ne hc _ _
      have hbefore : s.awaits b := ⟨hinbox ▸ hb.1, hsending ▸ hb.2⟩
      exact le_trans (le_of_eq (underWay_congr (s := s) rfl rfl rfl hinbox)) (h b hbefore)
  | recv | wake | log | take | cancel => exact h.of_fits (hs ▸ hok)
  | push c =>
    obtain ⟨m, rest, t, hsending, ht, heq⟩ := push_eq_some hs
    have hsent : Settling s t := by
      apply Settling.trans (.setSending _) (.post ht)
      simp [hsending]
    obtain rfl | rfl := heq
    · exact h.settling hsent
    · exact h.settling (hsent.trans .setInbox_none)
  | launch c =>
    simp only [step] at hs
    split_ifs at hs
    simp only [stepWorker] at hs
    split at hs
    · cases hs
    · split_ifs at hs
      cases hs
      exact h.settling (.announce 1 rfl rfl rfl rfl rfl)
  | heartbeat =>
    simp only [step] at hs
    split_ifs at hs
    cases hs
    exact h.settling (.announce 2 rfl rfl rfl rfl rfl)
  | slotFreed =>
    simp only [step] at hs
    split_ifs at hs
    cases hs
    exact h.settling (.announce 1 rfl rfl rfl rfl rfl)
  | fire i | importDone c path outcome =>
    obtain ⟨w, -, rfl⟩ := map_eq_some_iff.mp hs
    exact h.settling (.congr rfl rfl rfl rfl rfl)
  | send =>
    simp only [step] at hs
    split at hs
    · cases hs
    · rename_i hout
      split_ifs at hs
      cases hs
      exact h.settling (.of_underWay (fun b => le_of_eq (underWay_send hout)) rfl (fun _ => id))
  | route =>
    simp only [step] at hs
    split at hs
    · rename_i hr hup
      cases hs
      exact h.settling (.of_underWay (fun b => underWay_route hr hup) rfl (fun _ => id))
    · cases hs
  | deliver =>
    simp only [step] at hs
    split at hs
    · cases hs
    · rename_i c m hr
      split at hs
      · cases hs
        exact h.settling (.of_underWay (fun b => underWay_unrouted) rfl (fun _ => id))
      · rename_i q hi
        split_ifs at hs
        cases hs
        apply h.settling
        apply Settling.of_underWay (fun b => le_of_eq (underWay_deliver hr hi)) rfl
        intro b hb
        by_cases hc : b = c
        · simp [hc, hi]
        · have hinbox : (update s.inbox c (some (q ++ [m])) b).isSome := hb
          rwa [update_of_ne hc] at hinbox
  | computed c path =>
    obtain ⟨r, -, hs⟩ := bind_eq_some_iff.mp hs
    obtain ⟨r', -, rfl⟩ := map_eq_some_iff.mp hs
    exact h.settling (.congr rfl rfl rfl rfl rfl)
  | flush c =>
    obtain ⟨r, -, hs⟩ := bind_eq_some_iff.mp hs
    obtain ⟨⟨r', m⟩, -, hp⟩ := bind_eq_some_iff.mp hs
    have hrelay : Settling s (s.setRelay c (some r')) := .congr rfl rfl rfl rfl rfl
    exact h.settling (hrelay.trans (.post hp))
  | serve c cached =>
    obtain ⟨r, -, hs⟩ := bind_eq_some_iff.mp hs
    obtain ⟨x, -, hp⟩ := bind_eq_some_iff.mp hs
    split at hp
    · rename_i r' frame
      have hrelay : Settling s (s.setRelay c (some r')) := .congr rfl rfl rfl rfl rfl
      exact h.settling (hrelay.trans (.post hp))
    · cases hp
      exact h.settling .failRelay
  | forget hash =>
    cases hs
    exact h.settling (.congr rfl rfl rfl rfl rfl)
  | collect keep | register path =>
    simp only [step] at hs
    split_ifs at hs
    cases hs
    exact h.settling (.congr rfl rfl rfl rfl rfl)

/-- No deadlock is reached while the messages under way to a build whose relay awaits a send
fit into the channel of the build. -/
theorem no_deadlock_if_fitting (h : (session B cat caps).ReachableIf (Fits cat caps) s) : ¬Deadlock caps s b := by
  have hroomy : Roomy caps s := by
    apply h.invariant_with
    · rintro s ⟨store, valid, -, rfl⟩ b hb
      cases hb.1
    · intro s a s' hr hroomy hok hs
      exact hroomy.step (fun b hb => untouched_reachable hr hb) hok hs
  intro hdead
  exact hdead.not_roomy hroomy

instance (s : State B P H) (b : B) : Decidable (s.awaits b) :=
  inferInstanceAs (Decidable (_ ∧ ¬_ = []))

instance [Fintype B] : Decidable (Fits cat caps s a) := by
  cases a <;> dsimp only [Fits] <;> infer_instance

/-- Two builds share three paths, which the first has claimed. It is cancelled, and its
`ResultAck` takes the room on the channel to the worker; the second takes the paths over
one by one, and the manifest of the first of them is sent again. -/
def handover (b b' : B) (offered : List P) : List (Action B P H) :=
  let recv : Action B P H := .recv ⟨none, none⟩ ∅ none
  let relayed (b : B) : List (Action B P H) := [.send, .route, .deliver, .take b fun _ => []]
  let assigned (b : B) : List (Action B P H) := [.push b, recv, .push b] ++ relayed b ++ [.send, .route, recv]
  [[.send, .route, .dispatch b offered [] 0], assigned b, [.dispatch b' offered offered 0], assigned b',
    [.cancel b, .push b, recv], relayed b, [.send, .route, .fire 0, .fire 0, .fire 0, .push b, .wake], relayed b',
    [.wake, .send, .route, .deliver, .wake, .send, .route, .heartbeat, .send]].flatten

/-- With room for two messages in the channel of a build the session goes on. -/
theorem no_deadlock_in_handover : ∃ s, (session (Fin 2) chain ⟨1, 1, 2⟩).ReachableIf (Fits chain ⟨1, 1, 2⟩) s ∧
    s.sending 1 ≠ [] ∧ s.toWorker.length = 1 ∧ s.outbox ≠ [] ∧ s.toHub.length = 1 ∧ ¬Deadlock ⟨1, 1, 2⟩ s 1 := by
  obtain ⟨s, hr, htest⟩ := (session (Fin 2) chain ⟨1, 1, 2⟩).exists_reachableIf_of_decide (Fits chain ⟨1, 1, 2⟩)
    (State.initial ∅ ∅) (handover 0 1 [0, 1, 2])
    (fun s => s.sending 1 ≠ [] ∧ s.toWorker.length = 1 ∧ s.outbox ≠ [] ∧ s.toHub.length = 1)
    ⟨∅, ∅, by decide, rfl⟩ (by decide +kernel)
  obtain ⟨hsending, hdown, hout, hup⟩ := htest
  exact ⟨s, hr, hsending, hdown, hout, hup, no_deadlock_if_fitting hr⟩

/-- With room for one message it is stuck for good. -/
theorem handover_deadlocks : ∃ s, (session (Fin 2) chain ⟨1, 1, 1⟩).Reachable s ∧ Deadlock ⟨1, 1, 1⟩ s 1 ∧
    ∀ as s', (session (Fin 2) chain ⟨1, 1, 1⟩).exec s as = some s' → Deadlock ⟨1, 1, 1⟩ s' 1 := by
  obtain ⟨s, hr, htest⟩ := (session (Fin 2) chain ⟨1, 1, 1⟩).exists_reachable_of_exec (State.initial ∅ ∅)
    (handover 0 1 [0, 1, 2])
    (fun s => s.sending 1 ≠ [] ∧ s.toWorker.length = 1 ∧ s.routing.map Prod.fst = some 1 ∧
      (s.inbox 1).map length = some 1 ∧ s.outbox ≠ [] ∧ s.toHub.length = 1 ∧ 1 ∈ s.dispatched)
    ⟨∅, ∅, by decide, rfl⟩ (by decide +kernel)
  obtain ⟨hsending, hdown, hrouting, hinbox, hout, hup, hd⟩ := htest
  obtain ⟨⟨b, m⟩, hrouting, rfl⟩ := map_eq_some_iff.mp hrouting
  obtain ⟨q, hinbox, hlen⟩ := map_eq_some_iff.mp hinbox
  have hdead : Deadlock ⟨1, 1, 1⟩ s 1 :=
    ⟨hsending, le_of_eq hdown.symm, ⟨m, q, hrouting, hinbox, le_of_eq hlen.symm⟩, hout, le_of_eq hup.symm⟩
  have hstuck : Stuck ⟨1, 1, 1⟩ s 1 := { hdead with dispatched := hd }
  exact ⟨s, hr, hdead, fun as s' hs => (hstuck.exec hs).toDeadlock⟩

end Tribuchet.Staging.Bounded
