import Tribuchet.Hub.Capacity
import Tribuchet.Worker.SlotAccount

/-! Admission of builds over one session: the hub's capacity counter and the
worker's slots, joined by the two message streams. Declarations travel to the hub
and overwrite its counter; assignments and cancellations travel to the worker.
Between `take_job` and the assignment on the wire `run_job` collects the inputs,
in any order across jobs, and may fail there. A build has ended once the worker
has released its slot or has aborted or refused it. -/

namespace Tribuchet.Session.Admission

open Runs Hub Worker List Option Slots

inductive Down
  | assignment (id : String)
  | cancel (id : String)
  deriving DecidableEq

def Down.isAssignment : Down → Bool
  | .assignment _ => true
  | .cancel _ => false

/-- A `RequestJob`, with the number of dispatched builds that were no longer on
their way to the worker when it was computed. -/
structure Declaration where
  capacity : UInt32
  seen : ℕ

structure State where
  /-- `max_jobs` of the worker -/
  maxJobs : ℕ
  hub : Capacity.Session
  worker : Session String
  preparing : List String
  down : List Down
  up : List Declaration

namespace State

def dispatched (s : State) : ℕ := s.hub.dispatched.length

/-- Builds dispatched through `take_job` that the worker has not received. -/
def onTheWay (s : State) : ℕ := s.preparing.length + s.down.countP Down.isAssignment

/-- Builds dispatched through `take_job` that have not ended. -/
def outstanding (s : State) : ℕ := s.onTheWay + s.worker.builds

def advanceWorker (s : State) (a : Action String) : Option State :=
  (step s.worker a).map fun (w, out) => { s with
    worker := w
    up := s.up ++ (out.map fun c => ⟨c, s.dispatched - s.onTheWay⟩).toList }

def receive (s : State) : Option State :=
  match s.down with
  | [] => none
  | .assignment id :: rest => { s with down := rest }.advanceWorker (.assignment id)
  | .cancel id :: rest => { s with down := rest }.advanceWorker (.cancel id)

end State

inductive Action
  /-- a step of `worker_loop` -/
  | hub (a : Capacity.Action)
  /-- `route_loop` stores the next declaration -/
  | store
  | sendAssignment (id : String)
  | lost (id : String)
  | sendCancel (id : String)
  | receive
  | worker (a : Slots.Action String)

def step (s : State) : Action → Option State
  -- declarations come off the stream, and the worker has no builds to resume
  | .hub (.requestJob _) => none
  | .hub .resume => none
  | .hub .decrement =>
    match s.hub.phase with
    | .took job => (Capacity.step s.hub .decrement).map fun h =>
        { s with hub := h, preparing := s.preparing ++ [job.id] }
    | _ => none
  | .hub a => (Capacity.step s.hub a).map fun h => { s with hub := h }
  | .store =>
    match s.up with
    | [] => none
    | d :: rest => (Capacity.step s.hub (.requestJob d.capacity)).map fun h =>
        { s with hub := h, up := rest }
  | .sendAssignment id =>
    if id ∈ s.preparing then
      some { s with preparing := s.preparing.erase id, down := s.down ++ [.assignment id] }
    else none
  | .lost id => if id ∈ s.preparing then some { s with preparing := s.preparing.erase id } else none
  | .sendCancel id => some { s with down := s.down ++ [.cancel id] }
  | .receive => s.receive
  | .worker (.assignment _) => none
  | .worker (.cancel _) => none
  | .worker a => s.advanceWorker a

/-- A fresh session of a worker that holds no build; `session` rounds `max_jobs`
up to 1. -/
def start (maxJobs worker : ℕ) (caps : WorkerCaps) (queue : List Job) (held : Held) : State where
  maxJobs := max maxJobs 1
  hub := Capacity.start worker caps queue held
  worker := Slots.start (max maxJobs 1) [] false
  preparing := []
  down := []
  up := []

def system : System State Action where
  init s := ∃ maxJobs worker caps queue held, s = start maxJobs worker caps queue held
  step := step

def Admitted (s : State) : Prop := s.outstanding ≤ s.maxJobs + 1

/-- A declaration is stored only if, when it was computed, the worker had received
every build dispatched by now; and no decrement is raced by a declaration of zero. -/
def Current (s : State) : Action → Prop
  | .store => ∀ d ∈ s.up.head?, d.seen = s.dispatched
  | .hub a => Capacity.Unraced s.hub a
  | _ => True

/-! ### Nothing is declared twice -/

/-- Counter, declarations in flight and builds not ended never promise more than
the slots and the lookahead build. -/
structure Inv (s : State) : Prop where
  account : Account s.maxJobs s.worker
  hub : Capacity.Inv s.hub
  way : s.onTheWay ≤ s.dispatched
  room : s.outstanding + s.hub.capacity.toNat ≤ s.maxJobs + 1
  declared : ∀ d ∈ s.up, d.seen + s.outstanding + d.capacity.toNat ≤ s.maxJobs + 1 + s.dispatched

open State

theorem inv_start (maxJobs worker : ℕ) (caps : WorkerCaps) (queue : List Job) (held : Held) :
    Inv (start maxJobs worker caps queue held) where
  account := ⟨by simp [start, Slots.start, Slots.Session.used, Slots.Pc.unreleased],
    by simp [start, Slots.start, Slots.Session.slotless], by simp [start, Slots.start, Slots.Pc.arriving]⟩
  hub := Capacity.inv_start worker caps queue held
  way := by simp [start, onTheWay]
  room := by
    simp [start, outstanding, onTheWay, Slots.Session.builds, Slots.start, Slots.Pc.arriving,
      Capacity.start]
  declared := by simp [start]

variable {s t : State}

variable (hi : Inv s)

include hi

theorem Inv.of_outstanding_le (hm : t.maxJobs = s.maxJobs)
    (hh : t.hub = s.hub) (hu : t.up = s.up) (ha : Account s.maxJobs t.worker)
    (hw : t.onTheWay ≤ s.onTheWay) (ho : t.outstanding ≤ s.outstanding) : Inv t := by
  have hd : t.dispatched = s.dispatched := by rw [dispatched, hh, dispatched]
  have hway := hi.way
  have hroom := hi.room
  refine ⟨hm ▸ ha, hh ▸ hi.hub, by omega, ?_, ?_⟩
  · rw [hm, hh]
    omega
  · intro d hdu
    have := hi.declared d (hu ▸ hdu)
    rw [hm, hd]
    omega

theorem Inv.of_hub {a : Capacity.Action} (ho : Capacity.Unraced s.hub a)
    (hs : (Capacity.step s.hub a).map (fun h => { s with hub := h }) = some t)
    (hr : ∀ c, a ≠ .requestJob c) (hd : a ≠ .decrement) : Inv t := by
  obtain ⟨h, hh, rfl⟩ := map_eq_some_iff.mp hs
  obtain ⟨hcap, hdis⟩ := Capacity.step_frame hh hr hd
  have hdis : dispatched { s with hub := h } = s.dispatched := by
    simp only [dispatched, hdis]
  refine ⟨hi.account, Capacity.inv_step hi.hub ho hh, ?_, ?_, ?_⟩
  · rw [hdis]
    exact hi.way
  · rw [hcap]
    exact hi.room
  · rw [hdis]
    exact hi.declared

theorem inv_decrement (ho : Capacity.Unraced s.hub .decrement) (hs : step s (.hub .decrement) = some t) : Inv t := by
  have hroom := hi.room
  have hway := hi.way
  simp only [step] at hs
  split at hs
  · rename_i job hp
    obtain ⟨h, hh, rfl⟩ := map_eq_some_iff.mp hs
    have hpos := Capacity.toNat_decrement (hi.hub.pos_of_tested (by simp [hp, Capacity.Phase.tested]) ho)
    have hc := Capacity.inv_step hi.hub ho hh
    obtain ⟨job', -, rfl⟩ := Capacity.step_decrement hh
    simp only [outstanding, onTheWay, dispatched] at hroom hway
    refine ⟨hi.account, hc, ?_, ?_, ?_⟩
    · simp only [onTheWay, dispatched, length_append, length_cons,
        length_nil]
      omega
    · simp only [outstanding, onTheWay, length_append, length_cons,
        length_nil]
      omega
    · intro d hd
      have := hi.declared d hd
      simp only [outstanding, onTheWay, dispatched] at this
      simp only [outstanding, onTheWay, dispatched, length_append,
        length_cons, length_nil]
      omega
  · cases hs

theorem inv_store (ho : Current s .store) (hs : step s .store = some t) : Inv t := by
  have hway := hi.way
  simp only [step] at hs
  split at hs
  · cases hs
  · rename_i d rest hup
    obtain ⟨h, hh, rfl⟩ := map_eq_some_iff.mp hs
    have hseen : d.seen = s.dispatched := ho d (by simp [hup])
    have hdecl := hi.declared d (by simp [hup])
    have hc : Capacity.Inv h := Capacity.inv_step (a := .requestJob d.capacity) hi.hub trivial hh
    cases hh
    refine ⟨hi.account, hc, hway, ?_, fun e he => hi.declared e (by simp [hup, he])⟩
    simp only [outstanding, onTheWay, dispatched] at hseen hdecl ⊢
    omega

theorem inv_advanceWorker {a : Slots.Action String}
    (hs : s.advanceWorker a = some t) (ha : a.arrives = 0) : Inv t := by
  obtain ⟨⟨w, out⟩, hw, rfl⟩ := map_eq_some_iff.mp hs
  have hroom := hi.room
  have hbuilds : s.worker.builds ≤ s.maxJobs + 1 := by
    simp only [outstanding] at hroom
    omega
  obtain ⟨hacc, hle⟩ := account_step hi.account hbuilds hw
  rw [ha, add_zero] at hle
  have hway := hi.way
  refine ⟨hacc, hi.hub, hway, ?_, ?_⟩
  · simp only [outstanding, onTheWay] at hroom ⊢
    omega
  · intro d hd
    simp only [mem_append, mem_toList, map_eq_some_iff] at hd
    simp only [outstanding, onTheWay, dispatched] at hroom hway ⊢
    rcases hd with hd | ⟨c, rfl, rfl⟩
    · have := hi.declared d hd
      simp only [outstanding, onTheWay, dispatched] at this
      omega
    · -- a new declaration: what it has not seen is on the way
      obtain ⟨heq, hfit⟩ := declared_fits hi.account hw
      simp only [onTheWay, dispatched]
      omega

theorem inv_receive (hs : s.receive = some t) : Inv t := by
  have hroom := hi.room
  have hbuilds : s.worker.builds ≤ s.maxJobs + 1 := by
    simp only [outstanding] at hroom
    omega
  unfold receive at hs
  split at hs
  · cases hs
  · rename_i id rest hdown
    obtain ⟨⟨w, out⟩, hw, rfl⟩ := map_eq_some_iff.mp hs
    obtain ⟨hacc, hle⟩ := account_step hi.account hbuilds hw
    have hout : out = none := by
      cases out with
      | none => rfl
      | some c =>
        have := (declared_fits hi.account hw).1
        simp only [Slots.step] at hw
        split at hw <;> simp at hw
    subst hout
    have hcount : s.down.countP Down.isAssignment = rest.countP Down.isAssignment + 1 := by
      rw [hdown, countP_cons_of_pos (by rfl)]
    refine hi.of_outstanding_le rfl rfl (by simp) hacc ?_ ?_
    · simp only [onTheWay, hcount]
      omega
    · simp only [outstanding, onTheWay, hcount, Action.arrives] at hle ⊢
      omega
  · rename_i id rest hdown
    have hcount : s.down.countP Down.isAssignment = rest.countP Down.isAssignment := by
      rw [hdown, countP_cons_of_neg (by simp [Down.isAssignment])]
    have hi' : Inv { s with down := rest } :=
      hi.of_outstanding_le rfl rfl rfl hi.account (by simp [onTheWay, hcount])
        (by simp [outstanding, onTheWay, hcount])
    exact inv_advanceWorker hi' hs rfl

theorem inv_step {a : Action} (ho : Current s a) (hs : step s a = some t) : Inv t := by
  cases a with
  | hub a =>
    cases a with
    | requestJob c => cases hs
    | resume => cases hs
    | decrement => exact inv_decrement hi ho hs
    | test => exact hi.of_hub (a := .test) ho hs (by simp) (by simp)
    | take => exact hi.of_hub (a := .take) ho hs (by simp) (by simp)
    | examine subscribed => exact hi.of_hub (a := .examine subscribed) ho hs (by simp) (by simp)
    | others queue held => exact hi.of_hub (a := .others queue held) ho hs (by simp) (by simp)
  | store => exact inv_store hi ho hs
  | sendAssignment id =>
    simp only [step] at hs
    split at hs <;> cases hs
    rename_i hid
    have hl := length_erase_of_mem hid
    have hp := length_pos_of_mem hid
    refine hi.of_outstanding_le rfl rfl rfl hi.account ?_ ?_ <;>
      · simp only [outstanding, onTheWay, countP_append, countP_cons,
          countP_nil, Down.isAssignment, if_true]
        omega
  | lost id =>
    simp only [step] at hs
    split at hs <;> cases hs
    rename_i hid
    have hl := length_erase_of_mem hid
    refine hi.of_outstanding_le rfl rfl rfl hi.account ?_ ?_ <;>
      · simp only [outstanding, onTheWay]
        omega
  | sendCancel id =>
    cases hs
    refine hi.of_outstanding_le rfl rfl rfl hi.account ?_ ?_ <;>
      simp [outstanding, onTheWay, Down.isAssignment]
  | receive => exact inv_receive hi hs
  | worker a =>
    cases a with
    | assignment id => cases hs
    | cancel id => cases hs
    | _ => exact inv_advanceWorker hi hs rfl

omit hi

/-- In every run in which each declaration the hub stores was computed with every
dispatched build received, and no decrement is raced by a declaration of zero, at
most `max_jobs + 1` dispatched builds have not ended. -/
theorem outstanding_le_unless_crossed {s : State} (h : system.ReachableIf Current s) : Admitted s := by
  have hi : Inv s := by
    refine h.invariant ?_ (fun _ _ _ hi ho hs => inv_step hi ho hs)
    rintro _ ⟨maxJobs, worker, caps, queue, held, rfl⟩
    exact inv_start maxJobs worker caps queue held
  have := hi.room
  unfold Admitted
  omega

private def anyLinux : WorkerCaps :=
  ⟨(∅ : AList fun _ : String => List String).insert "x86_64-linux" []⟩

private def threeJobs : List Job :=
  [⟨"job1", "key1", "x86_64-linux", []⟩, ⟨"job2", "key2", "x86_64-linux", []⟩,
    ⟨"job3", "key3", "x86_64-linux", []⟩]

/-- One turn of `worker_loop` that dispatches a job. -/
private def dispatchOne : List Action := [.hub .test, .hub .take, .hub (.examine true), .hub .decrement]

instance (s : State) (a : Action) : Decidable (Current s a) := by
  cases a <;> dsimp only [Current] <;> infer_instance

/-- One slot: the first declaration lets two builds in, and no third is taken. -/
theorem outstanding_le_after_first_declaration : ∃ s : State, system.ReachableIf Current s ∧
    s.maxJobs = 1 ∧ s.outstanding = 2 ∧ s.hub.queue.length = 1 ∧ Admitted s := by
  obtain ⟨s, hs, hmax, hout, hqueue⟩ := system.exists_reachableIf_of_decide Current (start 1 0 anyLinux threeJobs ∅)
    ([.worker .declare, .store] ++ dispatchOne ++ dispatchOne ++ [.hub .test])
    (fun s => s.maxJobs = 1 ∧ s.outstanding = 2 ∧ s.hub.queue.length = 1) ⟨_, _, _, _, _, rfl⟩ (by decide)
  exact ⟨s, hs, hmax, hout, hqueue, outstanding_le_unless_crossed hs⟩

/-- One slot: the worker declares 2 and, at a heartbeat before any assignment has
reached it, 2 again. The hub spends the first declaration on two builds, the
second then refills its counter, and a third build is dispatched. -/
theorem outstanding_exceeds_after_crossing : ∃ s : State, system.Reachable s ∧
    s.maxJobs = 1 ∧ s.hub.dispatched.map Job.id = ["job3", "job2", "job1"] ∧ s.outstanding = 3 ∧
      ¬ Admitted s := by
  obtain ⟨s, hs, hp⟩ := system.exists_reachable_of_exec (start 1 0 anyLinux threeJobs ∅)
    ([.worker .declare, .worker .heartbeat, .worker .declare, .store] ++ dispatchOne ++ dispatchOne ++
      [.store] ++ dispatchOne)
    (fun s => s.maxJobs == 1 && s.hub.dispatched.map Job.id == ["job3", "job2", "job1"] &&
      s.outstanding == 3) ⟨_, _, _, _, _, rfl⟩ (by decide)
  simp only [Bool.and_eq_true, beq_iff_eq] at hp
  obtain ⟨⟨hm, hd⟩, ho⟩ := hp
  refine ⟨s, hs, hm, hd, ho, fun ha => ?_⟩
  simp [Admitted, hm, ho] at ha

end Tribuchet.Session.Admission
