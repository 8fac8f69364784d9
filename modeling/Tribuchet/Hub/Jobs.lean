import Mathlib.Data.List.Perm.Basic
import Tribuchet.Base.Runs
import Tribuchet.Hub.Queue

/-! Who has a job (`build` in `hub/submit.rs`, `take_job`, `take_job_by_key`, `requeue`,
`finish` and `fail_unservable_now` in `hub/state.rs`, `worker_loop` and `supervise_job` in
`hub.rs`). A job is moved from the queue into the hands of a task and from there back to
the queue or to its end; calls run to their end. What a worker serves and holds, and what
`servability` says of a job, is different at every call. -/

namespace Tribuchet.Hub.Jobs

open Runs List
open Option hiding map_map

/-- `MAX_JOB_ATTEMPTS`. -/
def maxJobAttempts : ℕ := 3

/-- A job as it moves, with the times it went back to the queue. -/
structure Ticket where
  job : Job
  attempts : ℕ
  deriving DecidableEq

abbrev Ticket.id (t : Ticket) : String := t.job.id

inductive Hand
  /-- `take_job` asks for its clients -/
  | checking
  /-- `worker_loop` dispatches it -/
  | taken
  /-- `supervise_job` is in `run_job` -/
  | running
  /-- `requeue` has counted the attempt and tells the clients -/
  | requeuing
  | failing
  /-- `finish` is called -/
  | finishing
  | unlisted
  deriving DecidableEq

structure State where
  queue : List Ticket
  hands : List (Ticket × Hand)
  finished : List String
  /-- the ids of the jobs handed to `run_job`, in that order -/
  runs : List String
  submitted : List String

def State.initial : State := ⟨[], [], [], [], []⟩

def takeFirst (eligible : Job → Bool) (queue : List Ticket) : Option (Ticket × List Ticket) :=
  match queue.findIdx? fun t => eligible t.job with
  | some pos => (queue[pos]?).map fun t => (t, queue.eraseIdx pos)
  | none => none

inductive Action
  /-- `build` queues a new job -/
  | submit (job : Job)
  | takeJob (caps : WorkerCaps) (worker : ℕ) (held : Held)
  | takeJobByKey (keys : List String)
  | checked (t : Ticket) (subscribed : Bool)
  | dispatch (t : Ticket)
  /-- `run_job` returns: with a verdict, or with an error, and whether the error says
  nothing about the build -/
  | settled (t : Ticket)
  | broken (t : Ticket) (lost : Bool)
  | requeue (t : Ticket)
  /-- the locked part of `fail_unservable_now`, with what `servability` says -/
  | sweep (never : Job → Bool)
  | failed (t : Ticket)
  | unlist (t : Ticket)
  | close (t : Ticket)

namespace State

def take (s : State) (eligible : Job → Bool) (hand : Hand) : Option State :=
  (takeFirst eligible s.queue).map fun (t, queue) => { s with queue := queue, hands := (t, hand) :: s.hands }

def move (s : State) (t : Ticket) (hand : Hand) (t' : Ticket) (hand' : Hand) : Option State :=
  if (t, hand) ∈ s.hands then some { s with hands := (t', hand') :: s.hands.erase (t, hand) } else none

end State

def step (s : State) : Action → Option State
  | .submit job =>
    if job.id ∈ s.submitted then none
    else some { s with queue := s.queue ++ [⟨job, 0⟩], submitted := s.submitted ++ [job.id] }
  | .takeJob caps worker held =>
    s.take (fun j => caps.serves j.system j.features && !elsewhere held worker j.key) .checking
  | .takeJobByKey keys => s.take (fun j => keys.contains j.key) .taken
  | .checked t subscribed => s.move t .checking t (if subscribed then .taken else .finishing)
  | .dispatch t => (s.move t .taken t .running).map fun s => { s with runs := s.runs ++ [t.id] }
  | .settled t => s.move t .running t .finishing
  | .broken t lost =>
    if lost ∧ t.attempts < maxJobAttempts then s.move t .running { t with attempts := t.attempts + 1 } .requeuing
    else s.move t .running t .finishing
  | .requeue t =>
    if (t, .requeuing) ∈ s.hands then
      some { s with hands := s.hands.erase (t, .requeuing), queue := s.queue ++ [t] }
    else none
  | .sweep never => some { s with
      queue := s.queue.filter fun t => !never t.job
      hands := (s.queue.filter fun t => never t.job).map (fun t => (t, .failing)) ++ s.hands }
  | .failed t => s.move t .failing t .finishing
  | .unlist t => s.move t .finishing t .unlisted
  | .close t =>
    if (t, .unlisted) ∈ s.hands then
      some { s with hands := s.hands.erase (t, .unlisted), finished := s.finished ++ [t.id] }
    else none

def system : System State Action where
  init s := s = .initial
  step := step

/-! ### Every job is somewhere -/

def State.places (s : State) : List String :=
  s.queue.map Ticket.id ++ s.hands.map (fun h => h.1.id) ++ s.finished

/-- How often a job in a task's hands was handed to `run_job`. -/
def Hand.counts (attempts runs : ℕ) : Hand → Prop
  | .checking | .taken | .requeuing | .failing => runs = attempts ∧ attempts ≤ maxJobAttempts
  | .running => runs = attempts + 1 ∧ attempts ≤ maxJobAttempts
  | .finishing | .unlisted => runs ≤ maxJobAttempts + 1

structure Inv (s : State) : Prop where
  places : s.places.Perm s.submitted
  nodup : s.submitted.Nodup
  queue : ∀ t ∈ s.queue, s.runs.count t.id = t.attempts ∧ t.attempts ≤ maxJobAttempts
  hands : ∀ h ∈ s.hands, h.2.counts h.1.attempts (s.runs.count h.1.id)
  runs : ∀ id, s.runs.count id ≤ maxJobAttempts + 1
  known : ∀ id ∈ s.runs, id ∈ s.submitted

open State

theorem inv_initial : Inv initial := by
  refine ⟨.refl _, nodup_nil, ?_, ?_, ?_, ?_⟩ <;> simp [initial]

theorem takeFirst_perm {eligible : Job → Bool} {queue queue' : List Ticket} {t : Ticket}
    (h : takeFirst eligible queue = some (t, queue')) : queue.Perm (t :: queue') := by
  unfold takeFirst at h
  split at h
  · rename_i pos hpos
    obtain ⟨t', ht, heq⟩ := map_eq_some_iff.mp h
    cases heq
    obtain ⟨hlt, heq⟩ := List.getElem?_eq_some_iff.mp ht
    rw [← heq]
    exact (List.getElem_cons_eraseIdx_perm hlt).symm
  · cases h

section Moves

variable {s s' : State} {t t' u : Ticket} {hand hand' : Hand}

variable (h : Inv s)

include h

theorem Inv.alone (ht : (t, hand) ∈ s.hands) :
    (∀ u ∈ s.queue, u.id ≠ t.id) ∧ (∀ x ∈ s.hands.erase (t, hand), x.1.id ≠ t.id) ∧ t.id ∉ s.finished := by
  have hperm : s.places.Perm
      (t.id :: (s.queue.map Ticket.id ++ (s.hands.erase (t, hand)).map (fun x => x.1.id) ++ s.finished)) := by
    unfold State.places
    rw [← cons_append]
    refine Perm.append_right _ ?_
    refine (Perm.append_left _ ((perm_cons_erase ht).map fun x => x.1.id)).trans ?_
    exact perm_middle
  have hnodup := hperm.nodup_iff.mp (h.places.nodup_iff.mpr h.nodup)
  have hno := (nodup_cons.mp hnodup).1
  refine ⟨fun u hu hc => hno ?_, fun x hx hc => hno ?_, fun hc => hno ?_⟩
  · exact mem_append_left _ (mem_append_left _ (mem_map.mpr ⟨u, hu, hc⟩))
  · exact mem_append_left _ (mem_append_right _ (mem_map.mpr ⟨x, hx, hc⟩))
  · exact mem_append_right _ hc

theorem Inv.move (ht : (t, hand) ∈ s.hands) (hid : t'.id = t.id)
    (hcounts : hand'.counts t'.attempts (s.runs.count t.id)) :
    Inv { s with hands := (t', hand') :: s.hands.erase (t, hand) } := by
  refine ⟨?_, h.nodup, h.queue, ?_, h.runs, h.known⟩
  · refine Perm.trans ?_ h.places
    unfold State.places
    refine Perm.append_right _ (Perm.append_left _ ?_)
    refine Perm.trans ?_ ((perm_cons_erase ht).map fun x => x.1.id).symm
    rw [map_cons, map_cons]
    exact Perm.of_eq (by rw [hid])
  · intro x hx
    rcases mem_cons.mp hx with rfl | hx
    · rw [hid]
      exact hcounts
    · exact h.hands x (mem_of_mem_erase hx)

theorem Inv.take {queue : List Ticket} (hq : s.queue.Perm (t :: queue))
    (hcounts : ∀ attempts runs, runs = attempts ∧ attempts ≤ maxJobAttempts → hand.counts attempts runs) :
    Inv { s with queue := queue, hands := (t, hand) :: s.hands } := by
  refine ⟨?_, h.nodup, fun u hu => h.queue u (hq.mem_iff.mpr (mem_cons_of_mem _ hu)), ?_, h.runs, h.known⟩
  · refine Perm.trans ?_ h.places
    unfold State.places
    refine Perm.append_right _ ?_
    refine perm_middle.trans ?_
    rw [← cons_append]
    exact Perm.append_right _ (hq.map Ticket.id).symm
  · intro x hx
    rcases mem_cons.mp hx with rfl | hx
    · exact hcounts _ _ (h.queue t (hq.mem_iff.mpr (mem_cons_self ..)))
    · exact h.hands x hx

theorem Inv.sweep (never : Job → Bool) : Inv { s with
    queue := s.queue.filter fun t => !never t.job
    hands := (s.queue.filter fun t => never t.job).map (fun t => (t, .failing)) ++ s.hands } := by
  refine ⟨?_, h.nodup, fun u hu => h.queue u (mem_filter.mp hu).1, ?_, h.runs, h.known⟩
  · refine Perm.trans ?_ h.places
    unfold State.places
    refine Perm.append_right _ ?_
    rw [map_append, map_map, ← append_assoc]
    refine Perm.append_right _ ?_
    have hids : (fun x : Ticket × Hand => x.1.id) ∘ (fun t => (t, Hand.failing)) = Ticket.id := rfl
    rw [hids, ← map_append]
    refine Perm.map _ (perm_append_comm.trans ?_)
    exact filter_append_perm (fun t => never t.job) s.queue
  · intro x hx
    rcases mem_append.mp hx with hx | hx
    · obtain ⟨u, hu, rfl⟩ := mem_map.mp hx
      exact h.queue u (mem_filter.mp hu).1
    · exact h.hands x hx

theorem Inv.dispatch (ht : (t, .taken) ∈ s.hands) :
    Inv { s with hands := (t, .running) :: s.hands.erase (t, .taken), runs := s.runs ++ [t.id] } := by
  obtain ⟨hqueue, hhands, -⟩ := h.alone ht
  obtain ⟨hruns, hle⟩ : s.runs.count t.id = t.attempts ∧ t.attempts ≤ maxJobAttempts := h.hands _ ht
  have hother : ∀ i, i ≠ t.id → (s.runs ++ [t.id]).count i = s.runs.count i := by
    intro i hi
    rw [count_append, count_singleton, if_neg (by simpa using hi.symm), Nat.add_zero]
  have hself : (s.runs ++ [t.id]).count t.id = t.attempts + 1 := by
    rw [count_append, count_singleton_self, hruns]
  have hmove : Inv { s with hands := (t, .finishing) :: s.hands.erase (t, .taken) } := h.move ht rfl (h.runs _)
  refine ⟨hmove.places, h.nodup, ?_, ?_, ?_, ?_⟩
  · intro u hu
    rw [hother _ (hqueue u hu)]
    exact h.queue u hu
  · intro x hx
    rcases mem_cons.mp hx with rfl | hx
    · exact ⟨hself, hle⟩
    · rw [hother _ (hhands x hx)]
      exact h.hands x (mem_of_mem_erase hx)
  · intro i
    by_cases hi : i = t.id
    · rw [hi, hself]
      omega
    · rw [hother i hi]
      exact h.runs i
  · intro i hi
    rcases mem_append.mp hi with hi | hi
    · exact h.known i hi
    · rw [mem_singleton.mp hi]
      refine h.places.mem_iff.mp ?_
      exact mem_append_left _ (mem_append_right _ (mem_map.mpr ⟨_, ht, rfl⟩))

theorem Inv.requeue (ht : (t, .requeuing) ∈ s.hands) :
    Inv { s with hands := s.hands.erase (t, .requeuing), queue := s.queue ++ [t] } := by
  refine ⟨?_, h.nodup, ?_, fun x hx => h.hands x (mem_of_mem_erase hx), h.runs, h.known⟩
  · refine Perm.trans ?_ h.places
    unfold State.places
    refine Perm.append_right _ ?_
    rw [map_append, append_assoc]
    have hhands := (perm_cons_erase ht).map fun x => x.1.id
    exact Perm.append_left _ hhands.symm
  · intro u hu
    rcases mem_append.mp hu with hu | hu
    · exact h.queue u hu
    · rw [mem_singleton.mp hu]
      exact h.hands _ ht

theorem Inv.close (ht : (t, .unlisted) ∈ s.hands) :
    Inv { s with hands := s.hands.erase (t, .unlisted), finished := s.finished ++ [t.id] } := by
  refine ⟨?_, h.nodup, h.queue, fun x hx => h.hands x (mem_of_mem_erase hx), h.runs, h.known⟩
  refine Perm.trans ?_ h.places
  unfold State.places
  rw [append_assoc, append_assoc]
  refine Perm.append_left _ ?_
  have hhands := (perm_cons_erase ht).map fun x => x.1.id
  refine Perm.trans ?_ (hhands.append_right _).symm
  rw [← append_assoc, map_cons, cons_append]
  exact perm_append_singleton ..

theorem Inv.submit {job : Job} (hnew : job.id ∉ s.submitted) :
    Inv { s with queue := s.queue ++ [⟨job, 0⟩], submitted := s.submitted ++ [job.id] } := by
  have hzero : s.runs.count job.id = 0 := count_eq_zero.mpr fun hc => hnew (h.known _ hc)
  refine ⟨?_, ?_, ?_, h.hands, h.runs, fun i hi => mem_append_left _ (h.known i hi)⟩
  · unfold State.places
    rw [map_append, append_assoc, append_assoc]
    refine Perm.trans ?_ (h.places.append_right _)
    unfold State.places
    rw [append_assoc, append_assoc]
    refine Perm.append_left _ ?_
    exact perm_append_comm.trans (Perm.of_eq (append_assoc ..))
  · refine nodup_append.mpr ⟨h.nodup, nodup_singleton _, fun a ha b hb hc => hnew ?_⟩
    rw [mem_singleton.mp hb] at hc
    exact hc ▸ ha
  · intro u hu
    rcases mem_append.mp hu with hu | hu
    · exact h.queue u hu
    · rw [mem_singleton.mp hu]
      exact ⟨hzero, Nat.zero_le _⟩

theorem inv_step {a : Action} (hs : step s a = some s') : Inv s' := by
  have hmove : ∀ {t t' : Ticket} {hand hand' : Hand}, s.move t hand t' hand' = some s' → t'.id = t.id →
      (hand.counts t.attempts (s.runs.count t.id) → hand'.counts t'.attempts (s.runs.count t.id)) → Inv s' := by
    intro t t' hand hand' hs hid hcounts
    obtain ⟨ht, hs⟩ := ite_none_right_eq_some.mp hs
    cases hs
    exact h.move ht hid (hcounts (h.hands _ ht))
  have htake : ∀ {eligible : Job → Bool} {hand : Hand}, s.take eligible hand = some s' →
      (∀ attempts runs, runs = attempts ∧ attempts ≤ maxJobAttempts → hand.counts attempts runs) → Inv s' := by
    intro eligible hand hs hcounts
    obtain ⟨⟨t, queue⟩, htake, rfl⟩ := map_eq_some_iff.mp hs
    exact h.take (takeFirst_perm htake) hcounts
  cases a with
  | submit job =>
    simp only [step] at hs
    split_ifs at hs with hid
    cases hs
    exact h.submit hid
  | takeJob caps worker held | takeJobByKey keys => exact htake hs fun _ _ hc => hc
  | checked t subscribed =>
    refine hmove hs rfl fun hc => ?_
    split_ifs
    · exact hc
    · exact h.runs t.id
  | dispatch t =>
    obtain ⟨s₁, hs₁, rfl⟩ := map_eq_some_iff.mp hs
    obtain ⟨ht, hs₁⟩ := ite_none_right_eq_some.mp hs₁
    cases hs₁
    exact h.dispatch ht
  | broken t lost =>
    simp only [step] at hs
    split_ifs at hs with hlost
    · -- the attempt is counted, so the runs are again as many as the attempts
      refine hmove hs rfl ?_
      rintro ⟨hruns, -⟩
      exact ⟨hruns, hlost.2⟩
    · exact hmove hs rfl fun _ => h.runs t.id
  | requeue t =>
    obtain ⟨ht, hs⟩ := ite_none_right_eq_some.mp hs
    cases hs
    exact h.requeue ht
  | sweep never =>
    cases hs
    exact h.sweep never
  | settled t | failed t => exact hmove hs rfl fun _ => h.runs t.id
  | unlist t => exact hmove hs rfl fun hc => hc
  | close t =>
    obtain ⟨ht, hs⟩ := ite_none_right_eq_some.mp hs
    cases hs
    exact h.close ht

omit h

end Moves

end Tribuchet.Hub.Jobs
