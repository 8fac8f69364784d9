import Tribuchet.Base.Runs
import Tribuchet.Hub.Queue

/-! One worker session on the hub (`hub.rs`): `route_loop` stores each
`RequestJob` in the session's capacity counter, `worker_loop` tests the counter,
takes a job and decrements the counter. `take_job` is awaited, so the test, every
look at the queue, the subscriber check and the decrement are separate steps and
a declaration may be stored between any two of them. The queue and the held keys
belong to the whole hub: other tasks replace them at any time. -/

namespace Tribuchet.Hub.Capacity

open Runs UInt32

/-- Where `worker_loop` stands in one turn of its inner loop. -/
inductive Phase
  | idle
  /-- the counter was positive; inside `take_job`, before its next look at the queue -/
  | taking
  /-- `take_job` removed the job and asks for its subscribers -/
  | examining (job : Job)
  /-- `take_job` returned the job; the decrement comes next -/
  | took (job : Job)
  deriving DecidableEq

/-- The job is in the hands of `worker_loop` or about to be looked for: the test
has passed and the decrement has not run. -/
def Phase.tested : Phase → Bool
  | .idle => false
  | _ => true

structure Session where
  worker : ℕ
  caps : WorkerCaps
  capacity : UInt32
  phase : Phase
  queue : List Job
  held : Held
  /-- jobs handed to `supervise_job`, through `take_job` and by key -/
  dispatched : List Job
  resumed : List Job
  dropped : List Job
  declared : UInt32
  /-- jobs sent through `take_job` since that declaration -/
  sent : ℕ
  sinceTest : Option UInt32

inductive Action
  | requestJob (capacity : UInt32)
  | resume
  | test
  | take
  | examine (subscribed : Bool)
  | decrement
  | others (queue : List Job) (held : Held)

def step (s : Session) : Action → Option Session
  | .requestJob c => some { s with
      capacity := c
      declared := c
      sent := 0
      sinceTest := if s.phase.tested then some c else none }
  | .resume =>
    match s.phase, takeJobByKey s.worker s.held s.queue with
    | .idle, some (job, queue, held) =>
      some { s with queue := queue, held := held, resumed := job :: s.resumed }
    | _, _ => none
  | .test =>
    match s.phase with
    | .idle => if 0 < s.capacity then some { s with phase := .taking, sinceTest := none } else some s
    | _ => none
  | .take =>
    match s.phase with
    | .taking =>
      match takeEligible s.caps s.worker s.held s.queue with
      | some (job, queue) => some { s with queue := queue, phase := .examining job }
      | none => some { s with phase := .idle, sinceTest := none }
    | _ => none
  | .examine subscribed =>
    match s.phase with
    | .examining job =>
      if subscribed then some { s with phase := .took job }
      else some { s with phase := .taking, dropped := job :: s.dropped }
    | _ => none
  | .decrement =>
    match s.phase with
    -- `fetch_sub` wraps, as `UInt32` subtraction does
    | .took job => some { s with
        capacity := s.capacity - 1
        phase := .idle
        dispatched := job :: s.dispatched
        sent := s.sent + 1
        sinceTest := none }
    | _ => none
  | .others queue held => some { s with queue := queue, held := held }

/-- A session whose worker has registered and declared nothing yet. -/
def start (worker : ℕ) (caps : WorkerCaps) (queue : List Job) (held : Held) : Session where
  worker := worker
  caps := caps
  capacity := 0
  phase := .idle
  queue := queue
  held := held
  dispatched := []
  resumed := []
  dropped := []
  declared := 0
  sent := 0
  sinceTest := none

def system : System Session Action where
  init s := ∃ worker caps queue held, s = start worker caps queue held
  step := step

/-- The counter is at most the last declaration, and so is the number of jobs
sent through `take_job` since. -/
def Bounded (s : Session) : Prop := s.capacity ≤ s.declared ∧ s.sent ≤ s.declared.toNat

/-- No declaration of zero is the last one stored between the test and this
decrement. -/
def Unraced (s : Session) : Action → Prop
  | .decrement => s.sinceTest ≠ some 0
  | _ => True

/-! ### The counter and the last declaration -/

/-- What the counter owes to the last declaration, and what the test found. -/
structure Inv (s : Session) : Prop where
  spent : s.capacity.toNat + s.sent = s.declared.toNat
  untouched : s.phase.tested = true → s.sinceTest = none → 0 < s.capacity
  stored : ∀ c, s.sinceTest = some c → s.phase.tested = true ∧ s.capacity = c ∧ s.declared = c

theorem inv_start (worker : ℕ) (caps : WorkerCaps) (queue : List Job) (held : Held) :
    Inv (start worker caps queue held) :=
  ⟨rfl, by simp [start, Phase.tested], by simp [start]⟩

variable {s : Session}

theorem Inv.bounded (hi : Inv s) : Bounded s := by
  have := hi.spent
  exact ⟨le_iff_toNat_le.mpr (by omega), by omega⟩

theorem Inv.pos_of_tested (hi : Inv s) (ht : s.phase.tested = true) (hr : s.sinceTest ≠ some 0) : 0 < s.capacity := by
  cases hs : s.sinceTest with
  | none => exact hi.untouched ht hs
  | some c =>
    rw [(hi.stored c hs).2.1]
    refine UInt32.pos_iff_ne_zero.mpr ?_
    rintro rfl
    exact hr hs

theorem toNat_decrement {c : UInt32} (h : 0 < c) : (c - 1).toNat + 1 = c.toNat := by
  have h1 : (1 : UInt32) ≤ c := by
    rw [UInt32.le_iff_toNat_le]
    exact lt_iff_toNat_lt.mp h
  have h2 : 1 ≤ c.toNat := le_iff_toNat_le.mp h1
  rw [UInt32.toNat_sub_of_le c 1 h1]
  simp only [toNat_one]
  omega

variable {s' : Session}

theorem step_decrement (hs : step s .decrement = some s') : ∃ job, s.phase = .took job ∧ s' = { s with
      capacity := s.capacity - 1
      phase := .idle
      dispatched := job :: s.dispatched
      sent := s.sent + 1
      sinceTest := none } := by
  simp only [step] at hs
  split at hs <;> cases hs
  exact ⟨_, ‹_›, rfl⟩

theorem inv_step {a : Action} (hi : Inv s) (ho : Unraced s a) (hs : step s a = some s') : Inv s' := by
  obtain ⟨hspent, hunt, hst⟩ := id hi
  cases a with
  | requestJob c =>
    cases hs
    refine ⟨rfl, ?_, ?_⟩
    · intro ht hn
      simp only [show s.phase.tested = true from ht, if_true] at hn
      cases hn
    · intro d hd
      dsimp only at hd
      split at hd <;> cases hd
      exact ⟨‹_›, rfl, rfl⟩
  | resume =>
    simp only [step] at hs
    split at hs <;> cases hs
    exact ⟨hspent, hunt, hst⟩
  | test =>
    simp only [step] at hs
    split at hs
    · split at hs <;> cases hs
      · exact ⟨hspent, fun _ _ => ‹_›, by simp⟩
      · exact hi
    · cases hs
  | take =>
    simp only [step] at hs
    split at hs
    · rename_i hp
      simp only [hp, Phase.tested] at hunt hst
      split at hs <;> cases hs
      · exact ⟨hspent, fun _ hn => hunt trivial hn, fun c hc => ⟨rfl, (hst c hc).2⟩⟩
      · exact ⟨hspent, by simp [Phase.tested], by simp⟩
    · cases hs
  | examine subscribed =>
    simp only [step] at hs
    split at hs
    · rename_i hp
      simp only [hp, Phase.tested] at hunt hst
      split at hs <;> cases hs <;>
        exact ⟨hspent, fun _ hn => hunt trivial hn, fun c hc => ⟨rfl, (hst c hc).2⟩⟩
    · cases hs
  | decrement =>
    obtain ⟨job, hp, rfl⟩ := step_decrement hs
    have hpos := toNat_decrement (hi.pos_of_tested (by simp [hp, Phase.tested]) ho)
    refine ⟨?_, by simp [Phase.tested], by simp⟩
    simp only
    omega
  | others queue held =>
    cases hs
    exact ⟨hspent, hunt, hst⟩

theorem step_frame {a : Action} (hs : step s a = some s') (hr : ∀ c, a ≠ .requestJob c) (hd : a ≠ .decrement) :
    s'.capacity = s.capacity ∧ s'.dispatched = s.dispatched := by
  cases a with
  | requestJob c => exact absurd rfl (hr c)
  | decrement => exact absurd rfl hd
  | resume =>
    simp only [step] at hs
    split at hs <;> cases hs
    exact ⟨rfl, rfl⟩
  | test | take | examine subscribed =>
    simp only [step] at hs
    split at hs
    · split at hs <;> cases hs <;> exact ⟨rfl, rfl⟩
    · cases hs
  | others queue held =>
    cases hs
    exact ⟨rfl, rfl⟩

theorem inv_of_reachableIf (h : system.ReachableIf Unraced s) : Inv s := by
  refine h.invariant ?_ (fun _ _ _ hi ho hs => inv_step hi ho hs)
  rintro _ ⟨worker, caps, queue, held, rfl⟩
  exact inv_start worker caps queue held

theorem Inv.raced_decrement (hi : Inv s) (hr : s.sinceTest = some 0)
    (hs : step s .decrement = some s') : ¬ Bounded s' := by
  obtain ⟨job, -, rfl⟩ := step_decrement hs
  obtain ⟨-, hc, hd⟩ := hi.stored 0 hr
  rintro ⟨hle, -⟩
  simp only [hc, hd] at hle
  exact absurd hle (by decide)

/-- In every run in which no decrement follows a declaration of zero stored since
its test, the counter and the jobs sent through `take_job` stay within the last
declaration and no decrement wraps; the first decrement that does follow one
leaves the counter above the declaration. -/
theorem capacity_bounded_unless_raced {s : Session} (h : system.ReachableIf Unraced s) :
    Bounded s ∧ ∀ s', step s .decrement = some s' →
      (Unraced s .decrement → s'.capacity.toNat + 1 = s.capacity.toNat) ∧
      (Bounded s' ↔ Unraced s .decrement) := by
  have hi := inv_of_reachableIf h
  refine ⟨hi.bounded, fun s' hs => ?_⟩
  obtain ⟨job, hp, rfl⟩ := step_decrement hs
  refine ⟨fun ho => toNat_decrement (hi.pos_of_tested (by simp [hp, Phase.tested]) ho), ?_, ?_⟩
  · intro hb hr
    exact hi.raced_decrement hr hs hb
  · intro ho
    exact (inv_step hi ho hs).bounded

private def linux : WorkerCaps := ⟨(∅ : AList fun _ : String => List String).insert "x86_64-linux" []⟩

private def hello : Job := ⟨"job", "key", "x86_64-linux", []⟩

instance (s : Session) (a : Action) : Decidable (Unraced s a) := by
  cases a <;> dsimp only [Unraced] <;> infer_instance

/-- A declaration of 2 stored while a job is being taken leaves room for one more. -/
theorem capacity_bounded_after_redeclaration :
    ∃ s, system.ReachableIf Unraced s ∧ s.declared = 2 ∧ s.sent = 1 ∧ Bounded s := by
  obtain ⟨s, hs, hp⟩ := system.exists_reachableIf_of_decide Unraced (start 0 linux [hello] ∅)
    [.requestJob 1, .test, .take, .requestJob 2, .examine true, .decrement]
    (fun s => s.declared = 2 ∧ s.sent = 1) ⟨_, _, _, _, rfl⟩ (by decide)
  exact ⟨s, hs, hp.1, hp.2, (capacity_bounded_unless_raced hs).1⟩

/-- One slot is declared and tested, and a declaration of zero arrives while
`take_job` is awaited: a session whose last declaration is 0 then has room for
4294967295 jobs and was sent one. -/
theorem capacity_wraps_in_race :
    ∃ s, system.Reachable s ∧ s.declared = 0 ∧ s.capacity = 4294967295 ∧ s.sent = 1 ∧ ¬ Bounded s := by
  obtain ⟨s, hs, hp⟩ := system.exists_reachable_of_exec (start 0 linux [hello] ∅)
    [.requestJob 1, .test, .take, .requestJob 0, .examine true, .decrement]
    (fun s => s.declared == 0 && s.capacity == 4294967295 && s.sent == 1) ⟨_, _, _, _, rfl⟩ (by decide)
  simp only [Bool.and_eq_true, beq_iff_eq] at hp
  refine ⟨s, hs, hp.1.1, hp.1.2, hp.2, ?_⟩
  rintro ⟨-, hsent⟩
  simp [hp.1.1, hp.2] at hsent

end Tribuchet.Hub.Capacity
