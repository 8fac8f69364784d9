import Mathlib.Data.Finset.Basic
import Tribuchet.Base.Runs

/-! The cancel flags of a worker (`handle_cancel` and `launch_build` in `worker/session.rs`,
`record_finished` in `worker/resume/delivery.rs`, `abort_reason` in `worker.rs`). The flags and the
registry have a lock each and go by the dedupe key; executions are numbered here, to say which of
them an abort belongs to. A build that is still staging has no flag. -/

namespace Tribuchet.CancelFlags

open Runs Function

variable {K : Type} [DecidableEq K]

/-- Where the thread of an execution is. -/
inductive Phase
  | running
  /-- in `record_finished`, between the registry and the flags -/
  | recorded
  | cleared
  deriving DecidableEq

structure State (K : Type) where
  execs : ℕ → Option (K × Phase)
  next : ℕ
  /-- the execution that registered the entry, and whether `finished` is set -/
  resumable : K → Option (ℕ × Bool)
  cancelled : Finset K
  /-- the executions that were registered and unfinished when a `Cancel` was handled -/
  cancels : Finset ℕ
  /-- those that were aborted as `build cancelled` -/
  aborts : Finset ℕ

def State.initial : State K := ⟨fun _ => none, 0, fun _ => none, ∅, ∅, ∅⟩

inductive Action (K : Type)
  | launch (key : K)
  | cancel (key : K)
  | abortReason (n : ℕ)
  | record (n : ℕ)
  | clear (n : ℕ)
  /-- an acknowledgement, or the reaper -/
  | remove (key : K)

def step (s : State K) : Action K → Option (State K)
  | .launch key => some { s with
      execs := update s.execs s.next (some (key, .running)), next := s.next + 1
      resumable := update s.resumable key (some (s.next, false)) }
  | .cancel key =>
    match s.resumable key with
    | some (n, false) => some { s with cancelled := insert key s.cancelled, cancels := insert n s.cancels }
    | _ => some s
  | .abortReason n =>
    match s.execs n with
    | some (key, .running) =>
      -- an execution that was aborted asks no more
      if key ∈ s.cancelled ∧ n ∉ s.aborts then
        some { s with cancelled := s.cancelled.erase key, aborts := insert n s.aborts }
      else none
    | _ => none
  | .record n =>
    match s.execs n with
    | some (key, .running) => some { s with
        execs := update s.execs n (some (key, .recorded))
        resumable := update s.resumable key ((s.resumable key).map fun e => (e.1, true)) }
    | _ => none
  | .clear n =>
    match s.execs n with
    | some (key, .recorded) =>
      some { s with execs := update s.execs n (some (key, .cleared)), cancelled := s.cancelled.erase key }
    | _ => none
  | .remove key =>
    match s.resumable key with
    | some (_, true) => some { s with resumable := update s.resumable key none }
    | _ => none

def system (K : Type) [DecidableEq K] : System (State K) (Action K) where
  init s := s = .initial
  step := step

/-- A key is launched again only when its last execution has removed the flag. -/
def Cleared (s : State K) : Action K → Prop
  | .launch key => ∀ n < s.next, ∀ x ∈ s.execs n, x.1 = key → x.2 = .cleared
  | _ => True

structure Inv (s : State K) : Prop where
  fresh : ∀ n, s.next ≤ n → s.execs n = none
  sole : ∀ m n key p q, s.execs m = some (key, p) → s.execs n = some (key, q) → p ≠ .cleared → q ≠ .cleared → m = n
  entry : ∀ key n, s.resumable key = some (n, false) → s.execs n = some (key, .running)
  flag : ∀ key ∈ s.cancelled, ∃ n ∈ s.cancels, ∃ p ≠ .cleared, s.execs n = some (key, p)
  aborts : s.aborts ⊆ s.cancels

theorem inv_step {s s' : State K} {a : Action K} (h : Inv s) (ha : Cleared s a) (hs : step s a = some s') : Inv s' := by
  cases a with
  | launch key =>
    cases hs
    have hcleared : ∀ n p, s.execs n = some (key, p) → p = .cleared := by
      intro n p hn
      refine ha n (lt_of_not_ge fun hle => ?_) _ hn rfl
      cases (h.fresh n hle).symm.trans hn
    refine ⟨?_, ?_, ?_, ?_, h.aborts⟩
    · grind [update_apply, h.fresh]
    · intro m n k p q
      have := h.sole m n k p q
      grind [update_apply]
    · intro k n
      have := h.entry k n
      grind [update_apply, h.fresh]
    · intro k hk
      obtain ⟨n, hn, p, hp, hnk⟩ := h.flag k hk
      exact ⟨n, hn, p, hp, by grind [update_apply, h.fresh]⟩
  | cancel key =>
    simp only [step] at hs
    split at hs
    · rename_i n hn
      cases hs
      refine ⟨h.fresh, h.sole, h.entry, ?_, h.aborts.trans (Finset.subset_insert ..)⟩
      have := h.entry key n hn
      grind [h.flag]
    · cases hs
      exact h
  | abortReason n =>
    simp only [step] at hs
    split at hs
    · rename_i key hn
      split_ifs at hs with hkey
      cases hs
      -- the execution that the flag is for is the only one with this key
      obtain ⟨m, hm, p, hp, hmk⟩ := h.flag key hkey.1
      cases h.sole m n key p .running hmk hn hp (by simp)
      refine ⟨h.fresh, h.sole, h.entry, ?_, Finset.insert_subset hm h.aborts⟩
      exact fun k hk => h.flag k (Finset.mem_of_mem_erase hk)
    · cases hs
  | record n | clear n =>
    simp only [step] at hs
    split at hs
    · rename_i key hn
      cases hs
      refine ⟨?_, ?_, ?_, ?_, h.aborts⟩
      · grind [update_apply, h.fresh]
      · grind [update_apply, h.sole]
      · grind [update_apply, h.entry, Option.map_eq_some_iff]
      · grind [update_apply, h.flag]
    · cases hs
  | remove key =>
    simp only [step] at hs
    split at hs
    · cases hs
      refine ⟨h.fresh, h.sole, ?_, h.flag, h.aborts⟩
      grind [update_apply, h.entry]
    · cases hs

/-- In such runs an execution is aborted as cancelled only if a `Cancel` was handled while it was
the registered one and unfinished. -/
theorem aborts_cancelled_if_cleared {s : State K} (h : (system K).ReachableIf Cleared s) {n : ℕ} (hn : n ∈ s.aborts) :
    n ∈ s.cancels := by
  have hinv : Inv s := by
    refine h.invariant ?_ ?_
    · rintro s rfl
      refine ⟨fun _ _ => rfl, ?_, ?_, ?_, ?_⟩ <;> simp [State.initial]
    · intro s a s' hs ha hstep
      exact inv_step hs ha hstep
  exact hinv.aborts hn

instance (s : State K) (a : Action K) : Decidable (Cleared s a) := by
  cases a <;> dsimp only [Cleared] <;> infer_instance

/-- The key is launched again when the first execution is over, and cancelled again. -/
theorem aborts_cancelled_relaunched : ∃ s, (system ℕ).ReachableIf Cleared s ∧ s.aborts = {1} ∧ 1 ∈ s.cancels := by
  obtain ⟨s, hr, htest⟩ := (system ℕ).exists_reachableIf_of_decide Cleared State.initial
    [.launch 7, .cancel 7, .record 0, .clear 0, .remove 7, .launch 7, .cancel 7, .abortReason 1]
    (fun s => s.aborts = {1}) rfl (by decide)
  have hs : s.aborts = {1} := htest
  exact ⟨s, hr, hs, aborts_cancelled_if_cleared hr (by simp [hs])⟩

/-- The result is acknowledged and the key launched again before `record_finished` comes to the
flag: the next execution is aborted for a `Cancel` of the last one. -/
theorem abort_by_stale_flag : ∃ s, (system ℕ).Reachable s ∧ s.aborts = {1} ∧ s.cancels = {0} := by
  exact (system ℕ).exists_reachable_of_exec State.initial
    [.launch 7, .cancel 7, .record 0, .remove 7, .launch 7, .abortReason 1] _ rfl (by decide)

end Tribuchet.CancelFlags
