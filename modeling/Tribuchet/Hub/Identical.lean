import Mathlib.Data.Fintype.Basic
import Tribuchet.Hub.Inflight

/-! Identical submissions. A submission finds the job of its key at its look-up; a job that
is listed between the look-up and the attempt to list is met only through its paths, and
is then waited for like any other. -/

set_option linter.unusedSectionVars false

namespace Tribuchet.Hub.Inflight

open Runs Function

variable {K P C : Type} [DecidableEq K] [DecidableEq P] [DecidableEq C]
variable {paths : K → List P} {s s' : State K P C} {c : C} {key : K}

def Phase.isMissed : Phase → Bool
  | .missed _ => true
  | _ => false

/-- Nobody is listed while an identical submission is between its look-up and its attempt to
list. -/
def Apart (s : State K P C) : Action K C → Prop
  | .list c => ∀ x ∈ s.submissions c, ∀ c', c' ≠ c → ∀ x' ∈ s.submissions c', x'.phase.isMissed = true → x'.key ≠ x.key
  | _ => True

instance [Fintype C] (s : State K P C) (a : Action K C) : Decidable (Apart s a) := by
  cases a <;> dsimp only [Apart] <;> infer_instance

/-- A key that was not found is not listed, and nobody has waited for an identical job. -/
structure Unlisted (s : State K P C) : Prop where
  missed : ∀ c x, s.submissions c = some x → x.phase.isMissed = true → s.byKey x.key = none
  conflicts : ∀ x ∈ s.conflicts, x.2 = false

theorem unlisted_initial : Unlisted (State.initial : State K P C) := by
  refine ⟨?_, ?_⟩ <;> simp [State.initial]

theorem Unlisted.setPhase (h : Unlisted s) {phase : Phase} (hphase : phase.isMissed = true → s.byKey key = none) :
    Unlisted (s.setPhase c key phase) := by
  refine ⟨?_, h.conflicts⟩
  intro c' x' hx' hm
  rw [setPhase_submissions] at hx'
  split_ifs at hx'
  · cases hx'
    exact hphase hm
  · exact h.missed c' x' hx' hm

theorem Unlisted.release (h : Unlisted s) (l : Listing K) : Unlisted (s.release paths l) := by
  refine ⟨?_, h.conflicts⟩
  intro c' x' hx' hm
  obtain ⟨x₀, h₀, rfl⟩ := Option.map_eq_some_iff.mp hx'
  show update s.byKey l.key none x₀.key = none
  rw [update_apply]
  split_ifs
  · rfl
  · refine h.missed c' x₀ h₀ ?_
    cases hphase : x₀.phase <;> rw [hphase] at hm <;> first | rfl | cases hm

theorem unlisted_step {a : Action K C} (h : Unlisted s) (ha : Apart s a) (hs : step paths s a = some s') :
    Unlisted s' := by
  cases a with
  | submit c key =>
    simp only [step] at hs
    split at hs
    · split_ifs at hs
      cases hs
      exact h.setPhase fun hc => by cases hc
    · cases hs
  | lookUp c =>
    simp only [step] at hs
    split at hs
    · split at hs
      · cases hs
        exact h.setPhase fun hc => by cases hc
      · rename_i hnone
        cases hs
        exact h.setPhase fun _ => hnone
    · cases hs
  | list c =>
    simp only [step] at hs
    split at hs
    · rename_i key woken hx
      split_ifs at hs
      · cases hs
        have hset : Unlisted (s.setPhase c key (.waiting woken)) := h.setPhase fun hc => by cases hc
        refine ⟨hset.missed, fun x hmem => ?_⟩
        rcases List.mem_append.mp hmem with hmem | hmem
        · exact h.conflicts x hmem
        · rw [List.mem_singleton.mp hmem, h.missed c _ hx rfl]
          rfl
      · cases hs
        refine ⟨fun c' x' hx' hm => ?_, h.conflicts⟩
        rw [setPhase_submissions] at hx'
        split_ifs at hx' with hc
        · cases hx'
          cases hm
        · show update s.byKey key (some s.replays) x'.key = none
          rw [update_of_ne (ha _ hx c' hc x' hx' hm)]
          exact h.missed c' x' hx' hm
    · cases hs
  | arm c | wakeUp c | push c =>
    simp only [step] at hs
    split at hs
    · cases hs
      exact h.setPhase fun hc => by cases hc
    · cases hs
  | cancel c =>
    simp only [step] at hs
    split at hs
    · cases hs
      exact (h.release _).setPhase fun hc => by cases hc
    · cases hs
    · cases hs
      exact h.setPhase fun hc => by cases hc
    · cases hs
  | unlist c =>
    simp only [step] at hs
    split at hs
    · cases hs
      exact (h.release _).setPhase fun hc => by cases hc
    · cases hs

/-- In such runs a submission that tries to list has no identical job in flight, and none
ever waits for one. -/
theorem identical_never_waits_if_apart (h : (system K P C paths).ReachableIf Apart s) :
    (∀ c x woken, s.submissions c = some x → x.phase = .missed woken → s.byKey x.key = none) ∧
      ∀ x ∈ s.conflicts, x.2 = false := by
  have hun : Unlisted s := by
    refine h.invariant ?_ ?_
    · rintro s rfl
      exact unlisted_initial
    · intro s a s' hs ha hstep
      exact unlisted_step hs ha hstep
  refine ⟨fun c x woken hx hphase => hun.missed c x hx ?_, hun.conflicts⟩
  rw [hphase]
  rfl

/-- The second submission comes after the first is listed. -/
theorem identical_attached_in_order : ∃ s, (system ℕ ℕ (Fin 2) fun key => [key]).ReachableIf Apart s ∧
    (s.submissions 1).map Submission.phase = some (.attached 0) ∧ ∀ x ∈ s.conflicts, x.2 = false := by
  obtain ⟨s, hr, htest⟩ := (system ℕ ℕ (Fin 2) fun key => [key]).exists_reachableIf_of_decide Apart State.initial
    [.submit 0 3, .submit 1 3, .arm 0, .arm 1, .lookUp 0, .list 0, .lookUp 1]
    (fun s => (s.submissions 1).map Submission.phase = some (.attached 0)) rfl (by decide)
  exact ⟨s, hr, htest, (identical_never_waits_if_apart hr).2⟩

/-- Both submissions look their key up before either lists it: the second waits for the job
of the first, and then builds the same again. -/
theorem identical_waits_and_builds_again : ∃ s, (system ℕ ℕ ℕ fun key => [key]).Reachable s ∧
    s.conflicts = [(1, true)] ∧ s.listings = [⟨3, 1⟩] ∧ (s.submissions 1).map Submission.phase = some (.listed 1) := by
  exact (system ℕ ℕ ℕ fun key => [key]).exists_reachable_of_exec State.initial
    [.submit 0 3, .submit 1 3, .arm 0, .arm 1, .lookUp 0, .lookUp 1, .list 0, .list 1, .push 0, .unlist 0, .wakeUp 1,
      .arm 1, .lookUp 1, .list 1] _ rfl (by decide)

end Tribuchet.Hub.Inflight
