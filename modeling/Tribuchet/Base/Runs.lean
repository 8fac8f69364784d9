import Mathlib.Data.Option.Basic

/-! Runs of a labelled transition system. An action carries every choice the
scheduler or the environment makes, so a step is a partial function and a finite
run can be executed. A run may be restricted to steps that meet a condition on
the state before the step; the invariant rule is stated once for such runs. -/

namespace Tribuchet.Runs

open Option

variable {S A : Type*}

/-- Initial states and what an action makes of a state, `none` when it is not
enabled there. -/
structure System (S A : Type*) where
  init : S → Prop
  step : S → A → Option S

namespace System

variable (M : System S A)

/-- The states reached by runs whose every step meets `ok`. -/
inductive ReachableIf (ok : S → A → Prop) : S → Prop
  | init {s : S} : M.init s → ReachableIf ok s
  | step {s s' : S} {a : A} : ReachableIf ok s → ok s a → M.step s a = some s' → ReachableIf ok s'

/-- The states reached by any run. -/
def Reachable : S → Prop := M.ReachableIf fun _ _ => True

variable {M}

theorem Reachable.of_init {s : S} (h : M.init s) : M.Reachable s := ReachableIf.init h

theorem Reachable.next {s s' : S} {a : A} (h : M.Reachable s) (hs : M.step s a = some s') : M.Reachable s' :=
  ReachableIf.step h trivial hs

variable {ok : S → A → Prop}

/-- An invariant may rest on what is known of the states such runs reach. -/
theorem ReachableIf.invariant_with {I : S → Prop} (hinit : ∀ s, M.init s → I s)
    (hstep : ∀ s a s', M.ReachableIf ok s → I s → ok s a → M.step s a = some s' → I s') {s : S}
    (h : M.ReachableIf ok s) : I s := by
  induction h with
  | init hi => exact hinit _ hi
  | step hr ho hs ih => exact hstep _ _ _ hr ih ho hs

/-- The invariant rule: true initially and kept by every allowed step. -/
theorem ReachableIf.invariant {I : S → Prop} (hinit : ∀ s, M.init s → I s)
    (hstep : ∀ s a s', I s → ok s a → M.step s a = some s' → I s') {s : S} (h : M.ReachableIf ok s) : I s :=
  h.invariant_with hinit fun s a s' _ hi ho hs => hstep s a s' hi ho hs

theorem Reachable.invariant {I : S → Prop} (hinit : ∀ s, M.init s → I s)
    (hstep : ∀ s a s', I s → M.step s a = some s' → I s') {s : S} (h : M.Reachable s) : I s :=
  ReachableIf.invariant hinit (fun s a s' hi _ hs => hstep s a s' hi hs) h

variable (M)

/-- Follow a list of actions. -/
def exec : S → List A → Option S
  | s, [] => some s
  | s, a :: as => (M.step s a).bind fun s' => exec s' as

variable {M}

theorem Reachable.exec {s s' : S} {as : List A} (h : M.Reachable s) (he : M.exec s as = some s') :
    M.Reachable s' := by
  induction as generalizing s with
  | nil =>
    cases he
    exact h
  | cons a as ih =>
    simp only [System.exec] at he
    obtain ⟨t, ht, he⟩ := bind_eq_some_iff.mp he
    exact ih (h.next ht) he

variable (M)

/-- A run of `as` that ends in a state where `p` holds. -/
theorem exists_reachable_of_exec (s : S) (as : List A) (p : S → Prop) [DecidablePred p] (hi : M.init s)
    (h : (M.exec s as).any (p ·) = true) : ∃ s', M.Reachable s' ∧ p s' := by
  cases he : M.exec s as with
  | none => simp [he] at h
  | some s' =>
    simp only [he, any_some, decide_eq_true_eq] at h
    exact ⟨s', (Reachable.of_init hi).exec he, h⟩

/-- Follow a list of actions, stopping at the first step that does not meet `ok`. -/
def execIf (ok : S → A → Bool) : S → List A → Option S
  | s, [] => some s
  | s, a :: as => if ok s a then (M.step s a).bind fun s' => execIf ok s' as else none

variable {M}

theorem ReachableIf.exec {test : S → A → Bool}
    (ht : ∀ s a, test s a = true → ok s a) {s s' : S} {as : List A} (h : M.ReachableIf ok s)
    (he : M.execIf test s as = some s') : M.ReachableIf ok s' := by
  induction as generalizing s with
  | nil =>
    cases he
    exact h
  | cons a as ih =>
    simp only [execIf] at he
    split at he
    · rename_i hok
      obtain ⟨t, hs, he⟩ := bind_eq_some_iff.mp he
      exact ih (.step h (ht s a hok) hs) he
    · cases he

variable (M)

/-- A run of `as` whose every step meets `ok`, ending where `p` holds. -/
theorem exists_reachableIf_of_exec (test : S → A → Bool)
    (ht : ∀ s a, test s a = true → ok s a) (s : S) (as : List A) (p : S → Prop) [DecidablePred p] (hi : M.init s)
    (h : (M.execIf test s as).any (p ·) = true) : ∃ s', M.ReachableIf ok s' ∧ p s' := by
  cases he : M.execIf test s as with
  | none => simp [he] at h
  | some s' =>
    simp only [he, any_some, decide_eq_true_eq] at h
    exact ⟨s', (ReachableIf.init hi).exec ht he, h⟩

/-- The same for a condition that is decidable. -/
theorem exists_reachableIf_of_decide (ok : S → A → Prop) [∀ s a, Decidable (ok s a)] (s : S) (as : List A)
    (p : S → Prop) [DecidablePred p] (hi : M.init s)
    (h : (M.execIf (fun s a => decide (ok s a)) s as).any (p ·) = true) : ∃ s', M.ReachableIf ok s' ∧ p s' :=
  M.exists_reachableIf_of_exec (fun s a => decide (ok s a)) (fun _ _ => of_decide_eq_true) s as p hi h

end System

end Tribuchet.Runs
