import Mathlib.Data.List.Basic

/-! Items handed to a callback one after another, until it does not ask for more. A stage turns
each item into items for a callback further down and may keep something back. -/

namespace Tribuchet.Feeding

open List

variable {α β σ τ ε : Type}

/-- A callback has a state and answers whether it wants more. -/
abbrev Callback (α σ ε : Type) := α → σ → Except ε Bool × σ

/-- Goes on if the callback wants more. -/
def andThen (r : Except ε Bool × σ) (k : σ → Except ε Bool × σ) : Except ε Bool × σ :=
  match r with
  | (.ok true, s) => k s
  | (.ok false, s) => (.ok false, s)
  | (.error e, s) => (.error e, s)

theorem andThen_assoc (r : Except ε Bool × σ) (k k' : σ → Except ε Bool × σ) :
    andThen (andThen r k) k' = andThen r fun s => andThen (k s) k' := by
  obtain ⟨(e | _ | _), s⟩ := r <;> rfl

/-- Hands out the items in order, up to the first answer that is not `true`. -/
def feed (f : Callback α σ ε) : List α → σ → Except ε Bool × σ
  | [], s => (.ok true, s)
  | a :: l, s => andThen (f a s) fun s' => feed f l s'

theorem feed_append (f : Callback α σ ε) (l l' : List α) (s : σ) :
    feed f (l ++ l') s = andThen (feed f l s) (feed f l') := by
  induction l generalizing s with
  | nil => rfl
  | cons a l ih => simp only [cons_append, feed, ih, andThen_assoc]

theorem feed_singleton (f : Callback α σ ε) (a : α) (s : σ) : feed f [a] s = f a s := by
  unfold feed
  obtain ⟨(e | _ | _), s'⟩ := f a s <;> rfl

variable {f : Callback α σ ε}

/-- All items are handed to a callback that always continues. -/
theorem feed_of_forall {g : σ → α → σ} (h : ∀ a s, f a s = (.ok true, g s a)) (l : List α) (s : σ) :
    feed f l s = (.ok true, l.foldl g s) := by
  induction l generalizing s with
  | nil => rfl
  | cons a l ih => simp only [feed, h, andThen, ih, foldl_cons]

/-- An invariant of the items that were handed out, if the callback keeps it whenever it wants more. -/
theorem feed_invariant {I : List α → σ → Prop} (step : ∀ past a s s', I past s →
    f a s = (.ok true, s') → I (past ++ [a]) s') {past l : List α} {s s' : σ} (h : I past s)
    (hfeed : feed f l s = (.ok true, s')) : I (past ++ l) s' := by
  induction l generalizing past s with
  | nil =>
    cases hfeed
    rw [append_nil]
    exact h
  | cons a l ih =>
    rcases hf : f a s with ⟨e | _ | _, s₁⟩
    · simp [feed, hf, andThen] at hfeed
    · simp [feed, hf, andThen] at hfeed
    · simp only [feed, hf, andThen] at hfeed
      have hrest := ih (step past a s s₁ h hf) hfeed
      rw [append_assoc] at hrest
      exact hrest

/-- The callback is asked about all items if it wants more as long as the invariant holds. -/
theorem feed_complete {I : List α → σ → Prop} {l : List α} (step : ∀ past a rest s,
    l = past ++ a :: rest → I past s → ∃ s', f a s = (.ok true, s') ∧ I (past ++ [a]) s') {s : σ} (h : I [] s) :
    ∃ s', feed f l s = (.ok true, s') ∧ I l s' := by
  suffices hrest : ∀ past rest s, l = past ++ rest → I past s → ∃ s', feed f rest s = (.ok true, s') ∧ I l s' from
    hrest [] l s rfl h
  intro past rest
  induction rest generalizing past with
  | nil =>
    intro s hl h
    rw [append_nil] at hl
    exact ⟨s, rfl, hl ▸ h⟩
  | cons a rest ih =>
    intro s hl h
    obtain ⟨s₁, hf, h₁⟩ := step past a rest s hl h
    obtain ⟨s', hfeed, h'⟩ := ih (past ++ [a]) s₁ (by rw [hl, append_assoc]; rfl) h₁
    refine ⟨s', ?_, h'⟩
    simp only [feed, hf, andThen, hfeed]

/-- A callback that never asks to stop is not left early without an error. -/
theorem feed_ne_false (h : ∀ a s, (f a s).1 ≠ .ok false) (l : List α) (s : σ) : (feed f l s).1 ≠ .ok false := by
  induction l generalizing s with
  | nil =>
    intro heq
    cases heq
  | cons a l ih =>
    have hf := h a s
    rcases hfs : f a s with ⟨e | _ | _, s'⟩
    · simp [feed, hfs, andThen]
    · rw [hfs] at hf
      exact absurd rfl hf
    · simp only [feed, hfs, andThen]
      exact ih s'

/-! ### Records of what a callback was asked -/

/-- The callback with a record of its calls and answers. -/
def logged (f : Callback α σ ε) : Callback α (σ × List (α × Except ε Bool)) ε := fun a s =>
  let (answer, s') := f a s.1
  (answer, s', s.2 ++ [(a, answer)])

/-- The calls while items are handed out: each is answered by `true`, except perhaps the last one,
whose answer is then the result. -/
inductive Calls : List α → Except ε Bool → List (α × Except ε Bool) → Prop
  | done : Calls [] (.ok true) []
  | more {a l answer calls} : Calls l answer calls → Calls (a :: l) answer ((a, .ok true) :: calls)
  | stop {a l answer} : answer ≠ .ok true → Calls (a :: l) answer [(a, answer)]

/-- Keeping a record changes nothing, and the record is one of such calls. -/
theorem feed_logged (f : Callback α σ ε) (l : List α) (s : σ) (past : List (α × Except ε Bool)) :
    ∃ calls, feed (logged f) l (s, past) = ((feed f l s).1, (feed f l s).2, past ++ calls) ∧
      Calls l (feed f l s).1 calls := by
  induction l generalizing s past with
  | nil => exact ⟨[], by simp [feed], .done⟩
  | cons a l ih =>
    rcases hf : f a s with ⟨answer, s'⟩
    have hlog : logged f a (s, past) = (answer, s', past ++ [(a, answer)]) := by simp [logged, hf]
    by_cases ha : answer = .ok true
    · subst ha
      obtain ⟨calls, hfeed, hcalls⟩ := ih s' (past ++ [(a, .ok true)])
      refine ⟨(a, .ok true) :: calls, ?_, ?_⟩
      · simp only [feed, hlog, hf, andThen, hfeed, append_assoc, singleton_append]
      · simp only [feed, hf, andThen]
        exact .more hcalls
    · have hstop {ρ : Type} (r : ρ) (k : ρ → Except ε Bool × ρ) : andThen (answer, r) k = (answer, r) := by
        rcases answer with e | _ | _
        · rfl
        · rfl
        · exact absurd rfl ha
      refine ⟨[(a, answer)], ?_, ?_⟩
      · simp only [feed, hlog, hf, hstop]
      · simp only [feed, hf, hstop]
        exact .stop ha

namespace Calls

variable {l : List α} {answer : Except ε Bool} {calls : List (α × Except ε Bool)}

variable (h : Calls l answer calls)

include h

theorem items : calls.map Prod.fst <+: l := by
  induction h with
  | done => exact prefix_rfl
  | more _ ih => exact (prefix_cons_inj _).mpr ih
  | stop _ => exact (prefix_cons_inj _).mpr nil_prefix

/-- Nothing is asked after an answer that is not `true`. -/
theorem last {early late : List (α × Except ε Bool)} {c : α × Except ε Bool}
    (heq : calls = early ++ c :: late) (hc : c.2 ≠ .ok true) : late = [] := by
  induction h generalizing early with
  | done => simp at heq
  | more _ ih =>
    cases early with
    | nil =>
      obtain ⟨rfl, -⟩ := cons_eq_cons.mp heq
      exact absurd rfl hc
    | cons d early => exact ih (cons_eq_cons.mp heq).2
  | stop _ =>
    cases early with
    | nil => exact (cons_eq_cons.mp heq).2.symm
    | cons d early => simp at heq

theorem result {c : α × Except ε Bool} (hmem : c ∈ calls) (hc : c.2 ≠ .ok true) :
    answer = c.2 := by
  induction h with
  | done => cases hmem
  | more _ ih =>
    rcases mem_cons.mp hmem with rfl | hmem
    · exact absurd rfl hc
    · exact ih hmem
  | stop _ => rw [mem_singleton.mp hmem]

/-- Either all items were accepted, or the callback did not want more. -/
theorem complete : (answer = .ok true ∧ calls = l.map fun a => (a, .ok true)) ∨
      answer ≠ .ok true ∧ ∃ c ∈ calls, c.2 = answer := by
  induction h with
  | done => exact .inl ⟨rfl, rfl⟩
  | more _ ih =>
    rcases ih with ⟨ha, rfl⟩ | ⟨ha, c, hc, hr⟩
    · exact .inl ⟨ha, rfl⟩
    · exact .inr ⟨ha, c, mem_cons_of_mem _ hc, hr⟩
  | stop ha => exact .inr ⟨ha, _, mem_singleton_self _, rfl⟩

omit h

end Calls

/-! ### Stages -/

/-- What a stage hands on for an item, and what it keeps. -/
structure Stage (α β τ : Type) where
  out : τ → α → List β
  next : τ → α → τ

namespace Stage

variable (p : Stage α β τ)

def outs : τ → List α → List β
  | _, [] => []
  | t, a :: l => p.out t a ++ outs (p.next t a) l

def after (t : τ) (l : List α) : τ := l.foldl p.next t

theorem outs_append (t : τ) (l l' : List α) : p.outs t (l ++ l') = p.outs t l ++ p.outs (p.after t l) l' := by
  induction l generalizing t with
  | nil => rfl
  | cons a l ih => rw [cons_append, outs, ih, outs, append_assoc]; rfl

theorem after_append (t : τ) (l l' : List α) : p.after t (l ++ l') = p.after (p.after t l) l' := foldl_append

end Stage

end Tribuchet.Feeding
