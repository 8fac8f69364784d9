import Mathlib.Data.Finset.Defs
import Mathlib.Data.Fintype.EquivFin
import Mathlib.Logic.Relation

/-! Finitely many tasks, each of which waits for others, done one after the other. A greedy
schedule always does the most urgent of the tasks that wait for nothing, until there is none. If
no two tasks are equally urgent there is only one such schedule. It does exactly the tasks that do
not wait, directly or through others, for a cycle. -/

namespace Tribuchet.Greedy

open Relation List

variable {α κ : Type*} [LinearOrder κ]

/-- A task that can be done next. -/
def Ready (tasks : Finset α) (waits : α → α → Prop) (done : List α) (a : α) : Prop :=
  a ∈ tasks ∧ a ∉ done ∧ ∀ b, waits a b → b ∈ done

/-- Every task was ready when it was done, and none that was ready was more urgent. -/
def Scheduled (tasks : Finset α) (waits : α → α → Prop) (key : α → κ) (done : List α) : Prop :=
  ∀ l₁ a l₂, done = l₁ ++ a :: l₂ → Ready tasks waits l₁ a ∧ ∀ b, Ready tasks waits l₁ b → key b ≤ key a

/-- A task on a cycle, or that waits for one. -/
def Tangled (waits : α → α → Prop) (a : α) : Prop := ∃ c, ReflTransGen waits a c ∧ TransGen waits c c

variable {tasks : Finset α} {waits : α → α → Prop} {key : α → κ} {done done' : List α} {a b : α}

theorem scheduled_nil : Scheduled tasks waits key [] := by
  intro l₁ a l₂ h
  simp at h

variable (h : Scheduled tasks waits key done)

include h

theorem Scheduled.snoc (ha : Ready tasks waits done a)
    (hmax : ∀ b, Ready tasks waits done b → key b ≤ key a) : Scheduled tasks waits key (done ++ [a]) := by
  intro l₁ b l₂ heq
  rcases eq_nil_or_concat l₂ with rfl | ⟨l, c, rfl⟩
  · obtain ⟨rfl, hb⟩ := append_inj' heq rfl
    cases hb
    exact ⟨ha, hmax⟩
  · have heq' : done ++ [a] = (l₁ ++ b :: l) ++ [c] := by simpa using heq
    exact h l₁ b l (append_inj' heq' rfl).1

theorem Scheduled.mem (ha : a ∈ done) : a ∈ tasks := by
  obtain ⟨l₁, l₂, rfl⟩ := append_of_mem ha
  exact (h l₁ a l₂ rfl).1.1

theorem Scheduled.nodup : done.Nodup := by
  induction done using reverseRecOn with
  | nil => exact nodup_nil
  | append_singleton done a ih =>
    have hdone : Scheduled tasks waits key done := by
      intro l₁ b l₂ heq
      exact h l₁ b (l₂ ++ [a]) (by simp [heq])
    have ha : a ∉ done := (h done a [] rfl).1.2.1
    exact nodup_append.mpr ⟨ih hdone, nodup_singleton a, fun b hb c hc => by
      rw [mem_singleton.mp hc]
      rintro rfl
      exact ha hb⟩

omit h in
/-- Two schedules with one beginning go on with the same tasks. -/
theorem Scheduled.unique_after (hkey : ∀ a ∈ tasks, ∀ b ∈ tasks, key a = key b → a = b) (before : List α) {l l' : List α}
    (h : Scheduled tasks waits key (before ++ l)) (h' : Scheduled tasks waits key (before ++ l'))
    (hend : ∀ a, ¬ Ready tasks waits (before ++ l) a) (hend' : ∀ a, ¬ Ready tasks waits (before ++ l') a) : l = l' := by
  induction l generalizing before l' with
  | nil =>
    cases l' with
    | nil => rfl
    | cons a l' =>
      rw [append_nil] at hend
      exact absurd (h' before a l' rfl).1 (hend a)
  | cons a l ih =>
    cases l' with
    | nil =>
      rw [append_nil] at hend'
      exact absurd (h before a l rfl).1 (hend' a)
    | cons a' l' =>
      obtain ⟨ha, hmax⟩ := h before a l rfl
      obtain ⟨ha', hmax'⟩ := h' before a' l' rfl
      have heq : a = a' := hkey a ha.1 a' ha'.1 (le_antisymm (hmax' a ha) (hmax a' ha'))
      subst heq
      rw [append_cons] at h h' hend hend'
      rw [ih (before ++ [a]) h h' hend hend']

omit h in
theorem Scheduled.unique (hkey : ∀ a ∈ tasks, ∀ b ∈ tasks, key a = key b → a = b)
    (h : Scheduled tasks waits key done) (h' : Scheduled tasks waits key done')
    (hend : ∀ a, ¬ Ready tasks waits done a) (hend' : ∀ a, ¬ Ready tasks waits done' a) : done = done' :=
  Scheduled.unique_after hkey [] h h' hend hend'

/-! ### Cycles -/

theorem Scheduled.before {l₁ l₂ : List α} (hd : done = l₁ ++ a :: l₂)
    (hw : ReflTransGen waits a b) : b = a ∨ b ∈ l₁ := by
  induction hw with
  | refl => exact .inl rfl
  | tail _ hbc ih =>
    rcases ih with rfl | hb
    · exact .inr ((h l₁ _ l₂ hd).1.2.2 _ hbc)
    · obtain ⟨m₁, m₂, rfl⟩ := append_of_mem hb
      have hc := (h m₁ _ (m₂ ++ a :: l₂) (by simp [hd])).1.2.2 _ hbc
      exact .inr (mem_append_left _ hc)

theorem Scheduled.not_tangled (ha : a ∈ done) : ¬ Tangled waits a := by
  rintro ⟨c, hac, hcc⟩
  have hc : c ∈ done := by
    obtain ⟨l₁, l₂, hd⟩ := append_of_mem ha
    rcases h.before hd hac with rfl | hc
    · exact ha
    · rw [hd]
      exact mem_append_left _ hc
  obtain ⟨l₁, l₂, hd⟩ := append_of_mem hc
  obtain ⟨b, hcb, hbc⟩ := TransGen.head'_iff.mp hcc
  obtain ⟨hready, -⟩ := h l₁ c l₂ hd
  -- what `c` waits for is before it, and so is what that waits for
  obtain ⟨m₁, m₂, hm⟩ := append_of_mem (hready.2.2 b hcb)
  have hd' : done = m₁ ++ b :: (m₂ ++ c :: l₂) := by simp [hd, hm]
  apply hready.2.1
  rcases h.before hd' hbc with rfl | hc
  · exact hready.2.2 c hcb
  · rw [hm]
    exact mem_append_left _ hc

omit h

/-- Among finitely many, always waiting for another one leads to a cycle. -/
theorem tangled_of_forall_waits {S : Finset α} (hS : ∀ a ∈ S, ∃ b ∈ S, waits a b) (ha : a ∈ S) : Tangled waits a := by
  choose f hf hw using hS
  let next : S → S := fun x => ⟨f x.1 x.2, hf x.1 x.2⟩
  let walk : ℕ → S := fun n => next^[n] ⟨a, ha⟩
  have hstep : ∀ n, waits (walk n).1 (walk (n + 1)).1 := by
    intro n
    have hn : walk (n + 1) = next (walk n) := Function.iterate_succ_apply' next n _
    rw [hn]
    exact hw _ _
  have hpath : ∀ m n, ReflTransGen waits (walk m).1 (walk (m + n)).1 := by
    intro m n
    induction n with
    | zero => exact .refl
    | succ n ih => exact ih.tail (hstep (m + n))
  obtain ⟨m, n, hlt, heq⟩ : ∃ m n, m < n ∧ walk m = walk n := by
    obtain ⟨m, n, heq, hne⟩ : ∃ m n, walk m = walk n ∧ m ≠ n := by
      simpa [Function.Injective] using not_injective_infinite_finite walk
    rcases Nat.lt_or_gt_of_ne hne with hlt | hlt
    · exact ⟨m, n, hlt, heq⟩
    · exact ⟨n, m, hlt, heq.symm⟩
  refine ⟨(walk m).1, ?_, ?_⟩
  · have h0 := hpath 0 m
    rwa [Nat.zero_add] at h0
  · have hback := hpath (m + 1) (n - (m + 1))
    rw [Nat.add_sub_of_le hlt, ← heq] at hback
    exact TransGen.head' (hstep m) hback

/-- What a schedule leaves when nothing is ready is tangled. -/
theorem tangled_of_not_ready [DecidableEq α] (hclosed : ∀ a ∈ tasks, ∀ b, waits a b → b ∈ tasks)
    (hend : ∀ a, ¬ Ready tasks waits done a) (ha : a ∈ tasks) (hd : a ∉ done) : Tangled waits a := by
  refine tangled_of_forall_waits (S := tasks.filter (· ∉ done)) (fun b hb => ?_)
    (Finset.mem_filter.mpr ⟨ha, hd⟩)
  obtain ⟨hb, hbd⟩ := Finset.mem_filter.mp hb
  by_contra hno
  refine hend b ⟨hb, hbd, fun c hc => ?_⟩
  by_contra hcd
  exact hno ⟨c, Finset.mem_filter.mpr ⟨hclosed b hb c hc, hcd⟩, hc⟩

end Tribuchet.Greedy
