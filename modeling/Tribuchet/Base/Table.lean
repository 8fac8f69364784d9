import Mathlib.Data.List.AList

/-! Association lists as finite maps: look-ups after an update, what erasing a
present key does to the list of entries, and counts over the values that follow
from it. -/

namespace Tribuchet.Table

open List
open AList hiding mem_keys

variable {α β : Type*} [DecidableEq α]

theorem lookup_insert_eq (s : AList fun _ : α => β) (a : α) (b : β) (a' : α) :
    (s.insert a b).lookup a' = if a' = a then some b else s.lookup a' := by
  split_ifs with h
  · subst h
    exact lookup_insert s
  · exact lookup_insert_ne h

theorem lookup_erase_eq (s : AList fun _ : α => β) (a a' : α) :
    (s.erase a).lookup a' = if a' = a then none else s.lookup a' := by
  split_ifs with h
  · subst h
    exact lookup_erase _ _
  · exact lookup_erase_ne h

variable {s : AList fun _ : α => β} {a : α} {b : β}

theorem mem_of_lookup (h : s.lookup a = some b) : a ∈ s := lookup_isSome.mp (by simp [h])

theorem exists_lookup (h : a ∈ s) : ∃ b, s.lookup a = some b := Option.isSome_iff_exists.mp (lookup_isSome.mpr h)

omit [DecidableEq α] in
theorem eq_empty_of_forall_notMem (h : ∀ a, a ∉ s) : s = ∅ := by
  apply ext
  apply eq_nil_iff_forall_not_mem.mpr
  intro e he
  exact h e.1 (mem_map_of_mem he)

omit [DecidableEq α] in
theorem keys_eq_nil : s.keys = [] ↔ s = ∅ := by
  constructor
  · intro h
    refine eq_empty_of_forall_notMem fun a ha => ?_
    have hk := AList.mem_keys.mp ha
    rw [h] at hk
    cases hk
  · rintro rfl
    rfl

/-- A present key's entry, then everything else. -/
theorem entries_perm_of_lookup (h : s.lookup a = some b) : s.entries.Perm (⟨a, b⟩ :: (s.erase a).entries) := by
  have hm : a ∈ s.entries.keys := AList.mem_keys.mp (mem_of_lookup h)
  obtain ⟨b', l₁, l₂, -, h₂, h₃⟩ := exists_of_kerase hm
  have hb : (⟨a, b'⟩ : Sigma fun _ : α => β) ∈ s.entries := by
    rw [h₂]
    simp
  have hb' : b' = b := by
    have := mem_lookup_iff.mpr hb
    rw [h] at this
    exact (Option.some.inj this).symm
  subst hb'
  have he : (s.erase a).entries = l₁ ++ l₂ := h₃
  rw [he, h₂]
  exact perm_middle

/-- The number of entries whose value passes a test. -/
def count (f : β → Bool) (s : AList fun _ : α => β) : ℕ := s.entries.countP fun e => f e.2

omit [DecidableEq α] in
@[simp] theorem count_empty (f : β → Bool) : count f (∅ : AList fun _ : α => β) = 0 := rfl

theorem count_eq_erase_add (h : s.lookup a = some b) (f : β → Bool) : count f s = count f (s.erase a) + (f b).toNat := by
  unfold count
  rw [(entries_perm_of_lookup h).countP_eq, countP_cons]
  cases f b <;> simp

theorem erase_eq_self (h : s.lookup a = none) : s.erase a = s := by
  apply ext
  exact kerase_of_notMem_keys (fun hm => AList.lookup_eq_none.mp h (AList.mem_keys.mpr hm))

theorem count_insert (f : β → Bool) (s : AList fun _ : α => β) (a : α) (b : β) :
    count f (s.insert a b) = count f (s.erase a) + (f b).toNat := by
  have h : (s.insert a b).entries = ⟨a, b⟩ :: (s.erase a).entries := kinsert_def
  unfold count
  rw [h, countP_cons]
  cases f b <;> simp

theorem count_erase_le (f : β → Bool) (s : AList fun _ : α => β) (a : α) : count f (s.erase a) ≤ count f s := by
  cases h : s.lookup a with
  | none => rw [erase_eq_self h]
  | some b =>
    rw [count_eq_erase_add h]
    omega

omit [DecidableEq α] in
/-- Splitting the entries by a test. -/
theorem count_add_count_not (f : β → Bool) (s : AList fun _ : α => β) :
    count f s + count (fun b => !f b) s = s.entries.length := by
  unfold count
  have := s.entries.length_eq_countP_add_countP (fun e => f e.2)
  simp only [this, Bool.not_eq_true]
  congr 1
  apply countP_congr
  simp

end Tribuchet.Table
