import Mathlib.Algebra.GroupWithZero.Nat
import Mathlib.Data.List.SplitLengths

/-! Cutting a sequence into chunks, at fixed distances or where a cutter says. A cutter chooses the
cuts by the content. It is stable if a cut depends only on what follows it, up to the greatest
length of a chunk; then a sequence can be cut while it arrives, window by window, and the chunks
are those of the whole. -/

namespace Tribuchet.Cutting

open List

variable {α : Type} {l : List α} {n : ℕ}

/-- Chunks of `n` elements; the last one may be shorter. -/
def chunksOf (n : ℕ) (l : List α) : List (List α) :=
  if _h : n = 0 ∨ l = [] then [] else l.take n :: chunksOf n (l.drop n)
termination_by l.length
decreasing_by
  obtain ⟨hn, hl⟩ := not_or.mp _h
  have := length_pos_iff.mpr hl
  rw [length_drop]
  omega

theorem chunksOf_nil (n : ℕ) : chunksOf n ([] : List α) = [] := by
  rw [chunksOf, dif_pos (.inr rfl)]

theorem chunksOf_of_ne_nil (hn : 0 < n) (hl : l ≠ []) : chunksOf n l = l.take n :: chunksOf n (l.drop n) := by
  rw [chunksOf, dif_neg]
  rintro (rfl | h)
  · exact lt_irrefl 0 hn
  · exact hl h

theorem flatten_chunksOf (hn : 0 < n) (l : List α) : (chunksOf n l).flatten = l := by
  induction hk : l.length using Nat.strong_induction_on generalizing l with
  | _ k ih =>
    by_cases hl : l = []
    · rw [hl, chunksOf_nil]
      rfl
    · have hpos := length_pos_iff.mpr hl
      have hdrop := ih (l.drop n).length (by rw [length_drop]; omega) (l.drop n) rfl
      rw [chunksOf_of_ne_nil hn hl, flatten_cons, hdrop, take_append_drop]

theorem mem_chunksOf {c : List α} (hc : c ∈ chunksOf n l) : c ≠ [] ∧ c.length ≤ n := by
  induction hk : l.length using Nat.strong_induction_on generalizing l with
  | _ k ih =>
    rw [chunksOf] at hc
    split_ifs at hc with h
    · cases hc
    · obtain ⟨hn, hl⟩ := not_or.mp h
      have hpos := length_pos_iff.mpr hl
      rcases mem_cons.mp hc with rfl | hc
      · refine ⟨fun hnil => ?_, by rw [length_take]; omega⟩
        rcases take_eq_nil_iff.mp hnil with h0 | h0
        · exact hn h0
        · exact hl h0
      · exact ih (l.drop n).length (by rw [length_drop]; omega) hc rfl

/-- Cuts tile the sequence with chunks that are not empty and not longer than `max`. -/
structure Cutter (α : Type) (max : ℕ) where
  cuts : List α → List ℕ
  tiles : ∀ l, (cuts l).sum = l.length
  bounds : ∀ l, ∀ n ∈ cuts l, 0 < n ∧ n ≤ max

namespace Cutter

variable {max : ℕ} (cdc : Cutter α max)

def split (l : List α) : List (List α) := (cdc.cuts l).splitLengths l

/-- The length of the first chunk. -/
def first (l : List α) : ℕ := (cdc.cuts l).head?.getD l.length

theorem flatten_split (l : List α) : (cdc.split l).flatten = l :=
  flatten_splitLengths l _ (cdc.tiles l).ge

theorem mem_split {c : List α} (hc : c ∈ cdc.split l) : c ≠ [] ∧ c.length ≤ max := by
  have hmem : c.length ∈ (cdc.split l).map length := mem_map_of_mem hc
  rw [split, map_splitLengths_length l _ (cdc.tiles l).le] at hmem
  obtain ⟨hpos, hmax⟩ := cdc.bounds l _ hmem
  exact ⟨length_pos_iff.mp hpos, hmax⟩

theorem first_bounds (hl : l ≠ []) : 0 < cdc.first l ∧ cdc.first l ≤ max ∧ cdc.first l ≤ l.length := by
  have hpos := length_pos_iff.mpr hl
  have htiles := cdc.tiles l
  have hbounds := cdc.bounds l
  unfold first
  cases hcuts : cdc.cuts l with
  | nil =>
    rw [hcuts, sum_nil] at htiles
    omega
  | cons n ns =>
    rw [hcuts, sum_cons] at htiles
    obtain ⟨hn, hmax⟩ := hbounds n (by simp [hcuts])
    exact ⟨hn, hmax, by simp only [head?_cons, Option.getD_some]; omega⟩

/-- The chunks that are final while at least `max` elements are there, and what is left. -/
def windows (l : List α) : List (List α) × List α :=
  if _h : l ≠ [] ∧ max ≤ l.length then
    let (chunks, rest) := windows (l.drop (cdc.first l))
    (l.take (cdc.first l) :: chunks, rest)
  else ([], l)
termination_by l.length
decreasing_by
  have hpos := length_pos_iff.mpr _h.1
  have hfirst := (cdc.first_bounds _h.1).1
  rw [length_drop]
  omega

theorem windows_of_le (hl : l ≠ []) (h : max ≤ l.length) : cdc.windows l =
    (l.take (cdc.first l) :: (cdc.windows (l.drop (cdc.first l))).1, (cdc.windows (l.drop (cdc.first l))).2) := by
  rw [windows, dif_pos ⟨hl, h⟩]

theorem windows_of_not (h : ¬(l ≠ [] ∧ max ≤ l.length)) : cdc.windows l = ([], l) := by
  rw [windows, dif_neg h]

/-- Induction along the windows. -/
theorem windows_induction {P : List α → Prop} (l : List α)
    (cut : ∀ l, l ≠ [] → max ≤ l.length → P (l.drop (cdc.first l)) → P l)
    (rest : ∀ l, ¬(l ≠ [] ∧ max ≤ l.length) → P l) : P l := by
  induction hk : l.length using Nat.strong_induction_on generalizing l with
  | _ k ih =>
    by_cases h : l ≠ [] ∧ max ≤ l.length
    · have hpos := length_pos_iff.mpr h.1
      have hfirst := (cdc.first_bounds h.1).1
      exact cut l h.1 h.2 (ih (l.drop (cdc.first l)).length (by rw [length_drop]; omega) _ rfl)
    · exact rest l h

theorem windows_append (l : List α) : (cdc.windows l).1.flatten ++ (cdc.windows l).2 = l := by
  induction l using cdc.windows_induction with
  | cut l hl h ih => rw [windows_of_le cdc hl h, flatten_cons, append_assoc, ih, take_append_drop]
  | rest l h => rw [windows_of_not cdc h]; rfl

theorem mem_windows {c : List α} (hc : c ∈ (cdc.windows l).1) : c ≠ [] ∧ c.length ≤ max := by
  induction l using cdc.windows_induction with
  | cut l hl h ih =>
    rw [windows_of_le cdc hl h] at hc
    obtain ⟨hpos, hmax, hlen⟩ := cdc.first_bounds hl
    rcases mem_cons.mp hc with rfl | hc
    · refine ⟨fun hnil => ?_, by rw [length_take]; omega⟩
      rcases take_eq_nil_iff.mp hnil with h0 | h0
      · omega
      · exact hl h0
    · exact ih hc
  | rest l h =>
    rw [windows_of_not cdc h] at hc
    cases hc

/-- A cut depends on the elements behind the one before, and on no more than `max` of them. -/
structure Stable : Prop where
  rest : ∀ l, l ≠ [] → cdc.cuts l = cdc.first l :: cdc.cuts (l.drop (cdc.first l))
  window : ∀ l, max ≤ l.length → cdc.first l = cdc.first (l.take max)

variable {cdc}

theorem Stable.split_cons (h : cdc.Stable) (hl : l ≠ []) :
    cdc.split l = l.take (cdc.first l) :: cdc.split (l.drop (cdc.first l)) := by
  rw [split, h.rest l hl, splitLengths_cons]
  rfl

theorem Stable.first_append (h : cdc.Stable) (hl : max ≤ l.length) (more : List α) :
    cdc.first (l ++ more) = cdc.first l := by
  rw [h.window (l ++ more) (by rw [length_append]; omega), h.window l hl, take_append_of_le_length hl]

/-- Whatever follows, the chunks of the windows are the first chunks of the whole. -/
theorem Stable.split_append (h : cdc.Stable) (l more : List α) :
    cdc.split (l ++ more) = (cdc.windows l).1 ++ cdc.split ((cdc.windows l).2 ++ more) := by
  induction l using cdc.windows_induction with
  | cut l hl hmax ih =>
    have hlen := (cdc.first_bounds hl).2.2
    rw [windows_of_le cdc hl hmax, cons_append, ← ih, h.split_cons (by simp [hl]), h.first_append hmax,
      take_append_of_le_length hlen, drop_append_of_le_length hlen]
  | rest l hl => rw [windows_of_not cdc hl, nil_append]

end Cutter

end Tribuchet.Cutting
