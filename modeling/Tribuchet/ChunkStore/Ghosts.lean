import Mathlib.Data.Finset.Lattice.Lemmas
import Tribuchet.ChunkStore.Runs

/-! The memory of recent evictions. Only `ghost_push`, `ghost_remove` and `trim_ghost` touch the queue and
the set of ghosts, so a run of the store is a sequence of these with other changes in between. -/

namespace Tribuchet.ChunkStore.Ghosts

open ByteStrings Runs List Store

structure State where
  store : Store
  /-- the keys that were pushed, the oldest first -/
  pushed : List ℕ

inductive Action
  | push (hash : Hash)
  | remove (hash : Hash)
  | trim
  | other (store : Store)

def next (s : State) : Action → State
  | .push hash => ⟨s.store.ghostPush hash, s.pushed ++ [ghostKey hash]⟩
  | .remove hash => ⟨(s.store.ghostRemove hash).2, s.pushed⟩
  | .trim => ⟨s.store.trimGhost, s.pushed⟩
  | .other store => ⟨{ store with ghost := s.store.ghost, ghostSet := s.store.ghostSet }, s.pushed⟩

def system : System State Action where
  init s := ∃ budget, s = ⟨initial budget, []⟩
  step s a := some (next s a)

/-- No key is pushed while the queue has an entry of it, not even one that a removal left behind. -/
def Unqueued (s : State) : Action → Prop
  | .push hash => ghostKey hash ∉ s.store.ghost
  | _ => True

/-- After its latest push at least as many other keys were pushed as the memory holds. -/
def Outlived (s : State) (k : ℕ) : Prop :=
  ∃ older newer, s.pushed = older ++ k :: newer ∧ k ∉ newer ∧ newer.Nodup ∧
    max s.store.map.keys.length 1024 ≤ newer.length

variable {s : State} {a : Action} {k : ℕ}

theorem subset_next (h : s.store.ghostSet ⊆ s.store.ghost.toFinset) (a : Action) :
    (next s a).store.ghostSet ⊆ (next s a).store.ghost.toFinset := by
  cases a with
  | push hash =>
    simp only [next, ghostPush]
    split_ifs
    · exact h
    · rw [toFinset_append, Finset.insert_eq, Finset.union_comm]
      exact Finset.union_subset_union h (by simp)
  | remove hash => exact (Finset.erase_subset ..).trans h
  | trim =>
    rw [← take_append_drop (s.store.ghost.length - max s.store.map.keys.length 1024) s.store.ghost,
      toFinset_append] at h
    exact sdiff_le_iff.mpr h
  | other store => exact h

/-- The queue holds the latest pushes, each key once. -/
structure Recent (s : State) : Prop where
  subset : s.store.ghostSet ⊆ s.store.ghost.toFinset
  suffix : s.store.ghost <:+ s.pushed
  nodup : s.store.ghost.Nodup

theorem recent_next (h : Recent s) (ha : Unqueued s a) : Recent (next s a) := by
  have hsub := subset_next h.subset a
  cases a with
  | push hash =>
    have hnew : ghostKey hash ∉ s.store.ghostSet := fun hk => ha (List.mem_toFinset.mp (h.subset hk))
    obtain ⟨past, hpast⟩ := h.suffix
    simp only [next, ghostPush, if_neg hnew] at hsub ⊢
    refine ⟨hsub, ⟨past, by rw [← append_assoc, hpast]⟩, ?_⟩
    exact h.nodup.append (nodup_singleton _) (disjoint_singleton.mpr ha)
  | trim => exact ⟨hsub, (drop_suffix ..).trans h.suffix, h.nodup.sublist (drop_sublist ..)⟩
  | remove | other => exact ⟨hsub, h.suffix, h.nodup⟩

theorem Recent.trimmed (h : Recent s) (hk : k ∈ s.store.ghostSet) (hk' : k ∉ s.store.trimGhost.ghostSet) :
    Outlived s k := by
  have hmem : k ∈ s.store.ghost.take (s.store.ghost.length - max s.store.map.keys.length 1024) := by
    simpa [trimGhost, hk] using hk'
  obtain ⟨i, hi, rfl⟩ := mem_take_iff_getElem.mp hmem
  obtain ⟨past, hpast⟩ := h.suffix
  have hsplit := take_append_drop i s.store.ghost
  rw [drop_eq_getElem_cons (by omega)] at hsplit
  have hnodup := h.nodup
  rw [← hsplit] at hnodup
  obtain ⟨hnot, hnodup⟩ := nodup_cons.mp (nodup_append.mp hnodup).2.1
  refine ⟨past ++ s.store.ghost.take i, s.store.ghost.drop (i + 1), ?_, hnot, hnodup, ?_⟩
  · rw [append_assoc, hsplit, hpast]
  · rw [length_drop]
    omega

def hashOf (key : ℕ) : Hash := .ofSlice (toLe 8 key)

theorem ghostKey_hashOf (hk : k < 256 ^ 8) : ghostKey (hashOf k) = k := by
  simp [ghostKey, hashOf, Hash.ofSlice, take_take, fromLe_toLe_of_lt hk]

/-- A chunk was evicted and admitted again, and then `n` others were evicted. -/
theorem exists_stale {n : ℕ} (hn : n < 256 ^ 8) : ∃ t, system.Reachable t ∧ t.store.ghost = 0 :: range' 1 n ∧
    (∀ k ∈ t.store.ghostSet, 0 < k ∧ k ≤ n) ∧ t.store.map = ∅ ∧ t.pushed = 0 :: range' 1 n := by
  induction n with
  | zero =>
    refine ⟨next (next ⟨initial 0, []⟩ (.push (hashOf 0))) (.remove (hashOf 0)), ?_, by decide, by decide, rfl,
      by decide⟩
    exact System.Reachable.next (.next (.of_init ⟨0, rfl⟩) rfl) rfl
  | succ n ih =>
    obtain ⟨t, ht, hghost, hset, hmap, hpushed⟩ := ih (by omega)
    have hnot : n + 1 ∉ t.store.ghostSet := fun hm => absurd (hset _ hm).2 (by omega)
    refine ⟨_, ht.next (a := .push (hashOf (n + 1))) rfl, ?_⟩
    rw [range'_1_concat, Nat.add_comm 1 n]
    simp only [next, ghostPush, ghostKey_hashOf hn, if_neg hnot, hghost, hpushed, Finset.mem_insert]
    refine ⟨rfl, ?_, hmap, rfl⟩
    rintro k (rfl | hk)
    · omega
    · have := hset k hk
      omega

end Tribuchet.ChunkStore.Ghosts
