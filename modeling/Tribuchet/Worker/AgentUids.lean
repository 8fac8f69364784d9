import Mathlib.Algebra.GroupWithZero.Nat
import Mathlib.Data.Set.Basic

/-! The uids of the agents that a worker spawns (`spawn` in `worker/agent_spawn.rs`). Additions and
products of `u32` wrap, as in a release build. Directories, sockets and processes are left out. -/

namespace Tribuchet.AgentUids

open List UInt32

/-- `UID_BLOCK`. -/
def uidBlock : UInt32 := 65536

inductive Error
  | noAgents
  | needsRoot
  | needsBase

def Error.text : Error → String
  | .noAgents => "spawn-agents must be at least 1"
  | .needsRoot => "agent-uid-base needs a root worker"
  | .needsBase => "spawn-agents needs agent-uid-base on Linux"

structure Slot where
  /-- the uid the agent runs as, `none` for the worker's own -/
  uid : Option UInt32
  uidBase : Option UInt32
deriving DecidableEq

/-- The slot of agent `i`. -/
def slot (base : Option UInt32) (i : UInt32) : Slot := ⟨base.map (· + i - 1), base.map (· + i * uidBlock)⟩

/-- The base that `spawn` goes on with. -/
def baseOf (linux root : Bool) : Option UInt32 → Except Error (Option UInt32)
  | some b => if root then .ok (some b) else if linux then .error .needsRoot else .ok none
  | none => if linux then .error .needsBase else .ok none

def spawn (linux root : Bool) (count : UInt32) (uidBase : Option UInt32) : Except Error (List Slot) := do
  if count = 0 then throw .noAgents
  let base ← baseOf linux root uidBase
  return (range count.toNat).map fun k => slot base (ofNat (k + 1))

/-- The uids that are mapped from `first` on. -/
def block (first : UInt32) : Set ℕ := {u | first.toNat ≤ u ∧ u < first.toNat + uidBlock.toNat}

/-- What keeps builds apart: the numbers are those of exact arithmetic, and no uid serves twice. -/
structure Isolated (base : UInt32) (slots : List Slot) : Prop where
  uids : ∀ i, ∀ h : i < slots.length, ∃ u, slots[i].uid = some u ∧ u.toNat = base.toNat + i
  blocks : ∀ i, ∀ h : i < slots.length, ∃ b, slots[i].uidBase = some b ∧
    b.toNat = base.toNat + (i + 1) * uidBlock.toNat ∧ b.toNat + uidBlock.toNat ≤ 2 ^ 32
  distinct : slots.Pairwise fun s t => s.uid ≠ t.uid
  disjoint : slots.Pairwise fun s t => ∀ a ∈ s.uidBase, ∀ b ∈ t.uidBase, ∀ u ∈ block a, u ∉ block b
  outside : ∀ s ∈ slots, ∀ t ∈ slots, ∀ u ∈ s.uid, ∀ b ∈ t.uidBase, u.toNat ∉ block b
  notRoot : ∀ s ∈ slots, (∀ u ∈ s.uid, u ≠ 0) ∧ ∀ b ∈ s.uidBase, 0 ∉ block b

variable {base count : UInt32} {slots : List Slot} {i j : ℕ}

theorem slots_of_spawn {linux : Bool} (h : spawn linux true count (some base) = .ok slots) :
    count ≠ 0 ∧ slots = (range count.toNat).map fun k => slot (some base) (ofNat (k + 1)) := by
  unfold spawn at h
  by_cases hc : count = 0
  · rw [if_pos hc] at h
    cases h
  · rw [if_neg hc] at h
    cases h
    exact ⟨hc, rfl⟩

theorem toNat_uid (h : base.toNat + i < 2 ^ 32) : (base + UInt32.ofNat (i + 1) - 1).toNat = base.toNat + i := by
  have hone : base + ofNat (i + 1) - 1 = base + ofNat i := by
    rw [UInt32.ofNat_add, ← UInt32.add_assoc]
    exact UInt32.add_sub_cancel _ _
  rw [hone, UInt32.toNat_add, UInt32.toNat_ofNat']
  omega

theorem toNat_first (h : base.toNat + (i + 1) * 65536 < 2 ^ 32) :
    (base + UInt32.ofNat (i + 1) * uidBlock).toNat = base.toNat + (i + 1) * 65536 := by
  rw [UInt32.toNat_add, UInt32.toNat_mul, UInt32.toNat_ofNat']
  change (base.toNat + (i + 1) % 2 ^ 32 * 65536 % 2 ^ 32) % 2 ^ 32 = _
  omega

theorem mem_block (h : base.toNat + (i + 1) * 65536 < 2 ^ 32) {u : ℕ} :
    u ∈ block (base + ofNat (i + 1) * uidBlock) ↔
      base.toNat + (i + 1) * 65536 ≤ u ∧ u < base.toNat + (i + 2) * 65536 := by
  have hb : uidBlock.toNat = 65536 := rfl
  change (_ ≤ u ∧ u < _) ↔ _
  rw [toNat_first h, hb]
  omega

/-- The separation holds exactly when the base is not root's uid and the last block ends within the
32-bit range. -/
theorem agents_isolated_iff {linux : Bool} (h : spawn linux true count (some base) = .ok slots) :
    Isolated base slots ↔ base ≠ 0 ∧ base.toNat + (count.toNat + 1) * 65536 ≤ 2 ^ 32 := by
  obtain ⟨hc, rfl⟩ := slots_of_spawn h
  have hb : uidBlock.toNat = 65536 := rfl
  have hpos : 0 < count.toNat := by
    have := UInt32.toNat_inj.not.mpr hc
    simp only [UInt32.toNat_zero] at this
    omega
  constructor
  · intro hiso
    constructor
    · -- the first agent runs as the base
      rintro rfl
      refine (hiso.notRoot (slot (some 0) (ofNat (0 + 1))) ?_).1 0 rfl rfl
      exact mem_map.mpr ⟨0, mem_range.mpr hpos, rfl⟩
    · obtain ⟨b, -, hfirst, hend⟩ := hiso.blocks (count.toNat - 1) (by simpa using Nat.sub_lt hpos Nat.one_pos)
      rw [hb] at hfirst hend
      omega
  · rintro ⟨hzero, hfit⟩
    have hbase : 0 < base.toNat := by
      have := UInt32.toNat_inj.not.mpr hzero
      simp only [UInt32.toNat_zero] at this
      omega
    refine ⟨fun i hi => ?_, fun i hi => ?_, ?_, ?_, ?_, ?_⟩
    · have hi' : i < count.toNat := by simpa using hi
      rw [getElem_map, getElem_range]
      exact ⟨_, rfl, toNat_uid (by omega)⟩
    · have hi' : i < count.toNat := by simpa using hi
      rw [getElem_map, getElem_range]
      refine ⟨_, rfl, ?_⟩
      rw [toNat_first (by omega), hb]
      omega
    · refine pairwise_map.mpr (pairwise_lt_range.imp_of_mem fun hi hj hij heq => ?_)
      have hi := mem_range.mp hi
      have hj := mem_range.mp hj
      have := congrArg toNat (Option.some.inj heq)
      rw [toNat_uid (by omega), toNat_uid (by omega)] at this
      omega
    · refine pairwise_map.mpr (pairwise_lt_range.imp_of_mem fun hi hj hij => ?_)
      rintro a ⟨⟩ b ⟨⟩ u hu hu'
      have hj := mem_range.mp hj
      rw [mem_block (by omega)] at hu hu'
      omega
    · intro s hs t ht u hu b hb'
      obtain ⟨i, hi, rfl⟩ := mem_map.mp hs
      obtain ⟨j, hj, rfl⟩ := mem_map.mp ht
      cases hu
      cases hb'
      have hi := mem_range.mp hi
      have hj := mem_range.mp hj
      rw [mem_block (by omega), toNat_uid (by omega)]
      omega
    · intro s hs
      obtain ⟨i, hi, rfl⟩ := mem_map.mp hs
      have hi := mem_range.mp hi
      constructor
      · rintro u ⟨⟩ hu
        have := congrArg toNat hu
        rw [toNat_uid (by omega), UInt32.toNat_zero] at this
        omega
      · rintro b ⟨⟩
        rw [mem_block (by omega)]
        omega

theorem agents_isolated_iff_two : ∃ slots, spawn true true 2 (some 100000) = .ok slots ∧ Isolated 100000 slots := by
  have h : spawn true true 2 (some 100000) = .ok _ := rfl
  exact ⟨_, h, (agents_isolated_iff h).mpr (by decide)⟩

/-- With base 0 the first agent is root. -/
theorem root_agent : ∃ slots, spawn true true 1 (some 0) = .ok slots ∧ ¬ Isolated 0 slots :=
  ⟨_, rfl, fun h => (h.notRoot _ (mem_singleton.mpr rfl)).1 _ rfl rfl⟩

end Tribuchet.AgentUids
