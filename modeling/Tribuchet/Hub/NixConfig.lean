import Mathlib.Algebra.BigOperators.Group.List.Basic
import Mathlib.Data.List.Chain
import Mathlib.Data.List.Dedup
import Mathlib.Data.List.Sort
import Mathlib.Data.List.TakeWhile
import Mathlib.Order.Lattice
import Mathlib.Tactic.Ring

/-! The `max-jobs` that a hub writes to its nix.conf fragment (`render_nix_config` in `hub/state.rs`).
Arithmetic on `u64` wraps, as in a release build. -/

namespace Tribuchet.NixConf

abbrev Text := List Char

/-- Of a registered worker: the keys of its `systems` map and its capacity. -/
structure WorkerCaps where
  systems : List Text
  maxJobs : UInt32

structure NixConfig where
  /-- `attach_program.to_string_lossy()` -/
  attachProgram : Text
  oversubscribePercent : UInt32
  maxJobsCap : UInt32

/-! ### max-jobs -/

/-- `Ord::clamp` panics when its bounds are the wrong way round. -/
inductive Panic
  | clamp
deriving DecidableEq

def clamp (x lo hi : UInt64) : Except Panic UInt64 :=
  if hi < lo then .error .clamp else .ok (if x < lo then lo else if hi < x then hi else x)

/-- The capacity as `u64`. -/
def capacity (caps : List WorkerCaps) : UInt64 := caps.foldl (fun sum c => sum + c.maxJobs.toUInt64) 0

def maxJobs (caps : List WorkerCaps) (cfg : NixConfig) : Except Panic (Option UInt64) :=
  if 0 < capacity caps then
    (clamp (capacity caps * cfg.oversubscribePercent.toUInt64 / 100) 1 cfg.maxJobsCap.toUInt64).map some
  else .ok none

def total (caps : List WorkerCaps) : ℕ := (caps.map fun c => c.maxJobs.toNat).sum

theorem toNat_foldl (caps : List WorkerCaps) (sum : UInt64) (h : sum.toNat + total caps < 2 ^ 64) :
    (caps.foldl (fun sum c => sum + c.maxJobs.toUInt64) sum).toNat = sum.toNat + total caps := by
  induction caps generalizing sum with
  | nil => simp [total]
  | cons c caps ih =>
    have ht : total (c :: caps) = c.maxJobs.toNat + total caps := by simp [total]
    have hadd : (sum + c.maxJobs.toUInt64).toNat = sum.toNat + c.maxJobs.toNat := by
      rw [UInt64.toNat_add, UInt32.toNat_toUInt64]
      omega
    rw [List.foldl_cons, ih _ (by omega), hadd, ht]
    omega

theorem toNat_capacity {caps : List WorkerCaps} (h : total caps < 2 ^ 64) : (capacity caps).toNat = total caps := by
  have := toNat_foldl caps 0 (by simpa using h)
  simpa [capacity] using this

structure Fits (caps : List WorkerCaps) (cfg : NixConfig) : Prop where
  sum : total caps < 2 ^ 64
  scaled : total caps * cfg.oversubscribePercent.toNat < 2 ^ 64
  cap : cfg.maxJobsCap ≠ 0

theorem maxJobs_eq {caps : List WorkerCaps} {cfg : NixConfig} (h : Fits caps cfg) (hpos : 0 < total caps) :
    ∃ jobs, maxJobs caps cfg = .ok (some jobs) ∧
      jobs.toNat = max 1 (min cfg.maxJobsCap.toNat (total caps * cfg.oversubscribePercent.toNat / 100)) := by
  have hcap : 1 ≤ cfg.maxJobsCap.toNat := by
    have := UInt32.toNat_inj.not.mpr h.cap
    simp only [UInt32.toNat_zero] at this
    omega
  have hscaled : (capacity caps * cfg.oversubscribePercent.toUInt64 / 100).toNat =
      total caps * cfg.oversubscribePercent.toNat / 100 := by
    rw [UInt64.toNat_div, UInt64.toNat_mul, toNat_capacity h.sum, UInt32.toNat_toUInt64, Nat.mod_eq_of_lt h.scaled]
    rfl
  have hc : (cfg.maxJobsCap.toUInt64).toNat = cfg.maxJobsCap.toNat := UInt32.toNat_toUInt64 _
  have hone : (1 : UInt64).toNat = 1 := rfl
  unfold maxJobs clamp
  rw [if_pos (by rw [UInt64.lt_iff_toNat_lt, toNat_capacity h.sum]; exact hpos),
    if_neg (by rw [UInt64.lt_iff_toNat_lt, hc, hone]; omega)]
  refine ⟨_, rfl, ?_⟩
  simp only [UInt64.lt_iff_toNat_lt, hscaled, hc, hone]
  split_ifs <;> omega

end Tribuchet.NixConf
