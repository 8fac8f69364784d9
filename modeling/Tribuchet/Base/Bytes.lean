import Mathlib.Data.List.TakeDrop
import Mathlib.Data.List.Basic
import Mathlib.Tactic.Ring

/-! Byte strings: little-endian numbers of fixed width, slices, positional writes
and records of one fixed size. -/

namespace Tribuchet.ByteStrings

open List

abbrev Bytes := List UInt8

/-- `to_le_bytes` of a `w`-byte number; higher bytes are dropped. -/
def toLe : ℕ → ℕ → Bytes
  | 0, _ => []
  | w + 1, n => UInt8.ofNat n :: toLe w (n / 256)

/-- `from_le_bytes`. -/
def fromLe : Bytes → ℕ
  | [] => 0
  | b :: bs => b.toNat + 256 * fromLe bs

@[simp] theorem length_toLe (w n : ℕ) : (toLe w n).length = w := by
  induction w generalizing n with
  | zero => rfl
  | succ w ih => simp [toLe, ih]

theorem fromLe_toLe (w n : ℕ) : fromLe (toLe w n) = n % 256 ^ w := by
  induction w generalizing n with
  | zero => simp [toLe, fromLe, Nat.mod_one]
  | succ w ih =>
    have hb : (UInt8.ofNat n).toNat = n % 256 := UInt8.toNat_ofNat'
    rw [toLe, fromLe, ih, hb, pow_succ', Nat.mod_mul]

theorem fromLe_toLe_of_lt {w n : ℕ} (h : n < 256 ^ w) : fromLe (toLe w n) = n := by
  rw [fromLe_toLe, Nat.mod_eq_of_lt h]

theorem fromLe_lt (bs : Bytes) : fromLe bs < 256 ^ bs.length := by
  induction bs with
  | nil => simp [fromLe]
  | cons b bs ih =>
    have hb : b.toNat < 256 := b.toNat_lt
    rw [fromLe, length_cons, pow_succ]
    omega

theorem toLe_fromLe (bs : Bytes) : toLe bs.length (fromLe bs) = bs := by
  induction bs with
  | nil => rfl
  | cons b bs ih =>
    have hb : b.toNat < 256 := b.toNat_lt
    have hmod : UInt8.ofNat (b.toNat + 256 * fromLe bs) = b := by
      apply UInt8.toNat_inj.mp
      rw [UInt8.toNat_ofNat']
      omega
    have hdiv : (b.toNat + 256 * fromLe bs) / 256 = fromLe bs := by omega
    rw [length_cons, fromLe, toLe, hmod, hdiv, ih]

/-! ### Slices and writes -/

/-- `len` bytes from `offset` on, fewer at the end. -/
def slice (bs : Bytes) (offset len : ℕ) : Bytes := (bs.drop offset).take len

/-- `read_exact_at`. -/
def readExact (bs : Bytes) (offset len : ℕ) : Option Bytes :=
  if offset + len ≤ bs.length then some (slice bs offset len) else none

/-- `write_all_at`; a gap past the end is filled with zeros. -/
def writeAt (bs : Bytes) (offset : ℕ) (new : Bytes) : Bytes :=
  bs.take offset ++ replicate (offset - bs.length) 0 ++ new ++ bs.drop (offset + new.length)

/-- `set_len`. -/
def setLen (bs : Bytes) (n : ℕ) : Bytes := bs.take n ++ replicate (n - bs.length) 0

theorem slice_append_left (a b : Bytes) {offset len : ℕ} (h : offset + len ≤ a.length) :
    slice (a ++ b) offset len = slice a offset len := by
  rw [slice, slice, drop_append_of_le_length (by omega),
    take_append_of_le_length (by rw [length_drop]; omega)]

theorem readExact_append {a : Bytes} {offset len : ℕ} {r : Bytes} (h : readExact a offset len = some r)
    (b : Bytes) : readExact (a ++ b) offset len = some r := by
  unfold readExact at h ⊢
  split at h
  · rename_i hle
    rw [if_pos (by rw [length_append]; omega), slice_append_left a b hle]
    exact h
  · cases h

theorem readExact_middle (a b c : Bytes) : readExact (a ++ b ++ c) a.length b.length = some b := by
  rw [readExact, if_pos (by simp), slice]
  simp

theorem writeAt_length (a new b : Bytes) : writeAt (a ++ b) a.length new = a ++ new ++ b.drop new.length := by
  unfold writeAt
  rw [take_left, show a.length - (a ++ b).length = 0 by simp, drop_append]
  simp [show a.length + new.length - a.length = new.length by omega]

theorem setLen_length (a b : Bytes) : setLen (a ++ b) a.length = a := by
  simp [setLen]

/-! ### Fixed-size records -/

/-- `chunks_exact`: a last part shorter than `n` is left out. -/
def chunksExact (n : ℕ) (bs : Bytes) : List Bytes :=
  (range (bs.length / n)).map fun i => slice bs (i * n) n

theorem chunksExact_append {n : ℕ} (hn : 0 < n) {a : Bytes} (ha : a.length = n) (b : Bytes) :
    chunksExact n (a ++ b) = a :: chunksExact n b := by
  have hdiv : (a ++ b).length / n = b.length / n + 1 := by
    rw [length_append, ha, Nat.add_comm, Nat.add_div_right _ hn]
  rw [chunksExact, hdiv, range_succ_eq_map, map_cons, map_map]
  congr 1
  · simp [slice, ← ha]
  · refine map_congr_left fun i _ => ?_
    have hd : (i + 1) * n = n + i * n := by ring
    simp only [Function.comp, Nat.succ_eq_add_one, hd, slice]
    rw [← drop_drop, ← ha, drop_left]

theorem chunksExact_flatten {n : ℕ} (hn : 0 < n) {rs : List Bytes} (h : ∀ r ∈ rs, r.length = n) :
    chunksExact n rs.flatten = rs := by
  induction rs with
  | nil => simp [chunksExact]
  | cons r rs ih =>
    rw [flatten_cons, chunksExact_append hn (h r (by simp)),
      ih fun r' hr => h r' (mem_cons_of_mem r hr)]

end Tribuchet.ByteStrings
