import Mathlib.Data.Option.Basic
import Tribuchet.Base.Bytes
import Tribuchet.Base.Table

/-! One directory of a file system. A name refers to an inode; an open file is an
inode and stays readable after its name is gone. Names of distinct files refer to
distinct inodes. Every operation is one atomic step on the directory. -/

namespace Tribuchet.Filesystem

open ByteStrings Table Function Option

variable {N : Type} [DecidableEq N]

structure Directory (N : Type) [DecidableEq N] where
  names : AList fun _ : N => ℕ
  data : ℕ → Bytes
  /-- inodes from here on have never been used -/
  next : ℕ
  used : ∀ n i, names.lookup n = some i → i < next
  distinct : ∀ m n i, names.lookup m = some i → names.lookup n = some i → m = n

namespace Directory

def empty : Directory N := ⟨∅, fun _ => [], 0, by simp, by simp⟩

/-- The inode behind a name. -/
def file (d : Directory N) (n : N) : Option ℕ := d.names.lookup n

/-- The bytes behind a name. -/
def content (d : Directory N) (n : N) : Option Bytes := (d.file n).map d.data

/-- Replace the bytes of an inode. -/
def setData (d : Directory N) (i : ℕ) (bs : Bytes) : Directory N :=
  { d with data := update d.data i bs }

/-- A new empty file under a name, in place of what the name referred to. -/
def allocate (d : Directory N) (n : N) : Directory N where
  names := d.names.insert n d.next
  data := update d.data d.next []
  next := d.next + 1
  used := by
    intro m i h
    rw [lookup_insert_eq] at h
    split_ifs at h
    · cases h
      exact Nat.lt_succ_self _
    · exact Nat.lt_succ_of_lt (d.used m i h)
  distinct := by
    intro m k i hm hk
    rw [lookup_insert_eq] at hm hk
    split_ifs at hm hk with h1 h2 h2
    · rw [h1, h2]
    · cases hm
      exact absurd (d.used k _ hk) (lt_irrefl _)
    · cases hk
      exact absurd (d.used m _ hm) (lt_irrefl _)
    · exact d.distinct m k i hm hk

/-- `OpenOptions::create_new`. -/
def createNew (d : Directory N) (n : N) : Option (ℕ × Directory N) :=
  match d.file n with
  | some _ => none
  | none => some (d.next, d.allocate n)

/-- `File::create`: truncates a file that exists. -/
def create (d : Directory N) (n : N) : ℕ × Directory N :=
  match d.file n with
  | some i => (i, d.setData i [])
  | none => (d.next, d.allocate n)

def write (d : Directory N) (i offset : ℕ) (bs : Bytes) : Directory N :=
  d.setData i (writeAt (d.data i) offset bs)

def truncate (d : Directory N) (i len : ℕ) : Directory N := d.setData i (setLen (d.data i) len)

/-- `fs::remove_file`. -/
def unlink (d : Directory N) (n : N) : Directory N where
  names := d.names.erase n
  data := d.data
  next := d.next
  used := by
    intro m i h
    rw [lookup_erase_eq] at h
    split_ifs at h
    exact d.used m i h
  distinct := by
    intro m k i hm hk
    rw [lookup_erase_eq] at hm hk
    split_ifs at hm hk
    exact d.distinct m k i hm hk

/-- The names after `m` was renamed to `n`; `i` is the inode of `m`. -/
def renamed (d : Directory N) (m n : N) (i : ℕ) (h : d.file m = some i) : Directory N where
  names := (d.names.erase m).insert n i
  data := d.data
  next := d.next
  used := by
    intro k j hj
    rw [lookup_insert_eq] at hj
    split_ifs at hj
    · cases hj
      exact d.used m i h
    · exact (d.unlink m).used k j hj
  distinct := by
    have hm : ∀ k, (d.names.erase m).lookup k ≠ some i := by
      intro k hk
      rw [lookup_erase_eq] at hk
      split_ifs at hk with hkm
      exact hkm (d.distinct k m i hk h)
    intro k l j hk hl
    rw [lookup_insert_eq] at hk hl
    split_ifs at hk hl with h1 h2 h2
    · rw [h1, h2]
    · cases hk
      exact absurd hl (hm l)
    · cases hl
      exact absurd hk (hm k)
    · exact (d.unlink m).distinct k l j hk hl

/-- `fs::rename`. -/
def rename (d : Directory N) (m n : N) : Option (Directory N) :=
  match h : d.file m with
  | none => none
  | some i => some (d.renamed m n i h)

/-! ### What an operation leaves behind a name -/

variable (d : Directory N)

@[simp] theorem file_setData (i : ℕ) (bs : Bytes) (n : N) : (d.setData i bs).file n = d.file n := rfl

theorem file_allocate (n m : N) : (d.allocate n).file m = if m = n then some d.next else d.file m :=
  lookup_insert_eq _ _ _ _

theorem file_unlink (n m : N) : (d.unlink n).file m = if m = n then none else d.file m :=
  lookup_erase_eq _ _ _

theorem file_renamed (m n k : N) (i : ℕ) (h : d.file m = some i) :
    (d.renamed m n i h).file k = if k = n then some i else if k = m then none else d.file k := by
  change ((d.names.erase m).insert n i).lookup k = _
  rw [lookup_insert_eq, lookup_erase_eq]
  rfl

variable {d : Directory N}

theorem file_lt {n : N} {i : ℕ} (h : d.file n = some i) : i < d.next := d.used n i h

theorem file_inj {m n : N} {i : ℕ} (hm : d.file m = some i)
    (hn : d.file n = some i) : m = n := d.distinct m n i hm hn

theorem content_eq_some {n : N} {bs : Bytes} :
    d.content n = some bs ↔ ∃ i, d.file n = some i ∧ d.data i = bs := map_eq_some_iff

theorem content_eq_none {n : N} : d.content n = none ↔ d.file n = none :=
  map_eq_none_iff

theorem content_of_file {n : N} {i : ℕ} (h : d.file n = some i) :
    d.content n = some (d.data i) := by
  rw [content, h, map_some]

theorem content_setData {m : N} {i : ℕ} (h : d.file m = some i) (bs : Bytes) (n : N) :
    (d.setData i bs).content n = if n = m then some bs else d.content n := by
  split_ifs with hn
  · subst hn
    rw [content, file_setData, h]
    simp [setData]
  · rw [content, content, file_setData]
    refine map_congr fun j hj => ?_
    have hji : j ≠ i := by
      rintro rfl
      exact hn (file_inj hj h)
    exact update_of_ne hji _ _

theorem content_allocate (n m : N) : (d.allocate n).content m = if m = n then some [] else d.content m := by
  rw [content, file_allocate]
  split_ifs with h
  · simp [allocate]
  · refine map_congr fun i hi => ?_
    exact update_of_ne (ne_of_lt (file_lt hi)) _ _

theorem content_unlink (n m : N) : (d.unlink n).content m = if m = n then none else d.content m := by
  rw [content, file_unlink]
  split_ifs <;> rfl

theorem content_renamed (m n k : N) (i : ℕ) (h : d.file m = some i) : (d.renamed m n i h).content k =
      if k = n then d.content m else if k = m then none else d.content k := by
  rw [content, file_renamed]
  split_ifs
  · rw [content, h]
    rfl
  · rfl
  · rfl

end Directory

end Tribuchet.Filesystem
