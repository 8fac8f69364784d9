import Mathlib.Order.Lattice
import Mathlib.Data.List.Lex
import Tribuchet.Base.Bytes

/-! The Nix archive format: what the encoding of a file tree is, and a parser that reads it back.
A tree is a regular file, a symlink or a directory whose entries stand in the byte order of their
names. Every string is preceded by its length and padded with zeros to a multiple of eight. The
parser is the format's own and not of the source. -/

namespace Tribuchet.Nar

open ByteStrings List Option

inductive Tree
  | regular (executable : Bool) (contents : Bytes)
  | symlink (target : Bytes)
  | directory (entries : List (Bytes × Tree))

def ascii (s : String) : Bytes := s.toList.map fun c => c.toNat.toUInt8

def key (name : Bytes) : List ℕ := name.map UInt8.toNat

theorem key_injective {a b : Bytes} (h : key a = key b) : a = b :=
  map_injective_iff.mpr (fun _ _ => UInt8.toNat_inj.mp) h

def padding (n : ℕ) : Bytes := replicate ((8 - n % 8) % 8) 0

def str (s : Bytes) : Bytes := toLe 8 s.length ++ s ++ padding s.length

def word (s : String) : Bytes := str (ascii s)

mutual
def Tree.encode : Tree → Bytes
  | .regular executable contents => word "(" ++ word "type" ++ word "regular" ++
      (if executable then word "executable" ++ word "" else []) ++ word "contents" ++ str contents ++ word ")"
  | .symlink target => word "(" ++ word "type" ++ word "symlink" ++ word "target" ++ str target ++ word ")"
  | .directory entries => word "(" ++ word "type" ++ word "directory" ++ encodeEntries entries ++ word ")"
def encodeEntries : List (Bytes × Tree) → Bytes
  | [] => []
  | (name, t) :: entries => word "entry" ++ word "(" ++ word "name" ++ str name ++ word "node" ++ t.encode ++
      word ")" ++ encodeEntries entries
end

def Tree.nar (t : Tree) : Bytes := word "nix-archive-1" ++ t.encode

/-- Entries stand in strictly increasing order of their names, after `last`. -/
def Increasing : List ℕ → List (Bytes × Tree) → Prop
  | _, [] => True
  | last, (name, _) :: entries => last < key name ∧ Increasing (key name) entries

mutual
/-- Lengths fit a `u64` and names are not empty and in order. -/
def Tree.Canonical : Tree → Prop
  | .regular _ contents => contents.length < 2 ^ 64
  | .symlink target => target.length < 2 ^ 64
  | .directory entries => CanonicalEntries entries ∧ Increasing [] entries
def CanonicalEntries : List (Bytes × Tree) → Prop
  | [] => True
  | (name, t) :: entries => name.length < 2 ^ 64 ∧ t.Canonical ∧ CanonicalEntries entries
end

/-! ### The parser -/

def parseStr (bs : Bytes) : Option (Bytes × Bytes) :=
  let n := fromLe (bs.take 8)
  let rest := (bs.drop 8).drop n
  if bs.length < 8 + n ∨ rest.take (padding n).length ≠ padding n then none
  else some ((bs.drop 8).take n, rest.drop (padding n).length)

def expect (s : String) (bs : Bytes) : Option Bytes :=
  (parseStr bs).bind fun r => if r.1 = ascii s then some r.2 else none

/-- What follows `regular`: the executable flag, and what is behind the keyword `contents`. -/
def parseFlag (bs : Bytes) : Option (Bool × Bytes) :=
  (parseStr bs).bind fun r =>
    if r.1 = ascii "executable" then
      (expect "" r.2).bind fun bs => (expect "contents" bs).map fun bs => (true, bs)
    else if r.1 = ascii "contents" then some (false, r.2)
    else none

mutual
def parseNode : ℕ → Bytes → Option (Tree × Bytes)
  | 0, _ => none
  | n + 1, bs => do
    let bs ← expect "(" bs
    let bs ← expect "type" bs
    let (kind, bs) ← parseStr bs
    if kind = ascii "regular" then
      let (executable, bs) ← parseFlag bs
      let (contents, bs) ← parseStr bs
      let bs ← expect ")" bs
      pure (.regular executable contents, bs)
    else if kind = ascii "symlink" then
      let bs ← expect "target" bs
      let (target, bs) ← parseStr bs
      let bs ← expect ")" bs
      pure (.symlink target, bs)
    else if kind = ascii "directory" then
      let (entries, bs) ← parseEntries n [] bs
      pure (.directory entries, bs)
    else none
/-- The entries of a directory and its end, after an entry named `last`. -/
def parseEntries : ℕ → List ℕ → Bytes → Option (List (Bytes × Tree) × Bytes)
  | 0, _, _ => none
  | n + 1, last, bs => do
    let (tag, bs) ← parseStr bs
    if tag = ascii ")" then pure ([], bs)
    else if tag = ascii "entry" then
      let bs ← expect "(" bs
      let bs ← expect "name" bs
      let (name, bs) ← parseStr bs
      if last < key name then
        let bs ← expect "node" bs
        let (t, bs) ← parseNode n bs
        let bs ← expect ")" bs
        let (entries, bs) ← parseEntries n (key name) bs
        pure ((name, t) :: entries, bs)
      else none
    else none
end

def parse (bs : Bytes) : Option Tree := do
  let rest ← expect "nix-archive-1" bs
  let (t, rest) ← parseNode bs.length rest
  if rest = [] then some t else none

/-! ### Reading back -/

theorem length_str (s : Bytes) : 8 ≤ (str s).length := by simp [str]

theorem parseStr_str {s : Bytes} (hs : s.length < 2 ^ 64) (rest : Bytes) : parseStr (str s ++ rest) = some (s, rest) := by
  have hlen : fromLe (toLe 8 s.length) = s.length := fromLe_toLe_of_lt (by simpa using hs)
  have htake : (str s ++ rest).take 8 = toLe 8 s.length := by
    simp only [str, append_assoc]
    exact take_left' (length_toLe 8 _)
  have hdrop : (str s ++ rest).drop 8 = s ++ (padding s.length ++ rest) := by
    simp only [str, append_assoc]
    exact drop_left' (length_toLe 8 _)
  simp only [parseStr, htake, hlen, hdrop]
  rw [if_neg]
  · simp
  · rintro (hlt | hpad)
    · simp only [str, length_append, length_toLe] at hlt
      omega
    · simp at hpad

theorem parseStr_word (s : String) (hs : (ascii s).length < 2 ^ 64) (rest : Bytes) :
    parseStr (word s ++ rest) = some (ascii s, rest) := parseStr_str hs rest

theorem expect_word (s : String) (hs : (ascii s).length < 2 ^ 64) (rest : Bytes) : expect s (word s ++ rest) = some rest := by
  simp [expect, parseStr_word s hs]

theorem parseFlag_eq (executable : Bool) (rest : Bytes) :
    parseFlag ((if executable then word "executable" ++ word "" else []) ++ (word "contents" ++ rest)) =
      some (executable, rest) := by
  cases executable with
  | true =>
    simp only [parseFlag, if_true, append_assoc, parseStr_word "executable" (by decide), bind_some,
      expect_word "" (by decide), expect_word "contents" (by decide), map_some]
  | false =>
    have hne : ascii "contents" ≠ ascii "executable" := by decide
    simp [parseFlag, parseStr_word "contents" (by decide), hne]

mutual
def Tree.weight : Tree → ℕ
  | .regular _ _ => 1
  | .symlink _ => 1
  | .directory entries => 1 + weightEntries entries
def weightEntries : List (Bytes × Tree) → ℕ
  | [] => 1
  | (_, t) :: entries => 1 + t.weight + weightEntries entries
end

mutual
theorem weight_le : ∀ t : Tree, t.weight ≤ t.encode.length
  | .regular _ _ => by
    have hopen := length_str (ascii "(")
    simp only [Tree.weight, Tree.encode, word, length_append]
    omega
  | .symlink _ => by
    have hopen := length_str (ascii "(")
    simp only [Tree.weight, Tree.encode, word, length_append]
    omega
  | .directory entries => by
    have hopen := length_str (ascii "(")
    have ih := weightEntries_le entries
    simp only [Tree.weight, Tree.encode, word, length_append]
    omega
theorem weightEntries_le : ∀ entries : List (Bytes × Tree), weightEntries entries ≤ (encodeEntries entries).length + 1
  | [] => by simp [weightEntries]
  | (name, t) :: entries => by
    have hopen := length_str (ascii "entry")
    have ht := weight_le t
    have ih := weightEntries_le entries
    simp only [weightEntries, encodeEntries, word, length_append]
    omega
end

mutual
theorem parseNode_encode : ∀ (t : Tree) (n : ℕ) (rest : Bytes), t.Canonical → t.weight ≤ n →
    parseNode n (t.encode ++ rest) = some (t, rest)
  | .regular executable contents, 0, _, _, hn => by simp [Tree.weight] at hn
  | .regular executable contents, n + 1, rest, hc, _ => by
    have hc : contents.length < 2 ^ 64 := hc
    simp only [Tree.encode, append_assoc, parseNode, expect_word "(" (by decide), expect_word "type" (by decide),
      parseStr_word "regular" (by decide), bind_eq_bind, bind_some, if_true, parseFlag_eq,
      parseStr_str hc, expect_word ")" (by decide)]
    rfl
  | .symlink target, 0, _, _, hn => by simp [Tree.weight] at hn
  | .symlink target, n + 1, rest, hc, _ => by
    have hc : target.length < 2 ^ 64 := hc
    have hkind : ascii "symlink" ≠ ascii "regular" := by decide
    simp only [Tree.encode, append_assoc, parseNode, expect_word "(" (by decide), expect_word "type" (by decide),
      parseStr_word "symlink" (by decide), bind_eq_bind, bind_some, if_neg hkind, if_true,
      expect_word "target" (by decide), parseStr_str hc, expect_word ")" (by decide)]
    rfl
  | .directory entries, 0, _, _, hn => by simp [Tree.weight] at hn
  | .directory entries, n + 1, rest, hc, hn => by
    have hregular : ascii "directory" ≠ ascii "regular" := by decide
    have hsymlink : ascii "directory" ≠ ascii "symlink" := by decide
    have hn : weightEntries entries ≤ n := by
      simp only [Tree.weight] at hn
      omega
    have ih := parseEntries_encode entries n [] rest hc.1 hc.2 hn
    simp only [Tree.encode, append_assoc, parseNode, expect_word "(" (by decide), expect_word "type" (by decide),
      parseStr_word "directory" (by decide), bind_eq_bind, bind_some, if_neg hregular, if_neg hsymlink,
      if_true, ih]
    rfl
theorem parseEntries_encode : ∀ (entries : List (Bytes × Tree)) (n : ℕ) (last : List ℕ) (rest : Bytes),
    CanonicalEntries entries → Increasing last entries → weightEntries entries ≤ n →
    parseEntries n last (encodeEntries entries ++ (word ")" ++ rest)) = some (entries, rest)
  | [], 0, _, _, _, _, hn => by simp [weightEntries] at hn
  | [], n + 1, last, rest, _, _, _ => by
    simp only [encodeEntries, nil_append, parseEntries, parseStr_word ")" (by decide), bind_eq_bind,
      bind_some, if_true]
    rfl
  | (name, t) :: entries, 0, _, _, _, _, hn => by simp [weightEntries] at hn
  | (name, t) :: entries, n + 1, last, rest, hc, hi, hn => by
    obtain ⟨hname, ht, hentries⟩ := hc
    obtain ⟨hlast, hincreasing⟩ := hi
    simp only [weightEntries] at hn
    have hentry : ascii "entry" ≠ ascii ")" := by decide
    have hnode := fun rest => parseNode_encode t n rest ht (by omega)
    have ih := parseEntries_encode entries n (key name) rest hentries hincreasing (by omega)
    simp only [encodeEntries, append_assoc, parseEntries, parseStr_word "entry" (by decide), bind_eq_bind,
      bind_some, if_neg hentry, if_true, expect_word "(" (by decide), expect_word "name" (by decide),
      parseStr_str hname, if_pos hlast, expect_word "node" (by decide), hnode, expect_word ")" (by decide), ih]
    rfl
end

theorem parse_nar {t : Tree} (h : t.Canonical) : parse t.nar = some t := by
  have hlen : t.weight ≤ t.nar.length := by
    have hw := weight_le t
    simp only [Tree.nar, length_append]
    omega
  have hnode := parseNode_encode t t.nar.length [] h hlen
  rw [append_nil] at hnode
  simp only [parse, Tree.nar, expect_word "nix-archive-1" (by decide), bind_eq_bind, bind_some]
  simp only [Tree.nar] at hnode
  rw [hnode]
  rfl

end Tribuchet.Nar
