import Mathlib.Algebra.BigOperators.Group.List.Basic
import Tribuchet.Outputs.Frames

/-! A recipe on the wire: `recipe` in `worker/resume/delivery.rs` writes it as one byte string of
hashes and a list of `u64` sizes, `parse_recipe` in `chunker.rs` reads what a peer sent. An addition
that overflows panics in a build with overflow checks and wraps in any other. -/

namespace Tribuchet.Recipes

open ByteStrings Cutting Nar Outputs List

inductive Error
  | malformed
  | oversized
  | overflow
deriving DecidableEq

/-- The entries behind `total` bytes. -/
def parseEntries (checked : Bool) : UInt64 → List (Bytes × UInt64) → Except Error (List (Bytes × ℕ))
  | _, [] => .ok []
  | total, (hash, size) :: rest =>
    if checked = true ∧ 2 ^ 64 ≤ total.toNat + size.toNat then .error .overflow
    else if maxChunkBytes < size.toNat ∨ maxNarBytes < (total + size).toNat then .error .oversized
    else (parseEntries checked (total + size) rest).map ((hash, size.toNat) :: ·)

def parseRecipe (checked : Bool) (hashes : Bytes) (sizes : List UInt64) : Except Error (List (Bytes × ℕ)) :=
  if hashes.length % 32 ≠ 0 ∨ hashes.length / 32 ≠ sizes.length then .error .malformed
  else parseEntries checked 0 ((chunksExact 32 hashes).zip sizes)

abbrev Hash := {b : Bytes // b.length = 32}

/-- `recipe`. -/
def recipe (chunks : List (OutChunk Hash)) : Bytes × List UInt64 :=
  (chunks.flatMap fun c => c.hash.val, chunks.map fun c => UInt64.ofNat c.size)

def sizeSum (es : List (Bytes × UInt64)) : ℕ := (es.map fun e => e.2.toNat).sum

theorem parseEntries_iff {checked : Bool} {total : UInt64} {es : List (Bytes × UInt64)} {r : List (Bytes × ℕ)}
    (h : total.toNat ≤ maxNarBytes) : parseEntries checked total es = .ok r ↔
      (∀ e ∈ es, e.2.toNat ≤ maxChunkBytes) ∧ total.toNat + sizeSum es ≤ maxNarBytes ∧
        r = es.map fun e => (e.1, e.2.toNat) := by
  have hroom : maxNarBytes + maxChunkBytes < 2 ^ 64 := by decide
  induction es generalizing total r with
  | nil =>
    simp only [parseEntries, sizeSum, map_nil, sum_nil, Except.ok.injEq]
    constructor
    · rintro rfl
      exact ⟨fun e he => absurd he not_mem_nil, by omega, rfl⟩
    · rintro ⟨-, -, rfl⟩
      rfl
  | cons e es ih =>
    obtain ⟨hash, size⟩ := e
    have hsum : sizeSum ((hash, size) :: es) = size.toNat + sizeSum es := by simp [sizeSum]
    rw [parseEntries, hsum, forall_mem_cons, map_cons]
    by_cases hsize : size.toNat ≤ maxChunkBytes
    · -- then the sum is exact
      have hadd : (total + size).toNat = total.toNat + size.toNat := by
        rw [UInt64.toNat_add]
        omega
      rw [if_neg (by omega), hadd]
      by_cases htotal : total.toNat + size.toNat ≤ maxNarBytes
      · rw [if_neg (by omega)]
        constructor
        · intro hr
          cases hrest : parseEntries checked (total + size) es with
          | error err =>
            rw [hrest] at hr
            cases hr
          | ok rest =>
            rw [hrest] at hr
            obtain ⟨hsmall, hle, rfl⟩ := (ih (by omega)).mp hrest
            cases hr
            exact ⟨⟨hsize, hsmall⟩, by omega, rfl⟩
        · rintro ⟨⟨-, hsmall⟩, hle, rfl⟩
          rw [(ih (by omega)).mpr ⟨hsmall, by omega, rfl⟩]
          rfl
      · rw [if_pos (.inr (by omega))]
        constructor
        · intro hr
          cases hr
        · rintro ⟨-, hle, -⟩
          omega
    · constructor
      · intro hr
        split_ifs at hr with _ hbad
        exact absurd (lt_of_not_ge hsize) fun hlt => hbad (.inl hlt)
      · rintro ⟨⟨hle, -⟩, -⟩
        exact absurd hle hsize

theorem parseEntries_no_overflow {checked : Bool} {total : UInt64} {es : List (Bytes × UInt64)}
    (h : total.toNat ≤ maxNarBytes) (hes : ∀ e ∈ es, maxNarBytes + e.2.toNat < 2 ^ 64) :
    parseEntries checked total es ≠ .error .overflow := by
  induction es generalizing total with
  | nil => exact nofun
  | cons e es ih =>
    obtain ⟨hash, size⟩ := e
    have hsize := hes _ mem_cons_self
    rw [parseEntries, if_neg (by dsimp only at hsize; omega)]
    split_ifs with hbad
    · exact nofun
    · intro hr
      cases hrest : parseEntries checked (total + size) es with
      | error err =>
        rw [hrest] at hr
        cases hr
        exact ih (by omega) (fun e he => hes e (mem_cons_of_mem _ he)) hrest
      | ok rest =>
        rw [hrest] at hr
        cases hr

structure Accepted (hashes : Bytes) (sizes : List UInt64) : Prop where
  length : hashes.length = 32 * sizes.length
  chunks : ∀ s ∈ sizes, s.toNat ≤ maxChunkBytes
  total : (sizes.map UInt64.toNat).sum ≤ maxNarBytes

theorem parseRecipe_iff (checked : Bool) (hashes : Bytes) (sizes : List UInt64) (r : List (Bytes × ℕ)) :
    parseRecipe checked hashes sizes = .ok r ↔
      Accepted hashes sizes ∧ r = (chunksExact 32 hashes).zip (sizes.map UInt64.toNat) := by
  unfold parseRecipe
  by_cases hlen : hashes.length = 32 * sizes.length
  · have hcount : (chunksExact 32 hashes).length = sizes.length := by
      rw [chunksExact, length_map, length_range, hlen]
      omega
    have hsnd : ((chunksExact 32 hashes).zip sizes).map Prod.snd = sizes := map_snd_zip (by omega)
    have hsum : sizeSum ((chunksExact 32 hashes).zip sizes) = (sizes.map UInt64.toNat).sum := by
      have := congrArg (fun l => (l.map UInt64.toNat).sum) hsnd
      rwa [map_map] at this
    rw [if_neg (by omega), parseEntries_iff (by decide), hsum]
    have hall : (∀ e ∈ (chunksExact 32 hashes).zip sizes, e.2.toNat ≤ maxChunkBytes) ↔
        ∀ s ∈ sizes, s.toNat ≤ maxChunkBytes := by
      rw [← forall_mem_map (f := Prod.snd) (P := fun s : UInt64 => s.toNat ≤ maxChunkBytes), hsnd]
    have hzip : ((chunksExact 32 hashes).zip sizes).map (fun e => (e.1, e.2.toNat)) =
        (chunksExact 32 hashes).zip (sizes.map UInt64.toNat) := by
      rw [zip_map_right]
      rfl
    rw [hall, hzip]
    constructor
    · rintro ⟨hchunks, htotal, rfl⟩
      exact ⟨⟨hlen, hchunks, by simpa using htotal⟩, rfl⟩
    · rintro ⟨hacc, rfl⟩
      exact ⟨hacc.chunks, by simpa using hacc.total, rfl⟩
  · rw [if_pos (by omega)]
    constructor
    · intro h
      cases h
    · rintro ⟨hacc, -⟩
      exact absurd hacc.length hlen

theorem accepted_packed {ρ P : Type} [DecidableEq P] {compress : Bytes → Option Bytes} {scanner : Scanner ρ P}
    {parallelism now : ℕ → ℕ} {deadline : ℕ} {blake3 : Bytes → Hash} {cdc : Cdc} {scan : Option ρ}
    {selfPath : Option P} {reads : Path → ℕ → ℕ} {root : Node} (h : root.WellFormed) {r : NarPackResult Hash P}
    (hr : packOneNar compress scanner parallelism now deadline blake3 cdc scan selfPath reads root = .ok r) :
    Accepted (recipe r.chunks).1 (recipe r.chunks).2 := by
  obtain ⟨w, hchunks, -, ⟨l, hl, -, hframed⟩, hlimit, -⟩ := packOneNar_ok h hr
  have hsizes : r.chunks.map OutChunk.size = (root.chunks blake3 cdc reads).map fun c => c.data.length := by
    have := congrArg (map Prod.snd) hframed.entries
    simpa [hchunks, ← hl, map_map, Function.comp_def] using this
  have hsmall : ∀ n ∈ r.chunks.map OutChunk.size, n ≤ maxChunkBytes := by
    intro n hn
    rw [hsizes] at hn
    obtain ⟨c, hc, rfl⟩ := mem_map.mp hn
    exact (sound_of_mem_chunks blake3 cdc hc).2.1
  have hexact : (recipe r.chunks).2.map UInt64.toNat = r.chunks.map OutChunk.size := by
    rw [recipe, map_map]
    refine map_congr_left fun c hc => ?_
    have hle := hsmall c.size (mem_map_of_mem hc)
    have hmax : maxChunkBytes < UInt64.size := by decide
    exact UInt64.toNat_ofNat_of_lt (by omega)
  refine ⟨?_, ?_, ?_⟩
  · rw [recipe, length_flatMap, length_map, map_congr_left (g := fun _ => 32) fun c _ => c.hash.2]
    simp [Nat.mul_comm]
  · intro s hs
    exact hsmall s.toNat (hexact ▸ mem_map_of_mem hs)
  · have hnar := congrArg length (chunks_data blake3 cdc h reads)
    rw [length_flatMap] at hnar
    rw [hexact, hsizes, hnar]
    exact hlimit

end Tribuchet.Recipes
