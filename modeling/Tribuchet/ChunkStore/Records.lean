import Tribuchet.ChunkStore.Pack

/-! What a pack file holds: a sequence of records, and possibly a torn tail. An
index entry designates a record of the file; appending keeps every designated
record, and the entries that are tracked while appending, read back from a sealed
index or found by recovery all designate records. -/

namespace Tribuchet.ChunkStore

open ByteStrings List
open IndexEntry hiding hash

def encodeRecords (rs : List (Hash × Bytes)) : Bytes := (rs.map fun r => record r.1 r.2).flatten

/-- The index of a file that starts with `rs`, from position `pos` on. -/
def entriesOf : ℕ → List (Hash × Bytes) → List IndexEntry
  | _, [] => []
  | pos, (hash, frame) :: rs =>
    ⟨hash, pos + headerLen, frame.length⟩ :: entriesOf (pos + headerLen + frame.length) rs

/-- The entry is a record of the file, after whole records, with this frame; its
header is the entry's hash and length. -/
def Designates (data : Bytes) (e : IndexEntry) (frame : Bytes) : Prop :=
  ∃ before after, data = encodeRecords before ++ record e.hash frame ++ after ∧
    e.offset = (encodeRecords before).length + headerLen ∧ e.len = frame.length

@[simp] theorem length_record (hash : Hash) (frame : Bytes) :
    (record hash frame).length = headerLen + frame.length := by
  simp only [record, length_append, length_toLe, hash.2, headerLen]

@[simp] theorem encodeRecords_nil : encodeRecords [] = [] := rfl

@[simp] theorem encodeRecords_cons (r : Hash × Bytes) (rs : List (Hash × Bytes)) :
    encodeRecords (r :: rs) = record r.1 r.2 ++ encodeRecords rs := rfl

@[simp] theorem encodeRecords_append (rs ts : List (Hash × Bytes)) :
    encodeRecords (rs ++ ts) = encodeRecords rs ++ encodeRecords ts := by
  simp [encodeRecords]

theorem entriesOf_append (pos : ℕ) (rs ts : List (Hash × Bytes)) :
    entriesOf pos (rs ++ ts) = entriesOf pos rs ++ entriesOf (pos + (encodeRecords rs).length) ts := by
  induction rs generalizing pos with
  | nil => rfl
  | cons r rs ih =>
    simp only [cons_append, entriesOf, ih, encodeRecords_cons, length_append, length_record]
    congr 3
    omega

variable {e : IndexEntry}

theorem Designates.read {data : Bytes} {frame : Bytes} (h : Designates data e frame) :
    readExact data e.offset e.len = some frame := by
  obtain ⟨before, after, rfl, ho, hl⟩ := h
  have := readExact_middle (encodeRecords before ++ (toLe 4 frame.length ++ e.hash.1)) frame after
  rw [ho, hl]
  convert this using 2
  · simp [record]
  · simp [headerLen, e.hash.2]

theorem Designates.header {data : Bytes} {frame : Bytes} (h : Designates data e frame) :
    headerLen ≤ e.offset ∧ e.offset + e.len ≤ data.length ∧
      slice data (e.offset - headerLen) headerLen = toLe 4 e.len ++ e.hash.1 := by
  obtain ⟨before, after, rfl, ho, hl⟩ := h
  refine ⟨by omega, by simp [ho, hl]; omega, ?_⟩
  have hlen : (toLe 4 frame.length ++ e.hash.1).length = headerLen := by simp [headerLen, e.hash.2]
  rw [ho, Nat.add_sub_cancel, slice, hl, record]
  simp only [append_assoc, drop_left]
  rw [← append_assoc (toLe 4 frame.length), take_left' hlen]

variable {rs : List (Hash × Bytes)}

theorem exists_record_of_mem (h : e ∈ entriesOf 0 rs) : ∃ before frame after, rs = before ++ (e.hash, frame) :: after ∧
      e.offset = (encodeRecords before).length + headerLen ∧ e.len = frame.length := by
  suffices hs : ∀ pos rs, e ∈ entriesOf pos rs → ∃ before frame after, rs = before ++ (e.hash, frame) :: after ∧
      e.offset = pos + (encodeRecords before).length + headerLen ∧ e.len = frame.length by
    simpa using hs 0 rs h
  intro pos rs
  induction rs generalizing pos with
  | nil => simp [entriesOf]
  | cons r rs ih =>
    intro he
    rw [entriesOf, mem_cons] at he
    rcases he with rfl | he
    · exact ⟨[], r.2, rs, rfl, by simp, rfl⟩
    · obtain ⟨before, frame, after, rfl, ho, hl⟩ := ih _ he
      refine ⟨r :: before, frame, after, rfl, ?_, hl⟩
      rw [ho, encodeRecords_cons, length_append, length_record]
      omega

theorem designates_of_mem (h : e ∈ entriesOf 0 rs)
    (tail : Bytes) : ∃ frame, Designates (encodeRecords rs ++ tail) e frame := by
  obtain ⟨before, frame, after, rfl, ho, hl⟩ := exists_record_of_mem h
  exact ⟨frame, before, encodeRecords after ++ tail, by simp, ho, hl⟩

/-! ### The index file -/

@[simp] theorem length_encode (e : IndexEntry) : e.encode.length = 44 := by
  simp [encode, e.hash.2]

theorem IndexEntry.decode_encode (ho : e.offset < 2 ^ 64) (hl : e.len < 2 ^ 32) : IndexEntry.decode e.encode = e := by
  have hh : e.encode.take 32 = e.hash.1 := by
    rw [encode, append_assoc, take_left' e.hash.2]
  have h8 : slice e.encode 32 8 = toLe 8 e.offset := by
    rw [slice, encode, append_assoc, drop_left' e.hash.2,
      take_left' (length_toLe 8 _)]
  have h4 : slice e.encode 40 4 = toLe 4 e.len := by
    rw [slice, encode, drop_left' (by simp [e.hash.2]),
      take_of_length_le (by simp)]
  rw [decode, hh, h8, h4, Hash.ofSlice_val, fromLe_toLe_of_lt (by norm_num; omega),
    fromLe_toLe_of_lt (by norm_num; omega)]

def InBounds (entries : List IndexEntry) : Prop := ∀ e ∈ entries, e.offset < 2 ^ 64 ∧ e.len < 2 ^ 32

theorem decodeIndex_encodeIndex {entries : List IndexEntry} (h : InBounds entries) :
    decodeIndex (encodeIndex entries) = entries := by
  rw [decodeIndex, encodeIndex, chunksExact_flatten (by omega) (by simp), map_map]
  exact (map_congr_left fun e he => decode_encode (h e he).1 (h e he).2).trans
    (map_id entries)

theorem inBounds_entriesOf (hf : ∀ r ∈ rs, r.2.length < 2 ^ 32)
    (hs : (encodeRecords rs).length < 2 ^ 64) : InBounds (entriesOf 0 rs) := by
  suffices hp : ∀ pos rs, (∀ r ∈ rs, r.2.length < 2 ^ 32) → pos + (encodeRecords rs).length < 2 ^ 64 →
      InBounds (entriesOf pos rs) from hp 0 rs hf (by omega)
  intro pos rs
  induction rs generalizing pos with
  | nil => simp [entriesOf, InBounds]
  | cons r rs ih =>
    intro hf hs e he
    simp only [encodeRecords_cons, length_append, length_record] at hs
    rw [entriesOf, mem_cons] at he
    rcases he with rfl | he
    · exact ⟨by simp only; omega, hf r (by simp)⟩
    · exact ih _ (fun r' hr => hf r' (mem_cons_of_mem r hr)) (by omega) e he

/-! ### Recovery -/

theorem eq_record_append {rest : Bytes} (hl : headerLen + fromLe (rest.take 4) ≤ rest.length) :
    rest = record (Hash.ofSlice (slice rest 4 32)) (slice rest headerLen (fromLe (rest.take 4))) ++
      rest.drop (headerLen + fromLe (rest.take 4)) := by
  have hlen4 : (rest.take 4).length = 4 := by
    simp only [headerLen] at hl
    rw [length_take]
    omega
  have hlen32 : (slice rest 4 32).length = 32 := by
    simp only [headerLen] at hl
    simp only [slice, length_take, length_drop]
    omega
  have hframe : (slice rest headerLen (fromLe (rest.take 4))).length = fromLe (rest.take 4) := by
    simp only [slice, length_take, length_drop]
    omega
  have h4 : toLe 4 (fromLe (rest.take 4)) = rest.take 4 := by
    have := toLe_fromLe (rest.take 4)
    rwa [hlen4] at this
  have h32 : (Hash.ofSlice (slice rest 4 32)).1 = slice rest 4 32 :=
    congrArg Subtype.val (Hash.ofSlice_val ⟨slice rest 4 32, hlen32⟩)
  rw [record, hframe, h4, h32]
  have e1 : rest.drop 4 = slice rest 4 32 ++ rest.drop headerLen := by
    have := (take_append_drop 32 (rest.drop 4)).symm
    rwa [drop_drop] at this
  have e2 : rest.drop headerLen =
      slice rest headerLen (fromLe (rest.take 4)) ++ rest.drop (headerLen + fromLe (rest.take 4)) := by
    have := (take_append_drop (fromLe (rest.take 4)) (rest.drop headerLen)).symm
    rwa [drop_drop] at this
  calc rest = rest.take 4 ++ rest.drop 4 := (take_append_drop 4 rest).symm
    _ = rest.take 4 ++ (slice rest 4 32 ++ (slice rest headerLen (fromLe (rest.take 4)) ++
          rest.drop (headerLen + fromLe (rest.take 4)))) := by rw [e1, e2]
    _ = _ := by simp only [append_assoc]

def Intact (intact : Bytes → Hash → Bool) (rs : List (Hash × Bytes)) : Prop :=
  ∀ r ∈ rs, r.2.length < 2 ^ 32 ∧ intact r.2 r.1 = true

variable (intact : Bytes → Hash → Bool)

theorem scan_records (fuel pos : ℕ) (rest : Bytes) : ∃ rs tail, rest = encodeRecords rs ++ tail ∧ Intact intact rs ∧
      scan intact fuel pos rest = (entriesOf pos rs, pos + (encodeRecords rs).length) := by
  induction fuel generalizing pos rest with
  | zero => exact ⟨[], rest, rfl, by simp [Intact], rfl⟩
  | succ fuel ih =>
    have none : ∃ rs tail, rest = encodeRecords rs ++ tail ∧ Intact intact rs ∧
        (([], pos) : List IndexEntry × ℕ) = (entriesOf pos rs, pos + (encodeRecords rs).length) :=
      ⟨[], rest, rfl, by simp [Intact], rfl⟩
    unfold scan
    dsimp only
    split_ifs with h1 h2 h3
    · exact none
    · exact none
    · obtain ⟨rs, tail, hrest, hf, hscan⟩ :=
        ih (pos + headerLen + fromLe (rest.take 4)) (rest.drop (headerLen + fromLe (rest.take 4)))
      have hlen : (slice rest headerLen (fromLe (rest.take 4))).length = fromLe (rest.take 4) := by
        simp only [slice, length_take, length_drop]
        omega
      have hlt : fromLe (rest.take 4) < 2 ^ 32 := by
        have h := fromLe_lt (rest.take 4)
        have h4 : (rest.take 4).length = 4 := by
          simp only [headerLen] at h1
          rw [length_take]
          omega
        rw [h4] at h
        exact h
      refine ⟨(Hash.ofSlice (slice rest 4 32), slice rest headerLen (fromLe (rest.take 4))) :: rs, tail,
        ?_, ?_, ?_⟩
      · rw [encodeRecords_cons, append_assoc, ← hrest]
        exact eq_record_append (by omega)
      · intro r hr
        rcases mem_cons.mp hr with rfl | hr
        · simp only [hlen]
          exact ⟨hlt, h3⟩
        · exact hf r hr
      · rw [hscan, entriesOf, hlen, encodeRecords_cons, length_append, length_record, hlen]
        simp only [Prod.mk.injEq, true_and]
        omega
    · exact none

theorem parse_record (hash : Hash) {frame : Bytes} (hl : frame.length < 2 ^ 32) (rest : Bytes) :
    fromLe ((record hash frame ++ rest).take 4) = frame.length ∧
      Hash.ofSlice (slice (record hash frame ++ rest) 4 32) = hash ∧
      slice (record hash frame ++ rest) headerLen frame.length = frame := by
  have hrec : record hash frame ++ rest = toLe 4 frame.length ++ (hash.1 ++ (frame ++ rest)) := by
    simp [record]
  have h4 : (toLe 4 frame.length).length = 4 := length_toLe 4 _
  refine ⟨?_, ?_, ?_⟩
  · rw [hrec, take_left' h4]
    exact fromLe_toLe_of_lt (by norm_num; omega)
  · rw [hrec, slice, drop_left' h4, take_left' hash.2]
    exact Hash.ofSlice_val hash
  · have hhead : (toLe 4 frame.length ++ hash.1).length = headerLen := by simp [headerLen, hash.2]
    rw [hrec, slice, ← append_assoc, drop_left' hhead, take_left]

theorem scan_encodeRecords (h : Intact intact rs)
    (tail : Bytes) (fuel pos : ℕ) : ∃ rest, scan intact (rs.length + fuel) pos (encodeRecords rs ++ tail) =
      (entriesOf pos rs ++ rest.1, rest.2) ∧ rest = scan intact fuel (pos + (encodeRecords rs).length) tail := by
  induction rs generalizing pos with
  | nil => exact ⟨_, by simp [entriesOf], rfl⟩
  | cons r rs ih =>
    obtain ⟨hl, hintact⟩ := h r mem_cons_self
    obtain ⟨hlen, hhash, hframe⟩ := parse_record r.1 hl (encodeRecords rs ++ tail)
    obtain ⟨rest, hrest, hscan⟩ := ih (fun r' hr => h r' (mem_cons_of_mem r hr)) (pos + headerLen + r.2.length)
    refine ⟨rest, ?_, ?_⟩
    · have hsize : (record r.1 r.2).length = headerLen + r.2.length := length_record r.1 r.2
      rw [encodeRecords_cons, append_assoc, length_cons, Nat.add_right_comm]
      unfold scan
      simp only [hlen, hhash, hframe, hintact, length_append, hsize, if_true]
      rw [if_neg (by omega), if_neg (by omega), drop_left' hsize, hrest]
      rfl
    · rw [hscan, encodeRecords_cons, length_append, length_record]
      congr 1
      omega

theorem scan_intact_prefix {data : Bytes} (h : Intact intact rs) (hp : encodeRecords rs <+: data) : ∃ more stop,
      scan intact data.length 0 data = (entriesOf 0 rs ++ more, stop) ∧ (encodeRecords rs).length ≤ stop := by
  obtain ⟨tail, rfl⟩ := hp
  have hlen : ∀ rs : List (Hash × Bytes), rs.length ≤ (encodeRecords rs).length := by
    intro rs
    induction rs with
    | nil => simp
    | cons r rs ih =>
      rw [encodeRecords_cons, length_append, length_record, length_cons, headerLen]
      omega
  have hfuel : (encodeRecords rs ++ tail).length = rs.length + ((encodeRecords rs ++ tail).length - rs.length) := by
    have := hlen rs
    rw [length_append]
    omega
  obtain ⟨rest, hscan, hrest⟩ := scan_encodeRecords intact h tail ((encodeRecords rs ++ tail).length - rs.length) 0
  obtain ⟨rs', tail', -, -, hscan'⟩ := scan_records intact ((encodeRecords rs ++ tail).length - rs.length)
    (0 + (encodeRecords rs).length) tail
  refine ⟨rest.1, rest.2, ?_, ?_⟩
  · rw [hfuel, hscan]
  · rw [hrest, hscan']
    simp only
    omega

end Tribuchet.ChunkStore
