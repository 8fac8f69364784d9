import Tribuchet.Nar.Canonical
import Tribuchet.Nar.Chunker

/-! The chunks of a store path: they are the archive, none is empty or too large, and they do not
depend on how bodies are read. Framing never comes between the parts of a body, so the chunker has
a literal or the rest of a body to keep and never both. -/

namespace Tribuchet.Nar

open ByteStrings Cutting Feeding List Node
open Stage hiding after

/-! ### Pieces with whole bodies -/

/-- Framing, and bodies with all their parts. The lists differ only in how bodies are read. -/
inductive Alike : List Piece → List Piece → Prop
  | nil : Alike [] []
  | framing {b l l'} : Alike l l' → Alike (.framing b :: l) (.framing b :: l')
  | body {parts parts' : List Bytes} {l l'} : parts.flatten = parts'.flatten → (parts = [] ↔ parts' = []) → Alike l l' →
      Alike (bodyPieces parts ++ l) (bodyPieces parts' ++ l')

theorem Alike.flushed {l l' : List Piece} (h : Alike l l') (buf : Bytes) : Alike (flushed buf ++ l) (flushed buf ++ l') := by
  unfold Nar.flushed
  split_ifs
  · exact h
  · exact h.framing

theorem alike_steps (reads reads' : Path → ℕ → ℕ) (buf : Bytes) (steps : List Step) :
    Alike ((buffering reads).outs buf steps) ((buffering reads').outs buf steps) := by
  induction steps generalizing buf with
  | nil => exact .nil
  | cons step steps ih =>
    rw [outs, outs]
    cases step with
    | put b => exact ih (buf ++ b)
    | flushFull =>
      simp only [buffering]
      split_ifs
      · exact (ih []).flushed buf
      · exact ih buf
    | flush => exact (ih []).flushed buf
    | body path data =>
      simp only [buffering, append_assoc]
      refine (Alike.body ?_ ?_ (ih [])).flushed buf
      · rw [flatten_parts reads path _ data le_rfl, flatten_parts reads' path _ data le_rfl]
      · rw [parts_eq_nil le_rfl, parts_eq_nil le_rfl]

theorem alike_pieces (reads reads' : Path → ℕ → ℕ) (root : Node) : Alike (root.pieces reads) (root.pieces reads') :=
  alike_steps reads reads' [] root.walk

section

variable {H : Type} (blake3 : Bytes → H) (cdc : Cdc)

/-! ### Chunks -/

/-- A chunk is not empty, not too large, and carries the hash of its data. -/
def Chunk.Sound (c : Chunk H) : Prop := c.data ≠ [] ∧ c.data.length ≤ maxChunkBytes ∧ c.hash = blake3 c.data

theorem emitted_data (data : Bytes) : (emitted blake3 data).flatMap Chunk.data = data := by
  unfold emitted
  split_ifs
  · rw [flatMap_map, flatMap_def]
    exact (congrArg flatten (map_id _)).trans (flatten_chunksOf (by decide) data)
  · simp [chunkOf]

variable {c : Chunk H}

theorem sound_of_mem_emitted {data : Bytes} (hdata : data ≠ []) (hc : c ∈ emitted blake3 data) : c.Sound blake3 := by
  unfold emitted at hc
  split_ifs at hc with h
  · obtain ⟨part, hpart, rfl⟩ := mem_map.mp hc
    obtain ⟨hne, hlen⟩ := mem_chunksOf hpart
    exact ⟨hne, hlen, rfl⟩
  · rw [mem_singleton.mp hc]
    exact ⟨hdata, le_of_not_gt h, rfl⟩

theorem literal_data (lit : Bytes) : (literal blake3 lit).flatMap Chunk.data = lit := by
  unfold literal
  split_ifs with h
  · rw [h]
    rfl
  · exact emitted_data blake3 lit

theorem sound_of_mem_literal {lit : Bytes} (hc : c ∈ literal blake3 lit) : c.Sound blake3 := by
  unfold literal at hc
  split_ifs at hc with h
  · cases hc
  · exact sound_of_mem_emitted blake3 h hc

theorem flatMap_emitted_data (l : List Bytes) : (l.flatMap (emitted blake3)).flatMap Chunk.data = l.flatten := by
  rw [flatMap_assoc]
  simp only [emitted_data, flatMap_id']

theorem flatMap_emitted_split (data : Bytes) :
    (cdc.split data).flatMap (emitted blake3) = (cdc.split data).map (chunkOf blake3) := by
  rw [← flatMap_singleton' (map _ _), flatMap_map]
  refine flatMap_congr fun c hc => ?_
  rw [emitted, if_neg]
  exact not_lt.mpr ((cdc.mem_split hc).2.trans (by decide))

theorem sound_of_mem_out {kept : Bytes × Bytes} {piece : Piece}
    (hc : c ∈ (chunking blake3 cdc).out kept piece) : c.Sound blake3 := by
  have hsplit : ∀ {data}, c ∈ (cdc.split data).flatMap (emitted blake3) → c.Sound blake3 := by
    intro data hc
    obtain ⟨d, hd, hc⟩ := mem_flatMap.mp hc
    exact sound_of_mem_emitted blake3 (cdc.mem_split hd).1 hc
  have hwindows : ∀ {data}, c ∈ (cdc.windows data).1.flatMap (emitted blake3) → c.Sound blake3 := by
    intro data hc
    obtain ⟨d, hd, hc⟩ := mem_flatMap.mp hc
    exact sound_of_mem_emitted blake3 (cdc.mem_windows hd).1 hc
  cases piece with
  | framing b =>
    simp only [chunking] at hc
    split_ifs at hc
    · exact sound_of_mem_literal blake3 hc
    · cases hc
  | body data last =>
    simp only [chunking] at hc
    rcases mem_append.mp hc with hc | hc
    · exact sound_of_mem_literal blake3 hc
    · split_ifs at hc
      · exact hsplit hc
      · rcases mem_append.mp hc with hc | hc
        · exact hwindows hc
        · exact hsplit hc
      · exact hwindows (by simpa using hc)

variable {pieces : List Piece}

theorem sound_of_mem_outs {kept : Bytes × Bytes}
    (hc : c ∈ (chunking blake3 cdc).outs kept pieces) : c.Sound blake3 := by
  induction pieces generalizing kept with
  | nil => cases hc
  | cons piece pieces ih =>
    rcases mem_append.mp hc with hc | hc
    · exact sound_of_mem_out blake3 cdc hc
    · exact ih hc

/-! ### Bodies -/

theorem out_part (lit body data : Bytes) : (chunking blake3 cdc).out (lit, body) (.body data false) =
    literal blake3 lit ++ (cdc.windows (body ++ data)).1.flatMap (emitted blake3) := by
  simp [chunking]

theorem next_part (lit body data : Bytes) :
    (chunking blake3 cdc).next (lit, body) (.body data false) = ([], (cdc.windows (body ++ data)).2) := rfl

theorem out_last_data (lit body data : Bytes) :
    ((chunking blake3 cdc).out (lit, body) (.body data true)).flatMap Chunk.data = lit ++ (body ++ data) := by
  simp only [chunking, and_true, if_true, flatMap_append, literal_data]
  split_ifs with hbody
  · rw [flatMap_emitted_data, cdc.flatten_split, hbody, nil_append]
  · rw [flatMap_append, flatMap_emitted_data, flatMap_emitted_data, cdc.flatten_split, cdc.windows_append]

theorem out_last {cdc : Cdc} (hs : cdc.Stable) (lit body data : Bytes) :
    (chunking blake3 cdc).out (lit, body) (.body data true) =
      literal blake3 lit ++ (cdc.split (body ++ data)).flatMap (emitted blake3) := by
  simp only [chunking, and_true, if_true]
  split_ifs with hbody
  · rw [hbody, nil_append]
  · have happend := hs.split_append (body ++ data) []
    rw [append_nil, append_nil] at happend
    rw [happend, flatMap_append]

theorem bodyPieces_cons {part : Bytes} {rest : List Bytes} (h : rest ≠ []) :
    bodyPieces (part :: rest) = .body part false :: bodyPieces rest := by
  rw [bodyPieces, decide_eq_false h]

variable {parts : List Bytes}

theorem after_body (lit body : Bytes) (h : parts ≠ []) :
    (chunking blake3 cdc).after (lit, body) (bodyPieces parts) = ([], []) := by
  induction parts generalizing lit body with
  | nil => exact absurd rfl h
  | cons part rest ih =>
    by_cases hrest : rest = []
    · subst hrest
      rfl
    · rw [bodyPieces_cons hrest]
      exact ih [] (cdc.windows (body ++ part)).2 hrest

theorem outs_body_data (lit body : Bytes) (h : parts ≠ []) :
    ((chunking blake3 cdc).outs (lit, body) (bodyPieces parts)).flatMap Chunk.data = lit ++ (body ++ parts.flatten) := by
  induction parts generalizing lit body with
  | nil => exact absurd rfl h
  | cons part rest ih =>
    by_cases hrest : rest = []
    · subst hrest
      simpa [bodyPieces, outs] using out_last_data blake3 cdc lit body part
    · rw [bodyPieces_cons hrest, outs, flatMap_append, next_part, ih [] _ hrest, out_part,
        flatMap_append, literal_data, flatMap_emitted_data, nil_append, append_assoc,
        ← append_assoc _ _ rest.flatten, cdc.windows_append, flatten_cons, append_assoc]

theorem outs_body {cdc : Cdc} (hs : cdc.Stable) (lit body : Bytes) (h : parts ≠ []) :
    (chunking blake3 cdc).outs (lit, body) (bodyPieces parts) =
      literal blake3 lit ++ (cdc.split (body ++ parts.flatten)).flatMap (emitted blake3) := by
  induction parts generalizing lit body with
  | nil => exact absurd rfl h
  | cons part rest ih =>
    by_cases hrest : rest = []
    · subst hrest
      simpa [bodyPieces, outs] using out_last blake3 hs lit body part
    · have hnil : literal blake3 [] = [] := if_pos rfl
      rw [bodyPieces_cons hrest, outs, next_part, ih [] _ hrest, out_part, hnil, nil_append,
        append_assoc, ← flatMap_append, ← hs.split_append, flatten_cons, append_assoc]

/-! ### Paths -/

theorem outs_data {pieces' : List Piece} (h : Alike pieces pieces') (lit : Bytes) :
    ((chunking blake3 cdc).outs (lit, []) pieces).flatMap Chunk.data ++
        ((chunking blake3 cdc).after (lit, []) pieces).1 = lit ++ pieces.flatMap Piece.data ∧
      ((chunking blake3 cdc).after (lit, []) pieces).2 = [] := by
  induction h generalizing lit with
  | nil => exact ⟨by simp [Stage.outs, Stage.after], rfl⟩
  | @framing b l l' _ ih =>
    have hout : ((chunking blake3 cdc).out (lit, []) (.framing b)).flatMap Chunk.data ++
        ((chunking blake3 cdc).next (lit, []) (.framing b)).1 = lit ++ b := by
      simp only [chunking]
      split_ifs
      · rw [literal_data, append_nil]
      · rfl
    obtain ⟨hdata, hbody⟩ := ih ((chunking blake3 cdc).next (lit, []) (.framing b)).1
    refine ⟨?_, hbody⟩
    rw [outs, flatMap_append, append_assoc]
    have hrest := congrArg (((chunking blake3 cdc).out (lit, []) (.framing b)).flatMap Chunk.data ++ ·) hdata
    simp only [← append_assoc, hout] at hrest
    rw [flatMap_cons, ← append_assoc, ← append_assoc]
    exact hrest
  | @body parts parts' l l' _ _ _ ih =>
    rw [outs_append, after_append]
    by_cases hparts : parts = []
    · subst hparts
      exact ih lit
    · obtain ⟨hdata, hbody⟩ := ih []
      rw [after_body blake3 cdc lit [] hparts]
      refine ⟨?_, hbody⟩
      rw [flatMap_append, append_assoc, hdata, outs_body_data blake3 cdc lit [] hparts, flatMap_append,
        bodyPieces_data, nil_append, nil_append, append_assoc]

theorem chunks_data {root : Node} (h : root.WellFormed) (reads : Path → ℕ → ℕ) :
    (root.chunks blake3 cdc reads).flatMap Chunk.data = root.tree.nar := by
  have hdata := (outs_data blake3 cdc (alike_pieces reads reads root) []).1
  rw [chunks, flatMap_append, literal_data, hdata, nil_append, pieces_data h]

theorem sound_of_mem_chunks {root : Node} {reads : Path → ℕ → ℕ} (hc : c ∈ root.chunks blake3 cdc reads) :
    c.Sound blake3 := by
  rcases mem_append.mp hc with hc | hc
  · exact sound_of_mem_outs blake3 cdc hc
  · exact sound_of_mem_literal blake3 hc

/-- A sink that always continues is handed chunks that are not empty and not too large and carry
their hash, and that together are what the packer produces. -/
theorem chunked_archive {root : Node} (h : root.WellFormed) (reads : Path → ℕ → ℕ) :
    ∃ chunks : List (Chunk H), (∀ c ∈ chunks, c.Sound blake3) ∧ toVec reads root = .ok (chunks.flatMap Chunk.data) ∧
      ∀ {σ ε : Type} (f : σ → Chunk H → σ) (s : σ),
        chunkStorePath (ε := ε) blake3 cdc (fun c s => (.ok true, f s c)) reads root s = (.ok (), chunks.foldl f s) := by
  refine ⟨root.chunks blake3 cdc reads, fun c hc => sound_of_mem_chunks blake3 cdc hc, ?_, fun f s => ?_⟩
  · rw [chunks_data blake3 cdc h, toVec_eq h]
  · rw [chunkStorePath_feed h, feed_of_forall fun _ _ => rfl]
    rfl

def bytewise : Cdc where
  cuts l := replicate l.length 1
  tiles l := by simp
  bounds l n hn := by
    rw [(mem_replicate.mp hn).2]
    decide

theorem chunked_archive_link : ∃ chunks : List (Chunk ℕ), (∀ c ∈ chunks, c.Sound length) ∧
      toVec (fun _ _ => 1) (.symlink (ascii "a")) = .ok (chunks.flatMap Chunk.data) := by
  have hwf : (symlink (ascii "a")).WellFormed := by simp [WellFormed, ascii]
  obtain ⟨chunks, hsound, hdata, -⟩ := chunked_archive length bytewise hwf fun _ _ => 1
  exact ⟨chunks, hsound, hdata⟩

/-! ### How bodies are read -/

variable {cdc}

theorem outs_alike (hs : cdc.Stable) {pieces' : List Piece} (h : Alike pieces pieces') (lit : Bytes) :
    (chunking blake3 cdc).outs (lit, []) pieces = (chunking blake3 cdc).outs (lit, []) pieces' ∧
      (chunking blake3 cdc).after (lit, []) pieces = (chunking blake3 cdc).after (lit, []) pieces' := by
  induction h generalizing lit with
  | nil => exact ⟨rfl, rfl⟩
  | @framing b l l' _ ih =>
    obtain ⟨houts, hafter⟩ := ih ((chunking blake3 cdc).next (lit, []) (.framing b)).1
    exact ⟨congrArg (((chunking blake3 cdc).out (lit, []) (.framing b)) ++ ·) houts, hafter⟩
  | @body parts parts' l l' hflatten hnil _ ih =>
    rw [outs_append, outs_append, after_append, after_append]
    by_cases hparts : parts = []
    · rw [hparts, hnil.mp hparts]
      obtain ⟨houts, hafter⟩ := ih lit
      exact ⟨houts, hafter⟩
    · have hparts' : parts' ≠ [] := fun h => hparts (hnil.mpr h)
      obtain ⟨houts, hafter⟩ := ih []
      rw [after_body blake3 cdc lit [] hparts, after_body blake3 cdc lit [] hparts', outs_body blake3 hs lit [] hparts,
        outs_body blake3 hs lit [] hparts', hflatten, houts]
      exact ⟨rfl, hafter⟩

theorem chunks_eq (hs : cdc.Stable) (root : Node) (reads reads' : Path → ℕ → ℕ) :
    root.chunks blake3 cdc reads = root.chunks blake3 cdc reads' := by
  obtain ⟨houts, hafter⟩ := outs_alike blake3 hs (alike_pieces reads reads' root) []
  rw [chunks, houts, hafter, chunks]

theorem chunks_body (hs : cdc.Stable) {root : Node} {path : Path} {data : Bytes} (hmem : .body path data ∈ root.walk)
    (hdata : data ≠ []) (reads : Path → ℕ → ℕ) :
    (cdc.split data).map (chunkOf blake3) <:+: root.chunks blake3 cdc reads := by
  obtain ⟨before, behind, hwalk⟩ := append_of_mem hmem
  have hparts : parts reads path data.length data ≠ [] := by
    rw [Ne, parts_eq_nil le_rfl]
    exact hdata
  obtain ⟨early, late, hearly, hpieces⟩ : ∃ early late, Alike early early ∧
      root.pieces reads = early ++ (bodyPieces (parts reads path data.length data) ++ late) := by
    refine ⟨_, (buffering reads).outs [] behind, alike_steps reads reads [] (before ++ [.flush]), ?_⟩
    rw [pieces, hwalk, outs_append, outs_append]
    simp [outs, buffering]
  -- the chunker is between two bodies when this one comes
  have hbetween := (outs_data blake3 cdc hearly []).2
  rcases hkept : (chunking blake3 cdc).after ([], []) early with ⟨lit, body⟩
  rw [hkept] at hbetween
  simp only at hbetween
  subst hbetween
  rw [chunks, hpieces, outs_append, hkept, outs_append, outs_body blake3 hs lit [] hparts,
    nil_append, flatten_parts reads path _ data le_rfl, flatMap_emitted_split]
  refine List.IsInfix.trans ?_ (prefix_append _ _).isInfix
  refine List.IsInfix.trans ?_ (suffix_append _ _).isInfix
  refine List.IsInfix.trans ?_ (prefix_append _ _).isInfix
  exact (suffix_append _ _).isInfix

variable {σ ε : Type}

/-- A body that comes in parts is handed to the sink as the cuts of the whole body. So any two runs
over a store path are the same, however its files are read. -/
theorem chunks_independent_of_reads (hs : cdc.Stable) :
    (∀ parts : List Bytes, parts ≠ [] → ∀ (sink : Callback (Chunk H) σ ε) (s : σ),
      ∃ c : Chunker σ, feed (Chunker.onPiece blake3 cdc sink) (bodyPieces parts) (.ok true, ⟨[], [], s⟩) =
          (.ok (isMore (feed sink ((cdc.split parts.flatten).map (chunkOf blake3)) s).1),
            (feed sink ((cdc.split parts.flatten).map (chunkOf blake3)) s).1, c) ∧
        c.state = (feed sink ((cdc.split parts.flatten).map (chunkOf blake3)) s).2) ∧
    ∀ root : Node, root.WellFormed → ∀ (reads reads' : Path → ℕ → ℕ) (sink : Callback (Chunk H) σ ε) (s : σ),
      chunkStorePath blake3 cdc sink reads root s = chunkStorePath blake3 cdc sink reads' root s := by
  refine ⟨fun parts hparts sink s => ?_, fun root h reads reads' sink s => ?_⟩
  · have hfeed : ∃ c, feed (Chunker.onPiece blake3 cdc sink) (bodyPieces parts) (.ok true, ⟨[], [], s⟩) = _ ∧ _ ∧ _ :=
      feed_onPiece (bodyPieces parts) ⟨[], [], s⟩
    obtain ⟨c, hc, hstate, -⟩ := hfeed
    have hnil : literal blake3 [] = [] := if_pos rfl
    have houts : (chunking blake3 cdc).outs ([], []) (bodyPieces parts) =
        (cdc.split parts.flatten).map (chunkOf blake3) := by
      rw [outs_body blake3 hs [] [] hparts, hnil, nil_append, nil_append, flatMap_emitted_split]
    simp only [houts] at hc hstate
    exact ⟨c, hc, hstate⟩
  · rw [chunkStorePath_feed h, chunkStorePath_feed h, chunks_eq blake3 hs root reads reads']

theorem bytewise_stable : bytewise.Stable where
  rest l hl := by
    obtain ⟨b, l, rfl⟩ := exists_cons_of_ne_nil hl
    rfl
  window l hl := by
    have hne : l ≠ [] := by
      rintro rfl
      exact absurd hl (by decide)
    obtain ⟨b, l, rfl⟩ := exists_cons_of_ne_nil hne
    rfl

/-- A file whose body is read byte by byte or all at once. -/
theorem chunks_independent_of_reads_body :
    chunkStorePath (ε := Unit) length bytewise (fun c l => (.ok true, l ++ [c])) (fun _ _ => 1)
        (.regular 0o644 bodyMin (replicate bodyMin 7)) [] =
      chunkStorePath length bytewise (fun c l => (.ok true, l ++ [c])) (fun _ _ => bodyMin)
        (.regular 0o644 bodyMin (replicate bodyMin 7)) [] := by
  have hwf : (regular 0o644 bodyMin (replicate bodyMin 7)).WellFormed := ⟨length_replicate, by decide⟩
  exact (chunks_independent_of_reads length bytewise_stable).2 _ hwf _ _ _ _

end

end Tribuchet.Nar
