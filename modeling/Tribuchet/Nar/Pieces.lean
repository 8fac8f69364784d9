import Tribuchet.Base.Feed
import Tribuchet.Nar.Pack

/-! The pieces of a store path. Which pieces a walk hands out does not depend on the callback: it
is handed the pieces of the tree in order, until it wants no more. Put together they are the
archive of the tree. -/

namespace Tribuchet.Nar

open ByteStrings Feeding List Emitter Node

def bodyPieces : List Bytes → List Piece
  | [] => []
  | part :: rest => .body part (rest = []) :: bodyPieces rest

def flushed (buf : Bytes) : List Piece := if buf = [] then [] else [.framing buf]

/-- The pieces of each step; between steps framing is kept in the buffer. -/
def buffering (reads : Path → ℕ → ℕ) : Stage Step Piece Bytes where
  out buf
    | .put _ => []
    | .flushFull => if emitChunk ≤ buf.length then flushed buf else []
    | .flush => flushed buf
    | .body path data => flushed buf ++ bodyPieces (parts reads path data.length data)
  next buf
    | .put b => buf ++ b
    | .flushFull => if emitChunk ≤ buf.length then [] else buf
    | .flush => []
    | .body _ _ => []

def Node.pieces (reads : Path → ℕ → ℕ) (root : Node) : List Piece := (buffering reads).outs [] root.walk

section

variable {σ : Type} (emit : Piece → σ → Except IoError Bool × σ) (reads : Path → ℕ → ℕ)

def Emitter.answered (buf : Bytes) : Except IoError Bool × σ → Emitter σ
  | (.ok true, s) => ⟨buf, false, none, s⟩
  | (.ok false, s) => ⟨buf, true, none, s⟩
  | (.error e, s) => ⟨buf, true, some e, s⟩

variable {emit reads} {buf : Bytes} {s : σ}

theorem Emitter.handOut_eq (piece : Piece) :
    handOut emit piece ⟨buf, false, none, s⟩ = answered buf (emit piece s) := by
  unfold handOut
  obtain ⟨(e | _ | _), s'⟩ := emit piece s <;> rfl

theorem Emitter.flush_eq : Emitter.flush emit ⟨buf, false, none, s⟩ = answered [] (feed emit (flushed buf) s) := by
  unfold flush flushed
  by_cases h : buf = []
  · subst h
    rfl
  · rw [if_neg (by simp [h]), if_neg h, handOut_eq, feed_singleton]
    obtain ⟨(e | _ | _), s'⟩ := emit (.framing buf) s <;> rfl

theorem Emitter.handOutBody_of_stopped {out : Emitter σ} (h : out.stopped = true) (l : List Bytes) :
    out.handOutBody emit l = out := by
  cases l with
  | nil => rfl
  | cons part rest => exact if_pos h

theorem Emitter.handOutBody_eq (l : List Bytes) :
    handOutBody emit l ⟨buf, false, none, s⟩ = answered buf (feed emit (bodyPieces l) s) := by
  induction l generalizing s with
  | nil => rfl
  | cons part rest ih =>
    unfold handOutBody
    rw [if_neg (by simp), handOut_eq, bodyPieces, feed]
    obtain ⟨(e | _ | _), s'⟩ := emit (.body part (rest = [])) s
    · exact handOutBody_of_stopped rfl rest
    · exact handOutBody_of_stopped rfl rest
    · exact ih

theorem Step.run_eq (step : Step) : step.run emit reads ⟨buf, false, none, s⟩ =
    .answered ((buffering reads).next buf step) (feed emit ((buffering reads).out buf step) s) := by
  cases step with
  | put b => rfl
  | flushFull =>
    simp only [Step.run, Emitter.flushFull, buffering]
    split_ifs
    · exact Emitter.flush_eq
    · rfl
  | flush => exact Emitter.flush_eq
  | body path data =>
    simp only [Step.run, buffering, flush_eq, feed_append]
    obtain ⟨(e | _ | _), s'⟩ := feed emit (flushed buf) s
    · exact handOutBody_of_stopped rfl _
    · exact handOutBody_of_stopped rfl _
    · exact handOutBody_eq _

theorem Emitter.run_eq (steps : List Step) : Sees (Emitter.run emit reads steps ⟨buf, false, none, s⟩)
    (.answered ((buffering reads).after buf steps) (feed emit ((buffering reads).outs buf steps) s)) := by
  induction steps generalizing buf s with
  | nil => exact .inl rfl
  | cons step steps ih =>
    have hrun : run emit reads (step :: steps) ⟨buf, false, none, s⟩ =
        run emit reads steps (step.run emit reads ⟨buf, false, none, s⟩) := rfl
    rw [hrun, Step.run_eq, Stage.outs, feed_append]
    have hstopped {out out' : Emitter σ} (h : out.stopped = true) (h' : out'.stopped = true) (hs : out.state = out'.state)
        (he : out.err = out'.err) : Sees (out.run emit reads steps) out' := by
      have hrun : Sees out (out.run emit reads steps) := run_of_stopped h steps
      exact hrun.symm.trans (.inr ⟨h, h', hs, he⟩)
    obtain ⟨(e | _ | _), s'⟩ := feed emit ((buffering reads).out buf step) s
    · exact hstopped rfl rfl rfl rfl
    · exact hstopped rfl rfl rfl rfl
    · exact ih

theorem pack_feed {root : Node} (h : root.WellFormed) : pack emit reads root s =
    ((feed emit (root.pieces reads) s).1.map fun _ => (), (feed emit (root.pieces reads) s).2) := by
  rw [pack_eq h]
  have hsees : Sees (run emit reads root.walk ⟨[], false, none, s⟩) _ := run_eq root.walk
  obtain ⟨hresult, hstate⟩ := hsees.result_state
  rw [hresult, hstate, pieces]
  obtain ⟨(e | _ | _), s'⟩ := feed emit ((buffering reads).outs [] root.walk) s <;> rfl

end

/-! ### The bytes -/

def Step.bytes : Step → Bytes
  | .put b => b
  | .flushFull => []
  | .flush => []
  | .body _ data => data

section

variable (reads : Path → ℕ → ℕ)

theorem flatten_parts (path : Path) (turns : ℕ) (rest : Bytes) (h : rest.length ≤ turns) :
    (parts reads path turns rest).flatten = rest := by
  induction turns generalizing rest with
  | zero => simp [parts, length_eq_zero_iff.mp (Nat.le_zero.mp h)]
  | succ turns ih =>
    rw [parts]
    split_ifs with hr
    · simp [hr]
    · obtain ⟨hpos, -⟩ := readLen_pos reads path (length_pos_iff.mpr hr)
      rw [flatten_cons, ih _ (by rw [length_drop]; omega), take_append_drop]

theorem bodyPieces_data (l : List Bytes) : (bodyPieces l).flatMap Piece.data = l.flatten := by
  induction l with
  | nil => rfl
  | cons part rest ih => rw [bodyPieces, flatMap_cons, ih]; rfl

theorem flushed_data (buf : Bytes) : (flushed buf).flatMap Piece.data = buf := by
  unfold flushed
  split_ifs with h
  · exact h.symm
  · simp [Piece.data]

theorem buffering_step (buf : Bytes) (step : Step) :
    ((buffering reads).out buf step).flatMap Piece.data ++ (buffering reads).next buf step = buf ++ step.bytes := by
  cases step with
  | put b => rfl
  | flushFull =>
    simp only [buffering, Step.bytes]
    split_ifs <;> simp [flushed_data]
  | flush => simp [buffering, Step.bytes, flushed_data]
  | body path data =>
    simp only [buffering, Step.bytes, flatMap_append, flushed_data, bodyPieces_data, append_nil]
    rw [flatten_parts reads path data.length data le_rfl]

theorem buffering_steps (buf : Bytes) (steps : List Step) :
    ((buffering reads).outs buf steps).flatMap Piece.data ++ (buffering reads).after buf steps =
      buf ++ steps.flatMap Step.bytes := by
  induction steps generalizing buf with
  | nil => simp [Stage.outs, Stage.after]
  | cons step steps ih =>
    rw [Stage.outs, flatMap_append, append_assoc, flatMap_cons]
    have hafter : (buffering reads).after buf (step :: steps) =
        (buffering reads).after ((buffering reads).next buf step) steps := rfl
    rw [hafter, ih, ← append_assoc, buffering_step, append_assoc]

end

theorem strSteps_bytes (s : Bytes) : (strSteps s).flatMap Step.bytes = str s := by simp [strSteps, Step.bytes]

theorem wordSteps_bytes (s : String) : (wordSteps s).flatMap Step.bytes = word s := strSteps_bytes (ascii s)

theorem fileSteps_bytes (path : Path) (contents : Bytes) :
    (fileSteps path contents).flatMap Step.bytes = str contents := by
  unfold fileSteps
  split_ifs
  · simp [Step.bytes]
  · simp [Step.bytes, str]

theorem entriesSteps_bytes (path : Path) (l : List (Bytes × Node))
    (h : ∀ e ∈ l, (e.2.steps (path ++ [e.1])).flatMap Step.bytes = e.2.tree.encode) :
    (entriesSteps (l.map fun e => (e.1, e.2.steps (path ++ [e.1])))).flatMap Step.bytes =
      encodeEntries (l.map fun e => (e.1, e.2.tree)) := by
  induction l with
  | nil => rfl
  | cons e l ih =>
    have hl := ih fun e' he => h e' (mem_cons_of_mem e he)
    simp only [map_cons, entriesSteps, encodeEntries, flatMap_append, wordSteps_bytes, strSteps_bytes, hl,
      h e mem_cons_self, append_assoc]

mutual
theorem steps_bytes : ∀ (n : Node) (path : Path), n.WellFormed → (n.steps path).flatMap Step.bytes = n.tree.encode
  | .regular mode size contents, path, _ => by
    simp only [steps, tree, Tree.encode, flatMap_append, wordSteps_bytes, fileSteps_bytes,
      append_assoc]
    split_ifs
    · simp only [flatMap_append, wordSteps_bytes, append_assoc]
    · rfl
  | .symlink target, path, _ => by
    simp only [steps, tree, Tree.encode, flatMap_append, wordSteps_bytes, strSteps_bytes,
      append_assoc]
  | .directory listing, path, h => by
    have hlisting := listing_bytes listing path h.1
    have hentries := entriesSteps_bytes path (sortByName listing) fun e he =>
      hlisting e ((perm_insertionSort _ _).mem_iff.mp he)
    simp only [steps, tree, Tree.encode, flatMap_append, wordSteps_bytes, append_assoc]
    rw [childrenSteps_eq, trees_eq, sortByName_map fun name n => steps (path ++ [name]) n,
      sortByName_map fun _ n => tree n, hentries]
  | .special, _, h => h.elim
theorem listing_bytes : ∀ (listing : List (Bytes × Node)) (path : Path), WellFormedListing listing →
    ∀ e ∈ listing, (e.2.steps (path ++ [e.1])).flatMap Step.bytes = e.2.tree.encode
  | [], _, _ => nofun
  | (name, n) :: listing, path, h => by
    have hn := steps_bytes n (path ++ [name]) h.2.1
    have hl := listing_bytes listing path h.2.2
    exact forall_mem_cons.mpr ⟨hn, hl⟩
end

theorem walk_bytes {root : Node} (h : root.WellFormed) : root.walk.flatMap Step.bytes = root.tree.nar := by
  simp [walk, Tree.nar, wordSteps_bytes, steps_bytes root [] h, Step.bytes]

theorem pieces_data {root : Node} (h : root.WellFormed) (reads : Path → ℕ → ℕ) :
    (root.pieces reads).flatMap Piece.data = root.tree.nar := by
  have hsteps := buffering_steps reads [] root.walk
  -- the last step empties the buffer
  have hafter : (buffering reads).after [] root.walk = [] := by
    rw [walk, Stage.after_append, Stage.after_append]
    rfl
  rw [hafter, append_nil, nil_append, walk_bytes h] at hsteps
  exact hsteps

end Tribuchet.Nar
