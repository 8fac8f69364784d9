import Tribuchet.Base.Cutting
import Tribuchet.Nar.Pieces

/-! The chunker: file bodies are cut by content, the framing between them is collected into
literal chunks. Each chunk is handed to a sink, which answers whether it wants more. -/

namespace Tribuchet.Nar

open ByteStrings Cutting Feeding Hoare List

def cdcMax : ℕ := 256 * 1024

def maxChunkBytes : ℕ := 1024 * 1024

/-- FastCDC, of which the source assumes no more than that the cuts tile its input. -/
abbrev Cdc := Cutter UInt8 cdcMax

structure Chunk (H : Type) where
  hash : H
  data : Bytes

structure Chunker (σ : Type) where
  lit : Bytes
  body : Bytes
  state : σ

inductive ChunkError (ε : Type)
  | serializing (e : IoError)
  | sink (e : ε)

/-- A loop that ends when `f` wants no more. -/
def each {S ε α : Type} (f : α → Act S ε Bool) : List α → Act S ε Bool
  | [] => pure true
  | a :: l => do
    if ← f a then each f l else pure false

def orStop {S ε α : Type} (k : α → Act S ε Bool) : Option α → Act S ε Bool
  | none => pure false
  | some a => k a

/-- `Ok(true)`. -/
def isMore {ε : Type} : Except ε Bool → Bool
  | .ok more => more
  | .error _ => false

section

variable {H σ ε : Type} (blake3 : Bytes → H) (cdc : Cdc) (sink : Callback (Chunk H) σ ε)

namespace Chunker

def send (data : Bytes) : Act (Chunker σ) ε Bool := fun c =>
  let (answer, s) := sink ⟨blake3 data, data⟩ c.state
  (answer, { c with state := s })

/-- The parts are not larger than a chunk may be, so they go straight to the sink. -/
def emit (data : Bytes) : Act (Chunker σ) ε Bool :=
  if maxChunkBytes < data.length then each (send blake3 sink) (chunksOf maxChunkBytes data)
  else send blake3 sink data

def flushLit : Act (Chunker σ) ε Bool := do
  let lit := (← get).lit
  if lit = [] then pure true
  else
    modify fun c => { c with lit := [] }
    emit blake3 sink lit

def split (data : Bytes) : Act (Chunker σ) ε Bool := each (emit blake3 sink) (cdc.split data)

/-- The loop over the windows of a body; `none` if the sink wants no more. -/
def cutWindows (body : Bytes) (start : ℕ) : Act (Chunker σ) ε (Option ℕ) :=
  if _h : cdcMax ≤ body.length - start then do
    let cut := start + cdc.first (body.drop start)
    if ← emit blake3 sink (slice body start (cut - start)) then cutWindows body cut else pure none
  else pure (some start)
termination_by body.length - start
decreasing_by
  have hlen : 0 < (body.drop start).length := by
    rw [length_drop]
    unfold cdcMax at _h
    omega
  have := (cdc.first_bounds (length_pos_iff.mp hlen)).1
  unfold cdcMax at _h
  omega

/-- What is left behind the windows is cut if the body ends, and kept otherwise. -/
def endPart (body : Bytes) (last : Bool) (start : ℕ) : Act (Chunker σ) ε Bool :=
  if last = true then do
    modify fun c => { c with body := [] }
    split blake3 cdc sink (body.drop start)
  else do
    modify fun c => { c with body := body.drop start }
    pure true

def addPart (data : Bytes) (last : Bool) : Act (Chunker σ) ε Bool := do
  if (← get).body = [] ∧ last = true then split blake3 cdc sink data
  else
    modify fun c => { c with body := c.body ++ data }
    let body := (← get).body
    cutWindows blake3 cdc sink body 0 >>= orStop (endPart blake3 cdc sink body last)

def push : Piece → Act (Chunker σ) ε Bool
  | .framing b => do
    modify fun c => { c with lit := c.lit ++ b }
    if cdcMax ≤ (← get).lit.length then flushLit blake3 sink else pure true
  | .body data last => do
    if ← flushLit blake3 sink then addPart blake3 cdc sink data last else pure false

/-- What the packer calls; the answer of the last push is kept. -/
def onPiece : Callback Piece (Except ε Bool × Chunker σ) IoError := fun piece s =>
  let (more, c) := exec (push blake3 cdc sink piece) s.2
  (.ok (isMore more), more, c)

end Chunker

def chunkStorePath (reads : Path → ℕ → ℕ) (root : Node) (s : σ) : Except (ChunkError ε) Unit × σ :=
  match pack (Chunker.onPiece blake3 cdc sink) reads root (.ok true, ⟨[], [], s⟩) with
  | (.error e, _, c) => (.error (.serializing e), c.state)
  | (.ok _, .error e, c) => (.error (.sink e), c.state)
  | (.ok _, .ok false, c) => (.ok (), c.state)
  | (.ok _, .ok true, c) =>
    match exec (Chunker.flushLit blake3 sink) c with
    | (.error e, c) => (.error (.sink e), c.state)
    | (.ok _, c) => (.ok (), c.state)

/-! ### The chunks of the pieces -/

def chunkOf (data : Bytes) : Chunk H := ⟨blake3 data, data⟩

def emitted (data : Bytes) : List (Chunk H) :=
  if maxChunkBytes < data.length then (chunksOf maxChunkBytes data).map (chunkOf blake3) else [chunkOf blake3 data]

def literal (lit : Bytes) : List (Chunk H) := if lit = [] then [] else emitted blake3 lit

/-- The chunks for each piece; between pieces the literal and the rest of a body are kept. -/
def chunking : Stage Piece (Chunk H) (Bytes × Bytes) where
  out kept
    | .framing b => if cdcMax ≤ (kept.1 ++ b).length then literal blake3 (kept.1 ++ b) else []
    | .body data last => literal blake3 kept.1 ++
        if kept.2 = [] ∧ last = true then (cdc.split data).flatMap (emitted blake3)
        else (cdc.windows (kept.2 ++ data)).1.flatMap (emitted blake3) ++
          if last = true then (cdc.split (cdc.windows (kept.2 ++ data)).2).flatMap (emitted blake3) else []
  next kept
    | .framing b => (if cdcMax ≤ (kept.1 ++ b).length then [] else kept.1 ++ b, kept.2)
    | .body data last => ([], if last = true then [] else (cdc.windows (kept.2 ++ data)).2)

def Node.chunks (reads : Path → ℕ → ℕ) (root : Node) : List (Chunk H) :=
  (chunking blake3 cdc).outs ([], []) (root.pieces reads) ++
    literal blake3 ((chunking blake3 cdc).after ([], []) (root.pieces reads)).1

/-- The program hands the chunks to the sink, and keeps this much if the sink wants more. -/
structure Hands (x : Act (Chunker σ) ε Bool) (c : Chunker σ) (chunks : List (Chunk H)) (kept : Bytes × Bytes) : Prop where
  answer : (exec x c).1 = (feed sink chunks c.state).1
  state : (exec x c).2.state = (feed sink chunks c.state).2
  kept : (exec x c).1 = .ok true → ((exec x c).2.lit, (exec x c).2.body) = kept

variable {blake3 cdc sink} {x y : Act (Chunker σ) ε Bool} {c : Chunker σ} {chunks more : List (Chunk H)} {kept kept' : Bytes × Bytes}

open Chunker

theorem hands_pure (c : Chunker σ) : Hands sink (pure true) c [] (c.lit, c.body) where
  answer := rfl
  state := rfl
  kept := fun _ => rfl

theorem hands_send (data : Bytes) (c : Chunker σ) :
    Hands sink (send blake3 sink data) c [chunkOf blake3 data] (c.lit, c.body) where
  answer := by rw [feed_singleton]; rfl
  state := by rw [feed_singleton]; rfl
  kept := fun _ => rfl

theorem Hands.andThen (hx : Hands sink x c chunks kept)
    (hy : ∀ c' : Chunker σ, (c'.lit, c'.body) = kept → Hands sink y c' more kept') :
    Hands sink (do if ← x then y else pure false) c (chunks ++ more) kept' := by
  obtain ⟨hanswer, hstate, hkept⟩ := hx
  rcases hexec : exec x c with ⟨answer, c'⟩
  rcases hfeed : feed sink chunks c.state with ⟨answer', s⟩
  rw [hexec, hfeed] at hanswer hstate
  rw [hexec] at hkept
  simp only at hanswer hstate hkept
  subst hanswer hstate
  have happ := feed_append sink chunks more c.state
  rw [hfeed] at happ
  rcases answer with e | _ | _
  · have hbind : exec (do if ← x then y else pure false) c = (.error e, c') := by rw [exec_bind, hexec]
    exact ⟨by rw [hbind, happ]; rfl, by rw [hbind, happ]; rfl, by rw [hbind]; intro h; cases h⟩
  · have hbind : exec (do if ← x then y else pure false) c = (.ok false, c') := by rw [exec_bind, hexec]; rfl
    exact ⟨by rw [hbind, happ]; rfl, by rw [hbind, happ]; rfl, by rw [hbind]; intro h; cases h⟩
  · have hbind : exec (do if ← x then y else pure false) c = exec y c' := by rw [exec_bind, hexec]; rfl
    obtain ⟨hanswer, hstate, hkept'⟩ := hy c' (hkept rfl)
    exact ⟨by rw [hbind, happ]; exact hanswer, by rw [hbind, happ]; exact hstate, by rw [hbind]; exact hkept'⟩

theorem hands_each {f : Bytes → Act (Chunker σ) ε Bool} {g : Bytes → List (Chunk H)}
    (h : ∀ a c, Hands sink (f a) c (g a) (c.lit, c.body)) (l : List Bytes) (c : Chunker σ) :
    Hands sink (each f l) c (l.flatMap g) (c.lit, c.body) := by
  induction l generalizing c with
  | nil => exact hands_pure c
  | cons a l ih =>
    rw [each, flatMap_cons]
    refine (h a c).andThen fun c' hc => ?_
    rw [← hc]
    exact ih c'

theorem hands_emit (data : Bytes) (c : Chunker σ) :
    Hands sink (emit blake3 sink data) c (emitted blake3 data) (c.lit, c.body) := by
  unfold emit emitted
  split_ifs
  · rw [← flatMap_singleton' (map _ _), flatMap_map]
    exact hands_each hands_send _ c
  · exact hands_send data c

theorem Hands.of_exec {c' : Chunker σ} (hy : Hands sink y c' chunks kept) (hexec : exec x c = exec y c')
    (hstate : c.state = c'.state) : Hands sink x c chunks kept where
  answer := by rw [hexec, hstate, hy.answer]
  state := by rw [hexec, hstate, hy.state]
  kept := by rw [hexec]; exact hy.kept

theorem hands_flushLit (c : Chunker σ) :
    Hands sink (flushLit blake3 sink) c (literal blake3 c.lit) ([], c.body) := by
  have hexec : exec (flushLit blake3 sink) c = exec (if c.lit = [] then pure true else do
      modify fun c => { c with lit := [] }
      emit blake3 sink c.lit) c := rfl
  unfold literal
  split_ifs at hexec ⊢ with h
  · rw [← h]
    exact (hands_pure c).of_exec hexec rfl
  · exact (hands_emit c.lit { c with lit := [] }).of_exec hexec rfl

theorem hands_split (data : Bytes) (c : Chunker σ) : Hands sink (split blake3 cdc sink data) c
    ((cdc.split data).flatMap (emitted blake3)) (c.lit, c.body) := hands_each hands_emit _ c

theorem hands_cutWindows {k : ℕ → Act (Chunker σ) ε Bool} {body : Bytes} (start : ℕ) (c : Chunker σ)
    (hk : ∀ start' (c' : Chunker σ), body.drop start' = (cdc.windows (body.drop start)).2 →
      (c'.lit, c'.body) = (c.lit, c.body) → Hands sink (k start') c' more kept) :
    Hands sink (cutWindows blake3 cdc sink body start >>= orStop k) c
      ((cdc.windows (body.drop start)).1.flatMap (emitted blake3) ++ more) kept := by
  induction hm : body.length - start using Nat.strong_induction_on generalizing start c with
  | _ m ih =>
    rw [cutWindows]
    have hlen : (body.drop start).length = body.length - start := length_drop
    split_ifs with h
    · have hne : body.drop start ≠ [] := by
        rw [← length_pos_iff, hlen]
        exact lt_of_lt_of_le (by decide) h
      have hfirst := (cdc.first_bounds hne).1
      have hdrop : body.drop (start + cdc.first (body.drop start)) = (body.drop start).drop (cdc.first (body.drop start)) :=
        drop_drop.symm
      rw [cdc.windows_of_le hne (by rw [hlen]; exact h), flatMap_cons, append_assoc]
      simp only [slice, Nat.add_sub_cancel_left, bind_assoc]
      have hite : ∀ b : Bool, ((if b = true then
            cutWindows blake3 cdc sink body (start + cdc.first (body.drop start)) else pure none) >>= orStop k) =
          if b = true then cutWindows blake3 cdc sink body (start + cdc.first (body.drop start)) >>= orStop k
          else pure false := by
        intro b
        cases b <;> rfl
      simp only [hite]
      refine (hands_emit _ c).andThen fun c' hc => ?_
      rw [← hdrop]
      refine ih _ ?_ _ c' (fun start' c'' hstart hc'' => ?_) rfl
      · unfold cdcMax at h
        omega
      · refine hk start' c'' ?_ (hc''.trans hc)
        rw [hstart, hdrop, cdc.windows_of_le hne (by rw [hlen]; exact h)]
    · rw [cdc.windows_of_not fun hw => h (by rw [← hlen]; exact hw.2)] at hk ⊢
      exact hk start c rfl rfl

theorem hands_endPart (body : Bytes) (last : Bool) (start : ℕ) (c : Chunker σ) :
    Hands sink (endPart blake3 cdc sink body last start) c
      (if last = true then (cdc.split (body.drop start)).flatMap (emitted blake3) else [])
      (c.lit, if last = true then [] else body.drop start) := by
  unfold endPart
  split_ifs
  · exact (hands_split (body.drop start) { c with body := [] }).of_exec rfl rfl
  · exact (hands_pure { c with body := body.drop start }).of_exec rfl rfl

theorem hands_addPart (data : Bytes) (last : Bool) (c : Chunker σ) :
    Hands sink (addPart blake3 cdc sink data last) c
      (if c.body = [] ∧ last = true then (cdc.split data).flatMap (emitted blake3)
        else (cdc.windows (c.body ++ data)).1.flatMap (emitted blake3) ++
          if last = true then (cdc.split (cdc.windows (c.body ++ data)).2).flatMap (emitted blake3) else [])
      (c.lit, if last = true then [] else (cdc.windows (c.body ++ data)).2) := by
  have hexec : exec (addPart blake3 cdc sink data last) c =
      exec (if c.body = [] ∧ last = true then split blake3 cdc sink data else do
        modify fun c => { c with body := c.body ++ data }
        let body := (← get).body
        cutWindows blake3 cdc sink body 0 >>= orStop (endPart blake3 cdc sink body last)) c := rfl
  by_cases h : c.body = [] ∧ last = true
  · rw [if_pos h] at hexec
    have hsplit : Hands sink (split blake3 cdc sink data) c _ (c.lit, c.body) := hands_split data c
    rw [if_pos h, if_pos h.2]
    rw [h.1] at hsplit
    exact hsplit.of_exec hexec rfl
  · rw [if_neg h] at hexec ⊢
    refine Hands.of_exec (hands_cutWindows 0 { c with body := c.body ++ data } fun start c' hstart hc => ?_) hexec rfl
    have hend : Hands sink (endPart blake3 cdc sink (c.body ++ data) last start) c' _ _ :=
      hands_endPart (c.body ++ data) last start c'
    rw [hstart, (Prod.mk.inj hc).1] at hend
    exact hend

theorem hands_push (piece : Piece) (c : Chunker σ) : Hands sink (push blake3 cdc sink piece) c
    ((chunking blake3 cdc).out (c.lit, c.body) piece) ((chunking blake3 cdc).next (c.lit, c.body) piece) := by
  cases piece with
  | framing b =>
    have hexec : exec (push blake3 cdc sink (.framing b)) c =
        exec (if cdcMax ≤ (c.lit ++ b).length then flushLit blake3 sink else pure true)
          { c with lit := c.lit ++ b } := rfl
    simp only [chunking]
    split_ifs at hexec ⊢ with h
    · exact (hands_flushLit _).of_exec hexec rfl
    · exact (hands_pure _).of_exec hexec rfl
  | body data last =>
    refine (hands_flushLit c).andThen fun c' hc => ?_
    obtain ⟨hlit, hbody⟩ := Prod.mk.inj hc
    have hadd : Hands sink (addPart blake3 cdc sink data last) c' _ _ := hands_addPart data last c'
    rw [hlit, hbody] at hadd
    exact hadd

/-! ### The whole path -/

theorem feed_onPiece (pieces : List Piece) (c : Chunker σ) :
    ∃ c', feed (onPiece blake3 cdc sink) pieces (.ok true, c) =
        (.ok (isMore (feed sink ((chunking blake3 cdc).outs (c.lit, c.body) pieces) c.state).1),
          (feed sink ((chunking blake3 cdc).outs (c.lit, c.body) pieces) c.state).1, c') ∧
      c'.state = (feed sink ((chunking blake3 cdc).outs (c.lit, c.body) pieces) c.state).2 ∧
      ((feed sink ((chunking blake3 cdc).outs (c.lit, c.body) pieces) c.state).1 = .ok true →
        (c'.lit, c'.body) = (chunking blake3 cdc).after (c.lit, c.body) pieces) := by
  induction pieces generalizing c with
  | nil => exact ⟨c, rfl, rfl, fun _ => rfl⟩
  | cons piece pieces ih =>
    have hpush : Hands sink (push blake3 cdc sink piece) c _ _ := hands_push piece c
    obtain ⟨hanswer, hstate, hkept⟩ := hpush
    rcases hexec : exec (push blake3 cdc sink piece) c with ⟨answer, c'⟩
    rcases hfeed : feed sink ((chunking blake3 cdc).out (c.lit, c.body) piece) c.state with ⟨answer', s⟩
    rw [hexec, hfeed] at hanswer hstate
    rw [hexec] at hkept
    simp only at hanswer hstate hkept
    subst hanswer hstate
    have hpiece : onPiece blake3 cdc sink piece (.ok true, c) = (.ok (isMore answer), answer, c') := by
      simp only [onPiece, hexec]
    rw [feed, hpiece, Stage.outs, feed_append, hfeed]
    rcases answer with e | _ | _
    · exact ⟨c', rfl, rfl, fun h => by cases h⟩
    · exact ⟨c', rfl, rfl, fun h => by cases h⟩
    · have hnext := hkept rfl
      obtain ⟨c'', hrest, hstate, hafter⟩ := ih c'
      rw [hnext] at hrest hstate hafter
      exact ⟨c'', hrest, hstate, hafter⟩

def settled (answer : Except ε Bool) : Except (ChunkError ε) Unit :=
  match answer with
  | .ok _ => .ok ()
  | .error e => .error (.sink e)

theorem chunkStorePath_feed {root : Node} (h : root.WellFormed) (reads : Path → ℕ → ℕ) (s : σ) :
    chunkStorePath blake3 cdc sink reads root s =
      (settled (feed sink (root.chunks blake3 cdc reads) s).1, (feed sink (root.chunks blake3 cdc reads) s).2) := by
  have hfeed : ∃ c', feed (onPiece blake3 cdc sink) (root.pieces reads) (.ok true, ⟨[], [], s⟩) = _ ∧ _ ∧ _ :=
    feed_onPiece (root.pieces reads) ⟨[], [], s⟩
  obtain ⟨c, hfeed, hstate, hafter⟩ := hfeed
  unfold chunkStorePath Node.chunks
  rw [pack_feed h, hfeed, feed_append]
  simp only at hstate hafter ⊢
  rcases hsink : feed sink ((chunking blake3 cdc).outs ([], []) (root.pieces reads)) s with ⟨answer, s'⟩
  rw [hsink] at hstate hafter
  rcases answer with e | _ | _
  · exact Prod.ext rfl hstate
  · exact Prod.ext rfl hstate
  · have hflush : Hands sink (flushLit blake3 sink) c _ _ := hands_flushLit c
    obtain ⟨hanswer', hstate', -⟩ := hflush
    have hlit : c.lit = ((chunking blake3 cdc).after ([], []) (root.pieces reads)).1 := by rw [← hafter rfl]
    rw [hstate, hlit] at hanswer' hstate'
    simp only [Except.map, andThen]
    rw [← hanswer', ← hstate']
    rcases exec (flushLit blake3 sink) c with ⟨e | _, c'⟩ <;> rfl

end

end Tribuchet.Nar
