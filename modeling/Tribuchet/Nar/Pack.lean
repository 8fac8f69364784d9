import Mathlib.Data.List.Sort
import Tribuchet.Base.Hoare
import Tribuchet.Nar.Format

/-! The NAR serializer (`nar/pack.rs`): a walk over a file tree that hands pieces to a callback.
Framing and small files are buffered; larger bodies are streamed in parts as the operating system
returns them. A callback that answers `false` or fails stops the walk by a flag. What a walk does
is the same list of steps for every callback and every way of reading. -/

namespace Tribuchet.Nar

open ByteStrings Hoare List

/-- A file tree on disk: what the metadata says of a file and what reading it gives, and the
entries of a directory in the order in which `read_dir` lists them. -/
inductive Node
  | regular (mode size : ℕ) (contents : Bytes)
  | symlink (target : Bytes)
  | directory (listing : List (Bytes × Node))
  | special

inductive Piece
  | framing (data : Bytes)
  | body (data : Bytes) (last : Bool)
  deriving DecidableEq

def Piece.data : Piece → Bytes
  | .framing data | .body data _ => data

abbrev Path := List Bytes

inductive IoError
  | unsupported (path : Path)
  | truncated (path : Path)
  | other (text : String)

def emitChunk : ℕ := 256 * 1024

def bodyMin : ℕ := 16 * 1024

def readBuffer : ℕ := 2 ^ 20

structure Emitter (σ : Type) where
  buf : Bytes
  stopped : Bool
  err : Option IoError
  state : σ

def executable (mode : ℕ) : Bool := mode.testBit 6

def sortByName {α : Type} (entries : List (Bytes × α)) : List (Bytes × α) :=
  entries.insertionSort fun a b => key a.1 ≤ key b.1

section

variable {σ : Type} (emit : Piece → σ → Except IoError Bool × σ) (reads : Path → ℕ → ℕ)

namespace Emitter

def handOut (piece : Piece) (out : Emitter σ) : Emitter σ :=
  match emit piece out.state with
  | (.ok true, s) => { out with state := s }
  | (.ok false, s) => { out with state := s, stopped := true }
  | (.error e, s) => { out with state := s, stopped := true, err := some e }

def flush (out : Emitter σ) : Emitter σ :=
  if out.stopped = true ∨ out.buf = [] then out else { handOut emit (.framing out.buf) out with buf := [] }

def put (b : Bytes) (out : Emitter σ) : Emitter σ := { out with buf := out.buf ++ b }

def len (n : ℕ) (out : Emitter σ) : Emitter σ := out.put (toLe 8 n)

def pad (n : ℕ) (out : Emitter σ) : Emitter σ :=
  if n % 8 ≠ 0 then out.put (replicate (8 - n % 8) 0) else out

def flushFull (out : Emitter σ) : Emitter σ := if emitChunk ≤ out.buf.length then out.flush emit else out

def str (s : Bytes) (out : Emitter σ) : Emitter σ := (((out.len s.length).put s).pad s.length).flushFull emit

def word (s : String) (out : Emitter σ) : Emitter σ := out.str emit (ascii s)

def result (out : Emitter σ) : Except IoError Unit :=
  match out.err with
  | some e => .error e
  | none => .ok ()

def finish (out : Emitter σ) : Except IoError Unit × Emitter σ :=
  let out := out.flush emit
  (out.result, out)

end Emitter

/-- How many bytes the operating system returns for a read, of those that are `left` of a body: at
least one if there is one, at most as many as are asked for and there. -/
def readLen (path : Path) (left available : ℕ) : ℕ :=
  min (max 1 (reads path left)) (min (min left readBuffer) available)

/-- The loop over a body. A turn reads at least a byte, so `size` turns are enough. -/
def stream (path : Path) : ℕ → ℕ → Bytes → Act (Emitter σ) IoError Unit
  | 0, _, _ => pure ()
  | turns + 1, left, rest => do
    if left = 0 ∨ (← get).stopped = true then pure ()
    else
      let n := readLen reads path left rest.length
      if n = 0 then throw (.truncated path)
      modify (Emitter.handOut emit (.body (rest.take n) (left - n = 0)))
      stream path turns (left - n) (rest.drop n)

def file (path : Path) (size : ℕ) (contents : Bytes) : Act (Emitter σ) IoError Unit := do
  modify (Emitter.len size)
  if size < bodyMin then
    let data := contents.take size
    if data.length ≠ size then throw (.truncated path)
    modify (Emitter.put data)
    modify (Emitter.pad size)
    modify (Emitter.flushFull emit)
  else
    modify (Emitter.flush emit)
    stream emit reads path size size contents
    modify (Emitter.pad size)

/-- The loop over the sorted entries of a directory; `false` if it returns early. -/
def entries : List (Bytes × Act (Emitter σ) IoError Unit) → Act (Emitter σ) IoError Bool
  | [] => pure true
  | (name, child) :: rest => do
    if (← get).stopped = true then pure false
    else
      modify (Emitter.word emit "entry")
      modify (Emitter.word emit "(")
      modify (Emitter.word emit "name")
      modify (Emitter.str emit name)
      modify (Emitter.word emit "node")
      child
      modify (Emitter.word emit ")")
      entries rest

def markExecutable (mode : ℕ) : Act (Emitter σ) IoError Unit :=
  if executable mode then do
    modify (Emitter.word emit "executable")
    modify (Emitter.word emit "")
  else pure ()

mutual
def node (path : Path) : Node → Act (Emitter σ) IoError Unit
  | .directory listing => do
    modify (Emitter.word emit "(")
    modify (Emitter.word emit "type")
    modify (Emitter.word emit "directory")
    if ← entries emit (sortByName (children path listing)) then modify (Emitter.word emit ")")
  | .symlink target => do
    modify (Emitter.word emit "(")
    modify (Emitter.word emit "type")
    modify (Emitter.word emit "symlink")
    modify (Emitter.word emit "target")
    modify (Emitter.str emit target)
    modify (Emitter.word emit ")")
  | .special => do
    modify (Emitter.word emit "(")
    modify (Emitter.word emit "type")
    throw (.unsupported path)
  | .regular mode size contents => do
    modify (Emitter.word emit "(")
    modify (Emitter.word emit "type")
    modify (Emitter.word emit "regular")
    markExecutable emit mode
    modify (Emitter.word emit "contents")
    file emit reads path size contents
    modify (Emitter.word emit ")")
/-- The entries of a directory with what is to be done for each. -/
def children (path : Path) : List (Bytes × Node) → List (Bytes × Act (Emitter σ) IoError Unit)
  | [] => []
  | (name, n) :: listing => (name, node (path ++ [name]) n) :: children path listing
end

def pack (root : Node) (s : σ) : Except IoError Unit × σ :=
  let walk := do
    modify (Emitter.word emit "nix-archive-1")
    node emit reads [] root
  match exec walk ⟨[], false, none, s⟩ with
  | (.error e, out) => (.error e, out.state)
  | (.ok _, out) => ((out.finish emit).1, (out.finish emit).2.state)

end

/-! ### Trees -/

mutual
def Node.tree : Node → Tree
  | .regular mode size contents => .regular (executable mode) (contents.take size)
  | .symlink target => .symlink target
  | .directory listing => .directory (sortByName (trees listing))
  | .special => .directory []
def trees : List (Bytes × Node) → List (Bytes × Tree)
  | [] => []
  | (name, n) :: listing => (name, n.tree) :: trees listing
end

mutual
/-- Regular files, symlinks and directories only, whose entries have distinct names that are not
empty. Files are as long as their metadata says, and lengths fit a `u64`. -/
def Node.WellFormed : Node → Prop
  | .regular _ size contents => contents.length = size ∧ size < 2 ^ 64
  | .symlink target => target.length < 2 ^ 64
  | .directory listing => WellFormedListing listing ∧ (listing.map Prod.fst).Nodup
  | .special => False
def WellFormedListing : List (Bytes × Node) → Prop
  | [] => True
  | (name, n) :: listing => (name ≠ [] ∧ name.length < 2 ^ 64) ∧ n.WellFormed ∧ WellFormedListing listing
end

open Emitter

theorem trees_eq (listing : List (Bytes × Node)) : trees listing = listing.map fun e => (e.1, e.2.tree) := by
  induction listing with
  | nil => rfl
  | cons e listing ih => rw [trees, ih, map_cons]

theorem wellFormedListing_iff {listing : List (Bytes × Node)} : WellFormedListing listing ↔
    ∀ e ∈ listing, (e.1 ≠ [] ∧ e.1.length < 2 ^ 64) ∧ e.2.WellFormed := by
  induction listing with
  | nil => simp [WellFormedListing]
  | cons e listing ih =>
    rw [WellFormedListing, ih, forall_mem_cons]
    simp only [and_assoc]

theorem sortByName_map {α β : Type} (f : Bytes → α → β) (l : List (Bytes × α)) :
    sortByName (l.map fun e => (e.1, f e.1 e.2)) = (sortByName l).map fun e => (e.1, f e.1 e.2) := by
  have h := map_insertionSort (fun a b : Bytes × α => key a.1 ≤ key b.1) (fun a b : Bytes × β => key a.1 ≤ key b.1)
    (fun e => (e.1, f e.1 e.2)) l fun _ _ _ _ => Iff.rfl
  exact h.symm

/-! ### Steps -/

inductive Step
  | put (b : Bytes)
  | flushFull
  | flush
  | body (path : Path) (data : Bytes)

def strSteps (s : Bytes) : List Step := [.put (str s), .flushFull]

def wordSteps (s : String) : List Step := strSteps (ascii s)

def fileSteps (path : Path) (contents : Bytes) : List Step :=
  if contents.length < bodyMin then [.put (str contents), .flushFull]
  else [.put (toLe 8 contents.length), .body path contents, .put (padding contents.length)]

def entriesSteps : List (Bytes × List Step) → List Step
  | [] => []
  | (name, child) :: rest => wordSteps "entry" ++ (wordSteps "(" ++ (wordSteps "name" ++ (strSteps name ++
      (wordSteps "node" ++ (child ++ (wordSteps ")" ++ entriesSteps rest))))))

mutual
def Node.steps (path : Path) : Node → List Step
  | .regular mode size contents => wordSteps "(" ++ (wordSteps "type" ++ (wordSteps "regular" ++
      ((if executable mode then wordSteps "executable" ++ wordSteps "" else []) ++
        (wordSteps "contents" ++ (fileSteps path (contents.take size) ++ wordSteps ")")))))
  | .symlink target => wordSteps "(" ++ (wordSteps "type" ++ (wordSteps "symlink" ++ (wordSteps "target" ++
      (strSteps target ++ wordSteps ")"))))
  | .directory listing => wordSteps "(" ++ (wordSteps "type" ++ (wordSteps "directory" ++
      (entriesSteps (sortByName (childrenSteps path listing)) ++ wordSteps ")")))
  | .special => []
def childrenSteps (path : Path) : List (Bytes × Node) → List (Bytes × List Step)
  | [] => []
  | (name, n) :: listing => (name, n.steps (path ++ [name])) :: childrenSteps path listing
end

def Node.walk (root : Node) : List Step := wordSteps "nix-archive-1" ++ (root.steps [] ++ [.flush])

def parts (reads : Path → ℕ → ℕ) (path : Path) : ℕ → Bytes → List Bytes
  | 0, _ => []
  | turns + 1, rest =>
    if rest = [] then []
    else rest.take (readLen reads path rest.length rest.length) ::
      parts reads path turns (rest.drop (readLen reads path rest.length rest.length))

section

variable {σ : Type} (emit : Piece → σ → Except IoError Bool × σ) (reads : Path → ℕ → ℕ)

def Emitter.handOutBody : List Bytes → Emitter σ → Emitter σ
  | [], out => out
  | part :: rest, out =>
    if out.stopped = true then out
    else handOutBody rest (out.handOut emit (.body part (rest = [])))

def Step.run (out : Emitter σ) : Step → Emitter σ
  | .put b => out.put b
  | .flushFull => out.flushFull emit
  | .flush => out.flush emit
  | .body path data => (out.flush emit).handOutBody emit (parts reads path data.length data)

def Emitter.run (steps : List Step) (out : Emitter σ) : Emitter σ := steps.foldl (Step.run emit reads) out

end

section

variable {σ : Type} {emit : Piece → σ → Except IoError Bool × σ} {reads : Path → ℕ → ℕ} {out a b : Emitter σ}

/-- No difference that anybody sees: once the walk has stopped the buffer is not read. -/
def Sees (a b : Emitter σ) : Prop := a = b ∨ a.stopped = true ∧ b.stopped = true ∧ a.state = b.state ∧ a.err = b.err

theorem Sees.symm (h : Sees a b) : Sees b a := by
  rcases h with rfl | ⟨ha, hb, hs, he⟩
  · exact .inl rfl
  · exact .inr ⟨hb, ha, hs.symm, he.symm⟩

theorem Sees.trans {c : Emitter σ} (h : Sees a b) (h' : Sees b c) : Sees a c := by
  rcases h with rfl | ⟨ha, hb, hs, he⟩
  · exact h'
  · rcases h' with rfl | ⟨-, hc, hs', he'⟩
    · exact .inr ⟨ha, hb, hs, he⟩
    · exact .inr ⟨ha, hc, hs.trans hs', he.trans he'⟩

variable (h : out.stopped = true)

include h

theorem Emitter.flush_of_stopped : out.flush emit = out := if_pos (.inl h)

theorem Step.run_of_stopped (s : Step) : Sees out (s.run emit reads out) := by
  cases s with
  | put b => exact .inr ⟨h, h, rfl, rfl⟩
  | flushFull =>
    left
    simp only [Step.run, Emitter.flushFull, Emitter.flush_of_stopped h, ite_self]
  | flush => exact .inl (Emitter.flush_of_stopped h).symm
  | body path data =>
    left
    simp only [Step.run, flush_of_stopped h]
    cases parts reads path data.length data with
    | nil => rfl
    | cons part rest => exact (if_pos h).symm

theorem Emitter.run_of_stopped (steps : List Step) : Sees out (out.run emit reads steps) := by
  induction steps generalizing out with
  | nil => exact .inl rfl
  | cons s steps ih =>
    have hs : Sees out (s.run emit reads out) := Step.run_of_stopped h s
    have hstopped : (s.run emit reads out).stopped = true := by
      rcases hs with heq | hs
      · rw [← heq]
        exact h
      · exact hs.2.1
    exact hs.trans (ih hstopped)

omit h

theorem Emitter.run_append (s t : List Step) : out.run emit reads (s ++ t) = (out.run emit reads s).run emit reads t :=
  foldl_append

theorem Sees.run (h : Sees a b) (steps : List Step) : Sees (a.run emit reads steps) (b.run emit reads steps) := by
  rcases h with rfl | ⟨ha, hb, hs, he⟩
  · exact .inl rfl
  · have hrun : Sees a (a.run emit reads steps) := run_of_stopped ha steps
    exact (hrun.symm.trans (.inr ⟨ha, hb, hs, he⟩)).trans (run_of_stopped hb steps)

variable (emit reads) in
def Does (x : Act (Emitter σ) IoError Unit) (steps : List Step) : Prop :=
  ∀ out, Ends x out (fun _ out' => Sees out' (out.run emit reads steps)) fun _ _ => False

variable {x y : Act (Emitter σ) IoError Unit} {s t : List Step}

theorem Does.bind (hx : Does emit reads x s) (hy : Does emit reads y t) : Does emit reads (do x; y) (s ++ t) := by
  intro out
  refine (hx out).bind fun _ out' hs => (hy out').imp fun _ out'' ht => ?_
  rw [run_append]
  exact ht.trans (hs.run t)

theorem Emitter.pad_eq (n : ℕ) (out : Emitter σ) : out.pad n = out.put (padding n) := by
  unfold pad padding
  split_ifs with hn
  · rw [Nat.mod_eq_of_lt (by omega : 8 - n % 8 < 8)]
  · have hz : n % 8 = 0 := by omega
    simp [hz, put]

theorem does_str (s : Bytes) : Does emit reads (modify (Emitter.str emit s)) (strSteps s) := by
  intro out
  refine ends_modify (.inl ?_)
  simp only [Emitter.str, Emitter.pad_eq, Emitter.len, Emitter.put, strSteps, str, Emitter.run, foldl_cons,
    foldl_nil, Step.run, append_assoc]

theorem does_word (s : String) : Does emit reads (modify (Emitter.word emit s)) (wordSteps s) := does_str (ascii s)

variable (reads) in
theorem readLen_pos (path : Path) {n : ℕ} (hn : 0 < n) : 0 < readLen reads path n n ∧ readLen reads path n n ≤ n := by
  unfold readLen readBuffer
  omega

theorem parts_eq_nil {path : Path} {turns : ℕ} {rest : Bytes} (h : rest.length ≤ turns) :
    parts reads path turns rest = [] ↔ rest = [] := by
  cases turns with
  | zero => simp [parts, length_eq_zero_iff.mp (Nat.le_zero.mp h)]
  | succ turns =>
    rw [parts]
    split_ifs with hr
    · simp [hr]
    · simp [hr]

theorem ends_stream (path : Path) (turns : ℕ) (rest : Bytes) (h : rest.length ≤ turns) (out : Emitter σ) :
    Ends (stream emit reads path turns rest.length rest) out
      (fun _ out' => out' = out.handOutBody emit (parts reads path turns rest)) fun _ _ => False := by
  induction turns generalizing rest out with
  | zero => exact ends_pure rfl
  | succ turns ih =>
    unfold stream parts
    apply ends_get_bind
    by_cases hr : rest = []
    · simp only [hr, length_nil, true_or, if_true]
      exact ends_pure rfl
    · have hlen : 0 < rest.length := length_pos_iff.mpr hr
      obtain ⟨hpos, hle⟩ := readLen_pos reads path hlen
      set n := readLen reads path rest.length rest.length with hn
      have hdrop : rest.length - n = (rest.drop n).length := by rw [length_drop]
      rw [if_neg hr]
      by_cases hs : out.stopped = true
      · rw [if_pos (.inr hs)]
        exact ends_pure (if_pos hs).symm
      · rw [if_neg (by simp only [not_or]; exact ⟨by omega, hs⟩), if_neg (by omega)]
        apply ends_modify_bind
        have hlast : decide ((rest.drop n).length = 0) = decide (parts reads path turns (rest.drop n) = []) := by
          rw [decide_eq_decide, parts_eq_nil (by rw [← hdrop]; omega), length_eq_zero_iff]
        simp only [hdrop, hlast, handOutBody, hs, if_false, Bool.false_eq_true]
        exact ih (rest.drop n) (by rw [← hdrop]; omega) _

theorem does_file (path : Path) {size : ℕ} {contents : Bytes} (h : contents.length = size) :
    Does emit reads (file emit reads path size contents) (fileSteps path contents) := by
  subst h
  intro out
  unfold file fileSteps
  apply ends_modify_bind
  by_cases hs : contents.length < bodyMin
  · rw [if_pos hs, if_pos hs, take_length, if_neg (fun hne => hne rfl)]
    apply ends_modify_bind
    apply ends_modify_bind
    refine ends_modify (.inl ?_)
    simp only [pad_eq, len, put, str, run, foldl_cons, foldl_nil, Step.run,
      append_assoc]
  · rw [if_neg hs, if_neg hs]
    apply ends_modify_bind
    refine (ends_stream path contents.length contents le_rfl _).bind ?_
    rintro _ out' rfl
    refine ends_modify (.inl ?_)
    simp only [Emitter.pad_eq, Emitter.len, Emitter.run, foldl_cons, foldl_nil, Step.run]

theorem does_markExecutable (mode : ℕ) : Does emit reads (markExecutable emit mode)
    (if executable mode then wordSteps "executable" ++ wordSteps "" else []) := by
  unfold markExecutable
  split_ifs
  · exact (does_word "executable").bind (does_word "")
  · exact fun out => ends_pure (.inl rfl)

theorem does_entries (es : List (Bytes × Act (Emitter σ) IoError Unit × List Step))
    (h : ∀ e ∈ es, Does emit reads e.2.1 e.2.2) (out : Emitter σ) :
    Ends (entries emit (es.map fun e => (e.1, e.2.1))) out
      (fun r out' => Sees out' (out.run emit reads (entriesSteps (es.map fun e => (e.1, e.2.2)))) ∧
        (r = false → out'.stopped = true)) fun _ _ => False := by
  induction es generalizing out with
  | nil => exact ends_pure ⟨.inl rfl, nofun⟩
  | cons e es ih =>
    obtain ⟨name, child, steps⟩ := e
    rw [forall_mem_cons] at h
    rw [map_cons, map_cons, entries, entriesSteps]
    apply ends_get_bind
    by_cases hs : out.stopped = true
    · rw [if_pos hs]
      exact ends_pure ⟨run_of_stopped hs _, fun _ => hs⟩
    · rw [if_neg hs]
      -- one step list after the other, with the rest of the loop last
      have hnext : ∀ {s t : List Step} {α : Type} {x : Act (Emitter σ) IoError Unit} {k : Act (Emitter σ) IoError α}
          {Q : α → Emitter σ → Prop}, Does emit reads x s →
          (∀ out, Ends k out (fun r out' => Sees out' (out.run emit reads t) ∧ Q r out') fun _ _ => False) →
          ∀ out, Ends (do x; k) out (fun r out' => Sees out' (out.run emit reads (s ++ t)) ∧ Q r out') fun _ _ => False := by
        intro s t α x k Q hx hk out
        refine (hx out).bind fun _ out' hs => (hk out').imp fun r out'' ht => ⟨?_, ht.2⟩
        rw [Emitter.run_append]
        exact ht.1.trans (hs.run t)
      exact hnext (does_word "entry") (hnext (does_word "(") (hnext (does_word "name") (hnext (does_str name)
        (hnext (does_word "node") (hnext h.1 (hnext (does_word ")") (ih h.2))))))) out

theorem children_eq (path : Path) (listing : List (Bytes × Node)) :
    children emit reads path listing = listing.map fun e => (e.1, node emit reads (path ++ [e.1]) e.2) := by
  induction listing with
  | nil => rfl
  | cons e listing ih => rw [children, ih, map_cons]

theorem childrenSteps_eq (path : Path) (listing : List (Bytes × Node)) :
    childrenSteps path listing = listing.map fun e => (e.1, e.2.steps (path ++ [e.1])) := by
  induction listing with
  | nil => rfl
  | cons e listing ih => rw [childrenSteps, ih, map_cons]

mutual
theorem does_node : ∀ (n : Node) (path : Path), n.WellFormed → Does emit reads (node emit reads path n) (n.steps path)
  | .regular mode size contents, path, h => by
    obtain ⟨rfl, -⟩ := h
    rw [Node.steps, node, take_length]
    exact (does_word "(").bind ((does_word "type").bind ((does_word "regular").bind ((does_markExecutable mode).bind
      ((does_word "contents").bind ((does_file path rfl).bind (does_word ")"))))))
  | .symlink target, path, _ => by
    rw [Node.steps, node]
    exact (does_word "(").bind ((does_word "type").bind ((does_word "symlink").bind ((does_word "target").bind
      ((does_str target).bind (does_word ")")))))
  | .directory listing, path, h => by
    have hall := does_listing listing path h.1
    rw [Node.steps, node]
    refine (does_word "(").bind ((does_word "type").bind ((does_word "directory").bind fun out => ?_))
    rw [children_eq, childrenSteps_eq, sortByName_map fun name n => node emit reads (path ++ [name]) n,
      sortByName_map fun name n => Node.steps (path ++ [name]) n]
    have hsorted : ∀ e ∈ (sortByName listing).map fun e =>
        (e.1, node emit reads (path ++ [e.1]) e.2, e.2.steps (path ++ [e.1])), Does emit reads e.2.1 e.2.2 := by
      intro e he
      obtain ⟨e', he', rfl⟩ := mem_map.mp he
      exact hall e' ((perm_insertionSort _ _).mem_iff.mp he')
    have hentries := does_entries _ hsorted out
    simp only [map_map, Function.comp_def] at hentries
    refine hentries.bind fun r out' hr => ?_
    rw [Emitter.run_append]
    cases r with
    | true => exact ((does_word ")") out').imp fun _ out'' ht => ht.trans (hr.1.run _)
    | false => exact ends_pure ((Emitter.run_of_stopped (hr.2 rfl) _).trans (hr.1.run _))
  | .special, _, h => h.elim
theorem does_listing : ∀ (listing : List (Bytes × Node)) (path : Path), WellFormedListing listing →
    ∀ e ∈ listing, Does emit reads (node emit reads (path ++ [e.1]) e.2) (e.2.steps (path ++ [e.1]))
  | [], _, _ => nofun
  | (name, n) :: listing, path, h => by
    have hn := does_node n (path ++ [name]) h.2.1
    have hl := does_listing listing path h.2.2
    exact forall_mem_cons.mpr ⟨hn, hl⟩
end

theorem Sees.result_state (h : Sees a b) : a.result = b.result ∧ a.state = b.state := by
  rcases h with rfl | ⟨-, -, hs, he⟩
  · exact ⟨rfl, rfl⟩
  · exact ⟨by rw [result, he, result], hs⟩

theorem pack_eq {root : Node} (h : root.WellFormed) (s : σ) :
    pack emit reads root s = ((run emit reads root.walk ⟨[], false, none, s⟩).result,
      (run emit reads root.walk ⟨[], false, none, s⟩).state) := by
  have hdoes : Does emit reads (do modify (Emitter.word emit "nix-archive-1"); node emit reads [] root)
      (wordSteps "nix-archive-1" ++ root.steps []) := (does_word "nix-archive-1").bind (does_node root [] h)
  have hends := hdoes ⟨[], false, none, s⟩
  unfold Ends at hends
  unfold pack
  simp only
  split at hends
  · rename_i out hx
    rw [hx]
    have hsees : Sees (out.run emit reads [.flush]) (run emit reads root.walk ⟨[], false, none, s⟩) := by
      rw [Node.walk, ← append_assoc, run_append]
      exact hends.run [.flush]
    obtain ⟨hresult, hstate⟩ := hsees.result_state
    rw [← hresult, ← hstate]
    rfl
  · exact hends.elim

end

end Tribuchet.Nar
