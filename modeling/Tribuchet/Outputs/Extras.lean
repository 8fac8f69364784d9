import Mathlib.Algebra.BigOperators.Group.Finset.Basic
import Tribuchet.Base.Bytes
import Tribuchet.Base.DepthFirst
import Tribuchet.Base.Hoare
import Tribuchet.Base.Table

/-! The store paths a recursive-nix build adds to its result (`pack_extras` and `extra_closure` in
`worker/build/outputs.rs`, `topo_order` in `store.rs`). Vectors that are popped are lists with the
last element first; the loops take fuel and return `none` if it runs out. The daemon is asked for a
path at most once, so its answers are a function. Packing one path is a parameter, and so is the
order in which a hash map is walked. -/

namespace Tribuchet.Outputs.Extras

open ByteStrings DepthFirst Hoare Relation List Table AList

/-! ### `topo_order` -/

section TopoOrder

variable {K : Type} [DecidableEq K] (refsOf : K → List K)

/-- The loop over `refs_of(&k)`. -/
def push (seen : Finset K) (stack : List (K × Bool)) (refs : List K) : List (K × Bool) :=
  refs.foldl (fun stack r => if r ∉ seen then (r, false) :: stack else stack) stack

def drain : ℕ → List (K × Bool) → Finset K → List K → Option (Finset K × List K)
  | _, [], seen, order => some (seen, order)
  | 0, _ :: _, _, _ => none
  | fuel + 1, (k, emit) :: stack, seen, order =>
    if emit then drain fuel stack seen (order ++ [k])
    else if k ∉ seen then
      drain fuel (push (insert k seen) ((k, true) :: stack) (refsOf k)) (insert k seen) order
    else drain fuel stack seen order

def visitRoots (fuel : ℕ) : List K → Finset K → List K → Option (Finset K × List K)
  | [], seen, order => some (seen, order)
  | root :: roots, seen, order =>
    (drain refsOf fuel [(root, false)] seen order).bind fun (seen, order) => visitRoots fuel roots seen order

def topoOrder (fuel : ℕ) (roots : List K) : Option (List K) := (visitRoots refsOf fuel roots ∅ []).map Prod.snd

def next (seen : Finset K) (k : K) : List K := ((refsOf k).filter (· ∉ seen)).reverse

theorem follows_next : Follows (fun k r => r ∈ refsOf k) (next refsOf) where
  sound h := by
    simp only [next, mem_reverse, mem_filter] at h
    exact h.1
  complete {seen k r} h := by
    by_cases hr : r ∈ seen
    · exact .inl hr
    · exact .inr (by simp [next, h, hr])

variable {refsOf}

theorem push_eq (seen : Finset K) (stack : List (K × Bool)) (refs : List K) :
    push seen stack refs = (refs.filter (· ∉ seen)).reverse.map (·, false) ++ stack := by
  induction refs generalizing stack with
  | nil => rfl
  | cons r refs ih =>
    rw [push, foldl_cons, ← push, ih]
    by_cases hr : r ∈ seen <;> simp [hr]

theorem drain_walk {seen : Finset K} {todo out : List K} (h : Walk (next refsOf) seen todo out) :
    ∃ n, ∀ fuel stack order, drain refsOf (n + fuel) (todo.map (·, false) ++ stack) seen order =
      drain refsOf fuel stack (seen ∪ out.toFinset) (order ++ out) := by
  induction h with
  | nil => exact ⟨0, by simp⟩
  | skip hk rest ih =>
    obtain ⟨n, hn⟩ := ih
    refine ⟨n + 1, fun fuel stack order => ?_⟩
    rw [Nat.add_right_comm, map_cons, cons_append, drain, ← hn]
    simp [hk]
  | @enter seen k todo below after hk inner rest ihi ihr =>
    obtain ⟨n, hn⟩ := ihi
    obtain ⟨m, hm⟩ := ihr
    refine ⟨n + 1 + m + 1, fun fuel stack order => ?_⟩
    have hfuel : n + 1 + m + 1 + fuel = (n + ((m + fuel) + 1)) + 1 := by omega
    calc drain refsOf (n + 1 + m + 1 + fuel) ((k :: todo).map (·, false) ++ stack) seen order
        = drain refsOf (n + ((m + fuel) + 1)) (push (insert k seen) ((k, true) :: (todo.map (·, false) ++ stack)) (refsOf k))
            (insert k seen) order := by
          rw [hfuel, map_cons, cons_append, drain]
          simp [hk]
      _ = drain refsOf ((m + fuel) + 1) ((k, true) :: (todo.map (·, false) ++ stack)) (insert k seen ∪ below.toFinset)
            (order ++ below) := by
          rw [push_eq, ← hn]
          rfl
      _ = drain refsOf (m + fuel) (todo.map (·, false) ++ stack) (insert k seen ∪ below.toFinset) (order ++ below ++ [k]) := by
          rw [drain]
          simp
      _ = drain refsOf fuel stack (seen ∪ (below ++ k :: after).toFinset) (order ++ (below ++ k :: after)) := by
          rw [hm, union_listed]
          simp

theorem visitRoots_walk {nodes : Finset K} (hclosed : ∀ k ∈ nodes, ∀ r ∈ refsOf k, r ∈ nodes) {roots : List K}
    (hroots : ∀ k ∈ roots, k ∈ nodes) (seen : Finset K) (order : List K) :
    ∃ out n, Walk (next refsOf) seen roots out ∧
      ∀ fuel ≥ n, visitRoots refsOf fuel roots seen order = some (seen ∪ out.toFinset, order ++ out) := by
  induction roots generalizing seen order with
  | nil => exact ⟨[], 0, .nil, by simp [visitRoots]⟩
  | cons root roots ih =>
    have hnodes := forall_mem_cons.mp hroots
    obtain ⟨out, hout⟩ := exists_walk (follows_next refsOf) hclosed seen [root] (by simpa using hnodes.1)
    obtain ⟨n, hn⟩ := drain_walk hout
    obtain ⟨rest, m, hrest, hm⟩ := ih hnodes.2 (seen ∪ out.toFinset) (order ++ out)
    refine ⟨out ++ rest, n + m, hout.append hrest, fun fuel hfuel => ?_⟩
    have hdrain : drain refsOf fuel [(root, false)] seen order = some (seen ∪ out.toFinset, order ++ out) := by
      obtain ⟨d, rfl⟩ := Nat.exists_eq_add_of_le (Nat.le_of_add_right_le hfuel)
      simpa [drain] using hn d [] order
    rw [visitRoots, hdrain, Option.bind_some]
    simp [hm fuel (by omega), Finset.union_assoc]

theorem topoOrder_walk {nodes : Finset K} (hclosed : ∀ k ∈ nodes, ∀ r ∈ refsOf k, r ∈ nodes) {roots : List K}
    (hroots : ∀ k ∈ roots, k ∈ nodes) :
    ∃ out n, Walk (next refsOf) ∅ roots out ∧ ∀ fuel ≥ n, topoOrder refsOf fuel roots = some out := by
  obtain ⟨out, n, hwalk, hn⟩ := visitRoots_walk hclosed hroots ∅ []
  exact ⟨out, n, hwalk, fun fuel hfuel => by simp [topoOrder, hn fuel hfuel]⟩

end TopoOrder

/-! ### `pack_extras` -/

structure Names (P : Type) where
  /-- `StorePath::from_base_path` of the last component -/
  parse : String → Except (List String) P
  /-- `to_absolute_path` -/
  absolute : P → String
  parse_absolute : ∀ p, parse (absolute p) = .ok p

/-- The fields of an `UnkeyedValidPathInfo` that are read. -/
structure PathInfo (P : Type) where
  references : List P
  narHash : Bytes
  narSize : ℕ
  signatures : List String
  deriver : Option P
  ca : Option String

/-- The answers of the local nix-daemon. An error is the chain of its messages. -/
structure Daemon (P : Type) where
  connect : Except (List String) Unit
  addTempRoot : P → Except (List String) Unit
  queryPathInfo : P → Except (List String) (Option (PathInfo P))

structure PackedExtra (C : Type) where
  path : String
  framesFile : String
  chunks : List C
  narSha256 : Bytes
  narSize : ℕ
  references : List String
  sigs : List String
  deriver : String
  ca : String

inductive Stop
  | error (chain : List String)
  | panic
  deriving DecidableEq

def errCtx {α : Type} (msg : String) : Except (List String) α → Except Stop α
  | .ok a => .ok a
  | .error chain => .error (.error (msg :: chain))

abbrev Infos (P : Type) := AList fun _ : String => PathInfo P

variable {P C : Type}

/-- What is outside of the function: names, the daemon, the walk of a hash map and the packing of a
path into a frames file with the candidates of the reference scan. -/
structure Host (P C : Type) where
  names : Names P
  daemon : Daemon P
  walk : List String → List String
  walk_perm : ∀ keys, (walk keys).Perm keys
  packOneNar : String → String → Finset P → P → Except (List String) (List C)

def storeBase (path : String) : String := ((path.splitOn "/").getLast?).getD path

section Pack

variable (host : Host P C)

/-- The body of the loop in `extra_closure` up to the references. -/
def fetch (path : String) : Except Stop (PathInfo P) := do
  let sp ← errCtx s!"parsing extra path {path}" (host.names.parse path)
  errCtx s!"temp-rooting {path}" (host.daemon.addTempRoot sp)
  match ← errCtx s!"queryPathInfo {path}" (host.daemon.queryPathInfo sp) with
  | none => throw (.error [s!"extra {path} vanished from store"])
  | some info => pure info

/-- The loop over `info.references`. -/
def pushUnknown (known queue : List String) (references : List P) : List String :=
  references.foldl (fun queue r => if host.names.absolute r ∉ known then host.names.absolute r :: queue else queue) queue

def closureLoop (known : List String) : ℕ → List String → Infos P → Option (Except Stop (Infos P))
  | _, [], infos => some (.ok infos)
  | 0, _ :: _, _ => none
  | fuel + 1, path :: queue, infos =>
    if path ∈ infos then closureLoop known fuel queue infos
    else
      match fetch host path with
      | .error e => some (.error e)
      | .ok info => closureLoop known fuel (pushUnknown host known queue info.references) (infos.insert path info)

def extraClosure (fuel : ℕ) (queue known : List String) : Option (Except Stop (Infos P)) :=
  match errCtx "connecting to the local nix-daemon" host.daemon.connect with
  | .error e => some (.error e)
  | .ok () => closureLoop host known fuel queue.reverse ∅

/-- The edges `topo_order` is given. A path that is no key is a panic of the source. -/
def refsWithin (infos : Infos P) (path : String) : List String :=
  match infos.lookup path with
  | none => []
  | some info => (info.references.map host.names.absolute).filter (· ∈ infos)

def packExtra [DecidableEq P] (dir path : String) (info : PathInfo P) : Except Stop (PackedExtra C) := do
  let sp ← (host.names.parse path).mapError .error
  let framesFile := dir ++ "/" ++ s!"extra-{storeBase path}.frames"
  let chunks ← errCtx s!"packing extra {path}"
    (host.packOneNar path framesFile (insert sp info.references.toFinset) sp)
  pure { path, framesFile, chunks
         narSha256 := info.narHash
         narSize := info.narSize
         references := info.references.map host.names.absolute
         sigs := info.signatures
         deriver := (info.deriver.map host.names.absolute).getD ""
         ca := info.ca.getD "" }

/-- The loop over `ordered`. -/
def packOrdered [DecidableEq P] (dir : String) : Infos P → List String → Except Stop (List (PackedExtra C))
  | _, [] => .ok []
  | infos, path :: ordered =>
    match infos.lookup path with
    | none => .error .panic
    | some info => do
      let extra ← packExtra host dir path info
      let out ← packOrdered dir (infos.erase path) ordered
      pure (extra :: out)

/-- `pack_extras` once it has its queue. -/
def packQueue [DecidableEq P] (fuel : ℕ) (dir : String) (queue known : List String) :
    Option (Except Stop (List (PackedExtra C))) :=
  if queue.isEmpty then some (.ok [])
  else
    match extraClosure host fuel queue known with
    | none => none
    | some (.error e) => some (.error e)
    | some (.ok infos) =>
      (topoOrder (refsWithin host infos) fuel (host.walk infos.keys)).map (packOrdered host dir infos)

/-- The references of the outputs that are neither inputs nor outputs. -/
def unknown (outputs : List (List String)) (known : List String) : List String := outputs.flatten.filter (· ∉ known)

/-- `outputs` are the references of the packed outputs. -/
def packExtras [DecidableEq P] (fuel : ℕ) (dir : String) (outputs : List (List String))
    (storeInputs specOutputs : List String) : Option (Except Stop (List (PackedExtra C))) :=
  let known := storeInputs ++ specOutputs
  packQueue host fuel dir (unknown outputs known) known

/-! ### The closure -/

def Daemon.Refers (d : Daemon P) (p q : P) : Prop := ∃ info, d.queryPathInfo p = .ok (some info) ∧ q ∈ info.references

/-- There are no cycles, other than paths that refer to themselves. -/
def Daemon.Acyclic (d : Daemon P) : Prop := ∀ p q, ReflTransGen d.Refers p q → ReflTransGen d.Refers q p → p = q

/-- The store path named `x` refers to the one named `r`. -/
def Host.Refers (x r : String) : Prop :=
  ∃ p q, host.names.parse x = .ok p ∧ host.daemon.Refers p q ∧ host.names.absolute q = r

/-- A path on a chain of unknown paths from one of `start`. -/
def Needed (known start : List String) (x : String) : Prop :=
  ∃ s ∈ start, ReflTransGen (fun y r => host.Refers y r ∧ r ∉ known) s x

variable {host}

theorem errCtx_eq_ok {α : Type} {msg : String} {x : Except (List String) α} {a : α} : errCtx msg x = .ok a ↔ x = .ok a := by
  cases x <;> simp [errCtx]

variable {x : String} {info : PathInfo P}

theorem fetch_eq_ok : fetch host x = .ok info ↔ ∃ p, host.names.parse x = .ok p ∧ host.daemon.addTempRoot p = .ok () ∧
      host.daemon.queryPathInfo p = .ok (some info) := by
  simp only [fetch, bind_eq_ok, errCtx_eq_ok]
  constructor
  · rintro ⟨p, hparse, ⟨⟩, hroot, answer, hquery, h⟩
    cases answer with
    | none => cases h
    | some info' =>
      cases h
      exact ⟨p, hparse, hroot, hquery⟩
  · rintro ⟨p, hparse, hroot, hquery⟩
    exact ⟨p, hparse, (), hroot, some info, hquery, rfl⟩

theorem refers_of_fetch {r : String} (h : fetch host x = .ok info) :
    host.Refers x r ↔ r ∈ info.references.map host.names.absolute := by
  obtain ⟨p, hparse, -, hquery⟩ := fetch_eq_ok.mp h
  simp [Host.Refers, Daemon.Refers, hparse, hquery]

variable {known : List String}

theorem mem_pushUnknown {queue : List String} {references : List P} : x ∈ pushUnknown host known queue references ↔
      x ∈ queue ∨ (x ∈ references.map host.names.absolute ∧ x ∉ known) := by
  induction references generalizing queue with
  | nil => simp [pushUnknown]
  | cons r references ih =>
    rw [pushUnknown, foldl_cons, ← pushUnknown, ih]
    by_cases hr : host.names.absolute r ∈ known
    · simp only [hr, not_true_eq_false, if_false, map_cons, mem_cons]
      constructor
      · tauto
      · rintro (h | ⟨rfl | h, hx⟩) <;> tauto
    · simp only [hr, not_false_eq_true, if_true, map_cons, mem_cons]
      constructor
      · rintro ((rfl | h) | h) <;> tauto
      · tauto

variable (host) in
theorem length_pushUnknown (known queue : List String) (references : List P) :
    (pushUnknown host known queue references).length ≤ queue.length + references.length := by
  induction references generalizing queue with
  | nil => simp [pushUnknown]
  | cons r references ih =>
    rw [pushUnknown, foldl_cons, ← pushUnknown]
    refine (ih _).trans ?_
    split
    · simp only [length_cons]
      omega
    · simp only [length_cons]
      omega

variable (host) in
/-- What holds of the paths that were fetched and of the queue. -/
structure Collected (known start queue : List String) (infos : Infos P) : Prop where
  needed : ∀ x, x ∈ queue ∨ x ∈ infos → Needed host known start x
  started : ∀ x ∈ start, x ∈ queue ∨ x ∈ infos
  fetched : ∀ x info, infos.lookup x = some info → fetch host x = .ok info
  closed : ∀ x ∈ infos, ∀ r, host.Refers x r → r ∉ known → r ∈ queue ∨ r ∈ infos

namespace Collected

variable {known start queue : List String} {infos : Infos P} {x : String}

theorem initial (known queue : List String) : Collected host known queue queue.reverse ∅ where
  needed x h := by
    rcases h with h | h
    · exact ⟨x, mem_reverse.mp h, .refl⟩
    · simp at h
  started x h := .inl (mem_reverse.mpr h)
  fetched x info h := by simp at h
  closed x h := by simp at h

theorem skip (h : Collected host known start (x :: queue) infos) (hx : x ∈ infos) :
    Collected host known start queue infos where
  needed y hy := h.needed y (hy.imp_left (mem_cons_of_mem x))
  started y hy := by
    rcases h.started y hy with hq | hi
    · rcases mem_cons.mp hq with rfl | hq
      · exact .inr hx
      · exact .inl hq
    · exact .inr hi
  fetched := h.fetched
  closed y hy r hr hknown := by
    rcases h.closed y hy r hr hknown with hq | hi
    · rcases mem_cons.mp hq with rfl | hq
      · exact .inr hx
      · exact .inl hq
    · exact .inr hi

theorem fetch (h : Collected host known start (x :: queue) infos) (hfetch : Extras.fetch host x = .ok info) :
    Collected host known start (pushUnknown host known queue info.references) (infos.insert x info) := by
  have hx : Needed host known start x := h.needed x (.inl mem_cons_self)
  have hkept : ∀ y, y ∈ x :: queue ∨ y ∈ infos →
      y ∈ pushUnknown host known queue info.references ∨ y ∈ infos.insert x info := by
    intro y hy
    rw [mem_pushUnknown, mem_insert]
    rcases hy with hy | hy
    · rcases mem_cons.mp hy with rfl | hy <;> tauto
    · tauto
  refine ⟨?_, fun y hy => hkept y (h.started y hy), ?_, ?_⟩
  · rintro y (hy | hy)
    · rcases mem_pushUnknown.mp hy with hy | ⟨hy, hknown⟩
      · exact h.needed y (.inl (mem_cons_of_mem x hy))
      · obtain ⟨s, hs, hreach⟩ := hx
        exact ⟨s, hs, hreach.tail ⟨(refers_of_fetch hfetch).mpr hy, hknown⟩⟩
    · rcases (mem_insert infos).mp hy with rfl | hy
      · exact hx
      · exact h.needed y (.inr hy)
  · intro y info' hy
    rw [lookup_insert_eq] at hy
    split_ifs at hy with hyx
    · cases hy
      exact hyx ▸ hfetch
    · exact h.fetched y info' hy
  · intro y hy r hr hknown
    rcases (mem_insert infos).mp hy with rfl | hy
    · exact .inl (mem_pushUnknown.mpr (.inr ⟨(refers_of_fetch hfetch).mp hr, hknown⟩))
    · exact hkept r (h.closed y hy r hr hknown)

theorem mem_iff (h : Collected host known start [] infos) : x ∈ infos ↔ Needed host known start x := by
  constructor
  · exact fun hx => h.needed x (.inr hx)
  · rintro ⟨s, hs, hreach⟩
    induction hreach with
    | refl => simpa using h.started s hs
    | tail hreach hr ih => simpa using h.closed _ ih _ hr.1 hr.2

end Collected

/-! The loop ends: every round takes a path off the queue, and a path is fetched only once. -/

variable (host) in
def cost (x : String) : ℕ := (fetch host x).toOption.elim 0 fun info => info.references.length

variable (host) in
/-- The rounds that are left, if only paths of `nodes` can be fetched. -/
def roundsLeft (nodes : Finset String) (queue : List String) (infos : Infos P) : ℕ :=
  queue.length + ∑ x ∈ nodes.filter (· ∉ infos), cost host x

theorem roundsLeft_fetch {nodes : Finset String} (known queue : List String) {infos : Infos P} (hx : x ∈ nodes) (hinfos : x ∉ infos) (hfetch : fetch host x = .ok info) :
    roundsLeft host nodes (pushUnknown host known queue info.references) (infos.insert x info) <
      roundsLeft host nodes (x :: queue) infos := by
  have hnodes : nodes.filter (· ∉ infos.insert x info) = (nodes.filter (· ∉ infos)).erase x := by
    ext y
    simp only [Finset.mem_filter, Finset.mem_erase, mem_insert]
    tauto
  have hcost : cost host x = info.references.length := by simp [cost, hfetch, Except.toOption]
  have hsum := Finset.add_sum_erase (nodes.filter (· ∉ infos)) (cost host) (Finset.mem_filter.mpr ⟨hx, hinfos⟩)
  have hpush := length_pushUnknown host known queue info.references
  simp only [roundsLeft, hnodes, length_cons]
  omega

variable {start : List String}

theorem closureLoop_collects {nodes : Finset String}
    (hnames : ∀ q info, fetch host (host.names.absolute q) = .ok info → host.names.absolute q ∈ nodes)
    (fuel : ℕ) (queue : List String) (infos : Infos P) (hqueue : ∀ x ∈ queue, ∀ info, fetch host x = .ok info → x ∈ nodes)
    (hfuel : roundsLeft host nodes queue infos ≤ fuel) (h : Collected host known start queue infos) :
    ∃ result, closureLoop host known fuel queue infos = some result ∧
      (∀ infos', result = .ok infos' → Collected host known start [] infos') ∧
      ((∀ x, Needed host known start x → ∃ info, fetch host x = .ok info) → ∃ infos', result = .ok infos') := by
  induction fuel generalizing queue infos with
  | zero =>
    cases queue with
    | nil => exact ⟨.ok infos, rfl, fun _ heq => Except.ok.inj heq ▸ h, fun _ => ⟨infos, rfl⟩⟩
    | cons x queue => simp [roundsLeft] at hfuel
  | succ fuel ih =>
    cases queue with
    | nil => exact ⟨.ok infos, rfl, fun _ heq => Except.ok.inj heq ▸ h, fun _ => ⟨infos, rfl⟩⟩
    | cons x queue =>
      rw [closureLoop]
      have hq := forall_mem_cons.mp hqueue
      by_cases hx : x ∈ infos
      · rw [if_pos hx]
        refine ih queue infos hq.2 ?_ (h.skip hx)
        simp only [roundsLeft, length_cons] at hfuel ⊢
        omega
      · rw [if_neg hx]
        cases hfetch : fetch host x with
        | error e =>
          refine ⟨.error e, rfl, by simp, fun hall => ?_⟩
          obtain ⟨info, hinfo⟩ := hall x (h.needed x (.inl mem_cons_self))
          rw [hfetch] at hinfo
          cases hinfo
        | ok info =>
          refine ih _ _ ?_ ?_ (h.fetch hfetch)
          · intro y hy info' hinfo'
            rcases mem_pushUnknown.mp hy with hy | ⟨hy, -⟩
            · exact hq.2 y hy info' hinfo'
            · obtain ⟨q, -, rfl⟩ := mem_map.mp hy
              exact hnames q info' hinfo'
          · have := roundsLeft_fetch known queue (hq.1 info hfetch) hx hfetch
            omega

theorem closureLoop_mono {fuel fuel' : ℕ} (hle : fuel ≤ fuel') {queue : List String} {infos : Infos P}
    {result : Except Stop (Infos P)} (h : closureLoop host known fuel queue infos = some result) :
    closureLoop host known fuel' queue infos = some result := by
  induction fuel generalizing fuel' queue infos with
  | zero =>
    cases queue with
    | nil => simpa [closureLoop] using h
    | cons x queue => cases h
  | succ fuel ih =>
    cases queue with
    | nil => simpa [closureLoop] using h
    | cons x queue =>
      obtain ⟨fuel', rfl⟩ := Nat.exists_eq_succ_of_ne_zero (by omega : fuel' ≠ 0)
      rw [closureLoop] at h ⊢
      have hle : fuel ≤ fuel' := by omega
      by_cases hx : x ∈ infos
      · rw [if_pos hx] at h ⊢
        exact ih hle h
      · rw [if_neg hx] at h ⊢
        cases hfetch : fetch host x with
        | error e => simpa [hfetch] using h
        | ok info =>
          rw [hfetch] at h
          exact ih hle h

theorem closureLoop_ends (known start : List String) {valid : Finset P}
    (hvalid : ∀ p info, host.daemon.queryPathInfo p = .ok (some info) → p ∈ valid) :
    ∃ result n, (∀ fuel ≥ n, closureLoop host known fuel start.reverse ∅ = some result) ∧
      (∀ infos, result = .ok infos → Collected host known start [] infos) ∧
      ((∀ x, Needed host known start x → ∃ info, fetch host x = .ok info) → ∃ infos, result = .ok infos) := by
  have hnames : ∀ q info, fetch host (host.names.absolute q) = .ok info →
      host.names.absolute q ∈ start.toFinset ∪ valid.image host.names.absolute := by
    intro q info h
    obtain ⟨p, hparse, -, hquery⟩ := fetch_eq_ok.mp h
    rw [host.names.parse_absolute] at hparse
    cases hparse
    exact Finset.mem_union_right _ (Finset.mem_image_of_mem _ (hvalid q info hquery))
  have hqueue : ∀ x ∈ start.reverse, ∀ info, fetch host x = .ok info →
      x ∈ start.toFinset ∪ valid.image host.names.absolute := by
    intro x hx info _
    exact Finset.mem_union_left _ (mem_toFinset.mpr (mem_reverse.mp hx))
  obtain ⟨result, hloop, hcollected, hok⟩ := closureLoop_collects hnames _ _ ∅ hqueue le_rfl (Collected.initial known start)
  exact ⟨result, _, fun fuel hfuel => closureLoop_mono hfuel hloop, hcollected, hok⟩

/-! ### The order -/

section Order

variable {infos : Infos P}

theorem mem_refsWithin (hfetched : ∀ x info, infos.lookup x = some info → fetch host x = .ok info) {r : String} :
    r ∈ refsWithin host infos x ↔ x ∈ infos ∧ host.Refers x r ∧ r ∈ infos := by
  cases hinfo : infos.lookup x with
  | none =>
    have hx : x ∉ infos := lookup_eq_none.mp hinfo
    simp [refsWithin, hinfo, hx]
  | some info =>
    have hx : x ∈ infos := mem_of_lookup hinfo
    rw [refers_of_fetch (hfetched x info hinfo), refsWithin, hinfo]
    simp [hx]

theorem chain_of_names {p : P} (h : ReflTransGen host.Refers (host.names.absolute p) x) :
    ∃ q, host.names.absolute q = x ∧ ReflTransGen host.daemon.Refers p q := by
  induction h with
  | refl => exact ⟨p, rfl, .refl⟩
  | tail hreach hr ih =>
    obtain ⟨q, rfl, hq⟩ := ih
    obtain ⟨q', r, hparse, href, rfl⟩ := hr
    rw [host.names.parse_absolute] at hparse
    cases hparse
    exact ⟨r, rfl, hq.tail href⟩

theorem names_acyclic (hacyclic : host.daemon.Acyclic)
    {r : String} (hr : host.Refers x r) (hback : ReflTransGen host.Refers r x) : r = x := by
  obtain ⟨p, q, hparse, href, rfl⟩ := hr
  obtain ⟨p', hname, hp'⟩ := chain_of_names hback
  rw [← hname, host.names.parse_absolute] at hparse
  cases hparse
  rw [← hname, hacyclic _ q (.single href) hp']

theorem mem_walk : x ∈ host.walk infos.keys ↔ x ∈ infos :=
  (host.walk_perm infos.keys).mem_iff.trans mem_keys.symm

theorem topoOrder_collected (hacyclic : host.daemon.Acyclic) (h : Collected host known start [] infos) : ∃ ordered n,
      (∀ fuel ≥ n, topoOrder (refsWithin host infos) fuel (host.walk infos.keys) = some ordered) ∧
      ordered.Nodup ∧ (∀ x, x ∈ ordered ↔ x ∈ infos) ∧
      ∀ l₁ x l₂, ordered = l₁ ++ x :: l₂ → ∀ r, host.Refers x r → r ∈ known ∨ r = x ∨ r ∈ l₁ := by
  have hrefs {x r : String} : r ∈ refsWithin host infos x ↔ x ∈ infos ∧ host.Refers x r ∧ r ∈ infos :=
    mem_refsWithin h.fetched
  have hclosed : ∀ k ∈ infos.keys.toFinset, ∀ r ∈ refsWithin host infos k, r ∈ infos.keys.toFinset :=
    fun k _ r hr => mem_toFinset.mpr (hrefs.mp hr).2.2
  have hroots : ∀ k ∈ host.walk infos.keys, k ∈ infos.keys.toFinset := fun k hk => mem_toFinset.mpr (mem_walk.mp hk)
  obtain ⟨ordered, n, hwalk, hn⟩ := topoOrder_walk hclosed hroots
  have hmem : ∀ x, x ∈ ordered ↔ x ∈ infos := by
    intro x
    rw [hwalk.mem_iff (follows_next _)]
    constructor
    · rintro ⟨k, hk, hreach⟩
      cases hreach with
      | refl => exact mem_walk.mp hk
      | tail _ hr => exact (hrefs.mp hr).2.2
    · exact fun hx => ⟨x, mem_walk.mpr hx, .refl⟩
  refine ⟨ordered, n, hn, hwalk.nodup, hmem, fun l₁ x l₂ heq r hr => ?_⟩
  by_cases hknown : r ∈ known
  · exact .inl hknown
  · have hx : x ∈ infos := (hmem x).mp (heq ▸ by simp)
    have hr' : r ∈ infos := by simpa using h.closed x hx r hr hknown
    rcases hwalk.before (follows_next _) heq (hrefs.mpr ⟨hx, hr, hr'⟩) with hseen | hpre | ⟨-, hback⟩
    · cases hseen
    · exact .inr (.inr hpre)
    · have hback : ReflTransGen host.Refers r x := hback.lift id fun a b hab => (hrefs.mp hab).2.1
      exact .inr (.inl (names_acyclic hacyclic hr hback))

end Order

/-! ### Packing -/

variable [DecidableEq P] {dir path : String} {info : PathInfo P} {infos : Infos P} {ordered : List String}

theorem packExtra_total (dir : String) (info : PathInfo P) {p : P} (hparse : host.names.parse path = .ok p)
    (hpack : ∀ path file candidates p, ∃ chunks, host.packOneNar path file candidates p = .ok chunks) :
    ∃ extra, packExtra host dir path info = .ok extra := by
  obtain ⟨chunks, hchunks⟩ := hpack path (dir ++ "/" ++ s!"extra-{storeBase path}.frames")
    (insert p info.references.toFinset) p
  exact ⟨_, bind_eq_ok.mpr ⟨p, by rw [hparse]; rfl, bind_eq_ok.mpr ⟨chunks, errCtx_eq_ok.mpr hchunks, rfl⟩⟩⟩

theorem packOrdered_eq_ok {extras : List (PackedExtra C)} (h : packOrdered host dir infos ordered = .ok extras) :
    extras.map PackedExtra.path = ordered ∧
      ∀ e ∈ extras, ∃ info, infos.lookup e.path = some info ∧ e.references = info.references.map host.names.absolute := by
  induction ordered generalizing infos extras with
  | nil =>
    cases h
    simp
  | cons path ordered ih =>
    rw [packOrdered] at h
    cases hinfo : infos.lookup path with
    | none => simp [hinfo] at h
    | some info =>
      simp only [hinfo, bind_eq_ok] at h
      obtain ⟨extra, hextra, out, hout, h⟩ := h
      cases h
      simp only [packExtra, bind_eq_ok] at hextra
      obtain ⟨sp, -, chunks, -, hextra⟩ := hextra
      cases hextra
      obtain ⟨hpaths, hinfos⟩ := ih hout
      refine ⟨by rw [map_cons, hpaths], fun e he => ?_⟩
      rcases mem_cons.mp he with rfl | he
      · exact ⟨info, hinfo, rfl⟩
      · obtain ⟨info', hlookup, hrefs'⟩ := hinfos e he
        rw [lookup_erase_eq] at hlookup
        split_ifs at hlookup
        exact ⟨info', hlookup, hrefs'⟩

theorem packOrdered_total (hnodup : ordered.Nodup) (hmem : ∀ x ∈ ordered, x ∈ infos ∧ ∃ p, host.names.parse x = .ok p)
    (hpack : ∀ path file candidates p, ∃ chunks, host.packOneNar path file candidates p = .ok chunks) :
    ∃ extras, packOrdered host dir infos ordered = .ok extras := by
  induction ordered generalizing infos with
  | nil => exact ⟨[], rfl⟩
  | cons path ordered ih =>
    obtain ⟨⟨hpath, p, hparse⟩, hrest⟩ := forall_mem_cons.mp hmem
    obtain ⟨info, hinfo⟩ := exists_lookup hpath
    obtain ⟨extra, hextra⟩ := packExtra_total dir info hparse hpack
    have hkept : ∀ x ∈ ordered, x ∈ infos.erase path ∧ ∃ p, host.names.parse x = .ok p := by
      intro x hx
      refine ⟨mem_erase.mpr ⟨?_, (hrest x hx).1⟩, (hrest x hx).2⟩
      rintro rfl
      exact (nodup_cons.mp hnodup).1 hx
    obtain ⟨out, hout⟩ := ih (nodup_cons.mp hnodup).2 hkept
    refine ⟨extra :: out, ?_⟩
    rw [packOrdered, hinfo]
    exact bind_eq_ok.mpr ⟨extra, hextra, bind_eq_ok.mpr ⟨out, hout, rfl⟩⟩

/-! ### The result -/

variable (host) in
/-- The daemon answers, every path that is needed is in the store, and packing succeeds. -/
structure Succeeds (known start : List String) : Prop where
  connect : host.daemon.connect = .ok ()
  addTempRoot : ∀ p, host.daemon.addTempRoot p = .ok ()
  stored : ∀ x, Needed host known start x → ∃ p info, host.names.parse x = .ok p ∧ host.daemon.queryPathInfo p = .ok (some info)
  packOneNar : ∀ path file candidates p, ∃ chunks, host.packOneNar path file candidates p = .ok chunks

variable (host) in
/-- What is referred to is known, the path itself, or came before. -/
def InOrder (known : List String) (extras : List (PackedExtra C)) : Prop :=
  ∀ l₁ e l₂, extras = l₁ ++ e :: l₂ → (∀ r, r ∈ e.references ↔ host.Refers e.path r) ∧
    ∀ r ∈ e.references, r ∈ known ∨ r = e.path ∨ r ∈ l₁.map PackedExtra.path

theorem packOrdered_in_order {ordered : List String} (h : Collected host known start [] infos)
    (hnodup : ordered.Nodup) (hmem : ∀ x, x ∈ ordered ↔ x ∈ infos)
    (hbefore : ∀ l₁ x l₂, ordered = l₁ ++ x :: l₂ → ∀ r, host.Refers x r → r ∈ known ∨ r = x ∨ r ∈ l₁)
    {extras : List (PackedExtra C)} (hextras : packOrdered host dir infos ordered = .ok extras) :
    (extras.map PackedExtra.path).Nodup ∧ (∀ x, x ∈ extras.map PackedExtra.path ↔ Needed host known start x) ∧
      InOrder host known extras := by
  obtain ⟨rfl, hinfos⟩ := packOrdered_eq_ok hextras
  refine ⟨hnodup, fun x => (hmem x).trans h.mem_iff, fun l₁ e l₂ heq => ?_⟩
  obtain ⟨info, hlookup, hrefs⟩ := hinfos e (by simp [heq])
  have hrefers : ∀ r, r ∈ e.references ↔ host.Refers e.path r := by
    intro r
    rw [hrefs, refers_of_fetch (h.fetched e.path info hlookup)]
  exact ⟨hrefers, fun r hr => hbefore (l₁.map PackedExtra.path) e.path (l₂.map PackedExtra.path) (by simp [heq]) r
    ((hrefers r).mp hr)⟩

theorem packQueue_in_order {valid : Finset P} (hvalid : ∀ p info, host.daemon.queryPathInfo p = .ok (some info) → p ∈ valid)
    (hacyclic : host.daemon.Acyclic) (dir : String) (known start : List String) :
    ∃ n, ∀ fuel ≥ n, ∃ result, packQueue host fuel dir start known = some result ∧
      (∀ extras, result = .ok extras → (extras.map PackedExtra.path).Nodup ∧
        (∀ x, x ∈ extras.map PackedExtra.path ↔ Needed host known start x) ∧ InOrder host known extras) ∧
      (Succeeds host known start → ∃ extras, result = .ok extras) := by
  by_cases hstart : start = []
  · subst hstart
    refine ⟨0, fun fuel _ => ⟨.ok [], rfl, ?_, fun _ => ⟨[], rfl⟩⟩⟩
    intro extras heq
    cases heq
    simp [Needed, InOrder]
  · have hqueue : start.isEmpty = false := by simpa using hstart
    cases hconnect : host.daemon.connect with
    | error e =>
      refine ⟨0, fun fuel _ => ⟨_, by simp only [packQueue, hqueue, extraClosure, hconnect, errCtx]; rfl, by simp, ?_⟩⟩
      intro hs
      rw [hs.connect] at hconnect
      cases hconnect
    | ok u =>
      obtain ⟨result, n, hloop, hcollected, hok⟩ := closureLoop_ends known start hvalid
      have hclosure (fuel : ℕ) (hfuel : fuel ≥ n) : extraClosure host fuel start known = some result := by
        rw [extraClosure, hconnect]
        exact hloop fuel hfuel
      cases result with
      | error e =>
        refine ⟨n, fun fuel hfuel => ⟨.error e, by simp [packQueue, hqueue, hclosure fuel hfuel], by simp, fun hs => ?_⟩⟩
        obtain ⟨infos, hinfos⟩ := hok fun x hx => by
          obtain ⟨p, info, hparse, hquery⟩ := hs.stored x hx
          exact ⟨info, fetch_eq_ok.mpr ⟨p, hparse, hs.addTempRoot p, hquery⟩⟩
        cases hinfos
      | ok infos =>
        have h := hcollected infos rfl
        obtain ⟨ordered, m, htopo, hnodup, hmem, hbefore⟩ := topoOrder_collected hacyclic h
        refine ⟨n + m, fun fuel hfuel => ⟨packOrdered host dir infos ordered, ?_, ?_, ?_⟩⟩
        · simp [packQueue, hqueue, hclosure fuel (by omega), htopo fuel (by omega)]
        · exact fun extras heq => packOrdered_in_order h hnodup hmem hbefore heq
        · intro hs
          refine packOrdered_total hnodup (fun x hx => ⟨(hmem x).mp hx, ?_⟩) hs.packOneNar
          obtain ⟨p, info, hparse, -⟩ := hs.stored x (h.mem_iff.mp ((hmem x).mp hx))
          exact ⟨p, hparse⟩

/-- In a finite store without cycles, other than paths that refer to themselves, `pack_extras` ends.
It packs exactly the unknown paths that the outputs need, once and references first, and it fails
only if the daemon or the packing does. On any finite graph `topo_order` ends and lists the nodes
it can reach once. -/
theorem extras_in_order (host : Host P C) (valid : Finset P)
    (hvalid : ∀ p info, host.daemon.queryPathInfo p = .ok (some info) → p ∈ valid) (hacyclic : host.daemon.Acyclic)
    (dir : String) (outputs : List (List String)) (storeInputs specOutputs : List String) :
    (∃ n, ∀ fuel ≥ n, ∃ result, packExtras host fuel dir outputs storeInputs specOutputs = some result ∧
      (∀ extras, result = .ok extras → (extras.map PackedExtra.path).Nodup ∧
        (∀ x, x ∈ extras.map PackedExtra.path ↔
          Needed host (storeInputs ++ specOutputs) (unknown outputs (storeInputs ++ specOutputs)) x) ∧
        InOrder host (storeInputs ++ specOutputs) extras) ∧
      (Succeeds host (storeInputs ++ specOutputs) (unknown outputs (storeInputs ++ specOutputs)) →
        ∃ extras, result = .ok extras)) ∧
    ∀ (K : Type) [DecidableEq K] (refsOf : K → List K) (nodes : Finset K) (roots : List K),
      (∀ k ∈ nodes, ∀ r ∈ refsOf k, r ∈ nodes) → (∀ k ∈ roots, k ∈ nodes) →
      ∃ order n, (∀ fuel ≥ n, topoOrder refsOf fuel roots = some order) ∧ order.Nodup ∧
        ∀ k, k ∈ order ↔ ∃ root ∈ roots, ReflTransGen (fun k r => r ∈ refsOf k) root k := by
  refine ⟨packQueue_in_order hvalid hacyclic dir _ _, fun K _ refsOf nodes roots hclosed hroots => ?_⟩
  obtain ⟨order, n, hwalk, hn⟩ := topoOrder_walk hclosed hroots
  exact ⟨order, n, hn, hwalk.nodup, fun k => hwalk.mem_iff (follows_next refsOf)⟩

end Pack

def twoPaths : Host Bool Unit where
  names := {
    parse := fun x => if x = "/nix/store/a" then .ok false else if x = "/nix/store/b" then .ok true else .error ["not a path"]
    absolute := fun p => if p then "/nix/store/b" else "/nix/store/a"
    parse_absolute := by decide }
  daemon := {
    connect := .ok ()
    addTempRoot := fun _ => .ok ()
    queryPathInfo := fun p => .ok (some ⟨if p then [false, true] else [], [], 0, [], none, none⟩) }
  walk := id
  walk_perm _ := .refl _
  packOneNar _ _ _ _ := .ok []

theorem twoPaths_refers {p q : Bool} : twoPaths.daemon.Refers p q ↔ p = true := by
  cases p <;> cases q <;> simp [Daemon.Refers, twoPaths]

theorem twoPaths_acyclic : twoPaths.daemon.Acyclic := by
  intro p q h h'
  rcases h.cases_head with rfl | ⟨_, hp, -⟩
  · rfl
  · rcases h'.cases_head with rfl | ⟨_, hq, -⟩
    · rfl
    · rw [twoPaths_refers.mp hp, twoPaths_refers.mp hq]

theorem extras_in_order_two : ∃ n, ∀ fuel ≥ n, ∃ extras,
    packExtras twoPaths fuel "build" [["/nix/store/b"]] [] [] = some (.ok extras) ∧
      (extras.map PackedExtra.path).Nodup ∧ "/nix/store/a" ∈ extras.map PackedExtra.path := by
  obtain ⟨⟨n, hn⟩, -⟩ := extras_in_order twoPaths Finset.univ (fun p _ _ => Finset.mem_univ p) twoPaths_acyclic
    "build" [["/nix/store/b"]] [] []
  have hstored : ∀ x, Needed twoPaths [] ["/nix/store/b"] x → ∃ p, twoPaths.names.absolute p = x := by
    rintro x ⟨s, hs, hreach⟩
    cases hreach with
    | refl => exact ⟨true, (mem_singleton.mp hs).symm⟩
    | tail _ hr =>
      obtain ⟨_, q, -, -, hq⟩ := hr.1
      exact ⟨q, hq⟩
  have hsucceeds : Succeeds twoPaths [] ["/nix/store/b"] := by
    refine ⟨rfl, fun _ => rfl, fun x hx => ?_, fun _ _ _ _ => ⟨[], rfl⟩⟩
    obtain ⟨p, rfl⟩ := hstored x hx
    exact ⟨p, _, twoPaths.names.parse_absolute p, rfl⟩
  refine ⟨n, fun fuel hfuel => ?_⟩
  obtain ⟨result, hresult, hgood, hok⟩ := hn fuel hfuel
  obtain ⟨extras, rfl⟩ := hok hsucceeds
  obtain ⟨hnodup, hmem, -⟩ := hgood extras rfl
  refine ⟨extras, hresult, hnodup, (hmem _).mpr ⟨"/nix/store/b", mem_singleton_self _, .single ⟨?_, not_mem_nil⟩⟩⟩
  exact ⟨true, false, rfl, twoPaths_refers.mpr rfl, rfl⟩

end Tribuchet.Outputs.Extras
