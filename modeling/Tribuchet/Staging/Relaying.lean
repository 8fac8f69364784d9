import Mathlib.Data.Prod.Lex
import Tribuchet.Base.Runs
import Tribuchet.Staging.Relay

/-! The loop of `run_job` in `hub/relay.rs` around a job's staging, at the points where it awaits.
`progress` is a future that the loop drops whenever another branch of its `select!` wins; the answer
to a `Need` is a future that the staging keeps. `handle_need` is not dropped, but awaits the channel
for every manifest it sends again, and the store for the paths that are new. Whether the channel has
room, when a recipe is there and when the session's permit is free is up to the schedule. A run that
fails takes no more steps. -/

set_option linter.unusedSectionVars false

namespace Tribuchet.Staging.Relaying

open Runs List Option Relay

variable {P H : Type} [DecidableEq P] [DecidableEq H]

/-- What is read from the worker, computed, or put on the wire. -/
inductive Event (P H : Type)
  | need (n : Need P H)
  | computed (p : P)
  /-- a manifest of `unsent` -/
  | late (p : P)
  | again (p : P)
  | frame (hash : H)
  | eof
  | cancel

inductive Control (P H : Type)
  /-- at the `select!`, and whether there is a future of `progress` -/
  | select (live : Bool)
  /-- in `handle_need`, with the paths that are left and those that are new -/
  | naming (first : Bool) (rest new : List P) (hashes : List H)
  | cancelling

structure State (P H : Type) where
  relay : Relay P H
  control : Control P H
  permit : Bool
  log : List (Event P H)

inductive Action (P H : Type)
  | poll
  | drop
  | flush
  | computed (p : P)
  | acquire
  | serve (cached : P → List H)
  | recv (n : Need P H)
  | name
  /-- `query_path_infos` returns; the new paths are sorted by their references -/
  | queried (order : List P) (cached : P → List H)
  | abandon
  | cancelled
  | other

def busy (r : Relay P H) : Prop := r.tasks ≠ [] ∨ r.unsent ≠ [] ∨ r.serving.isSome

instance (r : Relay P H) : Decidable (busy r) := inferInstanceAs (Decidable (_ ∨ _ ∨ _))

/-- The branch of `progress` that polls the answer. The future ends with the `eof`. -/
def serveOne (cat : Catalog P H) (cached : P → List H) (s : State P H) : Option (State P H) :=
  match s.relay.serve cat cached with
  | some (.ok (r, .data hash)) => some { s with relay := r, log := s.log ++ [.frame hash] }
  | some (.ok (r, .eof)) => some ⟨r, .select false, false, s.log ++ [.eof]⟩
  | _ => none

/-- The end of `handle_need`. -/
def enqueue (cat : Catalog P H) (cached : P → List H) (hashes : List H) (r : Relay P H) : Relay P H :=
  if hashes = [] then r
  else
    let r := r.enqueue hashes.toFinset
    if r.serving.isNone then r.serveNext cat cached else r

def step (cat : Catalog P H) (s : State P H) (a : Action P H) : Option (State P H) :=
  match s.control, a with
  | .select false, .poll => if busy s.relay then some { s with control := .select true } else none
  | .select true, .drop => some { s with control := .select false }
  | .select true, .flush =>
    (s.relay.flush cat).map fun (r, m) => ⟨r, .select false, s.permit, s.log ++ [.late m.storePath]⟩
  | .select true, .computed p => (s.relay.computed p).map fun r => ⟨r, .select false, s.permit, s.log ++ [.computed p]⟩
  | .select true, .acquire => if s.relay.serving.isSome ∧ s.permit = false then some { s with permit := true } else none
  | .select true, .serve cached => if s.permit = true then serveOne cat cached s else none
  | .select _, .recv n =>
    if ∀ p ∈ n.paths, p ∈ s.relay.offered then
      some ⟨s.relay.answered, .naming s.relay.firstNeed n.paths [] n.hashes, s.permit, s.log ++ [.need n]⟩
    else none
  | .naming first (p :: rest) new hashes, .name =>
    let (r, again, new) := request cat first (s.relay, [], new) p
    some ⟨r, .naming first rest new hashes, s.permit, s.log ++ again.map fun m => .again m.storePath⟩
  | .naming _ [] new hashes, .queried order cached =>
    if order.Perm new then
      some ⟨enqueue cat cached hashes (s.relay.schedule order), .select false, s.permit, s.log⟩
    else none
  | .select _, .abandon => if s.relay.cancelSent = false then some { s with control := .cancelling } else none
  | .cancelling, .cancelled =>
    some ⟨{ s.relay with cancelSent := true }, .select false, s.permit, s.log ++ [.cancel]⟩
  | .select _, .other => some { s with control := .select false }
  | _, _ => none

/-- From the assignment on, with the manifests of `inline` sent. -/
def system (cat : Catalog P H) (offered inline : List P) : System (State P H) (Action P H) where
  init s := s = ⟨.new offered inline, .select false, false, []⟩
  step := step cat

/-! ### What the log says -/

def Event.late? : Event P H → Option P
  | .late p => some p
  | _ => none

def Event.again? : Event P H → Option P
  | .again p => some p
  | _ => none

def Event.computed? : Event P H → Option P
  | .computed p => some p
  | _ => none

def Event.need? : Event P H → Option (Need P H)
  | .need n => some n
  | _ => none

/-- An `eof` is `none`. -/
def Event.chunk? : Event P H → Option (Option H)
  | .frame h => some (some h)
  | .eof => some none
  | _ => none

def lates (log : List (Event P H)) : List P := log.filterMap Event.late?

def agains (log : List (Event P H)) : List P := log.filterMap Event.again?

def computeds (log : List (Event P H)) : List P := log.filterMap Event.computed?

def needs (log : List (Event P H)) : List (Need P H) := log.filterMap Event.need?

def names (log : List (Event P H)) : List P := (needs log).flatMap Need.paths

def requests (log : List (Event P H)) : List (Finset H) :=
  ((needs log).filter (·.hashes ≠ [])).map fun n => n.hashes.toFinset

def chunks (log : List (Event P H)) : List (Option H) := log.filterMap Event.chunk?

/-- How often the path was asked for when its manifest had been sent, except by the first `Need`,
which answers the assignment. The last event comes first. -/
def reRequests (inline : List P) (p : P) : List (Event P H) → ℕ
  | [] => 0
  | .need n :: past =>
    reRequests inline p past + if needs past ≠ [] ∧ (p ∈ inline ∨ p ∈ lates past) then n.paths.count p else 0
  | _ :: past => reRequests inline p past

/-! ### Steps -/

@[simp] def Control.rest : Control P H → List P
  | .naming _ rest _ _ => rest
  | _ => []

@[simp] def Control.new : Control P H → List P
  | .naming _ _ new _ => new
  | _ => []

/-- The request of a `Need` that is being handled. -/
@[simp] def Control.request : Control P H → List (Finset H)
  | .naming _ _ _ hashes => if hashes = [] then [] else [hashes.toFinset]
  | _ => []

/-- A control outside of `handle_need`. -/
def Control.free : Control P H → Prop
  | .naming .. => False
  | _ => True

instance (c : Control P H) : Decidable c.free :=
  match c with
  | .naming .. => .isFalse id
  | .select _ => .isTrue trivial
  | .cancelling => .isTrue trivial

/-- What a step can do, and whether it is one of `progress`. -/
inductive Moves (cat : Catalog P H) (s : State P H) : Bool → State P H → Prop
  | control {c : Control P H} (hs : s.control.free) (hc : c.free) : Moves cat s false { s with control := c }
  | acquire (hp : s.permit = false) : Moves cat s true { s with permit := true }
  | late {p : P} {unsent : List P} (hs : s.control = .select true) (hu : s.relay.unsent = p :: unsent) :
      Moves cat s true ⟨{ s.relay with unsent := unsent, computing := s.relay.computing.erase p, sent := s.relay.sent ++ [p] },
        .select false, s.permit, s.log ++ [.late p]⟩
  | computed {p : P} (hs : s.control = .select true) (hp : p ∈ s.relay.tasks) :
      Moves cat s true ⟨{ s.relay with tasks := s.relay.tasks.erase p, unsent := s.relay.unsent ++ [p] },
        .select false, s.permit, s.log ++ [.computed p]⟩
  | frame {hash : H} {frames : List H} {complete : Bool} (hs : s.control = .select true)
      (hserving : s.relay.serving = some ⟨hash :: frames, complete⟩) :
      Moves cat s true { s with relay := { s.relay with serving := some ⟨frames, complete⟩ }, log := s.log ++ [.frame hash] }
  | eof {cached : P → List H} (hs : s.control = .select true) (hserving : s.relay.serving = some ⟨[], true⟩) :
      Moves cat s true ⟨{ s.relay with serving := none }.serveNext cat cached, .select false, false, s.log ++ [.eof]⟩
  | recv {n : Need P H} {live : Bool} (hs : s.control = .select live) :
      Moves cat s false ⟨s.relay.answered, .naming s.relay.firstNeed n.paths [] n.hashes, s.permit, s.log ++ [.need n]⟩
  | name {first : Bool} {p : P} {rest new : List P} {hashes : List H} (hs : s.control = .naming first (p :: rest) new hashes) :
      Moves cat s false ⟨(request cat first (s.relay, [], new) p).1,
        .naming first rest (request cat first (s.relay, [], new) p).2.2 hashes, s.permit,
        s.log ++ (request cat first (s.relay, [], new) p).2.1.map fun m => .again m.storePath⟩
  | queried {first : Bool} {new order : List P} {hashes : List H} {cached : P → List H}
      (hs : s.control = .naming first [] new hashes) (ho : order.Perm new) :
      Moves cat s false ⟨enqueue cat cached hashes (s.relay.schedule order), .select false, s.permit, s.log⟩
  | cancelled (hs : s.control = .cancelling) :
      Moves cat s false ⟨{ s.relay with cancelSent := true }, .select false, s.permit, s.log ++ [.cancel]⟩

variable {cat : Catalog P H} {s s' : State P H}

theorem moves_of_serveOne {cached : P → List H} (hs : s.control = .select true) (h : serveOne cat cached s = some s') :
    Moves cat s true s' := by
  unfold serveOne serve at h
  cases hserving : s.relay.serving with
  | none => simp [hserving] at h
  | some serving =>
    obtain ⟨frames, complete⟩ := serving
    cases frames with
    | cons hash frames =>
      simp only [hserving, some.injEq] at h
      subst h
      exact .frame hs hserving
    | nil =>
      cases complete with
      | false => simp [hserving] at h
      | true =>
        simp only [hserving, some.injEq] at h
        subst h
        exact .eof hs hserving

theorem free_select {live : Bool} (h : s.control = .select live) : s.control.free := by
  rw [h]
  trivial

/-- Something that `progress` waits for happens. -/
def Action.progresses : Action P H → Prop
  | .flush | .computed _ | .acquire | .serve _ => True
  | _ => False

theorem moves_of_step {a : Action P H} (h : step cat s a = some s') :
    ∃ live, Moves cat s live s' ∧ (a.progresses → live = true) := by
  unfold step at h
  split at h
  · rename_i hs
    split_ifs at h
    cases h
    exact ⟨_, .control (free_select hs) trivial, False.elim⟩
  · rename_i hs
    cases h
    exact ⟨_, .control (free_select hs) trivial, False.elim⟩
  · rename_i hs
    cases hu : s.relay.unsent with
    | nil => simp [flush, hu] at h
    | cons p unsent =>
      simp only [flush, hu, map_some, some.injEq] at h
      subst h
      exact ⟨_, .late hs hu, fun _ => rfl⟩
  · rename_i hs
    obtain ⟨r, hr, rfl⟩ := map_eq_some_iff.mp h
    simp only [computed] at hr
    split_ifs at hr with hp
    cases hr
    exact ⟨_, .computed hs hp, fun _ => rfl⟩
  · split_ifs at h with hp
    cases h
    exact ⟨_, .acquire hp.2, fun _ => rfl⟩
  · rename_i hs
    split_ifs at h
    exact ⟨_, moves_of_serveOne hs h, fun _ => rfl⟩
  · rename_i hs
    split_ifs at h
    cases h
    exact ⟨_, .recv hs, False.elim⟩
  · rename_i hs
    cases h
    exact ⟨_, .name hs, False.elim⟩
  · rename_i hs
    split_ifs at h with ho
    cases h
    exact ⟨_, .queried hs ho, False.elim⟩
  · rename_i hs
    split_ifs at h
    cases h
    exact ⟨_, .control (free_select hs) trivial, False.elim⟩
  · rename_i hs
    cases h
    exact ⟨_, .cancelled hs, False.elim⟩
  · rename_i hs
    cases h
    exact ⟨_, .control (free_select hs) trivial, False.elim⟩
  · cases h

/-! ### Manifests -/

section Log

omit [DecidableEq P] [DecidableEq H]

variable (l l' : List (Event P H)) (e : Event P H)

@[simp] theorem lates_append : lates (l ++ l') = lates l ++ lates l' := filterMap_append

@[simp] theorem agains_append : agains (l ++ l') = agains l ++ agains l' := filterMap_append

@[simp] theorem computeds_append : computeds (l ++ l') = computeds l ++ computeds l' := filterMap_append

@[simp] theorem needs_append : needs (l ++ l') = needs l ++ needs l' := filterMap_append

@[simp] theorem names_append : names (l ++ l') = names l ++ names l' := by simp [names]

@[simp] theorem chunks_append : chunks (l ++ l') = chunks l ++ chunks l' := filterMap_append

@[simp] theorem lates_singleton : lates [e] = e.late?.toList := by cases h : e.late? <;> simp [lates, h]

@[simp] theorem agains_singleton : agains [e] = e.again?.toList := by cases h : e.again? <;> simp [agains, h]

@[simp] theorem computeds_singleton : computeds [e] = e.computed?.toList := by
  cases h : e.computed? <;> simp [computeds, h]

@[simp] theorem needs_singleton : needs [e] = e.need?.toList := by cases h : e.need? <;> simp [needs, h]

@[simp] theorem chunks_singleton : chunks [e] = e.chunk?.toList := by cases h : e.chunk? <;> simp [chunks, h]

end Log

attribute [simp] Event.late? Event.again? Event.computed? Event.need? Event.chunk?

@[simp] theorem requests_append (l l' : List (Event P H)) : requests (l ++ l') = requests l ++ requests l' := by
  simp [requests]

def pending (s : State P H) : List P := s.relay.unsent ++ s.relay.tasks ++ s.control.new

/-- Where the paths are that were named: inline, sent, on their way, or still to be looked at. -/
structure Tracks (inline : List P) (s : State P H) : Prop where
  sent : s.relay.sent = inline ++ lates s.log
  waiting : computeds s.log = lates s.log ++ s.relay.unsent
  once : (lates s.log ++ pending s).Nodup
  notInline : ∀ p ∈ lates s.log ++ pending s, p ∉ inline
  computing : ∀ p, p ∈ s.relay.computing ↔ p ∈ pending s
  named : ∀ p ∈ lates s.log ++ pending s, p ∈ names s.log
  scheduled : ∀ p ∈ names s.log, p ∈ inline ∨ p ∈ lates s.log ++ pending s ∨ p ∈ s.control.rest
  rest : ∀ p ∈ s.control.rest, p ∈ names s.log
  first : s.relay.firstNeed = true ↔ needs s.log = []

variable {inline : List P} {live : Bool}

theorem rest_free {c : Control P H} (h : c.free) : c.rest = [] ∧ c.new = [] ∧ c.request = [] := by
  cases c with
  | naming => exact h.elim
  | select => exact ⟨rfl, rfl, rfl⟩
  | cancelling => exact ⟨rfl, rfl, rfl⟩

theorem Tracks.of_perm (h : Tracks inline s) (hperm : (lates s'.log ++ pending s').Perm (lates s.log ++ pending s))
    (hsent : s'.relay.sent = inline ++ lates s'.log) (hwaiting : computeds s'.log = lates s'.log ++ s'.relay.unsent)
    (hcomputing : ∀ p, p ∈ s'.relay.computing ↔ p ∈ pending s') (hrest : s'.control.rest = s.control.rest)
    (hneeds : needs s'.log = needs s.log) (hfirst : s'.relay.firstNeed = s.relay.firstNeed) : Tracks inline s' := by
  have hnames : names s'.log = names s.log := by simp only [names, hneeds]
  refine ⟨hsent, hwaiting, hperm.nodup_iff.mpr h.once, fun p hp => h.notInline p (hperm.mem_iff.mp hp), hcomputing, ?_, ?_, ?_, ?_⟩
  · intro p hp
    rw [hnames]
    exact h.named p (hperm.mem_iff.mp hp)
  · intro p hp
    rw [hrest, hperm.mem_iff]
    exact h.scheduled p (hnames ▸ hp)
  · rw [hrest, hnames]
    exact h.rest
  · rw [hfirst, hneeds]
    exact h.first

structure SameManifests (r r' : Relay P H) : Prop where
  sent : r'.sent = r.sent
  unsent : r'.unsent = r.unsent
  tasks : r'.tasks = r.tasks
  computing : r'.computing = r.computing
  firstNeed : r'.firstNeed = r.firstNeed

theorem serveNext_same (cat : Catalog P H) (cached : P → List H) (r : Relay P H) :
    SameManifests r (r.serveNext cat cached) := by
  unfold serveNext
  split
  · exact ⟨rfl, rfl, rfl, rfl, rfl⟩
  · exact ⟨rfl, rfl, rfl, rfl, rfl⟩

theorem enqueue_same (cat : Catalog P H) (cached : P → List H) (hashes : List H) (r : Relay P H) :
    SameManifests r (enqueue cat cached hashes r) := by
  unfold enqueue
  dsimp only
  split_ifs
  · exact ⟨rfl, rfl, rfl, rfl, rfl⟩
  · have h := serveNext_same cat cached (r.enqueue hashes.toFinset)
    exact ⟨h.sent, h.unsent, h.tasks, h.computing, h.firstNeed⟩
  · exact ⟨rfl, rfl, rfl, rfl, rfl⟩

section Request

omit [DecidableEq H]

variable {r : Relay P H} {first : Bool} {p : P} {new : List P}

theorem request_sent (h : p ∈ r.sent) :
    request cat first (r, [], new) p = (r, if first then [] else [cat.manifest p], new) :=
  if_pos h

theorem request_computing (h : p ∉ r.sent) (hc : p ∈ r.computing) :
    request cat first (r, [], new) p = (r, [], new) :=
  (if_neg h).trans (if_pos hc)

theorem request_new (h : p ∉ r.sent) (hc : p ∉ r.computing) :
    request cat first (r, [], new) p = (r.setComputing (insert p r.computing), [], new ++ [p]) :=
  (if_neg h).trans (if_neg hc)

end Request

theorem Tracks.name_new (h : Tracks inline s) {first : Bool} {p : P} {rest new : List P} {hashes : List H}
    (hs : s.control = .naming first (p :: rest) new hashes) (hsent : p ∉ s.relay.sent) (hcomputing : p ∉ s.relay.computing) :
    Tracks inline ⟨s.relay.setComputing (insert p s.relay.computing), .naming first rest (new ++ [p]) hashes, s.permit,
      s.log ++ ([] : List (Manifest P H)).map fun m => .again m.storePath⟩ := by
  have hpending : pending s = s.relay.unsent ++ s.relay.tasks ++ new := by simp only [pending, hs, Control.new]
  have hinline : p ∉ inline ∧ p ∉ lates s.log := by simpa [h.sent] using hsent
  have hnot : p ∉ pending s := fun hp => hcomputing ((h.computing p).mpr hp)
  have hnamed : ∀ q ∈ p :: rest, q ∈ names s.log := by simpa only [hs, Control.rest] using h.rest
  have hpending' (log : List (Event P H)) : pending ⟨s.relay.setComputing (insert p s.relay.computing),
      .naming first rest (new ++ [p]) hashes, s.permit, log⟩ = pending s ++ [p] := by
    simp [pending, hs]
  rw [map_nil, append_nil]
  refine ⟨h.sent, h.waiting, ?_, ?_, ?_, ?_, ?_, fun q hq => hnamed q (mem_cons_of_mem p hq), h.first⟩
  · rw [hpending', ← append_assoc, ← concat_eq_append]
    exact h.once.concat (by simp [hinline.2, hnot])
  · intro q hq
    rw [hpending', ← append_assoc] at hq
    rcases mem_append.mp hq with hq | hq
    · exact h.notInline q hq
    · rw [mem_singleton.mp hq]
      exact hinline.1
  · intro q
    rw [hpending']
    simp only [setComputing_computing, Finset.mem_insert, h.computing, mem_append, mem_singleton]
    tauto
  · intro q hq
    rw [hpending', ← append_assoc] at hq
    rcases mem_append.mp hq with hq | hq
    · exact h.named q hq
    · rw [mem_singleton.mp hq]
      exact hnamed p mem_cons_self
  · intro q hq
    rw [hpending', ← append_assoc]
    rcases h.scheduled q hq with hq | hq | hq
    · exact .inl hq
    · exact .inr (.inl (mem_append_left _ hq))
    · simp only [hs, Control.rest, mem_cons] at hq
      rcases hq with rfl | hq
      · exact .inr (.inl (by simp))
      · exact .inr (.inr hq)

theorem Tracks.name (h : Tracks inline s) {first : Bool} {p : P} {rest new : List P} {hashes : List H}
    (hs : s.control = .naming first (p :: rest) new hashes) :
    Tracks inline ⟨(request cat first (s.relay, [], new) p).1,
      .naming first rest (request cat first (s.relay, [], new) p).2.2 hashes, s.permit,
      s.log ++ (request cat first (s.relay, [], new) p).2.1.map fun m => .again m.storePath⟩ := by
  have hpending : pending s = s.relay.unsent ++ s.relay.tasks ++ new := by simp only [pending, hs, Control.new]
  have hscheduled : ∀ q ∈ names s.log, q ∈ inline ∨ q ∈ lates s.log ++ pending s ∨ q ∈ p :: rest := by
    simpa only [hs, Control.rest] using h.scheduled
  -- if the path is where it should be already, only the list of what is left gets shorter
  have hknown (again : List (Manifest P H)) (hp : p ∈ inline ∨ p ∈ lates s.log ++ pending s) : Tracks inline
      ⟨s.relay, .naming first rest new hashes, s.permit, s.log ++ again.map fun m => .again m.storePath⟩ := by
    have hlates : lates (again.map fun m => (.again m.storePath : Event P H)) = [] := by simp [lates]
    have hcomputeds : computeds (again.map fun m => (.again m.storePath : Event P H)) = [] := by
      simp [computeds]
    have hneeds : needs (again.map fun m => (.again m.storePath : Event P H)) = [] := by simp [needs]
    have hpending' : pending ⟨s.relay, .naming first rest new hashes, s.permit,
        s.log ++ again.map fun m => .again m.storePath⟩ = pending s := hpending.symm
    have hrest : ∀ q ∈ p :: rest, q ∈ names s.log := by simpa only [hs, Control.rest] using h.rest
    refine ⟨by simp [hlates, h.sent], by simp [hlates, hcomputeds, h.waiting], ?_, ?_, ?_, ?_, ?_, ?_, ?_⟩
    · simpa [hlates, hpending'] using h.once
    · simpa [hlates, hpending'] using h.notInline
    · simpa [hpending'] using h.computing
    · simpa [hlates, hpending', names, hneeds] using h.named
    · intro q hq
      rw [hpending', lates_append, hlates, append_nil]
      have hq : q ∈ names s.log := by simpa [names, hneeds] using hq
      rcases hscheduled q hq with hq | hq | hq
      · exact .inl hq
      · exact .inr (.inl hq)
      · rcases mem_cons.mp hq with rfl | hq
        · exact hp.imp_right .inl
        · exact .inr (.inr hq)
    · intro q hq
      simpa [names, hneeds] using hrest q (mem_cons_of_mem p hq)
    · simpa [hneeds] using h.first
  by_cases hsent : p ∈ s.relay.sent
  · rw [request_sent hsent]
    have hp : p ∈ inline ∨ p ∈ lates s.log := mem_append.mp (h.sent ▸ hsent)
    exact hknown _ (hp.imp_right (mem_append_left _))
  · by_cases hcomputing : p ∈ s.relay.computing
    · rw [request_computing hsent hcomputing]
      exact hknown [] (.inr (mem_append_right _ ((h.computing p).mp hcomputing)))
    · rw [request_new hsent hcomputing]
      exact h.name_new hs hsent hcomputing

theorem Tracks.step (h : Tracks inline s) (hm : Moves cat s live s') : Tracks inline s' := by
  cases hm with
  | @control c hs hc =>
    obtain ⟨hrest, hnew, -⟩ := rest_free hs
    obtain ⟨hrest', hnew', -⟩ := rest_free hc
    have hpending : pending { s with control := c } = pending s := by simp only [pending, hnew, hnew']
    exact h.of_perm (by rw [hpending]) h.sent h.waiting (hpending ▸ h.computing) (hrest'.trans hrest.symm) rfl rfl
  | acquire => exact h.of_perm (.refl _) h.sent h.waiting h.computing rfl rfl rfl
  | @late p unsent hs hu =>
    have hpending : pending s = p :: (unsent ++ s.relay.tasks) := by simp [pending, hs, hu]
    have hnodup : (p :: (unsent ++ s.relay.tasks)).Nodup := (nodup_append.mp (hpending ▸ h.once)).2.1
    refine h.of_perm ?_ ?_ ?_ ?_ ?_ ?_ rfl
    · rw [hpending]
      simp [pending]
    · simp [h.sent]
    · simp [h.waiting, hu]
    · intro x
      have hx := h.computing x
      rw [hpending] at hx
      simp only [pending, Control.new, append_nil, Finset.mem_erase, hx, mem_cons]
      constructor
      · tauto
      · intro hmem
        refine ⟨?_, .inr hmem⟩
        rintro rfl
        exact (nodup_cons.mp hnodup).1 hmem
    · simp [hs]
    · simp
  | @computed p hs hp =>
    have hpending : pending s = s.relay.unsent ++ s.relay.tasks := by simp [pending, hs]
    have hperm : (s.relay.unsent ++ [p] ++ s.relay.tasks.erase p).Perm (pending s) := by
      rw [hpending, append_assoc]
      exact (perm_cons_erase hp).symm.append_left s.relay.unsent
    refine h.of_perm ?_ ?_ ?_ ?_ ?_ ?_ rfl
    · simpa [pending] using hperm.append_left (lates s.log)
    · simp [h.sent]
    · simp [h.waiting]
    · intro x
      rw [h.computing x, ← hperm.mem_iff]
      simp [pending]
    · simp [hs]
    · simp
  | frame hs hserving =>
    exact h.of_perm (by simp [pending]) (by simp [h.sent])
      (by simp [h.waiting]) h.computing rfl (by simp) rfl
  | @eof cached hs hserving =>
    have hsame := serveNext_same cat cached { s.relay with serving := none }
    refine h.of_perm ?_ ?_ ?_ ?_ (by simp [hs]) (by simp) hsame.firstNeed
    · simp [pending, hsame.unsent, hsame.tasks, hs]
    · exact hsame.sent.trans (by simp [h.sent])
    · simp [hsame.unsent, h.waiting]
    · intro p
      rw [hsame.computing]
      simpa [pending, hsame.unsent, hsame.tasks, hs] using h.computing p
  | @recv n live hs =>
    have hpending : pending s = s.relay.unsent ++ s.relay.tasks := by simp [pending, hs]
    have hpending' : pending ⟨s.relay.answered, .naming s.relay.firstNeed n.paths [] n.hashes, s.permit, s.log ++ [.need n]⟩ =
        pending s := by simp [pending, hs]
    have hlates : lates (s.log ++ [.need n]) = lates s.log := by simp
    refine ⟨?_, ?_, ?_, ?_, ?_, ?_, ?_, ?_, ?_⟩
    · simpa [hlates] using h.sent
    · simpa [hlates] using h.waiting
    · simpa only [hlates, hpending'] using h.once
    · simpa only [hlates, hpending'] using h.notInline
    · simpa [hpending'] using h.computing
    · intro p hp
      rw [hlates, hpending'] at hp
      simp [h.named p hp]
    · intro p hp
      rw [hlates, hpending']
      rcases mem_append.mp (by simpa using hp) with hp | hp
      · rcases h.scheduled p hp with hp | hp | hp
        · exact .inl hp
        · exact .inr (.inl hp)
        · simp [hs] at hp
      · exact .inr (.inr (by simpa [names] using hp))
    · intro p hp
      simp only [Control.rest] at hp
      simp [names, hp]
    · simp
  | name hs => exact h.name hs
  | @queried first new order hashes cached hs ho =>
    have hpending : pending s = s.relay.unsent ++ s.relay.tasks ++ new := by simp [pending, hs]
    have hsame := enqueue_same cat cached hashes (s.relay.schedule order)
    have hperm : (s.relay.unsent ++ (s.relay.tasks ++ order)).Perm (pending s) := by
      rw [hpending, append_assoc]
      exact (ho.append_left s.relay.tasks).append_left s.relay.unsent
    have hpending' (log : List (Event P H)) : pending ⟨enqueue cat cached hashes (s.relay.schedule order), .select false, s.permit, log⟩ =
        s.relay.unsent ++ (s.relay.tasks ++ order) := by simp [pending, hsame.unsent, hsame.tasks]
    refine h.of_perm ?_ (hsame.sent.trans h.sent) ?_ ?_ (by simp [hs]) rfl hsame.firstNeed
    · rw [hpending']
      exact hperm.append_left (lates s.log)
    · rw [hsame.unsent]
      exact h.waiting
    · intro p
      rw [hsame.computing, hpending', hperm.mem_iff]
      exact h.computing p
  | cancelled hs =>
    refine h.of_perm ?_ (by simp [h.sent]) (by simp [h.waiting]) ?_
      (by simp [hs]) (by simp) rfl
    · simp [pending, hs]
    · simpa [pending, hs] using h.computing

def Ordered (log : List (Event P H)) : Prop := ∀ l₁ p l₂, log = l₁ ++ .late p :: l₂ → .computed p ∈ l₁

theorem Ordered.append {log more : List (Event P H)} (h : Ordered log) (hmore : ∀ p, .late p ∈ more → .computed p ∈ log) :
    Ordered (log ++ more) := by
  intro l₁ p l₂ heq
  rcases append_eq_append_iff.mp heq with ⟨m, rfl, hm⟩ | ⟨m, rfl, hm⟩
  · exact mem_append_left m (hmore p (by simp [hm]))
  · cases m with
    | nil =>
      rw [nil_append] at hm
      simpa using hmore p (by simp [← hm])
    | cons e m =>
      obtain ⟨rfl, rfl⟩ := cons.inj hm
      exact h l₁ p m rfl

theorem Moves.log (h : Moves cat s live s') : ∃ more, s'.log = s.log ++ more ∧ ∀ p, .late p ∈ more → p ∈ s.relay.unsent := by
  cases h with
  | control | acquire | queried => exact ⟨[], (append_nil _).symm, by simp⟩
  | late hs hu => exact ⟨_, rfl, by simp [hu]⟩
  | computed | frame | eof | recv | cancelled => exact ⟨_, rfl, by simp⟩
  | name => exact ⟨_, rfl, by simp⟩

theorem Ordered.step (h : Ordered s.log) (ht : Tracks inline s) (hm : Moves cat s live s') : Ordered s'.log := by
  obtain ⟨more, hlog, hmore⟩ := hm.log
  rw [hlog]
  refine h.append fun p hp => ?_
  have hmem : p ∈ computeds s.log := ht.waiting ▸ mem_append_right _ (hmore p hp)
  obtain ⟨e, he, heq⟩ := mem_filterMap.mp hmem
  cases e with
  | computed q =>
    cases heq
    exact he
  | _ => cases heq

/-! ### Manifests that are sent again -/

/-- The manifests that `handle_need` has still to send. -/
@[simp] def Control.owed (sent : List P) (p : P) : Control P H → ℕ
  | .naming false rest _ _ => if p ∈ sent then rest.count p else 0
  | _ => 0

/-- Every request for a manifest that was sent has been answered, or will be by `handle_need`. -/
def Resends (inline : List P) (s : State P H) : Prop :=
  ∀ p, (agains s.log).count p + s.control.owed s.relay.sent p = reRequests inline p s.log.reverse

theorem owed_free {c : Control P H} (h : c.free) (sent : List P) (p : P) : c.owed sent p = 0 := by
  cases c with
  | naming => exact h.elim
  | select => rfl
  | cancelling => rfl

theorem Resends.step (h : Resends inline s) (ht : Tracks inline s) (hm : Moves cat s live s') : Resends inline s' := by
  intro q
  have hq := h q
  cases hm with
  | control hs hc =>
    rw [owed_free hs] at hq
    rw [owed_free hc]
    exact hq
  | acquire => exact hq
  | @recv n live hs =>
    have hagain : agains (s.log ++ [.need n]) = agains s.log := by simp
    have hsent : q ∈ s.relay.sent ↔ q ∈ inline ∨ q ∈ lates s.log := by rw [ht.sent, mem_append]
    have hlates : q ∈ lates s.log.reverse ↔ q ∈ lates s.log := by simp [lates, filterMap_reverse]
    have hneeds : needs s.log.reverse ≠ [] ↔ needs s.log ≠ [] := by simp [needs, filterMap_reverse]
    rw [owed_free (free_select hs), add_zero] at hq
    simp only [hagain, reverse_append, reverse_singleton, singleton_append, reRequests, hneeds, hlates,
      ← hsent, answered_sent, hq]
    congr 1
    cases hfirst : s.relay.firstNeed with
    | true => simp [ht.first.mp hfirst]
    | false =>
      have hne : needs s.log ≠ [] := fun h => by simp [ht.first.mpr h] at hfirst
      simp [hne]
  | @name first p rest new hashes hs =>
    rw [hs] at hq
    have howed (hp : p ∉ s.relay.sent) : Control.owed s.relay.sent q (.naming first (p :: rest) new hashes) =
        Control.owed s.relay.sent q (.naming first rest new hashes) := by
      cases first with
      | true => rfl
      | false =>
        by_cases hsent : q ∈ s.relay.sent
        · have hne : p ≠ q := fun heq => hp (heq ▸ hsent)
          simp [hsent, hne]
        · simp [hsent]
    by_cases hp : p ∈ s.relay.sent
    · rw [request_sent hp]
      cases first with
      | true => simpa using hq
      | false =>
        by_cases hpq : p = q
        · subst hpq
          simp only [Control.owed, hp, if_true, count_cons_self] at hq
          simp only [Bool.false_eq_true, if_false, map_cons, map_nil, agains_append, agains_singleton,
            Event.again?, toList_some, count_append, Control.owed, hp, if_true, reverse_append,
            reverse_singleton, singleton_append, reRequests, ← hq]
          simp [Catalog.manifest]
          omega
        · simpa [reRequests, Catalog.manifest, hpq] using hq
    · rw [howed hp] at hq
      by_cases hcomputing : p ∈ s.relay.computing
      · simpa [request_computing hp hcomputing] using hq
      · cases first <;> simpa [request_new hp hcomputing] using hq
  | @queried first new order hashes cached hs ho =>
    have howed : Control.owed s.relay.sent q (.naming first [] new hashes) = 0 := by
      cases first <;> simp
    rw [hs, howed] at hq
    exact hq
  | late hs hu | computed hs hp | frame hs hserving | eof hs hserving | cancelled hs => simpa [hs, reRequests] using hq

/-! ### Chunks -/

/-- What `serve_need` sends for a request, and whether that is all of it. -/
def Serves (cat : Catalog P H) (needed : Finset H) (frames : List H) (complete : Bool) : Prop :=
  ∃ sent cached, serveNeed cat sent needed cached = ⟨frames, complete⟩

/-- The answers to the requests of a list, one after the other, each with its `eof`. -/
inductive Answered (cat : Catalog P H) : List (Finset H) → List (Option H) → Prop
  | nil : Answered cat [] []
  | snoc {done : List (Finset H)} {out : List (Option H)} {needed : Finset H} {frames : List H} (h : Answered cat done out)
      (hs : Serves cat needed frames true) : Answered cat (done ++ [needed]) (out ++ frames.map some ++ [none])

/-- The requests that were taken up are answered, up to the frames that the last one has left. -/
inductive Answering (cat : Catalog P H) : Option (Serving H) → List (Finset H) → List (Option H) → Prop
  | idle {done : List (Finset H)} {out : List (Option H)} (h : Answered cat done out) : Answering cat none done out
  | busy {done : List (Finset H)} {out : List (Option H)} {needed : Finset H} {frames left : List H} {complete : Bool}
      (h : Answered cat done out) (hs : Serves cat needed (frames ++ left) complete) :
      Answering cat (some ⟨left, complete⟩) (done ++ [needed]) (out ++ frames.map some)

/-- The requests that were received are those taken up, those in the queue, and the one `handle_need`
is at. No request waits while none is served. -/
structure InTurn (cat : Catalog P H) (s : State P H) : Prop where
  answering : ∃ taken, Answering cat s.relay.serving taken (chunks s.log) ∧
    requests s.log = taken ++ s.relay.queued ++ s.control.request
  turn : s.relay.serving = none → s.relay.queued = []

variable {taken : List (Finset H)} {out : List (Option H)}

theorem Answering.busy_iff {left : List H} {complete : Bool} :
    Answering cat (some ⟨left, complete⟩) taken out ↔ ∃ done out' needed frames, Answered cat done out' ∧
      Serves cat needed (frames ++ left) complete ∧ taken = done ++ [needed] ∧ out = out' ++ frames.map some := by
  constructor
  · intro h
    cases h with
    | busy hdone hs => exact ⟨_, _, _, _, hdone, hs, rfl, rfl⟩
  · rintro ⟨done, out', needed, frames, hdone, hs, rfl, rfl⟩
    exact .busy hdone hs

theorem Answering.idle_iff : Answering cat none taken out ↔ Answered cat taken out := by
  constructor
  · intro h
    cases h with
    | idle h => exact h
  · exact .idle

theorem inTurn_serveNext {r : Relay P H} (cached : P → List H)
    (hr : r.serving = none) (h : Answered cat taken out) : ∃ taken', Answering cat (r.serveNext cat cached).serving taken' out ∧
      taken' ++ (r.serveNext cat cached).queued = taken ++ r.queued ∧
      ((r.serveNext cat cached).serving = none → (r.serveNext cat cached).queued = []) := by
  unfold serveNext
  cases hq : r.queued with
  | nil =>
    refine ⟨taken, ?_, by simp [hq], fun _ => hq⟩
    rw [hr]
    exact .idle h
  | cons needed queued =>
    refine ⟨taken ++ [needed], ?_, by simp, by simp⟩
    have hserves : Serves cat needed ([] ++ (serveNeed cat r.sent needed cached).frames)
        (serveNeed cat r.sent needed cached).complete := ⟨r.sent, cached, rfl⟩
    simpa using Answering.busy h hserves

theorem InTurn.step (h : InTurn cat s) (hm : Moves cat s live s') : InTurn cat s' := by
  obtain ⟨⟨taken, hans, hreq⟩, hturn⟩ := h
  cases hm with
  | control hs hc =>
    refine ⟨⟨taken, hans, ?_⟩, hturn⟩
    rw [hreq, (rest_free hs).2.2, (rest_free hc).2.2]
  | acquire => exact ⟨⟨taken, hans, hreq⟩, hturn⟩
  | @frame hash frames complete hs hserving =>
    rw [hserving] at hans
    obtain ⟨done, out, needed, sent, hdone, hserves, rfl, hout⟩ := Answering.busy_iff.mp hans
    refine ⟨⟨done ++ [needed], Answering.busy_iff.mpr ⟨done, out, needed, sent ++ [hash], hdone, ?_, rfl, ?_⟩, ?_⟩, by simp⟩
    · simpa using hserves
    · simp [hout]
    · simpa [requests] using hreq
  | @eof cached hs hserving =>
    rw [hserving] at hans
    obtain ⟨done, out, needed, sent, hdone, hserves, rfl, hout⟩ := Answering.busy_iff.mp hans
    rw [append_nil] at hserves
    obtain ⟨taken, hans, htaken, hturn⟩ := inTurn_serveNext (r := { s.relay with serving := none }) cached rfl (hdone.snoc hserves)
    refine ⟨⟨taken, ?_, ?_⟩, hturn⟩
    · simpa [hout] using hans
    · rw [htaken]
      simpa [requests, hs] using hreq
  | @recv n live hs =>
    rw [hs] at hreq
    refine ⟨⟨taken, by simpa using hans, ?_⟩, hturn⟩
    simp only [answered_queued, requests_append, hreq, Control.request, append_nil]
    by_cases hn : n.hashes = []
    · simp [requests, hn]
    · simp [requests, hn]
  | @name first p rest new hashes hs =>
    rw [hs] at hreq
    have hsame (again : List (Manifest P H)) : chunks (s.log ++ again.map fun m => .again m.storePath) = chunks s.log ∧
        requests (s.log ++ again.map fun m => .again m.storePath) = requests s.log := by
      constructor
      · simp [chunks]
      · simp [requests, needs]
    have hrelay : (request cat first (s.relay, [], new) p).1.serving = s.relay.serving ∧
        (request cat first (s.relay, [], new) p).1.queued = s.relay.queued := by
      unfold request
      dsimp only
      split_ifs <;> exact ⟨rfl, rfl⟩
    refine ⟨⟨taken, ?_, ?_⟩, ?_⟩
    · rw [hrelay.1, (hsame _).1]
      exact hans
    · rw [hrelay.2, (hsame _).2]
      exact hreq
    · rw [hrelay.1, hrelay.2]
      exact hturn
  | @queried first new order hashes cached hs ho =>
    rw [hs] at hreq
    unfold enqueue
    dsimp only
    split_ifs with hhashes hserving
    · refine ⟨⟨taken, hans, ?_⟩, hturn⟩
      simpa [hhashes] using hreq
    · have hnone : s.relay.serving = none := by simpa using hserving
      rw [hnone] at hans
      obtain ⟨taken', hans', htaken, hturn'⟩ := inTurn_serveNext (r := (s.relay.schedule order).enqueue hashes.toFinset) cached
        hnone (Answering.idle_iff.mp hans)
      refine ⟨⟨taken', hans', ?_⟩, hturn'⟩
      rw [htaken]
      simpa [hhashes] using hreq
    · refine ⟨⟨taken, hans, ?_⟩, fun hnone => absurd hnone (by simpa using hserving)⟩
      simpa [hhashes] using hreq
  | late hs hu | computed hs hp | cancelled hs =>
    refine ⟨⟨taken, by simpa using hans, ?_⟩, hturn⟩
    simpa [requests, hs] using hreq

/-! ### Progress -/

/-- What `progress` has left to do. -/
def work (s : State P H) : ℕ ×ₗ ℕ :=
  toLex (2 * s.relay.tasks.length + s.relay.unsent.length + s.relay.queued.length + s.relay.serving.toList.length,
    (s.relay.serving.toList.flatMap Serving.frames).length + if s.permit then 0 else 1)

theorem work_serveNext (cat : Catalog P H) (cached : P → List H) {r : Relay P H} (hr : r.serving = none) :
    (r.serveNext cat cached).queued.length + (r.serveNext cat cached).serving.toList.length = r.queued.length := by
  unfold serveNext
  cases hq : r.queued with
  | nil => simp [hr, hq]
  | cons needed queued => simp

theorem work_lt {a : Action P H} (ha : a.progresses) (h : step cat s a = some s') : work s' < work s := by
  obtain ⟨live, hm, hlive⟩ := moves_of_step h
  obtain rfl := hlive ha
  cases hm with
  | acquire hp => exact Prod.Lex.toLex_lt_toLex.mpr (.inr ⟨rfl, by simp [hp]⟩)
  | late hs hu => exact Prod.Lex.toLex_lt_toLex.mpr (.inl (by simp [hu]))
  | computed hs hp =>
    have hlength := length_erase_of_mem hp
    have hpos := length_pos_of_mem hp
    refine Prod.Lex.toLex_lt_toLex.mpr (.inl ?_)
    simp only [length_append, length_singleton, hlength]
    omega
  | frame hs hserving => exact Prod.Lex.toLex_lt_toLex.mpr (.inr ⟨by simp [hserving], by simp [hserving]⟩)
  | @eof cached hs hserving =>
    have hsame := serveNext_same cat cached { s.relay with serving := none }
    have hnext := work_serveNext cat (r := { s.relay with serving := none }) cached rfl
    refine Prod.Lex.toLex_lt_toLex.mpr (.inl ?_)
    simp only [hsame.tasks, hsame.unsent, hserving, toList_some, length_singleton]
    dsimp only at hnext
    omega

/-- As long as there is something to do, `progress` does not wait for nothing. A `Need` that names
chunks of no manifest ends the run. -/
theorem exists_progress (hs : s.control = .select true) (hb : busy s.relay) :
    (∃ a, a.progresses ∧ (step cat s a).isSome) ∨ s.relay.serving = some ⟨[], false⟩ := by
  rcases hb with htasks | hunsent | hserving
  · obtain ⟨p, tasks, htasks⟩ := exists_cons_of_ne_nil htasks
    exact .inl ⟨.computed p, trivial, by simp [step, hs, computed, htasks]⟩
  · obtain ⟨p, unsent, hunsent⟩ := exists_cons_of_ne_nil hunsent
    exact .inl ⟨.flush, trivial, by simp [step, hs, flush, hunsent]⟩
  · cases hpermit : s.permit with
    | false => exact .inl ⟨.acquire, trivial, by simp [step, hs, hserving, hpermit]⟩
    | true =>
      obtain ⟨⟨frames, complete⟩, hserving⟩ := isSome_iff_exists.mp hserving
      cases frames with
      | cons hash frames =>
        exact .inl ⟨.serve fun _ => [], trivial, by simp [step, hs, hpermit, serveOne, serve, hserving]⟩
      | nil =>
        cases complete with
        | true => exact .inl ⟨.serve fun _ => [], trivial, by simp [step, hs, hpermit, serveOne, serve, hserving]⟩
        | false => exact .inr hserving

/-! ### The result -/

structure Inv (cat : Catalog P H) (inline : List P) (s : State P H) : Prop where
  tracks : Tracks inline s
  ordered : Ordered s.log
  resends : Resends inline s
  inTurn : InTurn cat s

theorem reachable_inv {offered : List P} (h : (system cat offered inline).Reachable s) : Inv cat inline s := by
  refine System.Reachable.invariant (I := Inv cat inline) ?_ (fun s a s' hi hstep => ?_) h
  · rintro s rfl
    refine ⟨?_, ?_, ?_, ?_⟩
    · constructor <;> simp [new, lates, computeds, needs, names, pending]
    · intro l₁ p l₂ heq
      simp at heq
    · intro p
      simp [agains, reRequests]
    · exact ⟨⟨[], .idle .nil, rfl⟩, fun _ => rfl⟩
  · obtain ⟨live, hm, -⟩ := moves_of_step hstep
    exact ⟨hi.tracks.step hm, hi.ordered.step hi.tracks hm, hi.resends.step hi.tracks hm, hi.inTurn.step hm⟩

theorem Tracks.count_eq_one (h : Tracks inline s) (hfree : s.control.free) {p : P} (hp : p ∈ names s.log) (hin : p ∉ inline) :
    (lates s.log).count p + s.relay.unsent.count p + s.relay.tasks.count p = 1 := by
  obtain ⟨hrest, hnew, -⟩ := rest_free hfree
  have hmem : p ∈ lates s.log ++ pending s := by
    rcases h.scheduled p hp with hp | hp | hp
    · exact absurd hp hin
    · exact hp
    · rw [hrest] at hp
      cases hp
  have hcount := count_eq_one_of_mem h.once hmem
  rw [pending, hnew] at hcount
  simpa [Nat.add_assoc] using hcount

/-- Whatever the schedule and however often `progress` is dropped: manifests leave in the order they
were computed, none is lost or sent twice; a path that was named and is not inline has its manifest
on the wire once, or its recipe is computed or being computed; what was sent is sent again once for
each time it is asked for; a request for chunks waits only while another is served, and requests are
answered in their order, each with one `eof`. When nothing is left to do everything is answered, and
until then there is a step that brings this closer. -/
theorem progress_drop_safe (cat : Catalog P H) (offered inline : List P) {s : State P H}
    (h : (system cat offered inline).Reachable s) :
    computeds s.log = lates s.log ++ s.relay.unsent ∧ Ordered s.log ∧ (lates s.log).Nodup ∧
    (∀ p ∈ lates s.log, p ∈ names s.log ∧ p ∉ inline) ∧ (s.relay.queued ≠ [] → s.relay.serving.isSome) ∧
    (∃ taken, Answering cat s.relay.serving taken (chunks s.log) ∧
      requests s.log = taken ++ s.relay.queued ++ s.control.request) ∧
    (s.control.free →
      (∀ p ∈ names s.log, p ∉ inline → (lates s.log).count p + s.relay.unsent.count p + s.relay.tasks.count p = 1) ∧
      (∀ p, (agains s.log).count p = reRequests inline p s.log.reverse) ∧
      (¬ busy s.relay → (∀ p ∈ names s.log, p ∉ inline → (lates s.log).count p = 1) ∧
        Answered cat (requests s.log) (chunks s.log))) ∧
    (s.control = .select true → busy s.relay →
      (∃ a, a.progresses ∧ (step cat s a).isSome) ∨ s.relay.serving = some ⟨[], false⟩) ∧
    ∀ a s', a.progresses → step cat s a = some s' → work s' < work s := by
  obtain ⟨ht, hordered, hresends, hturn⟩ := reachable_inv h
  have hnodup : (lates s.log).Nodup := (nodup_append.mp ht.once).1
  have hlates : ∀ p ∈ lates s.log, p ∈ names s.log ∧ p ∉ inline := fun p hp =>
    ⟨ht.named p (mem_append_left _ hp), ht.notInline p (mem_append_left _ hp)⟩
  have hqueued : s.relay.queued ≠ [] → s.relay.serving.isSome := by
    intro hq
    by_contra hnone
    exact hq (hturn.turn (by simpa using hnone))
  refine ⟨ht.waiting, hordered, hnodup, hlates, hqueued, hturn.answering, fun hfree => ?_, exists_progress,
    fun a s' ha hstep => work_lt ha hstep⟩
  refine ⟨fun p hp hin => ht.count_eq_one hfree hp hin, fun p => ?_, fun hidle => ?_⟩
  · have hp := hresends p
    rwa [owed_free hfree] at hp
  · simp only [busy, not_or, not_not, Bool.not_eq_true, isSome_eq_false_iff, isNone_iff_eq_none] at hidle
    obtain ⟨htasks, hunsent, hserving⟩ := hidle
    refine ⟨fun p hp hin => by simpa [htasks, hunsent] using ht.count_eq_one hfree hp hin, ?_⟩
    obtain ⟨taken, hans, hreq⟩ := hturn.answering
    rw [hserving] at hans
    rw [hreq, hturn.turn hserving, (rest_free hfree).2.2]
    simpa using Answering.idle_iff.mp hans

def twoInputs : Catalog Bool ℕ where
  info _ := ⟨[], 0⟩
  recipe p := if p then [(1, 1)] else [(0, 1)]

/-- One of them is asked for, then asked for again together with its chunk, while `progress` is
dropped at every turn. -/
def droppedRun : List (Action Bool ℕ) :=
  [.recv ⟨[false], []⟩, .name, .queried [false] fun _ => [], .poll, .drop, .poll, .computed false, .poll, .drop, .poll, .flush,
    .recv ⟨[false], [0]⟩, .name, .queried [] fun _ => [], .poll, .acquire, .drop, .poll, .serve fun _ => [], .other, .poll,
    .serve fun _ => []]

theorem progress_drop_safe_twice : ∃ s, (system twoInputs [true, false] [true]).Reachable s ∧
    names s.log = [false, false] ∧ (lates s.log).count false = 1 ∧ (agains s.log).count false = 1 ∧
    chunks s.log = [some 0, none] ∧ Answered twoInputs (requests s.log) (chunks s.log) := by
  obtain ⟨s, hr, htest⟩ := (system twoInputs [true, false] [true]).exists_reachable_of_exec _ droppedRun
    (fun s => names s.log = [false, false] ∧ ¬ busy s.relay ∧ s.control.free ∧ chunks s.log = [some 0, none] ∧
      reRequests [true] false s.log.reverse = 1) rfl (by decide +kernel)
  obtain ⟨hnames, hidle, hfree, hchunks, hre⟩ := htest
  obtain ⟨-, -, -, -, -, -, hall, -⟩ := progress_drop_safe twoInputs [true, false] [true] hr
  obtain ⟨-, hagain, hdone⟩ := hall hfree
  obtain ⟨hlates, hanswered⟩ := hdone hidle
  exact ⟨s, hr, hnames, hlates false (by simp [hnames]) (by simp), (hagain false).trans hre, hchunks, hanswered⟩

end Tribuchet.Staging.Relaying
