import Mathlib.Data.List.Nodup
import Tribuchet.Base.Runs

/-! The agents that a worker leases its builds from: the pool of free sockets, the adoption
of builds that an earlier worker started, the sweep of agents that hold a build without a
record, and the tasks that hold an agent until they release it. -/

namespace Tribuchet.Agents

open Runs Function List Option

variable {B S : Type} [DecidableEq S]

structure AgentPool (S : Type) where
  all : List S
  free : List S

namespace AgentPool

def new (sockets : List S) : AgentPool S := ⟨sockets, sockets⟩

/-- `free` is a stack. -/
def acquire (p : AgentPool S) : Option (S × AgentPool S) :=
  p.free.getLast?.map fun socket => (socket, { p with free := p.free.dropLast })

def release (p : AgentPool S) (socket : S) : AgentPool S :=
  if socket ∈ p.all then { p with free := p.free ++ [socket] } else p

def reserve (p : AgentPool S) (socket : S) : AgentPool S :=
  { p with free := p.free.filter (· ≠ socket) }

def idleSockets (p : AgentPool S) : List S := p.free

end AgentPool

/-! ### The worker -/

inductive Call
  | answered
  | unreached
  | lost
  deriving DecidableEq

/-- The `state.json` of a build directory. -/
inductive StateFile (B S : Type)
  | missing
  | corrupt
  | finished
  | running (buildId : B) (agentSocket : S)
  deriving DecidableEq

/-- What the worker does before its first session: `adopt_builds`, then
`sweep_orphaned_agent_builds`. -/
inductive Startup (B S : Type)
  | adopting (entries : List (StateFile B S))
  | calling (buildId : B) (socket : S) (entries : List (StateFile B S))
  | refused (socket : S) (entries : List (StateFile B S))
  | sweeping (sockets : List S)
  | orphaned (socket : S) (buildId : B) (sockets : List S)
  | serving
  deriving DecidableEq

inductive Stage
  | starting
  | running
  | over
  deriving DecidableEq

/-- A task that holds an agent: `execute`, or the supervision of an adopted build, or the
cleanup of an orphan. A task that panics stays where it is. -/
structure Task (B S : Type) where
  buildId : B
  socket : S
  stage : Stage
  deriving DecidableEq

structure State (B S : Type) where
  pool : AgentPool S
  startup : Startup B S
  tasks : List (Task B S)
  current : S → Option B

/-- A worker finds some build directories, in some order, and some builds on the agents. -/
def State.init (sockets : List S) (entries : List (StateFile B S)) (current : S → Option B) : State B S :=
  ⟨.new sockets, .adopting entries, [], current⟩

inductive Action (B S : Type)
  | visit
  | adopt (call : Call)
  | giveBack
  | query (call : Call)
  | reserveOrphan
  | acquire (buildId : B)
  | start (t : Task B S) (call : Call)
  | cleanup (t : Task B S) (call : Call)
  | release (t : Task B S)
  | agentExits (socket : S)

section

variable [DecidableEq B]

def State.setTask (s : State B S) (t t' : Task B S) : State B S := { s with tasks := t' :: s.tasks.erase t }

def step (s : State B S) : Action B S → Option (State B S)
  | .visit =>
    match s.startup with
    | .adopting [] => some { s with startup := .sweeping s.pool.idleSockets }
    | .adopting (.running id socket :: entries) =>
      some { s with pool := s.pool.reserve socket, startup := .calling id socket entries }
    | .adopting (_ :: entries) => some { s with startup := .adopting entries }
    | _ => none
  | .adopt call =>
    match s.startup with
    | .calling id socket entries =>
      if call = .answered ∧ s.current socket = some id then
        some { s with startup := .adopting entries, tasks := ⟨id, socket, .running⟩ :: s.tasks }
      else
        some { s with startup := .refused socket entries }
    | _ => none
  | .giveBack =>
    match s.startup with
    | .refused socket entries => some { s with pool := s.pool.release socket, startup := .adopting entries }
    | _ => none
  | .query call =>
    match s.startup with
    | .sweeping [] => some { s with startup := .serving }
    | .sweeping (socket :: sockets) =>
      match call, s.current socket with
      | .answered, some id => some { s with startup := .orphaned socket id sockets }
      | _, _ => some { s with startup := .sweeping sockets }
    | _ => none
  | .reserveOrphan =>
    match s.startup with
    | .orphaned socket id sockets =>
      some { s with
        pool := s.pool.reserve socket
        startup := .sweeping sockets
        tasks := ⟨id, socket, .running⟩ :: s.tasks }
    | _ => none
  | .acquire id =>
    match s.startup, s.pool.acquire with
    | .serving, some (socket, pool) => some { s with pool := pool, tasks := ⟨id, socket, .starting⟩ :: s.tasks }
    | _, _ => none
  | .start t call =>
    if t ∈ s.tasks ∧ t.stage = .starting then
      -- an agent that holds a build answers Busy
      if s.current t.socket = none ∧ call ≠ .unreached then
        some { s.setTask t { t with stage := if call = .answered then .running else .over } with
          current := update s.current t.socket (some t.buildId) }
      else
        some (s.setTask t { t with stage := .over })
    else none
  | .cleanup t call =>
    if t ∈ s.tasks ∧ t.stage = .running then
      if s.current t.socket = some t.buildId ∧ call ≠ .unreached then
        some { s.setTask t { t with stage := .over } with current := update s.current t.socket none }
      else
        some (s.setTask t { t with stage := .over })
    else none
  | .release t =>
    if t ∈ s.tasks ∧ t.stage = .over then
      some { s with pool := s.pool.release t.socket, tasks := s.tasks.erase t }
    else none
  | .agentExits socket => some { s with current := update s.current socket none }

def system (B S : Type) [DecidableEq B] [DecidableEq S] : System (State B S) (Action B S) where
  init s := ∃ sockets entries current, s = .init sockets entries current
  step := step

end

/-- The socket of the running record that `adopt_builds` visits next. -/
def Startup.visiting : Startup B S → Option S
  | .adopting (.running _ socket :: _) => some socket
  | _ => none

/-- No running record is visited while a task holds the agent that it names. -/
def NoClash (s : State B S) : Action B S → Prop
  | .visit => ∀ socket ∈ s.startup.visiting, socket ∈ s.pool.all → ∀ t ∈ s.tasks, t.socket ≠ socket
  | _ => True

instance (s : State B S) (a : Action B S) : Decidable (NoClash s a) :=
  match a with
  | .visit => inferInstanceAs
      (Decidable (∀ socket ∈ s.startup.visiting, socket ∈ s.pool.all → ∀ t ∈ s.tasks, t.socket ≠ socket))
  | .adopt _ | .giveBack | .query _ | .reserveOrphan | .acquire _ | .start _ _ | .cleanup _ _ | .release _
  | .agentExits _ => inferInstanceAs (Decidable True)

/-! ### The sockets, counted -/

namespace AgentPool

theorem all_release (p : AgentPool S) (socket : S) : (p.release socket).all = p.all := by
  unfold release
  split_ifs <;> rfl

variable {p : AgentPool S}

theorem mem_release {socket x : S} (h : x ∈ (p.release socket).free) : x ∈ p.free ∨ x = socket ∧ socket ∈ p.all := by
  unfold release at h
  split_ifs at h with hs
  · rcases mem_append.mp h with h | h
    · exact .inl h
    · exact .inr ⟨mem_singleton.mp h, hs⟩
  · exact .inl h

theorem count_release (p : AgentPool S) (socket : S) {x : S} (hx : x ∈ p.all) :
    (p.release socket).free.count x = p.free.count x + [socket].count x := by
  unfold release
  split_ifs with hs
  · exact count_append
  · have hne : x ∉ [socket] := fun h => hs (mem_singleton.mp h ▸ hx)
    rw [count_eq_zero_of_not_mem hne, Nat.add_zero]

theorem mem_reserve {socket x : S} : x ∈ (p.reserve socket).free ↔ x ∈ p.free ∧ x ≠ socket := by
  simp [reserve]

theorem count_reserve_self (p : AgentPool S) (socket : S) : (p.reserve socket).free.count socket = 0 :=
  count_eq_zero_of_not_mem fun h => (mem_reserve.mp h).2 rfl

theorem count_reserve_le (p : AgentPool S) (socket x : S) : (p.reserve socket).free.count x ≤ p.free.count x :=
  List.Sublist.count_le x filter_sublist

omit [DecidableEq S] in
theorem acquire_eq {p' : AgentPool S} {socket : S} (h : p.acquire = some (socket, p')) :
    p'.all = p.all ∧ p.free = p'.free ++ [socket] := by
  obtain ⟨x, hx, he⟩ := map_eq_some_iff.mp h
  cases he
  exact ⟨rfl, (dropLast_append_getLast? _ hx).symm⟩

end AgentPool

/-- The socket that `adopt_builds` has taken out of the pool. -/
def Startup.held : Startup B S → List S
  | .calling _ socket _ => [socket]
  | .refused socket _ => [socket]
  | _ => []

/-- The sockets that the sweep took for idle and has not dealt with. -/
@[simp] def Startup.unswept : Startup B S → List S
  | .sweeping sockets => sockets
  | .orphaned socket _ sockets => socket :: sockets
  | _ => []

def State.uses (s : State B S) (x : S) : ℕ :=
  s.pool.free.count x + (s.tasks.map Task.socket).count x + s.startup.held.count x

variable {t : Task B S}

theorem count_erase [DecidableEq B] {tasks : List (Task B S)} (h : t ∈ tasks) (x : S) :
    (tasks.map Task.socket).count x = ((tasks.erase t).map Task.socket).count x + [t.socket].count x := by
  rw [((perm_cons_erase h).map Task.socket).count_eq, map_cons, count_cons, count_singleton]

variable {s : State B S} {t' : Task B S}

structure Inv (s : State B S) : Prop where
  configured : ∀ x ∈ s.pool.free, x ∈ s.pool.all
  once : ∀ x ∈ s.pool.all, s.uses x ≤ 1
  unswept : s.startup.unswept.Nodup ∧ ∀ x ∈ s.startup.unswept, x ∈ s.pool.free

theorem Inv.not_free (h : Inv s) (ht : t ∈ s.tasks) : t.socket ∉ s.pool.free := by
  intro hf
  have h1 := h.once _ (h.configured _ hf)
  have h2 : 0 < s.pool.free.count t.socket := count_pos_iff.mpr hf
  have h3 : 0 < (s.tasks.map Task.socket).count t.socket := count_pos_iff.mpr (mem_map_of_mem ht)
  unfold State.uses at h1
  omega

theorem Inv.nodup (h : Inv s) : s.pool.free.Nodup := by
  rw [nodup_iff_count_le_one]
  intro x
  by_cases hx : x ∈ s.pool.free
  · have h1 := h.once x (h.configured x hx)
    unfold State.uses at h1
    omega
  · rw [count_eq_zero_of_not_mem hx]
    exact Nat.zero_le 1

theorem inv_init (sockets : List S) (entries : List (StateFile B S)) (current : S → Option B)
    (hn : sockets.Nodup) : Inv (.init sockets entries current) where
  configured := fun _ hx => hx
  once := fun x _ => nodup_iff_count_le_one.mp hn x
  unswept := ⟨nodup_nil, by simp [State.init]⟩

variable [DecidableEq B]
variable {s' : State B S}

variable {call : Call}

theorem step_start (hs : step s (.start t call) = some s') : t ∈ s.tasks ∧ t.stage = .starting ∧
      (s.current t.socket = none ∧ call ≠ .unreached ∧
        s' = { s.setTask t { t with stage := if call = .answered then .running else .over } with
          current := update s.current t.socket (some t.buildId) } ∨
      ¬ (s.current t.socket = none ∧ call ≠ .unreached) ∧ s' = s.setTask t { t with stage := .over }) := by
  obtain ⟨ht, hs⟩ := ite_none_right_eq_some.mp hs
  split at hs
  · rename_i hc
    exact ⟨ht.1, ht.2, .inl ⟨hc.1, hc.2, (some.inj hs).symm⟩⟩
  · rename_i hc
    exact ⟨ht.1, ht.2, .inr ⟨hc, (some.inj hs).symm⟩⟩

theorem step_cleanup (hs : step s (.cleanup t call) = some s') : t ∈ s.tasks ∧ t.stage = .running ∧
      (s.current t.socket = some t.buildId ∧ call ≠ .unreached ∧
        s' = { s.setTask t { t with stage := .over } with current := update s.current t.socket none } ∨
      ¬ (s.current t.socket = some t.buildId ∧ call ≠ .unreached) ∧ s' = s.setTask t { t with stage := .over }) := by
  obtain ⟨ht, hs⟩ := ite_none_right_eq_some.mp hs
  split at hs
  · rename_i hc
    exact ⟨ht.1, ht.2, .inl ⟨hc.1, hc.2, (some.inj hs).symm⟩⟩
  · rename_i hc
    exact ⟨ht.1, ht.2, .inr ⟨hc, (some.inj hs).symm⟩⟩

variable (h : Inv s)

include h

theorem inv_visit (hc : NoClash s .visit) (hs : step s .visit = some s') : Inv s' := by
  have honce := h.once
  simp only [step] at hs
  split at hs
  · rename_i hst
    cases hs
    refine ⟨h.configured, fun x hx => ?_, h.nodup, fun _ hx => hx⟩
    have hx := honce x hx
    rw [State.uses, hst] at hx
    exact hx
  · rename_i id socket entries hst
    cases hs
    refine ⟨fun x hx => h.configured x (AgentPool.mem_reserve.mp hx).1, fun x hx => ?_, nodup_nil,
      by simp⟩
    have hx1 := honce x hx
    have hle := s.pool.count_reserve_le socket x
    simp only [State.uses, Startup.held] at hx1 ⊢
    by_cases hxs : x = socket
    · -- the record's socket is held by no task, so it may be free, and is now held
      subst hxs
      have hzero : (s.tasks.map Task.socket).count x = 0 := by
        refine count_eq_zero_of_not_mem fun hm => ?_
        obtain ⟨t, ht, rfl⟩ := mem_map.mp hm
        exact hc t.socket (by rw [hst]; rfl) hx t ht rfl
      have hself := s.pool.count_reserve_self x
      have hone : [x].count x = 1 := count_singleton_self
      omega
    · rw [count_eq_zero_of_not_mem (by simpa using hxs : x ∉ [socket])]
      omega
  · rename_i entry entries hne hst
    cases hs
    refine ⟨h.configured, fun x hx => ?_, nodup_nil, by simp⟩
    have hx := honce x hx
    rw [State.uses, hst] at hx
    exact hx
  · cases hs

theorem inv_adopt (hs : step s (.adopt call) = some s') : Inv s' := by
  have honce := h.once
  simp only [step] at hs
  split at hs
  · rename_i id socket entries hst
    simp only [State.uses, hst, Startup.held] at honce
    split_ifs at hs
    · cases hs
      refine ⟨h.configured, fun x hx => ?_, nodup_nil, by simp⟩
      have hx := honce x hx
      simp only [State.uses, Startup.held, map_cons, count_cons, count_nil] at hx ⊢
      omega
    · cases hs
      exact ⟨h.configured, honce, nodup_nil, by simp⟩
  · cases hs

theorem inv_giveBack (hs : step s .giveBack = some s') : Inv s' := by
  have honce := h.once
  simp only [step] at hs
  split at hs
  · rename_i socket entries hst
    cases hs
    simp only [State.uses, hst, Startup.held] at honce
    refine ⟨fun x hx => ?_, fun x hx => ?_, nodup_nil, by simp⟩
    · rw [AgentPool.all_release]
      rcases AgentPool.mem_release hx with hx | ⟨rfl, hx⟩
      · exact h.configured x hx
      · exact hx
    · rw [AgentPool.all_release] at hx
      have hle := honce x hx
      simp only [State.uses, Startup.held, AgentPool.count_release _ _ hx, count_nil] at hle ⊢
      omega
  · cases hs

theorem inv_query (hs : step s (.query call) = some s') : Inv s' := by
  have honce := h.once
  have hun := h.unswept
  simp only [step] at hs
  split at hs
  · rename_i hst
    cases hs
    rw [hst] at hun
    simp only [State.uses, hst, Startup.held] at honce
    exact ⟨h.configured, honce, hun⟩
  · rename_i socket sockets hst
    rw [hst] at hun
    simp only [State.uses, hst, Startup.held] at honce
    split at hs
    · cases hs
      exact ⟨h.configured, honce, hun⟩
    · cases hs
      refine ⟨h.configured, honce, (nodup_cons.mp hun.1).2, fun x hx => ?_⟩
      exact hun.2 x (mem_cons_of_mem _ hx)
  · cases hs

theorem inv_reserveOrphan (hs : step s .reserveOrphan = some s') : Inv s' := by
  have honce := h.once
  have hun := h.unswept
  simp only [step] at hs
  split at hs
  · rename_i socket id sockets hst
    cases hs
    rw [hst] at hun
    obtain ⟨hnodup, hfree⟩ := hun
    obtain ⟨hnot, hnodup⟩ := nodup_cons.mp hnodup
    simp only [State.uses, hst, Startup.held] at honce
    refine ⟨fun x hx => h.configured x (AgentPool.mem_reserve.mp hx).1, fun x hx => ?_, hnodup, fun x hx => ?_⟩
    · have hle := honce x hx
      have hres := s.pool.count_reserve_le socket x
      simp only [State.uses, Startup.held, map_cons, count_cons, count_nil] at hle ⊢
      split_ifs with heq
      · -- the socket was free until now
        obtain rfl := eq_of_beq heq
        have hpos : 0 < s.pool.free.count socket := count_pos_iff.mpr (hfree _ mem_cons_self)
        rw [AgentPool.count_reserve_self]
        omega
      · omega
    · refine AgentPool.mem_reserve.mpr ⟨hfree x (mem_cons_of_mem _ hx), ?_⟩
      rintro rfl
      exact hnot hx
  · cases hs

theorem inv_acquire {id : B} (hs : step s (.acquire id) = some s') : Inv s' := by
  have honce := h.once
  simp only [step] at hs
  split at hs
  · rename_i socket pool hst hacq
    cases hs
    obtain ⟨hall, hfree⟩ := AgentPool.acquire_eq hacq
    refine ⟨fun x hx => ?_, fun x hx => ?_, ?_⟩
    · show x ∈ pool.all
      rw [hall]
      exact h.configured x (by rw [hfree]; exact mem_append_left _ hx)
    · have hx : x ∈ pool.all := hx
      have hle := honce x (hall ▸ hx)
      simp only [State.uses, hfree, hst, Startup.held, map_cons, count_append, count_cons,
        count_nil] at hle ⊢
      omega
    · simp [hst]
  · cases hs

theorem inv_setTask {current : S → Option B} (ht : t ∈ s.tasks)
    (hs : t'.socket = t.socket) : Inv { s.setTask t t' with current := current } := by
  refine ⟨h.configured, fun x hx => ?_, h.unswept⟩
  have hle := h.once x hx
  rw [State.uses, count_erase ht, count_singleton] at hle
  rw [State.uses, State.setTask, map_cons, count_cons, hs]
  exact hle

theorem inv_release (hs : step s (.release t) = some s') : Inv s' := by
  simp only [step] at hs
  split_ifs at hs with hc
  cases hs
  refine ⟨fun x hx => ?_, fun x hx => ?_, h.unswept.1, fun x hx => ?_⟩
  · rw [AgentPool.all_release]
    rcases AgentPool.mem_release hx with hx | ⟨rfl, hall⟩
    · exact h.configured x hx
    · exact hall
  · rw [AgentPool.all_release] at hx
    have hle := h.once x hx
    rw [State.uses, count_erase hc.1 x] at hle
    simp only [State.uses, AgentPool.count_release _ _ hx]
    omega
  · have hx := h.unswept.2 x hx
    show x ∈ (s.pool.release t.socket).free
    unfold AgentPool.release
    split_ifs
    · exact mem_append_left _ hx
    · exact hx

theorem inv_step {a : Action B S} (hc : NoClash s a) (hs : step s a = some s') : Inv s' := by
  cases a with
  | visit => exact inv_visit h hc hs
  | adopt call => exact inv_adopt h hs
  | giveBack => exact inv_giveBack h hs
  | query call => exact inv_query h hs
  | reserveOrphan => exact inv_reserveOrphan h hs
  | acquire id => exact inv_acquire h hs
  | start t call =>
    obtain ⟨ht, -, ⟨-, -, rfl⟩ | ⟨-, rfl⟩⟩ := step_start hs
    · exact inv_setTask h ht rfl
    · exact inv_setTask h ht rfl
  | cleanup t call =>
    obtain ⟨ht, -, ⟨-, -, rfl⟩ | ⟨-, rfl⟩⟩ := step_cleanup hs
    · exact inv_setTask h ht rfl
    · exact inv_setTask h ht rfl
  | release t => exact inv_release h hs
  | agentExits socket =>
    cases hs
    exact ⟨h.configured, h.once, h.unswept⟩

omit h

theorem all_step {a : Action B S} (hs : step s a = some s') : s'.pool.all = s.pool.all := by
  cases a with
  | visit =>
    simp only [step] at hs
    split at hs <;> cases hs <;> rfl
  | adopt call =>
    simp only [step] at hs
    split at hs
    · split_ifs at hs <;> cases hs <;> rfl
    · cases hs
  | giveBack =>
    simp only [step] at hs
    split at hs
    · cases hs
      exact AgentPool.all_release _ _
    · cases hs
  | query call =>
    simp only [step] at hs
    split at hs
    · cases hs
      rfl
    · split at hs <;> cases hs <;> rfl
    · cases hs
  | reserveOrphan =>
    simp only [step] at hs
    split at hs <;> cases hs
    rfl
  | acquire id =>
    simp only [step] at hs
    split at hs
    · rename_i hacq
      cases hs
      exact (AgentPool.acquire_eq hacq).1
    · cases hs
  | start t call => obtain ⟨-, -, ⟨-, -, rfl⟩ | ⟨-, rfl⟩⟩ := step_start hs <;> rfl
  | cleanup t call => obtain ⟨-, -, ⟨-, -, rfl⟩ | ⟨-, rfl⟩⟩ := step_cleanup hs <;> rfl
  | release t =>
    simp only [step] at hs
    split_ifs at hs
    cases hs
    exact AgentPool.all_release _ _
  | agentExits socket =>
    cases hs
    rfl

theorem inv_of_reachable {ok : State B S → Action B S → Prop} (hok : ∀ s a, ok s a → NoClash s a)
    (h : (system B S).ReachableIf ok s) (hn : s.pool.all.Nodup) : Inv s := by
  refine h.invariant (I := fun s => s.pool.all.Nodup → Inv s) ?_ (fun s a s' hi hc hs hn => ?_) hn
  · rintro _ ⟨sockets, entries, current, rfl⟩ hn
    exact inv_init sockets entries current hn
  · rw [all_step hs] at hn
    exact inv_step (hi hn) (hok s a hc) hs

/-- If no running record is visited while a task holds the agent that it names, and no
socket is configured twice: a socket is free at most once, and not while a task holds it, so
`acquire` hands out no agent that is held. -/
theorem free_agents_unheld {s : State B S} (h : (system B S).ReachableIf NoClash s) (hn : s.pool.all.Nodup) :
    s.pool.free.Nodup ∧ (∀ t ∈ s.tasks, t.socket ∉ s.pool.free) ∧
      ∀ socket pool, s.pool.acquire = some (socket, pool) → ∀ t ∈ s.tasks, t.socket ≠ socket := by
  have hi := inv_of_reachable (fun _ _ hc => hc) h hn
  refine ⟨hi.nodup, fun t ht => hi.not_free ht, ?_⟩
  rintro socket pool hacq t ht rfl
  exact hi.not_free ht (by simp [(AgentPool.acquire_eq hacq).2])

/-- One build is adopted, the record of another is refused, and a third build has no record:
of the three agents one is free. -/
theorem free_agents_unheld_adopted : ∃ s : State ℕ ℕ, (system ℕ ℕ).ReachableIf NoClash s ∧ s.pool.all = [0, 1, 2] ∧
    s.startup = .serving ∧ s.pool.free = [1] ∧ s.tasks = [⟨30, 2, .running⟩, ⟨10, 0, .running⟩] ∧
    s.pool.free.Nodup := by
  obtain ⟨s, hs, h⟩ := (system ℕ ℕ).exists_reachableIf_of_decide NoClash
    (.init [0, 1, 2] [.running 10 0, .running 20 1, .finished]
      fun socket => if socket = 0 then some 10 else if socket = 2 then some 30 else none)
    [.visit, .adopt .answered, .visit, .adopt .answered, .giveBack, .visit, .visit, .query .answered, .reserveOrphan,
      .query .answered, .query .answered]
    (fun s => s.pool.all = [0, 1, 2] ∧ s.startup = .serving ∧ s.pool.free = [1] ∧
      s.tasks = [⟨30, 2, .running⟩, ⟨10, 0, .running⟩]) ⟨_, _, _, rfl⟩ (by decide)
  obtain ⟨hall, hst, hfree, htasks⟩ := h
  exact ⟨s, hs, hall, hst, hfree, htasks, (free_agents_unheld hs (by rw [hall]; decide)).1⟩

/-- The record of an old build is visited after the build that its agent was given next has
been adopted: the refusal makes the agent free, the sweep takes the adopted build for an
orphan, and its cleanup and the supervision both release the agent. A new build gets the
agent, which stays free. -/
theorem held_agent_free : ∃ s : State ℕ ℕ, (system ℕ ℕ).Reachable s ∧ s.pool.all = [0] ∧
    s.tasks = [⟨3, 0, .running⟩] ∧ s.current 0 = some 3 ∧ s.pool.free = [0] ∧
    s.pool.acquire.map Prod.fst = some 0 := by
  exact (system ℕ ℕ).exists_reachable_of_exec
    (.init [0] [.running 2 0, .running 1 0] fun _ => some 2)
    [.visit, .adopt .answered, .visit, .adopt .answered, .giveBack, .visit, .query .answered, .reserveOrphan,
      .query .answered, .cleanup ⟨2, 0, .running⟩ .answered, .cleanup ⟨2, 0, .running⟩ .answered,
      .release ⟨2, 0, .over⟩, .release ⟨2, 0, .over⟩, .acquire 3, .start ⟨3, 0, .starting⟩ .answered] _ ⟨_, _, _, rfl⟩ (by decide)

end Tribuchet.Agents
