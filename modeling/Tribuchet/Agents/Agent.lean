import Mathlib.Data.List.Nodup
import Tribuchet.Base.Runs

/-! One build agent. The accept thread reads every call and handles Status, Kill, Finish,
Cleanup and Shutdown itself; a Start or an Adopt goes to a thread of its own. The build that the
agent holds is behind a lock, which a Start keeps from its look at it until its build is
registered, and the other handlers release before they kill, clean up or exit. -/

set_option linter.unusedSectionVars false

namespace Tribuchet.Agents.Agent

open Runs List Option

variable {B P : Type} [DecidableEq B] [DecidableEq P]

structure Options where
  activated : Bool
  dedicatedUid : Bool
  userns : Bool

def Options.dedicated (o : Options) : Bool := o.activated || o.dedicatedUid

structure Build (B P : Type) where
  id : B
  launch : ℕ
  pid : ℕ
  sandboxed : Bool
  outputs : List P
  deriving DecidableEq

structure Process where
  launch : ℕ
  group : ℕ
  deriving DecidableEq

inductive Path (P : Type)
  | scratch (launch : ℕ)
  | store (path : P)
  deriving DecidableEq

structure File (P : Type) where
  launch : ℕ
  path : Path P
  deriving DecidableEq

/-- `Agent::kill_sweep`: the process group, every process of a dedicated uid, and every process
of the uid block. Builds run as the agent's uid, or in the block if there is one. -/
def killSweep (o : Options) (pgid : Option ℕ) (procs : List Process) : List Process :=
  procs.filter fun p => !(o.dedicated || o.userns || pgid == some p.group)

/-- What `platform::cleanup` removes. -/
def Build.removes (b : Build B P) : Path P → Bool
  | .scratch launch => launch == b.launch
  | .store path => !b.sandboxed && b.outputs.contains path

inductive Control (B : Type)
  | status
  | kill (id : B)
  | finish (id : B)
  | cleanup (id : B)
  | shutdown
  deriving DecidableEq

structure StartRequest (B P : Type) where
  id : B
  outputs : List P
  deriving DecidableEq

inductive Call (B P : Type)
  | start (req : StartRequest B P)
  | adopt (id : B)
  | control (c : Control B)

inductive Kind
  | kill
  | finish
  | cleanup
  deriving DecidableEq

inductive Handler (B P : Type)
  | idle
  | called (c : Control B)
  | sweeping (kind : Kind) (b : Build B P)
  | swept (kind : Kind) (b : Build B P)
  | exiting
  deriving DecidableEq

inductive Holder (B P : Type)
  | staging (req : StartRequest B P)
  | spawned (b : Build B P)
  deriving DecidableEq

structure State (B P : Type) where
  current : Option (Build B P)
  lock : Option (Holder B P)
  handler : Handler B P
  starts : List (StartRequest B P)
  replying : List (Build B P)
  adopts : List B
  procs : List Process
  files : List (File P)
  launches : ℕ
  exited : Bool

def State.init : State B P := ⟨none, none, .idle, [], [], [], [], [], 0, false⟩

def Handler.cleaning : Handler B P → Option (Build B P)
  | .sweeping .cleanup b => some b
  | .swept .cleanup b => some b
  | _ => none

def Holder.spawnedBuild : Holder B P → Option (Build B P)
  | .spawned b => some b
  | .staging _ => none

def State.builds (s : State B P) : List (Build B P) :=
  s.current.toList ++ (s.lock.bind Holder.spawnedBuild).toList ++ s.handler.cleaning.toList

inductive Action (B P : Type)
  | accept (call : Call B P)
  | lockCall
  | sweep
  | conclude
  | exit
  | refuse (req : StartRequest B P)
  | lockStart (req : StartRequest B P)
  | failStart
  | spawn (pid : ℕ)
  | register
  | answerStart (b : Build B P)
  | answerAdopt (id : B)
  | fork (p : Process) (group : ℕ)
  | exitProcess (p : Process)
  | write (p : Process) (path : Path P)

def State.named (s : State B P) (id : B) : Option (Build B P) := s.current.filter (·.id = id)

def State.handle (o : Options) (s : State B P) : Control B → State B P
  | .status => { s with handler := .idle }
  | .kill id =>
    match s.named id with
    | some b => { s with handler := .sweeping .kill b }
    | none => { s with handler := .idle }
  | .finish id =>
    match s.named id with
    | some b => { s with handler := .sweeping .finish b }
    | none => { s with handler := .idle }
  | .cleanup id =>
    match s.named id with
    | some b => { s with current := none, handler := .sweeping .cleanup b }
    | none => { s with handler := .idle }
  | .shutdown =>
    if s.current = none ∧ o.activated = true then { s with handler := .exiting } else { s with handler := .idle }

def next (o : Options) (s : State B P) : Action B P → Option (State B P)
  | .accept call =>
    if s.handler = .idle then
      match call with
      | .start req => some { s with starts := s.starts ++ [req] }
      | .adopt id => some { s with adopts := s.adopts ++ [id] }
      | .control c => some { s with handler := .called c }
    else none
  | .lockCall =>
    match s.handler, s.lock with
    | .called c, none => some (s.handle o c)
    | _, _ => none
  | .sweep =>
    match s.handler with
    | .sweeping kind b => some { s with procs := killSweep o (some b.pid) s.procs, handler := .swept kind b }
    | _ => none
  | .conclude =>
    match s.handler with
    | .swept .cleanup b =>
      some { s with
        files := s.files.filter fun f => !b.removes f.path
        handler := if o.dedicated then .exiting else .idle }
    | .swept _ _ => some { s with handler := .idle }
    | _ => none
  | .exit => if s.handler = .exiting then some { s with exited := true } else none
  | .refuse req => if req ∈ s.starts then some { s with starts := s.starts.erase req } else none
  | .lockStart req =>
    if req ∈ s.starts ∧ s.lock = none then
      match s.current with
      | some _ => some { s with starts := s.starts.erase req }
      | none =>
        some { s with
          starts := s.starts.erase req
          lock := some (.staging req)
          procs := killSweep o none s.procs
          files := s.files.filter fun f => match f.path with | .scratch _ => false | .store _ => true }
    else none
  | .failStart =>
    match s.lock with
    | some (.staging _) => some { s with lock := none }
    | _ => none
  | .spawn pid =>
    match s.lock with
    | some (.staging req) =>
      if pid ∉ s.procs.map Process.group then
        some { s with
          lock := some (.spawned ⟨req.id, s.launches, pid, o.userns, req.outputs⟩)
          procs := ⟨s.launches, pid⟩ :: s.procs
          launches := s.launches + 1 }
      else none
    | _ => none
  | .register =>
    match s.lock with
    | some (.spawned b) => some { s with current := some b, lock := none, replying := b :: s.replying }
    | _ => none
  | .answerStart b => if b ∈ s.replying then some { s with replying := s.replying.erase b } else none
  | .answerAdopt id => if id ∈ s.adopts ∧ s.lock = none then some { s with adopts := s.adopts.erase id } else none
  | .fork p group =>
    -- the pid of a build is not given to another process
    if p ∈ s.procs ∧ (group = p.group ∨
        group ∉ s.procs.map Process.group ∧ group ∉ s.builds.map Build.pid) then
      some { s with procs := ⟨p.launch, group⟩ :: s.procs }
    else none
  | .exitProcess p => if p ∈ s.procs then some { s with procs := s.procs.erase p } else none
  | .write p path => if p ∈ s.procs then some { s with files := ⟨p.launch, path⟩ :: s.files } else none

def step (o : Options) (s : State B P) (a : Action B P) : Option (State B P) :=
  if s.exited then none else next o s a

def system (B P : Type) [DecidableEq B] [DecidableEq P] (o : Options) : System (State B P) (Action B P) where
  init s := s = .init
  step := step o

def State.answered (s : State B P) : Prop := s.starts = [] ∧ s.lock = none ∧ s.replying = []

/-- No Cleanup takes a build and no Shutdown finds none to exit while an accepted Start is
unanswered. -/
def Quiet (o : Options) (s : State B P) : Action B P → Prop
  | .lockCall =>
    match s.handler with
    | .called (.cleanup id) => s.named id ≠ none → s.answered
    | .called .shutdown => s.current = none → o.activated = true → s.answered
    | _ => True
  | _ => True

/-! ### One build at a time -/

def Handler.holding : Handler B P → Option (Build B P)
  | .sweeping .kill b => some b
  | .sweeping .finish b => some b
  | .swept .kill b => some b
  | .swept .finish b => some b
  | _ => none

def Handler.ending : Handler B P → Bool
  | .sweeping .cleanup _ => true
  | .swept .cleanup _ => true
  | .exiting => true
  | _ => false

def Options.wide (o : Options) : Bool := o.dedicated || o.userns

structure Inv (o : Options) (s : State B P) : Prop where
  lock : s.lock ≠ none → s.current = none
  holding : ∀ b, s.handler.holding = some b → s.current = some b
  ending : s.handler.ending = true → s.answered ∧ s.current = none
  owned : o.wide = true → ∀ p ∈ s.procs, ∃ b ∈ s.builds, b.launch = p.launch
  grouped : ∀ b ∈ s.builds, ∀ p ∈ s.procs, p.group = b.pid → p.launch = b.launch
  swept : ∀ b, s.handler = .swept .cleanup b → o.wide = true → s.procs = []

open State

theorem Handler.cleaning_eq_none {h : Handler B P} (he : h.ending = false) : h.cleaning = none := by
  match h with
  | .idle | .called _ | .exiting => rfl
  | .sweeping .kill _ | .sweeping .finish _ | .swept .kill _ | .swept .finish _ => rfl

theorem mem_killSweep {o : Options} {pgid : Option ℕ} {procs : List Process} {p : Process} :
    p ∈ killSweep o pgid procs ↔ p ∈ procs ∧ o.wide = false ∧ pgid ≠ some p.group := by
  simp [killSweep, Options.wide]

theorem killSweep_wide {o : Options} (h : o.wide = true) (pgid : Option ℕ) (procs : List Process) :
    killSweep o pgid procs = [] := by
  refine eq_nil_iff_forall_not_mem.mpr fun p hp => ?_
  have hw := (mem_killSweep.mp hp).2.1
  rw [h] at hw
  cases hw

theorem inv_init (o : Options) : Inv o (.init : State B P) where
  lock := fun h => absurd rfl h
  holding := by rintro _ ⟨⟩
  ending := by rintro ⟨⟩
  owned := by rintro _ _ ⟨⟩
  grouped := by rintro _ ⟨⟩
  swept := by rintro _ ⟨⟩

section

omit [DecidableEq B] [DecidableEq P]

variable {o : Options} {s s' : State B P}

theorem Inv.handler_of_lock (h : Inv o s) (hl : s.lock ≠ none) : s.handler.holding = none ∧ s.handler.ending = false := by
  have hc := h.lock hl
  refine ⟨eq_none_iff_forall_ne_some.mpr fun b hb => ?_, Bool.eq_false_iff.mpr fun he => ?_⟩
  · cases hc.symm.trans (h.holding b hb)
  · exact hl (h.ending he).1.2.1

theorem Inv.of_waiting (hh : s.handler.holding = none) (he : s.handler.ending = false)
    (hl : s.lock ≠ none → s.current = none) (ho : o.wide = true → ∀ p ∈ s.procs, ∃ b ∈ s.builds, b.launch = p.launch)
    (hg : ∀ b ∈ s.builds, ∀ p ∈ s.procs, p.group = b.pid → p.launch = b.launch) : Inv o s := by
  refine ⟨hl, fun b hb => ?_, fun he' => ?_, ho, hg, fun b hb _ => ?_⟩
  · cases hh.symm.trans hb
  · cases he.symm.trans he'
  · rw [hb] at he
    cases he

/-- Nothing that the invariant reads has changed but the handler, the processes and which
Starts are unanswered. -/
theorem Inv.congr (h : Inv o s) (hcur : s'.current = s.current) (hlock : s'.lock = s.lock)
    (hh : s'.handler.holding = s.handler.holding) (hc : s'.handler.cleaning = s.handler.cleaning)
    (he : s'.handler.ending = true → s.handler.ending = true ∧ (s.answered → s'.answered))
    (hp : ∀ p ∈ s'.procs, p ∈ s.procs)
    (hs : ∀ b, s'.handler = .swept .cleanup b → o.wide = true → s'.procs = []) : Inv o s' := by
  have hb : s'.builds = s.builds := by
    unfold builds
    rw [hcur, hlock, hc]
  refine ⟨?_, ?_, fun he' => ?_, ?_, ?_, hs⟩
  · rw [hcur, hlock]
    exact h.lock
  · rw [hcur, hh]
    exact h.holding
  · rw [hcur]
    obtain ⟨hend, hans⟩ := he he'
    exact ⟨hans (h.ending hend).1, (h.ending hend).2⟩
  · rw [hb]
    exact fun hw p hm => h.owned hw p (hp p hm)
  · rw [hb]
    exact fun b hb p hm => h.grouped b hb p (hp p hm)

end

variable {o : Options} {s s' : State B P}

variable (h : Inv o s)

include h

theorem inv_accept {call : Call B P} (hs : next o s (.accept call) = some s') : Inv o s' := by
  simp only [next] at hs
  split_ifs at hs with hidle
  have hwait : s.handler.holding = none ∧ s.handler.ending = false := by
    rw [hidle]
    exact ⟨rfl, rfl⟩
  cases call with
  | start req | adopt id =>
    cases hs
    exact .of_waiting hwait.1 hwait.2 h.lock h.owned h.grouped
  | control c =>
    cases hs
    refine h.congr rfl rfl ?_ ?_ (by rintro ⟨⟩) (fun _ hp => hp) (by rintro _ ⟨⟩)
    · rw [hidle]
      rfl
    · rw [hidle]
      rfl

omit h in
theorem named_eq {id : B} {b : Build B P} (h : s.named id = some b) : s.current = some b :=
  (filter_eq_some_iff.mp h).1

theorem inv_lockCall (hq : Quiet o s .lockCall) (hs : next o s .lockCall = some s') : Inv o s' := by
  simp only [next] at hs
  split at hs
  · rename_i c hcall hlock
    cases hs
    simp only [Quiet, hcall] at hq
    have hbuilds : s.builds = s.current.toList := by simp [builds, hlock, hcall, Handler.cleaning]
    have howned := h.owned
    have hgrouped := h.grouped
    rw [hbuilds] at howned hgrouped
    -- a handler that took no build
    have hset : ∀ handler : Handler B P, handler.cleaning = none →
        (∀ b, handler.holding = some b → s.current = some b) →
        (handler.ending = true → s.answered ∧ s.current = none) → Inv o { s with handler := handler } := by
      intro handler hc hh he
      refine ⟨h.lock, hh, he, ?_, ?_, ?_⟩
      · simpa [builds, hlock, hc] using howned
      · simpa [builds, hlock, hc] using hgrouped
      · rintro b rfl
        cases hc
    have hidle := hset .idle rfl (by rintro _ ⟨⟩) (by rintro ⟨⟩)
    cases c with
    | status => exact hidle
    | kill id | finish id =>
      simp only [handle]
      split
      · rename_i b hb
        refine hset _ rfl ?_ (by rintro ⟨⟩)
        rintro _ ⟨⟩
        exact named_eq hb
      · exact hidle
    | cleanup id =>
      simp only [handle]
      split
      · rename_i b hb
        rw [named_eq hb] at howned hgrouped
        refine ⟨fun _ => rfl, by rintro _ ⟨⟩, fun _ => ⟨hq (by simp [hb]), rfl⟩, ?_, ?_, by rintro _ ⟨⟩⟩
        · simpa [builds, hlock, Handler.cleaning] using howned
        · simpa [builds, hlock, Handler.cleaning] using hgrouped
      · exact hidle
    | shutdown =>
      simp only [handle]
      split_ifs with hc
      · exact hset _ rfl (by rintro _ ⟨⟩) fun _ => ⟨hq hc.1 hc.2, hc.1⟩
      · exact hidle
  · cases hs

theorem inv_sweep (hs : next o s .sweep = some s') : Inv o s' := by
  simp only [next] at hs
  split at hs
  · rename_i kind b hst
    cases hs
    refine h.congr rfl rfl ?_ ?_ ?_ (fun _ hp => (mem_killSweep.mp hp).1) fun _ _ hw => killSweep_wide hw _ _
    · rw [hst]
      cases kind <;> rfl
    · rw [hst]
      cases kind <;> rfl
    · rw [hst]
      cases kind with
      | cleanup => exact fun _ => ⟨rfl, fun hans => hans⟩
      | kill => rintro ⟨⟩
      | finish => rintro ⟨⟩
  · cases hs

theorem inv_conclude (hs : next o s .conclude = some s') : Inv o s' := by
  simp only [next] at hs
  split at hs
  · rename_i b hst
    cases hs
    obtain ⟨hans, hcur⟩ := h.ending (by rw [hst]; rfl)
    have hprocs : o.wide = true → s.procs = [] := h.swept b hst
    have hset : ∀ handler : Handler B P, handler.cleaning = none → handler.holding = none →
        Inv o { s with files := s.files.filter fun f => !b.removes f.path, handler := handler } := by
      intro handler hc hh
      refine ⟨fun _ => hcur, fun b hb => ?_, fun _ => ⟨hans, hcur⟩, fun hw p hp => ?_, ?_, fun b hb => ?_⟩
      · cases hh.symm.trans hb
      · have hp : p ∈ s.procs := hp
        rw [hprocs hw] at hp
        cases hp
      · simp [builds, hc, hans.2.1, hcur]
      · have hb : handler = .swept .cleanup b := hb
        rw [hb] at hc
        cases hc
    split_ifs
    · exact hset _ rfl rfl
    · exact hset _ rfl rfl
  · rename_i kind b hne hst
    cases hs
    have hbuilds : builds { s with handler := .idle } = s.builds := by
      unfold builds
      rw [hst]
      cases kind with
      | cleanup => exact (hne rfl).elim
      | kill => rfl
      | finish => rfl
    refine .of_waiting rfl rfl h.lock ?_ ?_
    · rw [hbuilds]
      exact h.owned
    · rw [hbuilds]
      exact h.grouped
  · cases hs

theorem Inv.builds_eq_nil (hl : s.lock = none) (hc : s.current = none) (hs : s.starts ≠ []) :
    s.handler.holding = none ∧ s.handler.ending = false ∧ s.builds = [] := by
  have he : s.handler.ending = false := Bool.eq_false_iff.mpr fun he => hs (h.ending he).1.1
  refine ⟨eq_none_iff_forall_ne_some.mpr fun b hb => ?_, he, ?_⟩
  · cases hc.symm.trans (h.holding b hb)
  · simp [builds, hl, hc, Handler.cleaning_eq_none he]

theorem inv_lockStart {req : StartRequest B P} (hs : next o s (.lockStart req) = some s') : Inv o s' := by
  simp only [next] at hs
  split_ifs at hs with hc
  obtain ⟨hreq, hlock⟩ := hc
  split at hs
  · rename_i b hcur
    cases hs
    refine h.congr rfl rfl rfl rfl (fun he => ⟨he, ?_⟩) (fun _ hp => hp) h.swept
    rintro ⟨hstarts, -⟩
    rw [hstarts] at hreq
    cases hreq
  · rename_i hcur
    cases hs
    obtain ⟨hh, he, -⟩ := h.builds_eq_nil hlock hcur (ne_nil_of_mem hreq)
    refine .of_waiting hh he (fun _ => hcur) (fun hw p hp => ?_) ?_
    · rw [killSweep_wide hw] at hp
      cases hp
    · simp [builds, hcur, Holder.spawnedBuild, Handler.cleaning_eq_none he]

theorem inv_spawn {pid : ℕ} (hs : next o s (.spawn pid) = some s') : Inv o s' := by
  simp only [next] at hs
  split at hs
  · rename_i req hlock
    split_ifs at hs with hpid
    cases hs
    have hl : s.lock ≠ none := by simp [hlock]
    have hcur := h.lock hl
    obtain ⟨hh, he⟩ := h.handler_of_lock hl
    have hnone : s.builds = [] := by
      simp [builds, hcur, hlock, Holder.spawnedBuild, Handler.cleaning_eq_none he]
    refine .of_waiting hh he (fun _ => hcur) (fun hw p hp => ?_) (fun b hb p hp hg => ?_)
    · rcases mem_cons.mp hp with rfl | hp
      · exact ⟨_, mem_append_left _ (mem_append_right _ (mem_singleton.mpr rfl)), rfl⟩
      · obtain ⟨b, hb, -⟩ := h.owned hw p hp
        rw [hnone] at hb
        cases hb
    · simp only [builds, hcur, Holder.spawnedBuild, Handler.cleaning_eq_none he, bind_some,
        toList_none, toList_some, nil_append, append_nil, mem_singleton] at hb
      subst hb
      rcases mem_cons.mp hp with rfl | hp
      · rfl
      · exact (hpid (mem_map.mpr ⟨p, hp, hg⟩)).elim
  · cases hs

theorem inv_register (hs : next o s .register = some s') : Inv o s' := by
  simp only [next] at hs
  split at hs
  · rename_i b hlock
    cases hs
    have hl : s.lock ≠ none := by simp [hlock]
    obtain ⟨hh, he⟩ := h.handler_of_lock hl
    have hbuilds : s.builds = [b] := by
      simp [builds, h.lock hl, hlock, Holder.spawnedBuild, Handler.cleaning_eq_none he]
    have howned := h.owned
    have hgrouped := h.grouped
    rw [hbuilds] at howned hgrouped
    refine .of_waiting hh he (fun hl => absurd rfl hl) ?_ ?_
    · simpa [builds, Handler.cleaning_eq_none he] using howned
    · simpa [builds, Handler.cleaning_eq_none he] using hgrouped
  · cases hs

theorem inv_fork {p : Process} {group : ℕ} (hs : next o s (.fork p group) = some s') : Inv o s' := by
  simp only [next] at hs
  split_ifs at hs with hc
  cases hs
  obtain ⟨hp, hg⟩ := hc
  refine ⟨h.lock, h.holding, h.ending, fun hw p' hp' => ?_, fun b hb p' hp' hgb => ?_, fun b hb hw => ?_⟩
  · rcases mem_cons.mp hp' with rfl | hp'
    · exact h.owned hw p hp
    · exact h.owned hw p' hp'
  · rcases mem_cons.mp hp' with rfl | hp'
    · rcases hg with rfl | ⟨-, hg⟩
      · exact h.grouped b hb p hp hgb
      · exact (hg (mem_map.mpr ⟨b, hb, hgb.symm⟩)).elim
    · exact h.grouped b hb p' hp' hgb
  · rw [h.swept b hb hw] at hp
    cases hp

theorem inv_next {a : Action B P} (hq : Quiet o s a) (hs : next o s a = some s') : Inv o s' := by
  cases a with
  | accept call => exact inv_accept h hs
  | lockCall => exact inv_lockCall h hq hs
  | sweep => exact inv_sweep h hs
  | conclude => exact inv_conclude h hs
  | refuse req =>
    simp only [next] at hs
    split_ifs at hs with hreq
    cases hs
    refine h.congr rfl rfl rfl rfl (fun he => ⟨he, ?_⟩) (fun _ hp => hp) h.swept
    rintro ⟨hstarts, -⟩
    rw [hstarts] at hreq
    cases hreq
  | lockStart req => exact inv_lockStart h hs
  | failStart =>
    simp only [next] at hs
    split at hs
    · rename_i req hlock
      cases hs
      have hl : s.lock ≠ none := by simp [hlock]
      obtain ⟨hh, he⟩ := h.handler_of_lock hl
      have hbuilds : builds { s with lock := none } = s.builds := by
        simp [builds, hlock, Holder.spawnedBuild]
      refine .of_waiting hh he (fun hl => absurd rfl hl) ?_ ?_
      · rw [hbuilds]
        exact h.owned
      · rw [hbuilds]
        exact h.grouped
    · cases hs
  | spawn pid => exact inv_spawn h hs
  | register => exact inv_register h hs
  | answerStart b =>
    simp only [next] at hs
    split_ifs at hs with hb
    cases hs
    refine h.congr rfl rfl rfl rfl (fun he => ⟨he, ?_⟩) (fun _ hp => hp) h.swept
    rintro ⟨-, -, hr⟩
    rw [hr] at hb
    cases hb
  | fork p group => exact inv_fork h hs
  | exitProcess p =>
    simp only [next] at hs
    split_ifs at hs
    cases hs
    refine h.congr rfl rfl rfl rfl (fun he => ⟨he, fun hans => hans⟩) (fun _ hp => mem_of_mem_erase hp)
      fun b hb hw => ?_
    show s.procs.erase p = []
    rw [h.swept b hb hw]
    rfl
  | exit | answerAdopt id | write p path =>
    simp only [next] at hs
    split_ifs at hs
    cases hs
    exact ⟨h.lock, h.holding, h.ending, h.owned, h.grouped, h.swept⟩

theorem Inv.builds_of_sweeping {kind : Kind} {b : Build B P} (hs : s.handler = .sweeping kind b) :
    s.builds = [b] := by
  have hfound : s.handler.holding = some b → s.handler.cleaning = none → s.builds = [b] := by
    intro hh hc
    have hcur := h.holding b hh
    have hlock : s.lock = none := by
      by_contra hl
      cases hcur.symm.trans (h.lock hl)
    simp [builds, hcur, hlock, hc]
  rw [hs] at hfound
  cases kind with
  | kill => exact hfound rfl rfl
  | finish => exact hfound rfl rfl
  | cleanup =>
    obtain ⟨hans, hcur⟩ := h.ending (by rw [hs]; rfl)
    simp [builds, hs, hcur, hans.2.1, Handler.cleaning]

omit h

/-- If no Cleanup takes a build and no Shutdown finds none while an accepted Start is
unanswered: no build is registered over another, a Kill, Finish or Cleanup kills only processes
of the build that it names, a Cleanup removes no file of another build that is not cleaned up,
and the agent exits only when every accepted Start is answered and no build is registered. -/
theorem calls_spare_other_builds_if_quiet (o : Options) {s : State B P} (h : (system B P o).ReachableIf (Quiet o) s) :
    (s.lock ≠ none → s.current = none) ∧ (∀ kind b, s.handler = .sweeping kind b →
      ∀ p ∈ s.procs, p ∉ killSweep o (some b.pid) s.procs → p.launch = b.launch) ∧
    (∀ b, s.handler = .swept .cleanup b →
      ∀ f ∈ s.files, b.removes f.path = true → ∀ b' ∈ s.builds, b' ≠ b → f.launch ≠ b'.launch) ∧
    (s.handler = .exiting → s.answered ∧ s.current = none) := by
  have hi : Inv o s := by
    refine h.invariant ?_ fun s a s' hi hq hs => ?_
    · rintro _ rfl
      exact inv_init o
    · simp only [system, step] at hs
      split_ifs at hs
      exact inv_next hi hq hs
  refine ⟨hi.lock, fun kind b hs p hp hk => ?_, fun b hs f _ _ b' hb' hne => ?_, fun hs => hi.ending (by rw [hs]; rfl)⟩
  · have hb := hi.builds_of_sweeping hs
    by_cases hw : o.wide = true
    · obtain ⟨b', hb', hl⟩ := hi.owned hw p hp
      rw [hb, mem_singleton] at hb'
      rw [← hl, hb']
    · refine hi.grouped b (by rw [hb]; exact mem_singleton.mpr rfl) p hp ?_
      by_contra hg
      exact hk (mem_killSweep.mpr ⟨hp, by simpa using hw, fun heq => hg (some.inj heq).symm⟩)
  · obtain ⟨hans, hcur⟩ := hi.ending (by rw [hs]; rfl)
    simp only [builds, hs, hcur, hans.2.1, Handler.cleaning, bind_none, toList_none,
      toList_some, nil_append, mem_singleton] at hb'
    exact (hne hb').elim

/-- Every accepted Start is answered whenever the accept thread takes the lock. -/
instance (o : Options) (s : State ℕ ℕ) (a : Action ℕ ℕ) : Decidable (Quiet o s a) := by
  cases a with
  | lockCall =>
    dsimp only [Quiet, answered]
    split <;> infer_instance
  | _ => exact isTrue trivial

/-- A Kill names a build that the agent does not hold, and the build that it holds is cleaned
up after a process of it has left its process group. -/
theorem calls_spare_other_builds_cleanup : ∃ s : State ℕ ℕ,
    (system ℕ ℕ ⟨true, false, false⟩).ReachableIf (Quiet ⟨true, false, false⟩) s ∧
    s.handler = .sweeping .cleanup ⟨7, 0, 100, false, [1]⟩ ∧ s.procs = [⟨0, 101⟩, ⟨0, 100⟩] ∧
    ∀ p ∈ s.procs, p ∉ killSweep ⟨true, false, false⟩ (some 100) s.procs → p.launch = 0 := by
  obtain ⟨s, hs, h⟩ := (system ℕ ℕ ⟨true, false, false⟩).exists_reachableIf_of_decide (Quiet ⟨true, false, false⟩) .init
    [.accept (.start ⟨7, [1]⟩), .lockStart ⟨7, [1]⟩, .spawn 100, .register, .answerStart ⟨7, 0, 100, false, [1]⟩,
      .write ⟨0, 100⟩ (.store 1), .accept (.control (.kill 8)), .lockCall, .fork ⟨0, 100⟩ 101,
      .accept (.control (.cleanup 7)), .lockCall]
    (fun s => s.handler = .sweeping .cleanup ⟨7, 0, 100, false, [1]⟩ ∧ s.procs = [⟨0, 101⟩, ⟨0, 100⟩]) rfl (by decide)
  obtain ⟨hh, hp⟩ := h
  exact ⟨s, hs, hh, hp, (calls_spare_other_builds_if_quiet _ hs).2.1 .cleanup _ hh⟩

/-- A Start was accepted before the Cleanup of the build that the agent holds, and gets the lock
after the Cleanup has taken that build: the sweep kills the process of the new build, and the
agent exits with that build registered and its Start unanswered. -/
theorem cleanup_kills_new_build : ∃ s s' : State ℕ ℕ, (system ℕ ℕ ⟨true, false, false⟩).Reachable s ∧
    s.handler = .sweeping .cleanup ⟨7, 0, 100, false, []⟩ ∧ s.current = some ⟨8, 1, 101, false, []⟩ ∧
    ⟨1, 101⟩ ∈ s.procs ∧ ⟨1, 101⟩ ∉ killSweep ⟨true, false, false⟩ (some 100) s.procs ∧
    (system ℕ ℕ ⟨true, false, false⟩).exec s [.sweep, .conclude] = some s' ∧
    s'.handler = .exiting ∧ s'.current = some ⟨8, 1, 101, false, []⟩ ∧ ¬ s'.answered := by
  obtain ⟨s, hs, h⟩ := (system ℕ ℕ ⟨true, false, false⟩).exists_reachable_of_exec .init
    [.accept (.start ⟨7, []⟩), .lockStart ⟨7, []⟩, .spawn 100, .register, .answerStart ⟨7, 0, 100, false, []⟩,
      .accept (.start ⟨8, []⟩), .accept (.control (.cleanup 7)), .lockCall, .lockStart ⟨8, []⟩, .spawn 101, .register]
    (fun s => (s.handler = .sweeping .cleanup ⟨7, 0, 100, false, []⟩ ∧ s.current = some ⟨8, 1, 101, false, []⟩ ∧
      ⟨1, 101⟩ ∈ s.procs ∧ ⟨1, 101⟩ ∉ killSweep ⟨true, false, false⟩ (some 100) s.procs) ∧
      ((system ℕ ℕ ⟨true, false, false⟩).exec s [.sweep, .conclude]).any fun s' =>
        s'.handler = .exiting ∧ s'.current = some ⟨8, 1, 101, false, []⟩ ∧ s'.replying ≠ []) rfl (by decide)
  obtain ⟨⟨hh, hc, hp, hk⟩, h⟩ := h
  obtain ⟨s', he, h⟩ := (any_eq_true _ _).mp h
  obtain ⟨hh', hc', hr⟩ := of_decide_eq_true h
  exact ⟨s, s', hs, hh, hc, hp, hk, he, hh', hc', fun hans => hr hans.2.2⟩

end Tribuchet.Agents.Agent
