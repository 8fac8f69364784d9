import Tribuchet.Base.Runs
import Tribuchet.Staging.Sole

/-! The import pools of a worker's builds (`worker/build/import_pool.rs`) beside the session loop.
The loop handles one message or `Wake` at a time, and awaits the teardown of a build it gives up
(`ActiveBuild::abort`) before the next: the build's claims are settled first and its pool is
stopped last, while its imports go on. Pools and the watchers of claims run on their own. -/

set_option linter.unusedSectionVars false

namespace Tribuchet.Staging.Pools

open Hoare Runs Function List Table AList

variable {B P H : Type}

/-! ### Pools -/

structure Pool (P : Type) where
  queue : List P
  running : List P
  tasks : ℕ

namespace Pool

def empty : Pool P := ⟨[], [], 0⟩

def jobs (pool : Pool P) : List P := pool.queue ++ pool.running

section

variable [DecidableEq P] [DecidableEq H]

def unfinished (x : ActiveBuild P H) : List P := x.imports.keys.filter fun p => x.imports.lookup p = some none

/-- A handler's `dispatch_import`s: the unfinished imports of which the pool has no job. -/
def fresh (pool : Pool P) (x : ActiveBuild P H) : List P := (unfinished x).filter (· ∉ pool.jobs)

/-- The jobs that a handler sent; the first of them spawns the tasks. -/
def send (n : ℕ) (pool : Pool P) (x : ActiveBuild P H) : Pool P :=
  { pool with
    queue := pool.queue ++ pool.fresh x
    tasks := if pool.fresh x ≠ [] ∧ pool.tasks = 0 then n else pool.tasks }

end

def take (pool : Pool P) : Option (Pool P) :=
  match pool.queue with
  | [] => none
  | p :: rest =>
    if pool.running.length < pool.tasks then some { pool with queue := rest, running := p :: pool.running } else none

def finish [DecidableEq P] (pool : Pool P) (path : P) : Pool P := { pool with running := pool.running.erase path }

/-- A task is aborted and awaited, with the job that it runs if it has one. -/
def stopTask [DecidableEq P] (pool : Pool P) (job : Option P) : Option (Pool P) :=
  match job with
  | some p =>
    if p ∈ pool.running then some { pool with running := pool.running.erase p, tasks := pool.tasks - 1 } else none
  | none => if pool.running.length < pool.tasks then some { pool with tasks := pool.tasks - 1 } else none

def close (pool : Pool P) : Pool P := { pool with queue := [] }

structure Tidy (pool : Pool P) : Prop where
  nodup : pool.jobs.Nodup
  busy : pool.running.length ≤ pool.tasks

variable {pool pool' : Pool P} {x : ActiveBuild P H} {p : P}

theorem mem_jobs : p ∈ pool.jobs ↔ p ∈ pool.queue ∨ p ∈ pool.running := mem_append

theorem tidy_empty : (empty : Pool P).Tidy := ⟨nodup_nil, Nat.le_refl 0⟩

theorem take_perm (hs : pool.take = some pool') : pool'.jobs.Perm pool.jobs := by
  unfold take at hs
  split at hs
  · cases hs
  · rename_i p rest hq
    split_ifs at hs
    cases hs
    simp only [jobs, hq, cons_append]
    exact perm_middle

theorem Tidy.take (h : pool.Tidy) (hs : pool.take = some pool') : pool'.Tidy := by
  refine ⟨(take_perm hs).nodup_iff.mpr h.nodup, ?_⟩
  unfold Pool.take at hs
  split at hs
  · cases hs
  · split_ifs at hs with hlt
    cases hs
    exact hlt

theorem Tidy.close (h : pool.Tidy) : pool.close.Tidy :=
  ⟨(nodup_append.mp h.nodup).2.1, h.busy⟩

theorem Tidy.jobs_close (h : pool.Tidy) (ht : pool.tasks = 0) : pool.close.jobs = [] := by
  have hbusy := h.busy
  rw [ht] at hbusy
  exact length_eq_zero_iff.mp (Nat.le_zero.mp hbusy)

variable [DecidableEq P]

theorem jobs_erase_sublist (pool : Pool P) (p : P) (n : ℕ) :
    (⟨pool.queue, pool.running.erase p, n⟩ : Pool P).jobs.Sublist pool.jobs :=
  (List.Sublist.refl _).append erase_sublist

theorem Tidy.finish (h : pool.Tidy) (p : P) : (pool.finish p).Tidy :=
  ⟨h.nodup.sublist (jobs_erase_sublist pool p _), le_trans erase_sublist.length_le h.busy⟩

theorem Tidy.not_mem_finish (h : pool.Tidy) (hp : p ∈ pool.running) : p ∉ (pool.finish p).jobs := by
  obtain ⟨-, hrunning, hdisjoint⟩ := nodup_append.mp h.nodup
  intro hm
  rcases mem_jobs.mp hm with hm | hm
  · exact hdisjoint p hm p hp rfl
  · exact (hrunning.mem_erase_iff.mp hm).1 rfl

theorem mem_jobs_finish {q : P} (hne : q ≠ p) (hq : q ∈ pool.jobs) : q ∈ (pool.finish p).jobs := by
  rcases mem_jobs.mp hq with hq | hq
  · exact mem_jobs.mpr (.inl hq)
  · exact mem_jobs.mpr (.inr ((mem_erase_of_ne hne).mpr hq))

theorem stopTask_sublist {job : Option P} (hs : pool.stopTask job = some pool') : pool'.jobs.Sublist pool.jobs := by
  cases job with
  | none =>
    simp only [stopTask] at hs
    split_ifs at hs
    cases hs
    exact List.Sublist.refl _
  | some p =>
    simp only [stopTask] at hs
    split_ifs at hs
    cases hs
    exact jobs_erase_sublist pool p _

theorem Tidy.stopTask (h : pool.Tidy) {job : Option P} (hs : pool.stopTask job = some pool') : pool'.Tidy := by
  refine ⟨h.nodup.sublist (stopTask_sublist hs), ?_⟩
  have hbusy := h.busy
  cases job with
  | none =>
    simp only [Pool.stopTask] at hs
    split_ifs at hs with hlt
    cases hs
    exact Nat.le_sub_one_of_lt hlt
  | some p =>
    simp only [Pool.stopTask] at hs
    split_ifs at hs with hm
    cases hs
    simp only [length_erase_of_mem hm]
    omega

variable [DecidableEq H]

theorem mem_fresh : p ∈ pool.fresh x ↔ x.imports.lookup p = some none ∧ p ∉ pool.jobs := by
  unfold fresh unfinished
  simp only [mem_filter, decide_eq_true_eq, and_congr_left_iff, and_iff_right_iff_imp]
  intro _ hl
  exact mem_keys.mp (mem_of_lookup hl)

theorem mem_jobs_send {n : ℕ} :
    p ∈ (pool.send n x).jobs ↔ p ∈ pool.jobs ∨ x.imports.lookup p = some none ∧ p ∉ pool.jobs := by
  rw [← mem_fresh, mem_jobs, mem_jobs]
  simp only [send, mem_append]
  exact or_right_comm

theorem Tidy.send (h : pool.Tidy) (n : ℕ) : (pool.send n x).Tidy := by
  constructor
  · have hfresh : (pool.fresh x).Nodup := (x.imports.keys_nodup.filter _).filter _
    have hperm : (pool.send n x).jobs.Perm (pool.jobs ++ pool.fresh x) := by
      simp only [jobs, Pool.send, append_assoc]
      exact (perm_append_comm).append_left _
    rw [hperm.nodup_iff]
    refine nodup_append.mpr ⟨h.nodup, hfresh, ?_⟩
    rintro q hq r hr rfl
    exact (mem_fresh.mp hr).2 hq
  · have hbusy := h.busy
    simp only [Pool.send]
    split_ifs with hspawn
    · omega
    · exact hbusy

end Pool

/-! ### The worker -/

variable [DecidableEq B] [DecidableEq P] [DecidableEq H]

structure State (B P H : Type) where
  active : AList fun _ : B => ActiveBuild P H
  claims : Claims B P
  wakes : List (B × P)
  pools : B → Pool P
  tearing : Option B
  ending : Bool

namespace State

def idle (s : State B P H) : Prop := s.tearing = none ∧ s.ending = false

instance (s : State B P H) : Decidable s.idle := inferInstanceAs (Decidable (_ ∧ _))

def handle (n : ℕ) (s : State B P H) (b : B) (m : WorkerM B P H (Option (Need P H))) : State B P H :=
  match s.active.lookup b with
  | none => s
  | some x =>
    match exec m ⟨x, s.claims⟩ with
    | (r, l) => { s with
        active := s.active.insert b l.build
        claims := l.claims
        pools := update s.pools b ((s.pools b).send n l.build)
        tearing := match r with
          | .ok _ => s.tearing
          | .error _ => some b }

end State

inductive Action (B P H : Type)
  | assign (b : B) (store : Finset H) (inputs : List (Manifest P H)) (refs : P → List P) (pin : Pinning P)
      (answer : Finset P)
  | manifest (b : B) (store : Finset H) (m : Manifest P H)
  | chunk (b : B) (store : Finset H) (frame : ChunkFrame H)
  | tmpDir (b : B) (eof : Bool)
  | wake (store : Finset H)
  | abandon (b : B)
  | launch (b : B)
  | fire (i : ℕ)
  | take (b : B)
  | importDone (b : B) (path : P) (outcome : ImportOutcome H)
  | settleNext
  | stopTask (job : Option P)
  | torn
  | disconnect
  | drain (b : B)
  | reconnect

/-- `n` is the number of tasks of a pool. -/
def step (n : ℕ) (s : State B P H) : Action B P H → Option (State B P H)
  | .assign b store inputs refs pin answer =>
    if s.idle ∧ b ∉ s.active then
      let s := { s with active := s.active.insert b .new, pools := update s.pools b .empty }
      some (s.handle n b (negotiate b refs pin answer store inputs))
    else none
  | .manifest b store m => if s.idle then some (s.handle n b (onBuild (feedManifest store m))) else none
  | .chunk b store frame => if s.idle then some (s.handle n b (onBuild (feedChunk store frame))) else none
  | .tmpDir b eof => if s.idle then some (s.handle n b (onBuild (feedTmpDir eof))) else none
  | .wake store =>
    match s.wakes with
    | [] => none
    | (b, path) :: rest => if s.idle then some ({ s with wakes := rest }.handle n b (woken store b path)) else none
  | .abandon b => if s.idle then some (s.handle n b (throw .cancelled)) else none
  | .launch b =>
    match s.active.lookup b with
    | none => none
    | some x =>
      if s.idle ∧ x.tryComplete = .ready then some { s with active := s.active.erase b } else none
  | .fire i =>
    match s.claims.watchers[i]? with
    | none => none
    | some w =>
      if (s.claims.channels w.channel).state = .running then none
      else some { s with
        claims := { s.claims with watchers := s.claims.watchers.eraseIdx i }
        wakes := s.wakes ++ [(w.build, w.path)] }
  | .take b => (s.pools b).take.map fun pool => { s with pools := update s.pools b pool }
  | .importDone b path outcome =>
    match s.active.lookup b with
    | none => none
    | some x =>
      if path ∈ (s.pools b).running then
        some { s with
          active := s.active.insert b { x with imports := x.imports.insert path (some outcome) }
          pools := update s.pools b ((s.pools b).finish path)
          wakes := s.wakes ++ [(b, path)] }
      else none
  | .settleNext =>
    match s.tearing with
    | none => none
    | some b =>
      match s.active.lookup b with
      | none => none
      | some x =>
        match x.claimed with
        | [] => none
        | p :: rest => some { s with
            active := s.active.insert b { x with claimed := rest }
            claims := s.claims.settle p .failed }
  | .stopTask job =>
    match s.tearing with
    | none => none
    | some b =>
      match s.active.lookup b with
      | none => none
      | some x =>
        if x.claimed = [] then
          ((s.pools b).stopTask job).map fun pool => { s with pools := update s.pools b pool }
        else none
  | .torn =>
    match s.tearing with
    | none => none
    | some b =>
      match s.active.lookup b with
      | none => none
      | some x =>
        if x.claimed = [] ∧ (s.pools b).tasks = 0 then
          some { s with
            active := s.active.erase b
            claims := s.claims.dropWaits b
            pools := update s.pools b (s.pools b).close
            tearing := none }
        else none
  | .disconnect => if s.idle then some { s with ending := true } else none
  | .drain b =>
    if s.ending = true ∧ s.tearing = none ∧ b ∈ s.active then some { s with tearing := some b } else none
  | .reconnect =>
    if s.ending = true ∧ s.tearing = none ∧ s.active.keys = [] then some { s with ending := false, wakes := [] } else none

def system (B P H : Type) [DecidableEq B] [DecidableEq P] [DecidableEq H] (n : ℕ) :
    System (State B P H) (Action B P H) where
  init s := s = ⟨∅, .empty, [], fun _ => .empty, none, false⟩
  step := step n

/-! ### One import of a path -/

def Owns (s : State B P H) (b : B) (p : P) : Prop := ∃ x, s.active.lookup b = some x ∧ p ∈ x.claimed

structure Inv (s : State B P H) : Prop where
  registered : ∀ b p, s.tearing ≠ some b → Owns s b p → p ∈ s.claims.map
  exclusive : ∀ b b' p, Owns s b p → Owns s b' p → b = b'
  mine : ∀ b x, s.active.lookup b = some x → s.tearing ≠ some b → Mine x.claimed (· ∈ (s.pools b).jobs) x
  gone : ∀ b, b ∉ s.active → (s.pools b).jobs = []
  tidy : ∀ b, (s.pools b).Tidy
  once : ∀ b b' p, p ∈ (s.pools b).jobs → p ∈ (s.pools b').jobs → b = b'

variable {n : ℕ} {s s' : State B P H} {b : B}
variable {x : ActiveBuild P H}

theorem lookup_insert_cases {y : ActiveBuild P H} {b' : B} (h : (s.active.insert b x).lookup b' = some y) :
    b' = b ∧ y = x ∨ b' ≠ b ∧ s.active.lookup b' = some y := by
  rw [lookup_insert_eq] at h
  split_ifs at h with hb
  · exact .inl ⟨hb, (Option.some.inj h).symm⟩
  · exact .inr ⟨hb, h⟩

theorem lookup_erase_cases {y : ActiveBuild P H} {b' : B} (h : (s.active.erase b).lookup b' = some y) :
    b' ≠ b ∧ s.active.lookup b' = some y := by
  rw [lookup_erase_eq] at h
  split_ifs at h with hb
  exact ⟨hb, h⟩

variable (h : Inv s)

include h

theorem Inv.owns_of_job {p : P} (ht : s.tearing ≠ some b) (hp : p ∈ (s.pools b).jobs) : Owns s b p := by
  cases hx : s.active.lookup b with
  | none =>
    rw [h.gone b (lookup_eq_none.mp hx)] at hp
    cases hp
  | some x =>
    have hm := h.mine b x hx ht
    exact ⟨x, hx, (hm.imports p (mem_of_lookup (hm.running p hp))).1⟩

theorem Inv.sole (ht : s.tearing = none) (hx : s.active.lookup b = some x) :
    Sole (fun p => ∃ b', b' ≠ b ∧ Owns s b' p) (· ∈ (s.pools b).jobs) ⟨x, s.claims⟩ := by
  have hnot (b' : B) : s.tearing ≠ some b' := by simp [ht]
  refine ⟨h.mine b x hx (hnot b), fun p hp => ⟨h.registered b p (hnot b) ⟨x, hx, hp⟩, ?_⟩, ?_⟩
  · rintro ⟨b', hne, ho⟩
    exact hne (h.exclusive b' b p ho ⟨x, hx, hp⟩)
  · rintro p ⟨b', -, ho⟩
    exact h.registered b' p (hnot b') ho

theorem Inv.handled (ht : s.tearing = none) {l : Local B P H} {failed : Option B}
    (hsole : Sole (fun p => ∃ b', b' ≠ b ∧ Owns s b' p) (fun _ => False) l)
    (hok : failed ≠ some b → Sole (fun p => ∃ b', b' ≠ b ∧ Owns s b' p) (· ∈ (s.pools b).jobs) l) : Inv { s with
      active := s.active.insert b l.build
      claims := l.claims
      pools := update s.pools b ((s.pools b).send n l.build)
      tearing := failed } := by
  have hnot (b' : B) : s.tearing ≠ some b' := by simp [ht]
  have hother : ∀ b' p, b' ≠ b → p ∈ (s.pools b').jobs → p ∉ ((s.pools b).send n l.build).jobs := by
    intro b' p hne hp hnew
    rcases Pool.mem_jobs_send.mp hnew with hold | ⟨hl, -⟩
    · exact hne (h.once b' b p hp hold)
    · have hmine := (hsole.mine.imports p (mem_of_lookup hl)).1
      exact (hsole.claimed p hmine).2 ⟨b', hne, h.owns_of_job (hnot b') hp⟩
  refine ⟨?_, ?_, ?_, ?_, ?_, ?_⟩
  · rintro b' p - ⟨y, hy, hp⟩
    rcases lookup_insert_cases hy with ⟨rfl, rfl⟩ | ⟨hne, hy⟩
    · exact (hsole.claimed p hp).1
    · exact hsole.others p ⟨b', hne, y, hy, hp⟩
  · rintro b₁ b₂ p ⟨y, hy, hp⟩ ⟨z, hz, hp'⟩
    rcases lookup_insert_cases hy with ⟨hb, rfl⟩ | ⟨hne, hold⟩ <;>
      rcases lookup_insert_cases hz with ⟨hb', rfl⟩ | ⟨hne', hold'⟩
    · rw [hb, hb']
    · exact absurd ⟨b₂, hne', z, hold', hp'⟩ (hsole.claimed p hp).2
    · exact absurd ⟨b₁, hne, y, hold, hp⟩ (hsole.claimed p hp').2
    · exact h.exclusive b₁ b₂ p ⟨y, hold, hp⟩ ⟨z, hold', hp'⟩
  · intro b' y hy htear
    rcases lookup_insert_cases hy with ⟨rfl, rfl⟩ | ⟨hne, hy⟩
    · have hmine := (hok htear).mine
      refine ⟨rfl, hmine.pending, hmine.imports, fun p hp => ?_⟩
      simp only [update_self] at hp
      rcases Pool.mem_jobs_send.mp hp with hp | ⟨hl, -⟩
      · exact hmine.running p hp
      · exact hl
    · simp only [update_of_ne hne]
      exact h.mine b' y hy (hnot b')
  · intro b' hb'
    have hne : b' ≠ b := by
      rintro rfl
      exact hb' ((mem_insert _).mpr (.inl rfl))
    simp only [update_of_ne hne]
    exact h.gone b' fun hm => hb' ((mem_insert _).mpr (.inr hm))
  · intro b'
    by_cases hb : b' = b
    · subst hb
      simp only [update_self]
      exact (h.tidy b').send n
    · simp only [update_of_ne hb]
      exact h.tidy b'
  · intro b₁ b₂ p h₁ h₂
    by_cases hb₁ : b₁ = b <;> by_cases hb₂ : b₂ = b
    · rw [hb₁, hb₂]
    · subst hb₁
      simp only [update_self, update_of_ne hb₂] at h₁ h₂
      exact absurd h₁ (hother b₂ p hb₂ h₂)
    · subst hb₂
      simp only [update_self, update_of_ne hb₁] at h₁ h₂
      exact absurd h₂ (hother b₁ p hb₁ h₁)
    · simp only [update_of_ne hb₁, update_of_ne hb₂] at h₁ h₂
      exact h.once b₁ b₂ p h₁ h₂

theorem Inv.setPool {pool : Pool P} (hsub : pool.jobs ⊆ (s.pools b).jobs) (ht : pool.Tidy) :
    Inv { s with pools := update s.pools b pool } := by
  have hjobs : ∀ b' p, p ∈ (update s.pools b pool b').jobs → p ∈ (s.pools b').jobs := by
    intro b' p hp
    by_cases hb : b' = b
    · subst hb
      rw [update_self] at hp
      exact hsub hp
    · rwa [update_of_ne hb] at hp
  refine ⟨h.registered, h.exclusive, ?_, ?_, ?_, fun b₁ b₂ p h₁ h₂ => h.once b₁ b₂ p (hjobs b₁ p h₁) (hjobs b₂ p h₂)⟩
  · intro b' x hx htear
    have hm := h.mine b' x hx htear
    exact ⟨rfl, hm.pending, hm.imports, fun p hp => hm.running p (hjobs b' p hp)⟩
  · intro b' hb'
    refine eq_nil_iff_forall_not_mem.mpr fun p hp => ?_
    have hold := hjobs b' p hp
    rw [h.gone b' hb'] at hold
    cases hold
  · intro b'
    by_cases hb : b' = b
    · subst hb
      simp only [update_self]
      exact ht
    · simp only [update_of_ne hb]
      exact h.tidy b'

theorem Inv.leave (hj : (s.pools b).jobs = []) (ht : s.tearing = none ∨ s.tearing = some b)
    (claims : Claims B P) (hc : claims.map = s.claims.map) :
    Inv { s with active := s.active.erase b, claims := claims, tearing := none } := by
  have hnot : ∀ b', b' ≠ b → s.tearing ≠ some b' := by
    rintro b' hne heq
    rcases ht with ht | ht
    · rw [ht] at heq
      cases heq
    · exact hne (Option.some.inj (heq.symm.trans ht))
  refine ⟨?_, ?_, ?_, ?_, h.tidy, h.once⟩
  · rintro b' p - ⟨x, hx, hp⟩
    obtain ⟨hne, hx⟩ := lookup_erase_cases hx
    rw [hc]
    exact h.registered b' p (hnot b' hne) ⟨x, hx, hp⟩
  · rintro b₁ b₂ p ⟨x, hx, hp⟩ ⟨y, hy, hp'⟩
    exact h.exclusive b₁ b₂ p ⟨x, (lookup_erase_cases hx).2, hp⟩ ⟨y, (lookup_erase_cases hy).2, hp'⟩
  · intro b' x hx _
    obtain ⟨hne, hx⟩ := lookup_erase_cases hx
    exact h.mine b' x hx (hnot b' hne)
  · intro b' hb'
    by_cases hb : b' = b
    · rw [hb]
      exact hj
    · exact h.gone b' fun hm => hb' (mem_erase.mpr ⟨hb, hm⟩)

theorem Inv.enter (hb : b ∉ s.active) :
    Inv { s with active := s.active.insert b .new, pools := update s.pools b .empty } := by
  have hpool : Inv { s with pools := update s.pools b .empty } :=
    h.setPool (nil_subset _) Pool.tidy_empty
  have howns : ∀ b' p, Owns { s with active := s.active.insert b .new } b' p → Owns s b' p := by
    rintro b' p ⟨x, hx, hp⟩
    rcases lookup_insert_cases hx with ⟨-, rfl⟩ | ⟨-, hx⟩
    · cases hp
    · exact ⟨x, hx, hp⟩
  refine ⟨fun b' p ht ho => h.registered b' p ht (howns b' p ho),
    fun b₁ b₂ p h₁ h₂ => h.exclusive b₁ b₂ p (howns b₁ p h₁) (howns b₂ p h₂), ?_, ?_, hpool.tidy, hpool.once⟩
  · intro b' x hx ht
    rcases lookup_insert_cases hx with ⟨rfl, rfl⟩ | ⟨-, hx⟩
    · simp only [update_self]
      exact mine_new fun _ => not_mem_nil
    · exact hpool.mine b' x hx ht
  · intro b' hb'
    exact hpool.gone b' fun hm => hb' ((mem_insert _).mpr (.inr hm))

theorem Inv.importDone (hx : s.active.lookup b = some x) {path : P}
    (hp : path ∈ (s.pools b).running) (outcome : ImportOutcome H) (wakes : List (B × P)) : Inv { s with
      active := s.active.insert b { x with imports := x.imports.insert path (some outcome) }
      pools := update s.pools b ((s.pools b).finish path)
      wakes := wakes } := by
  have hpool : Inv { s with pools := update s.pools b ((s.pools b).finish path) } :=
    h.setPool (Pool.jobs_erase_sublist _ path _).subset ((h.tidy b).finish path)
  have howns : ∀ b' p, Owns { s with
      active := s.active.insert b { x with imports := x.imports.insert path (some outcome) } } b' p → Owns s b' p := by
    rintro b' p ⟨y, hy, hp⟩
    rcases lookup_insert_cases hy with ⟨rfl, rfl⟩ | ⟨-, hy⟩
    · exact ⟨x, hx, hp⟩
    · exact ⟨y, hy, hp⟩
  refine ⟨fun b' p ht ho => h.registered b' p ht (howns b' p ho),
    fun b₁ b₂ p h₁ h₂ => h.exclusive b₁ b₂ p (howns b₁ p h₁) (howns b₂ p h₂), ?_, ?_, hpool.tidy, hpool.once⟩
  · intro b' y hy ht
    rcases lookup_insert_cases hy with ⟨rfl, rfl⟩ | ⟨-, hy⟩
    · have hm := hpool.mine b' x hx ht
      have hpath := (h.mine b' x hx ht).running path (Pool.mem_jobs.mpr (.inr hp))
      refine ⟨rfl, hm.pending, fun q hq => ?_, fun q hq => ?_⟩
      · rcases (mem_insert _).mp hq with rfl | hq
        · exact hm.imports q (mem_of_lookup hpath)
        · exact hm.imports q hq
      · have hne : q ≠ path := by
          rintro rfl
          simp only [update_self] at hq
          exact (h.tidy b').not_mem_finish hp hq
        simp only [lookup_insert_ne hne]
        exact hm.running q hq
    · exact hpool.mine b' y hy ht
  · intro b' hb'
    exact hpool.gone b' fun hm => hb' ((mem_insert _).mpr (.inr hm))

theorem Inv.settleNext (ht : s.tearing = some b) (hx : s.active.lookup b = some x)
    {p : P} {rest : List P} (hc : x.claimed = p :: rest) (state : ClaimState) : Inv { s with
      active := s.active.insert b { x with claimed := rest }
      claims := s.claims.settle p state } := by
  have howns : ∀ b' q, Owns { s with active := s.active.insert b { x with claimed := rest } } b' q → Owns s b' q := by
    rintro b' q ⟨y, hy, hq⟩
    rcases lookup_insert_cases hy with ⟨rfl, rfl⟩ | ⟨-, hy⟩
    · exact ⟨x, hx, hc ▸ mem_cons_of_mem p hq⟩
    · exact ⟨y, hy, hq⟩
  refine ⟨fun b' q hne ho => ?_, fun b₁ b₂ q h₁ h₂ => h.exclusive b₁ b₂ q (howns b₁ q h₁) (howns b₂ q h₂), ?_, ?_,
    h.tidy, h.once⟩
  · refine Claims.mem_settle_map (h.registered b' q hne (howns b' q ho)) ?_
    rintro rfl
    have hb := h.exclusive b' b q (howns b' q ho) ⟨x, hx, hc ▸ mem_cons_self⟩
    exact hne (hb ▸ ht)
  · intro b' y hy hne
    rcases lookup_insert_cases hy with ⟨rfl, rfl⟩ | ⟨-, hy⟩
    · exact absurd ht hne
    · exact h.mine b' y hy hne
  · intro b' hb'
    exact h.gone b' fun hm => hb' ((mem_insert _).mpr (.inr hm))

theorem Inv.tear (ht : s.tearing = none) (b : B) : Inv { s with tearing := some b } := by
  have hnot (b' : B) : s.tearing ≠ some b' := by simp [ht]
  exact ⟨fun b' p _ => h.registered b' p (hnot b'), h.exclusive, fun b' x hx _ => h.mine b' x hx (hnot b'), h.gone,
    h.tidy, h.once⟩

theorem Inv.congr (hc : s'.claims.map = s.claims.map) (ha : s'.active = s.active)
    (hp : s'.pools = s.pools) (ht : s'.tearing = s.tearing) : Inv s' := by
  obtain ⟨active, claims, wakes, pools, tearing, ending⟩ := s'
  subst ha hp ht
  exact ⟨fun b p hb ho => hc ▸ h.registered b p hb ho, h.exclusive, h.mine, h.gone, h.tidy, h.once⟩

omit h

theorem inv_init (h : (system B P H n).init s) : Inv s := by
  subst h
  refine ⟨?_, ?_, ?_, fun _ _ => rfl, fun _ => Pool.tidy_empty, ?_⟩
  · rintro b p - ⟨x, hx, -⟩
    cases hx
  · rintro b b' p ⟨x, hx, -⟩
    cases hx
  · intro b x hx
    cases hx
  · intro b b' p hp
    cases hp

end Tribuchet.Staging.Pools
