import Mathlib.Tactic.SplitIfs
import Tribuchet.Session.Cancel

/-! Who gets the verdict of a cancelled build. A job that is abandoned has no clients, so its
verdict harms nobody as long as no client joins it afterwards and no other job takes over
the build that is flagged, aborted, or finished as cancelled on its account. -/

set_option linter.unusedSectionVars false

namespace Tribuchet.Session.Cancel

open Runs Function List Option Job

variable {K J C W : Type} [DecidableEq K] [DecidableEq J] [DecidableEq C] [DecidableEq W]
variable {s s' : State K J C W} {j : J} {job : Job K C}

def Abandoned (s : State K J C W) (j : J) : Prop := (s.jobs j).map abandoned = some true

instance (s : State K J C W) (j : J) : Decidable (Abandoned s j) := inferInstanceAs (Decidable (_ = _))

/-- A cancel of the key has left its mark on the build that is held under it. -/
def Worker.tainted (w : Worker K J) (key : K) (finished : Option Verdict) : Prop :=
  key ∈ w.cancelled ∨ ⟨key, true⟩ ∈ w.threads ∨ finished = some .cancelled

instance (w : Worker K J) (key : K) (finished : Option Verdict) : Decidable (w.tainted key finished) :=
  inferInstanceAs (Decidable (_ ∨ _ ∨ _))

/-! ### The condition -/

/-- A message hands no build with the mark of a cancel to a job that is wanted, and marks
no build of such a job. -/
def Fits (s : State K J C W) (w : W) : HubMsg K J → Prop
  | .assign j key => ∀ e ∈ (s.workers w).resumable key, (s.workers w).tainted key e.finished → Abandoned s j
  | .cancel j key => (s.workers w).stages j ∨ ∀ e ∈ (s.workers w).resumable key, e.finished = none → Abandoned s e.id
  | .ack _ => True

/-- Nobody joins a job that is abandoned, and cancelled builds stay with the jobs they were
cancelled for. -/
def Separate (s : State K J C W) : Action K J C W → Prop
  | .subscribe _ j => ¬ Abandoned s j
  | .receive w => ∀ n ∈ (s.workers w).session, ∀ m ∈ (s.down n).head?, Fits s w m
  | .launch w j => ∀ b ∈ (s.workers w).active.find? (fun b => b.1 = j), (s.workers w).tainted b.2 none → Abandoned s j
  | _ => True

/-! ### The invariant -/

structure JobOk (job : Job K C) : Prop where
  decided : ∀ n watch, job.phase = .running n watch → (∀ since, watch ≠ .watching since) → job.abandoned = true
  alone : job.abandoned = true → job.subs = []
  events : .cancelled ∈ job.events → job.abandoned = true

/-- Whatever says `cancelled` concerns an abandoned job, and nobody has heard it. -/
structure Inv (s : State K J C W) : Prop where
  jobs : ∀ j job, s.jobs j = some job → JobOk job
  up : ∀ n j, (j, .cancelled) ∈ s.up n → Abandoned s j
  down : ∀ n j key, .cancel j key ∈ s.down n → Abandoned s j
  workers : ∀ w key e, (s.workers w).resumable key = some e → (s.workers w).tainted key e.finished → Abandoned s e.id
  received : ∀ c j, (c, j, .cancelled) ∉ s.received

theorem inv_initial : Inv (State.initial : State K J C W) := by
  refine ⟨?_, ?_, ?_, ?_, ?_⟩ <;> simp [State.initial, Worker.initial]

theorem setJob_jobs (i : J) : (s.setJob j job).jobs i = if i = j then some job else s.jobs i := update_apply ..

theorem setDown_down (n n' : ℕ) (ms : List (HubMsg K J)) :
    (s.setDown n ms).down n' = if n' = n then ms else s.down n' := update_apply ..

theorem setUp_up (n n' : ℕ) (ms : List (J × Verdict)) : (s.setUp n ms).up n' = if n' = n then ms else s.up n' :=
  update_apply ..

theorem setWorker_workers (w w' : W) (worker : Worker K J) :
    (s.setWorker w worker).workers w' = if w' = w then worker else s.workers w' := update_apply ..

theorem setEntry_resumable (w : Worker K J) (key k : K) (e : Option (Entry J)) :
    (w.setEntry key e).resumable k = if k = key then e else w.resumable k := update_apply ..

/-! ### The worker's builds -/

/-- The builds with the mark of a cancel are those of certain jobs. -/
def Worker.Safe (A : J → Prop) (w : Worker K J) : Prop :=
  ∀ key e, w.resumable key = some e → w.tainted key e.finished → A e.id

namespace Worker.Safe

variable {A : J → Prop} {w w' : Worker K J} {key : K} (h : w.Safe A)

include h

theorem congr (hres : w'.resumable = w.resumable) (hcan : w'.cancelled = w.cancelled) (hthr : w'.threads = w.threads) :
    w'.Safe A := by
  intro k e he ht
  unfold tainted at ht
  rw [hcan, hthr] at ht
  exact h k e (hres ▸ he) ht

theorem setEntry {e' : Option (Entry J)} (he' : ∀ e ∈ e', w.tainted key e.finished → A e.id) :
    (w.setEntry key e').Safe A := by
  intro k e he ht
  rw [setEntry_resumable] at he
  split_ifs at he with hk
  · exact he' e he (hk ▸ ht)
  · exact h k e he ht

theorem assign {n : ℕ} {j : J} (hfit : ∀ e ∈ w.resumable key, w.tainted key e.finished → A j) :
    (w.assign n j key).Safe A := by
  unfold Worker.assign
  split
  · rename_i e he
    have hset : (w.setEntry key (some { e with id := j, session := n })).Safe A := by
      apply h.setEntry
      intro e' he' ht
      cases he'
      exact hfit e he ht
    exact hset.congr rfl rfl rfl
  · exact h.congr rfl rfl rfl

theorem flag (hfit : ∀ e ∈ w.resumable key, e.finished = none → A e.id) : (w.flag key).Safe A := by
  unfold Worker.flag
  split
  · rename_i e he
    split_ifs with hfin
    · intro k e' he' ht
      rcases ht with hmem | ht
      · rcases mem_cons.mp hmem with rfl | hmem
        · cases he.symm.trans he'
          exact hfit e he hfin
        · exact h k e' he' (.inl hmem)
      · exact h k e' he' (.inr ht)
    · exact h
  · exact h

theorem ack : (w.ack key).Safe A := by
  unfold Worker.ack
  split
  · split_ifs
    · exact h.setEntry nofun
    · exact h
  · exact h

theorem launch {n : ℕ} {j : J} (hfit : w.tainted key none → A j) : (w.launch n j key).Safe A := by
  have hset : (w.setEntry key (some ⟨j, n, none⟩)).Safe A := by
    refine h.setEntry ?_
    intro e he ht
    cases he
    exact hfit ht
  intro k e he ht
  refine hset k e he ?_
  rcases ht with ht | ht | ht
  · exact .inl ht
  · rcases mem_cons.mp ht with heq | ht
    · cases heq
    · exact .inr (.inl ht)
  · exact .inr (.inr ht)

theorem abort (hflag : key ∈ w.cancelled) : (w.abort key).Safe A := by
  intro k e he ht
  refine h k e he ?_
  rcases ht with ht | ht | ht
  · exact .inl ((mem_filter.mp ht).1)
  · rcases mem_cons.mp ht with heq | ht
    · cases heq
      exact .inl hflag
    · exact .inr (.inl (mem_of_mem_erase ht))
  · exact .inr (.inr ht)

theorem record {t : Thread K} {v : Verdict} (ht : t ∈ w.threads) (hv : v = .cancelled → t.aborted = true) :
    (w.record t v).Safe A := by
  have hset : (w.setEntry t.key ((w.resumable t.key).map fun e => { e with finished := some v })).Safe A := by
    refine h.setEntry ?_
    intro e he htaint
    obtain ⟨e₀, h₀, rfl⟩ := mem_map.mp he
    refine h t.key e₀ h₀ ?_
    rcases htaint with hm | hm | hm
    · exact .inl hm
    · exact .inr (.inl hm)
    · have hab := hv (some.inj hm)
      exact .inr (.inl (by rw [← hab]; exact ht))
  intro k e he htaint
  refine hset k e he ?_
  rcases htaint with hm | hm | hm
  · exact .inl hm
  · exact .inr (.inl (mem_of_mem_erase hm))
  · exact .inr (.inr hm)

theorem clear : (w.clear key).Safe A := by
  intro k e he ht
  refine h k e he ?_
  rcases ht with ht | ht
  · exact .inl ((mem_filter.mp ht).1)
  · exact .inr ht

end Worker.Safe

/-! ### The state -/

section Updates

variable (h : Inv s)

include h

theorem Inv.congr (hj : s'.jobs = s.jobs) (hu : s'.up = s.up) (hd : s'.down = s.down) (hw : s'.workers = s.workers)
    (hr : s'.received = s.received) : Inv s' := by
  have hab : ∀ j, Abandoned s j → Abandoned s' j := by
    intro j hj'
    unfold Abandoned
    rw [hj]
    exact hj'
  refine ⟨hj ▸ h.jobs, ?_, ?_, ?_, hr ▸ h.received⟩
  · exact fun n j hm => hab j (h.up n j (hu ▸ hm))
  · exact fun n j key hm => hab j (h.down n j key (hd ▸ hm))
  · rw [hw]
    exact fun w key e he ht => hab _ (h.workers w key e he ht)

theorem Inv.setJob (hok : JobOk job) (hmono : Abandoned s j → job.abandoned = true) : Inv (s.setJob j job) := by
  have hab : ∀ i, Abandoned s i → Abandoned (s.setJob j job) i := by
    intro i hi
    unfold Abandoned
    rw [setJob_jobs]
    split_ifs with hij
    · rw [map_some, hmono (hij ▸ hi)]
    · exact hi
  refine ⟨?_, ?_, ?_, ?_, h.received⟩
  · intro i job' hjob'
    rw [setJob_jobs] at hjob'
    split_ifs at hjob'
    · exact some.inj hjob' ▸ hok
    · exact h.jobs i job' hjob'
  · exact fun n i hm => hab i (h.up n i hm)
  · exact fun n i key hm => hab i (h.down n i key hm)
  · exact fun w key e he ht => hab _ (h.workers w key e he ht)

theorem Inv.setDown {n : ℕ} {ms : List (HubMsg K J)} (hms : ∀ j key, .cancel j key ∈ ms → Abandoned s j) :
    Inv (s.setDown n ms) := by
  refine ⟨h.jobs, h.up, ?_, h.workers, h.received⟩
  intro n' j key hm
  rw [setDown_down] at hm
  split_ifs at hm
  · exact hms j key hm
  · exact h.down n' j key hm

theorem Inv.setUp {n : ℕ} {ms : List (J × Verdict)} (hms : ∀ j, (j, .cancelled) ∈ ms → Abandoned s j) :
    Inv (s.setUp n ms) := by
  refine ⟨h.jobs, ?_, h.down, h.workers, h.received⟩
  intro n' j hm
  rw [setUp_up] at hm
  split_ifs at hm
  · exact hms j hm
  · exact h.up n' j hm

theorem Inv.setWorker {w : W} {worker : Worker K J} (hw : worker.Safe (Abandoned s)) :
    Inv (s.setWorker w worker) := by
  refine ⟨h.jobs, h.up, h.down, ?_, h.received⟩
  intro w' key e he ht
  rw [setWorker_workers] at he ht
  split_ifs at he ht
  · exact hw key e he ht
  · exact h.workers w' key e he ht

theorem Inv.send {n : ℕ} {m : HubMsg K J} (hm : ∀ j key, m = .cancel j key → Abandoned s j) : Inv (s.send n m) := by
  refine h.setDown fun j key hmem => ?_
  rcases mem_append.mp hmem with hmem | hmem
  · exact h.down n j key hmem
  · exact hm j key (mem_singleton.mp hmem).symm

theorem Inv.report {n : ℕ} {v : Verdict} (hv : v = .cancelled → Abandoned s j) : Inv (s.report n j v) := by
  refine h.setUp fun i hmem => ?_
  rcases mem_append.mp hmem with hmem | hmem
  · exact h.up n i hmem
  · cases mem_singleton.mp hmem
    exact hv rfl

theorem Inv.hear {news : List (C × J × Verdict)} (hnews : ∀ x ∈ news, x.2.2 ≠ .cancelled) :
    Inv { s with received := s.received ++ news } := by
  refine ⟨h.jobs, h.up, h.down, h.workers, fun c j hm => ?_⟩
  rcases mem_append.mp hm with hm | hm
  · exact h.received c j hm
  · exact hnews _ hm rfl

theorem Inv.unlist (hok : JobOk job) (hmono : Abandoned s j → job.abandoned = true) : Inv (s.unlist j job) := by
  unfold State.unlist
  split_ifs
  · have hset : Inv (s.setJob j { job with listed := false }) :=
      h.setJob ⟨hok.decided, hok.alone, hok.events⟩ hmono
    exact hset.congr rfl rfl rfl rfl rfl
  · exact h.setJob hok hmono

end Updates

theorem abandoned_iff (hjob : s.jobs j = some job) : Abandoned s j ↔ job.abandoned = true := by
  unfold Abandoned
  rw [hjob, map_some, some.injEq]

theorem JobOk.move (h : JobOk job) {job' : Job K C} (hsubs : ∀ c ∈ job'.subs, c ∈ job.subs)
    (hev : job'.events = job.events) (hab : job'.abandoned = job.abandoned)
    (hphase : ∀ n watch, job'.phase = .running n watch → (∀ since, watch ≠ .watching since) → job.abandoned = true) :
    JobOk job' := by
  refine ⟨hab ▸ hphase, ?_, hev ▸ hab ▸ h.events⟩
  intro ha
  have hnil := h.alone (hab ▸ ha)
  exact eq_nil_iff_forall_not_mem.mpr fun c hc => by simpa [hnil] using hsubs c hc

theorem JobOk.check (h : JobOk job) (session : ℕ) (since : Option ℕ) (now : ℕ) : JobOk (job.check session since now) := by
  have hwatching : ∀ since, JobOk { job with phase := .running session (.watching since) } := by
    intro since
    refine h.move (fun _ hc => hc) rfl rfl fun n watch hphase hno => ?_
    cases hphase
    exact absurd rfl (hno since)
  unfold Job.check
  split_ifs with hsubs
  · dsimp only
    split_ifs
    · exact ⟨fun _ _ _ _ => rfl, fun _ => hsubs, fun _ => rfl⟩
    · exact hwatching _
  · exact hwatching _

theorem abandoned_check (session : ℕ) (since : Option ℕ) (now : ℕ) (h : job.abandoned = true) :
    (job.check session since now).abandoned = true := by
  unfold check
  split_ifs
  · dsimp only
    split_ifs
    · rfl
    · exact h
  · exact h

theorem Inv.publish (h : Inv s) (hjob : s.jobs j = some job) {v : Verdict} (hv : v = .cancelled → Abandoned s j) :
    Inv (s.publish j job v) := by
  have hok := h.jobs j job hjob
  have hset : Inv (s.setJob j { job with events := job.events ++ [v], phase := .concluded }) := by
    refine h.setJob ⟨nofun, hok.alone, fun hm => ?_⟩ (abandoned_iff hjob).mp
    rcases mem_append.mp hm with hm | hm
    · exact hok.events hm
    · exact (abandoned_iff hjob).mp (hv (mem_singleton.mp hm).symm)
  refine hset.hear fun x hx hc => ?_
  obtain ⟨c, hsub, rfl⟩ := mem_map.mp hx
  rw [hok.alone ((abandoned_iff hjob).mp (hv hc))] at hsub
  cases hsub

theorem Inv.handle (h : Inv s) {w : W} {n : ℕ} {m : HubMsg K J} (hfit : Fits s w m)
    (hm : ∀ j key, m = .cancel j key → Abandoned s j) : Inv (s.handle w n m) := by
  have hsafe : (s.workers w).Safe (Abandoned s) := h.workers w
  cases m with
  | assign j key => exact h.setWorker (hsafe.assign hfit)
  | cancel j key =>
    simp only [State.handle]
    split_ifs with hstage
    · exact (h.setWorker (hsafe.congr (by rfl) (by rfl) (by rfl))).report fun _ => hm j key rfl
    · exact h.setWorker (hsafe.flag (hfit.resolve_left hstage))
  | ack key => exact h.setWorker hsafe.ack

theorem inv_step {a : Action K J C W} (h : Inv s) (ha : Separate s a) (hs : step s a = some s') : Inv s' := by
  -- the phases a job can move to without a decision
  have hmove : ∀ {j : J} {job : Job K C} {phase : Phase C}, s.jobs j = some job →
      (∀ n watch, phase = .running n watch → (∀ since, watch ≠ .watching since) → job.abandoned = true) →
      Inv (s.setJob j { job with phase := phase }) := by
    intro j job phase hjob hphase
    exact h.setJob ((h.jobs j job hjob).move (fun _ hc => hc) rfl rfl hphase) (abandoned_iff hjob).mp
  have hunlist : ∀ {j : J} {job : Job K C} {phase : Phase C}, s.jobs j = some job →
      (∀ n watch, phase = .running n watch → (∀ since, watch ≠ .watching since) → job.abandoned = true) →
      Inv (s.unlist j { job with phase := phase }) := by
    intro j job phase hjob hphase
    exact h.unlist ((h.jobs j job hjob).move (fun _ hc => hc) rfl rfl hphase) (abandoned_iff hjob).mp
  have hsafe : ∀ w, (s.workers w).Safe (Abandoned s) := h.workers
  cases a with
  | lookUp c key =>
    simp only [step] at hs
    split at hs
    · cases hs
      exact h.congr rfl rfl rfl rfl rfl
    · cases hs
  | list c j key =>
    simp only [step] at hs
    split at hs
    · rename_i hj _
      cases hs
      have hset : Inv (s.setJob j ⟨key, true, [], [], .listed c, false⟩) := by
        refine h.setJob ⟨nofun, fun _ => rfl, nofun⟩ fun hab => ?_
        unfold Abandoned at hab
        rw [hj] at hab
        cases hab
      exact hset.congr rfl rfl rfl rfl rfl
    · cases hs
  | subscribe c j =>
    simp only [step] at hs
    split at hs
    · cases hs
    · rename_i job hjob
      obtain ⟨-, hs⟩ := ite_none_right_eq_some.mp hs
      cases hs
      have hok := h.jobs j job hjob
      have hno : ¬ job.abandoned = true := fun hab => ha ((abandoned_iff hjob).mpr hab)
      have hset : Inv (s.setJob j { job with subs := if job.phase = .finished then job.subs else job.subs ++ [c] }) :=
        h.setJob ⟨hok.decided, fun hab => absurd hab hno, hok.events⟩ (abandoned_iff hjob).mp
      have hnews : ∀ x ∈ job.events.map fun v => (c, j, v), x.2.2 ≠ .cancelled := by
        intro x hx hc
        obtain ⟨v, hv, rfl⟩ := mem_map.mp hx
        exact hno (hok.events (hc ▸ hv))
      exact (hset.hear hnews).congr rfl rfl rfl rfl rfl
  | enqueue j =>
    simp only [step] at hs
    split at hs
    · cases hs
    · rename_i job hjob
      split at hs
      · split_ifs at hs
        cases hs
        exact hmove hjob nofun
      · cases hs
  | leave c j =>
    simp only [step] at hs
    split at hs
    · cases hs
    · rename_i job hjob
      split_ifs at hs
      cases hs
      have hok := h.jobs j job hjob
      exact h.setJob (hok.move (fun _ hc => mem_of_mem_erase hc) rfl rfl hok.decided) (abandoned_iff hjob).mp
  | dispatch j session =>
    simp only [step] at hs
    split at hs
    · cases hs
    · rename_i job hjob
      split_ifs at hs
      cases hs
      refine (hmove hjob fun n watch hphase hno => ?_).send nofun
      cases hphase
      exact absurd rfl (hno none)
  | drop j =>
    simp only [step] at hs
    split at hs
    · cases hs
    · rename_i job hjob
      split_ifs at hs
      cases hs
      exact hunlist hjob nofun
  | check j =>
    simp only [step] at hs
    split at hs
    · cases hs
    · rename_i job hjob
      split at hs
      · cases hs
        exact h.setJob ((h.jobs j job hjob).check ..) fun hab => abandoned_check _ _ _ ((abandoned_iff hjob).mp hab)
      · cases hs
  | unlist j =>
    simp only [step] at hs
    split at hs
    · cases hs
    · rename_i job hjob
      split at hs
      · rename_i session hphase
        cases hs
        exact hunlist hjob fun _ _ _ _ => (h.jobs j job hjob).decided _ _ hphase nofun
      · cases hs
  | sendCancel j =>
    simp only [step] at hs
    split at hs
    · cases hs
    · rename_i job hjob
      split at hs
      · rename_i session hphase
        cases hs
        have hab := (h.jobs j job hjob).decided _ _ hphase nofun
        refine (hmove hjob fun _ _ _ _ => hab).send fun j' key hm => ?_
        cases hm
        rw [abandoned_iff (by rw [setJob_jobs, if_pos rfl])]
        exact hab
      · cases hs
  | requeue j =>
    simp only [step] at hs
    split at hs
    · cases hs
    · rename_i job hjob
      split at hs
      · cases hs
        exact hmove hjob nofun
      · cases hs
  | giveUp j =>
    simp only [step] at hs
    split at hs
    · cases hs
    · rename_i job hjob
      split at hs
      · cases hs
        exact h.publish hjob nofun
      · cases hs
  | take session =>
    simp only [step] at hs
    split at hs
    · cases hs
    · rename_i j v ms hup
      have hpop : Inv (s.setUp session ms) := by
        refine h.setUp fun i hm => h.up session i ?_
        rw [hup]
        exact mem_cons_of_mem _ hm
      have hv : v = .cancelled → Abandoned s j := by
        rintro rfl
        refine h.up session j ?_
        rw [hup]
        exact mem_cons_self ..
      split at hs
      · cases hs
        exact hpop
      · rename_i job hjob
        split at hs
        · split_ifs at hs
          · cases hs
            exact (hpop.publish hjob hv).send nofun
          · cases hs
            exact hpop
        · cases hs
          exact hpop
  | finish j =>
    simp only [step] at hs
    split at hs
    · cases hs
    · rename_i job hjob
      split_ifs at hs
      cases hs
      refine h.unlist ((h.jobs j job hjob).move nofun rfl rfl ?_) (abandoned_iff hjob).mp
      exact nofun
  | connect w =>
    cases hs
    have hnew : Inv (s.setWorker w { s.workers w with session := some s.sessions, active := [] }) :=
      h.setWorker ((hsafe w).congr rfl rfl rfl)
    exact hnew.congr rfl rfl rfl rfl rfl
  | receive w =>
    simp only [step] at hs
    split at hs
    · cases hs
    · rename_i n hn
      split at hs
      · cases hs
      · rename_i m ms hdown
        cases hs
        have hpop : Inv (s.setDown n ms) := by
          refine h.setDown fun j key hm => h.down n j key ?_
          rw [hdown]
          exact mem_cons_of_mem _ hm
        have hfit : Fits s w m := ha n hn m (by rw [hdown]; rfl)
        have hfit' : Fits (s.setDown n ms) w m := by
          cases m <;> exact hfit
        refine hpop.handle hfit' fun j key hm => h.down n j key ?_
        rw [hdown, hm]
        exact mem_cons_self ..
  | launch w j =>
    simp only [step] at hs
    split at hs
    · rename_i n b hn hb
      cases hs
      exact h.setWorker ((hsafe w).launch (ha b hb))
    · cases hs
  | abort w key =>
    obtain ⟨hok, hs⟩ := ite_none_right_eq_some.mp hs
    cases hs
    exact h.setWorker ((hsafe w).abort hok.1)
  | record w t v =>
    obtain ⟨hok, hs⟩ := ite_none_right_eq_some.mp hs
    cases hs
    exact h.setWorker ((hsafe w).record hok.1 hok.2.mp)
  | clear w key =>
    obtain ⟨-, hs⟩ := ite_none_right_eq_some.mp hs
    cases hs
    exact h.setWorker (hsafe w).clear
  | deliver w key =>
    obtain ⟨-, hs⟩ := ite_none_right_eq_some.mp hs
    have hcall : Inv (s.setWorker w { s.workers w with calls := (s.workers w).calls.erase key }) :=
      h.setWorker ((hsafe w).congr rfl rfl rfl)
    split at hs
    · cases hs
      exact hcall
    · rename_i e he
      split at hs
      · rename_i v hv
        split_ifs at hs
        · cases hs
          refine hcall.report fun hc => h.workers w key e he (.inr (.inr ?_))
          rw [hv, hc]
        · cases hs
          exact hcall
      · cases hs
        exact hcall
  | reap w key =>
    simp only [step] at hs
    split at hs
    · cases hs
    · split_ifs at hs
      cases hs
      exact h.setWorker ((hsafe w).setEntry nofun)
  | tick seconds =>
    cases hs
    exact h.congr rfl rfl rfl rfl rfl

/-- In such runs no client ever hears that its build was cancelled: a client that has left
hears nothing, and one that stays is not the reason for a cancel. -/
theorem no_cancelled_verdict_if_separate (h : (system K J C W).ReachableIf Separate s) (c : C) (j : J) :
    (c, j, .cancelled) ∉ s.received := by
  have hinv : Inv s := by
    refine h.invariant ?_ ?_
    · rintro s rfl
      exact inv_initial
    · intro s a s' hs ha hstep
      exact inv_step hs ha hstep
  exact hinv.received c j

instance (s : State K J C W) (w : W) (m : HubMsg K J) : Decidable (Fits s w m) := by
  cases m <;> dsimp only [Fits] <;> infer_instance

instance (s : State K J C W) (a : Action K J C W) : Decidable (Separate s a) := by
  cases a <;> dsimp only [Separate] <;> infer_instance

/-- The first job is cancelled and its build gone when the key is submitted again. -/
theorem no_cancelled_verdict_after_resubmission : ∃ s, (system ℕ ℕ ℕ ℕ).ReachableIf Separate s ∧
    s.received = [(1, 1, .finished 0)] ∧ (1, 1, .cancelled) ∉ s.received := by
  obtain ⟨s, hr, htest⟩ := (system ℕ ℕ ℕ ℕ).exists_reachableIf_of_decide Separate State.initial
    [.connect 0, .list 0 0 7, .subscribe 0 0, .enqueue 0, .dispatch 0 0, .receive 0, .launch 0 0, .leave 0 0,
      .check 0, .tick 11, .check 0, .unlist 0, .sendCancel 0, .receive 0, .abort 0 7, .record 0 ⟨7, true⟩ .cancelled,
      .clear 0 7, .deliver 0 7, .take 0, .finish 0, .receive 0, .list 1 1 7, .subscribe 1 1, .enqueue 1, .dispatch 1 0,
      .receive 0, .launch 0 1, .record 0 ⟨7, false⟩ (.finished 0), .clear 0 7, .deliver 0 7, .take 0]
    (fun s => s.received = [(1, 1, .finished 0)]) rfl (by decide)
  exact ⟨s, hr, htest, no_cancelled_verdict_if_separate hr 1 1⟩

/-- A client joins the job between the check and the verdict; or submits the key anew while
the flagged build still runs, and its job adopts that build. -/
theorem cancelled_verdict_to_attached_client :
    (∃ s, (system ℕ ℕ ℕ ℕ).Reachable s ∧ s.received = [(1, 0, .cancelled)] ∧ (s.jobs 0).map subs = some [1]) ∧
    ∃ s, (system ℕ ℕ ℕ ℕ).Reachable s ∧ s.received = [(1, 1, .cancelled)] ∧ (s.jobs 1).map subs = some [1] := by
  constructor
  · exact (system ℕ ℕ ℕ ℕ).exists_reachable_of_exec State.initial
      [.connect 0, .list 0 0 7, .subscribe 0 0, .enqueue 0, .dispatch 0 0, .receive 0, .launch 0 0, .leave 0 0,
        .check 0, .tick 11, .lookUp 1 7, .check 0, .subscribe 1 0, .unlist 0, .sendCancel 0, .receive 0, .abort 0 7,
        .record 0 ⟨7, true⟩ .cancelled, .clear 0 7, .deliver 0 7, .take 0] _ rfl (by decide)
  · exact (system ℕ ℕ ℕ ℕ).exists_reachable_of_exec State.initial
      [.connect 0, .list 0 0 7, .subscribe 0 0, .enqueue 0, .dispatch 0 0, .receive 0, .launch 0 0, .leave 0 0,
        .check 0, .tick 11, .check 0, .unlist 0, .sendCancel 0, .receive 0, .list 1 1 7, .subscribe 1 1, .enqueue 1,
        .dispatch 1 0, .receive 0, .abort 0 7, .record 0 ⟨7, true⟩ .cancelled, .clear 0 7, .deliver 0 7, .take 0] _ rfl
      (by decide)

end Tribuchet.Session.Cancel
