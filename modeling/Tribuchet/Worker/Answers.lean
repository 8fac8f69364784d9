import Mathlib.Algebra.GroupWithZero.Nat
import Tribuchet.Worker.Registry

/-! Every request for chunks is answered. Between its `Result` and the hub's `Need` a build
has to stay in the registry under the id the result was sent with; the reaper, an
acknowledgement and a new assignment of the key do not look at that. -/

set_option linter.unusedSectionVars false

namespace Tribuchet.Worker.Resume

open Runs List Option

variable {K I H : Type} [DecidableEq K] [DecidableEq I] [DecidableEq H]
variable {s s' : State K I H} {key : K} {id : I} {a : Action K I H}

/-! ### Picking chunks -/

theorem mem_pick {h : H} : ∀ (hs : List H) (needed : Finset H), h ∈ needed →
    h ∈ (pick hs needed).1 ∨ h ∈ (pick hs needed).2
  | [], _, hn => .inr hn
  | h' :: hs, needed, hn => by
    unfold pick
    split_ifs with hh
    · by_cases heq : h = h'
      · exact .inl (heq ▸ mem_cons_self ..)
      · rcases mem_pick hs (needed.erase h') (Finset.mem_erase.mpr ⟨heq, hn⟩) with hp | hp
        · exact .inl (mem_cons_of_mem _ hp)
        · exact .inr hp
    · exact mem_pick hs needed hn

variable {r : Request I H}

theorem mem_start_frames {fin : Finished H} (hcomplete : (Serving.start r fin).complete = true)
    {h : H} (hh : h ∈ r.asked) : h ∈ (Serving.start r fin).frames := by
  have hrest : (pick fin.hashes r.asked.toFinset).2 = ∅ := of_decide_eq_true hcomplete
  rcases mem_pick fin.hashes r.asked.toFinset (mem_toFinset.mpr hh) with hp | hp
  · exact hp
  · rw [hrest] at hp
    simp at hp

/-! ### Builds the hub will ask for -/

/-- The hub is going to ask for chunks of the build under the key, unless the session ends. -/
def State.owes (s : State K I H) (key : K) : Prop :=
  s.up = true ∧ ((∃ d ∈ s.deliveries, d.key = key ∧ d.done = false ∧ d.session = s.session ∧ d.fin.exitCode = 0) ∨
    ∃ e ∈ s.registry.lookup key, s.asks e.buildId)

/-- A build is removed or renamed only when nothing of it is owed. -/
def Kept (s : State K I H) (a : Action K I H) : Prop := ∀ key ∈ a.displaces, ¬ s.owes key

structure Ready (s : State K I H) : Prop where
  unsent : ∀ d ∈ s.deliveries, d.done = false → s.isUp d.session → d.fin.exitCode = 0 →
    ∃ e, s.registry.lookup d.key = some e ∧ e.buildId = d.buildId ∧ e.finished = some d.fin
  asked : ∀ id, s.up = true → s.asks id → ∃ k e, s.registry.lookup k = some e ∧ e.buildId = id ∧ e.finished.isSome

/-- A failing result, or all chunks that were asked for and then the end. -/
def Answered (s : State K I H) (r : Request I H) : Prop :=
  (∃ error, (r.session, .failed r.buildId error) ∈ s.sent) ∨
    ∃ pre post, s.sent = pre ++ (r.session, .eof r.buildId) :: post ∧
      ∀ h ∈ r.asked, (r.session, .chunk r.buildId h) ∈ pre

/-- A thread serves a request: what was asked for is sent, or comes, or the thread is going
to report that it is not there. -/
def Serves (s : State K I H) (t : Serving I H) (r : Request I H) : Prop :=
  t.session = r.session ∧ t.buildId = r.buildId ∧
    (t.complete = true → ∀ h ∈ r.asked, (r.session, .chunk r.buildId h) ∈ s.sent ∨ h ∈ t.frames)

/-- Every request on a session that is up is answered or being served. -/
structure Attended (s : State K I H) : Prop where
  sessions : ∀ r ∈ s.requests, r.session ≤ s.session
  requests : ∀ r ∈ s.requests, s.isUp r.session → Answered s r ∨ ∃ t ∈ s.servings, Serves s t r
  dropped : s.dropped = []

theorem Msg.succeeds_eq_true {m : Msg I H} (h : m.succeeds id = true) : ∃ fin, m = .result id fin ∧ fin.exitCode = 0 := by
  cases m with
  | result i fin =>
    obtain ⟨rfl, hexit⟩ := of_decide_eq_true h
    exact ⟨fin, rfl, hexit⟩
  | _ => cases h

theorem findBuild_isSome (hn : Numbered s) {e : Entry I H} (he : s.registry.lookup key = some e)
    (hid : e.buildId = id) (hfin : e.finished.isSome) : (s.findBuild id).isSome := by
  have hmem : ⟨key, e⟩ ∈ s.registry.entries := AList.mem_lookup_iff.mp he
  unfold State.findBuild
  cases hfind : s.registry.entries.find? fun e => e.2.buildId = id with
  | none =>
    have := find?_eq_none.mp hfind _ hmem
    exact absurd hid (by simpa using this)
  | some found =>
    obtain ⟨k, e'⟩ := found
    have hid' : e'.buildId = id := by simpa using find?_some hfind
    have he' : s.registry.lookup k = some e' := AList.mem_lookup_iff.mpr (mem_of_find?_eq_some hfind)
    obtain rfl := hn.distinct k key e' e he' he (hid'.trans hid.symm)
    obtain rfl : e = e' := some.inj (he.symm.trans he')
    exact hfin

theorem ready_initial : Ready (State.initial : State K I H) := by
  refine ⟨?_, ?_⟩ <;> simp [State.initial]

theorem ready_step (h : Ready s) (hn : Numbered s) (ha : Kept s a) (hs : Step s a s') : Ready s' := by
  -- a result that is about to be sent keeps its entry
  have hunsent : ∀ d ∈ s.deliveries, d.done = false → s.isUp d.session → d.fin.exitCode = 0 →
      ∃ e, s'.registry.lookup d.key = some e ∧ e.buildId = d.buildId ∧ e.finished = some d.fin := by
    intro d hd hover hup hexit
    obtain ⟨e, he, hid, hfin⟩ := h.unsent d hd hover hup hexit
    rcases hs.kept he with hdis | ⟨e', he', hid', hfin'⟩
    · exact absurd ⟨hup.2, .inl ⟨d, hd, rfl, hover, hup.1, hexit⟩⟩ (ha d.key hdis)
    · exact ⟨e', he', hid'.trans hid, hfin' _ hfin⟩
  refine ⟨?_, ?_⟩
  · intro d' hd' hover hup hexit
    rcases hs.delivery hd' with ⟨d, hd, hkey, hid, hsess, hfin, hov⟩ | ⟨rfl, e, he, hid, -, hfin⟩
    · rw [← hsess] at hup
      rw [← hkey, ← hid, ← hfin]
      rw [← hfin] at hexit
      exact hunsent d hd (hov hover) (hs.isUp (hn.deliveries d hd).2 hup) hexit
    · rcases hs.kept he with hdis | ⟨e', he', hid', hfin'⟩
      · cases hdis
      · exact ⟨e', he', hid'.trans hid, hfin' _ hfin⟩
  · rintro i hup ⟨⟨m, hm, hsess, hsucc⟩, hreq⟩
    have hfirst : ∀ r ∈ s.requests, r.session = m.1 → r.buildId ≠ i :=
      fun r hr hr' => hreq r (hs.requests.subset hr) (hr'.trans hsess)
    rcases hs.message hm with hm | ⟨hlive, hres⟩
    · have hlive := hs.isUp (hn.sent m hm).1 ⟨hsess, hup⟩
      have hasks : s.asks i := ⟨⟨m, hm, hlive.1, hsucc⟩, fun r hr hr' => hfirst r hr (hr'.trans hlive.1.symm)⟩
      obtain ⟨k, e, he, rfl, hfin⟩ := h.asked i hlive.2 hasks
      rcases hs.kept he with hdis | ⟨e', he', hid', hfin'⟩
      · exact absurd ⟨hlive.2, .inr ⟨e, he, hasks⟩⟩ (ha k hdis)
      · obtain ⟨fin, hfin⟩ := isSome_iff_exists.mp hfin
        exact ⟨k, e', he', hid', by rw [hfin' fin hfin]; rfl⟩
    · obtain ⟨fin, hres', hexit⟩ := Msg.succeeds_eq_true hsucc
      obtain ⟨d, hd, hover, hds, rfl, rfl⟩ := hres i fin hres'
      obtain ⟨e, he, hid, hfin⟩ := hunsent d hd hover (hds ▸ hlive) hexit
      exact ⟨d.key, e, he, hid, by rw [hfin]; rfl⟩

/-! ### Answers -/

theorem Answered.mono (h : Answered s r) (hsent : s.sent <+: s'.sent) : Answered s' r := by
  rcases h with ⟨error, hm⟩ | ⟨pre, post, heq, hall⟩
  · exact .inl ⟨error, hsent.subset hm⟩
  · obtain ⟨more, hmore⟩ := hsent
    exact .inr ⟨pre, post ++ more, by rw [← hmore, heq]; simp, hall⟩

variable {t : Serving I H}

theorem Serves.mono (h : Serves s t r) (hsent : s.sent <+: s'.sent) : Serves s' t r :=
  ⟨h.1, h.2.1, fun hc x hx => (h.2.2 hc x hx).imp_left fun hm => hsent.subset hm⟩

theorem Serves.next (h : Serves s t r) (error : Option String)
    (hsent : s'.sent = s.sent ++ [(t.session, (t.next error).1)]) :
    Answered s' r ∨ ∃ t' ∈ (t.next error).2, Serves s' t' r := by
  obtain ⟨hsess, hid, hall⟩ := h
  have hfail : ∀ err, (t.next error).1 = .failed t.buildId err → Answered s' r := by
    intro err hnext
    refine .inl ⟨err, ?_⟩
    rw [hsent, hnext, hsess, hid]
    simp
  cases error with
  | some err => exact .inl (hfail _ rfl)
  | none =>
    cases hframes : t.frames with
    | cons hash frames =>
      have hnext : t.next none = (.chunk t.buildId hash, some { t with frames := frames }) := by
        simp only [Serving.next, hframes]
      rw [hnext] at hsent ⊢
      refine .inr ⟨_, rfl, hsess, hid, fun hc x hx => ?_⟩
      rw [hsent, mem_append]
      rcases hall hc x hx with hm | hm
      · exact .inl (.inl hm)
      · rw [hframes] at hm
        rcases mem_cons.mp hm with rfl | hm
        · exact .inl (.inr (by rw [hsess, hid]; simp))
        · exact .inr hm
    | nil =>
      by_cases hc : t.complete = true
      · have hnext : t.next none = (.eof t.buildId, none) := by simp only [Serving.next, hframes, if_pos hc]
        rw [hnext] at hsent
        refine .inl (.inr ⟨s.sent, [], by rw [hsent, hsess, hid], fun x hx => ?_⟩)
        rcases hall hc x hx with hm | hm
        · exact hm
        · rw [hframes] at hm
          cases hm
      · refine .inl (hfail (serveError "hub asked for chunks outside the result recipes") ?_)
        simp only [Serving.next, hframes, if_neg hc]

theorem Step.serving (hs : Step s a s') (ht : t ∈ s.servings) :
    t ∈ s'.servings ∨ ¬ s.isUp t.session ∨ ∃ error, s'.sent = s.sent ++ [(t.session, (t.next error).1)] ∧
      ∀ t' ∈ (t.next error).2, t' ∈ s'.servings := by
  cases hs with
  | needServed => exact .inl (mem_cons_of_mem _ ht)
  | deliver => exact .inl (send_servings s .. ▸ ht)
  | @serve t₀ error =>
    by_cases heq : t = t₀
    · subst heq
      exact .inr (.inr ⟨error, rfl, fun t' ht' => mem_append_left _ (mem_toList.mpr ht')⟩)
    · exact .inl (mem_append_right _ ((mem_erase_of_ne heq).mpr ht))
  | @serveLost t₀ error _ hup =>
    by_cases heq : t = t₀
    · exact .inr (.inl (heq ▸ hup))
    · exact .inl ((mem_erase_of_ne heq).mpr ht)
  | _ => exact .inl ht

/-- A request was there before, or is the one that arrives; a build is then found, unless
the request is dropped. -/
theorem Step.request (hs : Step s a s') (hr : r ∈ s'.requests) :
    r ∈ s.requests ∨ r.session = s.session ∧ s.asks r.buildId ∧ s.up = true ∧
      ∀ fin, s.findBuild r.buildId = some fin → Serving.start r fin ∈ s'.servings := by
  cases hs with
  | needDropped hup hasks hfind =>
    rcases mem_append.mp hr with hr | hr
    · exact .inl hr
    · rw [mem_singleton.mp hr]
      exact .inr ⟨rfl, hasks, hup, fun fin hfin => by rw [hfind] at hfin; cases hfin⟩
  | needServed hup hasks hfind =>
    rcases mem_append.mp hr with hr | hr
    · exact .inl hr
    · rw [mem_singleton.mp hr]
      refine .inr ⟨rfl, hasks, hup, fun fin hfin => ?_⟩
      cases hfind.symm.trans hfin
      exact mem_cons_self ..
  | deliver =>
    refine .inl ?_
    unfold State.send at hr
    split at hr <;> exact hr
  | _ => exact .inl hr

theorem Step.dropped (hs : Step s a s') : s'.dropped = s.dropped ∨ ∃ id, s.up = true ∧ s.asks id ∧ s.findBuild id = none := by
  cases hs with
  | needDropped hup hasks hfind => exact .inr ⟨_, hup, hasks, hfind⟩
  | deliver =>
    refine .inl ?_
    unfold State.send
    split <;> rfl
  | _ => exact .inl rfl

theorem attended_initial : Attended (State.initial : State K I H) := by
  refine ⟨?_, ?_, rfl⟩ <;> simp [State.initial]

theorem attended_step (h : Attended s) (hr : Ready s) (hn : Numbered s) (hs : Step s a s') : Attended s' := by
  have hfound : ∀ i, s.up = true → s.asks i → ∃ fin, s.findBuild i = some fin := by
    intro i hup hasks
    obtain ⟨k, e, he, hid, hfin⟩ := hr.asked i hup hasks
    exact isSome_iff_exists.mp (findBuild_isSome hn he hid hfin)
  refine ⟨?_, ?_, ?_⟩
  · intro r hmem
    rcases hs.request hmem with hmem | ⟨hsess, -⟩
    · exact le_trans (h.sessions r hmem) hs.session_le
    · exact hsess ▸ hs.session_le
  · intro r hmem hup
    rcases hs.request hmem with hmem | ⟨-, hasks, hlive, hserve⟩
    · have hup := hs.isUp (h.sessions r hmem) hup
      rcases h.requests r hmem hup with hans | ⟨t, ht, hserves⟩
      · exact .inl (hans.mono hs.sent)
      · rcases hs.serving ht with ht | hdown | ⟨error, hsent, hmore⟩
        · exact .inr ⟨t, ht, hserves.mono hs.sent⟩
        · exact absurd (hserves.1 ▸ hup) hdown
        · refine (hserves.next error hsent).imp_right ?_
          rintro ⟨t', ht', hserves'⟩
          exact ⟨t', hmore t' ht', hserves'⟩
    · obtain ⟨fin, hfin⟩ := hfound _ hlive hasks
      exact .inr ⟨_, hserve fin hfin, rfl, rfl, fun hc x hx => .inr (mem_start_frames hc hx)⟩
  · rcases hs.dropped with hsame | ⟨i, hup, hasks, hnone⟩
    · exact hsame.trans h.dropped
    · obtain ⟨fin, hfin⟩ := hfound i hup hasks
      rw [hnone] at hfin
      cases hfin

/-! ### The threads end -/

/-- The messages the serving threads have still to send, at most. -/
def State.work (s : State K I H) : ℕ := (s.servings.map fun t => t.frames.length + 1).sum

theorem work_erase {ts : List (Serving I H)} (ht : t ∈ ts) :
    (ts.map fun t => t.frames.length + 1).sum = t.frames.length + 1 + ((ts.erase t).map fun t => t.frames.length + 1).sum := by
  rw [((perm_cons_erase ht).map _).sum_nat, map_cons, sum_cons]

theorem work_next (t : Serving I H) (error : Option String) :
    ((t.next error).2.toList.map fun t => t.frames.length + 1).sum ≤ t.frames.length := by
  cases error with
  | some err => exact Nat.zero_le _
  | none =>
    unfold Serving.next
    cases hframes : t.frames with
    | cons hash frames => simp
    | nil =>
      dsimp only
      split_ifs <;> simp

theorem work_serve (ht : t ∈ s.servings) (error : Option String) :
    ∃ s', step s (.serve t error) = some s' ∧ s'.work < s.work := by
  refine ⟨_, if_pos ht, ?_⟩
  have hnext := work_next t error
  unfold State.work
  rw [work_erase ht, map_append, sum_append]
  split_ifs
  · omega
  · simp

theorem Step.work (hs : Step s a s') : s'.work ≤ s.work ∨ ∃ id hashes, a = .need id hashes := by
  unfold State.work
  cases hs with
  | needDropped | needServed => exact .inr ⟨_, _, rfl⟩
  | deliver =>
    rw [send_servings]
    exact .inl le_rfl
  | @serve t error ht =>
    have hnext := work_next t error
    rw [work_erase ht, map_append, sum_append]
    exact .inl (by omega)
  | serveLost ht =>
    rw [work_erase ht]
    exact .inl (Nat.le_add_left _ _)
  | _ => exact .inl le_rfl

/-- In runs where a build is removed or renamed only when nothing of it is owed, no request
is dropped: each one on a session that is up is answered, or a thread is about to answer
it, and the threads come to an end. -/
theorem need_answered_unless_displaced (h : (system K I H).ReachableIf Kept s) : s.dropped = [] ∧
      (∀ r ∈ s.requests, s.isUp r.session → Answered s r ∨ ∃ t ∈ s.servings, Serves s t r) ∧
      (∀ t ∈ s.servings, ∀ error, ∃ s', step s (.serve t error) = some s' ∧ s'.work < s.work) ∧
      ∀ a s', step s a = some s' → s'.work ≤ s.work ∨ ∃ id hashes, a = .need id hashes := by
  obtain ⟨-, hatt⟩ : Ready s ∧ Attended s := by
    refine h.invariant_with (I := fun s => Ready s ∧ Attended s) ?_ ?_
    · rintro s rfl
      exact ⟨ready_initial, attended_initial⟩
    · rintro s a s' hreach ⟨hr, hatt⟩ ha hstep
      have hs := step_cases hstep
      have hn := numbered_reachable hreach
      exact ⟨ready_step hr hn ha hs, attended_step hatt hr hn hs⟩
  exact ⟨hatt.dropped, hatt.requests, fun t ht error => work_serve ht error, fun a s' hs => (step_cases hs).work⟩

instance (s : State K I H) (key : K) : Decidable (s.owes key) :=
  inferInstanceAs (Decidable (_ ∧ (_ ∨ ∃ e ∈ s.registry.lookup key, s.asks e.buildId)))

instance (s : State K I H) (a : Action K I H) : Decidable (Kept s a) :=
  inferInstanceAs (Decidable (∀ key ∈ a.displaces, ¬ s.owes key))

/-- The hub asks for one of the two chunks of a build and gets it. -/
theorem need_answered_on_session : ∃ s, (system ℕ ℕ ℕ).ReachableIf Kept s ∧ s.requests = [⟨1, 0, [7]⟩] ∧ s.isUp 1 ∧
    s.sent = [(1, .result 0 ⟨0, 0, [5, 7], 0⟩), (1, .chunk 0 7), (1, .eof 0)] ∧ s.dropped = [] := by
  obtain ⟨s, hr, htest⟩ := (system ℕ ℕ ℕ).exists_reachableIf_of_decide Kept State.initial
    [.connect, .launch 0 0, .finish 0 0 [5, 7], .tryDeliver 0, .deliver ⟨0, 0, 1, ⟨0, 0, [5, 7], 0⟩, false⟩,
      .delivered ⟨0, 0, 1, ⟨0, 0, [5, 7], 0⟩, true⟩, .need 0 [7], .serve ⟨1, 0, 0, [7], [7], true⟩ none,
      .serve ⟨1, 0, 0, [7], [], true⟩ none]
    (fun s => s.requests = [⟨1, 0, [7]⟩] ∧ s.isUp 1 ∧
      s.sent = [(1, .result 0 ⟨0, 0, [5, 7], 0⟩), (1, .chunk 0 7), (1, .eof 0)]) rfl (by decide)
  obtain ⟨hreq, hup, hsent⟩ := htest
  exact ⟨s, hr, hreq, hup, hsent, (need_answered_unless_displaced hr).1⟩

/-- A build that has been waiting for a session is delivered, and reaped before the hub asks
for its chunks. -/
theorem need_dropped_after_reaping : ∃ s, (system ℕ ℕ ℕ).Reachable s ∧ s.isUp 1 ∧ s.dropped = [⟨1, 1, [7]⟩] ∧
    s.sent = [(1, .resumed 1), (1, .result 1 ⟨0, 0, [7], 0⟩)] ∧ s.servings = [] := by
  exact (system ℕ ℕ ℕ).exists_reachable_of_exec State.initial
    [.readopt 0 0, .finish 0 0 [7], .tryDeliver 0, .tick 301, .connect, .adopt 0 1, .sendResumed, .spawn, .tryDeliver 0,
      .deliver ⟨0, 1, 1, ⟨0, 0, [7], 0⟩, false⟩, .delivered ⟨0, 1, 1, ⟨0, 0, [7], 0⟩, true⟩, .reap 0, .need 1 [7]] _ rfl (by decide)

end Tribuchet.Worker.Resume
