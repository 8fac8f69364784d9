import Tribuchet.Staging.Wakes

/-! A build whose hub may send anything. The handlers index `infos` and `recipes` by paths
that other maps name, and count down what other maps counted up; `Indexed` is the relation of
those maps that makes this safe. The handlers keep it as long as no manifest comes for a path
that is complete and parked. -/

set_option linter.unusedSectionVars false

namespace Tribuchet.Staging

open Hoare List Table AList ActiveBuild ChunkStaging

variable {B P H : Type} [DecidableEq P] [DecidableEq H]

def Error.isPanic : Error P → Bool
  | .panicked => true
  | _ => false

theorem Error.isPanic_iff {e : Error P} : e.isPanic = true ↔ e = .panicked := by
  cases e <;> simp [Error.isPanic]

def Error.isCrash : Error P → Bool
  | .panicked | .outOfFuel => true
  | _ => false

def Error.isMild : Error P → Bool
  | .panicked | .outOfFuel | .chunksKeepMissing | .importFailed _ => false
  | _ => true

theorem Error.isCrash_of_isMild {e : Error P} (h : e.isMild = true) : e.isCrash = false := by
  cases e <;> simp_all [Error.isMild, Error.isCrash]

/-- Every path that a handler looks up has its entries; `hot` are complete paths that a handler
has taken up and not yet started. -/
structure Indexed (hot : List P) (x : ActiveBuild P H) : Prop where
  counted : x.chunks.Counted
  infos : ∀ p ∈ x.chunks.recipes, p ∈ x.infos
  imports : ∀ p ∈ x.imports, p ∈ x.chunks.recipes ∧ p ∉ x.pending
  remaining : ∀ p ∈ x.chunks.remaining, p ∈ x.pending ∧ p ∈ x.chunks.recipes
  complete : ∀ p ∈ x.parked ++ hot, x.Complete p
  taken : (x.parked ++ hot).Nodup

section Indexed

variable {hot : List P} {x x' : ActiveBuild P H} {p : P}

theorem Indexed.congr (h : Indexed hot x) (hpend : x'.pending = x.pending) (hpark : x'.parked = x.parked)
    (hinfos : x'.infos = x.infos) (himp : x'.imports = x.imports) (hchunks : x'.chunks = x.chunks) :
    Indexed hot x' where
  counted := hchunks ▸ h.counted
  infos := by
    rw [hchunks, hinfos]
    exact h.infos
  imports := by
    rw [hchunks, himp, hpend]
    exact h.imports
  remaining := by
    rw [hchunks, hpend]
    exact h.remaining
  complete := by
    unfold Complete
    rw [hchunks, hpark, hpend]
    exact h.complete
  taken := hpark ▸ h.taken

theorem Indexed.addPending (h : Indexed hot x) (hp : p ∉ x.imports) : Indexed hot (x.addPending p) where
  counted := h.counted
  infos := h.infos
  imports q hq := by
    refine ⟨(h.imports q hq).1, fun hm => ?_⟩
    rcases Finset.mem_insert.mp hm with rfl | hm
    · exact hp hq
    · exact (h.imports q hq).2 hm
  remaining q hq := ⟨Finset.mem_insert_of_mem (h.remaining q hq).1, (h.remaining q hq).2⟩
  complete q hq := ⟨Finset.mem_insert_of_mem (h.complete q hq).1, (h.complete q hq).2⟩
  taken := h.taken

theorem Indexed.unpark (h : Indexed hot x) : Indexed (x.parked ++ hot) x.unpark where
  counted := h.counted
  infos := h.infos
  imports := h.imports
  remaining := h.remaining
  complete := h.complete
  taken := h.taken

theorem Indexed.park (h : Indexed (p :: hot) x) : Indexed hot (x.park p) := by
  have hperm : (x.parked ++ p :: hot).Perm (p :: x.parked ++ hot) := perm_middle
  have hnodup := hperm.nodup_iff.mp h.taken
  have hnot : p ∉ x.parked := fun hm => (nodup_cons.mp hnodup).1 (mem_append_left _ hm)
  have hparked : (x.park p).parked = p :: x.parked := insert_of_not_mem hnot
  refine ⟨h.counted, h.infos, h.imports, h.remaining, fun q hq => ?_, ?_⟩
  · rw [hparked] at hq
    exact h.complete q (hperm.mem_iff.mpr hq)
  · rw [hparked]
    exact hnodup

theorem Indexed.dispatch (h : Indexed (p :: hot) x) : Indexed hot (x.dispatch p) := by
  have hp : x.Complete p := h.complete p (mem_append_right _ mem_cons_self)
  have hperm : (x.parked ++ p :: hot).Perm (p :: (x.parked ++ hot)) := perm_middle
  obtain ⟨hnot, hnodup⟩ := nodup_cons.mp (hperm.nodup_iff.mp h.taken)
  refine ⟨h.counted, h.infos, fun q hq => ?_, fun q hq => ?_, fun q hq => ?_, hnodup⟩
  · rcases (mem_insert _).mp hq with rfl | hq
    · exact ⟨hp.2.1, Finset.notMem_erase _ _⟩
    · exact ⟨(h.imports q hq).1, fun hm => (h.imports q hq).2 (Finset.mem_of_mem_erase hm)⟩
  · obtain ⟨hpend, hrec⟩ := h.remaining q hq
    refine ⟨Finset.mem_erase.mpr ⟨?_, hpend⟩, hrec⟩
    rintro rfl
    exact hp.2.2 hq
  · obtain ⟨hpend, hrest⟩ := h.complete q (hperm.mem_iff.mpr (mem_cons_of_mem _ hq))
    refine ⟨Finset.mem_erase.mpr ⟨?_, hpend⟩, hrest⟩
    rintro rfl
    exact hnot hq

theorem Indexed.release (h : Indexed [] x) {c : ChunkStaging P H} {done : List P} (hc : c.Counted)
    (hr : c.recipes = x.chunks.recipes) (hd : done.Nodup)
    (hs : ∀ p, p ∈ x.chunks.remaining ↔ p ∈ done ∨ p ∈ c.remaining) (ha : ∀ p ∈ done, p ∉ c.remaining) :
    Indexed done (x.setChunks c) := by
  refine ⟨hc, ?_, ?_, fun q hq => ?_, fun q hq => ?_, ?_⟩
  · rw [setChunks_chunks, hr]
    exact h.infos
  · rw [setChunks_chunks, hr]
    exact h.imports
  · rw [setChunks_chunks, hr]
    exact h.remaining q ((hs q).mpr (.inr hq))
  · simp only [Complete, setChunks_pending, setChunks_chunks, hr]
    rcases mem_append.mp hq with hq | hq
    · obtain ⟨h1, h2, h3⟩ := h.complete q (mem_append_left _ hq)
      exact ⟨h1, h2, fun hm => h3 ((hs q).mpr (.inr hm))⟩
    · obtain ⟨h1, h2⟩ := h.remaining q ((hs q).mpr (.inl hq))
      exact ⟨h1, h2, ha q hq⟩
  · have htaken : x.parked.Nodup := by simpa using h.taken
    refine nodup_append.mpr ⟨htaken, hd, ?_⟩
    rintro a hpark b hdone rfl
    exact (h.complete a (mem_append_left _ hpark)).2.2 ((hs a).mpr (.inl hdone))

theorem Indexed.await (h : Indexed [] x) (hp : p ∈ x.pending) (hn : p ∉ x.parked) {recipe : Recipe H}
    {c c' : ChunkStaging P H} {need : List H} (haw : Awaited x.chunks p recipe c need)
    (hw : c'.waiters = c.waiters) (hrem' : c'.remaining = c.remaining)
    (hrec : ∀ q, q ∈ c'.recipes ↔ q = p ∨ q ∈ x.chunks.recipes) {infos : AList fun _ : P => PathInfo P}
    (hinfos : ∀ q, q ∈ c'.recipes → q ∈ infos) :
    Indexed (if p ∈ c.remaining then [] else [p]) { x with infos := infos, chunks := c' } := by
  refine ⟨⟨?_, ?_⟩, hinfos, fun q hq => ?_, fun q hq => ?_, fun q hq => ?_, ?_⟩
  · rw [hw]
    exact haw.counted.waiters
  · rw [hw, hrem']
    exact haw.counted.remaining
  · exact ⟨(hrec q).mpr (.inr (h.imports q hq).1), (h.imports q hq).2⟩
  · rw [hrem'] at hq
    by_cases hqp : q = p
    · exact ⟨hqp ▸ hp, (hrec q).mpr (.inl hqp)⟩
    · obtain ⟨h1, h2⟩ := h.remaining q ((haw.mem_remaining hqp).mp hq)
      exact ⟨h1, (hrec q).mpr (.inr h2)⟩
  · simp only [Complete, hrem']
    rcases mem_append.mp hq with hq | hq
    · have hqp : q ≠ p := fun heq => hn (heq ▸ hq)
      obtain ⟨h1, h2, h3⟩ := h.complete q (mem_append_left _ hq)
      exact ⟨h1, (hrec q).mpr (.inr h2), fun hm => h3 ((haw.mem_remaining hqp).mp hm)⟩
    · split_ifs at hq with hc
      · cases hq
      · obtain rfl := mem_singleton.mp hq
        exact ⟨hp, (hrec q).mpr (.inl rfl), hc⟩
  · have htaken : x.parked.Nodup := by simpa using h.taken
    split_ifs
    · simpa using htaken
    · refine nodup_append.mpr ⟨htaken, by simp, ?_⟩
      intro a ha b hb hab
      rw [mem_singleton.mp hb] at hab
      exact hn (hab ▸ ha)

theorem Indexed.finish (h : Indexed hot x) (hp : p ∈ x.imports) (result : Option (ImportOutcome H)) :
    Indexed hot { x with imports := x.imports.insert p result } := by
  refine ⟨h.counted, h.infos, fun q hq => h.imports q ?_, h.remaining, h.complete, h.taken⟩
  rcases (mem_insert _).mp hq with rfl | hq
  · exact hp
  · exact hq

theorem Indexed.forget (h : Indexed [] x) (hp : p ∈ x.imports) : Indexed [] ((x.dropImport p).forget p) := by
  have hpend := (h.imports p hp).2
  have hkeep : ∀ q ∈ x.pending, q ∈ x.chunks.recipes → q ∈ x.chunks.recipes.erase p := fun q hq hr =>
    mem_erase.mpr ⟨fun heq => hpend (heq ▸ hq), hr⟩
  refine ⟨⟨h.counted.waiters, h.counted.remaining⟩, fun q hq => ?_, fun q hq => ?_, fun q hq => ?_, fun q hq => ?_, h.taken⟩
  · obtain ⟨hne, hq⟩ := mem_erase.mp hq
    exact mem_erase.mpr ⟨hne, h.infos q hq⟩
  · obtain ⟨hne, hq⟩ := mem_erase.mp hq
    exact ⟨mem_erase.mpr ⟨hne, (h.imports q hq).1⟩, (h.imports q hq).2⟩
  · obtain ⟨h1, h2⟩ := h.remaining q hq
    exact ⟨h1, hkeep q h1 h2⟩
  · obtain ⟨h1, h2, h3⟩ := h.complete q hq
    exact ⟨h1, hkeep q h1 h2, h3⟩

end Indexed

/-! ### Requests -/

/-- On the way from `x` to `x'` the build has found `hashes` to request: nothing else is waited
for that was not before. -/
structure Asks (x x' : ActiveBuild P H) (hashes : List H) : Prop where
  rounds : x'.resendRounds = x.resendRounds
  outstanding : x'.needsOutstanding = x.needsOutstanding
  waiting : ∀ hash ∈ x'.chunks.waiters, hash ∈ x.chunks.waiters ∨ hash ∈ hashes
  results : ∀ p outcome, x'.imports.lookup p = some (some outcome) → x.imports.lookup p = some (some outcome)

/-- A handler ended with `need`, and has counted `rounds` more. -/
structure Requests (rounds : ℕ) (x x' : ActiveBuild P H) (need : Option (Need P H)) : Prop where
  rounds : x'.resendRounds = x.resendRounds + rounds
  outstanding : x'.needsOutstanding = x.needsOutstanding + if askedHashes need = [] then 0 else 1
  waiting : ∀ hash ∈ x'.chunks.waiters, hash ∈ x.chunks.waiters ∨ hash ∈ askedHashes need
  results : ∀ p outcome, x'.imports.lookup p = some (some outcome) → x.imports.lookup p = some (some outcome)

section Requests

variable {x y z : ActiveBuild P H} {hashes hashes' : List H}

theorem Asks.trans (h : Asks x y hashes) (h' : Asks y z hashes') : Asks x z (hashes ++ hashes') where
  rounds := h'.rounds.trans h.rounds
  outstanding := h'.outstanding.trans h.outstanding
  waiting hash hm := by
    rw [mem_append]
    rcases h'.waiting hash hm with hm | hm
    · exact (h.waiting hash hm).imp_right .inl
    · exact .inr (.inr hm)
  results p outcome hl := h.results p outcome (h'.results p outcome hl)

theorem Starts.asks (h : Starts x y) : Asks x y [] where
  rounds := h.resendRounds
  outstanding := h.needsOutstanding
  waiting _ hm := .inl (h.chunks ▸ hm)
  results p outcome hl := by
    rw [h.handled.imports p] at hl
    split_ifs at hl
    · cases hl
    · exact hl

theorem Asks.starts (h : Asks x y hashes) (h' : Starts y z) : Asks x z hashes := by
  simpa using h.trans h'.asks

theorem Asks.none (h : Asks x y []) : Requests 0 x y none :=
  ⟨h.rounds, h.outstanding, h.waiting, h.results⟩

theorem Requests.trans {need : Option (Need P H)} (h : Requests 0 x y none) (h' : Requests 0 y z need) :
    Requests 0 x z need where
  rounds := h'.rounds.trans h.rounds
  outstanding := by
    rw [h'.outstanding, h.outstanding]
    rfl
  waiting hash hm := by
    rcases h'.waiting hash hm with hm | hm
    · exact (h.waiting hash hm).imp_right nofun
    · exact .inr hm
  results p outcome hl := h.results p outcome (h'.results p outcome hl)

theorem Asks.need_spec (h : Asks x y hashes) (hi : Indexed [] y) (paths : List P)
    (E : Error P → ActiveBuild P H → Prop) :
    Ends (need paths hashes) y (fun n x' => Indexed [] x' ∧ Requests 0 x x' n) E := by
  unfold need
  split_ifs with hnone
  · obtain ⟨-, rfl⟩ := hnone
    exact ends_pure ⟨hi, h.none⟩
  · apply ends_modify_bind
    refine ends_pure ⟨hi.congr rfl rfl rfl rfl rfl, h.rounds, ?_, h.waiting, h.results⟩
    rw [ask_needsOutstanding, h.outstanding]
    rfl

end Requests

/-! ### The handlers of one build -/

section Build

variable {x : ActiveBuild P H} {p : P} (store : Finset H)

theorem Indexed.start_spec {queue : List P} (h : Indexed (p :: queue) x) :
    Ends (unstagedRef p) x (fun r x' => x = x' ∧ match r with
      | some _ => Indexed queue (x.park p) ∧ Starts x (x.park p)
      | none => Ends (dispatchImport p) x
          (fun _ x' => x' = x.dispatch p ∧ Indexed (x.parked ++ queue) x'.unpark ∧ Starts x x'.unpark)
          fun e _ => e.isMild = true) fun e _ => e.isMild = true := by
  have hp : x.Complete p := h.complete p (mem_append_right _ mem_cons_self)
  have hinfo := h.infos p hp.2.1
  have hdispatch : Ends (dispatchImport p) x
      (fun _ x' => x' = x.dispatch p ∧ Indexed (x.parked ++ queue) x'.unpark ∧ Starts x x'.unpark)
      fun e _ => e.isMild = true := by
    unfold dispatchImport
    apply ends_get_bind
    simp only [hp.1, hp.2.1, hinfo, not_true_eq_false, if_false]
    exact ends_set ⟨rfl, h.dispatch.unpark, (starts_dispatch hp.1).trans (starts_unpark _)⟩
  unfold unstagedRef
  apply ends_get_bind
  obtain ⟨info, hl⟩ := exists_lookup hinfo
  rw [hl]
  simp only
  split
  · exact ends_pure ⟨rfl, hdispatch⟩
  · split_ifs
    · exact ends_pure ⟨rfl, h.park, starts_park x p⟩
    · exact ends_throw rfl

theorem startAll_indexed {paths : List P} (h : Indexed paths x) :
    Ends (startAll paths) x (fun _ x' => Indexed [] x' ∧ Starts x x') fun e _ => e.isMild = true := by
  refine startAll_rule (I := fun queue x' => Indexed queue x' ∧ Starts x x') ?_ ⟨h, .refl x⟩
  rintro path queue x' ⟨hi, hs⟩
  refine hi.start_spec.imp ?_
  rintro r _ ⟨rfl, hr⟩
  refine ⟨rfl, ?_⟩
  cases r with
  | some r => exact ⟨hr.1, hs.trans hr.2⟩
  | none =>
    refine Ends.imp hr ?_
    rintro - _ ⟨rfl, hi', hs'⟩
    exact ⟨rfl, hi', hs.trans hs'⟩

variable (h : Indexed [] x)

include h

theorem retryParked_indexed :
    Ends retryParked x (fun _ x' => Indexed [] x' ∧ Starts x x') fun e _ => e.isMild = true := by
  unfold retryParked
  apply ends_get_bind
  apply ends_modify_bind
  have h' : Indexed x.parked x.unpark := by simpa using h.unpark
  refine (startAll_indexed h').imp ?_
  rintro - x' ⟨hi, hs⟩
  exact ⟨hi, (starts_unpark x).trans hs⟩

omit h in
theorem parseRecipe_isMild {hashes : List H} {sizes : List ℕ} {e : Error P}
    (h : parseRecipe p hashes sizes = .error e) : e.isMild = true := by
  unfold parseRecipe at h
  split_ifs at h
  · cases h
    rfl
  · rw [parseEntries_error h]
    rfl

theorem takeManifest_indexed {m : Manifest P H} (hn : m.storePath ∉ x.parked) :
    Ends (takeManifest store m) x (fun hashes x' => Indexed [] x' ∧ Asks x x' hashes ∧
      ∀ q ∈ x'.chunks.recipes, q = m.storePath ∨ q ∈ x.chunks.recipes) fun e _ => e.isMild = true := by
  unfold takeManifest
  apply ends_get_bind
  split_ifs with hp ht
  rotate_left
  · exact ends_pure ⟨h, (Starts.refl x).asks, fun q hq => .inr hq⟩
  · exact ends_throw rfl
  split
  · exact ends_throw rfl
  rename_i info hinfo
  split_ifs
  · exact ends_throw rfl
  apply ends_set_bind
  refine Ends.bind (R := fun r x' => ∃ recipe c₁, Awaited x.chunks m.storePath recipe c₁ r.1 ∧
      x' = { x with
        infos := x.infos.insert m.storePath info
        chunks := { c₁ with recipes := c₁.recipes.insert m.storePath recipe } } ∧
      r.2 = decide (m.storePath ∉ c₁.remaining)) ?_ ?_
  · refine ends_onChunks (addRecipe_rule store m.storePath h.counted m.hashes m.sizes) ?_ ?_
    · rintro r c' ⟨recipe, c₁, -, haw, rfl, hr⟩
      exact ⟨recipe, c₁, haw, rfl, hr⟩
    · rintro e c' ⟨he, -⟩
      exact parseRecipe_isMild he
  rintro ⟨hashes, ready⟩ x₁ ⟨recipe, c₁, haw, hx₁, hready⟩
  have hrec : ∀ q, q ∈ c₁.recipes.insert m.storePath recipe ↔ q = m.storePath ∨ q ∈ x.chunks.recipes := by
    intro q
    rw [mem_insert, haw.recipes]
  have hindexed : Indexed (if m.storePath ∈ c₁.remaining then [] else [m.storePath]) x₁ := by
    rw [hx₁]
    refine h.await hp hn haw ?_ ?_ hrec fun q hq => (mem_insert _).mpr ?_
    · rfl
    · rfl
    · exact ((hrec q).mp hq).imp_right (h.infos q)
  have hasks : Asks x x₁ hashes := by
    rw [hx₁]
    exact ⟨rfl, rfl, haw.awaited, fun _ _ hl => hl⟩
  have hx₁rec : ∀ q ∈ x₁.chunks.recipes, q = m.storePath ∨ q ∈ x.chunks.recipes := by
    rw [hx₁]
    exact fun q hq => (hrec q).mp hq
  by_cases hc : m.storePath ∈ c₁.remaining
  · have hr : ready = false := by simpa [hc] using hready
    rw [if_pos hc] at hindexed
    simp only [hr, Bool.false_eq_true, if_false]
    exact ends_pure ⟨hindexed, hasks, hx₁rec⟩
  · have hr : ready = true := by simpa [hc] using hready
    rw [if_neg hc] at hindexed
    simp only [hr, if_true, ← startAll_singleton]
    refine (startAll_indexed hindexed).bind ?_
    rintro - x' ⟨hi, hs⟩
    refine ends_pure ⟨hi, hasks.starts hs, ?_⟩
    rw [hs.chunks]
    exact hx₁rec

theorem feedManifest_indexed {m : Manifest P H} (hn : m.storePath ∉ x.parked) :
    Ends (feedManifest store m) x (fun need x' => Indexed [] x' ∧ Requests 0 x x' need) fun e _ => e.isMild = true := by
  unfold feedManifest
  exact (takeManifest_indexed store h hn).bind fun hashes x' hx => hx.2.1.need_spec hx.1 [] _

theorem feedData_indexed (hash : H) : Ends (feedChunk store (.data hash)) x
      (fun need x' => Indexed [] x' ∧ need = none ∧ Requests 0 x x' none ∧ hash ∉ x'.chunks.waiters)
      fun e _ => e.isMild = true := by
  unfold feedChunk
  refine Ends.bind (R := fun ready x' => Indexed ready x' ∧ Asks x x' [] ∧ hash ∉ x'.chunks.waiters) ?_
    fun ready x' hx => ?_
  · refine ends_onChunks ((ingest_spec h.counted hash).and (ingest_waiters x.chunks hash)) ?_
      fun _ _ hf => hf.1.elim
    rintro ready c ⟨hc, hw⟩
    refine ⟨?_, ⟨rfl, rfl, fun hash' hm => ?_, fun _ _ hl => hl⟩, ?_⟩
    · refine h.release hc.counted hc.recipes hc.nodup (fun p => ?_) fun p hp => (hc.completed p hp).2
      by_cases hp : p ∈ ready
      · exact ⟨fun _ => .inl hp, fun _ => (hc.completed p hp).1⟩
      · rw [← hc.kept p hp]
        exact ⟨.inr, fun hor => hor.resolve_left hp⟩
    · rw [setChunks_chunks, hw] at hm
      exact .inl (mem_erase.mp hm).2
    · rw [setChunks_chunks, hw]
      exact fun hm => (mem_erase.mp hm).1 rfl
  · obtain ⟨hi, ha, hnot⟩ := hx
    refine (startAll_indexed hi).bind ?_
    rintro - y ⟨hi', hs⟩
    refine ends_pure ⟨hi', rfl, (ha.starts hs).none, ?_⟩
    rw [hs.chunks]
    exact hnot

theorem feedEof_indexed : Ends (feedChunk store .eof) x (fun _ x' => Indexed [] x') fun e _ => e.isCrash = false := by
  unfold feedChunk
  apply ends_get_bind
  split
  · exact ends_throw rfl
  rename_i n hn
  apply ends_set_bind
  have hx : Indexed [] { x with needsOutstanding := n } := h.congr rfl rfl rfl rfl rfl
  split_ifs
  · unfold requestStuck
    refine Ends.bind (R := fun r x' => Indexed r.2 x') ?_ fun r x₁ hx₁ => ?_
    · refine ends_onChunks (reawaitStuck_spec store fun p hp => (hx.remaining p hp).2) ?_
        fun _ _ hf => hf.elim
      intro r c hc
      exact hx.release hc.counted hc.recipes hc.nodup hc.split hc.apart
    refine Ends.bind (R := fun _ x' => Indexed r.2 x') ?_ fun _ x₂ hx₂ => ?_
    · unfold countRound
      split_ifs
      · exact ends_pure hx₁
      · apply ends_get_bind
        split_ifs
        · exact ends_throw rfl
        · exact ends_modify (hx₁.congr rfl rfl rfl rfl rfl)
    · refine ((startAll_indexed hx₂).mono (fun _ _ hx => hx) fun _ _ he => Error.isCrash_of_isMild he).bind ?_
      rintro - y ⟨hi, -⟩
      unfold need
      split_ifs
      · exact ends_pure hi
      · exact ends_modify_bind (ends_pure (hi.congr rfl rfl rfl rfl rfl))
  · exact ends_pure hx

omit h in
theorem feedEof_quiet (hq : x.needsOutstanding = 1 → x.chunks.remaining = ∅) : Ends (feedChunk store .eof) x
      (fun need x' => need = none ∧ ∃ n, x.needsOutstanding = n + 1 ∧ x' = { x with needsOutstanding := n })
      fun e _ => e.isMild = true := by
  unfold feedChunk
  apply ends_get_bind
  split
  · exact ends_throw rfl
  rename_i n hn
  apply ends_set_bind
  rw [if_neg]
  · exact ends_pure ⟨rfl, n, hn, rfl⟩
  · rintro ⟨rfl, hne⟩
    exact hne (keys_eq_nil.mpr (hq hn))

theorem feedTmpDir_indexed (eof : Bool) :
    Ends (feedTmpDir eof) x (fun need x' => Indexed [] x' ∧ Requests 0 x x' need) fun e _ => e.isMild = true := by
  unfold feedTmpDir
  apply ends_modify_bind
  exact ends_pure ⟨h.congr rfl rfl rfl rfl rfl, rfl, rfl, fun _ hm => .inl hm, fun _ _ hl => hl⟩

omit h in
theorem ActiveBuild.lookup_of_dropImport {q : P} {r : Option (ImportOutcome H)}
    (h : (x.dropImport p).imports.lookup q = some r) : x.imports.lookup q = some r := by
  rw [dropImport_imports, lookup_erase_eq] at h
  split_ifs at h
  exact h

theorem restage_indexed (hp : p ∈ x.imports) :
    Ends (restage store [p]) (x.dropImport p).nextRound (fun need x' => Indexed [] x' ∧ Requests 1 x x' need)
      fun e _ => e.isMild = true := by
  obtain ⟨hrec, hpend⟩ := h.imports p hp
  obtain ⟨recipe, hl⟩ := exists_lookup hrec
  have haw := awaited store p h.counted recipe
  have hnotparked : p ∉ x.parked := fun hm => hpend (h.complete p (mem_append_left _ hm)).1
  have hdrop : Indexed [] (x.dropImport p) :=
    ⟨h.counted, h.infos, fun q hq => h.imports q (mem_erase.mp hq).2, h.remaining, h.complete, h.taken⟩
  have hadd : Indexed [] ((x.dropImport p).addPending p) := hdrop.addPending fun hm => (mem_erase.mp hm).1 rfl
  unfold restage
  refine Ends.bind (R := fun acc x' => Indexed acc.2 x' ∧ Asks (x.dropImport p).nextRound x' acc.1) ?_
    fun acc x₁ hx₁ => ?_
  · rw [foldlM_cons]
    refine Ends.bind (R := fun acc x' => Indexed acc.2 x' ∧ Asks (x.dropImport p).nextRound x' acc.1) ?_
      fun acc x₁ hx₁ => ends_pure hx₁
    unfold restageOne
    apply ends_get_bind
    simp only [nextRound_chunks, dropImport_chunks, hl]
    generalize x.chunks.awaitMissing store p recipe = r at haw
    obtain ⟨c, hashes⟩ := r
    apply ends_set_bind
    have hset : Indexed (if p ∈ c.remaining then [] else [p])
        { (x.dropImport p).addPending p with infos := x.infos, chunks := c } := by
      refine hadd.await (Finset.mem_insert_self _ _) hnotparked haw ?_ ?_ (fun q => ?_) fun q hq => ?_
      · rfl
      · rfl
      · rw [haw.recipes]
        exact ⟨.inr, fun hq => hq.elim (fun heq => heq ▸ hrec) fun hq => hq⟩
      · exact h.infos q (haw.recipes ▸ hq)
    simp only [nil_append]
    exact ends_pure ⟨hset.congr rfl rfl rfl rfl rfl, rfl, rfl, haw.awaited, fun _ _ hl => hl⟩
  · refine (startAll_indexed hx₁.1).bind ?_
    rintro - y ⟨hi, hs⟩
    refine ((hx₁.2.starts hs).need_spec hi [] _).imp ?_
    rintro need z ⟨hz, hr⟩
    exact ⟨hz, hr.rounds, hr.outstanding, hr.waiting, fun q o hl => lookup_of_dropImport (hr.results q o hl)⟩

omit h

end Build

/-! ### The handlers that share the registry -/

section Worker

variable {x : ActiveBuild P H} {c : Claims B P} {p : P} {b : B} (store : Finset H)

theorem inputArrived_indexed (h : Indexed [] x) :
    Ends (do onBuild (do modify (·.addInput p); retryParked); pure none : WorkerM B P H (Option (Need P H)))
      ⟨x, c⟩ (fun need l => Indexed [] l.build ∧ Requests 0 x l.build need)
      fun e _ => e.isMild = true := by
  refine Ends.bind (R := fun _ l => Indexed [] l.build ∧ Requests 0 x l.build none) ?_ fun _ _ hl => ends_pure hl
  refine ends_onBuild (R := fun _ x' => Indexed [] x' ∧ Requests 0 x x' none) (F := fun e _ => e.isMild = true) ?_
    (fun _ _ hx => hx) fun _ _ he => he
  apply ends_modify_bind
  have hin : Indexed [] (x.addInput p) := h.congr rfl rfl rfl rfl rfl
  refine (retryParked_indexed hin).imp ?_
  rintro - x' ⟨hi, hs⟩
  have hasks := hs.asks
  exact ⟨hi, hasks.rounds, hasks.outstanding, hasks.waiting, hasks.results⟩

def ImportOutcome.failed : Option (ImportOutcome H) → Bool
  | some ⟨some _, _⟩ => true
  | some ⟨none, _⟩ | none => false

/-- `import_finished` returns the import's error: no chunk is to blame, or the rounds are used up. -/
def refuses (rounds : ℕ) : Option (ImportOutcome H) → Prop
  | some ⟨some _, bad⟩ => bad = [] ∨ maxResendRounds ≤ rounds
  | some ⟨none, _⟩ | none => False

theorem importFinished_indexed (h : Indexed [] x) (hp : p ∈ x.imports) (result : Option (ImportOutcome H)) :
    Ends (importFinished store p result) ⟨x.dropImport p, c⟩
      (fun need l => Indexed [] l.build ∧ Requests (ImportOutcome.failed result).toNat x l.build need)
      fun e _ => e.isMild = true ∨ e.isCrash = false ∧ refuses x.resendRounds result := by
  match result with
  | none => exact ends_throw (.inl rfl)
  | some ⟨some text, bad⟩ =>
    refine ends_onBuild (R := fun need x' => Indexed [] x' ∧ Requests 1 x x' need)
      (F := fun e _ => e.isMild = true ∨ e.isCrash = false ∧ refuses x.resendRounds (some ⟨some text, bad⟩)) ?_
      (fun _ _ hx => hx) fun _ _ he => he
    apply ends_get_bind
    split_ifs with hr
    · exact ends_throw (.inr ⟨rfl, hr⟩)
    · apply ends_set_bind
      exact (restage_indexed store h hp).mono (fun _ _ hx => hx) fun _ _ he => .inl he
  | some ⟨none, bad⟩ =>
    have hforget := h.forget hp
    have hsame : Requests 0 x ((x.dropImport p).forget p) none :=
      ⟨rfl, rfl, fun _ hm => .inl hm, fun _ _ hl => lookup_of_dropImport hl⟩
    refine Ends.bind (R := fun _ l => Indexed [] l.build ∧ Requests 0 x l.build none) ?_ fun _ l hl => ?_
    · exact ends_onBuild (ends_modify (E := fun _ _ => False)
        (Q := fun _ x' => Indexed [] x' ∧ Requests 0 x x' none) ⟨hforget, hsame⟩) (fun _ _ hx => hx)
        fun _ _ hf => hf.elim
    refine Ends.bind (R := fun _ l => Indexed [] l.build ∧ Requests 0 x l.build none) ?_ fun _ l hl => ?_
    · refine ends_modify ?_
      split_ifs
      · exact ⟨hl.1.congr rfl rfl rfl rfl rfl, hl.2.rounds, hl.2.outstanding, hl.2.waiting, hl.2.results⟩
      · exact hl
    · refine (inputArrived_indexed hl.1).mono ?_ fun _ _ he => .inl he
      rintro need l' ⟨hi, hr⟩
      exact ⟨hi, hl.2.trans hr⟩

theorem claim_indexed (h : Indexed [] x) (hp : p ∉ x.imports) (E : Error P → Local B P H → Prop) :
    Ends (claim b p) ⟨x, c⟩
      (fun _ l => Indexed [] l.build ∧ l.build.imports = x.imports ∧ l.build.chunks = x.chunks ∧ Asks x l.build []) E := by
  unfold claim
  apply ends_get_bind
  simp only
  split
  · apply ends_set_bind
    exact ends_pure ⟨(h.addPending hp).congr rfl rfl rfl rfl rfl, rfl, rfl, rfl, rfl, fun _ hm => .inl hm, fun _ _ hl => hl⟩
  · apply ends_set_bind
    exact ends_pure ⟨h.congr rfl rfl rfl rfl rfl, rfl, rfl, rfl, rfl, fun _ hm => .inl hm, fun _ _ hl => hl⟩

variable [DecidableEq B]

theorem claimSettled_indexed (h : Indexed [] x) (hp : p ∉ x.imports) (state : ClaimState) :
    Ends (claimSettled b p state) ⟨x, c⟩
      (fun need l => Indexed [] l.build ∧ Requests 0 x l.build need) fun e _ => e.isMild = true := by
  unfold claimSettled
  apply ends_modify_bind
  have hdrop : Indexed [] (x.dropWait p) := h.congr rfl rfl rfl rfl rfl
  split_ifs
  · refine (inputArrived_indexed hdrop).imp ?_
    rintro need l ⟨hi, hr⟩
    exact ⟨hi, hr.rounds, hr.outstanding, hr.waiting, hr.results⟩
  · refine (claim_indexed hdrop hp _).bind ?_
    rintro mine l ⟨hi, -, -, ha⟩
    have hasks : Asks x l.build [] := ⟨ha.rounds, ha.outstanding, ha.waiting, ha.results⟩
    cases mine with
    | false => exact ends_pure ⟨hi, hasks.none⟩
    | true => exact ends_onBuild (hasks.need_spec hi [p] _) (fun _ _ hx => hx) fun _ _ he => he

theorem woken_indexed (h : Indexed [] x) : Ends (woken store b p) ⟨x, c⟩
      (fun need l => Indexed [] l.build ∧
        Requests (ImportOutcome.failed (x.imports.lookup p).join).toNat x l.build need)
      fun e _ => e.isMild = true ∨ e.isCrash = false ∧ refuses x.resendRounds (x.imports.lookup p).join := by
  unfold woken
  apply ends_get_bind
  simp only
  split
  · rename_i result hl
    apply ends_set_bind
    rw [hl]
    exact importFinished_indexed store h (mem_of_lookup hl) result
  · rename_i hl
    rw [hl]
    split
    · exact ends_pure ⟨h, rfl, rfl, fun _ hm => .inl hm, fun _ _ hl => hl⟩
    · exact (claimSettled_indexed h (lookup_eq_none.mp hl) _).mono (fun _ _ hx => hx) fun _ _ he => .inl he

theorem indexed_new : Indexed [] (.new : ActiveBuild P H) where
  counted := counted_empty
  infos p hp := by cases hp
  imports p hp := by cases hp
  remaining p hp := by cases hp
  complete p hp := by cases hp
  taken := nodup_nil

theorem checkInputs_indexed (refs : P → List P) (pin : Pinning P) (valid : Finset P) (offered : List P)
    (E : Error P → Local B P H → Prop) : Ends (checkInputs b refs pin valid offered) ⟨.new, c⟩
      (fun _ l => Indexed [] l.build ∧ l.build.chunks = .empty ∧ Asks .new l.build []) E := by
  unfold checkInputs
  apply ends_modify_bind
  refine (ends_foldlM (I := fun _ _ l => Indexed [] l.build ∧ l.build.imports = ∅ ∧ l.build.chunks = .empty ∧
    Asks .new l.build []) ?_ ?_).imp fun _ _ hl => ⟨hl.1, hl.2.2⟩
  · rintro p rest missing ⟨x, c⟩ ⟨hi, himp, hch, hasks⟩
    unfold checkOne
    split_ifs
    · refine Ends.bind (R := fun _ l => Indexed [] l.build ∧ l.build.imports = ∅ ∧ l.build.chunks = .empty ∧
        Asks .new l.build []) ?_ fun _ _ hl => ends_pure hl
      exact ends_modify ⟨hi.congr rfl rfl rfl rfl rfl, himp, hch, hasks.rounds, hasks.outstanding, hasks.waiting,
        hasks.results⟩
    · refine (claim_indexed hi ?_ E).bind fun mine l hl => ?_
      · change x.imports = ∅ at himp
        rw [himp]
        exact notMem_empty p
      · obtain ⟨hl, himp', hch', hasks'⟩ := hl
        have hkept : Indexed [] l.build ∧ l.build.imports = ∅ ∧ l.build.chunks = .empty ∧ Asks .new l.build [] :=
          ⟨hl, himp'.trans himp, hch'.trans hch, hasks.trans hasks'⟩
        cases mine with
        | true => exact ends_pure hkept
        | false => exact ends_pure hkept
  · exact ⟨indexed_new.congr rfl rfl rfl rfl rfl, rfl, rfl, rfl, rfl, fun _ hm => .inl hm, fun _ _ hl => hl⟩

def inlinePaths (inputs : List (Manifest P H)) : List P := (inputs.filter (·.info.isSome)).map Manifest.storePath

theorem takeInlines_indexed {inputs : List (Manifest P H)} (hn : (inlinePaths inputs).Nodup) (h : Indexed [] x)
    (hch : x.chunks = .empty) :
    Ends (inputs.foldlM (takeInline store) []) x (fun hashes x' => Indexed [] x' ∧ Asks x x' hashes)
      fun e _ => e.isMild = true := by
  refine (ends_foldlM (I := fun rest hashes x' => Indexed [] x' ∧ Asks x x' hashes ∧ (inlinePaths rest).Nodup ∧
    ∀ q ∈ inlinePaths rest, q ∉ x'.chunks.recipes) ?_ ⟨h, (Starts.refl x).asks, hn, ?_⟩).imp
    fun _ _ hx => ⟨hx.1, hx.2.1⟩
  · rintro m rest hashes x' ⟨hi, hasks, hnodup, hfresh⟩
    unfold takeInline
    split_ifs with hinfo
    · have hcons : inlinePaths (m :: rest) = m.storePath :: inlinePaths rest := by simp [inlinePaths, hinfo]
      rw [hcons] at hnodup hfresh
      obtain ⟨hnot, hnodup⟩ := nodup_cons.mp hnodup
      have hpark : m.storePath ∉ x'.parked := fun hm =>
        hfresh _ mem_cons_self (hi.complete _ (mem_append_left _ hm)).2.1
      refine (takeManifest_indexed store hi hpark).bind ?_
      rintro hashes' y ⟨hy, hasks', hrec⟩
      refine ends_pure ⟨hy, hasks.trans hasks', hnodup, fun q hq hr => ?_⟩
      rcases hrec q hr with rfl | hr
      · exact hnot hq
      · exact hfresh q (mem_cons_of_mem _ hq) hr
    · have hcons : inlinePaths (m :: rest) = inlinePaths rest := by simp [inlinePaths, hinfo]
      rw [hcons] at hnodup hfresh
      exact ends_pure ⟨hi, hasks, hnodup, hfresh⟩
  · intro q _ hq
    rw [hch] at hq
    cases hq

theorem negotiate_indexed (refs : P → List P) (pin : Pinning P) (valid : Finset P) {inputs : List (Manifest P H)}
    (hn : (inlinePaths inputs).Nodup) : Ends (negotiate b refs pin valid store inputs) ⟨.new, c⟩
      (fun need l => Indexed [] l.build ∧ Requests 0 .new l.build need) fun e _ => e.isMild = true := by
  unfold negotiate
  refine (checkInputs_indexed refs pin valid _ _).bind ?_
  rintro missing ⟨x, c₁⟩ ⟨hi, hch, hasks⟩
  refine ends_onBuild (R := fun need x' => Indexed [] x' ∧ Requests 0 .new x' need) (F := fun e _ => e.isMild = true) ?_
    (fun _ _ hx => hx) fun _ _ he => he
  refine (takeInlines_indexed store hn hi hch).bind ?_
  rintro hashes x' ⟨hi', hasks'⟩
  have hall : Asks .new x' hashes := hasks.trans hasks'
  apply ends_modify_bind
  refine ends_pure ⟨hi'.congr rfl rfl rfl rfl rfl, hall.rounds, ?_, hall.waiting, hall.results⟩
  rw [ask_needsOutstanding, hall.outstanding]
  rfl

end Worker

end Tribuchet.Staging
