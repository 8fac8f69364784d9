import Tribuchet.Base.Runs
import Tribuchet.Staging.Indexed

/-! One build whose chunk store has one chunk that turns out corrupt or missing, once, under a
hub that answers every `Need` in full. Imports read the chunk one by one (`feed_import`): each
that finds it bad makes the store forget it and fails, and the build stages its path again. Every
such import takes one of the build's `MAX_RESEND_ROUNDS`, though the chunk is requested once. -/

set_option linter.unusedSectionVars false

namespace Tribuchet.Staging.BadChunk

open Hoare Runs List Option Table

variable {B P H : Type} [DecidableEq B] [DecidableEq P] [DecidableEq H]

inductive Finding
  | intact
  | bad
  | forgotten
  deriving DecidableEq

structure State (B P H : Type) where
  run : Local B P H
  store : Finset H
  struck : Bool
  corrupt : Bool
  findings : AList fun _ : P => Finding
  /-- the chunks still to come for each `Need` under way -/
  owed : List (Finset H)
  failed : ℕ
  broken : Bool
  ended : Option (Error P)

namespace State

def owedBy (need : Option (Need P H)) : List (Finset H) :=
  if askedHashes need = [] then [] else [(askedHashes need).toFinset]

/-- A handler of the build: its `Need` goes to the hub, its error ends the build. -/
def handle (s : State B P H) (m : WorkerM B P H (Option (Need P H))) : State B P H :=
  match exec m s.run with
  | (.ok need, l) => { s with run := l, owed := s.owed ++ owedBy need }
  | (.error e, l) => { s with run := l, ended := some e }

def lose (s : State B P H) (chunk : H) : State B P H := { s with store := s.store.erase chunk, corrupt := false }

def finish (s : State B P H) (path : P) (outcome : ImportOutcome H) : State B P H :=
  { s with
    run := { s.run with build := { s.run.build with imports := s.run.build.imports.insert path (some outcome) } }
    findings := s.findings.erase path }

def start (claims : Claims B P) (store : Finset H) (corrupt : Bool) : State B P H :=
  ⟨⟨.new, claims⟩, store, corrupt, corrupt, ∅, [], 0, false, none⟩

end State

inductive Action (B P H : Type)
  | manifest (path : P)
  /-- the next chunk of the `Need` being answered -/
  | chunk (hash : H)
  | eof
  | tmpDir (eof : Bool)
  | wake (path : P)
  | look (path : P)
  | forget (path : P)
  | importDone (path : P) (text : String)
  | importBroken (path : P) (text : String)
  | strike (lost : Bool)
  | forgetElsewhere
  | storeElsewhere (hash : H)
  | evict (hash : H)
  | settle (claims : Claims B P)

def act (cat : Catalog P H) (chunk : H) (b : B) (s : State B P H) : Action B P H → Option (State B P H)
  | .manifest path =>
    if path ∉ s.run.build.chunks.recipes then
      some (s.handle (onBuild (feedManifest s.store (cat.manifest path))))
    else none
  | .chunk hash =>
    match s.owed with
    | [] => none
    | needed :: rest =>
      if hash ∈ needed then
        let s := { s with store := insert hash s.store, owed := needed.erase hash :: rest }
        some (s.handle (onBuild (feedChunk s.store (.data hash))))
      else none
  | .eof =>
    match s.owed with
    | [] => none
    | needed :: rest =>
      if needed = ∅ then some ({ s with owed := rest }.handle (onBuild (feedChunk s.store .eof))) else none
  | .tmpDir eof => some (s.handle (onBuild (feedTmpDir eof)))
  | .wake path =>
    let result := (s.run.build.imports.lookup path).join
    some ({ s with failed := s.failed + (ImportOutcome.failed result).toNat }.handle (woken s.store b path))
  | .look path =>
    if s.run.build.imports.lookup path = some none ∧ chunk ∈ (cat.recipe path).hashes ∧ path ∉ s.findings then
      let finding := if chunk ∈ s.store ∧ s.corrupt = false then .intact else .bad
      some { s with findings := s.findings.insert path finding }
    else none
  | .forget path =>
    if s.findings.lookup path = some .bad then
      some { s.lose chunk with findings := s.findings.insert path .forgotten }
    else none
  | .importDone path text =>
    if s.run.build.imports.lookup path = some none then
      if chunk ∈ (cat.recipe path).hashes then
        match s.findings.lookup path with
        | some .intact => some (s.finish path ⟨none, []⟩)
        | some .forgotten => some (s.finish path ⟨some text, [chunk]⟩)
        | some .bad | none => none
      else some (s.finish path ⟨none, []⟩)
    else none
  | .importBroken path text =>
    if s.run.build.imports.lookup path = some none then
      some { s.finish path ⟨some text, []⟩ with broken := true }
    else none
  | .strike lost =>
    if s.struck then none
    else if lost then some { s.lose chunk with struck := true }
    else some { s with struck := true, corrupt := chunk ∈ s.store }
  | .forgetElsewhere => if s.struck then some (s.lose chunk) else none
  | .storeElsewhere hash => some { s with store := insert hash s.store }
  | .evict hash =>
    if ∀ entry ∈ s.run.build.chunks.recipes.entries, hash ∉ entry.2.hashes then
      some { s with store := s.store.erase hash, corrupt := s.corrupt && decide (hash ≠ chunk) }
    else none
  | .settle claims => some { s with run := { s.run with claims := claims } }

/-- A build from its assignment on, until a handler returns an error. The chunk may be corrupt
from the start. -/
def system (cat : Catalog P H) (chunk : H) (b : B) : System (State B P H) (Action B P H) where
  init s := ∃ claims store corrupt refs pin valid, ∃ offered inline : List P, offered.Nodup ∧
    (corrupt = true → chunk ∈ store) ∧
    s = (State.start claims store corrupt).handle (negotiate b refs pin valid store (offered.map (cat.offer inline)))
  step s a := if s.ended.isSome then none else act cat chunk b s a

/-! ### What is still owed -/

/-- A build that goes on: whatever it waits for is owed to it, every round was for a
failed import, and every failed import has a chunk to blame. -/
structure Owed (s : State B P H) : Prop where
  indexed : Indexed [] s.run.build
  rounds : s.run.build.resendRounds ≤ s.failed
  outstanding : s.run.build.needsOutstanding = s.owed.length
  waiting : ∀ hash ∈ s.run.build.chunks.waiters, ∃ needed ∈ s.owed, hash ∈ needed
  blamed : ∀ path text bad, s.run.build.imports.lookup path = some (some ⟨some text, bad⟩) → bad ≠ [] ∨ s.broken = true

structure Inv (s : State B P H) : Prop where
  going : s.ended = none → Owed s
  ended : ∀ e ∈ s.ended, e.isMild = true ∨ maxResendRounds < s.failed ∨ s.broken = true

variable {cat : Catalog P H} {chunk : H} {b : B} {s s' : State B P H}

theorem remaining_eq_empty {c : ChunkStaging P H} (h : c.Counted) (hnone : ∀ hash, hash ∉ c.waiters) :
    c.remaining = ∅ := by
  have hempty : c.waiters = ∅ := eq_empty_of_forall_notMem hnone
  refine eq_empty_of_forall_notMem fun path hm => ?_
  rw [h.mem_remaining, hempty] at hm
  exact lt_irrefl 0 hm

theorem owedBy_length (need : Option (Need P H)) :
    (State.owedBy need).length = if askedHashes need = [] then 0 else 1 := by
  unfold State.owedBy
  split_ifs <;> rfl

theorem exists_owedBy {need : Option (Need P H)} {hash : H} (h : hash ∈ askedHashes need) :
    ∃ needed ∈ State.owedBy need, hash ∈ needed := by
  unfold State.owedBy
  rw [if_neg (ne_nil_of_mem h)]
  exact ⟨_, mem_singleton_self _, mem_toFinset.mpr h⟩

/-- The rule for a handler that counts `rounds` and adds its requests to those of `x`: whatever
else it leaves awaited must be owed. -/
theorem inv_handle (x : ActiveBuild P H) (rounds : ℕ) {m : WorkerM B P H (Option (Need P H))}
    (hm : Ends m s.run (fun need l => Indexed [] l.build ∧ Requests rounds x l.build need ∧
        ∀ hash ∈ l.build.chunks.waiters, hash ∈ x.chunks.waiters → ∃ needed ∈ s.owed, hash ∈ needed)
      fun e _ => e.isMild = true ∨ maxResendRounds < s.failed ∨ s.broken = true)
    (hnone : s.ended = none) (hrounds : x.resendRounds + rounds ≤ s.failed)
    (hout : x.needsOutstanding = s.owed.length)
    (hblamed : ∀ path text bad, x.imports.lookup path = some (some ⟨some text, bad⟩) → bad ≠ [] ∨ s.broken = true) :
    Inv (s.handle m) := by
  unfold State.handle
  unfold Ends at hm
  split <;> rename_i he <;> rw [he] at hm
  · rename_i need l
    obtain ⟨hi, hr, hw⟩ := hm
    refine ⟨fun _ => ⟨hi, ?_, ?_, fun hash hmem => ?_, fun path text bad hl => ?_⟩, fun e he' => ?_⟩
    · change l.build.resendRounds ≤ s.failed
      rw [hr.rounds]
      exact hrounds
    · change l.build.needsOutstanding = (s.owed ++ State.owedBy need).length
      rw [hr.outstanding, hout, length_append, owedBy_length]
    · change ∃ needed ∈ s.owed ++ State.owedBy need, hash ∈ needed
      rcases hr.waiting hash hmem with hold | hnew
      · obtain ⟨needed, hn, hh⟩ := hw hash hmem hold
        exact ⟨needed, mem_append_left _ hn, hh⟩
      · obtain ⟨needed, hn, hh⟩ := exists_owedBy hnew
        exact ⟨needed, mem_append_right _ hn, hh⟩
    · exact hblamed path text bad (hr.results path _ hl)
    · change e ∈ s.ended at he'
      rw [hnone] at he'
      cases he'
  · refine ⟨fun hnot => ?_, fun e he' => ?_⟩
    · cases hnot
    · cases he'
      exact hm

variable (h : Owed s)

include h

theorem Owed.handle {rounds failed : ℕ} {m : WorkerM B P H (Option (Need P H))}
    (hm : Ends m s.run (fun need l => Indexed [] l.build ∧ Requests rounds s.run.build l.build need)
      fun e _ => e.isMild = true ∨ maxResendRounds < failed ∨ s.broken = true)
    (hnone : s.ended = none) (hf : s.failed + rounds ≤ failed) : Inv ({ s with failed := failed }.handle m) := by
  refine inv_handle (s := { s with failed := failed }) s.run.build rounds ?_ hnone ?_ h.outstanding h.blamed
  · refine hm.imp ?_
    rintro need l ⟨hi, hr⟩
    exact ⟨hi, hr, fun hash _ hold => h.waiting hash hold⟩
  · exact le_trans (Nat.add_le_add_right h.rounds rounds) hf

theorem Owed.onBuild {m : BuildM P H (Option (Need P H))}
    (hm : Ends m s.run.build (fun need x => Indexed [] x ∧ Requests 0 s.run.build x need) fun e _ => e.isMild = true)
    (hnone : s.ended = none) : Inv (s.handle (onBuild m)) :=
  h.handle (ends_onBuild hm (fun _ _ hx => hx) fun _ _ he => .inl he) hnone le_rfl

variable (hnone : s.ended = none)

include hnone

theorem Owed.manifest {path : P} (hp : path ∉ s.run.build.chunks.recipes) :
    Inv (s.handle (Staging.onBuild (feedManifest s.store (cat.manifest path)))) := by
  refine h.onBuild (feedManifest_indexed s.store h.indexed fun hpark => hp ?_) hnone
  exact (h.indexed.complete path (mem_append_left _ hpark)).2.1

theorem Owed.data {hash : H} {needed : Finset H} {rest : List (Finset H)}
    (ho : s.owed = needed :: rest) {store : Finset H} :
    Inv ({ s with store := store, owed := needed.erase hash :: rest }.handle
      (Staging.onBuild (feedChunk store (.data hash)))) := by
  refine inv_handle s.run.build 0 ?_ hnone h.rounds ?_ h.blamed
  · refine ends_onBuild (feedData_indexed store h.indexed hash) ?_ fun _ _ he => .inl he
    rintro need x ⟨hi, rfl, hr, hnot⟩
    refine ⟨hi, hr, fun hash' hm hold => ?_⟩
    have hne : hash' ≠ hash := by
      rintro rfl
      exact hnot hm
    obtain ⟨needed', hn, hh⟩ := h.waiting hash' hold
    rw [ho] at hn
    rcases mem_cons.mp hn with rfl | hn
    · exact ⟨_, mem_cons_self, Finset.mem_erase.mpr ⟨hne, hh⟩⟩
    · exact ⟨needed', mem_cons_of_mem _ hn, hh⟩
  · rw [h.outstanding, ho]
    rfl

theorem Owed.eof {rest : List (Finset H)} (ho : s.owed = ∅ :: rest) :
    Inv ({ s with owed := rest }.handle (Staging.onBuild (feedChunk s.store .eof))) := by
  have hwaiting : ∀ hash ∈ s.run.build.chunks.waiters, ∃ needed ∈ rest, hash ∈ needed := by
    intro hash hm
    obtain ⟨needed, hn, hh⟩ := h.waiting hash hm
    rw [ho] at hn
    rcases mem_cons.mp hn with rfl | hn
    · exact absurd hh (Finset.notMem_empty hash)
    · exact ⟨needed, hn, hh⟩
  have hlen : s.run.build.needsOutstanding = rest.length + 1 := by
    rw [h.outstanding, ho]
    rfl
  refine inv_handle { s.run.build with needsOutstanding := rest.length } 0 ?_ hnone h.rounds rfl h.blamed
  refine ends_onBuild (feedEof_quiet s.store fun hone => ?_) ?_ fun _ _ he => .inl he
  · refine remaining_eq_empty h.indexed.counted fun hash hm => ?_
    obtain ⟨needed, hn, -⟩ := hwaiting hash hm
    have hzero : rest.length = 0 := Nat.succ.inj (hlen.symm.trans hone)
    rw [length_eq_zero_iff.mp hzero] at hn
    cases hn
  · rintro need _ ⟨rfl, n, hn, rfl⟩
    obtain rfl : n = rest.length := Nat.succ.inj (hn.symm.trans hlen)
    exact ⟨h.indexed.congr rfl rfl rfl rfl rfl, ⟨rfl, rfl, fun _ hm => .inl hm, fun _ _ hl => hl⟩,
      fun hash hm _ => hwaiting hash hm⟩

theorem Owed.wake (b : B) (path : P) :
    Inv ({ s with failed := s.failed + (ImportOutcome.failed (s.run.build.imports.lookup path).join).toNat }.handle
      (woken s.store b path)) := by
  refine h.handle ((woken_indexed s.store h.indexed).mono (fun _ _ hl => hl) fun e _ he => ?_) hnone le_rfl
  refine he.imp_right ?_
  rintro ⟨-, hrefuse⟩
  cases hl : (s.run.build.imports.lookup path).join with
  | none =>
    rw [hl] at hrefuse
    exact hrefuse.elim
  | some outcome =>
    rw [hl] at hrefuse
    obtain ⟨error, bad⟩ := outcome
    cases error with
    | none => exact hrefuse.elim
    | some text =>
      rcases hrefuse with hbad | hrounds
      · exact .inr ((h.blamed path text bad (join_eq_some_iff.mp hl)).resolve_left fun hne => hne hbad)
      · have hr := h.rounds
        left
        simp only [ImportOutcome.failed, Bool.toNat_true]
        omega

omit hnone in
theorem Owed.finish {path : P} (hp : s.run.build.imports.lookup path = some none)
    {outcome : ImportOutcome H} {broken : Bool} (hb : s.broken = true → broken = true)
    (ho : outcome.error ≠ none → outcome.bad ≠ [] ∨ broken = true) :
    Owed { s.finish path outcome with broken := broken } := by
  have hmem : path ∈ s.run.build.imports := mem_of_lookup hp
  refine ⟨h.indexed.finish hmem (some outcome), h.rounds, h.outstanding, h.waiting, fun q text bad hl => ?_⟩
  change (s.run.build.imports.insert path (some outcome)).lookup q = some (some ⟨some text, bad⟩) at hl
  rw [lookup_insert_eq] at hl
  split_ifs at hl
  · cases hl
    exact ho (by simp)
  · exact (h.blamed q text bad hl).imp_right hb

omit hnone in
theorem Owed.congr (hx : s'.run.build = s.run.build) (hf : s'.failed = s.failed) (ho : s'.owed = s.owed)
    (hb : s'.broken = s.broken) : Owed s' := by
  refine ⟨?_, ?_, ?_, ?_, ?_⟩
  · rw [hx]
    exact h.indexed
  · rw [hx, hf]
    exact h.rounds
  · rw [hx, ho]
    exact h.outstanding
  · rw [hx, ho]
    exact h.waiting
  · rw [hx, hb]
    exact h.blamed

theorem Owed.inv : Inv s :=
  ⟨fun _ => h, fun e he => by rw [hnone] at he; cases he⟩

theorem Owed.aside (hx : s'.run.build = s.run.build) (hf : s'.failed = s.failed)
    (ho : s'.owed = s.owed) (hb : s'.broken = s.broken) (he : s'.ended = s.ended) : Inv s' :=
  (h.congr hx hf ho hb).inv (he.trans hnone)

theorem inv_act {a : Action B P H} (hs : act cat chunk b s a = some s') : Inv s' := by
  cases a with
  | manifest path =>
    simp only [act] at hs
    split_ifs at hs with hp
    cases hs
    exact h.manifest hnone hp
  | chunk hash =>
    simp only [act] at hs
    split at hs
    · cases hs
    · rename_i needed rest ho
      split_ifs at hs
      cases hs
      exact h.data hnone ho
  | eof =>
    simp only [act] at hs
    split at hs
    · cases hs
    · rename_i needed rest ho
      split_ifs at hs with hempty
      cases hs
      exact h.eof hnone (hempty ▸ ho)
  | tmpDir eof =>
    cases hs
    exact h.onBuild (feedTmpDir_indexed h.indexed eof) hnone
  | wake path =>
    cases hs
    exact h.wake hnone b path
  | look path =>
    simp only [act] at hs
    split at hs
    · cases hs
      exact h.aside hnone rfl rfl rfl rfl rfl
    · cases hs
  | importDone path text =>
    simp only [act] at hs
    split at hs
    · rename_i hp
      have hgood : Inv (s.finish path ⟨none, []⟩) := (h.finish hp (fun hb => hb) fun hne => absurd rfl hne).inv hnone
      split at hs
      · split at hs
        · cases hs
          exact hgood
        · cases hs
          exact (h.finish hp (fun hb => hb) fun _ => .inl (cons_ne_nil _ _)).inv hnone
        · cases hs
        · cases hs
      · cases hs
        exact hgood
    · cases hs
  | importBroken path text =>
    simp only [act] at hs
    split_ifs at hs with hp
    cases hs
    exact (h.finish hp (fun _ => rfl) fun _ => .inr rfl).inv hnone
  | strike lost =>
    simp only [act] at hs
    split_ifs at hs
    · cases hs
      exact h.aside hnone rfl rfl rfl rfl rfl
    · cases hs
      exact h.aside hnone rfl rfl rfl rfl rfl
  | forget path | forgetElsewhere | evict hash =>
    simp only [act] at hs
    split_ifs at hs
    cases hs
    exact h.aside hnone rfl rfl rfl rfl rfl
  | storeElsewhere hash | settle claims =>
    cases hs
    exact h.aside hnone rfl rfl rfl rfl rfl

omit hnone

omit h

theorem inlinePaths_offer (cat : Catalog P H) (inline offered : List P) :
    inlinePaths (offered.map (cat.offer inline)) = offered.filter (· ∈ inline) := by
  unfold inlinePaths
  induction offered with
  | nil => rfl
  | cons path offered ih =>
    by_cases hp : path ∈ inline
    · simpa [Catalog.offer, Catalog.manifest, hp] using ih
    · simpa [Catalog.offer, Catalog.manifest, hp] using ih

theorem inv_of_reachable (h : (system cat chunk b).Reachable s) : Inv s := by
  refine h.invariant ?_ ?_
  · rintro s ⟨claims, store, corrupt, refs, pin, valid, offered, inline, hn, -, rfl⟩
    have hinline : (inlinePaths (offered.map (cat.offer inline))).Nodup := by
      rw [inlinePaths_offer]
      exact hn.filter _
    refine inv_handle .new 0 ?_ rfl (Nat.le_refl 0) rfl fun _ _ _ hl => ?_
    · refine (negotiate_indexed store refs pin valid hinline).mono ?_ fun _ _ he => .inl he
      rintro need l ⟨hi, hr⟩
      exact ⟨hi, hr, nofun⟩
    · cases hl
  · intro s a s' hi hs
    simp only [system] at hs
    split_ifs at hs with hend
    have hnone : s.ended = none := not_isSome_iff_eq_none.mp hend
    exact inv_act (hi.going hnone) hnone hs

def shared : Catalog (Bool × Bool) Unit := ⟨fun _ => ⟨[], 1⟩, fun _ => [((), 1)]⟩

/-- A build is assigned some of these paths, with their manifests. The chunk is in the store. -/
def assigned (paths : List (Bool × Bool)) : State Unit (Bool × Bool) Unit :=
  (State.start .empty {()} false).handle
    (negotiate () (fun _ => []) ⟨none, none⟩ ∅ {()} (paths.map (shared.offer paths)))

/-- Their imports find the chunk corrupt, or already forgotten; then the build hears of the
first, asks for the chunk and gets it, and hears of the others. -/
def corruption (first : Bool × Bool) (others : List (Bool × Bool)) : List (Action Unit (Bool × Bool) Unit) :=
  [.strike false] ++ (first :: others).flatMap (fun p => [.look p, .forget p, .importDone p "corrupt"]) ++
    [.wake first, .chunk (), .eof] ++ others.map .wake

def recovery (paths : List (Bool × Bool)) : List (Action Unit (Bool × Bool) Unit) :=
  .tmpDir true :: paths.flatMap fun p => [.look p, .importDone p "", .wake p]

end Tribuchet.Staging.BadChunk
