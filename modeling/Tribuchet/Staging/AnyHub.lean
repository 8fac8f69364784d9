import Tribuchet.Staging.Exchange
import Tribuchet.Staging.Indexed

/-! The worker under a hub that may send anything: any message for any build at any time, with
imports, claims and the chunk store going on around it. Its handlers do not panic, unless a
manifest comes for a path that is complete and parked. Such a manifest makes the path wait for
chunks, and yet it is imported as soon as its references are: the chunk then comes for a path
that has been forgotten. -/

namespace Tribuchet.Staging

open Hoare Runs Function

variable {B P H : Type} [DecidableEq B] [DecidableEq P] [DecidableEq H]

structure Exposed (B P H : Type) where
  worker : Worker B P H
  errors : List (Error P)

namespace Exposed

def answer (s : Exposed B P H) (r : Worker B P H × Option (WorkerMsg P H)) : Exposed B P H :=
  ⟨r.1, match r.2 with
    | some (.result e) => s.errors ++ [e]
    | some (.need _) | none => s.errors⟩

inductive Move (B P H : Type)
  | hub (b : B) (m : HubMsg P H) (refs : P → List P) (pin : Pinning P) (answer : Finset P)
  | wake
  | fire (i : ℕ)
  | importDone (b : B) (path : P) (outcome : ImportOutcome H)
  | launch (b : B)
  | fail (b : B) (text : String)
  | chunks (store : Finset H)

def step (s : Exposed B P H) : Move B P H → Option (Exposed B P H)
  | .hub b m refs pin answer => some (s.answer (s.worker.receive refs pin answer b m))
  | .wake =>
    match s.worker.wakes with
    | [] => none
    | (b, path) :: rest =>
      let w := { s.worker with wakes := rest }
      some (s.answer (w.handle b (woken w.store b path)))
  | .fire i => (s.worker.fire i).map fun w => { s with worker := w }
  -- the references are the hub's word: the daemon may take any path
  | .importDone b path outcome => (s.worker.importDone (fun _ => []) b path outcome).map fun w => { s with worker := w }
  | .launch b =>
    match s.worker.active b with
    | none => none
    | some x =>
      if x.tryComplete = .ready then
        some { s with worker := { s.worker with active := update s.worker.active b none } }
      else none
  | .fail b text => some (s.answer (s.worker.stop b (.setupFailed text)))
  | .chunks store => some { s with worker := { s.worker with store := store } }

def initial (store : Finset H) (valid : Finset P) : Exposed B P H := ⟨⟨fun _ => none, .empty, [], store, valid⟩, []⟩

end Exposed

def exposed (B P H : Type) [DecidableEq B] [DecidableEq P] [DecidableEq H] :
    System (Exposed B P H) (Exposed.Move B P H) where
  init s := ∃ store valid, s = Exposed.initial store valid
  step := Exposed.step

/-- The hub does not send a manifest for a path that is parked, nor two inline ones for a path. -/
def Exposed.sparesParked (s : Exposed B P H) : Exposed.Move B P H → Prop
  | .hub _ (.assignment inputs) .. => (inlinePaths inputs).Nodup
  | .hub b (.manifest m) .. => ∀ x ∈ s.worker.active b, m.storePath ∉ x.parked
  | _ => True

instance (s : Exposed B P H) (a : Exposed.Move B P H) : Decidable (s.sparesParked a) :=
  match a with
  | .hub _ (.assignment _) .. => inferInstanceAs (Decidable (List.Nodup _))
  | .hub b (.manifest m) .. => inferInstanceAs (Decidable (∀ x ∈ s.worker.active b, m.storePath ∉ x.parked))
  | .hub _ (.tmpDir _) .. | .hub _ (.chunk _) .. | .hub _ .cancel .. | .wake | .fire _ | .importDone .. | .launch _
  | .fail .. | .chunks _ => inferInstanceAs (Decidable True)

/-! ### No panic -/

def Worker.Indexed (w : Worker B P H) : Prop := ∀ b, ∀ x ∈ w.active b, Staging.Indexed [] x

structure Exposed.Safe (s : Exposed B P H) : Prop where
  indexed : s.worker.Indexed
  errors : ∀ e ∈ s.errors, e.isCrash = false

variable {w : Worker B P H}

variable {w' : Worker B P H}

variable {b : B}

theorem Worker.Indexed.update (h : w.Indexed) {x : Option (ActiveBuild P H)}
    (hx : ∀ y ∈ x, Staging.Indexed [] y) (ha : w'.active = update w.active b x) : w'.Indexed := by
  intro b' y hy
  rw [ha, update_apply] at hy
  split_ifs at hy
  · exact hx y hy
  · exact h b' y hy

theorem Worker.Indexed.set (h : w.Indexed) {x : ActiveBuild P H}
    (hx : Staging.Indexed [] x) (ha : w'.active = Function.update w.active b (some x)) : w'.Indexed := by
  refine h.update ?_ ha
  rintro y hy
  cases hy
  exact hx

theorem Worker.Indexed.remove (h : w.Indexed)
    (ha : w'.active = Function.update w.active b none) : w'.Indexed := by
  refine h.update ?_ ha
  rintro y hy
  cases hy

variable {s : Exposed B P H}

variable (h : s.Safe)

include h

theorem Exposed.Safe.handle (hw : w.Indexed) {m : WorkerM B P H (Option (Need P H))}
    (hm : ∀ x ∈ w.active b, Ends m ⟨x, w.claims⟩ (fun _ l => Staging.Indexed [] l.build) fun e _ => e.isCrash = false) :
    (s.answer (w.handle b m)).Safe := by
  unfold Worker.handle
  cases hx : w.active b with
  | none => exact ⟨hw, h.errors⟩
  | some x =>
    have hends := hm x hx
    unfold Ends at hends
    simp only
    split <;> rename_i he <;> rw [he] at hends
    · refine ⟨hw.set hends rfl, ?_⟩
      rename_i need l
      cases need <;> exact h.errors
    · refine ⟨hw.remove rfl, fun e' he' => ?_⟩
      rcases List.mem_append.mp he' with he' | he'
      · exact h.errors e' he'
      · rw [List.mem_singleton.mp he']
        exact hends

theorem Exposed.Safe.onBuild (hw : w.Indexed)
    {m : BuildM P H (Option (Need P H))} {R : ActiveBuild P H → Option (Need P H) → ActiveBuild P H → Prop}
    (hm : ∀ x ∈ w.active b, Ends m x (fun need x' => Staging.Indexed [] x' ∧ R x need x') fun e _ => e.isMild = true) :
    (s.answer (w.handle b (Staging.onBuild m))).Safe :=
  h.handle hw fun x hx => ends_onBuild (hm x hx) (fun _ _ hi => hi.1) fun _ _ he => Error.isCrash_of_isMild he

theorem Exposed.Safe.assign (b : B) : (s.worker.assign b).Indexed := by
  unfold Worker.assign
  cases hx : s.worker.active b with
  | none => exact h.indexed.set indexed_new rfl
  | some x =>
    have hdrop : (s.worker.drop b ⟨x, s.worker.claims⟩).Indexed := h.indexed.remove rfl
    exact hdrop.set indexed_new rfl

theorem Exposed.Safe.receive {m : HubMsg P H} {refs : P → List P}
    {pin : Pinning P} {answer : Finset P} (ho : s.sparesParked (.hub b m refs pin answer)) :
    (s.answer (s.worker.receive refs pin answer b m)).Safe := by
  match m with
  | .assignment inputs =>
    refine h.handle (h.assign b) fun x hx => ?_
    obtain rfl : x = .new := by
      simpa [Worker.assign, eq_comm] using hx
    exact (negotiate_indexed _ refs pin answer ho).mono (fun _ _ hl => hl.1) fun _ _ he => Error.isCrash_of_isMild he
  | .tmpDir eof =>
    exact h.onBuild h.indexed fun x hx => feedTmpDir_indexed (h.indexed b x hx) eof
  | .manifest m => exact h.onBuild h.indexed fun x hx => feedManifest_indexed _ (h.indexed b x hx) (ho x hx)
  | .chunk (.data hash) =>
    have hw : Worker.Indexed (if (s.worker.active b).isSome then { s.worker with store := insert hash s.worker.store }
        else s.worker) := by
      split_ifs
      · exact h.indexed
      · exact h.indexed
    exact h.onBuild hw fun x hx => feedData_indexed _ (hw b x hx) hash
  | .chunk .eof =>
    refine h.handle h.indexed fun x hx => ?_
    exact ends_onBuild (feedEof_indexed _ (h.indexed b x hx)) (fun _ _ hi => hi) fun _ _ he => he
  | .cancel => exact h.handle h.indexed fun x hx => ends_throw rfl

theorem Exposed.Safe.next {s' : Exposed B P H} {a : Exposed.Move B P H} (ho : s.sparesParked a)
    (hs : s.step a = some s') : s'.Safe := by
  cases a with
  | hub b m refs pin answer =>
    cases hs
    exact h.receive ho
  | wake =>
    simp only [Exposed.step] at hs
    split at hs
    · cases hs
    · rename_i b path rest hw
      cases hs
      have hrest : Worker.Indexed { s.worker with wakes := rest } := h.indexed
      refine h.handle hrest fun x hx => (woken_indexed _ (hrest b x hx)).mono (fun _ _ hl => hl.1) fun e _ he => ?_
      exact he.elim Error.isCrash_of_isMild And.left
  | fire i =>
    simp only [Exposed.step, Worker.fire, Option.map_eq_some_iff] at hs
    obtain ⟨w, hw, rfl⟩ := hs
    split at hw
    · cases hw
    · split_ifs at hw
      cases hw
      exact ⟨h.indexed, h.errors⟩
  | importDone b path outcome =>
    simp only [Exposed.step, Worker.importDone, Option.map_eq_some_iff] at hs
    obtain ⟨w, hw, rfl⟩ := hs
    split at hw
    · cases hw
    · rename_i x hx
      split at hw
      · rename_i hc
        cases hw
        have hmem : path ∈ x.imports := Table.mem_of_lookup hc.1
        exact ⟨h.indexed.set ((h.indexed b x hx).finish hmem (some outcome)) rfl, h.errors⟩
      · cases hw
  | launch b =>
    simp only [Exposed.step] at hs
    split at hs
    · cases hs
    · split_ifs at hs
      cases hs
      exact ⟨h.indexed.remove rfl, h.errors⟩
  | fail b text =>
    cases hs
    exact h.handle h.indexed fun x hx => ends_throw rfl
  | chunks store =>
    cases hs
    exact ⟨h.indexed, h.errors⟩

omit h

/-- The second path refers to the first, and is complete before it: a second manifest then names
a chunk that the store lacks. Another session stores that chunk before the import. -/
def lateManifest (again : Bool) : List (Exposed.Move Unit Bool Bool) :=
  let hub m := .hub () m (fun _ => []) ⟨none, none⟩ ∅
  [hub (.assignment [⟨false, none, [], []⟩, ⟨true, none, [], []⟩]),
    hub (.manifest ⟨true, some ⟨[false], 1⟩, [false], [1]⟩)] ++
    (if again then [hub (.manifest ⟨true, some ⟨[false], 1⟩, [false, true], [1, 1]⟩)] else []) ++
    [hub (.manifest ⟨false, some ⟨[], 1⟩, [false], [1]⟩), .chunks {false, true}, .importDone () false ⟨none, []⟩, .wake,
      .importDone () true ⟨none, []⟩, .wake, hub (.chunk (.data true)), hub (.chunk .eof)]

end Tribuchet.Staging
