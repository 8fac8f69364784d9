import Mathlib.Tactic.Linarith
import Mathlib.Tactic.Tauto
import Tribuchet.Staging.Build
import Tribuchet.Staging.ChunkAccount

/-! Starting imports. `Good` is what holds of a staging build whose hub is honest;
the list `hot` names complete paths that a handler has taken up and not yet started,
so it is empty between two handlers. -/

namespace Tribuchet.Staging

open Hoare List Table Finset ActiveBuild

variable {P H : Type} [DecidableEq P]

/-! ### What a handler leaves alone -/

/-- The build after a handler that touches neither its claims nor its inputs: pending
paths may have been handed to the pool. -/
structure Handled (x x' : ActiveBuild P H) : Prop where
  inputs : x'.inputs = x.inputs
  waits : x'.waits = x.waits
  claimed : x'.claimed = x.claimed
  roots : x'.roots = x.roots
  pending : x'.pending ⊆ x.pending
  imports : ∀ p, x'.imports.lookup p =
    if p ∈ x.pending ∧ p ∉ x'.pending then some none else x.imports.lookup p

theorem Handled.refl (x : ActiveBuild P H) : Handled x x :=
  ⟨rfl, rfl, rfl, rfl, Subset.refl _, by simp⟩

theorem Handled.trans {x y z : ActiveBuild P H} (h : Handled x y) (h' : Handled y z) : Handled x z where
  inputs := h'.inputs.trans h.inputs
  waits := h'.waits.trans h.waits
  claimed := h'.claimed.trans h.claimed
  roots := h'.roots.trans h.roots
  pending := h'.pending.trans h.pending
  imports p := by
    rw [h'.imports p, h.imports p]
    by_cases hz : p ∈ z.pending
    · have hy := h'.pending hz
      simp [hz, hy]
    · by_cases hy : p ∈ y.pending
      · simp [hy, hz, h.pending hy]
      · simp [hy, hz]

structure Starts (x x' : ActiveBuild P H) : Prop where
  handled : Handled x x'
  infos : x'.infos = x.infos
  tmpDirDone : x'.tmpDirDone = x.tmpDirDone
  resendRounds : x'.resendRounds = x.resendRounds
  needsOutstanding : x'.needsOutstanding = x.needsOutstanding
  chunks : x'.chunks = x.chunks

theorem Starts.refl (x : ActiveBuild P H) : Starts x x := ⟨.refl x, rfl, rfl, rfl, rfl, rfl⟩

theorem Starts.trans {x y z : ActiveBuild P H} (h : Starts x y) (h' : Starts y z) : Starts x z :=
  ⟨h.handled.trans h'.handled, h'.infos.trans h.infos, h'.tmpDirDone.trans h.tmpDirDone,
    h'.resendRounds.trans h.resendRounds, h'.needsOutstanding.trans h.needsOutstanding, h'.chunks.trans h.chunks⟩

theorem starts_park (x : ActiveBuild P H) (p : P) : Starts x (x.park p) :=
  ⟨⟨rfl, rfl, rfl, rfl, Subset.refl _, by simp [park]⟩, rfl, rfl, rfl, rfl, rfl⟩

theorem starts_unpark (x : ActiveBuild P H) : Starts x x.unpark :=
  ⟨⟨rfl, rfl, rfl, rfl, Subset.refl _, by simp [unpark]⟩, rfl, rfl, rfl, rfl, rfl⟩

theorem starts_dispatch {x : ActiveBuild P H} {p : P} (hp : p ∈ x.pending) : Starts x (x.dispatch p) := by
  refine ⟨⟨rfl, rfl, rfl, rfl, erase_subset _ _, fun q => ?_⟩, rfl, rfl, rfl, rfl, rfl⟩
  simp only [dispatch, lookup_insert_eq, mem_erase]
  by_cases hq : q = p
  · subst hq
    simp [hp]
  · simp [hq]

/-! ### The loop that starts imports -/

section Rule

variable {I : List P → ActiveBuild P H → Prop} {E : Error P → ActiveBuild P H → Prop} {x : ActiveBuild P H}

/-- The head of the queue can be parked, or dispatched when no reference holds it back. -/
def Startable (I : List P → ActiveBuild P H → Prop) (E : Error P → ActiveBuild P H → Prop) : Prop :=
  ∀ {path queue x}, I (path :: queue) x → Ends (unstagedRef path) x
    (fun r x' => x = x' ∧ match r with
      | some _ => I queue (x.park path)
      | none => Ends (dispatchImport path) x
          (fun _ x' => x' = x.dispatch path ∧ I (x.parked ++ queue) x'.unpark) E) E

/-- The rule for `start_chunk_import`: `I` relates the queue to the build. A park takes its path off
the queue; a dispatch takes its path off the queue and the parked paths together, so the fuel
suffices. -/
theorem startLoop_rule (hstep : Startable I E) {fuel : ℕ} {queue : List P} (h : I queue x)
    (hfuel : (queue.length + x.parked.length) * (queue.length + x.parked.length) + queue.length ≤ fuel) :
    Ends (startLoop fuel queue) x (fun _ x' => I [] x') E := by
  induction fuel generalizing queue x with
  | zero =>
    cases queue with
    | nil => exact ends_pure h
    | cons path queue => simp at hfuel
  | succ fuel ih =>
    cases queue with
    | nil => exact ends_pure h
    | cons path queue =>
      simp only [length_cons] at hfuel
      unfold startLoop
      refine (hstep h).bind ?_
      rintro r _ ⟨rfl, hr⟩
      cases r with
      | some r =>
        apply ends_modify_bind
        refine ih hr ?_
        have hlen : (List.insert path x.parked).length ≤ x.parked.length + 1 := by
          unfold List.insert
          split_ifs <;> simp
        have hsum : queue.length + (List.insert path x.parked).length ≤ queue.length + 1 + x.parked.length := by
          omega
        have := Nat.mul_le_mul hsum hsum
        change (queue.length + (List.insert path x.parked).length) *
          (queue.length + (List.insert path x.parked).length) + queue.length ≤ fuel
        omega
      | none =>
        refine Ends.bind hr ?_
        rintro - _ ⟨rfl, hnext⟩
        apply ends_get_bind
        apply ends_modify_bind
        refine ih hnext ?_
        simp only [length_append, unpark_parked, dispatch_parked, length_nil,
          add_zero]
        generalize x.parked.length = k at hfuel ⊢
        generalize queue.length = q at hfuel ⊢
        nlinarith

theorem startAll_rule (hstep : Startable I E) {paths : List P} (h : I paths x) : Ends (startAll paths) x (fun _ x' => I [] x') E := by
  unfold startAll
  refine ends_foldlM (I := fun rest (_ : Unit) x' => I rest x') ?_ h
  rintro path rest - x' h'
  unfold startChunkImport
  apply ends_get_bind
  apply ends_get_bind
  refine startLoop_rule (I := fun queue x' => I (queue ++ rest) x') ?_ h' ?_
  · intro path queue x hx
    simp only [append_assoc]
    exact hstep hx
  · simp only [length_singleton]
    nlinarith

theorem startAll_singleton (path : P) : startAll [path] = (startChunkImport path : BuildM P H Unit) := by
  simp [startAll]

end Rule

variable [DecidableEq H]

/-! ### The places of a path -/

/-- How many of `inputs`, `pending`, `imports` and `waits` a path is in. -/
def ActiveBuild.places (x : ActiveBuild P H) (p : P) : ℕ :=
  (if p ∈ x.inputs then 1 else 0) + (if p ∈ x.pending then 1 else 0) + (if p ∈ x.imports then 1 else 0) +
    if p ∈ x.waits then 1 else 0

def ActiveBuild.Complete (x : ActiveBuild P H) (p : P) : Prop :=
  p ∈ x.pending ∧ p ∈ x.chunks.recipes ∧ p ∉ x.chunks.remaining

structure Good (cat : Catalog P H) (offered hot : List P) (x : ActiveBuild P H) : Prop where
  placed : ∀ p, x.places p = if p ∈ offered then 1 else 0
  claimed : ∀ p, p ∈ x.claimed ↔ p ∈ x.pending ∨ p ∈ x.imports
  counted : x.chunks.Counted
  recipes : ∀ p r, x.chunks.recipes.lookup p = some r →
    r = cat.recipe p ∧ x.infos.lookup p = some (cat.info p) ∧ (p ∈ x.pending ∨ p ∈ x.imports)
  imports : ∀ p ∈ x.imports, p ∈ x.chunks.recipes ∧ ∀ r ∈ cat.refs p, r = p ∨ r ∈ x.inputs
  remaining : ∀ p ∈ x.chunks.remaining, p ∈ x.pending ∧ p ∈ x.chunks.recipes
  parked : ∀ p ∈ x.parked, x.Complete p ∧ ∃ r ∈ cat.refs p, r ≠ p ∧ r ∉ x.inputs
  ready : ∀ p ∈ hot, x.Complete p
  taken : (x.parked ++ hot).Nodup
  complete : ∀ p, x.Complete p → p ∈ x.parked ∨ p ∈ hot

section Places

variable {cat : Catalog P H} {offered hot : List P} {x : ActiveBuild P H} {p : P}

variable (h : Good cat offered hot x)

include h

theorem Good.mem_offered (hp : p ∈ x.inputs ∨ p ∈ x.pending ∨ p ∈ x.imports ∨ p ∈ x.waits) : p ∈ offered := by
  have hpl := h.placed p
  by_contra hn
  rw [if_neg hn] at hpl
  unfold places at hpl
  rcases hp with hp | hp | hp | hp <;> simp [hp] at hpl

theorem Good.placed_cases (hp : p ∈ offered) : p ∈ x.inputs ∨ p ∈ x.pending ∨ p ∈ x.imports ∨ p ∈ x.waits := by
  have hpl := h.placed p
  rw [if_pos hp] at hpl
  unfold places at hpl
  by_contra hn
  simp only [not_or] at hn
  simp [hn] at hpl

theorem Good.places_le (p : P) : x.places p ≤ 1 := by
  rw [h.placed p]
  split_ifs <;> omega

theorem Good.of_pending (hp : p ∈ x.pending) : p ∉ x.inputs ∧ p ∉ x.imports ∧ p ∉ x.waits := by
  have hpl := h.places_le p
  grind [places]

theorem Good.of_imports (hp : p ∈ x.imports) : p ∉ x.inputs ∧ p ∉ x.pending ∧ p ∉ x.waits := by
  have hpl := h.places_le p
  grind [places]

theorem Good.of_waits (hp : p ∈ x.waits) : p ∉ x.inputs ∧ p ∉ x.pending ∧ p ∉ x.imports := by
  have hpl := h.places_le p
  grind [places]

theorem Good.recipe_info (hp : p ∈ x.chunks.recipes) : x.infos.lookup p = some (cat.info p) := by
  obtain ⟨r, hr⟩ := exists_lookup hp
  exact (h.recipes p r hr).2.1

theorem Good.unpark : Good cat offered (x.parked ++ hot) x.unpark where
  placed := h.placed
  claimed := h.claimed
  counted := h.counted
  recipes := h.recipes
  imports := h.imports
  remaining := h.remaining
  parked := by simp
  ready p hm := by
    rcases mem_append.mp hm with hm | hm
    · exact (h.parked p hm).1
    · exact h.ready p hm
  taken := h.taken
  complete p hc := .inr (mem_append.mpr (h.complete p hc))

omit h

theorem Good.park (h : Good cat offered (p :: hot) x) {r : P} (hr : r ∈ cat.refs p) (hne : r ≠ p)
    (hin : r ∉ x.inputs) : Good cat offered hot (x.park p) := by
  have hperm : (x.parked ++ p :: hot).Perm (p :: x.parked ++ hot) := perm_middle
  have hnodup := hperm.nodup_iff.mp h.taken
  have hnot : p ∉ x.parked := by
    intro hm
    exact (nodup_cons.mp hnodup).1 (mem_append.mpr (.inl hm))
  unfold ActiveBuild.park
  rw [insert_of_not_mem hnot]
  refine ⟨h.placed, h.claimed, h.counted, h.recipes, h.imports, h.remaining, ?_, ?_, hnodup, ?_⟩
  · intro q hq
    rcases mem_cons.mp hq with rfl | hq
    · exact ⟨h.ready q mem_cons_self, r, hr, hne, hin⟩
    · exact h.parked q hq
  · intro q hq
    exact h.ready q (mem_cons_of_mem _ hq)
  · intro q hq
    rcases h.complete q hq with hq | hq
    · exact .inl (mem_cons_of_mem _ hq)
    · rcases mem_cons.mp hq with rfl | hq
      · exact .inl mem_cons_self
      · exact .inr hq

theorem Good.dispatch (h : Good cat offered (p :: hot) x) (hrefs : ∀ r ∈ cat.refs p, r = p ∨ r ∈ x.inputs) :
    Good cat offered hot (x.dispatch p) := by
  obtain ⟨hpend, hrec, hrem⟩ := h.ready p mem_cons_self
  obtain ⟨hin, himp, hwait⟩ := h.of_pending hpend
  have hperm : (x.parked ++ p :: hot).Perm (p :: (x.parked ++ hot)) := perm_middle
  obtain ⟨hnot, hnodup⟩ := nodup_cons.mp (hperm.nodup_iff.mp h.taken)
  have hkeep : ∀ q, x.Complete q → q ≠ p → (x.dispatch p).Complete q :=
    fun q hq hne => ⟨mem_erase.mpr ⟨hne, hq.1⟩, hq.2⟩
  refine ⟨?_, ?_, h.counted, ?_, ?_, ?_, ?_, ?_, hnodup, ?_⟩
  · intro q
    rw [← h.placed q]
    unfold places
    by_cases hq : q = p
    · subst hq
      simp [hpend, himp]
    · simp [hq]
  · intro q
    simp only [dispatch_claimed, h.claimed q]
    by_cases hq : q = p
    · subst hq
      simp [hpend]
    · simp [hq]
  · intro q r hr
    obtain ⟨h1, h2, h3⟩ := h.recipes q r hr
    refine ⟨h1, h2, ?_⟩
    by_cases hq : q = p
    · right
      simp [hq]
    · exact h3.imp (fun hm => mem_erase.mpr ⟨hq, hm⟩) fun hm => (AList.mem_insert _).mpr (.inr hm)
  · intro q hq
    rcases (AList.mem_insert _).mp hq with rfl | hq
    · exact ⟨hrec, hrefs⟩
    · exact h.imports q hq
  · intro q hq
    obtain ⟨h1, h2⟩ := h.remaining q hq
    refine ⟨mem_erase.mpr ⟨?_, h1⟩, h2⟩
    rintro rfl
    exact hrem hq
  · intro q hq
    obtain ⟨hc, hb⟩ := h.parked q hq
    refine ⟨hkeep q hc ?_, hb⟩
    rintro rfl
    exact hnot (mem_append.mpr (.inl hq))
  · intro q hq
    refine hkeep q (h.ready q (mem_cons_of_mem _ hq)) ?_
    rintro rfl
    exact hnot (mem_append.mpr (.inr hq))
  · intro q hq
    obtain ⟨hne, hq1⟩ := mem_erase.mp hq.1
    rcases h.complete q ⟨hq1, hq.2⟩ with hm | hm
    · exact .inl hm
    · exact .inr ((mem_cons.mp hm).resolve_left hne)

end Places

/-! ### Starting imports -/

section Start

variable {cat : Catalog P H} {offered : List P} (hclosed : ∀ p ∈ offered, ∀ r ∈ cat.refs p, r ∈ offered)
variable {hot : List P} {x : ActiveBuild P H} {p : P}

include hclosed in
theorem unstagedRef_spec (h : Good cat offered hot x) (hp : p ∈ x.chunks.recipes) :
    Ends (unstagedRef p) x (fun r x' => x = x' ∧ match r with
      | none => ∀ r ∈ cat.refs p, r = p ∨ r ∈ x.inputs
      | some r => r ∈ cat.refs p ∧ r ≠ p ∧ r ∉ x.inputs) fun _ _ => False := by
  have hin : p ∈ offered := by
    obtain ⟨r, hr⟩ := exists_lookup hp
    rcases (h.recipes p r hr).2.2 with hm | hm
    · exact h.mem_offered (.inr (.inl hm))
    · exact h.mem_offered (.inr (.inr (.inl hm)))
  unfold unstagedRef
  apply ends_get_bind
  rw [h.recipe_info hp]
  change Ends (match (cat.refs p).find? fun r => r ≠ p ∧ r ∉ x.inputs with
    | none => _
    | some r => _) x _ _
  cases hf : (cat.refs p).find? fun r => r ≠ p ∧ r ∉ x.inputs with
  | none =>
    apply ends_pure
    refine ⟨rfl, fun r hr => ?_⟩
    have := find?_eq_none.mp hf r hr
    simp only [decide_eq_true_eq, not_and, not_not] at this
    by_cases hrp : r = p
    · exact .inl hrp
    · exact .inr (this hrp)
  | some r =>
    have hmem := mem_of_find?_eq_some hf
    have hsat := find?_some hf
    simp only [decide_eq_true_eq] at hsat
    have hplace := h.placed_cases (hclosed p hin r hmem)
    have hcond : r ∈ x.pending ∨ r ∈ x.imports ∨ r ∈ x.waits := hplace.resolve_left hsat.2
    simp only [if_pos hcond]
    exact ends_pure ⟨rfl, hmem, hsat⟩

theorem dispatchImport_spec (h : Good cat offered hot x) (hp : x.Complete p) :
    Ends (dispatchImport p) x (fun _ x' => x' = x.dispatch p) fun _ _ => False := by
  obtain ⟨hpend, hrec, -⟩ := hp
  have hinfo : p ∈ x.infos := mem_of_lookup (h.recipe_info hrec)
  unfold dispatchImport
  apply ends_get_bind
  simp only [hrec, hpend, hinfo, not_true_eq_false, if_false]
  exact ends_set rfl

include hclosed in
theorem Good.start_spec {queue : List P} (h : Good cat offered (p :: queue) x) :
    Ends (unstagedRef p) x (fun r x' => x = x' ∧ match r with
      | some _ => Good cat offered queue (x.park p) ∧ Starts x (x.park p)
      | none => Ends (dispatchImport p) x
          (fun _ x' => x' = x.dispatch p ∧ Good cat offered (x.parked ++ queue) x'.unpark ∧ Starts x x'.unpark)
          fun _ _ => False) fun _ _ => False := by
  have hp : x.Complete p := h.ready p mem_cons_self
  refine (unstagedRef_spec hclosed h hp.2.1).imp ?_
  rintro r _ ⟨rfl, hr⟩
  refine ⟨rfl, ?_⟩
  cases r with
  | some r =>
    obtain ⟨hmem, hne, hin⟩ := hr
    exact ⟨Good.park h hmem hne hin, starts_park x p⟩
  | none =>
    refine (dispatchImport_spec h hp).imp ?_
    rintro - _ rfl
    exact ⟨rfl, (Good.dispatch h hr).unpark, (starts_dispatch hp.1).trans (starts_unpark _)⟩

include hclosed in
theorem startAll_spec {paths : List P} (h : Good cat offered (paths ++ hot) x) :
    Ends (startAll paths) x (fun _ x' => Good cat offered hot x' ∧ Starts x x') fun _ _ => False := by
  refine startAll_rule (I := fun queue x' => Good cat offered (queue ++ hot) x' ∧ Starts x x') ?_ ⟨h, .refl x⟩
  rintro path queue x' ⟨hg, hs⟩
  refine (Good.start_spec hclosed hg).imp ?_
  rintro r _ ⟨rfl, hr⟩
  refine ⟨rfl, ?_⟩
  cases r with
  | some r => exact ⟨hr.1, hs.trans hr.2⟩
  | none =>
    refine Ends.imp hr ?_
    rintro - _ ⟨rfl, hg', hs'⟩
    exact ⟨rfl, by rw [append_assoc]; exact hg', hs.trans hs'⟩

include hclosed in
theorem retryParked_spec (h : Good cat offered x.parked x.unpark) :
    Ends retryParked x (fun _ x' => Good cat offered [] x' ∧ Starts x x') fun _ _ => False := by
  unfold retryParked
  apply ends_get_bind
  apply ends_modify_bind
  have h' : Good cat offered (x.parked ++ []) x.unpark := by simpa using h
  refine (startAll_spec hclosed h').mono ?_ fun _ _ hf => hf
  rintro - x' ⟨hg, hs⟩
  exact ⟨hg, (starts_unpark x).trans hs⟩

end Start

end Tribuchet.Staging
