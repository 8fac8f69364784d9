import Tribuchet.Staging.BuildRules

/-! The handlers for hub messages. Given an honest hub's manifest for a path that was
requested, or any chunk frame, a handler leaves the build `Good`, changes neither its
claims nor its inputs, counts the `Need` it returns, and fails only for reasons that are
no fault of the exchange. -/

namespace Tribuchet.Staging

open Hoare List Table AList ActiveBuild ChunkStaging
open Finset hiding mem_insert mem_singleton

variable {P H : Type} [DecidableEq P] [DecidableEq H]

/-- Errors an honest exchange can end in: an input beyond the limits, chunks that are
lost again and again, an import the daemon refuses, and what comes from outside. -/
def Excused : Error P → Prop
  | .narLimit _ | .oversizedRecipe _ | .chunksKeepMissing | .importFailed _ | .cancelled | .setupFailed _ => True
  | _ => False

/-- Whether a `Need` carries hashes. -/
def asked : Option (Need P H) → ℕ
  | none => 0
  | some n => if n.hashes = [] then 0 else 1

/-- The paths a `Need` names. -/
def askedPaths : Option (Need P H) → List P
  | none => []
  | some n => n.paths

def askedHashes : Option (Need P H) → List H
  | none => []
  | some n => n.hashes

/-- Some path waits on chunks only while a `Need` is outstanding. -/
def ActiveBuild.Expecting (x : ActiveBuild P H) : Prop :=
  (∃ p, p ∈ x.chunks.remaining) → 0 < x.needsOutstanding

omit [DecidableEq H] in
theorem ActiveBuild.tryComplete_ready {x : ActiveBuild P H} :
    x.tryComplete = .ready ↔ x.tmpDirDone = true ∧ x.pending = ∅ ∧ x.imports = ∅ ∧ x.waits = ∅ := by
  unfold tryComplete
  simp only [ne_eq, keys_eq_nil]
  by_cases h : x.tmpDirDone = true ∧ x.pending = ∅ ∧ x.imports = ∅ ∧ x.waits = ∅
  · simp [h]
  · simp only [h, iff_false]
    split_ifs with hn
    · simp
    · exfalso
      apply h
      simpa [keys_eq_nil] using hn

section Good

variable {cat : Catalog P H} {offered hot : List P} {x : ActiveBuild P H}

/-- The two counters and the flag of the temporary directory play no part. -/
theorem Good.setAside (h : Good cat offered hot x) (n rounds : ℕ) (done : Bool) :
    Good cat offered hot { x with needsOutstanding := n, resendRounds := rounds, tmpDirDone := done } :=
  ⟨h.placed, h.claimed, h.counted, h.recipes, h.imports, h.remaining, h.parked, h.ready, h.taken, h.complete⟩

variable {c : ChunkStaging P H}

/-- One path waits for chunks or is complete at once; the others are as before. -/
theorem Good.await (h : Good cat offered [] x) {x' : ActiveBuild P H} {p : P}
    (hback : ∀ q, q ≠ p → (x'.Complete q ↔ x.Complete q)) (hn : p ∉ x.parked) (hpark : x'.parked = x.parked) (hin : x'.inputs = x.inputs)
    (hp : x'.Complete p ↔ p ∉ c.remaining) {hot : List P} (hhot : hot = if p ∈ c.remaining then [] else [p]) :
    (∀ q ∈ x'.parked, x'.Complete q ∧ ∃ r ∈ cat.refs q, r ≠ q ∧ r ∉ x'.inputs) ∧ (∀ q ∈ hot, x'.Complete q) ∧
      (x'.parked ++ hot).Nodup ∧ ∀ q, x'.Complete q → q ∈ x'.parked ∨ q ∈ hot := by
  have hnodup : x.parked.Nodup := by simpa using h.taken
  have hmem : ∀ q, q ∈ hot ↔ q = p ∧ p ∉ c.remaining := by
    intro q
    rw [hhot]
    split_ifs with hr <;> simp [hr]
  rw [hpark, hin]
  refine ⟨fun q hq => ?_, fun q hq => ?_, ?_, fun q hq => ?_⟩
  · obtain ⟨hc, hb⟩ := h.parked q hq
    exact ⟨(hback q fun heq => hn (heq ▸ hq)).mpr hc, hb⟩
  · obtain ⟨rfl, hr⟩ := (hmem q).mp hq
    exact hp.mpr hr
  · refine nodup_append.mpr ⟨hnodup, by rw [hhot]; split_ifs <;> simp, ?_⟩
    rintro a ha b hb rfl
    exact hn (((hmem a).mp hb).1 ▸ ha)
  · by_cases hqp : q = p
    · exact .inr ((hmem q).mpr ⟨hqp, hp.mp (hqp ▸ hq)⟩)
    · exact .inl ((h.complete q ((hback q hqp).mp hq)).resolve_right (by simp))

theorem Good.addRecipe (h : Good cat offered [] x) {p : P} (hp : p ∈ x.pending) (hn : p ∉ x.chunks.recipes) {need : List H} (haw : Awaited x.chunks p (cat.recipe p) c need) :
    Good cat offered (if p ∈ c.remaining then [] else [p])
      { x with
        infos := x.infos.insert p (cat.info p)
        chunks := { c with recipes := c.recipes.insert p (cat.recipe p) } } := by
  have hmem : ∀ q, q ∈ c.recipes.insert p (cat.recipe p) ↔ q = p ∨ q ∈ x.chunks.recipes := by
    intro q
    rw [mem_insert, haw.recipes]
  have hnotparked : p ∉ x.parked := fun hm => hn (h.parked p hm).1.2.1
  have hback : ∀ q, q ≠ p → (Complete { x with
      infos := x.infos.insert p (cat.info p)
      chunks := { c with recipes := c.recipes.insert p (cat.recipe p) } } q ↔ x.Complete q) := by
    intro q hq
    simp only [Complete, hmem, haw.mem_remaining hq, hq, false_or]
  obtain ⟨hparked, hready, htaken, hcomplete⟩ := h.await (c := c) hback hnotparked rfl rfl (by simp [Complete, hp]) rfl
  refine ⟨h.placed, h.claimed, ⟨haw.counted.waiters, haw.counted.remaining⟩, ?_, ?_, ?_, hparked, hready, htaken, hcomplete⟩
  · intro q r hr
    simp only [lookup_insert_eq] at hr ⊢
    by_cases hq : q = p
    · subst hq
      simp only [if_true, Option.some.injEq] at hr ⊢
      exact ⟨hr.symm, trivial, .inl hp⟩
    · simp only [if_neg hq, haw.recipes] at hr ⊢
      exact h.recipes q r hr
  · intro q hq
    exact ⟨(hmem q).mpr (.inr (h.imports q hq).1), (h.imports q hq).2⟩
  · intro q hq
    by_cases hqp : q = p
    · subst hqp
      exact ⟨hp, (hmem q).mpr (.inl rfl)⟩
    · obtain ⟨h1, h2⟩ := h.remaining q ((haw.mem_remaining hqp).mp hq)
      exact ⟨h1, (hmem q).mpr (.inr h2)⟩

/-- Chunks arrived or were looked for again: the bookkeeping lets go of the paths in
`done` and of no other. -/
theorem Good.release (h : Good cat offered [] x) {done : List P} (hc : c.Counted)
    (hr : c.recipes = x.chunks.recipes) (hd : done.Nodup)
    (hs : ∀ p, p ∈ x.chunks.remaining ↔ p ∈ done ∨ p ∈ c.remaining) (ha : ∀ p ∈ done, p ∉ c.remaining) :
    Good cat offered done (x.setChunks c) := by
  have hcomplete : ∀ p, (x.setChunks c).Complete p ↔ x.Complete p ∨ p ∈ done := by
    intro p
    simp only [Complete, setChunks_pending, setChunks_chunks, hr]
    constructor
    · rintro ⟨h1, h2, h3⟩
      by_cases hp : p ∈ done
      · exact .inr hp
      · exact .inl ⟨h1, h2, fun hm => ((hs p).mp hm).elim hp h3⟩
    · rintro (⟨h1, h2, h3⟩ | hp)
      · exact ⟨h1, h2, fun hm => h3 ((hs p).mpr (.inr hm))⟩
      · obtain ⟨h1, h2⟩ := h.remaining p ((hs p).mpr (.inl hp))
        exact ⟨h1, h2, ha p hp⟩
  refine ⟨h.placed, h.claimed, hc, ?_, ?_, ?_, ?_, ?_, ?_, ?_⟩
  · intro p r hl
    exact h.recipes p r (hr ▸ hl)
  · intro p hp
    exact hr ▸ h.imports p hp
  · intro p hp
    exact hr ▸ h.remaining p ((hs p).mpr (.inr hp))
  · intro p hp
    obtain ⟨h1, h2⟩ := h.parked p hp
    exact ⟨(hcomplete p).mpr (.inl h1), h2⟩
  · intro p hp
    exact (hcomplete p).mpr (.inr hp)
  · refine nodup_append.mpr ⟨by simpa using h.taken, hd, ?_⟩
    rintro a hpark b hdone rfl
    exact (h.parked a hpark).1.2.2 ((hs a).mpr (.inl hdone))
  · intro p hp
    refine ((hcomplete p).mp hp).imp_left fun h1 => ?_
    exact (h.complete p h1).resolve_right (by simp)

theorem Good.restage (h : Good cat offered [] x) {p : P} (hp : p ∈ x.imports)
    {need : List H} (haw : Awaited x.chunks p (cat.recipe p) c need) :
    Good cat offered (if p ∈ c.remaining then [] else [p]) (((x.dropImport p).setChunks c).addPending p) := by
  obtain ⟨hin, hpend, hwait⟩ := h.of_imports hp
  have hrec := (h.imports p hp).1
  have hnotparked : p ∉ x.parked := fun hm => hpend (h.parked p hm).1.1
  have hback : ∀ q, q ≠ p → ((((x.dropImport p).setChunks c).addPending p).Complete q ↔ x.Complete q) := by
    intro q hq
    simp [Complete, haw.recipes, haw.mem_remaining hq, hq]
  obtain ⟨hparked, hready, htaken, hcomplete⟩ :=
    h.await (c := c) hback hnotparked rfl rfl (by simp [Complete, haw.recipes, hrec]) rfl
  refine ⟨?_, ?_, haw.counted, ?_, ?_, ?_, hparked, hready, htaken, hcomplete⟩
  · intro q
    rw [← h.placed q]
    unfold places
    by_cases hq : q = p
    · subst hq
      simp [hp, hpend]
    · simp [hq]
  · intro q
    simp only [addPending_claimed, setChunks_claimed, dropImport_claimed,
      h.claimed q]
    by_cases hq : q = p
    · subst hq
      simp [hp]
    · simp [hq]
  · intro q r hr
    have hr' : x.chunks.recipes.lookup q = some r := haw.recipes ▸ hr
    obtain ⟨h1, h2, h3⟩ := h.recipes q r hr'
    refine ⟨h1, h2, ?_⟩
    by_cases hq : q = p
    · simp [hq]
    · simpa [hq] using h3
  · intro q hq
    obtain ⟨-, hq⟩ := mem_erase.mp hq
    exact haw.recipes ▸ h.imports q hq
  · intro q hq
    by_cases hqp : q = p
    · subst hqp
      exact ⟨mem_insert_self _ _, haw.recipes ▸ hrec⟩
    · obtain ⟨h1, h2⟩ := h.remaining q ((haw.mem_remaining hqp).mp hq)
      exact ⟨mem_insert_of_mem h1, haw.recipes ▸ h2⟩

end Good

/-! ### Manifests -/

section Manifest

variable {cat : Catalog P H} {offered : List P} (hclosed : ∀ p ∈ offered, ∀ r ∈ cat.refs p, r ∈ offered)
variable {x : ActiveBuild P H} {p : P} (store : Finset H)

omit [DecidableEq P] [DecidableEq H] in
theorem ends_onChunks {α : Type} {m : ChunkM P H α} {R : α → ChunkStaging P H → Prop}
    {F : Error P → ChunkStaging P H → Prop} {Q : α → ActiveBuild P H → Prop} {E : Error P → ActiveBuild P H → Prop}
    (h : Ends m x.chunks R F) (hQ : ∀ a c, R a c → Q a (x.setChunks c)) (hE : ∀ e c, F e c → E e (x.setChunks c)) :
    Ends (onChunks m) x Q E :=
  h.zoom hQ hE

/-- A build that took manifests: those of the paths `new`, with the hashes to request. -/
structure Taken (cat : Catalog P H) (offered new : List P) (x x' : ActiveBuild P H) (hashes : List H) : Prop where
  good : Good cat offered [] x'
  handled : Handled x x'
  outstanding : x'.needsOutstanding = x.needsOutstanding
  recipes : ∀ p, p ∈ x'.chunks.recipes ↔ p ∈ x.chunks.recipes ∨ p ∈ new
  requested : ∀ hash ∈ hashes, ∃ p ∈ x'.chunks.recipes, hash ∈ (cat.recipe p).hashes
  covered : (∃ p, p ∈ x'.chunks.remaining) → hashes ≠ [] ∨ ∃ p, p ∈ x.chunks.remaining

include hclosed in
theorem takeManifest_spec (h : Good cat offered [] x) (hp : p ∈ x.pending) (hn : p ∉ x.chunks.recipes) :
    Ends (takeManifest store (cat.manifest p)) x (fun hashes x' => Taken cat offered [p] x x' hashes)
      fun e x' => Excused e ∧ x'.claimed = x.claimed := by
  unfold takeManifest
  apply ends_get_bind
  simp only [Catalog.manifest, hp, not_true_eq_false, if_false]
  split_ifs with hlim
  · exact ends_throw ⟨trivial, rfl⟩
  apply ends_set_bind
  refine Ends.bind (R := fun r x' => ∃ c₁, Awaited x.chunks p (cat.recipe p) c₁ r.1 ∧
      x' = { x with
        infos := x.infos.insert p (cat.info p)
        chunks := { c₁ with recipes := c₁.recipes.insert p (cat.recipe p) } } ∧
      r.2 = decide (p ∉ c₁.remaining)) ?_ ?_
  · refine ends_onChunks (addRecipe_spec store p h.counted (cat.recipe p)) ?_ ?_
    · rintro r c' ⟨c₁, haw, rfl, hr⟩
      exact ⟨c₁, haw, rfl, hr⟩
    · rintro e c' ⟨rfl, -⟩
      exact ⟨trivial, rfl⟩
  rintro ⟨hashes, ready⟩ x₁ ⟨c₁, haw, hx₁, hready⟩
  have hgood := h.addRecipe hp hn haw
  rw [← hx₁] at hgood
  have hrem : x₁.chunks.remaining = c₁.remaining := by rw [hx₁]
  have hrecipes : ∀ q, q ∈ x₁.chunks.recipes ↔ q ∈ x.chunks.recipes ∨ q ∈ [p] := by
    intro q
    rw [hx₁, mem_singleton]
    simp only [mem_insert, haw.recipes]
    exact or_comm
  have hhandled : Handled x x₁ := by
    rw [hx₁]
    exact ⟨rfl, rfl, rfl, rfl, Subset.refl _, by simp⟩
  have hdone : ∀ x', Good cat offered [] x' → Starts x₁ x' → Taken cat offered [p] x x' hashes := by
    intro x' hg hs
    refine ⟨hg, hhandled.trans hs.handled, ?_, ?_, ?_, ?_⟩
    · rw [hs.needsOutstanding, hx₁]
    · rw [hs.chunks]
      exact hrecipes
    · intro hash hh
      rw [hs.chunks]
      exact ⟨p, (hrecipes p).mpr (.inr (by simp)), haw.requested hash hh⟩
    · rw [hs.chunks, hrem]
      rintro ⟨q, hq⟩
      by_cases hqp : q = p
      · exact haw.covered (hqp ▸ hq)
      · refine .inr ⟨q, ?_⟩
        rw [← lookup_isSome] at hq ⊢
        rw [← haw.others q hqp]
        exact hq
  by_cases hc : p ∈ c₁.remaining
  · have hr : ready = false := by simpa [hc] using hready
    rw [if_pos hc] at hgood
    simp only [hr, Bool.false_eq_true, if_false]
    exact ends_pure (hdone x₁ hgood (.refl x₁))
  · have hr : ready = true := by simpa [hc] using hready
    rw [if_neg hc] at hgood
    simp only [hr, if_true]
    rw [← startAll_singleton]
    refine Ends.bind ((startAll_spec hclosed hgood).mono (fun _ _ h => h) fun _ _ hf => hf.elim) ?_
    rintro - x' ⟨hg, hs⟩
    exact ends_pure (hdone x' hg hs)

theorem takeManifest_tolerated (hp : p ∉ x.pending) (ht : x.tolerated p) (E : Error P → ActiveBuild P H → Prop) :
    Ends (takeManifest store (cat.manifest p)) x (fun hashes x' => hashes = [] ∧ x' = x) E := by
  unfold takeManifest
  apply ends_get_bind
  rw [if_pos (show (cat.manifest p).storePath ∉ x.pending from hp),
    if_pos (show x.tolerated (cat.manifest p).storePath from ht)]
  exact ends_pure ⟨rfl, rfl⟩

end Manifest

/-! ### Answers to hub messages -/

/-- A build that handled a hub message and returned a `Need`; `new` are the paths whose
manifest it took. -/
structure Responds (cat : Catalog P H) (offered new : List P) (x x' : ActiveBuild P H) (need : Option (Need P H)) :
    Prop where
  good : Good cat offered [] x'
  handled : Handled x x'
  counted : x'.needsOutstanding = x.needsOutstanding + asked need
  recipes : ∀ p, p ∈ x'.chunks.recipes ↔ p ∈ x.chunks.recipes ∨ p ∈ new
  paths : askedPaths need = []
  requested : ∀ hash ∈ askedHashes need, ∃ p ∈ x'.chunks.recipes, hash ∈ (cat.recipe p).hashes
  expecting : x'.Expecting

section Answers

variable {cat : Catalog P H} {offered : List P} (hclosed : ∀ p ∈ offered, ∀ r ∈ cat.refs p, r ∈ offered)
variable {x : ActiveBuild P H} {p : P} (store : Finset H)

omit [DecidableEq P] [DecidableEq H] in
theorem need_spec (hashes : List H) (E : Error P → ActiveBuild P H → Prop) :
    Ends (need [] hashes) x (fun n x' => x' = x.ask hashes ∧ askedPaths n = [] ∧ askedHashes n = hashes ∧
      asked n = if hashes = [] then 0 else 1) E := by
  unfold need
  by_cases hh : hashes = []
  · subst hh
    simp only [and_self, if_true]
    exact ends_pure ⟨rfl, rfl, rfl, rfl⟩
  · simp only [hh, and_false, if_false]
    apply ends_modify_bind
    exact ends_pure ⟨rfl, rfl, rfl, by simp [asked, hh]⟩

theorem Taken.responds {new : List P} {x' : ActiveBuild P H} {hashes : List H} (h : Taken cat offered new x x' hashes)
    (he : x.Expecting) {n : Option (Need P H)} (hp : askedPaths n = []) (hh : askedHashes n = hashes)
    (hn : asked n = if hashes = [] then 0 else 1) : Responds cat offered new x (x'.ask hashes) n := by
  refine ⟨h.good.setAside .., ⟨h.handled.inputs, h.handled.waits, h.handled.claimed, h.handled.roots,
    h.handled.pending, h.handled.imports⟩, ?_, h.recipes, hp, ?_, ?_⟩
  · rw [ask_needsOutstanding, h.outstanding, hn]
  · rw [hh]
    exact h.requested
  · intro hrem
    rw [ask_needsOutstanding, h.outstanding]
    rcases h.covered hrem with hne | hold
    · rw [if_neg hne]
      omega
    · have := he hold
      omega

variable (h : Good cat offered [] x)

include h

include hclosed in
theorem feedManifest_spec (he : x.Expecting) (hp : p ∈ x.pending) (hn : p ∉ x.chunks.recipes) :
    Ends (feedManifest store (cat.manifest p)) x (fun n x' => Responds cat offered [p] x x' n)
      fun e x' => Excused e ∧ x'.claimed = x.claimed := by
  unfold feedManifest
  refine (takeManifest_spec hclosed store h hp hn).bind ?_
  intro hashes x₁ ht
  refine (need_spec hashes _).mono ?_ fun _ _ hf => hf
  rintro n x' ⟨rfl, hpaths, hhashes, hcount⟩
  exact ht.responds he hpaths hhashes hcount

omit h in
include hclosed in
theorem startAndAsk_spec {x₁ : ActiveBuild P H} {ready : List P} {hashes : List H} {new : List P}
    (hg : Good cat offered ready x₁) (hh : Handled x x₁) (ho : x₁.needsOutstanding = x.needsOutstanding)
    (hr : ∀ p, p ∈ x₁.chunks.recipes ↔ p ∈ x.chunks.recipes ∨ p ∈ new)
    (hreq : ∀ hash ∈ hashes, ∃ p ∈ x₁.chunks.recipes, hash ∈ (cat.recipe p).hashes)
    (hcov : (∃ p, p ∈ x₁.chunks.remaining) → hashes ≠ [] ∨ 0 < x.needsOutstanding)
    (E : Error P → ActiveBuild P H → Prop) :
    Ends (do startAll ready; need [] hashes) x₁ (fun n x' => Responds cat offered new x x' n) E := by
  have hg' : Good cat offered (ready ++ []) x₁ := by simpa using hg
  refine Ends.bind ((startAll_spec hclosed hg').mono (fun _ _ h => h) fun _ _ hf => hf.elim) ?_
  rintro - x₂ ⟨hgood, hs⟩
  refine (need_spec hashes _).mono ?_ fun _ _ hf => hf
  rintro n x' ⟨rfl, hpaths, hhashes, hcount⟩
  have hhandled := hh.trans hs.handled
  refine ⟨hgood.setAside .., ⟨hhandled.inputs, hhandled.waits, hhandled.claimed, hhandled.roots, hhandled.pending,
    hhandled.imports⟩, ?_, ?_, hpaths, ?_, ?_⟩
  · rw [ask_needsOutstanding, hs.needsOutstanding, ho, hcount]
  · rw [ask_chunks, hs.chunks]
    exact hr
  · rw [hhashes, ask_chunks, hs.chunks]
    exact hreq
  · intro hrem
    rw [ask_chunks, hs.chunks] at hrem
    rw [ask_needsOutstanding, hs.needsOutstanding, ho]
    rcases hcov hrem with hne | hpos
    · rw [if_neg hne]
      omega
    · omega

include hclosed in
theorem feedData_spec (he : x.Expecting) (hash : H) :
    Ends (feedChunk store (.data hash)) x (fun n x' => Responds cat offered [] x x' n)
      fun e x' => Excused e ∧ x'.claimed = x.claimed := by
  unfold feedChunk
  refine Ends.bind (R := fun ready x' => ∃ c, Ingested x.chunks c ready ∧ x' = x.setChunks c) ?_ ?_
  · refine ends_onChunks (ingest_spec h.counted hash) ?_ fun _ _ hf => hf.elim
    intro ready c hc
    exact ⟨c, hc, rfl⟩
  rintro ready x₁ ⟨c, hc, rfl⟩
  have hsplit : ∀ p, p ∈ x.chunks.remaining ↔ p ∈ ready ∨ p ∈ c.remaining := by
    intro p
    by_cases hp : p ∈ ready
    · exact ⟨fun _ => .inl hp, fun _ => (hc.completed p hp).1⟩
    · rw [← hc.kept p hp]
      exact ⟨.inr, fun hor => hor.resolve_left hp⟩
  have hg : Good cat offered (ready ++ []) (x.setChunks c) := by
    simpa using h.release hc.counted hc.recipes hc.nodup hsplit fun p hp => (hc.completed p hp).2
  refine Ends.bind ((startAll_spec hclosed hg).mono (fun _ _ h => h) fun _ _ hf => hf.elim) ?_
  rintro - x' ⟨hgood, hs⟩
  have hhandled : Handled x (x.setChunks c) := ⟨rfl, rfl, rfl, rfl, Subset.refl _, by simp⟩
  refine ends_pure ⟨hgood, hhandled.trans hs.handled, hs.needsOutstanding, ?_, rfl, by simp [askedHashes], ?_⟩
  · intro p
    rw [hs.chunks, setChunks_chunks, hc.recipes]
    simp
  · rintro ⟨p, hp⟩
    rw [hs.chunks] at hp
    rw [hs.needsOutstanding]
    exact he ⟨p, (hsplit p).mpr (.inr hp)⟩

include hclosed in
theorem feedEof_spec {n : ℕ} (hn : x.needsOutstanding = n + 1) : Ends (feedChunk store .eof) x
      (fun need x' => Responds cat offered [] { x with needsOutstanding := n } x' need)
      fun e x' => Excused e ∧ x'.claimed = x.claimed := by
  unfold feedChunk
  apply ends_get_bind
  rw [hn]
  apply ends_set_bind
  have hkeys : ∀ p, p ∈ x.chunks.remaining → x.chunks.remaining.keys ≠ [] := by
    intro p hp hnil
    have hmem : p ∈ x.chunks.remaining.keys := mem_keys.mp hp
    rw [hnil] at hmem
    cases hmem
  set y : ActiveBuild P H := { x with needsOutstanding := n } with hy
  split_ifs with hstuck
  · obtain ⟨rfl, -⟩ := hstuck
    unfold requestStuck
    refine Ends.bind (R := fun r x' => ∃ c, Reawaited x.chunks c r.1 r.2 ∧ x' = y.setChunks c) ?_ ?_
    · refine ends_onChunks (reawaitStuck_spec store fun p hp => (h.remaining p hp).2) ?_
        fun _ _ hf => hf.elim
      intro r c hc
      exact ⟨c, hc, rfl⟩
    rintro ⟨hashes, ready⟩ x₁ ⟨c, hc, rfl⟩
    have hgood : Good cat offered ready (y.setChunks c) :=
      (h.setAside 0 x.resendRounds x.tmpDirDone).release hc.counted hc.recipes hc.nodup hc.split hc.apart
    have hreq : ∀ hash ∈ hashes, ∃ p ∈ (y.setChunks c).chunks.recipes, hash ∈ (cat.recipe p).hashes := by
      intro hash hh
      obtain ⟨p, recipe, hl, hm⟩ := hc.requested hash hh
      refine ⟨p, ?_, (h.recipes p recipe hl).1 ▸ hm⟩
      rw [setChunks_chunks, hc.recipes]
      exact mem_of_lookup hl
    have hrec : ∀ p, p ∈ (y.setChunks c).chunks.recipes ↔ p ∈ y.chunks.recipes ∨ p ∈ ([] : List P) := by
      intro p
      rw [setChunks_chunks, hc.recipes]
      simp [hy]
    have hhandled : Handled y (y.setChunks c) := ⟨rfl, rfl, rfl, rfl, Subset.refl _, by simp⟩
    -- the round is counted or not: nothing below looks at it
    refine Ends.bind (R := fun _ x' => Good cat offered ready x' ∧ Handled y x' ∧
      x'.needsOutstanding = y.needsOutstanding ∧ x'.chunks = (y.setChunks c).chunks) ?_ ?_
    · unfold countRound
      split_ifs with hnil
      · exact ends_pure ⟨hgood, hhandled, rfl, rfl⟩
      · apply ends_get_bind
        split_ifs
        · exact ends_throw ⟨trivial, rfl⟩
        · exact ends_modify ⟨hgood.setAside .., ⟨rfl, rfl, rfl, rfl, Subset.refl _, by simp⟩, rfl, rfl⟩
    · rintro - x₂ ⟨hg, hh, ho, hch⟩
      refine startAndAsk_spec hclosed hg hh ho (hch ▸ hrec) (hch ▸ hreq) ?_ _
      intro hrem
      rw [hch] at hrem
      exact .inl (hc.covered hrem)
  · refine ends_pure ⟨h.setAside .., ⟨rfl, rfl, rfl, rfl, Subset.refl _, by simp⟩, rfl, ?_, rfl,
      by simp [askedHashes], ?_⟩
    · simp [hy]
    · rintro ⟨p, hp⟩
      change 0 < n
      by_contra hz
      exact hstuck ⟨by omega, hkeys p hp⟩

theorem feedTmpDir_spec (he : x.Expecting) (eof : Bool) (E : Error P → ActiveBuild P H → Prop) :
    Ends (feedTmpDir eof) x (fun n x' => Responds cat offered [] x x' n) E := by
  unfold feedTmpDir
  apply ends_modify_bind
  refine ends_pure ⟨h.setAside .., ⟨rfl, rfl, rfl, rfl, Subset.refl _, by simp⟩, rfl, by simp, rfl,
    by simp [askedHashes], he⟩

omit h

include hclosed in
/-- An import failed on bad chunks: its path, back among the pending ones, is complete
or its missing chunks are requested. -/
theorem restage_spec (h : Good cat offered [] x) (he : x.Expecting) (hp : p ∈ x.imports)
    (E : Error P → ActiveBuild P H → Prop) : Ends (restage store [p]) (x.dropImport p).nextRound
      (fun n x' => Responds cat offered [] ((x.dropImport p).addPending p) x' n) E := by
  obtain ⟨recipe, hrecipe⟩ := exists_lookup (h.imports p hp).1
  obtain rfl := (h.recipes p recipe hrecipe).1
  have haw := awaited store p h.counted (cat.recipe p)
  unfold restage
  generalize hr : x.chunks.awaitMissing store p (cat.recipe p) = r at haw
  obtain ⟨c, hashes⟩ := r
  refine Ends.bind (R := fun acc x' => acc = (hashes, if p ∈ c.remaining then [] else [p]) ∧
    x' = (((x.dropImport p).setChunks c).addPending p).nextRound) ?_ ?_
  · rw [foldlM_cons]
    refine Ends.bind (R := fun acc x' => acc = (hashes, if p ∈ c.remaining then [] else [p]) ∧
      x' = (((x.dropImport p).setChunks c).addPending p).nextRound) ?_ ?_
    · unfold restageOne
      apply ends_get_bind
      simp only [nextRound_chunks, dropImport_chunks, hrecipe, hr]
      apply ends_set_bind
      exact ends_pure ⟨by simp, rfl⟩
    · rintro acc x' hx
      exact ends_pure hx
  rintro _ _ ⟨rfl, rfl⟩
  have hgood := (h.restage hp haw).setAside x.needsOutstanding (x.resendRounds + 1) x.tmpDirDone
  have hrec : ∀ q, q ∈ c.recipes ↔ q ∈ x.chunks.recipes ∨ q ∈ ([] : List P) := by
    intro q
    rw [haw.recipes]
    simp
  have hhandled : Handled ((x.dropImport p).addPending p) (((x.dropImport p).setChunks c).addPending p).nextRound :=
    ⟨rfl, rfl, rfl, rfl, Subset.refl _, fun q => (if_neg fun hq => hq.2 hq.1).symm⟩
  refine startAndAsk_spec hclosed hgood hhandled rfl hrec ?_ ?_ E
  · intro hash hh
    exact ⟨p, haw.recipes ▸ (h.imports p hp).1, haw.requested hash hh⟩
  · rintro ⟨q, hq⟩
    by_cases hqp : q = p
    · rcases haw.covered (hqp ▸ hq) with hne | hold
      · exact .inl hne
      · exact .inr (he hold)
    · refine .inr (he ⟨q, ?_⟩)
      rw [← lookup_isSome, ← haw.others q hqp]
      exact lookup_isSome.mpr hq

end Answers

end Tribuchet.Staging
