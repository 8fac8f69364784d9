import Tribuchet.Staging.Handlers

/-! The handlers that share the registry of claims: `claim`, `settle` and `woken`. A
`Wake` comes with an import's result or with a claim that settled, and the handler
moves the path on: to the inputs, back to the pending ones, or to another wait. -/

namespace Tribuchet.Staging

open Hoare Function Table AList ActiveBuild

variable {B P H : Type} [DecidableEq P]

/-! ### The registry and the builds -/

/-- Build `b` has claimed `p`. -/
def owns (active : B → Option (ActiveBuild P H)) (b : B) (p : P) : Prop := ∃ x, active b = some x ∧ p ∈ x.claimed

/-- The channel build `b` waits on for `p`. -/
def waitsOn (active : B → Option (ActiveBuild P H)) (b : B) (p : P) : Option ℕ :=
  (active b).bind fun x => x.waits.lookup p

def Claims.Agree (c : Claims B P) (active : B → Option (ActiveBuild P H)) : Prop :=
  c.Consistent (owns active) (waitsOn active)

variable [DecidableEq B]

def Claims.watching (c : Claims B P) (b : B) (p : P) : ℕ := c.watchers.countP fun w => w.build = b ∧ w.path = p

/-- The registry after build `b` claimed paths: the claims there were have not changed,
nor have the watchers of other builds. -/
structure Claims.Extends (b : B) (c c' : Claims B P) : Prop where
  next : c.next ≤ c'.next
  channels : ∀ ch < c.next, c'.channels ch = c.channels ch
  watching : ∀ b' p, b' ≠ b → c'.watching b' p = c.watching b' p

open Claims

theorem Claims.Extends.refl (b : B) (c : Claims B P) : Claims.Extends b c c :=
  ⟨le_rfl, fun _ _ => rfl, fun _ _ _ => rfl⟩

theorem Claims.Extends.trans {b : B} {c c₁ c₂ : Claims B P} (h : Claims.Extends b c c₁) (h' : Claims.Extends b c₁ c₂) :
    Extends b c c₂ where
  next := le_trans h.next h'.next
  channels ch hlt := (h'.channels ch (lt_of_lt_of_le hlt h.next)).trans (h.channels ch hlt)
  watching b' p hne := (h'.watching b' p hne).trans (h.watching b' p hne)

section Agree

variable {active : B → Option (ActiveBuild P H)} {b : B} {x x' : ActiveBuild P H} {c : Claims B P} {p : P}

omit [DecidableEq P] in
theorem owns_update (b' : B) (q : P) :
    owns (update active b (some x)) b' q ↔ if b' = b then q ∈ x.claimed else owns active b' q := by
  unfold owns
  by_cases hb : b' = b
  · subst hb
    simp
  · simp [hb]

theorem waitsOn_update (b' : B) (q : P) :
    waitsOn (update active b (some x)) b' q = if b' = b then x.waits.lookup q else waitsOn active b' q := by
  unfold waitsOn
  by_cases hb : b' = b
  · subst hb
    simp
  · simp [hb]

variable (h : c.Agree (update active b (some x)))

include h

theorem Claims.Agree.congr (hc : ∀ q, q ∈ x'.claimed ↔ q ∈ x.claimed)
    (hw : x'.waits = x.waits) : c.Agree (update active b (some x')) := by
  have ho : owns (update active b (some x')) = owns (update active b (some x)) := by
    funext b' q
    rw [eq_iff_iff, owns_update, owns_update, hc]
  have hwait : waitsOn (update active b (some x')) = waitsOn (update active b (some x)) := by
    funext b' q
    rw [waitsOn_update, waitsOn_update, hw]
  unfold Agree
  rw [ho, hwait]
  exact h

theorem Claims.Agree.claim_mine (hl : c.map.lookup p = none) :
    (c.claimOrWait p b).2.Agree (update active b (some (x.addClaim p))) := by
  have hw : waitsOn (update active b (some (x.addClaim p))) = waitsOn (update active b (some x)) := by
    funext b' q
    rw [waitsOn_update, waitsOn_update, addClaim_waits]
  unfold Agree
  rw [hw]
  apply Consistent.claim_mine h hl
  intro b' q
  rw [owns_update, owns_update, addClaim_claimed, List.mem_insert_iff]
  by_cases hb : b' = b
  · simp only [hb, if_true, true_and]
    exact or_comm
  · simp [hb]

theorem Claims.Agree.claim_theirs {ch : ℕ} (hl : c.map.lookup p = some ch) (hp : p ∉ x.waits) :
    (c.claimOrWait p b).2.Agree (update active b (some (x.addWait p ch))) := by
  have ho : owns (update active b (some (x.addWait p ch))) = owns (update active b (some x)) := by
    funext b' q
    rw [eq_iff_iff, owns_update, owns_update, addWait_claimed]
  unfold Agree
  rw [ho]
  refine Consistent.claim_theirs h hl ?_ ?_
  · rw [waitsOn_update, if_pos rfl]
    exact lookup_eq_none.mpr hp
  · intro b' q
    rw [waitsOn_update, waitsOn_update, addWait_waits, lookup_insert_eq]
    by_cases hb : b' = b
    · simp [hb]
    · simp [hb]

theorem Claims.Agree.settle (hp : p ∈ x.claimed) {state : ClaimState}
    (hs : state ≠ .running) : (c.settle p state).Agree (update active b (some (x.dropClaim p))) := by
  have hw : waitsOn (update active b (some (x.dropClaim p))) = waitsOn (update active b (some x)) := by
    funext b' q
    rw [waitsOn_update, waitsOn_update, dropClaim_waits]
  unfold Agree
  rw [hw]
  apply Consistent.settle h hs
  intro b' q
  rw [owns_update, owns_update]
  by_cases hb : b' = b
  · simp [hb]
  · simp only [hb, if_false, iff_self_and]
    rintro ho rfl
    refine hb (h.exclusive b' b q ?_ ?_)
    · rw [owns_update, if_neg hb]
      exact ho
    · rw [owns_update, if_pos rfl]
      exact hp

theorem Claims.Agree.dropWait (p : P) : (c.dropWait b p).Agree (update active b (some (x.dropWait p))) := by
  have ho : owns (update active b (some (x.dropWait p))) = owns (update active b (some x)) := by
    funext b' q
    rw [eq_iff_iff, owns_update, owns_update, dropWait_claimed]
  unfold Agree
  rw [ho]
  refine Consistent.filterWaits h (D := fun b' q => b' = b ∧ q = p) ?_
  intro b' q
  rw [waitsOn_update, waitsOn_update, dropWait_waits, lookup_erase_eq]
  by_cases hb : b' = b
  · by_cases hq : q = p
    · simp [hb, hq]
    · simp [hb, hq]
  · simp [hb]

theorem Claims.Agree.abort (hc : x'.claimed = x.claimed) :
    (Staging.abort b ⟨x', c⟩).Agree (update active b none) := by
  unfold Staging.abort
  have hsettled : (c.settleAll x'.claimed .failed).Consistent (owns (update active b none))
      (waitsOn (update active b (some x))) := by
    apply Consistent.settleAll h (by decide)
    intro b' q
    rw [owns_update, hc]
    unfold owns
    by_cases hb : b' = b
    · subst hb
      simp
    · simp only [ne_eq, hb, not_false_eq_true, update_of_ne, if_false, iff_self_and]
      rintro ho hq
      refine hb (h.exclusive b' b q ?_ ?_)
      · rw [owns_update, if_neg hb]
        exact ho
      · rw [owns_update, if_pos rfl]
        exact hq
  refine hsettled.filterWaits (D := fun b' _ => b' = b) ?_
  intro b' q
  rw [waitsOn_update]
  unfold waitsOn
  by_cases hb : b' = b
  · subst hb
    simp
  · simp [hb]

omit h

end Agree

/-! ### A path comes or goes -/

section Moves

variable [DecidableEq H] {cat : Catalog P H} {offered offered' : List P} {x : ActiveBuild P H} {p : P}

variable (h : Good cat offered [] x)

include h

theorem Good.addInput (hp : p ∉ offered) (ho : ∀ q, q ∈ offered' ↔ q ∈ offered ∨ q = p) :
    Good cat offered' x.parked (x.addInput p).unpark := by
  have hpl : x.places p = 0 := by rw [h.placed p, if_neg hp]
  refine ⟨?_, h.claimed, h.counted, h.recipes, ?_, h.remaining, by simp, ?_, ?_, ?_⟩
  · intro q
    by_cases hq : q = p
    · subst hq
      unfold places at hpl ⊢
      simp only [unpark_inputs, addInput_inputs, Finset.mem_insert_self, if_true,
        unpark_pending, addInput_pending, unpark_imports,
        addInput_imports, unpark_waits, addInput_waits,
        (ho q).mpr (.inr rfl)]
      omega
    · simp only [ho, hq, or_false]
      rw [← h.placed q]
      simp [places, hq]
  · intro q hq
    obtain ⟨h1, h2⟩ := h.imports q hq
    exact ⟨h1, fun r hr => (h2 r hr).imp_right (Finset.mem_insert_of_mem ·)⟩
  · exact fun q hq => (h.parked q hq).1
  · simpa using h.taken
  · intro q hq
    exact .inr ((h.complete q hq).resolve_right (by simp))

theorem Good.addClaim (hp : p ∉ offered) (ho : ∀ q, q ∈ offered' ↔ q ∈ offered ∨ q = p) :
    Good cat offered' [] (x.addClaim p) := by
  have hpl : x.places p = 0 := by rw [h.placed p, if_neg hp]
  have hrec : p ∉ x.chunks.recipes := by
    intro hm
    obtain ⟨r, hr⟩ := exists_lookup hm
    rcases (h.recipes p r hr).2.2 with hm | hm
    · exact hp (h.mem_offered (.inr (.inl hm)))
    · exact hp (h.mem_offered (.inr (.inr (.inl hm))))
  have hcomplete : ∀ q, (x.addClaim p).Complete q ↔ x.Complete q := by
    intro q
    simp only [Complete, addClaim_pending, addClaim_chunks, Finset.mem_insert]
    constructor
    · rintro ⟨rfl | h1, h2⟩
      · exact absurd h2.1 hrec
      · exact ⟨h1, h2⟩
    · rintro ⟨h1, h2⟩
      exact ⟨.inr h1, h2⟩
  refine ⟨?_, ?_, h.counted, ?_, h.imports, ?_, ?_, by simp, h.taken, ?_⟩
  · intro q
    by_cases hq : q = p
    · subst hq
      unfold places at hpl ⊢
      simp only [addClaim_inputs, addClaim_pending, Finset.mem_insert_self, if_true,
        addClaim_imports, addClaim_waits, (ho q).mpr (.inr rfl)]
      omega
    · simp only [ho, hq, or_false]
      rw [← h.placed q]
      simp [places, hq]
  · intro q
    simp only [addClaim_claimed, List.mem_insert_iff, h.claimed q, addClaim_pending,
      Finset.mem_insert, addClaim_imports, or_assoc]
  · intro q r hr
    obtain ⟨h1, h2, h3⟩ := h.recipes q r hr
    exact ⟨h1, h2, h3.imp_left (Finset.mem_insert_of_mem ·)⟩
  · intro q hq
    obtain ⟨h1, h2⟩ := h.remaining q hq
    exact ⟨Finset.mem_insert_of_mem h1, h2⟩
  · intro q hq
    obtain ⟨h1, h2⟩ := h.parked q hq
    exact ⟨(hcomplete q).mpr h1, h2⟩
  · intro q hq
    exact h.complete q ((hcomplete q).mp hq)

theorem Good.addWait (hp : p ∉ offered) (ho : ∀ q, q ∈ offered' ↔ q ∈ offered ∨ q = p)
    (ch : ℕ) : Good cat offered' [] (x.addWait p ch) := by
  have hpl : x.places p = 0 := by rw [h.placed p, if_neg hp]
  refine ⟨?_, h.claimed, h.counted, h.recipes, h.imports, h.remaining, h.parked, h.ready, h.taken, h.complete⟩
  intro q
  by_cases hq : q = p
  · subst hq
    unfold places at hpl ⊢
    simp only [addWait_inputs, addWait_pending, addWait_imports,
      addWait_waits, mem_insert, true_or, if_true, (ho q).mpr (.inr rfl)]
    split_ifs at hpl ⊢ <;> omega
  · simp only [ho, hq, or_false]
    rw [← h.placed q]
    simp [places, hq]

theorem Good.dropWait (hp : p ∈ x.waits) : Good cat (offered.filter (· ≠ p)) [] (x.dropWait p) := by
  obtain ⟨h1, h2, h3⟩ := h.of_waits hp
  refine ⟨?_, h.claimed, h.counted, h.recipes, h.imports, h.remaining, h.parked, h.ready, h.taken, h.complete⟩
  intro q
  by_cases hq : q = p
  · subst hq
    simp [places, h1, h2, h3]
  · have hpl := h.placed q
    simpa [places, hq] using hpl

theorem Good.dropImported (hp : p ∈ x.imports) :
    Good cat (offered.filter (· ≠ p)) [] (((x.dropImport p).forget p).dropClaim p) := by
  obtain ⟨hin, hpend, hwait⟩ := h.of_imports hp
  have hmem : ∀ q, q ∈ (((x.dropImport p).forget p).dropClaim p).chunks.recipes ↔ q ≠ p ∧ q ∈ x.chunks.recipes :=
    fun q => mem_erase
  have hcomplete : ∀ q, (((x.dropImport p).forget p).dropClaim p).Complete q ↔ x.Complete q := by
    intro q
    simp only [Complete, hmem]
    constructor
    · rintro ⟨h1, ⟨-, h2⟩, h3⟩
      exact ⟨h1, h2, h3⟩
    · rintro ⟨h1, h2, h3⟩
      refine ⟨h1, ⟨?_, h2⟩, h3⟩
      rintro rfl
      exact hpend h1
  refine ⟨?_, ?_, ⟨h.counted.waiters, h.counted.remaining⟩, ?_, ?_, ?_, ?_, by simp, h.taken, ?_⟩
  · intro q
    by_cases hq : q = p
    · subst hq
      simp [places, hin, hpend, hwait]
    · have hpl := h.placed q
      simpa [places, hq] using hpl
  · intro q
    have hc := h.claimed q
    by_cases hq : q = p
    · subst hq
      simp [hpend]
    · simpa [hq] using hc
  · intro q r hr
    change (x.chunks.recipes.erase p).lookup q = some r at hr
    change r = cat.recipe q ∧ (x.infos.erase p).lookup q = some (cat.info q) ∧ (q ∈ x.pending ∨ q ∈ x.imports.erase p)
    rw [lookup_erase_eq] at hr ⊢
    split_ifs at hr with hq
    obtain ⟨h1, h2, h3⟩ := h.recipes q r hr
    exact ⟨h1, by rw [if_neg hq, h2], h3.imp_right fun hm => mem_erase.mpr ⟨hq, hm⟩⟩
  · intro q hq
    obtain ⟨hne, hq⟩ := mem_erase.mp hq
    obtain ⟨h1, h2⟩ := h.imports q hq
    exact ⟨(hmem q).mpr ⟨hne, h1⟩, h2⟩
  · intro q hq
    obtain ⟨h1, h2⟩ := h.remaining q hq
    refine ⟨h1, (hmem q).mpr ⟨?_, h2⟩⟩
    rintro rfl
    exact hpend h1
  · intro q hq
    obtain ⟨h1, h2⟩ := h.parked q hq
    exact ⟨(hcomplete q).mpr h1, h2⟩
  · intro q hq
    exact h.complete q ((hcomplete q).mp hq)

omit h

omit [DecidableEq H] in
theorem mem_offered_iff_of_filter (hp : p ∈ offered) (q : P) : q ∈ offered ↔ q ∈ offered.filter (· ≠ p) ∨ q = p := by
  by_cases hq : q = p
  · simp [hq, hp]
  · simp [hq]

end Moves

/-! ### Claiming -/

section Claim

variable {active : B → Option (ActiveBuild P H)} {b : B} {x : ActiveBuild P H} {c : Claims B P} {p : P}

/-- A path is claimed, or another build has it and this one waits. -/
structure Claimed (active : B → Option (ActiveBuild P H)) (b : B) (p : P) (x : ActiveBuild P H) (c : Claims B P)
    (mine : Bool) (l : Local B P H) : Prop where
  agree : l.claims.Agree (update active b (some l.build))
  extends_ : Extends b c l.claims
  build : l.build = x.addClaim p ∧ mine = true ∨ ∃ ch, l.build = x.addWait p ch ∧ mine = false ∧
    (l.claims.channels ch).state = .running
  watching : ∀ q, l.claims.watching b q = c.watching b q + if mine = false ∧ q = p then 1 else 0

theorem claim_spec (h : c.Agree (update active b (some x))) (hp : p ∉ x.waits) (E : Error P → Local B P H → Prop) :
    Ends (claim b p) ⟨x, c⟩ (fun mine l => Claimed active b p x c mine l) E := by
  unfold claim
  apply ends_get_bind
  cases hl : c.map.lookup p with
  | none =>
    have hagree := h.claim_mine hl
    simp only [claimOrWait, hl] at hagree ⊢
    apply ends_set_bind
    refine ends_pure ⟨hagree, ⟨Nat.le_succ _, ?_, fun _ _ _ => rfl⟩, .inl ⟨rfl, rfl⟩, ?_⟩
    · intro ch hch
      exact update_of_ne (ne_of_lt hch) _ _
    · simp [watching]
  | some ch =>
    have hagree := h.claim_theirs hl hp
    simp only [claimOrWait, hl] at hagree ⊢
    apply ends_set_bind
    refine ends_pure ⟨hagree, ⟨le_rfl, fun _ _ => rfl, ?_⟩, .inr ⟨ch, rfl, rfl, ?_⟩, ?_⟩
    · intro b' q hb
      simp [watching, hb.symm]
    · rw [(h.running p ch hl).2]
    · intro q
      simp [watching, List.countP_singleton, eq_comm]

end Claim

/-! ### Wakes -/

section Woken

variable [DecidableEq H] {cat : Catalog P H} {offered : List P}
variable (hclosed : ∀ p ∈ offered, ∀ r ∈ cat.refs p, r ∈ offered)
variable {active : B → Option (ActiveBuild P H)} {b : B} {x : ActiveBuild P H} {c : Claims B P} {p : P}
variable (store : Finset H)

omit [DecidableEq P] [DecidableEq B] [DecidableEq H] in
theorem ends_onBuild {α : Type} {m : BuildM P H α} {R : α → ActiveBuild P H → Prop}
    {F : Error P → ActiveBuild P H → Prop} {Q : α → Local B P H → Prop} {E : Error P → Local B P H → Prop}
    (h : Ends m x R F) (hQ : ∀ a x', R a x' → Q a ⟨x', c⟩) (hE : ∀ e x', F e x' → E e ⟨x', c⟩) :
    Ends (onBuild m) ⟨x, c⟩ Q E :=
  Ends.zoom (s := (⟨x, c⟩ : Local B P H)) h hQ hE

include hclosed in
omit [DecidableEq B] in
theorem inputArrived_spec {offered₀ : List P} (h : Good cat offered₀ [] x) (hp : p ∉ offered₀)
    (ho : ∀ q, q ∈ offered ↔ q ∈ offered₀ ∨ q = p) (E : Error P → Local B P H → Prop) :
    Ends (do onBuild (do modify (·.addInput p); retryParked); pure none : WorkerM B P H (Option (Need P H)))
      ⟨x, c⟩
      (fun need l => need = none ∧ l.claims = c ∧ Good cat offered [] l.build ∧ Starts (x.addInput p) l.build) E := by
  refine Ends.bind (R := fun _ l => l.claims = c ∧ Good cat offered [] l.build ∧ Starts (x.addInput p) l.build) ?_ ?_
  · refine ends_onBuild (R := fun _ x' => Good cat offered [] x' ∧ Starts (x.addInput p) x') (F := fun _ _ => False)
      ?_ (fun _ _ h => ⟨rfl, h⟩) fun _ _ hf => hf.elim
    apply ends_modify_bind
    exact retryParked_spec hclosed (h.addInput hp ho)
  · rintro - l hl
    exact ends_pure ⟨rfl, hl⟩

variable (h : Good cat offered [] x)

include h

include hclosed in
theorem woken_imported {bad : List H}
    (hp : x.imports.lookup p = some (some ⟨none, bad⟩)) (E : Error P → Local B P H → Prop) :
    Ends (woken store b p) ⟨x, c⟩
      (fun need l => need = none ∧ l.claims = c.settle p .done ∧ Good cat offered [] l.build ∧
        Starts ((((x.dropImport p).forget p).dropClaim p).addInput p) l.build) E := by
  have hmem : p ∈ x.imports := mem_of_lookup hp
  have hclaimed : p ∈ x.claimed := (h.claimed p).mpr (.inr hmem)
  unfold woken
  apply ends_get_bind
  simp only [hp]
  apply ends_set_bind
  unfold importFinished
  refine Ends.bind (R := fun _ l => l = ⟨(x.dropImport p).forget p, c⟩) ?_ ?_
  · exact ends_onBuild (ends_modify (E := fun _ _ => False) (Q := fun _ x' => x' = (x.dropImport p).forget p) rfl)
      (fun _ _ hx => by rw [hx]) fun _ _ hf => hf.elim
  rintro - _ rfl
  refine Ends.bind (R := fun _ l => l = ⟨((x.dropImport p).forget p).dropClaim p, c.settle p .done⟩) ?_ ?_
  · refine ends_modify ?_
    exact if_pos hclaimed
  rintro - _ rfl
  have hoff := h.mem_offered (.inr (.inr (.inl hmem)))
  exact inputArrived_spec hclosed (h.dropImported hmem) (by simp) (mem_offered_iff_of_filter hoff) E

include hclosed in
theorem woken_failed (he : x.Expecting) {text : String} {bad : List H}
    (hp : x.imports.lookup p = some (some ⟨some text, bad⟩)) : Ends (woken store b p) ⟨x, c⟩
      (fun need l => l.claims = c ∧ Responds cat offered [] ((x.dropImport p).addPending p) l.build need)
      fun e l => Excused e ∧ l.claims = c ∧ l.build.claimed = x.claimed := by
  have hmem : p ∈ x.imports := mem_of_lookup hp
  unfold woken
  apply ends_get_bind
  simp only [hp]
  apply ends_set_bind
  unfold importFinished
  refine ends_onBuild (R := fun need x' => Responds cat offered [] ((x.dropImport p).addPending p) x' need)
    (F := fun e x' => Excused e ∧ x'.claimed = x.claimed) ?_ (fun _ _ h => ⟨rfl, h⟩)
    fun _ _ hf => ⟨hf.1, rfl, hf.2⟩
  apply ends_get_bind
  split_ifs
  · exact ends_throw ⟨trivial, rfl⟩
  · apply ends_set_bind
    exact restage_spec hclosed store h he hmem _

include hclosed in
theorem woken_done {ch : ℕ} (hw : x.waits.lookup p = some ch)
    (hs : c.settled ch = some .done) (E : Error P → Local B P H → Prop) : Ends (woken store b p) ⟨x, c⟩
      (fun need l => need = none ∧ l.claims = c.dropWait b p ∧ Good cat offered [] l.build ∧
        Starts ((x.dropWait p).addInput p) l.build) E := by
  have hmem : p ∈ x.waits := mem_of_lookup hw
  have hnone : x.imports.lookup p = none := lookup_eq_none.mpr (h.of_waits hmem).2.2
  unfold woken
  apply ends_get_bind
  simp only [hnone, hw, Option.bind_some, hs]
  unfold claimSettled
  apply ends_modify_bind
  simp only [if_true]
  have hoff := h.mem_offered (.inr (.inr (.inr hmem)))
  exact inputArrived_spec hclosed (h.dropWait hmem) (by simp) (mem_offered_iff_of_filter hoff) E

/-- The owner of the claim gave up: this build takes the path over, or waits on the
build that did so first. -/
theorem woken_abandoned {ch : ℕ} (hw : x.waits.lookup p = some ch)
    (hs : c.settled ch = some .failed) (ha : c.Agree (update active b (some x))) (E : Error P → Local B P H → Prop) :
    Ends (woken store b p) ⟨x, c⟩
      (fun need l => Good cat offered [] l.build ∧
        ∃ mine, Claimed active b p (x.dropWait p) (c.dropWait b p) mine l ∧
          need = if mine then some ⟨[p], []⟩ else none) E := by
  have hmem : p ∈ x.waits := mem_of_lookup hw
  have hnone : x.imports.lookup p = none := lookup_eq_none.mpr (h.of_waits hmem).2.2
  have hoff := h.mem_offered (.inr (.inr (.inr hmem)))
  have hdrop := h.dropWait hmem
  unfold woken
  apply ends_get_bind
  simp only [hnone, hw, Option.bind_some, hs]
  unfold claimSettled
  apply ends_modify_bind
  simp only [reduceCtorEq, if_false]
  refine (claim_spec (ha.dropWait p) (by simp) E).bind ?_
  rintro mine ⟨x₁, c₁⟩ hcl
  have hgood : Good cat offered [] x₁ := by
    rcases hcl.build with ⟨hx, -⟩ | ⟨ch', hx, -⟩
    · change x₁ = _ at hx
      rw [hx]
      exact hdrop.addClaim (by simp) (mem_offered_iff_of_filter hoff)
    · change x₁ = _ at hx
      rw [hx]
      exact hdrop.addWait (by simp) (mem_offered_iff_of_filter hoff) ch'
  cases mine with
  | false => exact ends_pure ⟨hgood, false, hcl, rfl⟩
  | true =>
    unfold need
    refine ends_onBuild (R := fun n x' => n = some ⟨[p], []⟩ ∧ x' = x₁) (F := fun _ _ => False) ?_ ?_
      fun _ _ hf => hf.elim
    · rw [if_neg (by simp)]
      apply ends_modify_bind
      exact ends_pure ⟨rfl, rfl⟩
    · rintro n x' ⟨rfl, rfl⟩
      exact ⟨hgood, true, hcl, rfl⟩

omit h

end Woken

end Tribuchet.Staging
