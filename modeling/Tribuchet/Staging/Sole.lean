import Tribuchet.Staging.Kept
import Tribuchet.Staging.Wakes

/-! A build imports only what it has claimed, and what it has claimed is claimed by no other
build. A path is claimed once by a build, and each further dispatch and each further request for
chunks takes one of the `MAX_RESEND_ROUNDS`. Every handler keeps this, whatever the hub sends and
however the handler ends. -/

namespace Tribuchet.Staging

open Hoare Function List Table AList ActiveBuild Claims

variable {B P H : Type} [DecidableEq P]

/-- The build's own records: what it is to import or imports is claimed, and the imports
`running` have not ended. -/
structure Mine (claimed : List P) (running : P → Prop) (x : ActiveBuild P H) : Prop where
  eq : x.claimed = claimed
  pending : ∀ p ∈ x.pending, p ∈ claimed
  imports : ∀ p ∈ x.imports, p ∈ claimed ∧ p ∉ x.pending
  running : ∀ p, running p → x.imports.lookup p = some none

section Mine

variable {claimed : List P} {running : P → Prop} {x x' : ActiveBuild P H} {p : P}

variable (h : Mine claimed running x)

include h

theorem Mine.congr (hc : x'.claimed = x.claimed) (hp : x'.pending = x.pending)
    (hi : x'.imports = x.imports) : Mine claimed running x' := by
  refine ⟨hc.trans h.eq, ?_, ?_, ?_⟩
  · rw [hp]
    exact h.pending
  · rw [hp, hi]
    exact h.imports
  · rw [hi]
    exact h.running

theorem Mine.dispatch (hp : p ∈ x.pending) : Mine claimed running (x.dispatch p) where
  eq := h.eq
  pending q hq := h.pending q (Finset.mem_of_mem_erase hq)
  imports q hq := by
    rcases (mem_insert _).mp hq with rfl | hq
    · exact ⟨h.pending q hp, Finset.notMem_erase _ _⟩
    · exact ⟨(h.imports q hq).1, fun hm => (h.imports q hq).2 (Finset.mem_of_mem_erase hm)⟩
  running q hq := by
    rw [dispatch_imports, lookup_insert_eq]
    split_ifs
    · rfl
    · exact h.running q hq

theorem Mine.dropImport (hp : ¬ running p) : Mine claimed running (x.dropImport p) where
  eq := h.eq
  pending := h.pending
  imports q hq := h.imports q (mem_erase.mp hq).2
  running q hq := by
    rw [dropImport_imports, lookup_erase_eq, if_neg]
    · exact h.running q hq
    · rintro rfl
      exact hp hq

theorem Mine.addPending (hp : p ∈ claimed) (hi : p ∉ x.imports) : Mine claimed running (x.addPending p) where
  eq := h.eq
  pending q hq := by
    rcases Finset.mem_insert.mp hq with rfl | hq
    · exact hp
    · exact h.pending q hq
  imports q hq := by
    refine ⟨(h.imports q hq).1, fun hm => ?_⟩
    rcases Finset.mem_insert.mp hm with rfl | hm
    · exact hi hq
    · exact (h.imports q hq).2 hm
  running := h.running

omit h

end Mine

/-- Beside builds that claim the paths `others`: every claim is in the registry, and no path is
claimed twice. -/
structure Sole (others running : P → Prop) (l : Local B P H) : Prop where
  mine : Mine l.build.claimed running l.build
  claimed : ∀ p ∈ l.build.claimed, p ∈ l.claims.map ∧ ¬ others p
  others : ∀ p, others p → p ∈ l.claims.map

section Sole

variable {others running : P → Prop} {l : Local B P H} {x : ActiveBuild P H} {c : Claims B P} {p : P} {b : B}

variable (h : Sole others running ⟨x, c⟩)

include h

theorem Sole.setBuild {y : ActiveBuild P H} (hy : Mine x.claimed running y) : Sole others running ⟨y, c⟩ := by
  have heq : y.claimed = x.claimed := hy.eq
  refine ⟨?_, ?_, h.others⟩
  · change Mine y.claimed running y
    rw [heq]
    exact hy
  · change ∀ p ∈ y.claimed, _
    rw [heq]
    exact h.claimed

omit h in
theorem claim_rule {Q : Bool → Local B P H → Prop} {E : Error P → Local B P H → Prop}
    (hmine : c.map.lookup p = none → Q true ⟨x.addClaim p, (c.claimOrWait p b).2⟩)
    (hwait : ∀ channel, c.map.lookup p = some channel → Q false ⟨x.addWait p channel, (c.claimOrWait p b).2⟩) :
    Ends (claim b p) ⟨x, c⟩ Q E := by
  unfold Staging.claim
  apply ends_get_bind
  simp only [claimOrWait] at hmine hwait ⊢
  cases hl : c.map.lookup p with
  | none =>
    apply ends_set_bind
    rw [hl] at hmine
    exact ends_pure (hmine rfl)
  | some channel =>
    apply ends_set_bind
    rw [hl] at hwait
    exact ends_pure (hwait channel rfl)

theorem Sole.addClaim (hi : p ∉ x.imports)
    (hl : c.map.lookup p = none) : Sole others running ⟨x.addClaim p, (c.claimOrWait p b).2⟩ := by
  have hfree : p ∉ c.map := lookup_eq_none.mp hl
  simp only [claimOrWait, hl]
  refine ⟨⟨rfl, ?_, ?_, h.mine.running⟩, ?_, ?_⟩
  · intro q hq
    rcases Finset.mem_insert.mp hq with rfl | hq
    · exact mem_insert_self
    · exact mem_insert_of_mem (h.mine.pending q hq)
  · intro q hq
    refine ⟨mem_insert_of_mem (h.mine.imports q hq).1, fun hm => ?_⟩
    rcases Finset.mem_insert.mp hm with rfl | hm
    · exact hi hq
    · exact (h.mine.imports q hq).2 hm
  · intro q hq
    rcases mem_insert_iff.mp hq with rfl | hq
    · exact ⟨(mem_insert _).mpr (.inl rfl), fun ho => hfree (h.others q ho)⟩
    · exact ⟨(mem_insert _).mpr (.inr (h.claimed q hq).1), (h.claimed q hq).2⟩
  · intro q ho
    exact (mem_insert _).mpr (.inr (h.others q ho))

theorem Sole.addWait {channel : ℕ} (hl : c.map.lookup p = some channel) :
    Sole others running ⟨x.addWait p channel, (c.claimOrWait p b).2⟩ := by
  simp only [claimOrWait, hl]
  exact ⟨h.mine.congr rfl rfl rfl, h.claimed, h.others⟩

omit h in
theorem Claims.mem_settle_map {state : ClaimState} {q : P} (h : q ∈ c.map) (hne : q ≠ p) :
    q ∈ (c.settle p state).map := by
  unfold settle
  split
  · exact h
  · exact mem_erase.mpr ⟨hne, h⟩

theorem Sole.dropClaim (hc : p ∈ x.claimed) (hp : p ∉ x.pending) (hi : p ∉ x.imports) (state : ClaimState) :
    Sole others running ⟨x.dropClaim p, c.settle p state⟩ := by
  have hnot : ¬ others p := (h.claimed p hc).2
  refine ⟨⟨rfl, fun q hq => ?_, fun q hq => ⟨?_, (h.mine.imports q hq).2⟩, h.mine.running⟩, fun q hq => ?_,
    fun q ho => ?_⟩
  · refine mem_filter.mpr ⟨h.mine.pending q hq, decide_eq_true ?_⟩
    rintro rfl
    exact hp hq
  · refine mem_filter.mpr ⟨(h.mine.imports q hq).1, decide_eq_true ?_⟩
    rintro rfl
    exact hi hq
  · obtain ⟨hq, hne⟩ := mem_filter.mp hq
    exact ⟨mem_settle_map (h.claimed q hq).1 (of_decide_eq_true hne), (h.claimed q hq).2⟩
  · refine mem_settle_map (h.others q ho) ?_
    rintro rfl
    exact hnot ho

omit h

theorem mine_new (hr : ∀ p, ¬ running p) : Mine [] running (.new : ActiveBuild P H) :=
  ⟨rfl, fun p hp => absurd hp (Finset.notMem_empty p), fun p hp => absurd hp (notMem_empty p),
    fun p hp => absurd hp (hr p)⟩

theorem Sole.stop (h : Sole others running l) : Sole others (fun _ => False) l :=
  ⟨⟨h.mine.eq, h.mine.pending, h.mine.imports, fun _ hf => hf.elim⟩, h.claimed, h.others⟩

end Sole

/-! ### The registry -/

structure Sound (c : Claims B P) : Prop where
  running : ∀ p ch, c.map.lookup p = some ch → c.channels ch = ⟨.running, true⟩
  distinct : ∀ p q ch, c.map.lookup p = some ch → c.map.lookup q = some ch → p = q
  unused : ∀ ch, c.next ≤ ch → c.channels ch = ⟨.failed, false⟩

/-- What a build finds later: the claims `held` in between are registered as they were, and a
claim that is done stays done. -/
structure Ages (held : P → Prop) (c c' : Claims B P) : Prop where
  sound : Sound c'
  held : ∀ p, held p → c'.map.lookup p = c.map.lookup p
  done : ∀ ch, (c.channels ch).state = .done → (c'.channels ch).state = .done

section Ages

variable {held : P → Prop} {c₀ c c' : Claims B P} {p : P}

theorem sound_empty : Sound (.empty : Claims B P) where
  running _ _ h := nomatch h
  distinct _ _ _ h := nomatch h
  unused _ _ := rfl

theorem Sound.lt_next (h : Sound c) {ch : ℕ} (hl : c.map.lookup p = some ch) : ch < c.next := by
  by_contra hn
  have hunused := h.unused ch (le_of_not_gt hn)
  rw [h.running p ch hl] at hunused
  cases hunused

theorem Ages.refl (h : Sound c) : Ages held c c := ⟨h, fun _ _ => rfl, fun _ hd => hd⟩

theorem Ages.congr (h : Ages held c₀ c) (hm : c'.map = c.map) (hc : c'.channels = c.channels) (hn : c'.next = c.next) :
    Ages held c₀ c' := by
  obtain ⟨map, channels, next, watchers⟩ := c'
  subst hm hc hn
  exact ⟨⟨h.sound.running, h.sound.distinct, h.sound.unused⟩, h.held, h.done⟩

theorem Ages.claimOrWait (h : Ages held c₀ c) (hheld : ∀ q, held q → q ∈ c.map) (p : P) (b : B) :
    Ages held c₀ (c.claimOrWait p b).2 := by
  unfold Claims.claimOrWait
  cases hl : c.map.lookup p with
  | some ch => exact h.congr rfl rfl rfl
  | none =>
    have hfree : p ∉ c.map := lookup_eq_none.mp hl
    have hne : ∀ q ch, c.map.lookup q = some ch → ch ≠ c.next := fun q ch hq => ne_of_lt (h.sound.lt_next hq)
    refine ⟨⟨fun q ch hq => ?_, fun q q' ch hq hq' => ?_, fun ch hch => ?_⟩, fun q hq => ?_, fun ch hd => ?_⟩
    · simp only [lookup_insert_eq] at hq
      split_ifs at hq with hqp
      · cases hq
        exact update_self ..
      · simp only [update_of_ne (hne q ch hq)]
        exact h.sound.running q ch hq
    · simp only [lookup_insert_eq] at hq hq'
      split_ifs at hq hq' with h₁ h₂ h₂
      · rw [h₁, h₂]
      · cases hq
        exact absurd rfl (hne q' _ hq')
      · cases hq'
        exact absurd rfl (hne q _ hq)
      · exact h.sound.distinct q q' ch hq hq'
    · simp only [update_of_ne (Nat.ne_of_gt hch)]
      exact h.sound.unused ch (Nat.le_of_succ_le hch)
    · have hqp : q ≠ p := fun heq => hfree (heq ▸ hheld q hq)
      simp only [lookup_insert_ne hqp]
      exact h.held q hq
    · have hdone := h.done ch hd
      have hch : ch ≠ c.next := by
        rintro rfl
        rw [h.sound.unused _ le_rfl] at hdone
        cases hdone
      simp only [update_of_ne hch]
      exact hdone

theorem Ages.settle (h : Ages held c₀ c) (hp : ¬ held p) (state : ClaimState) : Ages held c₀ (c.settle p state) := by
  unfold Claims.settle
  cases hl : c.map.lookup p with
  | none => exact h
  | some channel =>
    refine ⟨⟨fun q ch hq => ?_, fun q q' ch hq hq' => ?_, fun ch hch => ?_⟩, fun q hq => ?_, fun ch hd => ?_⟩
    · simp only [lookup_erase_eq] at hq
      split_ifs at hq with hqp
      have hch : ch ≠ channel := by
        rintro rfl
        exact hqp (h.sound.distinct q p ch hq hl)
      simp only [update_of_ne hch]
      exact h.sound.running q ch hq
    · simp only [lookup_erase_eq] at hq hq'
      split_ifs at hq hq'
      exact h.sound.distinct q q' ch hq hq'
    · have hlt : channel < c.next := h.sound.lt_next hl
      simp only [update_of_ne (Nat.ne_of_gt (lt_of_lt_of_le hlt hch))]
      exact h.sound.unused ch hch
    · have hqp : q ≠ p := fun heq => hp (heq ▸ hq)
      simp only [lookup_erase_ne hqp]
      exact h.held q hq
    · have hdone := h.done ch hd
      have hch : ch ≠ channel := by
        rintro rfl
        rw [h.sound.running p ch hl] at hdone
        cases hdone
      simp only [update_of_ne hch]
      exact hdone

end Ages

/-! ### Inside a handler -/

variable [DecidableEq H]

/-- How a handler of a build began: the other builds' claims, how often each path had been
dispatched, and the states it found. -/
structure Began (B P H : Type) where
  others : P → Prop
  dispatched : P → ℕ
  build : ActiveBuild P H
  claims : Claims B P

/-- How often the path has been dispatched by now. A handler hands it to the pool once at most:
what is in `imports` is not pending. -/
def Began.sent (o : Began B P H) (x : ActiveBuild P H) (p : P) : ℕ :=
  o.dispatched p + if x.imports.lookup p = some none ∧ o.build.imports.lookup p ≠ some none then 1 else 0

def pendingIn (x : ActiveBuild P H) (p : P) : ℕ := if p ∈ x.pending then 1 else 0

/-- A path that is dispatched or to be dispatched for the second time has taken a round; and a
build that waits for a path it has claimed itself waits for its own claim. -/
structure Within (o : Began B P H) (running : P → Prop) (l : Local B P H) : Prop where
  sole : Sole o.others running l
  ages : Ages o.others o.claims l.claims
  limit : l.build.resendRounds ≤ maxResendRounds
  sent : ∀ p, o.sent l.build p + pendingIn l.build p ≤ 1 + l.build.resendRounds
  own : ∀ p ch, l.build.waits.lookup p = some ch → p ∈ l.build.claimed ∨ o.sent l.build p ≠ 0 →
    (l.claims.channels ch).state = .done ∨ p ∈ l.build.claimed ∧ l.claims.map.lookup p = some ch

section Within

variable {o : Began B P H} {running : P → Prop} {l : Local B P H} {x x' : ActiveBuild P H} {c : Claims B P} {p : P} {b : B}

theorem Began.sent_congr (h : x'.imports.lookup p = x.imports.lookup p) : o.sent x' p = o.sent x p := by
  unfold sent
  rw [h]

theorem Began.le_sent (o : Began B P H) (x : ActiveBuild P H) (p : P) : o.dispatched p ≤ o.sent x p := Nat.le_add_right ..

theorem Began.sent_of_notMem (hp : p ∉ x.imports) : o.sent x p = o.dispatched p := by
  unfold sent
  rw [if_neg, add_zero]
  rintro ⟨hl, -⟩
  rw [lookup_eq_none.mpr hp] at hl
  cases hl

theorem Within.stop (h : Within o running l) : Within o (fun _ => False) l := ⟨h.sole.stop, h.ages, h.limit, h.sent, h.own⟩

variable (h : Within o running ⟨x, c⟩)

include h

theorem Within.dispatch (hp : p ∈ x.pending) : Within o running ⟨x.dispatch p, c⟩ := by
  have hsent {q : P} (hqp : q ≠ p) : o.sent (x.dispatch p) q = o.sent x q := Began.sent_congr (lookup_insert_ne hqp)
  refine ⟨h.sole.setBuild (h.sole.mine.dispatch hp), h.ages, h.limit, fun q => ?_, fun q ch hw hq => ?_⟩
  · have hold := h.sent q
    change o.sent x q + pendingIn x q ≤ 1 + x.resendRounds at hold
    change o.sent (x.dispatch p) q + pendingIn (x.dispatch p) q ≤ 1 + x.resendRounds
    by_cases hqp : q = p
    · subst hqp
      have hpend : pendingIn (x.dispatch q) q = 0 := if_neg (Finset.notMem_erase q _)
      have hpend' : pendingIn x q = 1 := if_pos hp
      have hle := o.le_sent x q
      have hone : o.sent (x.dispatch q) q ≤ o.dispatched q + 1 := by
        unfold Began.sent
        split_ifs <;> omega
      omega
    · have hpend : pendingIn (x.dispatch p) q = pendingIn x q := by
        unfold pendingIn
        simp only [dispatch_pending, Finset.mem_erase, ne_eq, hqp, not_false_eq_true, true_and]
      rw [hsent hqp, hpend]
      exact hold
  · by_cases hqp : q = p
    · subst hqp
      exact h.own q ch hw (.inl (h.sole.mine.pending q hp))
    · change _ ∨ o.sent (x.dispatch p) q ≠ 0 at hq
      rw [hsent hqp] at hq
      exact h.own q ch hw hq

theorem Within.congr (hp : x'.pending = x.pending) (hi : x'.imports = x.imports)
    (hc : x'.claimed = x.claimed) (hw : x'.waits = x.waits) (hr : x'.resendRounds = x.resendRounds) :
    Within o running ⟨x', c⟩ := by
  have hsent (q : P) : o.sent x' q = o.sent x q := Began.sent_congr (by rw [hi])
  refine ⟨h.sole.setBuild (h.sole.mine.congr hc hp hi), h.ages, le_trans hr.le h.limit, fun q => ?_,
    fun q ch hq hor => ?_⟩
  · change o.sent x' q + pendingIn x' q ≤ 1 + x'.resendRounds
    unfold pendingIn
    rw [hsent, hp, hr]
    exact h.sent q
  · change x'.waits.lookup q = some ch at hq
    change q ∈ x'.claimed ∨ o.sent x' q ≠ 0 at hor
    change _ ∨ q ∈ x'.claimed ∧ _
    rw [hw] at hq
    rw [hc, hsent] at hor
    rw [hc]
    exact h.own q ch hq hor

omit h in
theorem Within.kept : Kept fun x => Within o running ⟨x, c⟩ where
  dispatch h hp := h.dispatch hp
  congr h hp hi hc hw hr := h.congr hp hi hc hw hr

omit h in
theorem Within.keptRounds (n : ℕ) : Kept fun x => Within o running ⟨x, c⟩ ∧ x.resendRounds = n :=
  Within.kept.and (.resendRounds n)

theorem Within.nextRound (hr : x.resendRounds < maxResendRounds) : Within o running ⟨x.nextRound, c⟩ where
  sole := h.sole.setBuild (h.sole.mine.congr rfl rfl rfl)
  ages := h.ages
  limit := hr
  sent q := le_trans (h.sent q) (Nat.le_succ _)
  own := h.own

theorem Within.dropImport (hp : ¬ running p) : Within o running ⟨x.dropImport p, c⟩ := by
  have hle (q : P) : o.sent (x.dropImport p) q ≤ o.sent x q := by
    by_cases hqp : q = p
    · subst hqp
      rw [Began.sent_of_notMem fun hm => (mem_erase.mp hm).1 rfl]
      exact o.le_sent x q
    · rw [Began.sent_congr (lookup_erase_ne hqp)]
  refine ⟨h.sole.setBuild (h.sole.mine.dropImport hp), h.ages, h.limit,
    fun q => le_trans (Nat.add_le_add_right (hle q) _) (h.sent q), fun q ch hw hor => ?_⟩
  exact h.own q ch hw (hor.imp_right fun hne hzero => hne (Nat.le_zero.mp (hzero ▸ hle q)))

theorem Within.again (hr : x.resendRounds < maxResendRounds) (hc : p ∈ x.claimed)
    (hi : p ∉ x.imports) : Within o running ⟨x.nextRound.addPending p, c⟩ := by
  have hnext := h.nextRound hr
  refine ⟨hnext.sole.setBuild (hnext.sole.mine.addPending hc hi), h.ages, hnext.limit, fun q => ?_, hnext.own⟩
  have hold := h.sent q
  change o.sent x q + pendingIn (x.nextRound.addPending p) q ≤ 1 + (x.resendRounds + 1)
  change o.sent x q + pendingIn x q ≤ 1 + x.resendRounds at hold
  have hone : pendingIn (x.nextRound.addPending p) q ≤ pendingIn x q + 1 := by
    unfold pendingIn
    split_ifs <;> omega
  omega

variable (hd : o.dispatched p = 0)

include hd

theorem Within.addClaim (hi : p ∉ x.imports)
    (hw : p ∉ x.waits) (hl : c.map.lookup p = none) : Within o running ⟨x.addClaim p, (c.claimOrWait p b).2⟩ := by
  have hstep : Ages (· ∈ c.map) c (c.claimOrWait p b).2 := (Ages.refl h.ages.sound).claimOrWait (fun _ hq => hq) p b
  refine ⟨h.sole.addClaim hi hl, h.ages.claimOrWait h.sole.others p b, h.limit, fun q => ?_, fun q ch hq hor => ?_⟩
  · have hold := h.sent q
    change o.sent x q + pendingIn x q ≤ 1 + x.resendRounds at hold
    change o.sent x q + pendingIn (x.addClaim p) q ≤ 1 + x.resendRounds
    by_cases hqp : q = p
    · subst hqp
      have hone : pendingIn (x.addClaim q) q = 1 := if_pos (Finset.mem_insert_self q _)
      rw [Began.sent_of_notMem hi, hd, hone]
      exact Nat.le_add_right 1 _
    · have hsame : pendingIn (x.addClaim p) q = pendingIn x q := by
        unfold pendingIn
        simp only [addClaim_pending, Finset.mem_insert, hqp, false_or]
      rw [hsame]
      exact hold
  · change x.waits.lookup q = some ch at hq
    have hqp : q ≠ p := by
      rintro rfl
      rw [lookup_eq_none.mpr hw] at hq
      cases hq
    have hmem : q ∈ (x.addClaim p).claimed ↔ q ∈ x.claimed := by
      rw [addClaim_claimed, mem_insert_iff, or_iff_right hqp]
    change q ∈ (x.addClaim p).claimed ∨ o.sent x q ≠ 0 at hor
    rw [hmem] at hor
    rcases h.own q ch hq hor with hdone | ⟨hc, hmap⟩
    · exact .inl (hstep.done ch hdone)
    · refine .inr ⟨hmem.mpr hc, ?_⟩
      rw [hstep.held q (h.sole.claimed q hc).1]
      exact hmap

theorem Within.addWait (hi : p ∉ x.imports) {channel : ℕ}
    (hl : c.map.lookup p = some channel) : Within o running ⟨x.addWait p channel, (c.claimOrWait p b).2⟩ := by
  refine ⟨h.sole.addWait hl, h.ages.claimOrWait h.sole.others p b, h.limit, h.sent, fun q ch hq hor => ?_⟩
  simp only [claimOrWait, hl]
  change (x.waits.insert p channel).lookup q = some ch at hq
  rw [lookup_insert_eq] at hq
  split_ifs at hq with hqp
  · cases hq
    subst hqp
    exact hor.elim (fun hc => .inr ⟨hc, hl⟩) fun hne => absurd ((Began.sent_of_notMem hi).trans hd) hne
  · exact h.own q ch hq hor

theorem Within.claim (hi : p ∉ x.imports) (hw : p ∈ x.waits → p ∈ c.map) :
    Stays (fun l => Within o running l ∧ l.build.imports = x.imports ∧ l.build.resendRounds = x.resendRounds ∧
      ((∀ q ∈ x.waits, q ∈ c.map) → ∀ q ∈ l.build.waits, q ∈ l.claims.map)) (claim b p) ⟨x, c⟩ := by
  refine claim_rule (fun hl => ?_) fun channel hl => ?_
  · have hnot : p ∉ x.waits := fun hm => lookup_eq_none.mp hl (hw hm)
    refine ⟨h.addClaim hd hi hnot hl, rfl, rfl, fun hall q hq => ?_⟩
    simp only [claimOrWait, hl]
    exact (mem_insert _).mpr (.inr (hall q hq))
  · refine ⟨h.addWait hd hi hl, rfl, rfl, fun hall q hq => ?_⟩
    simp only [claimOrWait, hl]
    rcases (mem_insert _).mp hq with rfl | hq
    · exact mem_of_lookup hl
    · exact hall q hq

omit hd

theorem Within.dropClaim (hc : p ∈ x.claimed) (hp : p ∉ x.pending) (hi : p ∉ x.imports) :
    Within o running ⟨x.dropClaim p, c.settle p .done⟩ := by
  have hstep : Ages (· ≠ p) c (c.settle p .done) := (Ages.refl h.ages.sound).settle (fun hne => hne rfl) .done
  refine ⟨h.sole.dropClaim hc hp hi .done, h.ages.settle (h.sole.claimed p hc).2 .done, h.limit, h.sent,
    fun q ch hq hor => ?_⟩
  have hmem : q ∈ (x.dropClaim p).claimed ↔ q ∈ x.claimed ∧ q ≠ p := by simp
  change q ∈ (x.dropClaim p).claimed ∨ o.sent x q ≠ 0 at hor
  by_cases hqp : q = p
  · -- the build's own claim settles: what it waits for is done
    subst hqp
    rcases h.own q ch hq (.inl hc) with hdone | ⟨-, hmap⟩
    · exact .inl (hstep.done ch hdone)
    · left
      change c.map.lookup q = some ch at hmap
      simp only [Claims.settle, hmap, update_self]
  · rcases h.own q ch hq (hor.imp_left fun hm => (hmem.mp hm).1) with hdone | ⟨hcl, hmap⟩
    · exact .inl (hstep.done ch hdone)
    · refine .inr ⟨hmem.mpr ⟨hcl, hqp⟩, ?_⟩
      rw [hstep.held q hqp]
      exact hmap

theorem Within.settle (hp : p ∉ x.pending) (hi : p ∉ x.imports) :
    Stays (fun l => Within o running l ∧ l.build.resendRounds = x.resendRounds) (settle p .done) ⟨x, c⟩ := by
  refine ends_modify ?_
  split_ifs with hc
  · exact ⟨h.dropClaim hc hp hi, rfl⟩
  · exact ⟨h, rfl⟩

omit h

/-! ### The handlers -/

/-- What a handler of a build that has taken `rounds` leaves: a `Need` with hashes takes a round,
`free` ones apart. One that fails may have lost track of an import. -/
def Charged (o : Began B P H) (running : P → Prop) (rounds free : ℕ) (m : WorkerM B P H (Option (Need P H)))
    (l : Local B P H) : Prop :=
  Ends m l (fun need l' => Within o running l' ∧ rounds + asked need ≤ l'.build.resendRounds + free)
    fun _ l' => Within o (fun _ => False) l'

variable (h : Within o running ⟨x, c⟩)

include h

theorem Within.feedManifest (store : Finset H) (m : Manifest P H) :
    Charged o running x.resendRounds (decide (m.storePath ∈ x.pending)).toNat (onBuild (feedManifest store m)) ⟨x, c⟩ := by
  refine ends_onBuild (Within.kept.feedManifest store h m) ?_ fun _ _ hy => hy.stop
  rintro need y ⟨hy, hr, ha⟩
  refine ⟨hy, ?_⟩
  change x.resendRounds + asked need ≤ y.resendRounds + _
  rw [hr]
  split_ifs at ha with hp <;> simp [hp] <;> omega

theorem Within.feedChunk (store : Finset H) (frame : ChunkFrame H) :
    Charged o running x.resendRounds 0 (onBuild (feedChunk store frame)) ⟨x, c⟩ :=
  ends_onBuild (Within.kept.feedChunk store (fun _ hy hr => hy.nextRound hr) h frame) (fun _ _ hy => hy)
    fun _ _ hy => hy.stop

theorem Within.feedTmpDir (eof : Bool) : Charged o running x.resendRounds 0 (onBuild (feedTmpDir eof)) ⟨x, c⟩ := by
  refine ends_onBuild ((Within.keptRounds _).feedTmpDir ⟨h, rfl⟩ eof (E := fun _ _ => False)) ?_ fun _ _ hf => hf.elim
  rintro need y ⟨⟨hy, hr⟩, ha⟩
  exact ⟨hy, by rw [ha]; exact hr.ge⟩

theorem Within.inputArrived :
    Charged o running x.resendRounds 0 (do onBuild (do modify (·.addInput p); retryParked); pure none) ⟨x, c⟩ := by
  have hin : Within o running ⟨x.addInput p, c⟩ := h.congr rfl rfl rfl rfl rfl
  have hretry := (Within.keptRounds x.resendRounds).retryParked ⟨hin, rfl⟩
  refine Ends.bind (R := fun _ l => Within o running l ∧ l.build.resendRounds = x.resendRounds) ?_
    fun _ l hl => ends_pure ⟨hl.1, hl.2.ge⟩
  exact ends_onBuild (ends_modify_bind hretry) (fun _ _ hy => hy) fun _ _ hy => hy.1.stop

theorem Within.importFinished (store : Finset H) {result : Option (ImportOutcome H)}
    (hp : x.imports.lookup p = some result) :
    Charged o running x.resendRounds 0 (importFinished store p result) ⟨x.dropImport p, c⟩ := by
  have hmem : p ∈ x.imports := mem_of_lookup hp
  have hgone : p ∉ (x.dropImport p).imports := fun hm => (mem_erase.mp hm).1 rfl
  obtain ⟨hclaimed, hpend⟩ := h.sole.mine.imports p hmem
  match result with
  | none => exact ends_throw (h.stop.dropImport id)
  | some ⟨some text, bad⟩ =>
    have hdrop := h.dropImport (p := p) fun hr => by simp [h.sole.mine.running p hr] at hp
    refine ends_onBuild (R := fun need y => Within o running ⟨y, c⟩ ∧ x.resendRounds + asked need ≤ y.resendRounds)
      (F := fun _ y => Within o running ⟨y, c⟩) ?_ (fun _ _ hy => hy) fun _ _ hy => hy.stop
    apply ends_get_bind
    split_ifs with hlimit
    · exact ends_throw hdrop
    · apply ends_set_bind
      have hlt : x.resendRounds < maxResendRounds := lt_of_not_ge (not_or.mp hlimit).2
      refine (Within.kept.restage store (hdrop.nextRound hlt) (hdrop.again hlt hclaimed hgone)).imp ?_
      rintro need y ⟨hy, hr⟩
      refine ⟨hy, ?_⟩
      rw [hr]
      exact Nat.add_le_add_left (asked_le_one need) _
  | some ⟨none, bad⟩ =>
    have hdrop := h.dropImport (p := p) fun hr => by simp [h.sole.mine.running p hr] at hp
    refine Ends.bind (R := fun _ l => l = ⟨(x.dropImport p).forget p, c⟩) ?_ ?_
    · exact ends_onBuild (ends_modify (E := fun _ _ => False) (Q := fun _ y => y = (x.dropImport p).forget p) rfl)
        (fun _ _ hy => by rw [hy]) fun _ _ hf => hf.elim
    rintro - _ rfl
    have hforget : Within o running ⟨(x.dropImport p).forget p, c⟩ := hdrop.congr rfl rfl rfl rfl rfl
    refine Ends.bind ((hforget.settle hpend hgone).mono (fun _ _ hl => hl) fun _ _ hl => hl.1.stop) ?_
    rintro - ⟨y, c'⟩ ⟨hy, hr⟩
    have harrived := hy.inputArrived (p := p)
    rw [show y.resendRounds = x.resendRounds from hr] at harrived
    exact harrived

theorem Within.eq_zero_of_settled {ch : ℕ} (hw : x.waits.lookup p = some ch)
    {state : ClaimState} (hs : c.settled ch = some state) (hne : state ≠ .done) : o.dispatched p = 0 := by
  by_contra hd
  have hsent : o.sent x p ≠ 0 := fun hzero => hd (Nat.le_zero.mp (hzero ▸ o.le_sent x p))
  rcases h.own p ch hw (.inr hsent) with hdone | ⟨-, hmap⟩
  · rw [settled_of_done hdone] at hs
    exact hne (Option.some.inj hs).symm
  · rw [settled, h.ages.sound.running p ch hmap] at hs
    cases hs

omit h

theorem Within.negotiate (h : Within o running ⟨.new, c⟩) (hd : ∀ p, o.dispatched p = 0) (store : Finset H)
    (refs : P → List P) (pin : Pinning P) (valid : Finset P) (inputs : List (Manifest P H)) :
    Charged o running 0 1 (negotiate b refs pin valid store inputs) ⟨.new, c⟩ := by
  have hcheck : Stays (fun l => Within o running l ∧ l.build.imports = ∅ ∧ ∀ q ∈ l.build.waits, q ∈ l.claims.map)
      (checkInputs b refs pin valid (inputs.map Manifest.storePath)) ⟨.new, c⟩ := by
    unfold checkInputs
    apply ends_modify_bind
    refine stays_foldlM (fun p _ missing l hl => ?_)
      ⟨h.congr rfl rfl rfl rfl rfl, rfl, fun q hq => absurd hq (notMem_empty q)⟩
    obtain ⟨x, c'⟩ := l
    obtain ⟨hl, himp, hwaits⟩ := hl
    change x.imports = ∅ at himp
    have hnot : p ∉ x.imports := by
      rw [himp]
      exact notMem_empty p
    unfold checkOne
    split_ifs
    · refine Stays.bind ?_ fun _ _ hl => ends_pure hl
      exact ends_modify ⟨hl.congr rfl rfl rfl rfl rfl, himp, hwaits⟩
    · have hclaim := hl.claim (b := b) (hd p) hnot fun hm => hwaits p hm
      refine Stays.bind (hclaim.mono (fun _ _ h => ⟨h.1, h.2.1.trans himp, h.2.2.2 hwaits⟩)
        fun _ _ h => ⟨h.1, h.2.1.trans himp, h.2.2.2 hwaits⟩) fun mine l hl => ?_
      cases mine with
      | true => exact ends_pure hl
      | false => exact ends_pure hl
  unfold Staging.negotiate
  refine Ends.bind (hcheck.mono (fun _ _ hl => hl.1) fun _ _ hl => hl.1.stop) ?_
  rintro missing ⟨x, c'⟩ hx
  refine ends_onBuild (R := fun _ y => Within o running ⟨y, c'⟩) (F := fun _ y => Within o running ⟨y, c'⟩) ?_
    (fun need y hy => ⟨hy, ?_⟩) fun _ _ hy => hy.stop
  · refine Ends.bind (stays_foldlM (fun m _ hashes y hy => ?_) hx) fun hashes y hy => ?_
    · unfold takeInline
      split_ifs
      · exact Ends.bind (Within.kept.takeManifest store hy m) fun _ _ hz => ends_pure hz.1
      · exact ends_pure hy
    · apply ends_modify_bind
      exact ends_pure (hy.congr rfl rfl rfl rfl rfl)
  · rw [zero_add]
    exact le_trans (asked_le_one need) (Nat.le_add_left 1 _)

variable [DecidableEq B]

variable (h : Within o running ⟨x, c⟩)

include h

theorem Within.dropWait (b : B) (p : P) : Within o running ⟨x.dropWait p, c.dropWait b p⟩ := by
  refine ⟨⟨h.sole.mine.congr rfl rfl rfl, h.sole.claimed, h.sole.others⟩, h.ages.congr rfl rfl rfl, h.limit, h.sent,
    fun q ch hq hor => ?_⟩
  change (x.waits.erase p).lookup q = some ch at hq
  rw [lookup_erase_eq] at hq
  split_ifs at hq
  exact h.own q ch hq hor

theorem Within.claimSettled (hi : p ∉ x.imports) {ch : ℕ}
    (hw : x.waits.lookup p = some ch) {state : ClaimState} (hs : c.settled ch = some state) :
    Charged o running x.resendRounds 0 (claimSettled b p state) ⟨x, c⟩ := by
  unfold Staging.claimSettled
  apply ends_modify_bind
  have hdrop := h.dropWait b p
  split_ifs with hdone
  · exact hdrop.inputArrived
  · have hnot : p ∉ (x.dropWait p).waits := fun hm => (mem_erase.mp hm).1 rfl
    have hclaim := hdrop.claim (b := b) (h.eq_zero_of_settled hw hs hdone) hi fun hm => absurd hm hnot
    refine Ends.bind (hclaim.mono (fun _ _ hl => hl) fun _ _ hl => hl.1.stop) ?_
    rintro mine ⟨y, c'⟩ ⟨hy, -, hr, -⟩
    change y.resendRounds = x.resendRounds at hr
    cases mine with
    | false => exact ends_pure ⟨hy, hr.ge⟩
    | true =>
      refine ends_onBuild ((Within.keptRounds _).need ⟨hy, hr⟩ [p] [] (E := fun _ _ => False)) ?_ fun _ _ hf => hf.elim
      rintro need z ⟨⟨hz, hrz⟩, ha⟩
      refine ⟨hz, ?_⟩
      rw [ha]
      exact hrz.ge

theorem Within.woken (store : Finset H) : Charged o running x.resendRounds 0 (woken store b p) ⟨x, c⟩ := by
  unfold Staging.woken
  apply ends_get_bind
  simp only
  split
  · rename_i result hl
    apply ends_set_bind
    exact h.importFinished store hl
  · rename_i hl
    split
    · exact ends_pure ⟨h, le_rfl⟩
    · rename_i state hs
      obtain ⟨ch, hw, hs⟩ := Option.bind_eq_some_iff.mp hs
      exact h.claimSettled (lookup_eq_none.mp hl) hw hs

omit h

end Within

end Tribuchet.Staging
