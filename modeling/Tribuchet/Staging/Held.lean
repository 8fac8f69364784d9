import Mathlib.Data.Finset.Lattice.Fold
import Mathlib.Logic.Relation
import Tribuchet.Staging.Exchange
import Tribuchet.Staging.Negotiation

/-! What ties a build to the rest of the worker: its temp roots keep its inputs valid, a
path it imported or waited for is valid by the time it hears of it, and exactly one
`Wake` is due for each path it waits on and each import that ended. -/

set_option linter.unusedSectionVars false

namespace Tribuchet.Staging

open Relation List Table AList

variable {B P H : Type} [DecidableEq B] [DecidableEq P]

/-- A `Wake` for the path is queued or will be. -/
@[simp] def ActiveBuild.wakeDue (x : ActiveBuild P H) (p : P) : Prop := p ∈ x.waits ∨ (x.imports.lookup p).join.isSome

instance (x : ActiveBuild P H) (p : P) : Decidable (x.wakeDue p) := inferInstanceAs (Decidable (_ ∨ _))

/-- `p` is in the closure of `r`. -/
def Catalog.reaches (cat : Catalog P H) : P → P → Prop := ReflTransGen fun p r => r ∈ cat.refs p

/-- The references form no cycle but for a path's own: paths can be ranked so that
references come first. -/
def Catalog.Acyclic (cat : Catalog P H) : Prop :=
  ∃ rank : P → ℕ, ∀ p, ∀ r ∈ cat.refs p, r ≠ p → rank r < rank p

structure Held (cat : Catalog P H) (w : Worker B P H) (offered : List P) (b : B) (x : ActiveBuild P H) : Prop where
  rooted : ∀ p ∈ offered, p ∈ x.inputs ∨ p ∈ x.roots
  kept : cat.Acyclic → ∀ p ∈ x.inputs, ∃ r ∈ x.roots, r ∈ w.valid ∧ cat.reaches r p
  imported : ∀ p bad, x.imports.lookup p = some (some ⟨none, bad⟩) → p ∈ w.valid
  delivered : ∀ p ch, x.waits.lookup p = some ch → (w.claims.channels ch).state = .done → p ∈ w.valid
  wakes : ∀ p, w.wakes.count (b, p) + w.claims.watching b p = if x.wakeDue p then 1 else 0
  woken : ∀ p ch, (b, p) ∈ w.wakes → x.waits.lookup p = some ch → (w.claims.channels ch).state ≠ .running

/-! ### The registry as other builds see it -/

/-- What build `b` did to the registry, as seen by builds that wait on claims: a claim
that settled stays so, and one that succeeded stands for a valid path. -/
structure Claims.Elsewhere (b : B) (active : B → Option (ActiveBuild P H)) (valid : Finset P) (c c' : Claims B P) :
    Prop where
  watching : ∀ b' p, b' ≠ b → c'.watching b' p = c.watching b' p
  done : ∀ b' p ch, b' ≠ b → waitsOn active b' p = some ch → (c'.channels ch).state = .done →
    (c.channels ch).state = .done ∨ p ∈ valid
  settled : ∀ b' p ch, b' ≠ b → waitsOn active b' p = some ch → (c.channels ch).state ≠ .running →
    (c'.channels ch).state ≠ .running

section Elsewhere

variable {active : B → Option (ActiveBuild P H)} {valid : Finset P} {b : B} {c c₁ c₂ : Claims B P} {p : P}

open Claims

theorem Claims.Elsewhere.refl : Claims.Elsewhere b active valid c c :=
  ⟨fun _ _ _ => rfl, fun _ _ _ _ _ h => .inl h, fun _ _ _ _ _ h => h⟩

theorem Claims.Elsewhere.trans (h : Claims.Elsewhere b active valid c c₁) (h' : Claims.Elsewhere b active valid c₁ c₂) :
    Elsewhere b active valid c c₂ where
  watching b' p hb := (h'.watching b' p hb).trans (h.watching b' p hb)
  done b' p ch hb hw hd := (h'.done b' p ch hb hw hd).elim (h.done b' p ch hb hw) .inr
  settled b' p ch hb hw hs := h'.settled b' p ch hb hw (h.settled b' p ch hb hw hs)

theorem Claims.Extends.elsewhere (h : Claims.Extends b c c₁) {active' : B → Option (ActiveBuild P H)}
    (ha : c.Agree active') (heq : ∀ b', b' ≠ b → active' b' = active b') : Elsewhere b active valid c c₁ := by
  have hold : ∀ b' p ch, b' ≠ b → waitsOn active b' p = some ch → c₁.channels ch = c.channels ch := by
    intro b' p ch hb hw
    refine h.channels ch (ha.waiting b' p ch ?_).1
    rw [← hw, waitsOn, waitsOn, heq b' hb]
  refine ⟨h.watching, ?_, ?_⟩
  · intro b' p ch hb hw hd
    rw [hold b' p ch hb hw] at hd
    exact .inl hd
  · intro b' p ch hb hw hs
    rw [hold b' p ch hb hw]
    exact hs

theorem Claims.elsewhere_dropWait : Claims.Elsewhere b active valid c (c.dropWait b p) := by
  refine ⟨?_, fun _ _ _ _ _ h => .inl h, fun _ _ _ _ _ h => h⟩
  intro b' q hb
  unfold watching dropWait
  rw [countP_filter]
  refine countP_congr fun w _ => ?_
  simp only [decide_eq_true_eq, Bool.and_eq_true, and_iff_left_iff_imp]
  rintro ⟨rfl, -⟩ ⟨hw, -⟩
  exact hb hw

theorem Claims.elsewhere_dropWaits : Claims.Elsewhere b active valid c (c.dropWaits b) := by
  refine ⟨?_, fun _ _ _ _ _ h => .inl h, fun _ _ _ _ _ h => h⟩
  intro b' q hb
  unfold watching dropWaits
  rw [countP_filter]
  refine countP_congr fun w _ => ?_
  simp only [decide_eq_true_eq, Bool.and_eq_true, and_iff_left_iff_imp]
  rintro ⟨rfl, -⟩
  exact hb

theorem Claims.settle_channels (state : ClaimState) (ch : ℕ) : (c.settle p state).channels ch = c.channels ch ∨
      c.map.lookup p = some ch ∧ (c.settle p state).channels ch = ⟨state, false⟩ := by
  unfold settle
  split
  · exact .inl rfl
  · rename_i ch' hl
    by_cases hch : ch = ch'
    · subst hch
      exact .inr ⟨hl, Function.update_self ..⟩
    · exact .inl (Function.update_of_ne hch _ _)

theorem Claims.settle_settled {state : ClaimState} (hs : state ≠ .running) {ch : ℕ}
    (h : (c.channels ch).state ≠ .running) : ((c.settle p state).channels ch).state ≠ .running := by
  rcases settle_channels (c := c) (p := p) state ch with heq | ⟨-, heq⟩
  · rw [heq]
    exact h
  · rw [heq]
    exact hs

theorem Claims.settle_watching (state : ClaimState) (b : B) (q : P) :
    (c.settle p state).watching b q = c.watching b q := by
  unfold watching settle
  split <;> rfl

theorem Claims.elsewhere_settle_failed : Claims.Elsewhere b active valid c (c.settle p .failed) := by
  refine ⟨fun b' q _ => settle_watching _ b' q, ?_, fun _ _ _ _ _ => settle_settled (by decide)⟩
  intro b' q ch _ _ hd
  rcases settle_channels (c := c) (p := p) .failed ch with h | ⟨-, h⟩
  · exact .inl (h ▸ hd)
  · rw [h] at hd
    cases hd

theorem Claims.elsewhere_settleAll (paths : List P) :
    Elsewhere b active valid c (c.settleAll paths .failed) := by
  induction paths generalizing c with
  | nil => exact .refl
  | cons p paths ih => exact elsewhere_settle_failed.trans ih

theorem Claims.Agree.settle_done (ha : c.Agree active) (hp : p ∈ valid) {b : B} {q : P} {ch : ℕ}
    (hw : waitsOn active b q = some ch) (hd : ((c.settle p .done).channels ch).state = .done) :
    (c.channels ch).state = .done ∨ q ∈ valid := by
  rcases settle_channels (c := c) (p := p) .done ch with h | ⟨hl, -⟩
  · exact .inl (h ▸ hd)
  · rcases (ha.waiting b q ch hw).2 with hm | hn
    · exact .inr (ha.distinct q p ch hm hl ▸ hp)
    · exact absurd (congrArg Watch.state (ha.running p ch hl).2) hn

theorem Claims.elsewhere_settle_done (ha : c.Agree active) (hp : p ∈ valid) :
    Elsewhere b active valid c (c.settle p .done) :=
  ⟨fun b' q _ => settle_watching _ b' q, fun _ _ _ _ hw hd => ha.settle_done hp hw hd,
    fun _ _ _ _ _ => settle_settled (by decide)⟩

end Elsewhere

/-! ### Frames -/

section Frame

variable {cat : Catalog P H} {w w' : Worker B P H} {offered : List P} {b b₀ : B} {x x' : ActiveBuild P H} {p : P}

variable (h : Held cat w offered b x)

include h

theorem Held.elsewhere (hx : w.active b = some x) (hb : b ≠ b₀) (hv : w'.valid = w.valid)
    (hwake : ∀ q, w'.wakes.count (b, q) = w.wakes.count (b, q))
    (hc : Claims.Elsewhere b₀ w.active w.valid w.claims w'.claims) : Held cat w' offered b x := by
  have hw : ∀ q ch, x.waits.lookup q = some ch → waitsOn w.active b q = some ch := by
    intro q ch hl
    simp [waitsOn, hx, hl]
  refine ⟨h.rooted, ?_, ?_, ?_, ?_, ?_⟩
  · rw [hv]
    exact h.kept
  · rw [hv]
    exact h.imported
  · intro q ch hl hd
    rw [hv]
    exact (hc.done b q ch hb (hw q ch hl) hd).elim (h.delivered q ch hl) id
  · intro q
    rw [hwake, hc.watching b q hb]
    exact h.wakes q
  · intro q ch hm hl
    refine hc.settled b q ch hb (hw q ch hl) (h.woken q ch ?_ hl)
    rw [← count_pos_iff, ← hwake, count_pos_iff]
    exact hm

theorem Held.handled (hh : Handled x x') (hd : ∀ p ∈ x.pending, p ∉ x.imports) : Held cat w offered b x' := by
  have hnone : ∀ q, q ∈ x.pending → x.imports.lookup q = none := fun q hq => lookup_eq_none.mpr (hd q hq)
  have hres : ∀ q o, x'.imports.lookup q = some (some o) ↔ x.imports.lookup q = some (some o) := by
    intro q o
    rw [hh.imports q]
    split_ifs with hq
    · simp [hnone q hq.1]
    · rfl
  have hdue : ∀ q, x'.wakeDue q ↔ x.wakeDue q := by
    intro q
    unfold ActiveBuild.wakeDue
    rw [hh.waits, hh.imports q]
    split_ifs with hq
    · simp [hnone q hq.1]
    · rfl
  refine ⟨?_, ?_, ?_, ?_, ?_, ?_⟩
  · rw [hh.inputs, hh.roots]
    exact h.rooted
  · rw [hh.inputs, hh.roots]
    exact h.kept
  · intro q bad hq
    exact h.imported q bad ((hres q _).mp hq)
  · rw [hh.waits]
    exact h.delivered
  · simp only [hdue]
    exact h.wakes
  · rw [hh.waits]
    exact h.woken

/-! ### Own steps -/

theorem Held.congr (hi : x'.inputs = x.inputs) (hr : x'.roots = x.roots)
    (him : x'.imports = x.imports) (hw : x'.waits = x.waits) : Held cat w offered b x' := by
  refine ⟨?_, ?_, ?_, ?_, ?_, ?_⟩
  · rw [hi, hr]
    exact h.rooted
  · rw [hi, hr]
    exact h.kept
  · rw [him]
    exact h.imported
  · rw [hw]
    exact h.delivered
  · have hdue : ∀ q, x'.wakeDue q ↔ x.wakeDue q := fun q => by rw [ActiveBuild.wakeDue, ActiveBuild.wakeDue, hw, him]
    simp only [hdue]
    exact h.wakes
  · rw [hw]
    exact h.woken

theorem Held.setClaims {c : Claims B P} (hwatch : ∀ q, c.watching b q = w.claims.watching b q)
    (hdone : ∀ q ch, x.waits.lookup q = some ch → (c.channels ch).state = .done →
      (w.claims.channels ch).state = .done ∨ q ∈ w.valid)
    (hset : ∀ q ch, x.waits.lookup q = some ch → (w.claims.channels ch).state ≠ .running →
      (c.channels ch).state ≠ .running) : Held cat { w with claims := c } offered b x := by
  refine ⟨h.rooted, h.kept, h.imported, ?_, ?_, ?_⟩
  · intro q ch hl hd
    exact (hdone q ch hl hd).elim (h.delivered q ch hl) id
  · intro q
    rw [← h.wakes q, ← hwatch q]
  · intro q ch hm hl
    exact hset q ch hl (h.woken q ch hm hl)

theorem Held.addInput (hr : p ∈ x.roots) (hv : p ∈ w.valid) : Held cat w offered b (x.addInput p) := by
  refine ⟨?_, ?_, h.imported, h.delivered, h.wakes, h.woken⟩
  · intro q hq
    exact (h.rooted q hq).imp_left (Finset.mem_insert_of_mem ·)
  · intro hac q hq
    rcases Finset.mem_insert.mp hq with rfl | hq
    · exact ⟨q, hr, hv, .refl⟩
    · exact h.kept hac q hq

omit h

variable {rest : List (B × P)}

variable (h : Held cat w offered b x)

include h

theorem Held.dropImport (hw : w.wakes = (b, p) :: rest)
    (hp : (x.imports.lookup p).join.isSome) (hn : p ∉ x.waits) :
    Held cat { w with wakes := rest } offered b (x.dropImport p) := by
  have hlookup : ∀ q, (x.dropImport p).imports.lookup q = if q = p then none else x.imports.lookup q :=
    fun q => lookup_erase_eq ..
  refine ⟨h.rooted, h.kept, ?_, h.delivered, ?_, ?_⟩
  · intro q bad hq
    rw [hlookup] at hq
    split_ifs at hq
    exact h.imported q bad hq
  · intro q
    have hq := h.wakes q
    rw [hw] at hq
    by_cases hqp : q = p
    · subst hqp
      have hdue : ¬ (x.dropImport q).wakeDue q := by simp [hn]
      rw [count_cons_self, if_pos (.inr hp)] at hq
      rw [if_neg hdue]
      change rest.count (b, q) + w.claims.watching b q = 0
      omega
    · have hdue : (x.dropImport p).wakeDue q ↔ x.wakeDue q := by simp [hqp]
      rw [count_cons_of_ne (by simpa using Ne.symm hqp)] at hq
      simp only [hdue]
      exact hq
  · intro q ch hm hl
    exact h.woken q ch (hw ▸ mem_cons_of_mem _ hm) hl

theorem Held.dropWait (hw : w.wakes = (b, p) :: rest) (hp : p ∈ x.waits)
    (hn : p ∉ x.imports) :
    Held cat { w with wakes := rest, claims := w.claims.dropWait b p } offered b (x.dropWait p) := by
  have hlookup : ∀ q, (x.dropWait p).waits.lookup q = if q = p then none else x.waits.lookup q :=
    fun q => lookup_erase_eq ..
  have hwatch : ∀ q, (w.claims.dropWait b p).watching b q = if q = p then 0 else w.claims.watching b q := by
    intro q
    unfold Claims.watching Claims.dropWait
    rw [countP_filter]
    split_ifs with hq
    · subst hq
      simp
    · refine countP_congr fun wt _ => ?_
      simp only [decide_eq_true_eq, Bool.and_eq_true, and_iff_left_iff_imp]
      rintro ⟨-, rfl⟩ ⟨-, hc⟩
      exact hq hc
  refine ⟨h.rooted, h.kept, h.imported, ?_, ?_, ?_⟩
  · intro q ch hl hd
    rw [hlookup] at hl
    split_ifs at hl
    exact h.delivered q ch hl hd
  · intro q
    have hq := h.wakes q
    rw [hw] at hq
    rw [hwatch]
    by_cases hqp : q = p
    · subst hqp
      have hdue : ¬ (x.dropWait q).wakeDue q := by simp [lookup_eq_none.mpr hn]
      rw [count_cons_self, if_pos (.inl hp)] at hq
      rw [if_neg hdue, if_pos rfl]
      change rest.count (b, q) + 0 = 0
      omega
    · have hdue : (x.dropWait p).wakeDue q ↔ x.wakeDue q := by simp [hqp]
      rw [count_cons_of_ne (by simpa using Ne.symm hqp)] at hq
      simp only [hdue, hqp, if_false]
      exact hq
  · intro q ch hm hl
    rw [hlookup] at hl
    split_ifs at hl
    exact h.woken q ch (hw ▸ mem_cons_of_mem _ hm) hl

theorem Held.addWait {c : Claims B P} {ch : ℕ} (hrun : (c.channels ch).state = .running)
    (hold : ∀ q ch, x.waits.lookup q = some ch → c.channels ch = w.claims.channels ch)
    (hwatch : ∀ q, c.watching b q = w.claims.watching b q + if q = p then 1 else 0)
    (hn : p ∉ x.waits) (hi : p ∉ x.imports) : Held cat { w with claims := c } offered b (x.addWait p ch) := by
  have hlookup : ∀ q, (x.addWait p ch).waits.lookup q = if q = p then some ch else x.waits.lookup q :=
    fun q => lookup_insert_eq ..
  have hzero : w.wakes.count (b, p) = 0 := by
    have hp := h.wakes p
    simp only [ActiveBuild.wakeDue, hn, lookup_eq_none.mpr hi, Option.join_none, Option.isSome_none,
      Bool.false_eq_true, or_self, if_false] at hp
    omega
  refine ⟨h.rooted, h.kept, h.imported, ?_, ?_, ?_⟩
  · intro q ch' hl hd
    rw [hlookup] at hl
    split_ifs at hl
    · cases hl
      rw [hrun] at hd
      cases hd
    · rw [hold q ch' hl] at hd
      exact h.delivered q ch' hl hd
  · intro q
    have hq := h.wakes q
    simp only [hwatch]
    by_cases hqp : q = p
    · subst hqp
      have hdue : ¬ x.wakeDue q := by simp [hn, lookup_eq_none.mpr hi]
      have hdue' : (x.addWait q ch).wakeDue q := by simp
      rw [if_neg hdue] at hq
      rw [if_pos hdue', if_pos rfl]
      omega
    · have hdue : (x.addWait p ch).wakeDue q ↔ x.wakeDue q := by simp [hqp]
      simp only [hdue, hqp, if_false]
      exact hq
  · intro q ch' hm hl
    rw [hlookup] at hl
    split_ifs at hl with hqp
    · subst hqp
      exact absurd hm (count_eq_zero.mp hzero)
    · rw [hold q ch' hl]
      exact h.woken q ch' hm hl

omit h

end Frame

variable [DecidableEq H]

structure Staged (cat : Catalog P H) (w : Worker B P H) (offered : List P) (b : B) (x : ActiveBuild P H) : Prop where
  good : Good cat offered [] x
  expecting : x.Expecting
  held : Held cat w offered b x

section Staged

variable {cat : Catalog P H} {w : Worker B P H} {offered : List P} {b : B} {x : ActiveBuild P H}

theorem Staged.setValid (h : Staged cat w offered b x) {valid : Finset P}
    (hv : ∀ p ∈ x.roots, p ∈ w.valid → p ∈ valid) : Staged cat { w with valid := valid } offered b x := by
  have hroot : ∀ q, q ∈ x.imports ∨ q ∈ x.waits → q ∈ x.roots := by
    intro q hq
    rcases hq with hq | hq
    · exact (h.held.rooted q (h.good.mem_offered (.inr (.inr (.inl hq))))).resolve_left (h.good.of_imports hq).1
    · exact (h.held.rooted q (h.good.mem_offered (.inr (.inr (.inr hq))))).resolve_left (h.good.of_waits hq).1
  refine ⟨h.good, h.expecting, h.held.rooted, ?_, ?_, ?_, h.held.wakes, h.held.woken⟩
  · intro hac q hq
    obtain ⟨r, hr, hval, hreach⟩ := h.held.kept hac q hq
    exact ⟨r, hr, hv r hr hval, hreach⟩
  · intro q bad hq
    exact hv q (hroot q (.inl (mem_of_lookup hq))) (h.held.imported q bad hq)
  · intro q ch hq hd
    exact hv q (hroot q (.inr (mem_of_lookup hq))) (h.held.delivered q ch hq hd)

end Staged

/-! ### Temp roots -/

section Pinning

variable {cat : Catalog P H} {pin : Pinning P} {offered : List P} {answer : Finset P} {p : P}

theorem Pinning.rooted_of_not_mem (hf : pin.fits offered answer) (hp : p ∈ offered) (hn : p ∉ answer) :
    p ∈ pin.roots cat.refs offered := by
  unfold Pinning.roots
  split
  · rename_i dbValid hfirst hdb
    simp only [Pinning.fits, hfirst, Pinning.raced, hdb, Option.getD_some, not_exists, not_and, not_not] at hf
    refine mem_filter.mpr ⟨hp, decide_eq_true ?_⟩
    rintro ⟨hd, -⟩
    exact hn (hf p hp hd)
  · exact hp

/-- A valid path is in the closure of a valid one that has a temp root: following
referrers, the rank grows, and it is bounded over the offered paths. -/
theorem Pinning.rooted_closure (hac : cat.Acyclic) (hf : pin.fits offered answer) (hp : p ∈ offered) (ha : p ∈ answer) :
    ∃ r ∈ pin.roots cat.refs offered, r ∈ answer ∧ cat.reaches r p := by
  obtain ⟨rank, hrank⟩ := hac
  unfold Pinning.roots
  split
  · rename_i dbValid hfirst hdb
    simp only [Pinning.fits, hfirst, Pinning.raced, hdb, Option.getD_some, not_exists, not_and, not_not] at hf
    have hbound : ∃ top, ∀ q ∈ offered, rank q ≤ top := by
      refine ⟨offered.toFinset.sup rank, fun q hq => ?_⟩
      exact Finset.le_sup (mem_toFinset.mpr hq)
    obtain ⟨top, htop⟩ := hbound
    generalize hn : top - rank p = n
    induction n using Nat.strong_induction_on generalizing p with
    | _ n ih =>
      by_cases hpin : p ∈ planPins cat.refs dbValid offered
      · exact ⟨p, hpin, ha, .refl⟩
      · have hcover : p ∈ dbValid ∧ ∃ q ∈ offered, q ∈ dbValid ∧ q ≠ p ∧ p ∈ cat.refs q := by
          by_contra hc
          exact hpin (mem_filter.mpr ⟨hp, decide_eq_true hc⟩)
        obtain ⟨-, q, hq, hqd, hne, href⟩ := hcover
        have hlt := hrank q p href hne.symm
        have hle := htop q hq
        obtain ⟨r, hr, hra, hreach⟩ := ih (top - rank q) (by omega) hq (hf q hq hqd) rfl
        exact ⟨r, hr, hra, hreach.tail href⟩
  · exact ⟨p, hp, ha, .refl⟩

end Pinning

section Negotiated

variable {cat : Catalog P H} {w : Worker B P H} {offered missing : List P} {b : B} {l : Local B P H}
variable {pin : Pinning P} {answer : Finset P}

theorem Checked.held (h : Checked cat w.active b (pin.roots cat.refs offered).toFinset answer w.claims offered missing l)
    (hf : pin.fits offered answer) (hv : answer ⊆ w.valid) (hw : ∀ p, (b, p) ∉ w.wakes) :
    Held cat { w with claims := l.claims } offered b l.build := by
  have himports : ∀ p, l.build.imports.lookup p = none := by
    intro p
    rw [h.imports]
    rfl
  refine ⟨?_, ?_, ?_, ?_, ?_, ?_⟩
  · intro p hp
    by_cases ha : p ∈ answer
    · exact .inl ((h.inputs p).mpr ⟨hp, ha⟩)
    · right
      rw [h.roots]
      exact mem_toFinset.mpr (Pinning.rooted_of_not_mem hf hp ha)
  · intro hac p hp
    obtain ⟨hp, ha⟩ := (h.inputs p).mp hp
    obtain ⟨r, hr, hra, hreach⟩ := Pinning.rooted_closure hac hf hp ha
    refine ⟨r, ?_, hv hra, hreach⟩
    rw [h.roots]
    exact mem_toFinset.mpr hr
  · intro p bad hp
    rw [himports] at hp
    cases hp
  · intro p ch hp hd
    change (l.claims.channels ch).state = _ at hd
    rw [(h.waiting p ch hp).2] at hd
    cases hd
  · intro p
    have hzero : w.wakes.count (b, p) = 0 := count_eq_zero.mpr (hw p)
    have hdue : l.build.wakeDue p ↔ p ∈ l.build.waits := by simp [himports]
    simp only [hdue]
    rw [← h.watching p]
    change w.wakes.count (b, p) + l.claims.watching b p = _
    omega
  · intro p ch hm
    exact absurd hm (hw p)

end Negotiated

end Tribuchet.Staging
