import Tribuchet.Staging.Held
import Tribuchet.Staging.Link

/-! The invariant of the exchange, and how it survives a change to one build, one relay
or the worker as a whole. -/

namespace Tribuchet.Staging

open Hoare Function Option Table HubMsg

variable {B P H : Type} [DecidableEq B] [DecidableEq P] [DecidableEq H]

/-- A message that neither brings nor asks for anything of an input. -/
def HubMsg.isPlain : HubMsg P H → Bool
  | .tmpDir _ | .cancel => true
  | _ => false

/-- A build whose assignment is still on its way: its relay has not gone on. -/
structure Opening (cat : Catalog P H) (offered : List P) (r : Relay P H) (toWorker : List (HubMsg P H))
    (toHub : List (WorkerMsg P H)) : Prop where
  channel : ∃ rest, toWorker = .assignment (offered.map (cat.offer r.sent)) :: rest ∧ ∀ m ∈ rest, m.isPlain = true
  inline : ∀ p ∈ r.sent, p ∈ offered
  firstNeed : r.firstNeed = true
  queued : r.queued = []
  serving : r.serving = none
  silent : toHub = []

structure Inv (cat : Catalog P H) (s : State B P H) : Prop where
  agree : s.worker.claims.Agree s.worker.active
  closed : ∀ p ∈ s.worker.valid, ∀ r ∈ cat.refs p, r ∈ s.worker.valid
  offers : ∀ b o, s.offered.lookup b = some o → o.Nodup ∧ ∀ p ∈ o, ∀ r ∈ cat.refs p, r ∈ o
  builds : ∀ b x, s.worker.active b = some x → ∃ o r, s.offered.lookup b = some o ∧ s.relays b = some r ∧
    Staged cat s.worker o b x ∧ Link x r (s.toWorker b) (s.toHub b)
  relays : ∀ b r, s.relays b = some r → s.offered.lookup b = some r.offered ∧
    RelayGood cat r (s.toWorker b) (s.toHub b)
  opening : ∀ b inputs, assignment inputs ∈ s.toWorker b → ∃ o r, s.offered.lookup b = some o ∧
    s.relays b = some r ∧ Opening cat o r (s.toWorker b) (s.toHub b) ∧ s.worker.active b = none ∧
    ∀ p, (b, p) ∉ s.worker.wakes
  fresh : ∀ b, b ∉ s.offered → s.toWorker b = [] ∧ s.toHub b = [] ∧ ∀ p, (b, p) ∉ s.worker.wakes
  workerErrors : ∀ e ∈ s.workerErrors, Excused e
  hubErrors : s.hubErrors = []

theorem inv_initial {cat : Catalog P H} {store : Finset H} {valid : Finset P}
    (h : ∀ p ∈ valid, ∀ r ∈ cat.refs p, r ∈ valid) : Inv cat (State.initial store valid : State B P H) := by
  refine ⟨?_, h, ?_, ?_, ?_, ?_, ?_, ?_, rfl⟩
  · refine ⟨?_, ?_, ?_, ?_, ?_, ?_⟩ <;> simp [State.initial, Claims.empty, owns, waitsOn]
  all_goals simp [State.initial]

variable {cat : Catalog P H} {s : State B P H} {b : B}

variable (h : Inv cat s)

include h

theorem Inv.active_offered {x : ActiveBuild P H} (hx : s.worker.active b = some x) : b ∈ s.offered := by
  obtain ⟨o, r, ho, -⟩ := h.builds b x hx
  exact mem_of_lookup ho

/-! ### A change to one build -/

/-- The worker handled something for build `b`: what the build, the other builds and
its relay need in order to go on. -/
theorem Inv.setBuild {o : List P} {r : Relay P H} (ho : s.offered.lookup b = some o)
    (hr : s.relays b = some r) {w : Worker B P H} {tw : List (HubMsg P H)} {th : List (WorkerMsg P H)}
    {errors : List (Error P)} (hagree : w.claims.Agree w.active) (hvalid : w.valid = s.worker.valid)
    (hactive : ∀ b', b' ≠ b → w.active b' = s.worker.active b')
    (hwakes : ∀ b' q, b' ≠ b → w.wakes.count (b', q) = s.worker.wakes.count (b', q))
    (hclaims : Claims.Elsewhere b s.worker.active s.worker.valid s.worker.claims w.claims)
    (hbuild : ∀ x, w.active b = some x → Staged cat w o b x ∧ Link x r tw th) (hrelay : RelayGood cat r tw th)
    (hassign : ∀ inputs, assignment inputs ∉ tw) (herrors : ∀ e ∈ errors, Excused e) : Inv cat { s with
      worker := w, toWorker := update s.toWorker b tw, toHub := update s.toHub b th,
      workerErrors := errors } := by
  have hnowake : ∀ b', b' ≠ b → (∀ p, (b', p) ∉ s.worker.wakes) → ∀ p, (b', p) ∉ w.wakes := by
    intro b' hb hn p hm
    apply hn p
    rw [← List.count_pos_iff, ← hwakes b' p hb, List.count_pos_iff]
    exact hm
  refine ⟨hagree, ?_, h.offers, ?_, ?_, ?_, ?_, herrors, h.hubErrors⟩
  · change ∀ p ∈ w.valid, ∀ r ∈ cat.refs p, r ∈ w.valid
    rw [hvalid]
    exact h.closed
  · intro b' x hx
    by_cases hb : b' = b
    · subst hb
      obtain ⟨hs, hl⟩ := hbuild x hx
      refine ⟨o, r, ho, hr, hs, ?_⟩
      simpa only [update_self] using hl
    · have hx' : s.worker.active b' = some x := by
        rw [← hactive b' hb]
        exact hx
      obtain ⟨o', r', ho', hr', hs, hl⟩ := h.builds b' x hx'
      refine ⟨o', r', ho', hr', ⟨hs.good, hs.expecting, ?_⟩, ?_⟩
      · exact hs.held.elsewhere hx' hb hvalid (fun q => hwakes b' q hb) hclaims
      · simpa only [update_of_ne hb] using hl
  · intro b' r' hr'
    obtain ⟨h1, h2⟩ := h.relays b' r' hr'
    by_cases hb : b' = b
    · subst hb
      obtain rfl : r = r' := some.inj (hr.symm.trans hr')
      refine ⟨h1, ?_⟩
      simpa only [update_self] using hrelay
    · refine ⟨h1, ?_⟩
      simpa only [update_of_ne hb] using h2
  · intro b' inputs hm
    by_cases hb : b' = b
    · subst hb
      simp only [update_self] at hm
      exact absurd hm (hassign inputs)
    · simp only [update_of_ne hb] at hm ⊢
      obtain ⟨o', r', h1, h2, h3, h4, h5⟩ := h.opening b' inputs hm
      refine ⟨o', r', h1, h2, h3, ?_, hnowake b' hb h5⟩
      rw [hactive b' hb]
      exact h4
  · intro b' hf
    have hb : b' ≠ b := by
      rintro rfl
      exact hf (mem_of_lookup ho)
    obtain ⟨h1, h2, h3⟩ := h.fresh b' hf
    simp only [update_of_ne hb]
    exact ⟨h1, h2, hnowake b' hb h3⟩

theorem Inv.pop {m : HubMsg P H} {rest : List (HubMsg P H)} (hm : s.toWorker b = m :: rest)
    (hx : s.worker.active b = none) (hassign : ∀ inputs, m ≠ .assignment inputs) :
    Inv cat { s with toWorker := update s.toWorker b rest } := by
  refine ⟨h.agree, h.closed, h.offers, ?_, ?_, ?_, ?_, h.workerErrors, h.hubErrors⟩
  · intro b' x hx'
    have hb : b' ≠ b := by
      rintro rfl
      cases hx.symm.trans hx'
    simp only [update_of_ne hb]
    exact h.builds b' x hx'
  · intro b' r hr
    obtain ⟨h1, h2⟩ := h.relays b' r hr
    refine ⟨h1, ?_⟩
    by_cases hb : b' = b
    · subst hb
      rw [hm] at h2
      simpa only [update_self] using h2.pop
    · simpa only [update_of_ne hb] using h2
  · intro b' inputs hi
    by_cases hb : b' = b
    · subst hb
      simp only [update_self] at hi
      obtain ⟨o, r, -, -, hopen, -⟩ := h.opening b' inputs (hm ▸ List.mem_cons_of_mem _ hi)
      obtain ⟨rest', heq, -⟩ := hopen.channel
      rw [hm] at heq
      exact absurd (List.cons.inj heq).1 (hassign _)
    · simp only [update_of_ne hb] at hi ⊢
      exact h.opening b' inputs hi
  · intro b' hf
    have hb : b' ≠ b := by
      rintro rfl
      rw [(h.fresh b' hf).1] at hm
      cases hm
    simp only [update_of_ne hb]
    exact h.fresh b' hf

/-! ### A change to one relay -/

theorem Inv.setRelay {r r' : Relay P H} (hr : s.relays b = some r) {tw : List (HubMsg P H)}
    {th : List (WorkerMsg P H)} (ho : r'.offered = r.offered) (hgood : RelayGood cat r' tw th)
    (hlink : ∀ x, Link x r (s.toWorker b) (s.toHub b) → Link x r' tw th)
    (hopen : ∀ o, Opening cat o r (s.toWorker b) (s.toHub b) → Opening cat o r' tw th)
    (hassign : ∀ inputs, assignment inputs ∈ tw → assignment inputs ∈ s.toWorker b) : Inv cat { s with
      relays := update s.relays b (some r'), toWorker := update s.toWorker b tw,
      toHub := update s.toHub b th } := by
  refine ⟨h.agree, h.closed, h.offers, ?_, ?_, ?_, ?_, h.workerErrors, h.hubErrors⟩
  · intro b' x hx
    obtain ⟨o, r₁, h1, h2, h3, h4⟩ := h.builds b' x hx
    by_cases hb : b' = b
    · subst hb
      obtain rfl : r = r₁ := some.inj (hr.symm.trans h2)
      refine ⟨o, r', h1, ?_, h3, ?_⟩ <;> simp only [update_self]
      exact hlink x h4
    · simp only [update_of_ne hb]
      exact ⟨o, r₁, h1, h2, h3, h4⟩
  · intro b' r₁ hr₁
    by_cases hb : b' = b
    · subst hb
      simp only [update_self, some.injEq] at hr₁ ⊢
      subst hr₁
      rw [ho]
      exact ⟨(h.relays b' r hr).1, hgood⟩
    · simp only [update_of_ne hb] at hr₁ ⊢
      exact h.relays b' r₁ hr₁
  · intro b' inputs hm
    by_cases hb : b' = b
    · subst hb
      simp only [update_self] at hm ⊢
      obtain ⟨o, r₁, h1, h2, h3, h4⟩ := h.opening b' inputs (hassign inputs hm)
      obtain rfl : r = r₁ := some.inj (hr.symm.trans h2)
      exact ⟨o, r', h1, rfl, hopen o h3, h4⟩
    · simp only [update_of_ne hb] at hm ⊢
      exact h.opening b' inputs hm
  · intro b' hf
    have hb : b' ≠ b := by
      rintro rfl
      exact hf (mem_of_lookup ((h.relays b' r hr).1))
    simp only [update_of_ne hb]
    exact h.fresh b' hf

theorem Inv.endRelay {e : Error P} {rest : List (WorkerMsg P H)} (hm : s.toHub b = .result e :: rest) :
    Inv cat { s with relays := update s.relays b none, toHub := update s.toHub b rest } := by
  refine ⟨h.agree, h.closed, h.offers, ?_, ?_, ?_, ?_, h.workerErrors, h.hubErrors⟩
  · intro b' x hx
    obtain ⟨o, r, h1, h2, h3, h4⟩ := h.builds b' x hx
    have hb : b' ≠ b := by
      rintro rfl
      exact h4.staging e (by simp [hm])
    simp only [update_of_ne hb]
    exact ⟨o, r, h1, h2, h3, h4⟩
  · intro b' r hr
    by_cases hb : b' = b
    · subst hb
      simp at hr
    · simp only [update_of_ne hb] at hr ⊢
      exact h.relays b' r hr
  · intro b' inputs hi
    obtain ⟨o, r, h1, h2, h3, h4⟩ := h.opening b' inputs hi
    have hb : b' ≠ b := by
      rintro rfl
      rw [h3.silent] at hm
      cases hm
    simp only [update_of_ne hb]
    exact ⟨o, r, h1, h2, h3, h4⟩
  · intro b' hf
    have hb : b' ≠ b := by
      rintro rfl
      rw [(h.fresh b' hf).2.1] at hm
      cases hm
    simp only [update_of_ne hb]
    exact h.fresh b' hf

/-! ### A change to the worker -/

theorem Inv.setWorker {w : Worker B P H} (hagree : w.claims.Agree w.active)
    (hclosed : ∀ p ∈ w.valid, ∀ r ∈ cat.refs p, r ∈ w.valid)
    (hbuild : ∀ b x', w.active b = some x' → ∃ x, s.worker.active b = some x ∧
      (∀ o, Staged cat s.worker o b x → Staged cat w o b x') ∧ ∀ r tw th, Link x r tw th → Link x' r tw th)
    (hwakes : ∀ b p, (b, p) ∈ w.wakes → (b, p) ∈ s.worker.wakes ∨ ∃ x, s.worker.active b = some x) :
    Inv cat { s with worker := w } := by
  have hidle : ∀ b, s.worker.active b = none → w.active b = none := by
    intro b hb
    cases hw : w.active b with
    | none => rfl
    | some x' =>
      obtain ⟨x, hx, -⟩ := hbuild b x' hw
      cases hb.symm.trans hx
  have hnowake : ∀ b, s.worker.active b = none → (∀ p, (b, p) ∉ s.worker.wakes) → ∀ p, (b, p) ∉ w.wakes := by
    intro b hb hn p hm
    rcases hwakes b p hm with hm | ⟨x, hx⟩
    · exact hn p hm
    · cases hb.symm.trans hx
  refine ⟨hagree, hclosed, h.offers, ?_, h.relays, ?_, ?_, h.workerErrors, h.hubErrors⟩
  · intro b x' hx'
    obtain ⟨x, hx, hs, hl⟩ := hbuild b x' hx'
    obtain ⟨o, r, h1, h2, h3, h4⟩ := h.builds b x hx
    exact ⟨o, r, h1, h2, hs o h3, hl _ _ _ h4⟩
  · intro b inputs hm
    obtain ⟨o, r, h1, h2, h3, h4, h5⟩ := h.opening b inputs hm
    exact ⟨o, r, h1, h2, h3, hidle b h4, hnowake b h4 h5⟩
  · intro b hf
    obtain ⟨h1, h2, h3⟩ := h.fresh b hf
    refine ⟨h1, h2, hnowake b ?_ h3⟩
    cases hx : s.worker.active b with
    | none => rfl
    | some x => exact absurd (h.active_offered hx) hf

omit h

end Tribuchet.Staging
