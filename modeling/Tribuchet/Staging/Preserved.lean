import Tribuchet.Staging.Steps

/-! Every step of the exchange keeps the invariant: what is left are the `Wake`s, the
tasks of the worker and the steps of the relays. -/

set_option linter.unusedSectionVars false

namespace Tribuchet.Staging

open Hoare Runs Option List Table AList Function Claims Relay
open Finset hiding mem_insert mem_singleton

variable {B P H : Type} [DecidableEq B] [DecidableEq P] [DecidableEq H]
variable {cat : Catalog P H} {s : State B P H} {b : B}

/-! ### Wakes -/

variable {x : ActiveBuild P H}

theorem Handled.wants {o : List P} {x' : ActiveBuild P H} (h : Handled x x') (hg : Good cat o [] x')
    (hr : x'.chunks.recipes = x.chunks.recipes) (q : P) : x'.wants q ↔ x.wants q := by
  unfold ActiveBuild.wants
  rw [hr]
  refine and_congr_left fun hq => ⟨fun hm => h.pending hm, fun hm => ?_⟩
  by_contra hgone
  have hl := h.imports q
  rw [if_pos ⟨hm, hgone⟩] at hl
  exact hq (hr ▸ (hg.imports q (mem_of_lookup hl)).1)

theorem Good.no_recipe {o : List P} (h : Good cat o [] x) {p : P} (hp : p ∉ x.pending)
    (hi : p ∉ x.imports) : p ∉ x.chunks.recipes := by
  intro hm
  obtain ⟨recipe, hrec⟩ := exists_lookup hm
  exact (h.recipes p recipe hrec).2.2.elim hp hi

/-- What a `Wake` leaves behind. -/
def WakeHandled (cat : Catalog P H) (s : State B P H) (b : B) (x : ActiveBuild P H) (r : Relay P H) (p : P)
    (rest : List (B × P)) : Prop :=
  Ends (woken s.worker.store b p) ⟨x, s.worker.claims⟩
    (Handler cat s.worker { s.worker with wakes := rest } b r.offered r (s.toWorker b) (s.toHub b)) (Fails s.worker b)

section Wake

variable {r : Relay P H} {x : ActiveBuild P H} {p : P} {rest : List (B × P)}
variable (h : Inv cat s) (hw : s.worker.wakes = (b, p) :: rest) (hx : s.worker.active b = some x)
variable (ho : s.offered.lookup b = some r.offered) (hs : Staged cat s.worker r.offered b x)
variable (hl : Link x r (s.toWorker b) (s.toHub b))

include h hw hx hs hl

include ho in
theorem Inv.wake_done {ch : ℕ} (hch : x.waits.lookup p = some ch)
    (hstate : (s.worker.claims.channels ch).state = .done) : WakeHandled cat s b x r p rest := by
  have hwait : p ∈ x.waits := mem_of_lookup hch
  obtain ⟨hin, hpend, himp⟩ := hs.good.of_waits hwait
  have hoff := hs.good.mem_offered (.inr (.inr (.inr hwait)))
  have hroot := (hs.held.rooted p hoff).resolve_left hin
  have hvalid := hs.held.delivered p ch hch hstate
  refine (woken_done (h.offers b _ ho).2 s.worker.store hs.good hch (settled_of_done hstate) _).imp ?_
  rintro _ ⟨x', _⟩ ⟨rfl, rfl, hgood, hst⟩
  have hheld := (hs.held.dropWait hw hwait himp).addInput hroot hvalid
  refine ⟨?_, elsewhere_dropWait, ⟨hgood, ?_, ?_⟩, ?_, by simp [askedPaths], by simp [askedHashes]⟩
  · exact ((h.update_active hx).dropWait p).congr (fun q => by rw [hst.handled.claimed]; rfl) hst.handled.waits
  · unfold ActiveBuild.Expecting
    rw [hst.chunks, hst.needsOutstanding]
    exact hs.expecting
  · exact (hheld.handled hst.handled fun q hq => (hs.good.of_pending hq).2.1).of_eq rfl rfl rfl
  · refine hl.quiet hst.needsOutstanding (fun q => ?_) fun q hq => ?_
    · exact hst.handled.wants hgood (congrArg ChunkStaging.recipes hst.chunks) q
    · rw [hst.chunks] at hq
      exact hq

theorem Inv.wake_abandoned {ch : ℕ} (hch : x.waits.lookup p = some ch)
    (hstate : (s.worker.claims.channels ch).state = .failed) : WakeHandled cat s b x r p rest := by
  have hwait : p ∈ x.waits := mem_of_lookup hch
  obtain ⟨hin, hpend, himp⟩ := hs.good.of_waits hwait
  have hoff := hs.good.mem_offered (.inr (.inr (.inr hwait)))
  have hnorec := hs.good.no_recipe hpend himp
  have hheld := hs.held.dropWait hw hwait himp
  have hagree := (h.update_active hx).dropWait p
  refine (woken_abandoned s.worker.store hs.good hch (settled_of_failed hstate) (h.update_active hx) _).imp ?_
  rintro _ ⟨x', c'⟩ ⟨hgood, mine, hcl, rfl⟩
  have helse : Elsewhere b s.worker.active s.worker.valid s.worker.claims c' := by
    refine elsewhere_dropWait.trans (hcl.extends_.elsewhere hagree fun b' hb => ?_)
    rw [update_of_ne hb]
  -- the claims the build still waits on are as they were
  have hold : ∀ q ch', (x.dropWait p).waits.lookup q = some ch' →
      c'.channels ch' = (s.worker.claims.dropWait b p).channels ch' := by
    intro q ch' hq
    refine hcl.extends_.channels ch' (hagree.waiting b q ch' ?_).1
    rw [waitsOn_update, if_pos rfl]
    exact hq
  rcases hcl.build with ⟨hbuild, rfl⟩ | ⟨ch', hbuild, rfl, hrun⟩
  · obtain rfl : x' = (x.dropWait p).addClaim p := hbuild
    refine ⟨hcl.agree, helse, ⟨hgood, hs.expecting, ?_⟩, ?_, ?_, by simp [askedHashes]⟩
    · refine (Held.setClaims hheld ?_ ?_ ?_).congr rfl rfl rfl rfl
      · intro q
        simpa using hcl.watching q
      · intro q ch' hq hd
        rw [hold q ch' hq] at hd
        exact .inl hd
      · intro q ch' hq hset
        rw [hold q ch' hq]
        exact hset
    · refine hl.advance (Subset.refl _) rfl (fun q => ?_) hl.known
      have hwants : ((x.dropWait p).addClaim p).wants q ↔ q = p ∨ x.wants q := by
        unfold ActiveBuild.wants
        constructor
        · rintro ⟨h1, h2⟩
          exact (Finset.mem_insert.mp h1).imp_right fun h1 => ⟨h1, h2⟩
        · rintro (rfl | ⟨h1, h2⟩)
          · exact ⟨mem_insert_self _ _, hnorec⟩
          · exact ⟨mem_insert_of_mem h1, h2⟩
      have hnot : ¬ x.wants p := fun hwp => hpend hwp.1
      by_cases hq : q = p
      · subst hq
        simp only [hwants, true_or, if_true, hnot, if_false, askedPaths, count_singleton_self]
        omega
      · simp [hwants, hq, askedPaths, Ne.symm hq]
    · intro q hq
      rw [mem_singleton.mp hq]
      exact hoff
  · obtain rfl : x' = (x.dropWait p).addWait p ch' := hbuild
    refine ⟨hcl.agree, helse, ⟨hgood, hs.expecting, ?_⟩, ?_, by simp [askedPaths], by simp [askedHashes]⟩
    · refine Held.addWait hheld hrun hold ?_ (by simp) himp
      intro q
      simpa using hcl.watching q
    · exact hl.quiet rfl (fun q => Iff.rfl) fun q hq => hq

include ho in
theorem Inv.wake_imported {bad : List H} (hp : x.imports.lookup p = some (some ⟨none, bad⟩)) :
    WakeHandled cat s b x r p rest := by
  have himp : p ∈ x.imports := mem_of_lookup hp
  obtain ⟨hin, hpend, hwait⟩ := hs.good.of_imports himp
  have hoff := hs.good.mem_offered (.inr (.inr (.inl himp)))
  have hroot := (hs.held.rooted p hoff).resolve_left hin
  have hvalid := hs.held.imported p bad hp
  have hclaimed : p ∈ x.claimed := (hs.good.claimed p).mpr (.inr himp)
  have hagree := (h.update_active hx).settle hclaimed (by decide : ClaimState.done ≠ .running)
  refine (woken_imported (h.offers b _ ho).2 s.worker.store hs.good hp _).imp ?_
  rintro _ ⟨x', _⟩ ⟨rfl, rfl, hgood, hst⟩
  have hwaitsOn : ∀ q ch, x.waits.lookup q = some ch → waitsOn s.worker.active b q = some ch := by
    intro q ch hq
    simp [waitsOn, hx, hq]
  have hheld : Held cat { s.worker with wakes := rest, claims := s.worker.claims.settle p .done } r.offered b
      (((((x.dropImport p).forget p).dropClaim p).addInput p)) := by
    have hsame {w : Worker B P H} (h : Held cat w r.offered b (x.dropImport p)) :
        Held cat w r.offered b (((x.dropImport p).forget p).dropClaim p) := h.congr rfl rfl rfl rfl
    refine Held.addInput (hsame (Held.setClaims (hs.held.dropImport hw (by simp [hp]) hwait) ?_ ?_ ?_)) hroot hvalid
    · intro q
      exact settle_watching ..
    · intro q ch hq hd
      exact h.agree.settle_done hvalid (hwaitsOn q ch hq) hd
    · intro q ch _
      exact settle_settled (by decide)
  refine ⟨?_, elsewhere_settle_done h.agree hvalid, ⟨hgood, ?_, ?_⟩, ?_, by simp [askedPaths],
    by simp [askedHashes]⟩
  · exact hagree.congr (fun q => by rw [hst.handled.claimed]; rfl) hst.handled.waits
  · unfold ActiveBuild.Expecting
    rw [hst.chunks, hst.needsOutstanding]
    exact hs.expecting
  · refine (hheld.handled hst.handled fun q hq hm => ?_).of_eq rfl rfl rfl
    exact (hs.good.of_pending hq).2.1 (mem_erase.mp hm).2
  · have hrec : ∀ q, q ∈ (x.chunks.forgetPath p).recipes ↔ q ≠ p ∧ q ∈ x.chunks.recipes := fun q => mem_erase
    refine hl.quiet hst.needsOutstanding (fun q => ?_) fun q hq => ?_
    · rw [hst.handled.wants hgood (congrArg ChunkStaging.recipes hst.chunks) q]
      refine and_congr_right fun hq => not_congr ?_
      refine (hrec q).trans (and_iff_right ?_)
      rintro rfl
      exact hpend hq
    · rw [hst.chunks] at hq
      exact ((hrec q).mp hq).2

include ho in
theorem Inv.wake_failed {text : String} {bad : List H} (hp : x.imports.lookup p = some (some ⟨some text, bad⟩)) :
    WakeHandled cat s b x r p rest := by
  have himp : p ∈ x.imports := mem_of_lookup hp
  obtain ⟨hin, hpend, hwait⟩ := hs.good.of_imports himp
  have hrec := (hs.good.imports p himp).1
  refine (woken_failed (h.offers b _ ho).2 s.worker.store hs.good hs.expecting hp).mono ?_ ?_
  · rintro need ⟨x', _⟩ ⟨rfl, hres⟩
    have hheld : Held cat { s.worker with wakes := rest } r.offered b ((x.dropImport p).addPending p) :=
      (hs.held.dropImport hw (by simp [hp]) hwait).congr rfl rfl rfl rfl
    have hknown : ∀ q ∈ x'.chunks.recipes, q ∈ r.sent := by
      intro q hq
      exact hl.known q (((hres.recipes q).mp hq).resolve_right (by simp))
    refine ⟨?_, .refl, ⟨hres.good, hres.expecting, ?_⟩, ?_, ?_, ?_⟩
    · exact (h.update_active hx).congr (fun q => by rw [hres.handled.claimed]; rfl) hres.handled.waits
    · refine (hheld.handled hres.handled fun q hq hm => ?_).of_eq rfl rfl rfl
      obtain ⟨hne, hm⟩ := mem_erase.mp hm
      exact (hs.good.of_pending ((Finset.mem_insert.mp hq).resolve_left hne)).2.1 hm
    · refine hl.advance (y := x') (Subset.refl _) ?_ (fun q => ?_) hknown
      · have hc : x'.needsOutstanding = x.needsOutstanding + asked need := hres.counted
        omega
      · have hsame : x'.wants q ↔ x.wants q := by
          rw [hres.wants q]
          unfold ActiveBuild.wants
          constructor
          · rintro ⟨⟨h1, h2⟩, -⟩
            refine ⟨(Finset.mem_insert.mp h1).resolve_left ?_, h2⟩
            rintro rfl
            exact h2 hrec
          · rintro ⟨h1, h2⟩
            exact ⟨⟨mem_insert_of_mem h1, h2⟩, by simp⟩
        rw [hres.paths]
        simp [hsame]
    · rw [hres.paths]
      simp
    · intro hash hh
      obtain ⟨q, hq, hm⟩ := hres.requested hash hh
      exact ⟨q, hknown q hq, hm⟩
  · rintro e ⟨x', _⟩ ⟨he, rfl, hc⟩
    exact ⟨he, .refl, x, h.update_active hx, hc⟩

end Wake

theorem Inv.wake (h : Inv cat s) {p : P} {rest : List (B × P)} (hw : s.worker.wakes = (b, p) :: rest) :
    Inv cat (s.answer b ({ s.worker with wakes := rest }.handle b (woken s.worker.store b p))) := by
  have hother : ∀ b' q, b' ≠ b → rest.count (b', q) = s.worker.wakes.count (b', q) := by
    intro b' q hb
    rw [hw, count_cons_of_ne]
    intro heq
    exact hb (congrArg Prod.fst heq).symm
  cases hx : s.worker.active b with
  | none =>
    have hnone : ({ s.worker with wakes := rest } : Worker B P H).handle b (woken s.worker.store b p) =
        ({ s.worker with wakes := rest }, none) := by simp [Worker.handle, hx]
    rw [hnone]
    refine h.setWorker h.agree h.closed ?_ ?_
    · intro b' x' hx'
      have hb : b' ≠ b := by
        rintro rfl
        cases hx.symm.trans hx'
      refine ⟨x', hx', fun o hst => ⟨hst.good, hst.expecting, ?_⟩, fun _ _ _ hl => hl⟩
      exact hst.held.elsewhere hx' hb rfl (fun q => hother b' q hb) .refl
    · intro b' q hm
      exact .inl (hw ▸ mem_cons_of_mem _ hm)
  | some x =>
    obtain ⟨o, r, ho, hr, hs, hl⟩ := h.builds b x hx
    obtain ⟨hro, hgood⟩ := h.relays b r hr
    obtain rfl : o = r.offered := some.inj (ho.symm.trans hro)
    have hdue : x.wakeDue p := by
      by_contra hn
      have hcount := hs.held.wakes p
      rw [hw, count_cons_self, if_neg hn] at hcount
      omega
    have hspec : WakeHandled cat s b x r p rest := by
      rcases hdue with hwait | hres
      · obtain ⟨ch, hch⟩ := exists_lookup hwait
        cases hstate : (s.worker.claims.channels ch).state with
        | running => exact absurd hstate (hs.held.woken p ch (by simp [hw]) hch)
        | done => exact h.wake_done hw hx ho hs hl hch hstate
        | failed => exact h.wake_abandoned hw hx hs hl hch hstate
      · obtain ⟨outcome, hout⟩ := isSome_iff_exists.mp hres
        have hp := join_eq_some_iff.mp hout
        obtain ⟨error, bad⟩ := outcome
        cases error with
        | none => exact h.wake_imported hw hx ho hs hl hp
        | some text => exact h.wake_failed hw hx ho hs hl hp
    have hstep := h.handle ho hr (w := { s.worker with wakes := rest }) hx (fun _ _ => rfl) rfl
      (fun b' q hb => hother b' q hb) hgood (h.not_assigned hx) hspec
    rw [update_eq_self] at hstep
    exact hstep

/-! ### The tasks of the worker -/

theorem Inv.fire (h : Inv cat s) {i : ℕ} {w : Worker B P H} (hw : s.worker.fire i = some w) :
    Inv cat { s with worker := w } := by
  unfold Worker.fire at hw
  split at hw
  · cases hw
  · rename_i wt hi
    split_ifs at hw with hrun
    cases hw
    obtain ⟨hlt, hget⟩ := List.getElem?_eq_some_iff.mp hi
    have hperm : s.worker.claims.watchers.Perm (wt :: s.worker.claims.watchers.eraseIdx i) := by
      rw [← hget]
      exact (getElem_cons_eraseIdx_perm hlt).symm
    have hwait := h.agree.watchers wt (hperm.mem_iff.mpr (by simp))
    refine h.setWorker ?_ h.closed ?_ ?_
    · refine ⟨h.agree.running, h.agree.distinct, h.agree.owner, h.agree.exclusive, h.agree.waiting, ?_⟩
      intro w hm
      exact h.agree.watchers w (mem_of_mem_eraseIdx hm)
    · intro b x hx
      refine ⟨x, hx, fun o hs => ⟨hs.good, hs.expecting, ?_⟩, fun _ _ _ hl => hl⟩
      refine ⟨hs.held.rooted, hs.held.kept, hs.held.imported, hs.held.delivered, ?_, ?_⟩
      · intro q
        have hq := hs.held.wakes q
        unfold watching at hq ⊢
        rw [hperm.countP_eq, countP_cons] at hq
        rw [count_append, count_singleton]
        simp only [decide_eq_true_eq, beq_iff_eq, Prod.mk.injEq] at hq ⊢
        omega
      · intro q ch hm hq
        rcases mem_append.mp hm with hm | hm
        · exact hs.held.woken q ch hm hq
        · obtain ⟨rfl, rfl⟩ := Prod.mk.injEq .. ▸ mem_singleton.mp hm
          have hch : waitsOn s.worker.active wt.build wt.path = some ch := by
            have hactive : s.worker.active wt.build = some x := hx
            rw [waitsOn, hactive]
            exact hq
          obtain rfl : wt.channel = ch := some.inj (hwait.symm.trans hch)
          exact hrun
    · intro b p hm
      rcases mem_append.mp hm with hm | hm
      · exact .inl hm
      · obtain ⟨rfl, rfl⟩ := Prod.mk.injEq .. ▸ mem_singleton.mp hm
        right
        obtain ⟨x, hx, -⟩ := bind_eq_some_iff.mp hwait
        exact ⟨x, hx⟩

@[simps] def ActiveBuild.setResult (x : ActiveBuild P H) (p : P) (outcome : ImportOutcome H) : ActiveBuild P H :=
  { x with imports := x.imports.insert p (some outcome) }

section Import

variable {o : List P} {x : ActiveBuild P H} {p : P} {outcome : ImportOutcome H} {w : Worker B P H}

theorem Good.setResult (h : Good cat o [] x) (hp : p ∈ x.imports) : Good cat o [] (x.setResult p outcome) := by
  have hmem : ∀ q, q ∈ (x.setResult p outcome).imports ↔ q ∈ x.imports := by
    intro q
    rw [ActiveBuild.setResult_imports, mem_insert]
    exact or_iff_right_of_imp fun hq => hq ▸ hp
  refine ⟨?_, ?_, h.counted, ?_, ?_, h.remaining, h.parked, h.ready, h.taken, h.complete⟩
  · intro q
    rw [← h.placed q]
    simp only [ActiveBuild.places, hmem]
    rfl
  · intro q
    rw [hmem]
    exact h.claimed q
  · intro q recipe hq
    rw [hmem]
    exact h.recipes q recipe hq
  · intro q hq
    exact h.imports q ((hmem q).mp hq)

theorem Held.setResult (h : Held cat w o b x) (hp : x.imports.lookup p = some none) (hwait : p ∉ x.waits)
    (hvalid : outcome.error = none → p ∈ w.valid) :
    Held cat { w with wakes := w.wakes ++ [(b, p)] } o b (x.setResult p outcome) := by
  have hlookup : ∀ q, (x.setResult p outcome).imports.lookup q =
      if q = p then some (some outcome) else x.imports.lookup q := fun q => lookup_insert_eq ..
  refine ⟨h.rooted, h.kept, ?_, h.delivered, ?_, ?_⟩
  · intro q bad hq
    rw [hlookup] at hq
    split_ifs at hq with hqp
    · simp only [some.injEq] at hq
      subst hqp
      exact hvalid (by rw [hq])
    · exact h.imported q bad hq
  · intro q
    have hq := h.wakes q
    rw [count_append, count_singleton]
    by_cases hqp : q = p
    · subst hqp
      have hdue : ¬ x.wakeDue q := by simp [ActiveBuild.wakeDue, hp, hwait]
      have hdue' : (x.setResult q outcome).wakeDue q := by simp [ActiveBuild.wakeDue]
      rw [if_neg hdue] at hq
      rw [if_pos hdue', beq_self_eq_true, if_pos rfl]
      change w.wakes.count (b, q) + 1 + w.claims.watching b q = 1
      omega
    · have hdue : (x.setResult p outcome).wakeDue q ↔ x.wakeDue q := by simp [ActiveBuild.wakeDue, hqp]
      have hne : ((b, p) == (b, q)) = false := by simpa using Ne.symm hqp
      rw [hne]
      simp only [hdue]
      exact hq
  · intro q ch hm hq
    rcases mem_append.mp hm with hm | hm
    · exact h.woken q ch hm hq
    · obtain ⟨-, rfl⟩ := Prod.mk.injEq .. ▸ mem_singleton.mp hm
      exact absurd (lookup_isSome.mp (by simpa using congrArg isSome hq)) hwait

theorem Inv.importDone (h : Inv cat s) (hw : s.worker.importDone cat.refs b p outcome = some w) :
    Inv cat { s with worker := w } := by
  unfold Worker.importDone at hw
  cases hx : s.worker.active b with
  | none => simp [hx] at hw
  | some x =>
    simp only [hx] at hw
    obtain ⟨⟨hrunning, hrefs⟩, hw⟩ := ite_none_right_eq_some.mp hw
    have hp : p ∈ x.imports := mem_of_lookup hrunning
    generalize hval : (if outcome.error = none then insert p s.worker.valid else s.worker.valid) = valid at hw
    obtain rfl := some.inj hw
    have hsub : ∀ q ∈ s.worker.valid, q ∈ valid := by
      intro q hq
      rw [← hval]
      split_ifs
      · exact mem_insert_of_mem hq
      · exact hq
    refine h.setWorker ((h.update_active hx).congr (fun _ => Iff.rfl) rfl) ?_ ?_ ?_
    · change ∀ q ∈ valid, ∀ r ∈ cat.refs q, r ∈ valid
      rw [← hval]
      split_ifs with he
      · intro q hq r hr
        rcases Finset.mem_insert.mp hq with rfl | hq
        · exact Finset.mem_insert.mpr (hrefs he r hr)
        · exact mem_insert_of_mem (h.closed q hq r hr)
      · exact h.closed
    · intro b' x' hx'
      by_cases hb : b' = b
      · subst hb
        simp only [update_self, some.injEq] at hx'
        obtain rfl : x.setResult p outcome = x' := hx'
        refine ⟨x, hx, fun o hs => ⟨hs.good.setResult hp, hs.expecting, ?_⟩, ?_⟩
        · have hnew := (hs.setValid fun q _ hq => hsub q hq).held
          refine (hnew.setResult hrunning (hs.good.of_imports hp).2.2 fun he => ?_).of_eq rfl rfl rfl
          change p ∈ valid
          rw [← hval, if_pos he]
          exact mem_insert_self ..
        · intro r tw th hl
          exact ⟨hl.counted, hl.first, hl.known, hl.requested, hl.staging, hl.assigned⟩
      · simp only [update_of_ne hb] at hx'
        refine ⟨x', hx', fun o hs => ⟨hs.good, hs.expecting, ?_⟩, fun _ _ _ hl => hl⟩
        have hnew := hs.setValid fun q _ hq => hsub q hq
        refine hnew.held.elsewhere (w := { s.worker with valid := valid }) hx' hb rfl (fun q => ?_) .refl
        rw [count_append, count_singleton, if_neg, add_zero]
        simpa using fun hc : b = b' => absurd hc.symm hb
    · intro b' q hm
      rcases mem_append.mp hm with hm | hm
      · exact .inl hm
      · obtain ⟨rfl, -⟩ := Prod.mk.injEq .. ▸ mem_singleton.mp hm
        exact .inr ⟨x, hx⟩

end Import

theorem Inv.launch (h : Inv cat s) (hx : s.worker.active b = some x) (hready : x.tryComplete = .ready) :
    Inv cat { s with worker := { s.worker with active := update s.worker.active b none } } := by
  obtain ⟨-, hpend, himp, hwait⟩ := ActiveBuild.tryComplete_ready.mp hready
  obtain ⟨o, r, ho, hr, hs, hl⟩ := h.builds b x hx
  have hclaimed : ∀ p, p ∉ x.claimed := by
    intro p hp
    rcases (hs.good.claimed p).mp hp with hp | hp
    · simp [hpend] at hp
    · rw [himp] at hp
      cases hp
  refine h.setWorker ?_ h.closed ?_ fun b' q hm => .inl hm
  · have hown : owns (update s.worker.active b none) = owns s.worker.active := by
      funext b' q
      unfold owns
      by_cases hb : b' = b
      · subst hb
        simp [hx, hclaimed]
      · simp [update_of_ne hb]
    have hwaits : waitsOn (update s.worker.active b none) = waitsOn s.worker.active := by
      funext b' q
      unfold waitsOn
      by_cases hb : b' = b
      · subst hb
        simp [hx, hwait]
      · simp [update_of_ne hb]
    unfold Agree
    rw [hown, hwaits]
    exact h.agree
  · intro b' x' hx'
    have hb : b' ≠ b := by
      rintro rfl
      simp at hx'
    simp only [update_of_ne hb] at hx'
    exact ⟨x', hx', fun o hs => ⟨hs.good, hs.expecting, hs.held.of_eq rfl rfl rfl⟩, fun _ _ _ hl => hl⟩

theorem Inv.setStore (h : Inv cat s) (store : Finset H) :
    Inv cat { s with worker := { s.worker with store := store } } := by
  refine h.setWorker h.agree h.closed ?_ fun b q hm => .inl hm
  intro b x hx
  exact ⟨x, hx, fun o hs => ⟨hs.good, hs.expecting, hs.held.of_eq rfl rfl rfl⟩, fun _ _ _ hl => hl⟩

theorem Inv.setValid (h : Inv cat s) {valid : Finset P} (hclosed : ∀ p ∈ valid, ∀ r ∈ cat.refs p, r ∈ valid)
    (hroots : ∀ b x, s.worker.active b = some x → ∀ p ∈ x.roots, p ∈ s.worker.valid → p ∈ valid) :
    Inv cat { s with worker := { s.worker with valid := valid } } := by
  refine h.setWorker h.agree hclosed ?_ fun b q hm => .inl hm
  intro b x hx
  exact ⟨x, hx, fun o hs => hs.setValid (hroots b x hx), fun _ _ _ hl => hl⟩

/-! ### The relays -/

theorem unfinished_of_plain {ms : List (HubMsg P H)} (h : ∀ m ∈ ms, m.isPlain = true) (o : Bool) :
    unfinished o ms = o := by
  induction ms with
  | nil => rfl
  | cons m ms ih =>
    have hm := h m (by simp)
    have hms := ih fun m hm => h m (mem_cons_of_mem _ hm)
    cases m with
    | tmpDir eof => exact hms
    | cancel => exact hms
    | _ => cases hm

theorem Inv.dispatch (h : Inv cat s) {offered inline : List P} (tmpChunks : ℕ) (hb : b ∉ s.offered)
    (hnodup : offered.Nodup) (hclosed : ∀ p ∈ offered, ∀ r ∈ cat.refs p, r ∈ offered)
    (hinline : ∀ p ∈ inline, p ∈ offered) :
    Inv cat { (s.setRelay b (some (.new offered inline))).sendWorker b (Staging.opening cat offered inline tmpChunks) with
      offered := s.offered.insert b offered } := by
  obtain ⟨htw, hth, hwakes⟩ := h.fresh b hb
  have hidle : s.worker.active b = none := by
    cases hx : s.worker.active b with
    | none => rfl
    | some x => exact absurd (h.active_offered hx) hb
  have hlookup : ∀ b', (s.offered.insert b offered).lookup b' = if b' = b then some offered else s.offered.lookup b' :=
    fun b' => lookup_insert_eq ..
  obtain ⟨rest, hopen, hplain⟩ : ∃ rest, Staging.opening cat offered inline tmpChunks =
      .assignment (offered.map (cat.offer inline)) :: rest ∧ ∀ m ∈ rest, m.isPlain = true := by
    refine ⟨replicate tmpChunks (.tmpDir false) ++ [.tmpDir true], rfl, fun m hm => ?_⟩
    rcases mem_append.mp hm with hm | hm
    · rw [eq_of_mem_replicate hm]
      rfl
    · rw [mem_singleton.mp hm]
      rfl
  have hchan : (s.toWorker b ++ Staging.opening cat offered inline tmpChunks) =
      .assignment (offered.map (cat.offer inline)) :: rest := by rw [htw, hopen, nil_append]
  unfold State.sendWorker State.setRelay
  simp only [hchan]
  refine ⟨h.agree, h.closed, ?_, ?_, ?_, ?_, ?_, h.workerErrors, h.hubErrors⟩
  · intro b' o ho
    simp only [hlookup] at ho
    split_ifs at ho
    · cases ho
      exact ⟨hnodup, hclosed⟩
    · exact h.offers b' o ho
  · intro b' x hx
    have hne : b' ≠ b := by
      rintro rfl
      cases hidle.symm.trans hx
    simp only [update_of_ne hne, hlookup, if_neg hne]
    exact h.builds b' x hx
  · intro b' r hr
    by_cases hne : b' = b
    · subst hne
      simp only [update_self, some.injEq] at hr ⊢
      subst hr
      refine ⟨by simp [hlookup, new], ?_⟩
      refine ⟨nodup_nil, by simp [new], fun _ => rfl, ?_, by simp [new], by simp [new], ?_, ?_⟩
      · intro n hn
        rw [hth] at hn
        cases hn
      · intro m hm
        rcases mem_cons.mp hm with hm | hm
        · cases hm
        · cases hplain _ hm
      · intro hu
        rw [unfinished, unfinished_of_plain hplain] at hu
        cases hu
    · simp only [update_of_ne hne, hlookup, if_neg hne] at hr ⊢
      exact h.relays b' r hr
  · intro b' inputs hm
    by_cases hne : b' = b
    · subst hne
      simp only [update_self, hlookup, if_true]
      exact ⟨offered, .new offered inline, rfl, rfl, ⟨⟨rest, rfl, hplain⟩, hinline, rfl, rfl, rfl, hth⟩, hidle, hwakes⟩
    · simp only [update_of_ne hne, hlookup, if_neg hne] at hm ⊢
      exact h.opening b' inputs hm
  · intro b' hf
    obtain ⟨hne, hf⟩ := not_or.mp (mem_insert _ |>.not.mp hf)
    simp only [update_of_ne hne]
    exact h.fresh b' hf

variable {r : Relay P H}

theorem RelayGood.not_opening {o : List P} {tw : List (HubMsg P H)} {th : List (WorkerMsg P H)} {p : P}
    (hg : RelayGood cat r tw th) (hp : p ∈ r.computing) : ¬ Opening cat o r tw th := by
  intro ho
  rw [hg.early ho.firstNeed] at hp
  cases hp

variable (h : Inv cat s)

include h

variable (hr : s.relays b = some r)

include hr

theorem Inv.route {m : WorkerMsg P H} {rest : List (WorkerMsg P H)} (hm : s.toHub b = m :: rest) (cached : P → List H) :
    Inv cat (stepHub cat { s with toHub := update s.toHub b rest } b r cached m) := by
  cases m with
  | result e => exact h.endRelay hm
  | need n =>
    have hgood := (h.relays b r hr).2
    rw [hm] at hgood
    obtain ⟨r', again, heq, hn⟩ := handleNeed_spec cat cached (hgood.needs n (by simp)).1
    simp only [stepHub, heq]
    refine h.setRelay hr hn.offered (hgood.need hn) ?_ ?_ ?_
    · intro x hl
      rw [hm] at hl
      exact hl.need hn
    · intro o ho
      rw [ho.silent] at hm
      cases hm
    · intro inputs hi
      rcases mem_append.mp hi with hi | hi
      · exact hi
      · obtain ⟨m, -, heq⟩ := mem_map.mp hi
        cases heq

theorem Inv.computed {r' : Relay P H} {p : P} (hc : r.computed p = some r') : Inv cat (s.setRelay b (some r')) := by
  have hgood := (h.relays b r hr).2
  have hoff : r'.offered = r.offered := by
    unfold Relay.computed at hc
    split_ifs at hc
    cases hc
    rfl
  have hp : p ∈ r.computing := by
    unfold Relay.computed at hc
    split_ifs at hc with hp
    exact (hgood.computing p).mpr (.inl hp)
  have hstep := h.setRelay hr hoff (hgood.computed hc) (fun x hl => hl.computed hc)
    (fun o ho => absurd ho (hgood.not_opening hp)) fun _ hi => hi
  rw [update_eq_self, update_eq_self] at hstep
  exact hstep

theorem Inv.send {r' : Relay P H} {m : HubMsg P H}
    (hoff : r'.offered = r.offered) (hm : ∀ inputs, m ≠ .assignment inputs)
    (hgood : RelayGood cat r' (s.toWorker b ++ [m]) (s.toHub b))
    (hlink : ∀ x, Link x r (s.toWorker b) (s.toHub b) → Link x r' (s.toWorker b ++ [m]) (s.toHub b))
    (hopen : ∀ o, Opening cat o r (s.toWorker b) (s.toHub b) → Opening cat o r' (s.toWorker b ++ [m]) (s.toHub b)) :
    Inv cat ((s.setRelay b (some r')).sendWorker b [m]) := by
  have hstep := h.setRelay hr hoff hgood hlink hopen fun inputs hi => ?_
  · rw [update_eq_self] at hstep
    exact hstep
  · rcases mem_append.mp hi with hi | hi
    · exact hi
    · exact absurd (mem_singleton.mp hi).symm (hm inputs)

theorem Inv.flush {r' : Relay P H} {m : Manifest P H}
    (hf : r.flush cat = some (r', m)) : Inv cat ((s.setRelay b (some r')).sendWorker b [.manifest m]) := by
  have hgood := (h.relays b r hr).2
  obtain ⟨hoff, p, hp⟩ : r'.offered = r.offered ∧ ∃ p, p ∈ r.computing := by
    unfold Relay.flush at hf
    split at hf
    · cases hf
    · rename_i p unsent hu
      cases hf
      exact ⟨rfl, p, (hgood.computing p).mpr (.inr (by simp [hu]))⟩
  exact h.send hr hoff nofun (hgood.flush hf) (fun x hl => hl.flush hgood hf)
    fun o ho => absurd ho (hgood.not_opening hp)

theorem Inv.serve {cached : P → List H}
    {res : Except (RelayError P) (Relay P H × ChunkFrame H)} (hs : r.serve cat cached = some res) :
    ∃ r' frame, res = .ok (r', frame) ∧ Inv cat ((s.setRelay b (some r')).sendWorker b [.chunk frame]) := by
  obtain ⟨r', frame, rfl, hoff, hgood, hlink⟩ := (h.relays b r hr).2.serve hs
  refine ⟨r', frame, rfl, h.send hr hoff nofun hgood hlink fun o ho => ?_⟩
  rw [Relay.serve, ho.serving] at hs
  cases hs

theorem Inv.cancel : Inv cat ((s.setRelay b (some { r with cancelSent := true })).sendWorker b [.cancel]) := by
  refine h.send hr rfl nofun (h.relays b r hr).2.cancel (fun x hl => hl.cancel) fun o ho => ?_
  obtain ⟨rest, hchan, hplain⟩ := ho.channel
  refine ⟨⟨rest ++ [.cancel], by rw [hchan]; rfl, fun m hm => ?_⟩, ho.inline, ho.firstNeed, ho.queued, ho.serving, ho.silent⟩
  rcases mem_append.mp hm with hm | hm
  · exact hplain m hm
  · rw [mem_singleton.mp hm]
    rfl

omit hr

/-! ### Every step -/

theorem inv_step {a : Action B P H} {s' : State B P H} (hs : step cat s a = some s') : Inv cat s' := by
  cases a with
  | dispatch b offered inline tmpChunks =>
    simp only [step] at hs
    split_ifs at hs with hok
    cases hs
    exact h.dispatch tmpChunks hok.1 hok.2.1 hok.2.2.1 hok.2.2.2
  | recv b pin answer =>
    simp only [step] at hs
    split at hs
    · cases hs
    · rename_i m rest hm
      split_ifs at hs with hfit
      cases hs
      by_cases ha : ∃ inputs, m = .assignment inputs
      · obtain ⟨inputs, rfl⟩ := ha
        exact h.negotiate hm hfit
      · exact h.receive hm (fun inputs hi => ha ⟨inputs, hi⟩) pin answer
  | wake =>
    simp only [step] at hs
    split at hs
    · cases hs
    · rename_i b p rest hw
      cases hs
      exact h.wake hw
  | fire i =>
    obtain ⟨w, hw, rfl⟩ := map_eq_some_iff.mp hs
    exact h.fire hw
  | importDone b path outcome =>
    obtain ⟨w, hw, rfl⟩ := map_eq_some_iff.mp hs
    exact h.importDone hw
  | launch b =>
    simp only [step] at hs
    split at hs
    · cases hs
    · rename_i x hx
      split_ifs at hs with hready
      cases hs
      exact h.launch hx hready
  | fail b text =>
    cases hs
    have hstop := h.stop (b := b) (e := .setupFailed text) trivial (.inl rfl)
    rw [update_eq_self] at hstop
    exact hstop
  | route b cached =>
    simp only [step] at hs
    split at hs
    · rename_i r m rest hr hm
      cases hs
      exact h.route hr hm cached
    · cases hs
  | computed b path =>
    obtain ⟨r', hc, rfl⟩ := map_eq_some_iff.mp hs
    obtain ⟨r, hr, hc⟩ := bind_eq_some_iff.mp hc
    exact h.computed hr hc
  | flush b =>
    obtain ⟨⟨r', m⟩, hf, rfl⟩ := map_eq_some_iff.mp hs
    obtain ⟨r, hr, hf⟩ := bind_eq_some_iff.mp hf
    exact h.flush hr hf
  | serve b cached =>
    obtain ⟨res, hv, rfl⟩ := map_eq_some_iff.mp hs
    obtain ⟨r, hr, hv⟩ := bind_eq_some_iff.mp hv
    obtain ⟨r', frame, rfl, hinv⟩ := h.serve hr hv
    exact hinv
  | cancel b =>
    simp only [step] at hs
    split at hs
    · cases hs
    · rename_i r hr
      split_ifs at hs
      cases hs
      exact h.cancel hr
  | forget hash =>
    cases hs
    exact h.setStore _
  | collect keep =>
    simp only [step] at hs
    split_ifs at hs with hok
    cases hs
    refine h.setValid hok.2.1 fun b x hx p hp hv => hok.2.2 b (h.active_offered hx) p ?_ hv
    simpa [Worker.roots, hx] using hp
  | register path =>
    simp only [step] at hs
    split_ifs at hs with hok
    cases hs
    refine h.setValid ?_ fun b x hx p _ hv => mem_insert_of_mem hv
    intro p hp r hr
    rcases Finset.mem_insert.mp hp with rfl | hp
    · exact Finset.mem_insert.mpr (hok r hr)
    · exact mem_insert_of_mem (h.closed p hp r hr)

omit h

theorem inv_reachable (h : (exchange B cat).Reachable s) : Inv cat s := by
  refine h.invariant (I := Inv cat) ?_ fun s a s' hi hs => inv_step hi hs
  rintro _ ⟨store, valid, hclosed, rfl⟩
  exact inv_initial hclosed

end Tribuchet.Staging
