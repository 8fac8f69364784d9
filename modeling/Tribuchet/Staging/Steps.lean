import Tribuchet.Staging.Invariant

/-! The worker's session loop keeps the invariant when it takes a hub message: a handler
either lets its build go on or fails for a reason that is no fault of the exchange. -/

set_option linter.unusedSectionVars false

namespace Tribuchet.Staging

open Hoare Runs Function List Option Claims HubMsg

variable {B P H : Type} [DecidableEq B] [DecidableEq P] [DecidableEq H]
variable {cat : Catalog P H} {s : State B P H} {b : B}

/-! ### Handlers -/

variable {x : ActiveBuild P H}

theorem Held.of_eq {w w' : Worker B P H} {o : List P} (h : Held cat w o b x)
    (hv : w'.valid = w.valid) (hc : w'.claims = w.claims) (hw : w'.wakes = w.wakes) : Held cat w' o b x := by
  refine ⟨h.rooted, ?_, ?_, ?_, ?_, ?_⟩
  · rw [hv]
    exact h.kept
  · rw [hv]
    exact h.imported
  · rw [hv, hc]
    exact h.delivered
  · rw [hc, hw]
    exact h.wakes
  · rw [hc, hw]
    exact h.woken

theorem answer_need (s : State B P H) (b : B) (w : Worker B P H) (need : Option (Need P H)) :
    s.answer b (w, need.map .need) =
      { s with worker := w, toHub := update s.toHub b (s.toHub b ++ needMsgs need) } := by
  cases need with
  | none => simp [State.answer, needMsgs]
  | some n => rfl

theorem answer_error (s : State B P H) (b : B) (w : Worker B P H) (e : Error P) :
    s.answer b (w, some (.result e)) = { s with
      worker := w, toHub := update s.toHub b (s.toHub b ++ [.result e])
      workerErrors := s.workerErrors ++ [e] } := rfl

/-- What a handler of build `b` must do, started in a worker that differs from `w₀` at
most in the build itself: on success the build goes on, on failure it can be aborted. -/
structure Handler (cat : Catalog P H) (w₀ w : Worker B P H) (b : B) (o : List P) (r : Relay P H)
    (toWorker : List (HubMsg P H)) (toHub : List (WorkerMsg P H)) (need : Option (Need P H)) (l : Local B P H) : Prop where
  agree : l.claims.Agree (update w₀.active b (some l.build))
  elsewhere : Elsewhere b w₀.active w₀.valid w₀.claims l.claims
  staged : Staged cat { w with claims := l.claims } o b l.build
  link : Link l.build r toWorker (toHub ++ needMsgs need)
  paths : ∀ p ∈ askedPaths need, p ∈ r.offered
  hashes : ∀ hash ∈ askedHashes need, r.knows cat hash

structure Fails (w₀ : Worker B P H) (b : B) (e : Error P) (l : Local B P H) : Prop where
  excused : Excused e
  elsewhere : Elsewhere b w₀.active w₀.valid w₀.claims l.claims
  agree : ∃ y, l.claims.Agree (update w₀.active b (some y)) ∧ l.build.claimed = y.claimed

theorem Inv.handle (h : Inv cat s) {o : List P} {r : Relay P H} (ho : s.offered.lookup b = some o)
    (hr : s.relays b = some r) {w : Worker B P H} (hx : w.active b = some x)
    (hactive : ∀ b', b' ≠ b → w.active b' = s.worker.active b') (hvalid : w.valid = s.worker.valid)
    (hwakes : ∀ b' q, b' ≠ b → w.wakes.count (b', q) = s.worker.wakes.count (b', q)) {tw : List (HubMsg P H)}
    (hgood : RelayGood cat r tw (s.toHub b)) (hassign : ∀ inputs, assignment inputs ∉ tw)
    {m : WorkerM B P H (Option (Need P H))}
    (hm : Ends m ⟨x, w.claims⟩ (Handler cat s.worker w b o r tw (s.toHub b)) (Fails s.worker b)) :
    Inv cat ({ s with toWorker := update s.toWorker b tw }.answer b (w.handle b m)) := by
  have hupdate : ∀ y, update w.active b y = update s.worker.active b y := by
    intro y
    funext b'
    by_cases hb : b' = b
    · subst hb
      simp
    · simp only [update_of_ne hb]
      exact hactive b' hb
  cases hexec : exec m ⟨x, w.claims⟩ with
  | mk res l =>
    cases res with
    | ok need =>
      have hq := hm.ok hexec
      simp only [Worker.handle, hx, hexec, answer_need]
      refine h.setBuild ho hr ?_ hvalid ?_ hwakes hq.elsewhere ?_ ?_ hassign h.workerErrors
      · change l.claims.Agree (update w.active b (some l.build))
        rw [hupdate]
        exact hq.agree
      · intro b' hb
        simp only [update_of_ne hb]
        exact hactive b' hb
      · intro x' hx'
        simp only [update_self, some.injEq] at hx'
        subst hx'
        exact ⟨⟨hq.staged.good, hq.staged.expecting, hq.staged.held.of_eq rfl rfl rfl⟩, hq.link⟩
      · cases need with
        | none => simpa [needMsgs] using hgood
        | some n =>
          refine hgood.push ?_
          rintro _ ⟨⟩
          exact ⟨hq.paths, hq.hashes⟩
    | error e =>
      have hf := hm.error hexec
      obtain ⟨y, hagree, hclaimed⟩ := hf.agree
      simp only [Worker.handle, hx, hexec, answer_error]
      refine h.setBuild ho hr ?_ hvalid ?_ hwakes (hf.elsewhere.trans ((elsewhere_settleAll _).trans elsewhere_dropWaits)) ?_ ?_ hassign ?_
      · change (abort b l).Agree (update w.active b none)
        rw [hupdate]
        exact hagree.abort hclaimed
      · intro b' hb
        simp only [Worker.drop, update_of_ne hb]
        exact hactive b' hb
      · intro x' hx'
        simp [Worker.drop] at hx'
      · refine hgood.push ?_
        rintro _ ⟨⟩
      · intro e' he
        rcases mem_append.mp he with he | he
        · exact h.workerErrors e' he
        · rw [mem_singleton.mp he]
          exact hf.excused

theorem Inv.update_active (h : Inv cat s) (hx : s.worker.active b = some x) :
    s.worker.claims.Agree (update s.worker.active b (some x)) := by
  rw [← hx, update_eq_self]
  exact h.agree

theorem Inv.not_assigned (h : Inv cat s) (hx : s.worker.active b = some x) (inputs : List (Manifest P H)) :
    assignment inputs ∉ s.toWorker b := by
  intro hm
  obtain ⟨o, r, -, -, -, hnone, -⟩ := h.opening b inputs hm
  cases hx.symm.trans hnone

theorem Inv.stop (h : Inv cat s) {e : Error P} (he : Excused e) {tw : List (HubMsg P H)}
    (htw : s.toWorker b = tw ∨ ∃ m, s.toWorker b = m :: tw ∧ ∀ inputs, m ≠ .assignment inputs) :
    Inv cat ({ s with toWorker := update s.toWorker b tw }.answer b (s.worker.stop b e)) := by
  unfold Worker.stop
  cases hx : s.worker.active b with
  | none =>
    have hnone : s.worker.handle b (throw e) = (s.worker, none) := by simp [Worker.handle, hx]
    rw [hnone]
    change Inv cat { s with toWorker := update s.toWorker b tw }
    rcases htw with rfl | ⟨m, hm, hassign⟩
    · rw [update_eq_self]
      exact h
    · exact h.pop hm hx hassign
  | some x =>
    obtain ⟨o, r, ho, hr, hs, hl⟩ := h.builds b x hx
    have hgood := (h.relays b r hr).2
    refine h.handle ho hr hx (fun _ _ => rfl) rfl (fun _ _ _ => rfl) ?_ ?_ (ends_throw ⟨he, .refl, x, h.update_active hx, rfl⟩)
    · rcases htw with rfl | ⟨m, hm, -⟩
      · exact hgood
      · rw [hm] at hgood
        exact hgood.pop
    · intro inputs hi
      apply h.not_assigned hx inputs
      rcases htw with rfl | ⟨m, hm, -⟩
      · exact hi
      · rw [hm]
        exact mem_cons_of_mem _ hi

/-! ### Hub messages -/

section Feed

variable {o : List P} {x x' : ActiveBuild P H} {need : Option (Need P H)}

/-- What a handler does for a message `m` of the hub. -/
structure Fed (cat : Catalog P H) (o : List P) (m : HubMsg P H) (x x' : ActiveBuild P H) (need : Option (Need P H)) :
    Prop where
  good : Good cat o [] x'
  handled : Handled x x'
  expecting : x'.Expecting
  counted : x'.needsOutstanding + (if m.isEof then 1 else 0) = x.needsOutstanding + asked need
  wants : ∀ p, (if x'.wants p then 1 else 0) + (if m.isManifest p then 1 else 0) = if x.wants p then 1 else 0
  recipes : ∀ p ∈ x'.chunks.recipes, p ∈ x.chunks.recipes ∨ m.isManifest p
  paths : askedPaths need = []
  requested : ∀ hash ∈ askedHashes need, ∃ p ∈ x'.chunks.recipes, hash ∈ (cat.recipe p).hashes

theorem Responds.wants {new : List P} (h : Responds cat o new x x' need) (p : P) : x'.wants p ↔ x.wants p ∧ p ∉ new := by
  unfold ActiveBuild.wants
  rw [h.recipes, not_or]
  constructor
  · rintro ⟨h1, h2, h3⟩
    exact ⟨⟨h.handled.pending h1, h2⟩, h3⟩
  · rintro ⟨⟨h1, h2⟩, h3⟩
    refine ⟨?_, h2, h3⟩
    by_contra hgone
    have hl := h.handled.imports p
    rw [if_pos ⟨h1, hgone⟩] at hl
    have hrec := (h.good.imports p (Table.mem_of_lookup hl)).1
    rw [h.recipes] at hrec
    exact hrec.elim h2 h3

theorem Responds.fed (h : Responds cat o [] x x' need) {m : HubMsg P H} (he : m.isEof = false)
    (hm : ∀ p, m.isManifest p = false) : Fed cat o m x x' need := by
  refine ⟨h.good, h.handled, h.expecting, ?_, ?_, ?_, h.paths, h.requested⟩
  · simpa [he] using h.counted
  · intro p
    have := h.wants p
    simp only [not_mem_nil, not_false_eq_true, and_true] at this
    simp [hm, this]
  · intro p hp
    exact .inl (((h.recipes p).mp hp).resolve_right (by simp))

theorem Responds.fed_manifest {p : P} (h : Responds cat o [p] x x' need) (hw : x.wants p) :
    Fed cat o (.manifest (cat.manifest p)) x x' need := by
  refine ⟨h.good, h.handled, h.expecting, h.counted, ?_, ?_, h.paths, h.requested⟩
  · intro q
    have := h.wants q
    rw [mem_singleton] at this
    by_cases hq : q = p
    · subst hq
      simp [this, hw, isManifest, Catalog.manifest]
    · simp [this, hq, Ne.symm hq, isManifest, Catalog.manifest]
  · intro q hq
    refine ((h.recipes q).mp hq).imp_right fun hm => ?_
    exact decide_eq_true (mem_singleton.mp hm).symm

theorem Responds.fed_eof {n : ℕ} (h : Responds cat o [] { x with needsOutstanding := n } x' need)
    (hn : x.needsOutstanding = n + 1) : Fed cat o (.chunk .eof) x x' need := by
  refine ⟨h.good, ⟨h.handled.inputs, h.handled.waits, h.handled.claimed, h.handled.roots, h.handled.pending,
    h.handled.imports⟩, h.expecting, ?_, ?_, ?_, h.paths, h.requested⟩
  · have hc : x'.needsOutstanding = n + asked need := h.counted
    simp only [isEof, if_true]
    omega
  · intro p
    have := h.wants p
    simp only [not_mem_nil, not_false_eq_true, and_true] at this
    exact if_congr this rfl rfl
  · intro p hp
    exact .inl (((h.recipes p).mp hp).resolve_right (by simp))

theorem Inv.feed (h : Inv cat s) (hx : s.worker.active b = some x) (ho : s.offered.lookup b = some o) {m : HubMsg P H}
    {rest : List (HubMsg P H)} (htw : s.toWorker b = m :: rest) {store : Finset H} {f : BuildM P H (Option (Need P H))}
    (hf : Ends f x (fun need x' => Fed cat o m x x' need) fun e x' => Excused e ∧ x'.claimed = x.claimed) :
    Inv cat ({ s with toWorker := update s.toWorker b rest }.answer b
      ({ s.worker with store := store }.handle b (onBuild f))) := by
  obtain ⟨o', r, ho', hr, hs, hl⟩ := h.builds b x hx
  obtain rfl : o = o' := some.inj (ho.symm.trans ho')
  obtain ⟨hro, hgood⟩ := h.relays b r hr
  rw [htw] at hl hgood
  refine h.handle ho hr (w := { s.worker with store := store }) hx (fun _ _ => rfl) rfl (fun _ _ _ => rfl) hgood.pop ?_ ?_
  · intro inputs hi
    apply h.not_assigned hx inputs
    rw [htw]
    exact mem_cons_of_mem _ hi
  · refine ends_onBuild hf ?_ ?_
    · intro need x' hfed
      have hknown : ∀ p ∈ x'.chunks.recipes, p ∈ r.sent := by
        intro p hp
        rcases hfed.recipes p hp with hp | hp
        · exact hl.known p hp
        · cases m with
          | manifest m =>
            obtain ⟨q, hq, rfl⟩ := hgood.manifests m (by simp)
            obtain rfl : q = p := of_decide_eq_true hp
            exact hq
          | _ => cases hp
      refine ⟨(h.update_active hx).congr (fun q => by rw [hfed.handled.claimed]) hfed.handled.waits, .refl,
        ⟨hfed.good, hfed.expecting, ?_⟩, ?_, ?_, ?_⟩
      · exact (hs.held.handled hfed.handled fun p hp => (hs.good.of_pending hp).2.1).of_eq rfl rfl rfl
      · refine hl.advance (y := x') (subset_cons_self ..) ?_ ?_ hknown
        · have := hfed.counted
          rw [countP_cons]
          omega
        · intro p
          have := hfed.wants p
          rw [countP_cons, hfed.paths, count_nil]
          omega
      · rw [hfed.paths]
        simp
      · intro hash hh
        obtain ⟨p, hp, hm⟩ := hfed.requested hash hh
        exact ⟨p, hknown p hp, hm⟩
    · rintro e x' ⟨he, hc⟩
      exact ⟨he, .refl, x, h.update_active hx, hc⟩

theorem Inv.receive (h : Inv cat s) {m : HubMsg P H} {rest : List (HubMsg P H)} (htw : s.toWorker b = m :: rest)
    (hm : ∀ inputs, m ≠ .assignment inputs) (pin : Pinning P) (answer : Finset P) :
    Inv cat ({ s with toWorker := update s.toWorker b rest }.answer b
      (s.worker.receive cat.refs pin answer b m)) := by
  cases hx : s.worker.active b with
  | none =>
    have hdrop : ∀ f, (s.worker.handle b f : Worker B P H × Option (WorkerMsg P H)) = (s.worker, none) := by
      intro f
      simp [Worker.handle, hx]
    have hnone : s.worker.receive cat.refs pin answer b m = (s.worker, none) := by
      cases m with
      | assignment inputs => exact absurd rfl (hm inputs)
      | tmpDir eof => exact hdrop (onBuild (feedTmpDir eof))
      | manifest m => exact hdrop _
      | cancel => exact hdrop (throw .cancelled)
      | chunk frame =>
        cases frame with
        | eof => exact hdrop _
        | data hash =>
          simp only [Worker.receive, hx, isSome_none, Bool.false_eq_true, if_false]
          exact hdrop _
    rw [hnone]
    exact h.pop htw hx hm
  | some x =>
    obtain ⟨o, r, ho, hr, hs, hl⟩ := h.builds b x hx
    have hgood := (h.relays b r hr).2
    have hclosed := (h.offers b o ho).2
    rw [htw] at hl hgood
    cases m with
    | assignment inputs => exact absurd rfl (hm inputs)
    | cancel => exact h.stop (e := .cancelled) trivial (.inr ⟨_, htw, hm⟩)
    | tmpDir eof =>
      refine h.feed hx ho htw ((feedTmpDir_spec hs.good hs.expecting eof _).imp fun need x' hres => ?_)
      exact hres.fed rfl fun _ => rfl
    | manifest m =>
      obtain ⟨p, -, rfl⟩ := hgood.manifests m (by simp)
      -- the manifest on the wire is the one token of a path that is still wanted
      have hw : x.wants p := by
        by_contra hn
        have hreq := hl.requested p
        rw [countP_cons_of_pos (by simp [isManifest, Catalog.manifest]), if_neg hn] at hreq
        omega
      refine h.feed hx ho htw
        ((feedManifest_spec hclosed s.worker.store hs.good hs.expecting hw.1 hw.2).imp fun need x' hres => ?_)
      exact hres.fed_manifest hw
    | chunk frame =>
      cases frame with
      | data hash =>
        simp only [Worker.receive, hx, isSome_some, if_true]
        refine h.feed hx ho htw
          ((feedData_spec hclosed (insert hash s.worker.store) hs.good hs.expecting hash).imp fun need x' hres => ?_)
        exact hres.fed rfl fun _ => rfl
      | eof =>
        -- the eof on the wire is one of the answers that are counted
        obtain ⟨n, hn⟩ : ∃ n, x.needsOutstanding = n + 1 := by
          have hc := hl.counted
          rw [countP_cons_of_pos (by rfl)] at hc
          exact ⟨x.needsOutstanding - 1, by omega⟩
        refine h.feed hx ho htw ((feedEof_spec hclosed s.worker.store hs.good hn).imp fun need x' hres => ?_)
        exact hres.fed_eof hn

end Feed

/-! ### Negotiation -/

theorem countP_of_plain {ms : List (HubMsg P H)} (h : ∀ m ∈ ms, m.isPlain = true) {f : HubMsg P H → Bool}
    (hf : ∀ m, m.isPlain = true → f m = false) : ms.countP f = 0 := by
  rw [countP_eq_zero]
  intro m hm
  simp [hf m (h m hm)]

theorem Negotiated.link {o : List P} {r : Relay P H} {rest : List (HubMsg P H)} {roots answer : Finset P}
    {active : B → Option (ActiveBuild P H)} {c : Claims B P} {first : Option (Need P H)} {l : Local B P H}
    (h : Negotiated cat active b roots answer c o r.sent first l) (hr : RelayGood cat r rest []) (hf : r.firstNeed = true)
    (hq : r.queued = []) (hs : r.serving = none) (hplain : ∀ m ∈ rest, m.isPlain = true) :
    Link l.build r rest (needMsgs first) := by
  obtain ⟨⟨x, missing, hck, hpaths, hres⟩, hsome⟩ := h
  obtain ⟨n, rfl⟩ := isSome_iff_exists.mp hsome
  obtain rfl : n.paths = missing := hpaths
  have hnorec : ∀ p, p ∉ x.chunks.recipes := by
    intro p hp
    rw [hck.chunks] at hp
    cases hp
  have hcomp := hr.early hf
  refine ⟨?_, fun _ => by simp [needMsgs], ?_, ?_, ?_, ?_⟩
  · have heof : rest.countP isEof = 0 :=
      countP_of_plain hplain fun m hm => by cases m <;> first | rfl | cases hm
    have hc : l.build.needsOutstanding = x.needsOutstanding + asked (some n) := hres.counted
    rw [hck.needsOutstanding] at hc
    rw [countP_asks_needMsgs, hq, heof, Relay.serves, hs, hc]
    simp
  · intro p hp
    rcases (hres.recipes p).mp hp with hp | hp
    · exact absurd hp (hnorec p)
    · have := (mem_filter.mp hp).2
      simp only [decide_eq_true_eq] at this
      exact this.1
  · intro p
    have hman : rest.countP (isManifest p) = 0 :=
      countP_of_plain hplain fun m hm => by cases m <;> first | rfl | cases hm
    have hwants : l.build.wants p ↔ p ∈ n.paths ∧ p ∉ r.sent := by
      rw [hres.wants p, ActiveBuild.wants, hck.listed p, mem_filter]
      constructor
      · rintro ⟨⟨h1, -⟩, h2⟩
        refine ⟨h1, fun hi => h2 ⟨hck.good.mem_offered (.inr (.inl h1)), ?_⟩⟩
        simp [hi, h1]
      · rintro ⟨h1, h2⟩
        refine ⟨⟨h1, hnorec p⟩, fun hm => h2 ?_⟩
        have := hm.2
        simp only [decide_eq_true_eq] at this
        exact this.1
    have hcount : (n.paths.filter (· ∉ r.sent)).count p = if p ∈ n.paths ∧ p ∉ r.sent then 1 else 0 := by
      have hnd : (n.paths.filter (· ∉ r.sent)).Nodup := hck.nodup.filter _
      rw [hnd.count]
      simp [mem_filter]
    simp only [Relay.requests, hf, needMsgs, map_some, toList_some, WorkerMsg.paths, flatMap_nil,
      append_nil, hcount, hman, hcomp, Finset.notMem_empty, if_false, hwants, add_zero]
  · intro e he
    simp [needMsgs] at he
  · intro inputs hm
    cases hplain _ hm

theorem Inv.negotiate (h : Inv cat s) {inputs : List (Manifest P H)} {rest : List (HubMsg P H)}
    (htw : s.toWorker b = .assignment inputs :: rest) {pin : Pinning P} {answer : Finset P}
    (hfit : pin.fitsMsg answer s.worker.valid (.assignment inputs : HubMsg P H)) :
    Inv cat ({ s with toWorker := update s.toWorker b rest }.answer b
      (s.worker.receive cat.refs pin answer b (.assignment inputs))) := by
  obtain ⟨o, r, ho, hr, hopen, hnone, hnowake⟩ := h.opening b inputs (by simp [htw])
  obtain ⟨rest', heq, hplain⟩ := hopen.channel
  rw [htw] at heq
  obtain ⟨hin, rfl⟩ := cons.inj heq
  obtain rfl : inputs = o.map (cat.offer r.sent) := assignment.inj hin
  obtain ⟨hnodup, hclosed⟩ := h.offers b o ho
  obtain ⟨hro, hgood⟩ := h.relays b r hr
  obtain rfl : o = r.offered := some.inj (ho.symm.trans hro)
  rw [htw] at hgood
  have hpaths : (r.offered.map (cat.offer r.sent)).map Manifest.storePath = r.offered := offer_storePath cat r.sent _
  simp only [Pinning.fitsMsg, hpaths] at hfit
  have hassign : s.worker.assign b = { s.worker with active := update s.worker.active b (some .new) } := by
    simp [Worker.assign, hnone]
  unfold Worker.receive
  rw [hassign]
  refine h.handle ho hr (w := { s.worker with active := update s.worker.active b (some .new) })
    (update_self ..) (fun b' hb => update_of_ne hb _ _) rfl (fun _ _ _ => rfl) hgood.pop ?_ ?_
  · intro inputs hi
    cases hplain _ hi
  · refine (negotiate_spec hclosed s.worker.store r.sent cat.refs pin hnodup hnone h.agree).mono ?_ ?_
    · intro first l hneg
      have hlink := hneg.link (hopen.silent ▸ hgood.pop) hopen.firstNeed hopen.queued hopen.serving hplain
      obtain ⟨⟨x, missing, hck, hmissing, hres⟩, hsome⟩ := hneg
      have hheld : Held cat { s.worker with claims := l.claims } r.offered b x := hck.held hfit.2 hfit.1 hnowake
      refine ⟨hck.agree.congr (fun q => by rw [hres.handled.claimed]) hres.handled.waits,
        hck.extends_.elsewhere h.agree fun _ _ => rfl, ⟨hres.good, hres.expecting, ?_⟩, ?_, ?_, ?_⟩
      · exact (hheld.handled hres.handled fun p hp => (hck.good.of_pending hp).2.1).of_eq rfl rfl rfl
      · rw [hopen.silent]
        exact hlink
      · intro p hp
        rw [hmissing, hck.listed] at hp
        exact hck.good.mem_offered (.inr (.inl hp))
      · intro hash hh
        obtain ⟨p, hp, hm⟩ := hres.requested hash hh
        exact ⟨p, hlink.known p hp, hm⟩
    · rintro e l ⟨he, hext, y, hagree, hclaimed⟩
      exact ⟨he, hext.elsewhere h.agree fun _ _ => rfl, y, hagree, hclaimed⟩

end Tribuchet.Staging
