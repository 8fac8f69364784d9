import Tribuchet.Staging.Pools

/-! How often a build asks for chunks and imports a path, whatever the hub sends and however its
imports end. Beside the worker of `Pools` a ledger for each build counts the `Need`s with hashes
that it sent, the manifests it accepted after its negotiation, and the jobs it handed to its
pool. -/

set_option linter.unusedSectionVars false

namespace Tribuchet.Staging.Resends

open Hoare Runs Pools Function Option

variable {B P H : Type} [DecidableEq P] [DecidableEq H]

/-! ### The ledgers -/

structure Ledger (P : Type) where
  /-- `Need`s with hashes -/
  needs : ℕ
  accepted : ℕ
  dispatched : P → ℕ

def Ledger.zero : Ledger P := ⟨0, 0, fun _ => 0⟩

/-- The entries for a handler. One that fails sends no `Need`. -/
def Ledger.add (led : Ledger P) (pool : Pool P) (accepted : Bool) :
    Except (Error P) (Option (Need P H)) × Local B P H → Ledger P
  | (.ok need, l) => ⟨led.needs + asked need, led.accepted + accepted.toNat,
      fun p => led.dispatched p + if p ∈ pool.fresh l.build then 1 else 0⟩
  | (.error _, l) => ⟨led.needs, led.accepted, fun p => led.dispatched p + if p ∈ pool.fresh l.build then 1 else 0⟩

structure Counted (B P H : Type) where
  worker : Pools.State B P H
  ledgers : B → Ledger P

variable [DecidableEq B]

namespace Counted

def charge (s : Counted B P H) (b : B) (accepts : ActiveBuild P H → Bool) (m : WorkerM B P H (Option (Need P H))) :
    B → Ledger P :=
  match s.worker.active.lookup b with
  | none => s.ledgers
  | some x =>
    update s.ledgers b ((s.ledgers b).add (s.worker.pools b) (accepts x) (exec m ⟨x, s.worker.claims⟩))

def enter (s : Counted B P H) (b : B) : Counted B P H where
  worker := { s.worker with
    active := s.worker.active.insert b .new
    pools := update s.worker.pools b .empty }
  ledgers := update s.ledgers b .zero

def record (s : Counted B P H) : Pools.Action B P H → B → Ledger P
  | .assign b store inputs refs pin answer =>
    (s.enter b).charge b (fun _ => false) (negotiate b refs pin answer store inputs)
  | .manifest b store m => s.charge b (fun x => m.storePath ∈ x.pending) (onBuild (feedManifest store m))
  | .chunk b store frame => s.charge b (fun _ => false) (onBuild (feedChunk store frame))
  | .tmpDir b eof => s.charge b (fun _ => false) (onBuild (feedTmpDir eof))
  | .wake store =>
    match s.worker.wakes with
    | [] => s.ledgers
    | (b, path) :: _ => s.charge b (fun _ => false) (woken store b path)
  | .abandon b => s.charge b (fun _ => false) (throw .cancelled)
  | .launch _ | .fire _ | .take _ | .importDone .. | .settleNext | .stopTask _ | .torn | .disconnect | .drain _
  | .reconnect => s.ledgers

end Counted

/-- The worker of `Pools`, whatever the hub sends. -/
def counted (B P H : Type) [DecidableEq B] [DecidableEq P] [DecidableEq H] (n : ℕ) :
    System (Counted B P H) (Pools.Action B P H) where
  init s := (Pools.system B P H n).init s.worker ∧ s.ledgers = fun _ => .zero
  step s a := (Pools.step n s.worker a).map fun w => ⟨w, s.record a⟩

/-! ### The bounds -/

structure Ledger.Bounded (led : Ledger P) : Prop where
  needs : led.needs ≤ 1 + led.accepted + maxResendRounds
  dispatched : ∀ p, led.dispatched p ≤ 1 + maxResendRounds

structure Account (led : Ledger P) (c : Claims B P) (x : ActiveBuild P H) : Prop where
  limit : x.resendRounds ≤ maxResendRounds
  needs : led.needs ≤ 1 + led.accepted + x.resendRounds
  sent : ∀ p, led.dispatched p + pendingIn x p ≤ 1 + x.resendRounds
  own : ∀ p ch, x.waits.lookup p = some ch → p ∈ x.claimed ∨ led.dispatched p ≠ 0 →
    (c.channels ch).state = .done ∨ p ∈ x.claimed ∧ c.map.lookup p = some ch

structure Inv (s : Counted B P H) : Prop where
  pools : Pools.Inv s.worker
  sound : Sound s.worker.claims
  jobs : ∀ b x p, s.worker.active.lookup b = some x → s.worker.tearing ≠ some b → x.imports.lookup p = some none →
    p ∈ (s.worker.pools b).jobs
  account : ∀ b x, s.worker.active.lookup b = some x → s.worker.tearing ≠ some b →
    Account (s.ledgers b) s.worker.claims x
  bounded : ∀ b, (s.ledgers b).Bounded

section Inv

variable {n : ℕ} {s : Counted B P H} {b : B} {led : Ledger P} {x y : ActiveBuild P H} {c c' : Claims B P} {p : P}

theorem bounded_zero : (Ledger.zero : Ledger P).Bounded := ⟨Nat.zero_le _, fun _ => Nat.zero_le _⟩

theorem account_new (c : Claims B P) : Account .zero c (.new : ActiveBuild P H) where
  limit := Nat.zero_le _
  needs := Nat.zero_le _
  sent p := by simp [Ledger.zero, pendingIn, ActiveBuild.new]
  own _ _ hw := nomatch hw

theorem Account.ages {held : P → Prop} (h : Account led c x) (ha : Ages held c c') (hheld : ∀ p ∈ x.claimed, held p) :
    Account led c' x := by
  refine ⟨h.limit, h.needs, h.sent, fun p ch hw hor => ?_⟩
  rcases h.own p ch hw hor with hdone | ⟨hc, hmap⟩
  · exact .inl (ha.done ch hdone)
  · exact .inr ⟨hc, (ha.held p (hheld p hc)).trans hmap⟩

theorem Account.within (h : Account led c x) {others running : P → Prop} (hc : Sound c)
    (hs : Sole others running ⟨x, c⟩) : Within ⟨others, led.dispatched, x, c⟩ running ⟨x, c⟩ := by
  have hsent (p : P) : Began.sent ⟨others, led.dispatched, x, c⟩ x p = led.dispatched p := by
    unfold Began.sent
    rw [if_neg fun hl => hl.2 hl.1, add_zero]
  refine ⟨hs, .refl hc, h.limit, fun p => ?_, fun p ch hw hor => ?_⟩
  · rw [hsent]
    exact h.sent p
  · rw [hsent] at hor
    exact h.own p ch hw hor

theorem Account.bounded (h : Account led c x) : led.Bounded where
  needs := le_trans h.needs (Nat.add_le_add_left h.limit _)
  dispatched p := le_trans (le_trans (Nat.le_add_right _ _) (h.sent p)) (Nat.add_le_add_left h.limit 1)

section Ended

variable {o : Began B P H} {running : P → Prop} {pool : Pool P} {l : Local B P H}

theorem fresh_le_sent (hd : o.dispatched = led.dispatched)
    (hjobs : ∀ p, o.build.imports.lookup p = some none → p ∈ pool.jobs) (p : P) :
    (led.dispatched p + if p ∈ pool.fresh y then 1 else 0) ≤ o.sent y p := by
  rw [← hd]
  refine Nat.add_le_add_left ?_ _
  split_ifs with hp hs hs
  · exact Nat.le_refl 1
  · obtain ⟨hl, hn⟩ := Pool.mem_fresh.mp hp
    exact absurd ⟨hl, fun hx => hn (hjobs p hx)⟩ hs
  · exact Nat.zero_le 1
  · exact Nat.le_refl 0

theorem Account.ofWithin (h : Within o running l) (hd : o.dispatched = led.dispatched)
    (hjobs : ∀ p, o.build.imports.lookup p = some none → p ∈ pool.jobs) {accepted : Bool} {need : Option (Need P H)}
    {rounds free : ℕ} (hneed : rounds + asked need ≤ l.build.resendRounds + free)
    (hfree : led.needs + free ≤ 1 + led.accepted + accepted.toNat + rounds) :
    Account (led.add pool accepted (.ok need, l)) l.claims l.build := by
  refine ⟨h.limit, ?_, fun p => ?_, fun p ch hw hor => h.own p ch hw (hor.imp_right fun hne => ?_)⟩
  · change led.needs + asked need ≤ 1 + (led.accepted + accepted.toNat) + l.build.resendRounds
    omega
  · exact le_trans (Nat.add_le_add_right (fresh_le_sent hd hjobs p) _) (h.sent p)
  · exact fun hzero => hne (Nat.le_zero.mp (hzero ▸ fresh_le_sent hd hjobs p))

theorem Ledger.Bounded.fail (hled : led.Bounded) (h : Within o running l) (hd : o.dispatched = led.dispatched)
    (hjobs : ∀ p, o.build.imports.lookup p = some none → p ∈ pool.jobs) {accepted : Bool} {e : Error P} :
    (led.add pool accepted (.error e, l)).Bounded := by
  refine ⟨hled.needs, fun p => ?_⟩
  have hsent := h.sent p
  have hlimit := h.limit
  have hfresh := fresh_le_sent (y := l.build) hd hjobs p
  change led.dispatched p + (if p ∈ pool.fresh l.build then 1 else 0) ≤ 1 + maxResendRounds
  omega

end Ended

theorem Inv.handle (h : Inv s) (ht : s.worker.tearing = none) {accepts : ActiveBuild P H → Bool}
    {m : WorkerM B P H (Option (Need P H))} (free : ActiveBuild P H → ℕ)
    (hm : ∀ x (o : Began B P H) running, s.worker.active.lookup b = some x → o.dispatched = (s.ledgers b).dispatched →
      Within o running ⟨x, s.worker.claims⟩ → Charged o running x.resendRounds (free x) m ⟨x, s.worker.claims⟩)
    (hfree : ∀ x, s.worker.active.lookup b = some x →
      (s.ledgers b).needs + free x ≤ 1 + (s.ledgers b).accepted + (accepts x).toNat + x.resendRounds) :
    Inv ⟨s.worker.handle n b m, s.charge b accepts m⟩ := by
  unfold Pools.State.handle Counted.charge
  cases hx : s.worker.active.lookup b with
  | none => exact h
  | some x =>
    have hnot (b' : B) : s.worker.tearing ≠ some b' := by simp [ht]
    have hjobs : ∀ p, x.imports.lookup p = some none → p ∈ (s.worker.pools b).jobs := fun p => h.jobs b x p hx (hnot b)
    have hends := hm x _ _ hx rfl ((h.account b x hx (hnot b)).within h.sound (h.pools.sole ht hx))
    unfold Charged Ends at hends
    simp only
    generalize exec m ⟨x, s.worker.claims⟩ = e at hends ⊢
    obtain ⟨r, l⟩ := e
    have hwithin : Within ⟨fun p => ∃ b', b' ≠ b ∧ Owns s.worker b' p, (s.ledgers b).dispatched, x, s.worker.claims⟩
        (fun _ => False) l := by
      cases r with
      | ok need => exact hends.1.stop
      | error e => exact hends
    refine ⟨h.pools.handled ht hwithin.sole fun hne => ?_, hwithin.ages.sound, fun b' y p hy htear hl => ?_,
      fun b' y hy htear => ?_, fun b' => ?_⟩
    · cases r with
      | ok need => exact hends.1.sole
      | error e => exact absurd rfl hne
    · rcases lookup_insert_cases hy with ⟨rfl, rfl⟩ | ⟨hne, hy⟩
      · simp only [update_self]
        by_cases hold : p ∈ (s.worker.pools b').jobs
        · exact Pool.mem_jobs_send.mpr (.inl hold)
        · exact Pool.mem_jobs_send.mpr (.inr ⟨hl, hold⟩)
      · simp only [update_of_ne hne]
        exact h.jobs b' y p hy (hnot b') hl
    · rcases lookup_insert_cases hy with ⟨rfl, rfl⟩ | ⟨hne, hy⟩
      · cases r with
        | error e => exact absurd rfl htear
        | ok need =>
          simp only [update_self]
          exact .ofWithin hwithin rfl hjobs hends.2 (hfree x hx)
      · simp only [update_of_ne hne]
        exact (h.account b' y hy (hnot b')).ages hwithin.ages fun p hp => ⟨b', hne, y, hy, hp⟩
    · by_cases hb : b' = b
      · subst hb
        simp only [update_self]
        cases r with
        | ok need => exact (Account.ofWithin hwithin rfl hjobs hends.2 (hfree x hx)).bounded
        | error e => exact (h.bounded b').fail hwithin rfl hjobs
      · simp only [update_of_ne hb]
        exact h.bounded b'

variable {w : Pools.State B P H}

/-- A step that is no handler: the builds that go on have their records, and what they claimed is
registered as it was. -/
theorem Inv.quiet (h : Inv s) (hpools : Pools.Inv w) {held : P → Prop}
    (hages : Ages held s.worker.claims w.claims)
    (hactive : ∀ b x, w.active.lookup b = some x → w.tearing ≠ some b → ∃ y imports,
      s.worker.active.lookup b = some y ∧ s.worker.tearing ≠ some b ∧ x = { y with imports := imports } ∧
      (∀ p ∈ y.claimed, held p) ∧ ∀ p, x.imports.lookup p = some none → p ∈ (w.pools b).jobs) :
    Inv ⟨w, s.ledgers⟩ := by
  refine ⟨hpools, hages.sound, fun b x p hx ht hl => ?_, fun b x hx ht => ?_, h.bounded⟩
  · obtain ⟨y, imports, -, -, -, -, hjobs⟩ := hactive b x hx ht
    exact hjobs p hl
  · obtain ⟨y, imports, hy, ht', rfl, hheld, -⟩ := hactive b x hx ht
    have haccount := (h.account b y hy ht').ages hages hheld
    exact ⟨haccount.limit, haccount.needs, haccount.sent, haccount.own⟩

theorem Inv.still (h : Inv s) (hpools : Pools.Inv w) (hmap : w.claims.map = s.worker.claims.map)
    (hchannels : w.claims.channels = s.worker.claims.channels) (hnext : w.claims.next = s.worker.claims.next)
    (hactive : ∀ b x, w.active.lookup b = some x → w.tearing ≠ some b → s.worker.active.lookup b = some x ∧
      s.worker.tearing ≠ some b ∧ ∀ p ∈ (s.worker.pools b).jobs, p ∈ (w.pools b).jobs) : Inv ⟨w, s.ledgers⟩ := by
  have hsame : Ages (fun _ => True) s.worker.claims w.claims := (Ages.refl h.sound).congr hmap hchannels hnext
  refine h.quiet hpools hsame fun b x hx ht => ?_
  obtain ⟨hx', ht', hsub⟩ := hactive b x hx ht
  exact ⟨x, x.imports, hx', ht', rfl, fun _ _ => True.intro, fun p hl => hsub p (h.jobs b x p hx' ht' hl)⟩

theorem Inv.enter (h : Inv s) (hb : b ∉ s.worker.active) : Inv (s.enter b) := by
  refine ⟨h.pools.enter hb, h.sound, fun b' x p hx ht hl => ?_, fun b' x hx ht => ?_, fun b' => ?_⟩
  · rcases lookup_insert_cases hx with ⟨rfl, rfl⟩ | ⟨hne, hx⟩
    · cases hl
    · simp only [Counted.enter, update_of_ne hne]
      exact h.jobs b' x p hx ht hl
  · rcases lookup_insert_cases hx with ⟨rfl, rfl⟩ | ⟨hne, hx⟩
    · simp only [Counted.enter, update_self]
      exact account_new _
    · simp only [Counted.enter, update_of_ne hne]
      exact h.account b' x hx ht
  · by_cases hne : b' = b
    · subst hne
      simp only [Counted.enter, update_self]
      exact bounded_zero
    · simp only [Counted.enter, update_of_ne hne]
      exact h.bounded b'

theorem inv_init (h : (counted B P H n).init s) : Inv s := by
  obtain ⟨worker, ledgers⟩ := s
  obtain ⟨hw, rfl⟩ := h
  refine ⟨Pools.inv_init hw, ?_, ?_, ?_, fun b => bounded_zero⟩
  all_goals cases hw
  · exact sound_empty
  · intro b x p hx
    cases hx
  · intro b x hx
    cases hx

theorem inv_step (h : Inv s) {a : Pools.Action B P H} {s' : Counted B P H} (hs : (counted B P H n).step s a = some s') :
    Inv s' := by
  obtain ⟨w, hw, rfl⟩ := map_eq_some_iff.mp hs
  have hled (x : ActiveBuild P H) (b : B) (hx : s.worker.active.lookup b = some x) (ht : s.worker.tearing = none) :=
    (h.account b x hx (by simp [ht])).needs
  cases a with
  | assign b store inputs refs pin answer =>
    simp only [Pools.step] at hw
    split_ifs at hw with hc
    cases hw
    have henter := h.enter hc.2
    have hnew : (s.enter b).worker.active.lookup b = some .new := AList.lookup_insert _
    have hzero : (s.enter b).ledgers b = .zero := update_self ..
    refine henter.handle hc.1.1 (fun _ => 1) (fun x o running hx hd hwithin => ?_) fun x hx => ?_
    · rw [hnew] at hx
      cases hx
      rw [hzero] at hd
      exact hwithin.negotiate (fun p => congrFun hd p) store refs pin answer inputs
    · rw [hzero]
      exact Nat.le_add_right 1 _
  | manifest b store m =>
    simp only [Pools.step] at hw
    split_ifs at hw with hc
    cases hw
    refine h.handle hc.1 (fun x => (decide (m.storePath ∈ x.pending)).toNat)
      (fun x o running _ _ hwithin => hwithin.feedManifest store m) fun x hx => ?_
    have := hled x b hx hc.1
    omega
  | chunk b store frame =>
    simp only [Pools.step] at hw
    split_ifs at hw with hc
    cases hw
    exact h.handle hc.1 (fun _ => 0) (fun x o running _ _ hwithin => hwithin.feedChunk store frame)
      fun x hx => hled x b hx hc.1
  | tmpDir b eof =>
    simp only [Pools.step] at hw
    split_ifs at hw with hc
    cases hw
    exact h.handle hc.1 (fun _ => 0) (fun x o running _ _ hwithin => hwithin.feedTmpDir eof) fun x hx => hled x b hx hc.1
  | wake store =>
    simp only [Pools.step] at hw
    split at hw
    · cases hw
    · rename_i b path rest hwakes
      split_ifs at hw with hc
      cases hw
      have hrest : Inv (⟨{ s.worker with wakes := rest }, s.ledgers⟩ : Counted B P H) :=
        h.still (h.pools.congr rfl rfl rfl rfl) rfl rfl rfl fun b x hx ht => ⟨hx, ht, fun _ hp => hp⟩
      simp only [Counted.record, hwakes]
      exact hrest.handle hc.1 (fun _ => 0) (fun x o running _ _ hwithin => hwithin.woken store)
        fun x hx => hled x b hx hc.1
  | abandon b =>
    simp only [Pools.step] at hw
    split_ifs at hw with hc
    cases hw
    exact h.handle hc.1 (fun _ => 0) (fun x o running _ _ hwithin => ends_throw hwithin.stop)
      fun x hx => hled x b hx hc.1
  | launch b =>
    simp only [Pools.step] at hw
    split at hw
    · cases hw
    · rename_i x hx
      split_ifs at hw with hc
      cases hw
      have hj : (s.worker.pools b).jobs = [] := by
        refine List.eq_nil_iff_forall_not_mem.mpr fun p hp => ?_
        have hl := (h.pools.mine b x hx (by simp [hc.1.1])).running p hp
        rw [(ActiveBuild.tryComplete_ready.mp hc.2).2.2.1] at hl
        cases hl
      have hpools := h.pools.leave hj (.inl hc.1.1) s.worker.claims rfl
      exact h.still (hpools.congr rfl rfl rfl hc.1.1) rfl rfl rfl fun b' y hy ht => ⟨(lookup_erase_cases hy).2, ht, fun _ hp => hp⟩
  | fire i =>
    simp only [Pools.step] at hw
    split at hw
    · cases hw
    · split_ifs at hw
      cases hw
      exact h.still (h.pools.congr rfl rfl rfl rfl) rfl rfl rfl fun b' y hy ht => ⟨hy, ht, fun _ hp => hp⟩
  | take b =>
    simp only [Pools.step, map_eq_some_iff] at hw
    obtain ⟨pool, hpool, rfl⟩ := hw
    refine h.still (h.pools.setPool (Pool.take_perm hpool).subset ((h.pools.tidy b).take hpool)) rfl rfl rfl
      fun b' y hy ht => ⟨hy, ht, fun p hp => ?_⟩
    by_cases hb : b' = b
    · subst hb
      simp only [update_self]
      exact (Pool.take_perm hpool).mem_iff.mpr hp
    · simp only [update_of_ne hb]
      exact hp
  | importDone b path outcome =>
    simp only [Pools.step] at hw
    split at hw
    · cases hw
    · rename_i x hx
      split_ifs at hw with hp
      cases hw
      have hsame : Ages (fun _ => True) s.worker.claims s.worker.claims := .refl h.sound
      refine h.quiet (h.pools.importDone hx hp outcome _) hsame fun b' y hy ht => ?_
      rcases lookup_insert_cases hy with ⟨rfl, rfl⟩ | ⟨hne, hy⟩
      · refine ⟨x, _, hx, ht, rfl, fun _ _ => True.intro, fun p hl => ?_⟩
        simp only [Table.lookup_insert_eq] at hl
        split_ifs at hl with hpath
        · cases hl
        · simp only [update_self]
          exact Pool.mem_jobs_finish hpath (h.jobs b' x p hx ht hl)
      · refine ⟨y, _, hy, ht, rfl, fun _ _ => True.intro, fun p hl => ?_⟩
        simp only [update_of_ne hne]
        exact h.jobs b' y p hy ht hl
  | settleNext =>
    simp only [Pools.step] at hw
    split at hw
    · cases hw
    · rename_i b ht
      split at hw
      · cases hw
      · rename_i x hx
        split at hw
        · cases hw
        · rename_i p rest hc
          cases hw
          have hages : Ages (· ≠ p) s.worker.claims (s.worker.claims.settle p .failed) :=
            (Ages.refl h.sound).settle (fun hne => hne rfl) .failed
          refine h.quiet (h.pools.settleNext ht hx hc .failed) hages fun b' y hy ht' => ?_
          rcases lookup_insert_cases hy with ⟨rfl, rfl⟩ | ⟨hne, hold⟩
          · exact absurd ht ht'
          · refine ⟨y, _, hold, ht', rfl, ?_, fun q hl => h.jobs b' y q hold ht' hl⟩
            rintro q hq rfl
            exact hne (h.pools.exclusive b' b q ⟨y, hold, hq⟩ ⟨x, hx, hc ▸ List.mem_cons_self⟩)
  | stopTask job =>
    simp only [Pools.step] at hw
    split at hw
    · cases hw
    · rename_i b ht
      split at hw
      · cases hw
      · split_ifs at hw
        obtain ⟨pool, hpool, rfl⟩ := map_eq_some_iff.mp hw
        have hpools := h.pools.setPool (Pool.stopTask_sublist hpool).subset ((h.pools.tidy b).stopTask hpool)
        refine h.still hpools rfl rfl rfl fun b' y hy ht' => ⟨hy, ht', fun p hp => ?_⟩
        simp only [update_of_ne fun heq : b' = b => ht' (heq ▸ ht)]
        exact hp
  | torn =>
    simp only [Pools.step] at hw
    split at hw
    · cases hw
    · rename_i b ht
      split at hw
      · cases hw
      · split_ifs at hw with hc
        cases hw
        have hclosed : Pools.Inv { s.worker with pools := update s.worker.pools b (s.worker.pools b).close } :=
          h.pools.setPool (List.subset_append_right _ _) (h.pools.tidy b).close
        have hnone : (update s.worker.pools b (s.worker.pools b).close b).jobs = [] := by
          rw [update_self]
          exact (h.pools.tidy b).jobs_close hc.2
        refine h.still (hclosed.leave hnone (.inr ht) (s.worker.claims.dropWaits b) rfl) rfl rfl rfl fun b' y hy ht' => ?_
        obtain ⟨hne, hy⟩ := lookup_erase_cases hy
        refine ⟨hy, fun heq => hne (some.inj (heq.symm.trans ht)), fun p hp => ?_⟩
        simp only [update_of_ne hne]
        exact hp
  | drain b =>
    simp only [Pools.step] at hw
    split_ifs at hw with hc
    cases hw
    refine h.still (h.pools.tear hc.2.1 b) rfl rfl rfl fun b' y hy _ => ⟨hy, ?_, fun _ hp => hp⟩
    rw [hc.2.1]
    exact some_ne_none _ ∘ Eq.symm
  | disconnect | reconnect =>
    simp only [Pools.step] at hw
    split_ifs at hw
    cases hw
    exact h.still (h.pools.congr rfl rfl rfl rfl) rfl rfl rfl fun b' y hy ht => ⟨hy, ht, fun _ hp => hp⟩

theorem inv_of_reachable (h : (counted B P H n).Reachable s) : Inv s :=
  System.Reachable.invariant (fun _ => inv_init) (fun _ _ _ hi hs => inv_step hi hs) h

theorem exists_counted (h : (Pools.system B P H n).Reachable w) :
    ∃ ledgers, (counted B P H n).Reachable ⟨w, ledgers⟩ := by
  refine System.Reachable.invariant (I := fun w => ∃ ledgers, (counted B P H n).Reachable ⟨w, ledgers⟩)
    (fun w hw => ⟨fun _ => .zero, System.Reachable.of_init ⟨hw, rfl⟩⟩) (fun w a w' hi hs => ?_) h
  obtain ⟨ledgers, hr⟩ := hi
  exact ⟨_, hr.next (map_eq_some_iff.mpr ⟨w', hs, rfl⟩)⟩

end Inv

/-- A build sends at most one `Need` with hashes for its negotiation, one for each manifest it
accepts and one for each round, and hands each path to its pool at most once more than there are
rounds. The loops that hand them over end in whatever state they are called. -/
theorem resends_bounded {n : ℕ} {s : Counted B P H} (h : (counted B P H n).Reachable s) :
    (∀ b, (s.ledgers b).needs ≤ 1 + (s.ledgers b).accepted + maxResendRounds ∧
      ∀ p, (s.ledgers b).dispatched p ≤ 1 + maxResendRounds) ∧
    ∀ x : ActiveBuild P H, (∀ path, Ends (startChunkImport path) x (fun _ _ => True) fun e _ => e ≠ .outOfFuel) ∧
      Ends retryParked x (fun _ _ => True) fun e _ => e ≠ .outOfFuel := by
  have hinv := inv_of_reachable h
  exact ⟨fun b => ⟨(hinv.bounded b).needs, (hinv.bounded b).dispatched⟩,
    fun x => ⟨startChunkImport_ends x, retryParked_ends x⟩⟩

/-- A hub that answers every `Need` with a bare eof. -/
def bareEofs : List (Pools.Action Bool Unit Unit) :=
  [.assign false ∅ [⟨(), some ⟨[], 1⟩, [()], [1]⟩] (fun _ => []) ⟨none, none⟩ ∅, .chunk false ∅ .eof,
    .chunk false ∅ .eof, .chunk false ∅ .eof, .chunk false ∅ .eof]

theorem resends_bounded_bareEofs : ∃ s, (counted Bool Unit Unit 1).Reachable s ∧
    s.worker.tearing = some false ∧ (s.ledgers false).needs = 1 + maxResendRounds ∧
    (s.ledgers false).needs ≤ 1 + (s.ledgers false).accepted + maxResendRounds := by
  obtain ⟨s, hr, hs⟩ := (counted Bool Unit Unit 1).exists_reachable_of_exec
    ⟨⟨∅, .empty, [], fun _ => .empty, none, false⟩, fun _ => .zero⟩ bareEofs
    (fun s => s.worker.tearing = some false ∧ (s.ledgers false).needs = 1 + maxResendRounds) ⟨rfl, rfl⟩
    (by decide +kernel)
  obtain ⟨htear, hneeds⟩ := hs
  exact ⟨s, hr, htear, hneeds, ((resends_bounded hr).1 false).1⟩

end Tribuchet.Staging.Resends

namespace Tribuchet.Staging.Pools

open Runs

variable {B P H : Type} [DecidableEq B] [DecidableEq P] [DecidableEq H]

/-- No path has two imports queued or running, in one build's pool or in two builds'. -/
theorem one_import_per_path {n : ℕ} {s : State B P H} (h : (system B P H n).Reachable s) :
    (∀ b b' p, p ∈ (s.pools b).jobs → p ∈ (s.pools b').jobs → b = b') ∧ ∀ b, (s.pools b).jobs.Nodup := by
  obtain ⟨ledgers, hr⟩ := Resends.exists_counted h
  have hinv := (Resends.inv_of_reachable hr).pools
  exact ⟨hinv.once, fun b => (hinv.tidy b).nodup⟩

/-- Two builds have one input. The first is given up while it imports it: its claim settles and
wakes the second, which takes the path over when the first one's pool has stopped. -/
def givenUp : List (Action Bool Unit Unit) :=
  let assign b := .assign b ∅ [⟨(), none, [], []⟩] (fun _ => []) ⟨none, none⟩ ∅
  let manifest b := .manifest b {()} ⟨(), some ⟨[], 1⟩, [()], [1]⟩
  [assign false, assign true, manifest false, .take false, .abandon false, .settleNext, .fire 0, .stopTask (some ()), .torn,
    .wake {()}, manifest true, .take true]

theorem one_import_after_teardown : ∃ s, (system Bool Unit Unit 1).Reachable s ∧ () ∈ (s.pools true).jobs ∧
    () ∉ (s.pools false).jobs := by
  obtain ⟨s, hr, hs⟩ := (system Bool Unit Unit 1).exists_reachable_of_exec ⟨∅, .empty, [], fun _ => .empty, none, false⟩
    givenUp (fun s => () ∈ (s.pools true).jobs) rfl (by decide +kernel)
  have htrue := hs
  exact ⟨s, hr, htrue, fun hfalse => nomatch (one_import_per_path hr).1 true false () htrue hfalse⟩

end Tribuchet.Staging.Pools
