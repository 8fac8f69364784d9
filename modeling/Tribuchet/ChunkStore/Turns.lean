import Tribuchet.ChunkStore.Tally

/-! The eviction loop of a store none of whose file operations fail, its directory reopened at any
time and with any budget. Every turn completes, no turn makes the store larger, and the loop never
runs out of packs while the store is over its budget. It ends: a turn on the small queue takes a
small pack away for good, a turn on the main queue frees bytes or adds one to the count of unfreed
rounds, and that count is bounded by the length of the main queue. -/

namespace Tribuchet.ChunkStore

open ByteStrings Filesystem Hoare Runs List
open Store hiding sizeOf

variable {d d' : Directory FileName} {s s' : Store} {A : Hash → Option Bytes} {id : ℕ} {q : Queue}

structure Steady (A : Hash → Option Bytes) (s : Store) (d : Directory FileName) : Prop where
  good : Good (fun _ => False) noQueue A s d
  books : Books noPack s d
  filed : Filed s d

/-! ### The pack to retire -/

def Store.smallCount (s : Store) : ℕ := s.small.length + s.activeSmall.toList.length

def Store.Full (s : Store) (i : ℕ) : Prop := s.sealBytes ≤ s.sizeOf i

/-- A pack that a turn of `evict` has taken off its queue; it may have been sealed for that. -/
structure Picked (A : Hash → Option Bytes) (id : ℕ) (q : Queue) (s₀ : Store) (d₀ : Directory FileName) (s : Store)
    (d : Directory FileName) : Prop where
  good : Good (· = id) noQueue A s d
  filed : Filed s d
  bytes : s.queueBytes = s₀.queueBytes
  sealBytes : s.sealBytes = s₀.sealBytes
  budget : s.budget = s₀.budget
  sizes : ∀ i z, s₀.packs.lookup i = some z → s.packs.lookup i = some z
  small : q = .small → s₀.budget / smallFraction < s₀.smallBytes ∧ s₀.smallCount = s.smallCount + 1 ∧ s.main = s₀.main
  main : q = .main → s₀.smallBytes ≤ s₀.budget / smallFraction ∧ s.smallCount = s₀.smallCount ∧
    (s₀.main = [] ∧ s.main = [] ∨ s₀.main = id :: s.main ∧ d = d₀ ∧ s.map = s₀.map ∧ s.pins = s₀.pins)

/-- What a turn of `evict` finds to retire. -/
def Found (A : Hash → Option Bytes) (s₀ : Store) (d₀ : Directory FileName) (v : Option (ℕ × Queue)) (s : Store)
    (d : Directory FileName) : Prop :=
  v.elim (s₀.bytes ≤ s₀.budget ∧ s = s₀ ∧ d = d₀) fun p => s₀.budget < s₀.bytes ∧ Picked A p.1 p.2 s₀ d₀ s d

theorem steady_sealQueue (q : Queue) (h : Steady A s d) : EndsFrom quiet (sealQueue q) s d
    (fun _ s' d' => Steady A s' d' ∧ (s.writer q = none ∧ s' = s ∨ ∃ w, s.writer q = some w ∧ s' = s.sealWriter q w))
    fun _ _ _ => False := by
  refine ((good_sealQueue_unfull q h.good).and ((books_sealQueue q h.books).and
    (filed_sealQueue q h.filed fun w hq => h.good.tidy.active q w hq))).mono ?_ fun _ _ _ hf => hf.1
  rintro _ s' d' ⟨⟨hg, -⟩, ⟨hb, -⟩, hf, hs⟩
  exact ⟨⟨hg, hb, hf⟩, hs⟩

theorem Grown.of_forced {w : PackWriter} (hw : s.packs.lookup w.id = none) (i z : ℕ)
    (hz : s.packs.lookup i = some z) : (s.sealWriter q w).packs.lookup i = some z := by
  rw [packs_sealWriter, Table.lookup_insert_eq, if_neg]
  · exact hz
  · rintro rfl
    rw [hw] at hz
    cases hz

theorem Books.queueBytes_eq_zero (h : Books noPack s d) (hq : s.queue q = []) (hw : s.writer q = none) :
    s.queueBytes q = 0 := by
  rw [h.bytes q, activeLen, hw, hq]
  rfl

theorem found_mainVictim (h : Steady A s d) (hover : s.budget < s.bytes)
    (hshare : s.smallBytes ≤ s.budget / smallFraction) :
    EndsFrom quiet mainVictim s d (Found A s d) fun _ _ _ => False := by
  unfold mainVictim
  refine endsFrom_getStore ?_
  split_ifs with hm
  · refine EndsFrom.bind (steady_sealQueue .main h) ?_
    rintro _ s₁ d₁ ⟨h₁, ⟨hw, -⟩ | ⟨w, hw, rfl⟩⟩
    · -- only unsealed small data would be left, and that is within the budget
      have hzero : s.mainBytes = 0 := h.books.queueBytes_eq_zero (q := .main) hm hw
      have hle : s.budget / smallFraction ≤ s.budget := Nat.div_le_self _ _
      unfold bytes at hover
      omega
    · have hmain : (s.sealWriter .main w).main = [w.id] := by
        change s.main ++ [w.id] = [w.id]
        rw [hm, nil_append]
      unfold popMain
      refine endsFrom_getStore ?_
      rw [hmain]
      refine endsFrom_modifyStore (endsFrom_pure ⟨hover, ?_⟩)
      refine ⟨h₁.good.popFront rfl ⟨rfl, rfl, rfl⟩ (by rw [hmain]; exact perm_middle), h₁.filed.congr rfl rfl,
        ?_, rfl, rfl, Grown.of_forced (h.good.tidy.active .main w hw).1, by simp, fun _ => ⟨hshare, rfl, .inl ⟨hm, rfl⟩⟩⟩
      funext q'
      cases q' <;> rfl
  · unfold popMain
    refine endsFrom_getStore ?_
    obtain ⟨id, rest, hm⟩ := exists_cons_of_ne_nil hm
    rw [hm]
    refine endsFrom_modifyStore (endsFrom_pure ⟨hover, ?_⟩)
    refine ⟨h.good.popFront rfl ⟨rfl, rfl, rfl⟩ (by rw [hm]; exact perm_middle), h.filed.congr rfl rfl,
      ?_, rfl, rfl, fun _ _ hz => hz, by simp, fun _ => ⟨hshare, rfl, .inr ⟨hm, rfl, rfl, rfl⟩⟩⟩
    funext q'
    cases q' <;> rfl

theorem found_smallVictim {s₀ : Store} {d₀ : Directory FileName} {rest : List ℕ} (h : Steady A s d)
    (hm : s.small = id :: rest) (hover : s₀.budget < s₀.bytes) (hshare : s₀.budget / smallFraction < s₀.smallBytes)
    (hb : s.queueBytes = s₀.queueBytes) (hlimits : s.sealBytes = s₀.sealBytes ∧ s.budget = s₀.budget)
    (hsizes : ∀ i z, s₀.packs.lookup i = some z → s.packs.lookup i = some z)
    (hcount : s₀.smallCount = s.smallCount) (hmain : s.main = s₀.main) :
    EndsFrom quiet smallVictim s d (Found A s₀ d₀) fun _ _ _ => False := by
  unfold smallVictim
  refine endsFrom_getStore ?_
  rw [hm]
  refine endsFrom_modifyStore (endsFrom_pure ⟨hover, ?_⟩)
  refine ⟨h.good.popFront rfl ⟨rfl, rfl, rfl⟩ (by rw [hm]; exact Perm.refl _), h.filed.congr rfl rfl,
    ?_, hlimits.1, hlimits.2, hsizes, fun _ => ⟨hshare, ?_, hmain⟩, by simp⟩
  · rw [← hb]
    funext q'
    cases q' <;> rfl
  · rw [hcount, smallCount, smallCount, hm, length_cons]
    change rest.length + 1 + s.activeSmall.toList.length = rest.length + s.activeSmall.toList.length + 1
    omega

theorem found_victim (h : Steady A s d) : EndsFrom quiet victim s d (Found A s d) fun _ _ _ => False := by
  unfold victim
  refine endsFrom_getStore ?_
  split_ifs with hover hshare hsmall
  · exact endsFrom_pure ⟨hover, rfl, rfl⟩
  · refine EndsFrom.bind (steady_sealQueue .small h) ?_
    rintro _ s₁ d₁ ⟨h₁, ⟨hw, -⟩ | ⟨w, hw, rfl⟩⟩
    · have hzero : s.smallBytes = 0 := h.books.queueBytes_eq_zero (q := .small) hsmall hw
      rw [hzero] at hshare
      exact absurd hshare (Nat.not_lt_zero _)
    · have hm : (s.sealWriter .small w).small = w.id :: [] := by
        change s.small ++ [w.id] = [w.id]
        rw [hsmall, nil_append]
      refine found_smallVictim h₁ hm (by omega) hshare ?_ ⟨rfl, rfl⟩
        (Grown.of_forced (h.good.tidy.active .small w hw).1) ?_ rfl
      · funext q'
        cases q' <;> rfl
      · have hactive : s.activeSmall = some w := hw
        simp [smallCount, sealWriter, setWriter, pushBack, hsmall, hactive]
  · obtain ⟨id, rest, hm⟩ := exists_cons_of_ne_nil hsmall
    exact found_smallVictim h hm (by omega) hshare rfl ⟨rfl, rfl⟩ (fun _ _ hz => hz) rfl rfl
  · exact found_mainVictim h (by omega) (by omega)

/-! ### A turn -/

theorem steady_retire {rs : List (Hash × Bytes)} (h : Good (· = id) noQueue A s d) (hb : Books (onePack id q) s d)
    (hf : Filed s d) (hs : SealedPack d id rs) : EndsFrom quiet (retire id q) s d (fun _ s' d' => Steady A s' d' ∧
      ∃ copied size, Retired id q (entriesOf 0 rs) copied size s s') (fun _ _ _ => False) := by
  have hbooks : EndsFrom quiet (retire id q) s d (fun _ => Books noPack) (fun _ _ _ => True) := by
    rw [retire_eq]
    exact EndsFrom.bind (copying_copyForward hb) fun promoted _ _ hc =>
      (books_dropPack promoted hc).mono (fun _ _ _ hb => hb) fun _ _ _ _ => trivial
  refine ((good_retire q h).and (hbooks.and (retired_retire h hb hf hs))).mono ?_ fun _ _ _ h => h.1
  rintro _ s' d' ⟨⟨hg, -⟩, hb', hf', hret⟩
  exact ⟨⟨hg, hb', hf'⟩, hret⟩

theorem Retired.total {es : List IndexEntry} {copied size : ℕ} (h : Retired id q es copied size s s') :
    s'.bytes + size = s.bytes + copied := by
  have hs := h.bytes .small
  have hm := h.bytes .main
  unfold Store.bytes
  cases q <;> simp only [queueBytes, reduceCtorEq, if_true, if_false] at hs hm <;> omega

structure SmallTurn (n : ℕ) (s : Store) (next : Option ℕ) (s' : Store) : Prop where
  share : s.budget / smallFraction < s.smallBytes
  count : s.smallCount = s'.smallCount + 1
  main : ∃ new, s'.main = s.main ++ new ∧ ∀ i ∈ new, s'.Full i
  next : next = some n

def Store.AllSurvive (s : Store) (d : Directory FileName) (id : ℕ) : Prop :=
  ∃ idx, d.content (.index id) = some idx ∧ ∀ x ∈ decodeIndex idx, s.Survives id x.hash

/-- A turn on the main queue. Its front pack is retired, or the active one if there is no other. -/
structure MainTurn (n : ℕ) (s : Store) (d : Directory FileName) (next : Option ℕ) (s' : Store) : Prop where
  share : s.smallBytes ≤ s.budget / smallFraction
  smallBytes : s'.smallBytes = s.smallBytes
  count : s'.smallCount = s.smallCount
  main : ∃ rest new, s'.main = rest ++ new ∧ (∀ i ∈ new, s'.Full i) ∧ (s.main = [] ∧ rest = [] ∨
    ∃ id, s.main = id :: rest ∧ s'.packs.lookup id = none ∧ (s'.bytes = s.bytes → s.AllSurvive d id))
  next : next = if s'.bytes < s.bytes then some 0 else if s'.main.length < n + 1 then none else some (n + 1)

structure Turned (n : ℕ) (s : Store) (d : Directory FileName) (next : Option ℕ) (s' : Store) : Prop where
  exceeds : s.budget < s.bytes
  bytes : s'.bytes ≤ s.bytes
  sealBytes : s'.sealBytes = s.sealBytes
  budget : s'.budget = s.budget
  kept : ∀ i ∈ s.main, i ∈ s'.main → s'.sizeOf i = s.sizeOf i
  turn : SmallTurn n s next s' ∨ MainTurn n s d next s'

theorem Picked.turned {n : ℕ} {s₀ s' : Store} {d₀ d' : Directory FileName} {rs : List (Hash × Bytes)}
    {copied size : ℕ} {next : Option ℕ} (hp : Picked A id q s₀ d₀ s d) (hover : s₀.budget < s₀.bytes)
    (h₀ : Steady A s₀ d₀) (h' : Steady A s' d') (hs : SealedPack d id rs)
    (hr : Retired id q (entriesOf 0 rs) copied size s s') (hnext : next = if q = .small then some n
      else if s'.bytes < s.bytes then some 0 else if s'.main.length < n + 1 then none else some (n + 1)) :
    Turned n s₀ d₀ next s' := by
  have hbytes : s.bytes = s₀.bytes := by
    have hsmall := congrFun hp.bytes .small
    have hmain := congrFun hp.bytes .main
    simp only [queueBytes] at hsmall hmain
    rw [Store.bytes, Store.bytes, hsmall, hmain]
  have htotal := hr.total
  have hle := hr.copied_le
  obtain ⟨new, hnew, hfull⟩ := hr.main
  have hfull' : ∀ i ∈ new, s'.Full i := by
    intro i hi
    obtain ⟨z, hz, hle⟩ := hfull i hi
    rw [Store.Full, Store.sizeOf, hz, Option.getD_some, hr.sealBytes]
    exact hle
  refine ⟨hover, by omega, hr.sealBytes.trans hp.sealBytes, hr.budget.trans hp.budget, fun i hi hi' => ?_, ?_⟩
  · obtain ⟨z, hz⟩ := Option.ne_none_iff_exists'.mp (h₀.good.tidy.queued i (.inr (.inl hi)))
    have hne : i ≠ id := by
      rintro rfl
      exact h'.good.tidy.queued i (.inr (.inl hi')) hr.gone
    rw [Store.sizeOf, Store.sizeOf, hz, hr.sizes i z hne (hp.sizes i z hz)]
  · have hcount : s'.smallCount = s.smallCount := by
      rw [smallCount, smallCount, hr.small.1, hr.small.2]
    cases q with
    | small =>
      obtain ⟨hshare, hsmall, hmain⟩ := hp.small rfl
      exact .inl ⟨hshare, by rw [hsmall, hcount], ⟨new, by rw [hnew, hmain], hfull'⟩,
        hnext.trans (if_pos rfl)⟩
    | main =>
      obtain ⟨hshare, hsmall, hmain⟩ := hp.main rfl
      rw [if_neg (by simp), hbytes] at hnext
      refine .inr ⟨hshare, ?_, hcount.trans hsmall, ⟨s.main, new, hnew, hfull', ?_⟩, hnext⟩
      · have hb := hr.bytes .small
        have hb₀ := congrFun hp.bytes .small
        simp only [queueBytes, reduceCtorEq, if_false, add_zero] at hb hb₀
        rw [hb, hb₀]
      · rcases hmain with ⟨h1, h2⟩ | ⟨h1, rfl, hmap, hpins⟩
        · exact .inl ⟨h1, h2⟩
        · refine .inr ⟨id, h1, hr.gone, fun heq => ⟨_, hs.index, ?_⟩⟩
          rw [hs.decodeIndex]
          intro x hx
          obtain ⟨e, he, hpack, hhot⟩ := hr.hot (by omega) x hx
          exact ⟨e, hmap ▸ he, hpack, hpins ▸ hhot⟩

theorem turned_evictTurn (n : ℕ) (h : Steady A s d) : EndsFrom quiet (evictTurn n) s d
    (fun next s' d' => Steady A s' d' ∧ (s.bytes ≤ s.budget ∧ next = none ∧ s' = s ∨ Turned n s d next s'))
    fun _ _ _ => False := by
  rw [evictTurn_eq]
  refine EndsFrom.bind (((found_victim h).and (booksOf_victim h.books)).mono (fun _ _ _ h => h) fun _ _ _ h => h.1) ?_
  rintro v s₁ d₁ ⟨hv, hb⟩
  have hretire : ∀ {id q}, Picked A id q s d s₁ d₁ → Books (onePack id q) s₁ d₁ →
      EndsFrom quiet (retire id q) s₁ d₁ (fun _ s' d' => Steady A s' d' ∧ ∃ rs copied size, SealedPack d₁ id rs ∧
        Retired id q (entriesOf 0 rs) copied size s₁ s') (fun _ _ _ => False) := by
    intro id q hp hb
    obtain ⟨-, rs, hs⟩ := hp.good.tidy.packed id (hp.good.tidy.queued id (.inr (.inr rfl)))
    refine (steady_retire hp.good hb hp.filed hs).mono ?_ fun _ _ _ h => h
    rintro _ s' d' ⟨h', copied, size, hr⟩
    exact ⟨h', rs, copied, size, hs, hr⟩
  cases v with
  | none =>
    obtain ⟨hle, rfl, rfl⟩ := hv
    exact endsFrom_pure ⟨h, .inl ⟨hle, rfl, rfl⟩⟩
  | some p =>
    obtain ⟨id, q⟩ := p
    obtain ⟨hover, hp⟩ := hv
    cases q with
    | small =>
      refine EndsFrom.bind (hretire hp hb) ?_
      rintro _ s' d' ⟨h', rs, copied, size, hs, hr⟩
      exact endsFrom_pure ⟨h', .inr (hp.turned hover h h' hs hr (if_pos rfl).symm)⟩
    | main =>
      refine endsFrom_getStore (EndsFrom.bind (hretire hp hb) ?_)
      rintro _ s' d' ⟨h', rs, copied, size, hs, hr⟩
      refine endsFrom_getStore ?_
      split_ifs with hfreed hround
      · exact endsFrom_pure ⟨h', .inr (hp.turned hover h h' hs hr (by rw [if_neg (by simp), if_pos hfreed]))⟩
      · refine endsFrom_pure ⟨h', .inr (hp.turned hover h h' hs hr ?_)⟩
        rw [if_neg (by simp), if_neg hfreed, if_pos hround]
      · refine endsFrom_pure ⟨h', .inr (hp.turned hover h h' hs hr ?_)⟩
        rw [if_neg (by simp), if_neg hfreed, if_neg hround]

end Tribuchet.ChunkStore
