import Tribuchet.ChunkStore.Restart

/-! The eviction loop as a whole, in runs without failing file operations. It ends. When it leaves
the store over its budget, every pack that the main queue had when bytes were last freed has been
looked at, provided at most one of the packs was sealed early: the loop compares its count of unfreed
rounds with the current length of the queue, and survivors of short packs are merged into fewer. -/

namespace Tribuchet.ChunkStore

open ByteStrings Filesystem Hoare Runs Option
open List hiding all_eq_true

variable {intact : Bytes → Hash → Bool} {d d' : Directory FileName} {s s' : Store} {A : Hash → Option Bytes}
  {n : ℕ} {next : Option ℕ}

/-! ### Short packs of the main queue -/

def Store.short (s : Store) : ℕ := s.main.countP fun i => s.sizeOf i < s.sealBytes

theorem length_le_countP_add (f : ℕ → ℕ) (S : ℕ) (hS : 0 < S) (l : List ℕ) :
    l.length ≤ l.countP (fun i => f i < S) + (l.map f).sum / S := by
  have hmul : l.length * S ≤ l.countP (fun i => f i < S) * S + (l.map f).sum := by
    induction l with
    | nil => simp
    | cons i l ih =>
      rw [length_cons, countP_cons, map_cons, sum_cons, Nat.add_mul, Nat.add_mul]
      by_cases hi : f i < S
      · simp only [hi, decide_true, if_true]
        omega
      · simp only [hi, decide_false, Bool.false_eq_true, if_false]
        omega
  have hle : l.length - l.countP (fun i => f i < S) ≤ (l.map f).sum / S := by
    rw [Nat.le_div_iff_mul_le hS, Nat.sub_mul]
    omega
  omega

theorem Steady.length_main_le (h : Steady A s d) : s.main.length ≤ s.short + s.bytes / s.sealBytes := by
  have hbytes : s.mainBytes = (s.main.map s.sizeOf).sum + s.activeLen .main := h.books.bytes .main
  have hsum : (s.main.map s.sizeOf).sum / s.sealBytes ≤ s.bytes / s.sealBytes := by
    refine Nat.div_le_div_right ?_
    unfold Store.bytes
    omega
  have := length_le_countP_add s.sizeOf s.sealBytes h.good.safe.limit.1 s.main
  unfold Store.short
  omega

theorem short_append {rest new : List ℕ} (hm : s'.main = rest ++ new) (hfull : ∀ i ∈ new, s'.Full i)
    (hseal : s'.sealBytes = s.sealBytes) (hsize : ∀ i ∈ rest, s'.sizeOf i = s.sizeOf i) :
    s'.short = rest.countP fun i => s.sizeOf i < s.sealBytes := by
  have hnew : new.countP (fun i => s'.sizeOf i < s'.sealBytes) = 0 := by
    rw [countP_eq_zero]
    intro i hi
    simpa [Store.Full] using hfull i hi
  rw [Store.short, hm, countP_append, hnew, add_zero, hseal]
  exact countP_congr fun i hi => by rw [hsize i hi]

theorem Turned.short_le (h : Turned n s d next s') : s'.short ≤ s.short := by
  rcases h.turn with hs | hm
  · obtain ⟨new, hmain, hfull⟩ := hs.main
    rw [short_append hmain hfull h.sealBytes fun i hi => h.kept i hi (hmain ▸ mem_append_left _ hi)]
    exact le_rfl
  · obtain ⟨rest, new, hmain, hfull, ⟨hnil, rfl⟩ | ⟨id, hcons, -⟩⟩ := hm.main
    · rw [short_append hmain hfull h.sealBytes (by simp)]
      exact Nat.zero_le _
    · have hrest : ∀ i ∈ rest, s'.sizeOf i = s.sizeOf i := fun i hi =>
        h.kept i (hcons ▸ mem_cons_of_mem _ hi) (hmain ▸ mem_append_left _ hi)
      rw [short_append hmain hfull h.sealBytes hrest, Store.short, hcons, countP_cons]
      exact Nat.le_add_right _ _

/-! ### The loop ends -/

/-- What a turn uses up, when the main queue never has more than `C` packs. -/
def Store.rank (s : Store) (C n : ℕ) : ℕ := (s.smallCount + s.bytes) * (C + 2) + (C + 1 - n)

theorem Turned.rank_lt {C m : ℕ} (h : Turned n s d (some m) s') (hC : s'.main.length ≤ C) :
    s'.rank C m < s.rank C n := by
  have hlt : s'.smallCount + s'.bytes < s.smallCount + s.bytes → s'.rank C m < s.rank C n := by
    intro hlt
    have hmul : (s'.smallCount + s'.bytes + 1) * (C + 2) ≤ (s.smallCount + s.bytes) * (C + 2) :=
      Nat.mul_le_mul_right _ hlt
    rw [Nat.add_mul] at hmul
    unfold Store.rank
    omega
  rcases h.turn with hs | hm
  · have := hs.count
    have := h.bytes
    exact hlt (by omega)
  · have hcount := hm.count
    have hnext := hm.next
    by_cases hfreed : s'.bytes < s.bytes
    · exact hlt (by omega)
    · rw [if_neg hfreed] at hnext
      split_ifs at hnext with hround
      rw [some.injEq] at hnext
      have heq : s'.bytes = s.bytes := by
        have := h.bytes
        omega
      unfold Store.rank
      rw [hcount, heq]
      omega

theorem Turned.trim (h : Turned n s d next s') : Turned n s d next s'.trimGhost := by
  refine ⟨h.exceeds, h.bytes, h.sealBytes, h.budget, h.kept, h.turn.imp (fun hs => ?_) fun hm => ?_⟩
  · exact ⟨hs.share, hs.count, hs.main, hs.next⟩
  · exact ⟨hm.share, hm.smallBytes, hm.count, hm.main, hm.next⟩

variable {t t' : State}

theorem evict_step {outcomes : List Outcome} (h : Settled t) (hp : t.process = some ⟨s, some n⟩)
    (ho : ∀ o ∈ outcomes, o = .ok) (hs : step intact t (.evict outcomes) = some t') :
    ∃ A next s', Steady A s t.dir ∧ Steady A s' t'.dir ∧ t'.process = some ⟨s', next⟩ ∧
      (s.bytes ≤ s.budget ∧ next = none ∧ s' = s.trimGhost ∨ Turned n s t.dir next s') := by
  obtain ⟨A, hst⟩ := h.running _ hp
  simp only [step, hp, some.injEq] at hs
  rcases (turned_evictTurn n hst).cases ho with ⟨next, w, hx, hw, hturn⟩ | ⟨_, _, -, hf⟩
  · rw [after_ok hx] at hs
    cases next with
    | none =>
      subst hs
      refine ⟨A, none, w.store.trimGhost, hst, hw.congr rfl rfl rfl rfl, rfl, ?_⟩
      exact hturn.imp (fun hend => ⟨hend.1, rfl, by rw [hend.2.2]⟩) Turned.trim
    | some m =>
      subst hs
      refine ⟨A, some m, w.store, hst, hw, rfl, hturn.imp_left ?_⟩
      rintro ⟨-, hnext, -⟩
      cases hnext
  · exact hf.elim

theorem dropGuard_step {i : ℕ} (hs : step intact t (.dropGuard i) = some t') :
    ∃ p hashes, t.process = some p ∧ t'.process = some ⟨p.store.unpin hashes, p.evicting⟩ ∧ t'.dir = t.dir := by
  simp only [step] at hs
  split at hs
  · rename_i p hashes hp hg
    cases hs
    exact ⟨p, hashes, hp, rfl, rfl⟩
  · cases hs

def Action.isEvict : Action → Bool
  | .evict _ => true
  | _ => false

def InLoop (a : Action) : Prop := (∃ outcomes, a = .evict outcomes ∧ ∀ o ∈ outcomes, o = .ok) ∨ ∃ i, a = .dropGuard i

def State.rank (t : State) (C : ℕ) : ℕ :=
  t.process.elim 0 fun p => p.evicting.elim 0 fun n => p.store.rank C n + 1

/-- No larger than `M`, with at most `K` short packs. -/
structure Store.Within (s : Store) (M K S : ℕ) : Prop where
  bytes : s.bytes ≤ M
  short : s.short ≤ K
  sealBytes : s.sealBytes = S

variable {M K S : ℕ}

theorem Turned.within (h : Turned n s d next s') (hs : s.Within M K S) : s'.Within M K S :=
  ⟨h.bytes.trans hs.bytes, h.short_le.trans hs.short, h.sealBytes.trans hs.sealBytes⟩

theorem Store.Within.length_main_le (h : s.Within M K S) (hst : Steady A s d) :
    s.main.length ≤ K + M / S := by
  refine hst.length_main_le.trans (Nat.add_le_add h.short ?_)
  rw [h.sealBytes]
  exact Nat.div_le_div_right h.bytes

theorem loop_step {a : Action} (h : Settled t)
    (hb : ∀ p, t.process = some p → p.store.Within M K S) (ha : InLoop a) (hs : step intact t a = some t') :
    Settled t' ∧ (∀ p, t'.process = some p → p.store.Within M K S) ∧
      t'.rank (K + M / S) + (if a.isEvict = true then 1 else 0) ≤ t.rank (K + M / S) := by
  rcases ha with ⟨outcomes, rfl, ho⟩ | ⟨i, rfl⟩
  · obtain ⟨st, n, hp⟩ : ∃ st n, t.process = some ⟨st, some n⟩ := by
      simp only [step] at hs
      split at hs
      · rename_i st n hp
        exact ⟨st, n, hp⟩
      · cases hs
    obtain ⟨A, next, s', hst, hst', hp', hturn⟩ := evict_step h hp ho hs
    have hrank : t.rank (K + M / S) = st.rank (K + M / S) n + 1 := by
      rw [State.rank, hp]
      rfl
    have hrank' : t'.rank (K + M / S) = next.elim 0 fun m => s'.rank (K + M / S) m + 1 := by
      rw [State.rank, hp']
      rfl
    refine ⟨hst'.settled rfl hp', ?_⟩
    have hw := hb _ hp
    have hwithin : s'.Within M K S := by
      rcases hturn with ⟨-, -, rfl⟩ | hturn
      · exact ⟨hw.bytes, hw.short, hw.sealBytes⟩
      · exact hturn.within hw
    refine ⟨fun p hq => ?_, ?_⟩
    · rw [hp', some.injEq] at hq
      exact hq ▸ hwithin
    · rw [hrank, hrank']
      cases next with
      | none => exact Nat.le_add_left _ _
      | some m =>
        have hturn := hturn.resolve_left fun hend => by cases hend.2.1
        exact Nat.add_le_add_right (hturn.rank_lt (hwithin.length_main_le hst')) 1
  · obtain ⟨p, hashes, hp, hp', hd⟩ := dropGuard_step hs
    refine ⟨settled_step intact h (by simp [Calm, Action.outcomes]) hs, fun p' hq => ?_, ?_⟩
    · rw [hp', some.injEq] at hq
      subst hq
      have hw := hb p hp
      exact ⟨hw.bytes, hw.short, hw.sealBytes⟩
    · rw [State.rank, State.rank, hp, hp']
      exact le_rfl

theorem countP_evict_le {actions : List Action} (h : Settled t)
    (hb : ∀ p, t.process = some p → p.store.Within M K S) (ha : ∀ a ∈ actions, InLoop a)
    (he : (system intact).exec t actions = some t') : actions.countP Action.isEvict ≤ t.rank (K + M / S) := by
  induction actions generalizing t with
  | nil => exact Nat.zero_le _
  | cons a actions ih =>
    obtain ⟨t₁, hs, he⟩ := bind_eq_some_iff.mp he
    obtain ⟨h₁, hb₁, hrank⟩ := loop_step h hb (ha a mem_cons_self) hs
    have hle := ih h₁ hb₁ (fun a hm => ha a (mem_cons_of_mem _ hm)) he
    rw [countP_cons]
    exact (Nat.add_le_add_right hle _).trans hrank

private def fives : Hash := ⟨replicate 32 5, rfl⟩

private def sixes : Hash := ⟨replicate 32 6, rfl⟩

private def eights : Hash := ⟨replicate 32 8, rfl⟩

private def nines : Hash := ⟨replicate 32 9, rfl⟩

instance (t : State) (a : Action) : Decidable (Calm t a) := inferInstanceAs (Decidable (∀ o ∈ a.outcomes, o = .ok))

/-! ### A full round over the main queue -/

/-- A turn of the loop: the directory and the store before it, and the store after it. -/
structure LoopTurn where
  dir : Directory FileName
  before : Store
  after : Store

/-- The turns of an eviction loop from one state to another, with guards dropped between them. -/
inductive Loop (intact : Bytes → Hash → Bool) : State → List LoopTurn → State → Prop
  | done (t : State) : Loop intact t [] t
  | turn {t t' t'' : State} {s s' : Store} {n : ℕ} {next : Option ℕ} {outcomes : List Outcome} {turns : List LoopTurn} :
      t.process = some ⟨s, some n⟩ → (∀ o ∈ outcomes, o = .ok) → step intact t (.evict outcomes) = some t' →
      t'.process = some ⟨s', next⟩ → Loop intact t' turns t'' → Loop intact t (⟨t.dir, s, s'⟩ :: turns) t''
  | drop {t t' t'' : State} {i : ℕ} {turns : List LoopTurn} :
      step intact t (.dropGuard i) = some t' → Loop intact t' turns t'' → Loop intact t turns t''

/-- The main queue when a turn last freed bytes, `queue` if none did. -/
def lastQueue (queue : List ℕ) : List LoopTurn → List ℕ
  | [] => queue
  | x :: turns => lastQueue (if x.after.bytes < x.before.bytes then x.after.main else queue) turns

/-- The turn retired the front pack of the main queue, and all of its chunks were hot or pinned. -/
def LoopTurn.Examined (x : LoopTurn) (id : ℕ) : Prop :=
  x.before.main.head? = some id ∧ x.after.packs.lookup id = none ∧ x.before.AllSurvive x.dir id

/-- The round over the packs `queue` of which `gone` have been retired without freeing bytes. While
some are to come, at least as many packs have joined the queue as were retired, but for a short one. -/
structure Round (queue gone : List ℕ) (s : Store) (n : ℕ) : Prop where
  few : s.short ≤ 1
  early : n ≠ 0 → s.smallBytes ≤ s.budget / smallFraction
  place : ∃ pending more, queue = gone ++ pending ∧ s.main = pending ++ more ∧
    (pending = [] ∨ n = gone.length ∧ n + s.short ≤ more.length + 1)

theorem Round.start (hfew : s.short ≤ 1) : Round s.main [] s 0 :=
  ⟨hfew, fun h => absurd rfl h, s.main, [], rfl, (append_nil _).symm, .inr ⟨rfl, by simpa using hfew⟩⟩

variable (h : Turned n s d next s')

include h

theorem Turned.new_ne_nil {id : ℕ} {rest new : List ℕ} (hs : Steady A s d)
    (hs' : Steady A s' d') (heq : s'.mainBytes = s.mainBytes) (hm : s.main = id :: rest) (hm' : s'.main = rest ++ new)
    (hfull : s.Full id) : new ≠ [] := by
  rintro rfl
  rw [append_nil] at hm'
  have hbytes : s.mainBytes = (s.main.map s.sizeOf).sum + s.activeLen .main := hs.books.bytes .main
  have hbytes' : s'.mainBytes = (s'.main.map s'.sizeOf).sum + s'.activeLen .main := hs'.books.bytes .main
  have hsizes : rest.map s'.sizeOf = rest.map s.sizeOf := map_congr_left fun i hi =>
    h.kept i (hm ▸ mem_cons_of_mem _ hi) (hm' ▸ hi)
  rw [hm, map_cons, sum_cons] at hbytes
  rw [hm', hsizes] at hbytes'
  have hlong : s.sealBytes ≤ s'.activeLen .main := by
    unfold Store.Full at hfull
    omega
  have hlimit := hs.good.safe.limit.1
  cases hw : s'.writer .main with
  | none =>
    rw [Store.activeLen, hw, elim_none] at hlong
    omega
  | some w =>
    have hlt := (hs'.good.safe.writers .main w hw).2.1 fun hf => hf
    rw [Store.activeLen, hw, elim_some] at hlong
    rw [h.sealBytes] at hlt
    omega

theorem Turned.freed_round {queue gone : List ℕ} (hr : Round queue gone s n)
    (hfreed : s'.bytes < s.bytes) : next = some 0 ∧ Round s'.main [] s' 0 := by
  refine ⟨?_, .start (h.short_le.trans hr.few)⟩
  rcases h.turn with hs | hm
  · rw [hs.next, some.injEq]
    by_contra hn
    have := hr.early hn
    have := hs.share
    omega
  · rw [hm.next, if_pos hfreed]

theorem Turned.unfreed_round {queue gone : List ℕ} (hs : Steady A s d) (hs' : Steady A s' d')
    (hr : Round queue gone s n) (hfreed : ¬ s'.bytes < s.bytes) : ∃ gone',
      (∀ id ∈ gone', id ∈ gone ∨ LoopTurn.Examined ⟨d, s, s'⟩ id) ∧ (next = none → queue = gone') ∧
        ∀ m, next = some m → Round queue gone' s' m := by
  have heq : s'.bytes = s.bytes := by
    have := h.bytes
    omega
  have hshort := h.short_le
  obtain ⟨hfew, hearly, pending, more, hqueue, hmain, hplace⟩ := hr
  rcases h.turn with hsmall | hturn
  · -- small survivors only join the queue
    obtain ⟨new, hnew, -⟩ := hsmall.main
    refine ⟨gone, fun id hid => .inl hid, fun hn => ?_, fun m hm => ?_⟩
    · rw [hsmall.next] at hn
      cases hn
    · rw [hsmall.next, some.injEq] at hm
      subst hm
      refine ⟨hshort.trans hfew, fun hn => ?_, pending, more ++ new, hqueue, ?_, hplace.imp_right fun hp => ⟨hp.1, ?_⟩⟩
      · have := hearly hn
        have := hsmall.share
        omega
      · rw [hnew, hmain, append_assoc]
      · rw [length_append]
        omega
  · have hnext := hturn.next
    rw [if_neg hfreed] at hnext
    have hmainBytes : s'.mainBytes = s.mainBytes := by
      have := hturn.smallBytes
      unfold Store.bytes at heq
      omega
    have hearly' : s'.smallBytes ≤ s'.budget / smallFraction := by
      rw [hturn.smallBytes, h.budget]
      exact hturn.share
    obtain ⟨rest, new, hnew, hfull, hfront⟩ := hturn.main
    cases pending with
    | nil =>
      -- the round is over already
      rw [append_nil] at hqueue
      refine ⟨gone, fun id hid => .inl hid, fun _ => hqueue, fun m _ => ?_⟩
      exact ⟨hshort.trans hfew, fun _ => hearly', [], s'.main, by rw [hqueue, append_nil], rfl, .inl rfl⟩
    | cons id pending =>
      rw [hmain] at hfront
      obtain ⟨id', hcons, hgone, hsurvive⟩ := hfront.resolve_left fun hf => by cases hf.1
      rw [cons_append, cons.injEq] at hcons
      obtain ⟨rfl, hrest⟩ := hcons
      obtain ⟨hn, hcount⟩ := hplace.resolve_left (by simp)
      have hexamined : LoopTurn.Examined ⟨d, s, s'⟩ id :=
        ⟨by rw [hmain]; rfl, hgone, hsurvive heq⟩
      have hmain' : s.main = id :: rest := by rw [hmain, cons_append, hrest]
      -- a full pack leaves at least one behind, a short one makes the count of short packs smaller
      have hjoin : n + 1 + s'.short ≤ (more ++ new).length + 1 := by
        have hkept : ∀ i ∈ rest, s'.sizeOf i = s.sizeOf i := fun i hi =>
          h.kept i (hmain' ▸ mem_cons_of_mem _ hi) (hnew ▸ mem_append_left _ hi)
        have hshort' := short_append hnew hfull h.sealBytes hkept
        have hcountP : s.short = rest.countP (fun i => s.sizeOf i < s.sealBytes) +
            if s.sizeOf id < s.sealBytes then 1 else 0 := by
          simp [Store.short, hmain', countP_cons]
        rw [length_append]
        by_cases hid : s.sizeOf id < s.sealBytes
        · rw [if_pos hid] at hcountP
          omega
        · have hne := h.new_ne_nil hs hs' hmainBytes hmain' hnew (le_of_not_gt hid)
          have := length_pos_iff.mpr hne
          omega
      have hlast : s'.main = pending ++ (more ++ new) := by rw [hnew, ← hrest, append_assoc]
      refine ⟨gone ++ [id], fun i hi => ?_, fun hleave => ?_, fun m hm => ?_⟩
      · rcases mem_append.mp hi with hi | hi
        · exact .inl hi
        · rw [mem_singleton.mp hi]
          exact .inr hexamined
      · -- while one more pack is to come, the queue is longer than the count
        rw [hleave] at hnext
        split_ifs at hnext with hround
        rw [hlast, length_append] at hround
        cases pending with
        | nil => exact hqueue
        | cons j pending =>
          rw [length_cons] at hround
          omega
      · rw [hm] at hnext
        split_ifs at hnext with hround
        rw [some.injEq] at hnext
        subst hnext
        refine ⟨hshort.trans hfew, fun _ => hearly', pending, more ++ new, by simp [hqueue], hlast, .inr ⟨?_, hjoin⟩⟩
        rw [length_append, hn]
        rfl

omit h

theorem Loop.idle {turns : List LoopTurn} (hl : Loop intact t turns t') : ∀ {s}, t.process = some ⟨s, none⟩ →
      turns = [] ∧ ∃ s', t'.process = some ⟨s', none⟩ ∧ s'.bytes = s.bytes ∧ s'.budget = s.budget := by
  induction hl with
  | done t => exact fun hp => ⟨rfl, _, hp, rfl, rfl⟩
  | turn hp _ _ _ _ _ =>
    intro s hp'
    rw [hp] at hp'
    cases hp'
  | drop hs _ ih =>
    intro s hp
    obtain ⟨p, hashes, hp', hq, -⟩ := dropGuard_step hs
    rw [hp, some.injEq] at hp'
    subst hp'
    obtain ⟨hnil, s', hq', hb, hbud⟩ := ih hq
    exact ⟨hnil, s', hq', hb, hbud⟩

theorem Loop.examined {t₂ : State} {turns : List LoopTurn} {s₂ : Store} (hl : Loop intact t turns t₂)
    (h₂ : t₂.idle = some s₂) (hover : s₂.budget < s₂.bytes) : ∀ {queue gone s n}, Settled t →
      t.process = some ⟨s, some n⟩ → Round queue gone s n →
      ∀ id ∈ lastQueue queue turns, id ∈ gone ∨ ∃ x ∈ turns, x.Examined id := by
  replace h₂ := idle_eq h₂
  induction hl with
  | done t =>
    intro queue gone s n _ hp
    rw [hp] at h₂
    cases h₂
  | @turn t t' t'' s s' n next outcomes turns hp ho hs hp' hl ih =>
    intro queue gone s₁ n₁ hset hp₁ hr id hid
    rw [hp, some.injEq, Process.mk.injEq, some.injEq] at hp₁
    obtain ⟨rfl, rfl⟩ := hp₁
    obtain ⟨A, next', s'', hst, hst', hp'', hturn⟩ := evict_step hset hp ho hs
    rw [hp', some.injEq, Process.mk.injEq] at hp''
    obtain ⟨rfl, rfl⟩ := hp''
    have hset' : Settled t' := hst'.settled rfl hp'
    rcases hturn with ⟨hle, rfl, rfl⟩ | hturn
    · -- the loop left within the budget
      obtain ⟨-, s₃, hp₃, hb₃, hbud₃⟩ := hl.idle hp'
      rw [h₂, some.injEq, Process.mk.injEq] at hp₃
      obtain ⟨rfl, -⟩ := hp₃
      have hb : s₂.bytes = s.bytes := hb₃
      have hbud : s₂.budget = s.budget := hbud₃
      omega
    · rw [lastQueue] at hid
      by_cases hfreed : s'.bytes < s.bytes
      · obtain ⟨rfl, hround⟩ := hturn.freed_round hr hfreed
        rw [if_pos hfreed] at hid
        rcases ih h₂ hset' hp' hround id hid with hg | ⟨x, hx, hex⟩
        · cases hg
        · exact .inr ⟨x, mem_cons_of_mem _ hx, hex⟩
      · obtain ⟨gone', hgone, hleave, hgo⟩ := hturn.unfreed_round hst hst' hr hfreed
        rw [if_neg hfreed] at hid
        have hdone : id ∈ gone' ∨ ∃ x ∈ turns, x.Examined id := by
          cases next with
          | none =>
            obtain ⟨rfl, -⟩ := hl.idle hp'
            exact .inl (hleave rfl ▸ hid)
          | some m => exact ih h₂ hset' hp' (hgo m rfl) id hid
        rcases hdone with hg | ⟨x, hx, hex⟩
        · exact (hgone id hg).imp_right fun hex => ⟨_, mem_cons_self, hex⟩
        · exact .inr ⟨x, mem_cons_of_mem _ hx, hex⟩
  | drop hs hl ih =>
    intro queue gone s n hset hp hr
    obtain ⟨p, hashes, hp', hq, -⟩ := dropGuard_step hs
    rw [hp, some.injEq] at hp'
    subst hp'
    exact ih h₂ (settled_step intact hset (by simp [Calm, Action.outcomes]) hs) hq ⟨hr.few, hr.early, hr.place⟩

theorem insert_step {hash : Hash} {frame : Bytes} {outcomes : List Outcome} (h : Settled t)
    (hi : t.idle = some s) (hnew : s.contains hash = false) (hlen : frame.length < 2 ^ 32)
    (ho : ∀ o ∈ outcomes, o = .ok) (hs : step intact t (.insert hash frame outcomes) = some t') :
    ∃ A s', Steady A s t.dir ∧ Steady A s' t'.dir ∧ t'.process = some ⟨s', some 0⟩ ∧
      Grown (s.insertQueue hash) (headerLen + frame.length) s s' := by
  obtain ⟨_, hst⟩ := h.running _ (idle_eq hi)
  obtain ⟨A, hst, hA⟩ := hst.admit hash frame
  simp only [step, hi, map_some, hnew, Bool.false_eq_true, if_false, some.injEq] at hs
  rcases (steady_insert hst hA).cases ho with ⟨fresh, w, hx, hw, hfresh, hg⟩ | ⟨_, w, -, hbig, -⟩
  · rw [after_ok (t := { t with admitted := t.admitted.insert hash frame }) hx] at hs
    subst hs
    rw [hfresh]
    exact ⟨A, w.store, hst, hw, by simp [hnew], hg hnew⟩
  · omega

theorem Grown.round {q : Queue} {k : ℕ} (h : Grown q k s s') (hs : Steady A s d) (hfew : s.short ≤ 1) :
    Round s.main [] s' 0 := by
  obtain ⟨new, hmain, hfull⟩ : ∃ new, s'.main = s.main ++ new ∧ ∀ i ∈ new, s'.Full i := by
    cases q with
    | small =>
      exact ⟨[], by rw [append_nil]; exact (h.others .main (by simp)).1, by simp⟩
    | main =>
      obtain ⟨new, hnew, hfull⟩ := h.queue
      refine ⟨new, hnew, fun i hi => ?_⟩
      obtain ⟨z, hz, hle⟩ := hfull i hi
      rw [Store.Full, Store.sizeOf, hz, getD_some, h.sealBytes]
      exact hle
  have hsize : ∀ i ∈ s.main, s'.sizeOf i = s.sizeOf i := by
    intro i hi
    obtain ⟨z, hz⟩ := ne_none_iff_exists'.mp (hs.good.tidy.queued i (.inr (.inl hi)))
    rw [Store.sizeOf, Store.sizeOf, hz, h.sizes i z hz]
  have hshort : s'.short ≤ 1 := by
    rw [short_append hmain hfull h.sealBytes hsize]
    exact hfew
  exact ⟨hshort, fun hn => absurd rfl hn, s.main, new, rfl, hmain, .inr ⟨rfl, by omega⟩⟩

/-- An insert that returns with the store over its budget has completed a fruitless round: every pack
that the main queue had when bytes were last freed, or at the start if none were, has been retired by
a turn that freed nothing, and all of its chunks were then hot or pinned. The hash was absent, and at
most one pack of the queue was shorter than packs are sealed at. -/
theorem full_round (intact : Bytes → Hash → Bool) {t₀ t₁ t₂ : State} {s₀ s₂ : Store} {hash : Hash} {frame : Bytes}
    {outcomes : List Outcome} {turns : List LoopTurn} (h : (system intact).ReachableIf Calm t₀)
    (hi : t₀.idle = some s₀) (hnew : s₀.contains hash = false) (hlen : frame.length < 2 ^ 32) (hfew : s₀.short ≤ 1)
    (ho : ∀ o ∈ outcomes, o = .ok) (hs : step intact t₀ (.insert hash frame outcomes) = some t₁)
    (hl : Loop intact t₁ turns t₂) (h₂ : t₂.idle = some s₂) (hover : s₂.budget < s₂.bytes) :
    ∀ id ∈ lastQueue s₀.main turns, ∃ x ∈ turns, x.Examined id := by
  obtain ⟨A, s₁, hst, hst₁, hp, hg⟩ := insert_step (settled_of_reachable intact h) hi hnew hlen ho hs
  intro id hid
  rcases hl.examined h₂ hover (hst₁.settled rfl hp) hp (hg.round hst hfew) id hid with hgone | hex
  · cases hgone
  · exact hex

/-- The turns of a loop without failures, as many as are asked for. -/
private def loopOf (intact : Bytes → Hash → Bool) : ℕ → State → Option (List LoopTurn × State)
  | 0, t => some ([], t)
  | k + 1, t =>
    t.process.bind fun p => p.evicting.bind fun _ => (step intact t (.evict [])).bind fun t' => t'.process.bind fun p' =>
      (loopOf intact k t').map fun r => (⟨t.dir, p.store, p'.store⟩ :: r.1, r.2)

private theorem loopOf_sound {k : ℕ} {r : List LoopTurn × State} (h : loopOf intact k t = some r) :
    Loop intact t r.1 r.2 := by
  induction k generalizing t r with
  | zero =>
    cases h
    exact .done t
  | succ k ih =>
    obtain ⟨⟨s, evicting⟩, hp, h⟩ := bind_eq_some_iff.mp h
    obtain ⟨n, rfl, h⟩ := bind_eq_some_iff.mp h
    obtain ⟨t', hs, h⟩ := bind_eq_some_iff.mp h
    obtain ⟨⟨s', next⟩, hp', h⟩ := bind_eq_some_iff.mp h
    obtain ⟨r', hr, rfl⟩ := map_eq_some_iff.mp h
    exact .turn hp (by simp) hs hp' (ih hr)

/-- An insert with a loop of `k` turns leaves the store over its budget, and the test succeeds. -/
private def staysOver (k : ℕ) (hash : Hash) (check : Store → List LoopTurn → Store → Bool) (t : State) : Bool :=
  t.idle.any fun s => s.contains hash == false &&
    (step (fun _ _ => true) t (.insert hash [0] [])).any fun t₁ => (loopOf (fun _ _ => true) k t₁).any fun r =>
      r.2.idle.any fun s₂ => decide (s₂.budget < s₂.bytes) && check s r.1 s₂

private theorem staysOver_sound {k : ℕ} {hash : Hash} {check : Store → List LoopTurn → Store → Bool} {t₀ : State}
    (h : staysOver k hash check t₀ = true) : ∃ s₀ t₁ turns t₂ s₂, t₀.idle = some s₀ ∧ s₀.contains hash = false ∧
      step (fun _ _ => true) t₀ (.insert hash [0] []) = some t₁ ∧ Loop (fun _ _ => true) t₁ turns t₂ ∧
      t₂.idle = some s₂ ∧ s₂.budget < s₂.bytes ∧ check s₀ turns s₂ = true := by
  obtain ⟨s₀, hi, h⟩ := (any_eq_true _ _).mp h
  rw [Bool.and_eq_true, beq_iff_eq] at h
  obtain ⟨t₁, hs, h'⟩ := (any_eq_true _ _).mp h.2
  obtain ⟨⟨turns, t₂⟩, hr, h'⟩ := (any_eq_true _ _).mp h'
  obtain ⟨s₂, h₂, h'⟩ := (any_eq_true _ _).mp h'
  rw [Bool.and_eq_true, decide_eq_true_eq] at h'
  exact ⟨s₀, t₁, turns, t₂, s₂, hi, h.1, hs, loopOf_sound hr, h₂, h'.1, h'.2⟩

/-- A pinned chunk in the one pack that was loaded: it is copied forward, and the store stays over its
budget. -/
theorem full_round_pinned : ∃ t₀ s₀ t₁ turns t₂ s₂, (system fun _ _ => true).ReachableIf Calm t₀ ∧
    t₀.idle = some s₀ ∧ step (fun _ _ => true) t₀ (.insert sixes [0] []) = some t₁ ∧
    Loop (fun _ _ => true) t₁ turns t₂ ∧ t₂.idle = some s₂ ∧ s₂.budget < s₂.bytes ∧ 0 ∈ lastQueue s₀.main turns ∧
    ∀ id ∈ lastQueue s₀.main turns, ∃ x ∈ turns, x.Examined id := by
  obtain ⟨t₀, ht, h⟩ := (system fun _ _ => true).exists_reachableIf_of_decide Calm State.empty
    [.start 1000 [], .insert fives [0] [], .evict [], .quit, .start 0 [], .pin [fives]]
    (staysOver 2 sixes (fun s turns _ => decide (s.short ≤ 1) && (lastQueue s.main turns).contains 0) ·) rfl
    (by decide +kernel)
  obtain ⟨s₀, t₁, turns, t₂, s₂, hi, hnew, hs, hl, h₂, hover, h⟩ := staysOver_sound h
  rw [Bool.and_eq_true, decide_eq_true_eq, contains_iff_mem] at h
  exact ⟨t₀, s₀, t₁, turns, t₂, s₂, ht, hi, hs, hl, h₂, hover, h.2,
    full_round _ ht hi hnew (by decide) h.1 (by simp) hs hl h₂ hover⟩

/-- Three short packs were loaded, the chunks of the first two are pinned. They are merged into one
active pack, so that after two fruitless turns the queue is shorter than the count, and the loop leaves.
The third pack, cold and unpinned, was not looked at. -/
theorem short_packs_stop_round : ∃ t₀ s₀ t₁ turns t₂ s₂, (system fun _ _ => true).ReachableIf Calm t₀ ∧
    t₀.idle = some s₀ ∧ s₀.contains nines = false ∧ step (fun _ _ => true) t₀ (.insert nines [0] []) = some t₁ ∧
    Loop (fun _ _ => true) t₁ turns t₂ ∧ t₂.idle = some s₂ ∧ s₂.budget < s₂.bytes ∧ 2 ∈ lastQueue s₀.main turns ∧
    (∀ x ∈ turns, ¬ x.Examined 2) ∧ 2 ∈ s₂.main ∧ s₂.map.lookup eights = some ⟨2, headerLen, 1, 0⟩ ∧
    s₂.pins.lookup eights = none := by
  obtain ⟨t₀, ht, h⟩ := (system fun _ _ => true).exists_reachableIf_of_decide Calm State.empty
    [.start 1000 [], .insert fives [0] [], .evict [], .quit, .start 1000 [], .insert sixes [0] [], .evict [], .quit,
      .start 1000 [], .insert eights [0] [], .evict [], .quit, .start 74 [], .pin [fives, sixes]]
    (staysOver 3 nines (fun s turns s₂ => (lastQueue s.main turns).contains 2 &&
      turns.all (fun x => x.before.main.head? != some 2) && s₂.main.contains 2 &&
      s₂.map.lookup eights == some ⟨2, headerLen, 1, 0⟩ && s₂.pins.lookup eights == none) ·) rfl (by decide +kernel)
  obtain ⟨s₀, t₁, turns, t₂, s₂, hi, hnew, hs, hl, h₂, hover, h⟩ := staysOver_sound h
  simp only [Bool.and_eq_true, List.contains_iff_mem, List.all_eq_true, bne_iff_ne, ne_eq, beq_iff_eq] at h
  obtain ⟨⟨⟨⟨hlast, hfront⟩, hmain⟩, hmap⟩, hpins⟩ := h
  exact ⟨t₀, s₀, t₁, turns, t₂, s₂, ht, hi, hnew, hs, hl, h₂, hover, hlast,
    fun x hx hex => hfront x hx hex.1, hmain, hmap, hpins⟩

end Tribuchet.ChunkStore
