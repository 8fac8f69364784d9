import Mathlib.Data.Finset.Basic
import Mathlib.Data.Finset.SDiff
import Mathlib.Data.List.Pairwise
import Mathlib.Logic.Function.Basic
import Tribuchet.Base.Runs

/-! The registry of in-flight builds and the loop of `build` around it
(`hub/state/inflight.rs`, `hub/submit.rs`). A submission arms its wakeup, looks its key up,
tries to list its paths, and waits if somebody has one of them; each of these is a critical
section of its own. A listing is dropped from any task. The dedupe key is a hash of the
whole request, so a key has its output paths; `notify_waiters` wakes every submission that
is armed. -/

set_option linter.unusedSectionVars false

namespace Tribuchet.Hub.Inflight

open Runs Function List

variable {K P C : Type} [DecidableEq K] [DecidableEq P] [DecidableEq C]

/-- Where a submission is in the loop; an armed one has a wakeup or not. -/
inductive Phase
  | start
  | armed (woken : Bool)
  | missed (woken : Bool)
  /-- in `notified.await` -/
  | waiting (woken : Bool)
  | attached (replay : ℕ)
  | listed (replay : ℕ)
  | queued (replay : ℕ)
  | gone
  deriving DecidableEq

def Phase.wake : Phase → Phase
  | .armed _ => .armed true
  | .missed _ => .missed true
  | .waiting _ => .waiting true
  | phase => phase

/-- The listing that is dropped with the call or with the job. -/
def Phase.owns : Phase → Option ℕ
  | .listed replay | .queued replay => some replay
  | _ => none

structure Submission (K : Type) where
  key : K
  phase : Phase
  deriving DecidableEq

/-- A `Listing`, with the replay of its job. -/
structure Listing (K : Type) where
  key : K
  replay : ℕ
  deriving DecidableEq

structure State (K P C : Type) where
  byKey : K → Option ℕ
  byPath : Finset P
  listings : List (Listing K)
  submissions : C → Option (Submission K)
  replays : ℕ
  conflicts : List (C × Bool)

namespace State

def initial : State K P C := ⟨fun _ => none, ∅, [], fun _ => none, 0, []⟩

def setPhase (s : State K P C) (c : C) (key : K) (phase : Phase) : State K P C :=
  { s with submissions := update s.submissions c (some ⟨key, phase⟩) }

/-- `Listing::drop`. -/
def release (s : State K P C) (paths : K → List P) (l : Listing K) : State K P C :=
  { s with
    byKey := update s.byKey l.key none
    byPath := s.byPath \ (paths l.key).toFinset
    listings := s.listings.erase l
    submissions := fun c => (s.submissions c).map fun x => { x with phase := x.phase.wake } }

/-- `Inflight::list` finds a path taken. -/
def claimed (s : State K P C) (paths : K → List P) (key : K) : Prop := ∃ p ∈ paths key, p ∈ s.byPath

instance (s : State K P C) (paths : K → List P) (key : K) : Decidable (s.claimed paths key) :=
  inferInstanceAs (Decidable (∃ p ∈ paths key, p ∈ s.byPath))

end State

inductive Action (K C : Type)
  | submit (c : C) (key : K)
  | arm (c : C)
  | lookUp (c : C)
  | list (c : C)
  | wakeUp (c : C)
  | push (c : C)
  | cancel (c : C)
  | unlist (c : C)

def step (paths : K → List P) (s : State K P C) : Action K C → Option (State K P C)
  | .submit c key =>
    -- requests without outputs are refused
    match s.submissions c with
    | none => if paths key = [] then none else some (s.setPhase c key .start)
    | some _ => none
  | .arm c =>
    match s.submissions c with
    | some ⟨key, .start⟩ => some (s.setPhase c key (.armed false))
    | _ => none
  | .lookUp c =>
    match s.submissions c with
    | some ⟨key, .armed woken⟩ =>
      match s.byKey key with
      | some replay => some (s.setPhase c key (.attached replay))
      | none => some (s.setPhase c key (.missed woken))
    | _ => none
  | .list c =>
    match s.submissions c with
    | some ⟨key, .missed woken⟩ =>
      if s.claimed paths key then
        some { s.setPhase c key (.waiting woken) with conflicts := s.conflicts ++ [(c, (s.byKey key).isSome)] }
      else
        some { s.setPhase c key (.listed s.replays) with
          byKey := update s.byKey key (some s.replays)
          byPath := s.byPath ∪ (paths key).toFinset
          listings := ⟨key, s.replays⟩ :: s.listings
          replays := s.replays + 1 }
    | _ => none
  | .wakeUp c =>
    match s.submissions c with
    | some ⟨key, .waiting true⟩ => some (s.setPhase c key .start)
    | _ => none
  | .push c =>
    match s.submissions c with
    | some ⟨key, .listed replay⟩ => some (s.setPhase c key (.queued replay))
    | _ => none
  | .cancel c =>
    match s.submissions c with
    -- the listing is dropped with the call
    | some ⟨key, .listed replay⟩ => some ((s.release paths ⟨key, replay⟩).setPhase c key .gone)
    | some ⟨_, .queued _⟩ => none
    | some ⟨key, _⟩ => some (s.setPhase c key .gone)
    | none => none
  | .unlist c =>
    match s.submissions c with
    | some ⟨key, .queued replay⟩ => some ((s.release paths ⟨key, replay⟩).setPhase c key .gone)
    | _ => none

def system (K P C : Type) [DecidableEq K] [DecidableEq P] [DecidableEq C] (paths : K → List P) :
    System (State K P C) (Action K C) where
  init s := s = .initial
  step := step paths

/-! ### The registry -/

variable {paths : K → List P} {s s' : State K P C} {c : C} {key : K}

/-- The maps say exactly what the listings that are alive claim. -/
structure Exact (paths : K → List P) (s : State K P C) : Prop where
  nonempty : ∀ l ∈ s.listings, paths l.key ≠ []
  disjoint : s.listings.Pairwise fun l l' => ∀ p ∈ paths l.key, p ∉ paths l'.key
  byPath : ∀ p, p ∈ s.byPath ↔ ∃ l ∈ s.listings, p ∈ paths l.key
  byKey : ∀ key replay, s.byKey key = some replay ↔ ⟨key, replay⟩ ∈ s.listings

structure Placed (paths : K → List P) (s : State K P C) : Prop where
  nonempty : ∀ c x, s.submissions c = some x → paths x.key ≠ []
  owned : ∀ c x replay, s.submissions c = some x → x.phase.owns = some replay → ⟨x.key, replay⟩ ∈ s.listings
  owners : ∀ c c' x x' replay, s.submissions c = some x → s.submissions c' = some x' → x.phase.owns = some replay →
    x'.phase.owns = some replay → c = c'
  fresh : ∀ l ∈ s.listings, l.replay < s.replays
  blocked : ∀ c x, s.submissions c = some x → x.phase = .waiting false →
    ∃ l ∈ s.listings, ∃ p ∈ paths x.key, p ∈ paths l.key

theorem exact_initial : Exact paths (State.initial : State K P C) := by
  refine ⟨?_, ?_, ?_, ?_⟩ <;> simp [State.initial]

theorem placed_initial : Placed paths (State.initial : State K P C) := by
  refine ⟨?_, ?_, ?_, ?_, ?_⟩ <;> simp [State.initial]

variable (h : Exact paths s)

include h

theorem Exact.keys : s.listings.Pairwise fun l l' => l.key ≠ l'.key := by
  refine List.Pairwise.imp_of_mem ?_ h.disjoint
  intro l l' hl _ hdis hkey
  obtain ⟨p, hp⟩ := exists_mem_of_ne_nil _ (h.nonempty l hl)
  exact hdis p hp (hkey ▸ hp)

variable {l l' : Listing K}

theorem Exact.eq_of_key (hl : l ∈ s.listings) (hl' : l' ∈ s.listings)
    (hkey : l.key = l'.key) : l = l' := by
  have hb : s.byKey l.key = some l.replay := (h.byKey _ _).mpr hl
  have hb' : s.byKey l'.key = some l'.replay := (h.byKey _ _).mpr hl'
  rw [hkey, hb'] at hb
  cases l
  cases l'
  cases hb
  cases hkey
  rfl

theorem Exact.mem_erase : l' ∈ s.listings.erase l ↔ l' ≠ l ∧ l' ∈ s.listings := by
  refine List.Nodup.mem_erase_iff ?_
  exact h.keys.imp fun {l l'} hne heq => hne (congrArg Listing.key heq)

theorem Exact.eq_of_path (hl : l ∈ s.listings) (hl' : l' ∈ s.listings) {p : P}
    (hp : p ∈ paths l.key) (hp' : p ∈ paths l'.key) : l = l' := by
  by_contra hne
  have : Std.Symm fun l l' : Listing K => ∀ p ∈ paths l.key, p ∉ paths l'.key :=
    ⟨fun _ _ hdis p hp hp' => hdis p hp' hp⟩
  exact h.disjoint.forall hl hl' hne p hp hp'

theorem Exact.not_listed (hfree : ¬ s.claimed paths key) (hne : paths key ≠ []) (replay : ℕ) :
    ⟨key, replay⟩ ∉ s.listings := by
  intro hm
  obtain ⟨p, hp⟩ := exists_mem_of_ne_nil _ hne
  exact hfree ⟨p, hp, (h.byPath p).mpr ⟨_, hm, hp⟩⟩

theorem Exact.list (hfree : ¬ s.claimed paths key) (hne : paths key ≠ []) {replay : ℕ}
    (hk : s'.byKey = update s.byKey key (some replay)) (hp : s'.byPath = s.byPath ∪ (paths key).toFinset)
    (hl : s'.listings = ⟨key, replay⟩ :: s.listings) : Exact paths s' := by
  refine ⟨?_, ?_, ?_, ?_⟩
  · intro l hmem
    rw [hl] at hmem
    rcases mem_cons.mp hmem with rfl | hmem
    · exact hne
    · exact h.nonempty l hmem
  · rw [hl]
    refine pairwise_cons.mpr ⟨fun l hmem p hpath hpl => hfree ⟨p, hpath, ?_⟩, h.disjoint⟩
    exact (h.byPath p).mpr ⟨l, hmem, hpl⟩
  · intro p
    rw [hp, hl, Finset.mem_union, mem_toFinset, h.byPath]
    constructor
    · rintro (⟨l, hmem, hpl⟩ | hpath)
      · exact ⟨l, mem_cons_of_mem _ hmem, hpl⟩
      · exact ⟨_, mem_cons_self .., hpath⟩
    · rintro ⟨l, hmem, hpl⟩
      rcases mem_cons.mp hmem with rfl | hmem
      · exact .inr hpl
      · exact .inl ⟨l, hmem, hpl⟩
  · intro key' replay'
    rw [hk, hl, update_apply, mem_cons]
    split_ifs with heq
    · subst heq
      constructor
      · intro hr
        cases hr
        exact .inl rfl
      · rintro (hr | hr)
        · cases hr
          rfl
        · exact absurd hr (h.not_listed hfree hne replay')
    · rw [h.byKey]
      constructor
      · exact .inr
      · rintro (hr | hr)
        · cases hr
          exact absurd rfl heq
        · exact hr

theorem Exact.release {l : Listing K} (hmem : l ∈ s.listings) : Exact paths (s.release paths l) := by
  refine ⟨?_, ?_, ?_, ?_⟩
  · exact fun l' hl' => h.nonempty l' (mem_of_mem_erase hl')
  · exact h.disjoint.sublist erase_sublist
  · intro p
    show p ∈ s.byPath \ (paths l.key).toFinset ↔ ∃ l' ∈ s.listings.erase l, p ∈ paths l'.key
    rw [Finset.mem_sdiff, mem_toFinset, h.byPath]
    constructor
    · rintro ⟨⟨l', hl', hp⟩, hno⟩
      refine ⟨l', h.mem_erase.mpr ⟨?_, hl'⟩, hp⟩
      rintro rfl
      exact hno hp
    · rintro ⟨l', hl', hp⟩
      obtain ⟨hne, hl'⟩ := h.mem_erase.mp hl'
      refine ⟨⟨l', hl', hp⟩, fun hp' => ?_⟩
      exact hne (h.eq_of_path hl' hmem hp hp')
  · intro key' replay'
    show update s.byKey l.key none key' = some replay' ↔ ⟨key', replay'⟩ ∈ s.listings.erase l
    rw [update_apply, h.mem_erase]
    split_ifs with heq
    · constructor
      · intro hc
        cases hc
      · rintro ⟨hne, hl'⟩
        exact absurd (h.eq_of_key hl' hmem heq) hne
    · rw [h.byKey]
      constructor
      · refine fun hl' => ⟨?_, hl'⟩
        rintro rfl
        exact heq rfl
      · exact fun hl' => hl'.2

omit h

/-! ### The submissions -/

theorem setPhase_submissions (phase : Phase) (c' : C) :
    (s.setPhase c key phase).submissions c' = if c' = c then some ⟨key, phase⟩ else s.submissions c' :=
  update_apply ..

variable {x : Submission K}

theorem Placed.setPhase (h : Placed paths s) (hx : s.submissions c = some x) {phase : Phase}
    (howns : ∀ replay, phase.owns = some replay → x.phase.owns = some replay)
    (hwait : phase = .waiting false → ∃ l ∈ s.listings, ∃ p ∈ paths x.key, p ∈ paths l.key) :
    Placed paths (s.setPhase c x.key phase) := by
  -- what a submission owns now it owned before
  have hold : ∀ c' x' replay, (s.setPhase c x.key phase).submissions c' = some x' → x'.phase.owns = some replay →
      ∃ x₀, s.submissions c' = some x₀ ∧ x₀.key = x'.key ∧ x₀.phase.owns = some replay := by
    intro c' x' replay hx' ho
    rw [setPhase_submissions] at hx'
    split_ifs at hx' with hc
    · cases hx'
      exact ⟨x, hc ▸ hx, rfl, howns replay ho⟩
    · exact ⟨x', hx', rfl, ho⟩
  refine ⟨?_, ?_, ?_, h.fresh, ?_⟩
  · intro c' x' hx'
    rw [setPhase_submissions] at hx'
    split_ifs at hx'
    · cases hx'
      exact h.nonempty c x hx
    · exact h.nonempty c' x' hx'
  · intro c' x' replay hx' ho
    obtain ⟨x₀, h₀, hkey, ho₀⟩ := hold c' x' replay hx' ho
    exact hkey ▸ h.owned c' x₀ replay h₀ ho₀
  · intro c₁ c₂ x₁ x₂ replay h₁ h₂ ho₁ ho₂
    obtain ⟨y₁, hy₁, -, ho₁⟩ := hold c₁ x₁ replay h₁ ho₁
    obtain ⟨y₂, hy₂, -, ho₂⟩ := hold c₂ x₂ replay h₂ ho₂
    exact h.owners c₁ c₂ y₁ y₂ replay hy₁ hy₂ ho₁ ho₂
  · intro c' x' hx' hphase
    rw [setPhase_submissions] at hx'
    split_ifs at hx'
    · cases hx'
      exact hwait hphase
    · exact h.blocked c' x' hx' hphase

theorem Phase.wake_owns (phase : Phase) : phase.wake.owns = phase.owns := by cases phase <;> rfl

theorem Placed.release (h : Placed paths s) (he : Exact paths s) (hx : s.submissions c = some x)
    {replay : ℕ} (ho : x.phase.owns = some replay) :
    Placed paths ((s.release paths ⟨x.key, replay⟩).setPhase c x.key .gone) := by
  have hsub : ∀ c' x', ((s.release paths ⟨x.key, replay⟩).setPhase c x.key .gone).submissions c' = some x' →
      c' = c ∧ x' = ⟨x.key, .gone⟩ ∨ c' ≠ c ∧ ∃ x₀, s.submissions c' = some x₀ ∧ x' = { x₀ with phase := x₀.phase.wake } := by
    intro c' x' hx'
    rw [setPhase_submissions] at hx'
    split_ifs at hx' with hc
    · cases hx'
      exact .inl ⟨hc, rfl⟩
    · obtain ⟨x₀, h₀, rfl⟩ := Option.map_eq_some_iff.mp hx'
      exact .inr ⟨hc, x₀, h₀, rfl⟩
  refine ⟨?_, ?_, ?_, ?_, ?_⟩
  · intro c' x' hx'
    rcases hsub c' x' hx' with ⟨-, rfl⟩ | ⟨-, x₀, h₀, rfl⟩
    · exact h.nonempty c x hx
    · exact h.nonempty c' x₀ h₀
  · intro c' x' replay' hx' ho'
    rcases hsub c' x' hx' with ⟨-, rfl⟩ | ⟨hc, x₀, h₀, rfl⟩
    · cases ho'
    · rw [Phase.wake_owns] at ho'
      refine he.mem_erase.mpr ⟨fun heq => hc ?_, h.owned c' x₀ replay' h₀ ho'⟩
      obtain rfl : replay' = replay := congrArg Listing.replay heq
      exact h.owners c' c x₀ x _ h₀ hx ho' ho
  · intro c₁ c₂ x₁ x₂ replay' h₁ h₂ ho₁ ho₂
    rcases hsub c₁ x₁ h₁ with ⟨-, rfl⟩ | ⟨-, y₁, hy₁, rfl⟩
    · cases ho₁
    · rcases hsub c₂ x₂ h₂ with ⟨-, rfl⟩ | ⟨-, y₂, hy₂, rfl⟩
      · cases ho₂
      · rw [Phase.wake_owns] at ho₁ ho₂
        exact h.owners c₁ c₂ y₁ y₂ replay' hy₁ hy₂ ho₁ ho₂
  · exact fun l hl => h.fresh l (mem_of_mem_erase hl)
  · intro c' x' hx' hphase
    rcases hsub c' x' hx' with ⟨-, rfl⟩ | ⟨-, x₀, h₀, rfl⟩
    · cases hphase
    · cases hw : x₀.phase <;> rw [hw] at hphase <;> cases hphase

theorem Placed.list (h : Placed paths s) (hx : s.submissions c = some x)
    (hs : ∀ c', s'.submissions c' = if c' = c then some ⟨x.key, .listed s.replays⟩ else s.submissions c')
    (hl : s'.listings = ⟨x.key, s.replays⟩ :: s.listings) (hr : s'.replays = s.replays + 1) : Placed paths s' := by
  -- the number of the new replay is nobody else's
  have hnew : ∀ c' x' replay, s.submissions c' = some x' → x'.phase.owns = some replay → replay < s.replays :=
    fun c' x' replay hx' ho => h.fresh _ (h.owned c' x' replay hx' ho)
  refine ⟨?_, ?_, ?_, ?_, ?_⟩
  · intro c' x' hx'
    rw [hs] at hx'
    split_ifs at hx'
    · cases hx'
      exact h.nonempty c x hx
    · exact h.nonempty c' x' hx'
  · intro c' x' replay hx' ho
    rw [hs] at hx'
    rw [hl]
    split_ifs at hx'
    · cases hx'
      cases ho
      exact mem_cons_self ..
    · exact mem_cons_of_mem _ (h.owned c' x' replay hx' ho)
  · intro c₁ c₂ x₁ x₂ replay h₁ h₂ ho₁ ho₂
    rw [hs] at h₁ h₂
    split_ifs at h₁ h₂ with hc₁ hc₂ hc₂
    · rw [hc₁, hc₂]
    · cases h₁
      cases ho₁
      exact absurd (hnew c₂ x₂ _ h₂ ho₂) (lt_irrefl _)
    · cases h₂
      cases ho₂
      exact absurd (hnew c₁ x₁ _ h₁ ho₁) (lt_irrefl _)
    · exact h.owners c₁ c₂ x₁ x₂ replay h₁ h₂ ho₁ ho₂
  · intro l hmem
    rw [hl] at hmem
    rw [hr]
    rcases mem_cons.mp hmem with rfl | hmem
    · exact Nat.lt_succ_self _
    · exact Nat.lt_succ_of_lt (h.fresh l hmem)
  · intro c' x' hx' hphase
    rw [hs] at hx'
    rw [hl]
    split_ifs at hx'
    · cases hx'
      cases hphase
    · obtain ⟨l, hmem, hp⟩ := h.blocked c' x' hx' hphase
      exact ⟨l, mem_cons_of_mem _ hmem, hp⟩

theorem inv_step {a : Action K C} (he : Exact paths s) (hp : Placed paths s) (hs : step paths s a = some s') :
    Exact paths s' ∧ Placed paths s' := by
  have hsame : ∀ {c : C} {key : K} {phase phase' : Phase}, s.submissions c = some ⟨key, phase⟩ →
      (∀ replay, phase'.owns = some replay → phase.owns = some replay) → phase' ≠ .waiting false →
      Exact paths (s.setPhase c key phase') ∧ Placed paths (s.setPhase c key phase') := by
    intro c key phase phase' hx howns hwait
    exact ⟨⟨he.nonempty, he.disjoint, he.byPath, he.byKey⟩, hp.setPhase hx howns fun hc => absurd hc hwait⟩
  have hrelease : ∀ {c : C} {key : K} {phase : Phase} {replay : ℕ}, s.submissions c = some ⟨key, phase⟩ →
      phase.owns = some replay → Exact paths ((s.release paths ⟨key, replay⟩).setPhase c key .gone) ∧
        Placed paths ((s.release paths ⟨key, replay⟩).setPhase c key .gone) := by
    intro c key phase replay hx ho
    have hr := he.release (hp.owned c _ replay hx ho)
    exact ⟨⟨hr.nonempty, hr.disjoint, hr.byPath, hr.byKey⟩, hp.release he hx ho⟩
  cases a with
  | submit c key =>
    simp only [step] at hs
    split at hs
    · rename_i hc
      split_ifs at hs with hne
      cases hs
      refine ⟨⟨he.nonempty, he.disjoint, he.byPath, he.byKey⟩, ?_, ?_, ?_, hp.fresh, ?_⟩
      · intro c' x' hx'
        rw [setPhase_submissions] at hx'
        split_ifs at hx'
        · cases hx'
          exact hne
        · exact hp.nonempty c' x' hx'
      · intro c' x' replay hx' ho
        rw [setPhase_submissions] at hx'
        split_ifs at hx'
        · cases hx'
          cases ho
        · exact hp.owned c' x' replay hx' ho
      · intro c₁ c₂ x₁ x₂ replay h₁ h₂ ho₁ ho₂
        rw [setPhase_submissions] at h₁ h₂
        split_ifs at h₁ h₂
        · cases h₁
          cases ho₁
        · cases h₁
          cases ho₁
        · cases h₂
          cases ho₂
        · exact hp.owners c₁ c₂ x₁ x₂ replay h₁ h₂ ho₁ ho₂
      · intro c' x' hx' hphase
        rw [setPhase_submissions] at hx'
        split_ifs at hx'
        · cases hx'
          cases hphase
        · exact hp.blocked c' x' hx' hphase
    · cases hs
  | lookUp c =>
    simp only [step] at hs
    split at hs
    · rename_i key woken hx
      split at hs <;> cases hs <;> exact hsame hx nofun (by simp)
    · cases hs
  | list c =>
    simp only [step] at hs
    split at hs
    · rename_i key woken hx
      split_ifs at hs with hclaimed
      · cases hs
        have hplaced : Placed paths (s.setPhase c key (.waiting woken)) := by
          refine hp.setPhase hx nofun fun _ => ?_
          obtain ⟨p, hpath, hmem⟩ := hclaimed
          obtain ⟨l, hl, hpl⟩ := (he.byPath p).mp hmem
          exact ⟨l, hl, p, hpath, hpl⟩
        exact ⟨⟨he.nonempty, he.disjoint, he.byPath, he.byKey⟩, hplaced.nonempty, hplaced.owned, hplaced.owners,
          hplaced.fresh, hplaced.blocked⟩
      · cases hs
        refine ⟨he.list hclaimed (hp.nonempty c _ hx) rfl rfl rfl, hp.list hx ?_ rfl rfl⟩
        exact fun c' => setPhase_submissions _ c'
    · cases hs
  | arm c | wakeUp c =>
    simp only [step] at hs
    split at hs
    · rename_i key hx
      cases hs
      exact hsame hx nofun (by simp)
    · cases hs
  | push c =>
    simp only [step] at hs
    split at hs
    · rename_i key replay hx
      cases hs
      exact hsame hx (fun _ hc => hc) (by simp)
    · cases hs
  | cancel c =>
    simp only [step] at hs
    split at hs
    · rename_i key replay hx
      cases hs
      exact hrelease hx rfl
    · cases hs
    · rename_i key phase _ _ hx
      cases hs
      exact hsame hx nofun (by simp)
    · cases hs
  | unlist c =>
    simp only [step] at hs
    split at hs
    · rename_i key replay hx
      cases hs
      exact hrelease hx rfl
    · cases hs

theorem inv_reachable {ok : State K P C → Action K C → Prop} (h : (system K P C paths).ReachableIf ok s) :
    Exact paths s ∧ Placed paths s := by
  refine h.invariant (I := fun s => Exact paths s ∧ Placed paths s) ?_ ?_
  · rintro s rfl
    exact ⟨exact_initial, placed_initial⟩
  · rintro s a s' ⟨he, hp⟩ - hstep
    exact inv_step he hp hstep

/-- The listings that are alive have disjoint paths and different keys, the two maps say
exactly what they claim, and a submission that waits has a wakeup or waits for one of
them. -/
theorem registry_exact (h : (system K P C paths).Reachable s) :
    (s.listings.Pairwise fun l l' => ∀ p ∈ paths l.key, p ∉ paths l'.key) ∧
      (s.listings.Pairwise fun l l' => l.key ≠ l'.key) ∧
      (∀ p, p ∈ s.byPath ↔ ∃ l ∈ s.listings, p ∈ paths l.key) ∧
      (∀ key replay, s.byKey key = some replay ↔ ⟨key, replay⟩ ∈ s.listings) ∧
      ∀ c x woken, s.submissions c = some x → x.phase = .waiting woken →
        woken = true ∨ ∃ l ∈ s.listings, ∃ p ∈ paths x.key, p ∈ paths l.key := by
  obtain ⟨he, hp⟩ := inv_reachable h
  refine ⟨he.disjoint, he.keys, he.byPath, he.byKey, fun c x woken hx hphase => ?_⟩
  cases woken with
  | true => exact .inl rfl
  | false => exact .inr (hp.blocked c x hx hphase)

/-- Two requests with a common path: the second waits, and is woken when the first job is
unlisted. -/
theorem registry_exact_after_conflict : ∃ s, (system ℕ ℕ ℕ fun key => [key, 9]).Reachable s ∧
    (s.submissions 1).map Submission.phase = some (.waiting true) ∧ s.listings = [] ∧ s.byPath = ∅ ∧
    ∀ key replay, s.byKey key = some replay ↔ ⟨key, replay⟩ ∈ s.listings := by
  obtain ⟨s, hr, htest⟩ := (system ℕ ℕ ℕ fun key => [key, 9]).exists_reachable_of_exec State.initial
    [.submit 0 3, .arm 0, .lookUp 0, .list 0, .push 0, .submit 1 4, .arm 1, .lookUp 1, .list 1, .unlist 0]
    (fun s => (s.submissions 1).map Submission.phase = some (.waiting true) ∧ s.listings = [] ∧ s.byPath = ∅) rfl
    (by decide)
  obtain ⟨hphase, hlist, hpath⟩ := htest
  exact ⟨s, hr, hphase, hlist, hpath, (registry_exact hr).2.2.2.1⟩

end Tribuchet.Hub.Inflight
