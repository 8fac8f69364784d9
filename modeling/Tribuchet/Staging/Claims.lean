import Mathlib.Data.List.Basic
import Mathlib.Logic.Function.Basic
import Mathlib.Tactic.ByContra
import Tribuchet.Base.Table

/-! The registry of input paths some build is importing (`worker/build/claims.rs`).
A claim is a watch channel whose sender is in the registry; a build that comes later
keeps a receiver and a watcher task, which sends one `Wake` once the claim settles.
`Consistent` relates the registry to the builds' own records of what they claimed and
what they wait on. -/

namespace Tribuchet.Staging

open Function Table AList

variable {B P : Type} [DecidableEq P]

inductive ClaimState
  | running
  | done
  | failed
  deriving DecidableEq

/-- A watch channel: its value, and whether the sender still exists. -/
structure Watch where
  state : ClaimState
  sender : Bool
  deriving DecidableEq

/-- The task that sends a `Wake` for a waiting build. -/
structure Watcher (B P : Type) where
  channel : ℕ
  build : B
  path : P
  deriving DecidableEq

structure Claims (B P : Type) where
  map : AList fun _ : P => ℕ
  channels : ℕ → Watch
  next : ℕ
  watchers : List (Watcher B P)

namespace Claims

def empty : Claims B P := ⟨∅, fun _ => ⟨.failed, false⟩, 0, []⟩

/-- `claim_or_wait`: nothing when the path is the caller's now, else the channel to
wait on. -/
def claimOrWait (c : Claims B P) (path : P) (build : B) : Option ℕ × Claims B P :=
  match c.map.lookup path with
  | some channel => (some channel, { c with watchers := c.watchers ++ [⟨channel, build, path⟩] })
  | none => (none, { c with
      map := c.map.insert path c.next
      channels := update c.channels c.next ⟨.running, true⟩
      next := c.next + 1 })

def settle (c : Claims B P) (path : P) (state : ClaimState) : Claims B P :=
  match c.map.lookup path with
  | none => c
  | some channel => { c with
      map := c.map.erase path
      channels := update c.channels channel ⟨state, false⟩ }

/-- `Wait::settled`: nothing while the claim is running. -/
def settled (c : Claims B P) (channel : ℕ) : Option ClaimState :=
  match c.channels channel with
  | ⟨.running, true⟩ => none
  | ⟨.done, _⟩ => some .done
  | ⟨_, _⟩ => some .failed

omit [DecidableEq P] in
theorem settled_of_done {c : Claims B P} {channel : ℕ} (h : (c.channels channel).state = .done) :
    c.settled channel = some .done := by
  unfold settled
  split <;> simp_all

omit [DecidableEq P] in
theorem settled_of_failed {c : Claims B P} {channel : ℕ} (h : (c.channels channel).state = .failed) :
    c.settled channel = some .failed := by
  unfold settled
  split <;> simp_all

def settleAll (c : Claims B P) (paths : List P) (state : ClaimState) : Claims B P :=
  paths.foldl (fun c p => c.settle p state) c

variable [DecidableEq B]

/-- Dropping a `Wait` aborts its watcher. -/
def dropWait (c : Claims B P) (build : B) (path : P) : Claims B P :=
  { c with watchers := c.watchers.filter fun w => ¬ (w.build = build ∧ w.path = path) }

/-- Dropping every `Wait` of a build. -/
def dropWaits (c : Claims B P) (build : B) : Claims B P :=
  { c with watchers := c.watchers.filter fun w => w.build ≠ build }

end Claims

/-- `own b p`: build `b` has claimed `p`; `waits b p`: the channel it waits on for `p`. -/
structure Claims.Consistent (c : Claims B P) (own : B → P → Prop) (waits : B → P → Option ℕ) : Prop where
  running : ∀ p channel, c.map.lookup p = some channel → channel < c.next ∧ c.channels channel = ⟨.running, true⟩
  distinct : ∀ p q channel, c.map.lookup p = some channel → c.map.lookup q = some channel → p = q
  owner : ∀ p, p ∈ c.map ↔ ∃ b, own b p
  exclusive : ∀ b b' p, own b p → own b' p → b = b'
  waiting : ∀ b p channel, waits b p = some channel →
    channel < c.next ∧ (c.map.lookup p = some channel ∨ (c.channels channel).state ≠ .running)
  watchers : ∀ w ∈ c.watchers, waits w.build w.path = some w.channel

namespace Claims.Consistent

variable {c : Claims B P} {own own' : B → P → Prop} {waits waits' : B → P → Option ℕ} {b : B} {p : P}

variable (h : c.Consistent own waits)

include h

theorem running_owned {channel : ℕ} (hw : waits b p = some channel)
    (hs : (c.channels channel).state = .running) : ∃ b', own b' p := by
  rcases (h.waiting b p channel hw).2 with hm | hn
  · exact (h.owner p).mp (mem_of_lookup hm)
  · exact absurd hs hn

theorem claim_mine (hl : c.map.lookup p = none) (ho : ∀ b' q, own' b' q ↔ own b' q ∨ b' = b ∧ q = p) :
    (c.claimOrWait p b).2.Consistent own' waits := by
  have hfree : ∀ b', ¬ own b' p := by
    intro b' hb
    exact lookup_eq_none.mp hl ((h.owner p).mpr ⟨b', hb⟩)
  simp only [Claims.claimOrWait, hl]
  refine ⟨?_, ?_, ?_, ?_, ?_, h.watchers⟩
  · intro q channel hq
    simp only [lookup_insert_eq] at hq
    split_ifs at hq with heq
    · cases hq
      exact ⟨Nat.lt_succ_self _, update_self ..⟩
    · obtain ⟨hlt, hc⟩ := h.running q channel hq
      refine ⟨Nat.lt_succ_of_lt hlt, ?_⟩
      simpa only [update_of_ne (ne_of_lt hlt)] using hc
  · intro q q' channel hq hq'
    simp only [lookup_insert_eq] at hq hq'
    split_ifs at hq hq' with h1 h2 h2
    · rw [h1, h2]
    · cases hq
      exact absurd (h.running q' _ hq').1 (lt_irrefl _)
    · cases hq'
      exact absurd (h.running q _ hq).1 (lt_irrefl _)
    · exact h.distinct q q' channel hq hq'
  · intro q
    simp only [mem_insert, h.owner q, ho]
    constructor
    · rintro (rfl | ⟨b', hb⟩)
      · exact ⟨b, .inr ⟨rfl, rfl⟩⟩
      · exact ⟨b', .inl hb⟩
    · rintro ⟨b', hb | ⟨-, rfl⟩⟩
      · exact .inr ⟨b', hb⟩
      · exact .inl rfl
  · intro b₁ b₂ q h₁ h₂
    rcases (ho b₁ q).mp h₁ with h₁ | ⟨rfl, rfl⟩
    · rcases (ho b₂ q).mp h₂ with h₂ | ⟨rfl, rfl⟩
      · exact h.exclusive b₁ b₂ q h₁ h₂
      · exact absurd h₁ (hfree b₁)
    · rcases (ho b₂ q).mp h₂ with h₂ | ⟨rfl, -⟩
      · exact absurd h₂ (hfree b₂)
      · rfl
  · intro b' q channel hw
    obtain ⟨hlt, hor⟩ := h.waiting b' q channel hw
    refine ⟨Nat.lt_succ_of_lt hlt, ?_⟩
    simp only [update_of_ne (ne_of_lt hlt), lookup_insert_eq]
    rcases hor with hm | hn
    · left
      rw [if_neg]
      · exact hm
      · rintro rfl
        rw [hl] at hm
        cases hm
    · exact .inr hn

theorem claim_theirs {channel : ℕ} (hl : c.map.lookup p = some channel) (hw : waits b p = none)
    [DecidableEq B] (hw' : ∀ b' q, waits' b' q = if b' = b ∧ q = p then some channel else waits b' q) :
    (c.claimOrWait p b).2.Consistent own waits' := by
  simp only [Claims.claimOrWait, hl]
  refine ⟨h.running, h.distinct, h.owner, h.exclusive, ?_, ?_⟩
  · intro b' q ch hq
    rw [hw'] at hq
    split_ifs at hq with heq
    · cases hq
      exact ⟨(h.running p channel hl).1, .inl (heq.2 ▸ hl)⟩
    · exact h.waiting b' q ch hq
  · intro w hm
    rw [hw']
    rcases List.mem_append.mp hm with hm | hm
    · have hold := h.watchers w hm
      rw [if_neg]
      · exact hold
      · rintro ⟨hb, hp⟩
        rw [hb, hp, hw] at hold
        cases hold
    · rw [List.mem_singleton.mp hm, if_pos ⟨rfl, rfl⟩]

theorem settle {state : ClaimState} (hs : state ≠ .running)
    (ho : ∀ b' q, own' b' q ↔ own b' q ∧ q ≠ p) : (c.settle p state).Consistent own' waits := by
  unfold Claims.settle
  cases hl : c.map.lookup p with
  | none =>
    have hsame : ∀ b' q, own' b' q ↔ own b' q := by
      intro b' q
      rw [ho]
      refine and_iff_left_of_imp ?_
      rintro hb rfl
      exact lookup_eq_none.mp hl ((h.owner q).mpr ⟨b', hb⟩)
    refine ⟨h.running, h.distinct, fun q => ?_, fun b₁ b₂ q h₁ h₂ => ?_, h.waiting, h.watchers⟩
    · simp only [hsame]
      exact h.owner q
    · exact h.exclusive b₁ b₂ q ((hsame b₁ q).mp h₁) ((hsame b₂ q).mp h₂)
  | some channel =>
    have hkeep : ∀ q ch, c.map.lookup q = some ch → q ≠ p → ch ≠ channel := by
      rintro q ch hq hne rfl
      exact hne (h.distinct q p ch hq hl)
    refine ⟨?_, ?_, ?_, ?_, ?_, h.watchers⟩
    · intro q ch hq
      simp only [lookup_erase_eq] at hq
      split_ifs at hq with hne
      simp only [update_of_ne (hkeep q ch hq hne)]
      exact h.running q ch hq
    · intro q q' ch hq hq'
      simp only [lookup_erase_eq] at hq hq'
      split_ifs at hq hq'
      exact h.distinct q q' ch hq hq'
    · intro q
      simp only [mem_erase, h.owner q, ho]
      constructor
      · rintro ⟨hne, b', hb⟩
        exact ⟨b', hb, hne⟩
      · rintro ⟨b', hb, hne⟩
        exact ⟨hne, b', hb⟩
    · intro b₁ b₂ q h₁ h₂
      exact h.exclusive b₁ b₂ q ((ho b₁ q).mp h₁).1 ((ho b₂ q).mp h₂).1
    · intro b' q ch hw
      obtain ⟨hlt, hor⟩ := h.waiting b' q ch hw
      refine ⟨hlt, ?_⟩
      by_cases heq : ch = channel
      · subst heq
        simp only [update_self]
        exact .inr hs
      · simp only [update_of_ne heq, lookup_erase_eq]
        refine hor.imp_left fun hm => ?_
        rw [if_neg]
        · exact hm
        · rintro rfl
          rw [hl, Option.some.injEq] at hm
          exact heq hm.symm

theorem settleAll {state : ClaimState} (hs : state ≠ .running) {paths : List P}
    (ho : ∀ b' q, own' b' q ↔ own b' q ∧ q ∉ paths) : (c.settleAll paths state).Consistent own' waits := by
  induction paths generalizing c own with
  | nil =>
    have heq : own' = own := by
      funext b' q
      simpa using ho b' q
    rw [heq]
    exact h
  | cons q paths ih =>
    have hq : (c.settle q state).Consistent (fun b' r => own b' r ∧ r ≠ q) waits :=
      h.settle hs fun b' r => Iff.rfl
    apply ih hq
    intro b' r
    rw [ho, List.mem_cons, not_or]
    tauto

omit h

theorem filterWaits {D : B → P → Prop} [∀ b q, Decidable (D b q)] (h : c.Consistent own waits)
    (hw' : ∀ b' q, waits' b' q = if D b' q then none else waits b' q) :
    { c with watchers := c.watchers.filter fun w => ¬ D w.build w.path }.Consistent own waits' := by
  refine ⟨h.running, h.distinct, h.owner, h.exclusive, ?_, ?_⟩
  · intro b' q ch hq
    rw [hw'] at hq
    split_ifs at hq
    exact h.waiting b' q ch hq
  · intro w hm
    obtain ⟨hm, hne⟩ := List.mem_filter.mp hm
    rw [hw', if_neg (of_decide_eq_true hne)]
    exact h.watchers w hm

end Claims.Consistent

end Tribuchet.Staging
