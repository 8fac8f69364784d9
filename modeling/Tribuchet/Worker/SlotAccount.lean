import Tribuchet.Base.Table
import Tribuchet.Worker.Slots

/-! Where the worker's slots and builds are. Every permit is free, with a staging
build, with an executing build or on its way back, and at most one staging build
has no slot as long as no more than one build too many arrives. -/

namespace Tribuchet.Worker.Slots

open Runs Table Option Slots.Session

variable {B : Type} [DecidableEq B]

/-- The build `handle_assignment` has received and not registered yet. -/
@[simp] def Pc.arriving : Pc B → Option B
  | .assigning id => some id
  | .releasing next => next.arriving
  | _ => none

@[simp] def Pc.unreleased : Pc B → ℕ
  | .releasing next => next.unreleased + 1
  | _ => 0

namespace Session

def used (s : Session B) : ℕ :=
  count Build.slot s.active + s.running.length + s.dropping + s.pc.unreleased

def slotless (s : Session B) : ℕ := count (fun b => !b.slot) s.active

def builds (s : Session B) : ℕ :=
  s.active.entries.length + s.running.length + s.dropping + s.pc.arriving.isSome.toNat

end Session

omit [DecidableEq B] in
theorem builds_eq (s : Session B) : s.builds = count Build.slot s.active + s.slotless +
    s.running.length + s.dropping + s.pc.arriving.isSome.toNat := by
  rw [builds, slotless, count_add_count_not]

/-- The accounts of a worker with `n` slots. -/
structure Account (n : ℕ) (s : Session B) : Prop where
  slots : s.permits + s.used = n
  single : s.slotless ≤ 1
  fresh : ∀ id, s.pc.arriving = some id → s.active.lookup id = none

@[simp] def Action.arrives : Action B → ℕ
  | .assignment _ => 1
  | _ => 0

variable {n : ℕ} {s : Session B}

variable (h : Account n s)

include h

theorem Account.capacity_le (ha : s.pc.arriving = none)
    (hu : s.pc.unreleased = 0) : s.builds + s.capacity.toNat ≤ n + 1 := by
  have hslots := h.slots
  have hsingle := h.single
  have hcap : s.capacity.toNat ≤ s.permits + s.lookahead.toNat := by
    rw [capacity, UInt32.toNat_ofNat_of_lt' (lt_of_le_of_lt (min_le_right _ _) (by decide))]
    exact min_le_left _ _
  have hla : s.lookahead.toNat + s.slotless ≤ 1 := by
    cases hl : s.lookahead with
    | false => simpa using hsingle
    | true =>
      -- with lookahead every active build holds a slot
      have hall : ∀ e ∈ s.active.entries, e.2.slot = true := by
        simp only [lookahead, Bool.and_eq_true, List.all_eq_true] at hl
        exact hl.2
      have : s.slotless = 0 := by
        rw [slotless, count, List.countP_eq_zero]
        intro e he
        simp [hall e he]
      simp [this]
  rw [builds_eq, ha]
  simp only [used, hu] at hslots
  simp only [isSome_none, Bool.toNat_false]
  omega

theorem account_abort (id : B) {next : Pc B}
    (hpc : s.pc.arriving = none) (hu : s.pc.unreleased = 0) (hnu : next.unreleased = 0)
    (hn : ∀ i, next.arriving = some i → i = id) : Account n (s.abort id next) ∧
      (s.abort id next).builds ≤ s.builds + next.arriving.isSome.toNat := by
  obtain ⟨hslots, hsingle, -⟩ := h
  have hfresh : ∀ i, next.arriving = some i → (s.active.erase id).lookup i = none := by
    intro i hi
    rw [hn i hi, AList.lookup_erase]
  have hle : (s.active.erase id).entries.length ≤ s.active.entries.length := by
    simpa [count] using count_erase_le (fun _ => true) s.active id
  have hless : count (fun b => !b.slot) (s.active.erase id) ≤ s.slotless := count_erase_le _ _ _
  unfold abort
  split
  · rename_i staged hl
    have hs := count_eq_erase_add hl Build.slot
    refine ⟨⟨?_, ?_, hfresh⟩, ?_⟩
    · simp only [used, Pc.unreleased, hu, hnu, hs] at hslots ⊢
      simp only [Bool.toNat_true] at hslots
      omega
    · exact le_trans hless hsingle
    · simp only [builds, Pc.arriving, hpc, isSome_none, Bool.toNat_false]
      omega
  · rename_i hl
    have hs : count Build.slot s.active = count Build.slot (s.active.erase id) := by
      cases hb : s.active.lookup id with
      | none => rw [erase_eq_self hb]
      | some b =>
        obtain ⟨slot, staged⟩ := b
        cases slot with
        | false => simp [count_eq_erase_add hb]
        | true => exact absurd hb (hl staged)
    refine ⟨⟨?_, le_trans hless hsingle, hfresh⟩, ?_⟩
    · simp only [used, hu, hnu, hs] at hslots ⊢
      exact hslots
    · simp only [builds, hpc, isSome_none, Bool.toNat_false]
      omega

omit h in
/-- Launching moves a build from `active` to its thread. It holds a slot then: its
own or one just taken, and a slot too many is on its way back. -/
theorem account_launch {id : B} {b : Build} (next : Pc B) (taken : ℕ)
    (hslots : s.permits + taken + s.used = n) (hsingle : s.slotless ≤ 1)
    (hb : s.active.lookup id = some b) (htaken : taken + b.slot.toNat = 1 + next.unreleased)
    (hpc : s.pc.arriving = none) (hu : s.pc.unreleased = 0) (hn : next.arriving = none) :
    Account n (s.launch id next) ∧ (s.launch id next).builds ≤ s.builds := by
  have hs := count_eq_erase_add hb Build.slot
  have hl : s.active.entries.length = (s.active.erase id).entries.length + 1 := by
    simpa [count] using count_eq_erase_add hb (fun _ => true)
  refine ⟨⟨?_, le_trans (count_erase_le _ _ _) hsingle, by simp [launch, hn]⟩, ?_⟩
  · simp only [launch, used, hu, hs, List.length_cons] at hslots ⊢
    omega
  · simp only [launch, builds, hpc, hn, List.length_cons, hl]
    omega

theorem account_grantNext (hpc : s.pc = .granting) : Account n s.grantNext ∧ s.grantNext.builds ≤ s.builds := by
  obtain ⟨hslots, hsingle, -⟩ := h
  have hidle : Account n { s with pc := .declaring 0 } ∧
      builds { s with pc := .declaring 0 } ≤ s.builds := by
    refine ⟨⟨?_, hsingle, by simp⟩, ?_⟩
    · simpa [used, hpc] using hslots
    · simp [builds, hpc]
  unfold grantNext
  split
  · exact hidle
  · rename_i rest _
    split
    · exact ⟨⟨hslots, hsingle, by simp [hpc]⟩, le_rfl⟩
    · rename_i b hb
      split_ifs with h1 h2
      · exact hidle
      · have hl := account_launch (n := n) (b := b) (.releasing .granting) 1
          (s := { s with permits := s.permits - 1, ready := rest, slotFreed := true })
          (by simp only [used] at hslots ⊢; omega) hsingle hb (by simp [h2])
          (by simp [hpc]) (by simp [hpc]) rfl
        exact hl
      · have hl := account_launch (n := n) (b := b) .granting 1
          (s := { s with permits := s.permits - 1, ready := rest })
          (by simp only [used] at hslots ⊢; omega) hsingle hb (by simp [h2])
          (by simp [hpc]) (by simp [hpc]) rfl
        exact hl

theorem account_advanceReady {id : B} {b : Build} (hb : s.active.lookup id = some b) (hpc : s.pc = .select) :
    Account n (s.advanceReady id b.slot) ∧ (s.advanceReady id b.slot).builds ≤ s.builds := by
  obtain ⟨hslots, hsingle, -⟩ := h
  unfold advanceReady
  split_ifs with h1 h2
  · exact account_launch _ 0 hslots hsingle hb (by simp [h1])
      (by simp [hpc]) (by simp [hpc]) rfl
  · -- the build stays active without a slot
    have hcount : ∀ f : Build → Bool, f ⟨false, true⟩ = f b →
        count f (s.active.insert id ⟨false, true⟩) = count f s.active := by
      intro f hf
      rw [count_insert, count_eq_erase_add hb, hf]
    have hb' : b.slot = false := by simpa using h1
    have hlen : (s.active.insert id (⟨false, true⟩ : Build)).entries.length =
        s.active.entries.length := by
      simpa [count] using hcount (fun _ => true) rfl
    refine ⟨⟨?_, ?_, by simp⟩, ?_⟩
    · simp only [used, hcount Build.slot (by simp [hb']), Pc.unreleased, hpc] at hslots ⊢
      exact hslots
    · rw [slotless, hcount _ (by simp [hb'])]
      exact hsingle
    · simp only [builds, hlen, hpc, Pc.arriving, le_refl]
  · have hl := account_launch (n := n) (b := b) (.declaring 0) 1
      (s := { s with permits := s.permits - 1 })
      (by simp only [used] at hslots ⊢; omega) hsingle hb (by simp [h1])
      (by simp [hpc]) (by simp [hpc]) rfl
    exact hl

/-- A build is registered without a slot only when every slot is used, and then no
other build is without one, or there would be two builds more than slots. -/
theorem account_placeBuild {id : B} (valid : Bool) (hpc : s.pc = .assigning id) (hroom : s.builds ≤ n + 1) :
    Account n (s.placeBuild id valid) ∧ (s.placeBuild id valid).builds ≤ s.builds := by
  obtain ⟨hslots, hsingle, hfresh⟩ := h
  have hnone : s.active.lookup id = none := hfresh id (by simp [hpc])
  have hcount : ∀ (f : Build → Bool) (b : Build),
      count f (s.active.insert id b) = count f s.active + (f b).toNat := by
    intro f b
    rw [count_insert, erase_eq_self hnone]
  have hlen : ∀ b : Build, (s.active.insert id b).entries.length = s.active.entries.length + 1 := by
    intro b
    simpa [count] using hcount (fun _ => true) b
  have hbuilds := builds_eq s
  simp only [used, hpc, Pc.unreleased] at hslots
  simp only [hpc, Pc.arriving, isSome_some, Bool.toNat_true] at hbuilds
  unfold placeBuild
  split_ifs with h1 h2
  · refine ⟨⟨?_, hsingle, by simp⟩, ?_⟩
    · simpa [used] using hslots
    · simp [builds, hpc]
  · refine ⟨⟨?_, ?_, by simp⟩, ?_⟩
    · simp only [used, Pc.unreleased, hcount, Bool.toNat_false]
      omega
    · rw [slotless, hcount]
      change s.slotless + 1 ≤ 1
      omega
    · simp only [builds, hpc, Pc.arriving, hlen, isSome_none, isSome_some,
        Bool.toNat_false, Bool.toNat_true]
      omega
  · refine ⟨⟨?_, ?_, by simp⟩, ?_⟩
    · simp only [used, Pc.unreleased, hcount, Bool.toNat_true]
      omega
    · rw [slotless, hcount]
      exact hsingle
    · simp only [builds, hpc, Pc.arriving, hlen, isSome_none, isSome_some,
        Bool.toNat_false, Bool.toNat_true]
      omega

theorem account_step {s' : Session B} {a : Action B} {out : Option UInt32} (hroom : s.builds ≤ n + 1) (hs : step s a = some (s', out)) :
    Account n s' ∧ s'.builds ≤ s.builds + a.arrives := by
  obtain ⟨hslots, hsingle, hfresh⟩ := id h
  cases a with
  | dropSlot id =>
    simp only [step] at hs
    split at hs <;> cases hs
    rename_i hid
    have hl : (s.running.erase id).length + 1 = s.running.length := by
      have := List.length_pos_of_mem hid
      rw [List.length_erase_of_mem hid]
      omega
    refine ⟨⟨?_, hsingle, hfresh⟩, ?_⟩
    · simp only [used] at hslots ⊢
      omega
    · simp only [builds, Action.arrives]
      omega
  | releasePermit =>
    simp only [step] at hs
    split at hs <;> cases hs
    refine ⟨⟨?_, hsingle, hfresh⟩, ?_⟩
    · simp only [used] at hslots ⊢
      omega
    · simp only [builds, Action.arrives]
      omega
  | grant =>
    simp only [step] at hs
    split at hs <;> cases hs
    exact account_grantNext h ‹_›
  | assignment id =>
    simp only [step] at hs
    split at hs <;> cases hs
    exact account_abort h id (by simp [*]) (by simp [*]) rfl
      (by rintro i hi; simpa using hi.symm)
  | place valid =>
    simp only [step] at hs
    split at hs <;> cases hs
    exact account_placeBuild h valid ‹_› hroom
  | negotiated ok =>
    simp only [step] at hs
    split at hs
    · rename_i id hpc
      simp only [used, hpc, Pc.unreleased] at hslots
      split at hs <;> cases hs
      · refine ⟨⟨hslots, hsingle, by simp⟩, ?_⟩
        simp [builds, hpc]
      · exact account_abort h id (by simp [hpc]) (by simp [hpc]) rfl
          (by simp)
    · cases hs
  | staged id =>
    simp only [step] at hs
    split at hs <;> cases hs
    exact account_advanceReady h ‹_› ‹_›
  | stagingError id | cancel id =>
    simp only [step] at hs
    split at hs <;> cases hs
    exact account_abort h id (by simp [*]) (by simp [*]) rfl
      (by simp)
  | slotFreed | queue | heartbeat =>
    simp only [step] at hs
    split at hs <;> cases hs
    have hpc := ‹s.pc = _›
    simp only [used, hpc, Pc.unreleased] at hslots
    refine ⟨⟨hslots, hsingle, by simp⟩, ?_⟩
    simp [builds, hpc]
  | release =>
    simp only [step] at hs
    split at hs <;> cases hs
    rename_i next hpc
    simp only [used, hpc, Pc.unreleased] at hslots
    refine ⟨⟨?_, hsingle, by simpa [hpc] using hfresh⟩, ?_⟩
    · simp only [used]
      omega
    · simp [builds, hpc]
  | declare =>
    simp only [step] at hs
    split at hs <;> cases hs <;> rename_i hpc <;>
      simp only [used, hpc, Pc.unreleased] at hslots
    · refine ⟨⟨hslots, hsingle, by simp⟩, ?_⟩
      simp [builds, hpc]
    · refine ⟨⟨hslots, hsingle, by simp⟩, ?_⟩
      simp [builds, hpc]

/-- Only `declare_capacity` sends a declaration, and the builds it counted and the
capacity it declares fit the slots and the lookahead build. -/
theorem declared_fits {s' : Session B} {a : Action B} {c : UInt32}
    (hs : step s a = some (s', some c)) : s'.builds = s.builds ∧ s.builds + c.toNat ≤ n + 1 := by
  cases a with
  | declare =>
    simp only [step] at hs
    split at hs <;> cases hs <;> rename_i hpc
    · exact ⟨by simp [builds, hpc],
        h.capacity_le (by simp [hpc]) (by simp [hpc])⟩
    · exact ⟨by simp [builds, hpc],
        h.capacity_le (by simp [hpc]) (by simp [hpc])⟩
  | _ => simp only [step] at hs; split at hs <;> (try split at hs) <;> simp_all

omit h

end Tribuchet.Worker.Slots
