import Mathlib.Algebra.GroupWithZero.Nat
import Mathlib.Data.List.AList
import Tribuchet.Base.Runs

/-! Build slots on the worker (`worker.rs`, `worker/session.rs`). A slot is a
semaphore permit; the session loop hands slots to fully staged builds and build
threads give them back by dropping their `Slot`. Rust runs the `Drop` body, which
notifies the session loop, before it drops the fields, which releases the permit,
so the two are separate steps here. The session loop is one task: `Pc` says where
it stands inside a handler, and each look at the semaphore is a step of its own. -/

namespace Tribuchet.Worker.Slots

open Runs

variable {B : Type} [DecidableEq B]

/-- Where `session_loop` stands. -/
inductive Pc (B : Type)
  /-- in `select!` -/
  | select
  /-- `slot_freed` was received: inside the loop of `grant_slots` -/
  | granting
  /-- `try_slot` failed for a staged build; the push to `ready` comes next -/
  | queueing (id : B)
  /-- inside `handle_assignment`, before `try_slot` -/
  | assigning (id : B)
  /-- `negotiate` of a freshly assigned build -/
  | negotiating (id : B)
  /-- `declare_capacity` comes next, then that many more times -/
  | declaring (more : ℕ)
  /-- an aborted build's `Slot` has notified and gives its permit back next -/
  | releasing (next : Pc B)
  deriving DecidableEq

/-- A build in `active`: whether it holds a slot, and whether everything it needs
is staged. -/
structure Build where
  slot : Bool
  staged : Bool
  deriving DecidableEq

structure Session (B : Type) where
  /-- free permits of `ctx.slots` -/
  permits : ℕ
  /-- the permit stored in `ctx.slot_freed` -/
  slotFreed : Bool
  active : AList fun _ : B => Build
  ready : List B
  running : List B
  /-- slots whose `Drop` body has run and whose permit is not released yet -/
  dropping : ℕ
  pc : Pc B

inductive Action (B : Type)
  | dropSlot (id : B)
  | releasePermit
  | slotFreed
  | grant
  | assignment (id : B)
  | place (valid : Bool)
  | negotiated (ok : Bool)
  | staged (id : B)
  | queue
  | stagingError (id : B)
  | cancel (id : B)
  | heartbeat
  | release
  | declare

namespace Session

/-- Take a build out of `active` and abort it, dropping its slot if it has one. -/
def abort (s : Session B) (id : B) (next : Pc B) : Session B :=
  match s.active.lookup id with
  | some ⟨true, _⟩ => { s with active := s.active.erase id, slotFreed := true, pc := .releasing next }
  | _ => { s with active := s.active.erase id, pc := next }

/-- `launch_build`: the build moves to its own thread with its slot. -/
def launch (s : Session B) (id : B) (next : Pc B) : Session B :=
  { s with active := s.active.erase id, running := id :: s.running, pc := next }

/-- One lookahead build may be staged while every slot is busy. -/
def lookahead (s : Session B) : Bool := s.ready.isEmpty && s.active.entries.all fun e => e.2.slot

/-- The capacity `declare_capacity` sends. -/
def capacity (s : Session B) : UInt32 :=
  UInt32.ofNat (min (s.permits + s.lookahead.toNat) (2 ^ 32 - 1))

/-- One turn of the loop in `grant_slots`. -/
def grantNext (s : Session B) : Session B :=
  match s.ready with
  | [] => { s with pc := .declaring 0 }
  | id :: rest =>
    match s.active.lookup id with
    -- cancel may have removed it from active
    | none => { s with ready := rest }
    | some b =>
      if s.permits = 0 then { s with pc := .declaring 0 }
      -- a slot the build already has is dropped when the new one is stored
      else if b.slot then
        { s with permits := s.permits - 1, ready := rest, slotFreed := true }.launch id
          (.releasing .granting)
      else { s with permits := s.permits - 1, ready := rest }.launch id .granting

/-- `advance_staging` of a build that is completely staged. -/
def advanceReady (s : Session B) (id : B) (slot : Bool) : Session B :=
  if slot then s.launch id (.declaring 0)
  else if s.permits = 0 then
    { s with active := s.active.insert id ⟨false, true⟩, pc := .queueing id }
  else { s with permits := s.permits - 1 }.launch id (.declaring 0)

/-- The end of `handle_assignment`: validate, try for a slot, register. -/
def placeBuild (s : Session B) (id : B) (valid : Bool) : Session B :=
  if !valid then { s with pc := .declaring 0 }
  else if s.permits = 0 then { s with active := s.active.insert id ⟨false, false⟩, pc := .negotiating id }
  else { s with
    permits := s.permits - 1
    active := s.active.insert id ⟨true, false⟩
    pc := .negotiating id }

end Session

def step (s : Session B) : Action B → Option (Session B × Option UInt32)
  | .dropSlot id =>
    if id ∈ s.running then some ({ s with
      running := s.running.erase id
      dropping := s.dropping + 1
      slotFreed := true }, none) else none
  | .releasePermit =>
    if 0 < s.dropping then
      some ({ s with dropping := s.dropping - 1, permits := s.permits + 1 }, none) else none
  | .slotFreed =>
    match s.pc, s.slotFreed with
    | .select, true => some ({ s with slotFreed := false, pc := .granting }, none)
    | _, _ => none
  | .grant =>
    match s.pc with
    | .granting => some (s.grantNext, none)
    | _ => none
  | .assignment id =>
    match s.pc with
    -- a build already active under this id is discarded
    | .select => some (s.abort id (.assigning id), none)
    | _ => none
  | .place valid =>
    match s.pc with
    | .assigning id => some (s.placeBuild id valid, none)
    | _ => none
  | .negotiated ok =>
    match s.pc with
    | .negotiating id =>
      if ok then some ({ s with pc := .declaring 0 }, none)
      else some (s.abort id (.declaring 1), none)
    | _ => none
  | .staged id =>
    match s.pc, s.active.lookup id with
    | .select, some b => some (s.advanceReady id b.slot, none)
    | _, _ => none
  | .queue =>
    match s.pc with
    | .queueing id => some ({ s with ready := s.ready ++ [id], pc := .select }, none)
    | _ => none
  | .stagingError id =>
    match s.pc, s.active.lookup id with
    | .select, some _ => some (s.abort id (.declaring 0), none)
    | _, _ => none
  | .cancel id =>
    match s.pc with
    | .select => some (s.abort id (.declaring 0), none)
    | _ => none
  | .heartbeat =>
    match s.pc with
    | .select => some ({ s with pc := .declaring 0 }, none)
    | _ => none
  | .release =>
    match s.pc with
    | .releasing next => some ({ s with permits := s.permits + 1, pc := next }, none)
    | _ => none
  | .declare =>
    match s.pc with
    | .declaring 0 => some ({ s with pc := .select }, some s.capacity)
    | .declaring (n + 1) => some ({ s with pc := .declaring n }, some s.capacity)
    | _ => none

/-- A worker that has just connected; adopted builds may already run. -/
def start (permits : ℕ) (running : List B) (slotFreed : Bool) : Session B where
  permits := permits
  slotFreed := slotFreed
  active := ∅
  ready := []
  running := running
  dropping := 0
  pc := .declaring 0

def system (B : Type) [DecidableEq B] : System (Session B) (Action B) where
  init s := ∃ permits running slotFreed, s = start permits running slotFreed
  step s a := (step s a).map Prod.fst

/-- A fully staged build waits in `ready` and is still in `active`. -/
def Waiting (s : Session B) : Prop := ∃ id ∈ s.ready, ∃ b, s.active.lookup id = some b ∧ b.staged = true

/-- If a staged build waits and a permit is free, a notification is stored or
`grant_slots` is still to run. -/
def WillWake (s : Session B) : Prop :=
  Waiting s → 0 < s.permits → s.slotFreed = true ∨ s.pc = .granting

/-- The session loop receives no notification while a `Slot` is between its
`Drop` body and the release of its permit. -/
def Undisturbed (s : Session B) : Action B → Prop
  | .slotFreed => s.dropping = 0
  | _ => True

/-! ### Every freed permit is announced -/

/-- The notification outlives every permit that is about to be released. -/
structure Inv (s : Session B) : Prop where
  dropping : 0 < s.dropping → s.slotFreed = true
  releasing : ∀ next, s.pc = .releasing next → s.slotFreed = true
  queueing : ∀ id, s.pc = .queueing id → 0 < s.permits → s.slotFreed = true
  wakes : WillWake s

theorem inv_start (permits : ℕ) (running : List B) (slotFreed : Bool) : Inv (start permits running slotFreed) where
  dropping := by simp [start]
  releasing := by simp [start]
  queueing := by simp [start]
  wakes := by rintro ⟨id, hid, -⟩; simp [start] at hid

variable {s : Session B}

/-- A handler step that makes no build wait, frees no permit and keeps the
notification also keeps the promise to wake. -/
theorem WillWake.mono {t : Session B} (h : WillWake s) (hpc : s.pc ≠ .granting)
    (hw : Waiting t → Waiting s) (hp : t.permits ≤ s.permits)
    (hf : s.slotFreed = true → t.slotFreed = true) : WillWake t := by
  intro ht hpos
  rcases h (hw ht) (by omega) with hs | hs
  · exact .inl (hf hs)
  · exact absurd hs hpc

theorem WillWake.of_permits_zero (h : s.permits = 0) : WillWake s := by
  intro _ hp
  omega

theorem Waiting.of_erase {t : Session B} {id : B} (hr : t.ready = s.ready)
    (ha : t.active = s.active.erase id) : Waiting t → Waiting s := by
  rintro ⟨x, hx, b, hb, hst⟩
  rw [hr] at hx
  by_cases hxid : x = id
  · subst hxid
    simp [ha] at hb
  · rw [ha, AList.lookup_erase_ne hxid] at hb
    exact ⟨x, hx, b, hb, hst⟩

theorem Waiting.of_insert {t : Session B} {id : B} {slot : Bool} (hr : t.ready = s.ready)
    (ha : t.active = s.active.insert id ⟨slot, false⟩) : Waiting t → Waiting s := by
  rintro ⟨x, hx, b, hb, hst⟩
  rw [hr] at hx
  by_cases hxid : x = id
  · subst hxid
    rw [ha, AList.lookup_insert] at hb
    cases hb
    cases hst
  · rw [ha, AList.lookup_insert_ne hxid] at hb
    exact ⟨x, hx, b, hb, hst⟩

variable (hi : Inv s)

include hi

theorem inv_abort (id : B) {next : Pc B} (hpc : s.pc ≠ .granting)
    (hn : ∀ n, next ≠ .releasing n) (hq : ∀ i, next ≠ .queueing i) : Inv (s.abort id next) := by
  unfold Session.abort
  split
  · exact ⟨fun _ => rfl, fun _ _ => rfl, fun _ _ _ => rfl, fun _ _ => .inl rfl⟩
  · exact ⟨hi.dropping, fun n h => absurd h (hn n), fun i h => absurd h (hq i),
      hi.wakes.mono hpc (.of_erase rfl rfl) le_rfl (fun h => h)⟩

theorem inv_grantNext (hpc : s.pc = .granting) : Inv s.grantNext := by
  unfold Session.grantNext
  split
  · exact ⟨hi.dropping, by simp, by simp, by rintro ⟨id, hid, -⟩; simp_all⟩
  · split
    · exact ⟨hi.dropping, by simp [hpc], by simp [hpc], fun _ _ => .inr hpc⟩
    · split_ifs with h1 h2
      · exact ⟨hi.dropping, by simp, by simp, .of_permits_zero h1⟩
      · exact ⟨fun _ => rfl, fun _ _ => rfl, fun _ _ _ => rfl, fun _ _ => .inl rfl⟩
      · exact ⟨hi.dropping, by simp [Session.launch], by simp [Session.launch], fun _ _ => .inr rfl⟩

theorem inv_advanceReady (id : B) (slot : Bool) (hpc : s.pc = .select) : Inv (s.advanceReady id slot) := by
  have hne : s.pc ≠ .granting := by simp [hpc]
  unfold Session.advanceReady
  split_ifs with h1 h2
  · exact ⟨hi.dropping, by simp [Session.launch], by simp [Session.launch],
      hi.wakes.mono hne (.of_erase rfl rfl) le_rfl (fun h => h)⟩
  · exact ⟨hi.dropping, by simp, fun _ _ hp => absurd hp (by simp [h2]), .of_permits_zero h2⟩
  · exact ⟨hi.dropping, by simp [Session.launch], by simp [Session.launch],
      hi.wakes.mono hne (.of_erase rfl rfl) (Nat.sub_le _ _) (fun h => h)⟩

theorem inv_placeBuild (id : B) (valid : Bool)
    (hpc : s.pc = .assigning id) : Inv (s.placeBuild id valid) := by
  have hne : s.pc ≠ .granting := by simp [hpc]
  unfold Session.placeBuild
  split_ifs with h1 h2
  · exact ⟨hi.dropping, by simp, by simp, hi.wakes.mono hne (fun h => h) le_rfl (fun h => h)⟩
  · exact ⟨hi.dropping, by simp, by simp, .of_permits_zero h2⟩
  · exact ⟨hi.dropping, by simp, by simp,
      hi.wakes.mono hne (.of_insert rfl rfl) (Nat.sub_le _ _) (fun h => h)⟩

theorem inv_step {s' : Session B} {a : Action B} {out : Option UInt32}
    (ho : Undisturbed s a) (hs : step s a = some (s', out)) : Inv s' := by
  cases a with
  | dropSlot id =>
    simp only [step] at hs
    split at hs <;> cases hs
    exact ⟨fun _ => rfl, fun _ _ => rfl, fun _ _ _ => rfl, fun _ _ => .inl rfl⟩
  | releasePermit =>
    simp only [step] at hs
    split at hs <;> cases hs
    have hf := hi.dropping ‹_›
    exact ⟨fun _ => hf, fun _ _ => hf, fun _ _ _ => hf, fun _ _ => .inl hf⟩
  | slotFreed =>
    simp only [step] at hs
    split at hs <;> cases hs
    exact ⟨fun hd => absurd (show s.dropping = 0 from ho) (Nat.ne_of_gt hd), by simp, by simp,
      fun _ _ => .inr rfl⟩
  | grant =>
    simp only [step] at hs
    split at hs <;> cases hs
    exact inv_grantNext hi ‹_›
  | place valid =>
    simp only [step] at hs
    split at hs <;> cases hs
    exact inv_placeBuild hi _ valid ‹_›
  | negotiated ok =>
    simp only [step] at hs
    split at hs
    · split at hs <;> cases hs
      · exact ⟨hi.dropping, by simp, by simp,
          hi.wakes.mono (by simp [*]) (fun h => h) le_rfl (fun h => h)⟩
      · exact inv_abort hi _ (by simp [*]) (by simp) (by simp)
    · cases hs
  | staged id =>
    simp only [step] at hs
    split at hs <;> cases hs
    exact inv_advanceReady hi id _ ‹_›
  | queue =>
    simp only [step] at hs
    split at hs <;> cases hs
    -- the permit may have been released since `try_slot` failed
    exact ⟨hi.dropping, by simp, by simp, fun _ hp => .inl (hi.queueing _ ‹_› hp)⟩
  | assignment id | stagingError id | cancel id =>
    simp only [step] at hs
    split at hs <;> cases hs
    exact inv_abort hi id (by simp [*]) (by simp) (by simp)
  | release =>
    simp only [step] at hs
    split at hs <;> cases hs
    have hf := hi.releasing _ ‹_›
    exact ⟨fun _ => hf, fun _ _ => hf, fun _ _ _ => hf, fun _ _ => .inl hf⟩
  | heartbeat | declare =>
    simp only [step] at hs
    split at hs <;> cases hs <;>
      exact ⟨hi.dropping, by simp, by simp,
        hi.wakes.mono (by simp [*]) (fun h => h) le_rfl (fun h => h)⟩

omit hi

/-- In every run in which the session loop receives `slot_freed` only when no
dropped `Slot` still holds its permit, no staged build waits beside a free permit
without something that is going to wake it. -/
theorem staged_build_wakes_unless_disturbed {s : Session B}
    (h : (system B).ReachableIf Undisturbed s) : WillWake s := by
  refine (h.invariant (I := Inv) ?_ ?_).wakes
  · rintro _ ⟨permits, running, slotFreed, rfl⟩
    exact inv_start permits running slotFreed
  · intro t a t' hi ho hs
    obtain ⟨⟨u, out⟩, hu, rfl⟩ := Option.map_eq_some_iff.mp hs
    exact inv_step hi ho hu

instance (s : Session ℕ) (a : Action ℕ) : Decidable (Undisturbed s a) := by
  cases a <;> dsimp only [Undisturbed] <;> infer_instance

/-- Build 0 takes the only slot and runs; build 1 is staged and waits for it. -/
private def oneWaits : List (Action ℕ) :=
  [.declare, .assignment 0, .place true, .negotiated true, .declare, .staged 0, .declare,
    .assignment 1, .place true, .negotiated true, .declare, .staged 1, .queue]

/-- The permit is released before the notification is received, and the waiting
build is announced. -/
theorem staged_build_wakes_when_released_first : ∃ s : Session ℕ,
    (system ℕ).ReachableIf Undisturbed s ∧ s.ready = [1] ∧ s.permits = 1 ∧ WillWake s := by
  obtain ⟨s, hs, hp⟩ := (system ℕ).exists_reachableIf_of_decide Undisturbed (start 1 [] false)
    (oneWaits ++ [.dropSlot 0, .releasePermit]) (fun s => s.ready = [1] ∧ s.permits = 1) ⟨_, _, _, rfl⟩ (by decide)
  exact ⟨s, hs, hp.1, hp.2, staged_build_wakes_unless_disturbed hs⟩

/-- The session loop receives the notification before the dropped slot's permit
is released: `grant_slots` finds no permit, and the permit then goes free unannounced. -/
theorem staged_build_left_waiting : ∃ s : Session ℕ, (system ℕ).Reachable s ∧
    s.pc = .select ∧ s.ready = [1] ∧ s.active.lookup 1 = some ⟨false, true⟩ ∧ s.permits = 1 ∧
      s.slotFreed = false ∧ ¬ WillWake s := by
  obtain ⟨s, hs, hp⟩ := (system ℕ).exists_reachable_of_exec (start 1 [] false)
    (oneWaits ++ [.dropSlot 0, .slotFreed, .grant, .declare, .releasePermit])
    (fun s => s.pc == .select && s.ready == [1] && s.active.lookup 1 == some ⟨false, true⟩ &&
      s.permits == 1 && s.slotFreed == false) ⟨_, _, _, rfl⟩ (by decide)
  simp only [Bool.and_eq_true, beq_iff_eq] at hp
  obtain ⟨⟨⟨⟨hpc, hr⟩, ha⟩, hperm⟩, hf⟩ := hp
  refine ⟨s, hs, hpc, hr, ha, hperm, hf, fun hw => ?_⟩
  have := hw ⟨1, by simp [hr], _, ha, rfl⟩ (by omega)
  simp [hf, hpc] at this

end Tribuchet.Worker.Slots
