import Mathlib.Data.List.Infix
import Mathlib.Data.Nat.Notation
import Mathlib.Logic.Function.Basic

/-! The replay buffer of a build (`hub/state/replay.rs`). Every event is sent to the
subscribers there are and kept for those that come later, until the buffer would pass its
cap. A send waits for a slow subscriber and gives it up after a while: at every call the
subscribers that stall are a choice of the environment. A call holds the lock from its
start to its end. -/

namespace Tribuchet.Outputs

open Function List

variable {E C : Type} [DecidableEq C]

/-- The gRPC status codes that the hub answers with or the client tells apart. -/
inductive Code
  | failedPrecondition
  | invalidArgument
  | permissionDenied
  | notFound
  | alreadyExists
  | resourceExhausted
  | unimplemented
  | unavailable
  | other
  deriving DecidableEq

/-- `MAX_REPLAY_BYTES`. -/
def maxReplayBytes : ℕ := 256 * 1024 * 1024

structure Replay (E C : Type) where
  events : List E
  bytes : ℕ
  overflowed : Bool
  subs : List C
  done : Bool
  streams : C → Option (List (Except Code E))
  /-- not of the source: the events published so far -/
  published : List E
  /-- not of the source: the events a subscriber has taken off its channel -/
  received : C → List E

namespace Replay

/-- `Replay::default`. -/
def empty : Replay E C := ⟨[], 0, false, [], false, fun _ => none, [], fun _ => []⟩

def reached (r : Replay E C) (stalled : List C) : List C :=
  r.subs.filter fun c => (r.streams c).isSome && !stalled.contains c

def publish (size : E → ℕ) (r : Replay E C) (e : E) (stalled : List C) : Replay E C :=
  let subs := r.reached stalled
  let r := { r with
    subs := subs
    streams := fun c => if c ∈ subs then (r.streams c).map (· ++ [.ok e]) else r.streams c
    published := r.published ++ [e] }
  if r.overflowed then r
  else if maxReplayBytes < r.bytes + size e then { r with overflowed := true, events := [], bytes := 0 }
  else { r with bytes := r.bytes + size e, events := r.events ++ [e] }

def backlog (verdict : E → Bool) (r : Replay E C) : List (Except Code E) :=
  if r.overflowed then [.error .resourceExhausted]
  else r.events.map .ok ++ if r.done && !r.events.any verdict then [.error .unavailable] else []

def subscribe (verdict : E → Bool) (r : Replay E C) (c : C) : Replay E C :=
  { r with
    streams := update r.streams c (some (r.backlog verdict))
    subs := if r.overflowed || r.done then r.subs else r.subs ++ [c] }

def finish (r : Replay E C) : Replay E C := { r with done := true, subs := [] }

def take (r : Replay E C) (c : C) : Option (Except Code E × Replay E C) :=
  match r.streams c with
  | some (.ok e :: items) => some (.ok e, { r with
      streams := update r.streams c (some items)
      received := update r.received c (r.received c ++ [e]) })
  | some (.error code :: items) =>
    some (.error code, { r with streams := update r.streams c (some items) })
  | _ => none

def ended (r : Replay E C) (c : C) : Bool :=
  match r.streams c with
  | some [] => !r.subs.contains c
  | _ => false

def hangUp (r : Replay E C) (c : C) : Replay E C :=
  { r with streams := update r.streams c none }

/-! ### What a subscriber gets -/

def eventsOf (items : List (Except Code E)) : List E := items.filterMap Except.toOption

omit [DecidableEq C] in
theorem eventsOf_append (is js : List (Except Code E)) : eventsOf (is ++ js) = eventsOf is ++ eventsOf js :=
  filterMap_append

omit [DecidableEq C] in
theorem eventsOf_map_ok (es : List E) : eventsOf (es.map .ok) = es := by
  unfold eventsOf
  rw [filterMap_map]
  exact filterMap_some

/-- A subscriber's events, taken and waiting, are the first ones that were published; all of
them while it is sent more. -/
structure Faithful (r : Replay E C) : Prop where
  kept : r.overflowed = false → r.events = r.published
  ahead : ∀ c items, r.streams c = some items → r.received c ++ eventsOf items <+: r.published
  live : ∀ c items, c ∈ r.subs → r.streams c = some items → r.received c ++ eventsOf items = r.published

omit [DecidableEq C] in
theorem faithful_empty : (empty : Replay E C).Faithful where
  kept _ := rfl
  ahead _ _ h := by cases h
  live _ _ h := by cases h

variable {r r' : Replay E C} {size : E → ℕ} {verdict : E → Bool} {c : C} {e : E} {stalled : List C}

@[simp] theorem publish_published : (r.publish size e stalled).published = r.published ++ [e] := by
  unfold publish
  dsimp only
  split_ifs <;> rfl

@[simp] theorem publish_received : (r.publish size e stalled).received = r.received := by
  unfold publish
  dsimp only
  split_ifs <;> rfl

theorem publish_subs : (r.publish size e stalled).subs = r.reached stalled := by
  unfold publish
  dsimp only
  split_ifs <;> rfl

theorem publish_streams : (r.publish size e stalled).streams = fun c =>
    if c ∈ r.reached stalled then (r.streams c).map (· ++ [.ok e]) else r.streams c := by
  unfold publish
  dsimp only
  split_ifs <;> rfl

theorem mem_subs_of_reached (h : c ∈ r.reached stalled) : c ∈ r.subs := (mem_filter.mp h).1

theorem publish_events (h : (r.publish size e stalled).overflowed = false) :
    r.overflowed = false ∧ (r.publish size e stalled).events = r.events ++ [e] := by
  unfold publish at h ⊢
  dsimp only at h ⊢
  split_ifs at h ⊢ with ho
  · rw [ho] at h
    cases h
  · exact ⟨h, rfl⟩

variable (h : r.Faithful)

include h

theorem Faithful.sent (hc : c ∈ r.reached stalled) {items : List (Except Code E)}
    (hs : (r.publish size e stalled).streams c = some items) :
    r.received c ++ eventsOf items = r.published ++ [e] := by
  simp only [publish_streams, if_pos hc] at hs
  obtain ⟨before, hb, rfl⟩ := Option.map_eq_some_iff.mp hs
  have := h.live c before (mem_subs_of_reached hc) hb
  rw [← this, eventsOf_append, append_assoc]
  rfl

theorem Faithful.publish : (r.publish size e stalled).Faithful where
  kept ho := by
    obtain ⟨ho, he⟩ := publish_events ho
    rw [he, publish_published, h.kept ho]
  ahead c items hs := by
    rw [publish_received, publish_published]
    by_cases hc : c ∈ r.reached stalled
    · rw [h.sent hc hs]
    · simp only [publish_streams, if_neg hc] at hs
      exact (h.ahead c items hs).trans (prefix_append _ _)
  live c items hc hs := by
    rw [publish_subs] at hc
    rw [publish_received, publish_published]
    exact h.sent hc hs

omit [DecidableEq C] in
theorem Faithful.backlog : eventsOf (r.backlog verdict) <+: r.published := by
  unfold Replay.backlog
  split_ifs with ho hd
  · exact nil_prefix
  · rw [← h.kept (by simpa using ho)]
    rw [eventsOf_append, eventsOf_map_ok]
    show r.events ++ [] <+: r.events
    rw [append_nil]
  · rw [← h.kept (by simpa using ho), append_nil, eventsOf_map_ok]

omit h in
theorem subscribe_streams : (r.subscribe verdict c).streams = update r.streams c (some (r.backlog verdict)) := rfl

omit h in
theorem hangUp_streams : (r.hangUp c).streams = update r.streams c none := rfl

theorem Faithful.subscribe (hr : r.received c = []) (hc : c ∉ r.subs) : (r.subscribe verdict c).Faithful where
  kept := h.kept
  ahead c' items hs := by
    show r.received c' ++ _ <+: r.published
    by_cases hcc : c' = c
    · subst hcc
      rw [subscribe_streams, update_self] at hs
      cases hs
      rw [hr]
      exact h.backlog
    · rw [subscribe_streams, update_of_ne hcc] at hs
      exact h.ahead c' items hs
  live c' items hm hs := by
    show r.received c' ++ _ = r.published
    by_cases hcc : c' = c
    · subst hcc
      rw [subscribe_streams, update_self] at hs
      cases hs
      have hopen : ¬(r.overflowed || r.done) = true := by
        intro hd
        apply hc
        have hm : c' ∈ if (r.overflowed || r.done) = true then r.subs else r.subs ++ [c'] := hm
        rwa [if_pos hd] at hm
      simp only [Bool.or_eq_true, not_or, Bool.not_eq_true] at hopen
      rw [hr, Replay.backlog, hopen.1, hopen.2, ← h.kept hopen.1]
      exact (congrArg _ (append_nil _)).trans (eventsOf_map_ok _)
    · have hm : c' ∈ r.subs := by
        have hm : c' ∈ if (r.overflowed || r.done) = true then r.subs else r.subs ++ [c] := hm
        split_ifs at hm
        · exact hm
        · simpa [hcc] using hm
      rw [subscribe_streams, update_of_ne hcc] at hs
      exact h.live c' items hm hs

omit [DecidableEq C] in
theorem Faithful.finish : r.finish.Faithful where
  kept := h.kept
  ahead := h.ahead
  live _ _ hm := by cases hm

theorem Faithful.hangUp : (r.hangUp c).Faithful := by
  have hs : ∀ c' items, (r.hangUp c).streams c' = some items → r.streams c' = some items := by
    intro c' items hs
    by_cases hcc : c' = c
    · subst hcc
      rw [hangUp_streams, update_self] at hs
      cases hs
    · rwa [hangUp_streams, update_of_ne hcc] at hs
  exact ⟨h.kept, fun c' items h' => h.ahead c' items (hs c' items h'),
    fun c' items hm h' => h.live c' items hm (hs c' items h')⟩

omit h in
theorem take_cases {item : Except Code E} (ht : r.take c = some (item, r')) :
    ∃ items, r.streams c = some (item :: items) ∧ r' = { r with
      streams := update r.streams c (some items)
      received := update r.received c (r.received c ++ eventsOf [item]) } := by
  unfold take at ht
  split at ht
  · cases ht
    exact ⟨_, ‹_›, rfl⟩
  · cases ht
    refine ⟨_, ‹_›, ?_⟩
    simp [eventsOf, Except.toOption]
  · cases ht

theorem Faithful.take {item : Except Code E} (ht : r.take c = some (item, r')) : r'.Faithful := by
  obtain ⟨items, hs, rfl⟩ := take_cases ht
  -- nothing changes for the concatenation of what was taken and what waits
  have hsame : ∀ c' items', update r.streams c (some items) c' = some items' →
      ∃ before, r.streams c' = some before ∧
        update r.received c (r.received c ++ eventsOf [item]) c' ++ eventsOf items' =
          r.received c' ++ eventsOf before := by
    intro c' items' h'
    by_cases hcc : c' = c
    · subst hcc
      rw [update_self] at h' ⊢
      cases h'
      refine ⟨_, hs, ?_⟩
      rw [append_assoc]
      congr 1
      exact (eventsOf_append [item] items).symm
    · rw [update_of_ne hcc] at h' ⊢
      exact ⟨items', h', rfl⟩
  refine ⟨h.kept, fun c' items' h' => ?_, fun c' items' hm h' => ?_⟩
  · obtain ⟨before, hb, he⟩ := hsame c' items' h'
    rw [he]
    exact h.ahead c' before hb
  · obtain ⟨before, hb, he⟩ := hsame c' items' h'
    rw [he]
    exact h.live c' before hm hb

omit h

end Replay

end Tribuchet.Outputs
