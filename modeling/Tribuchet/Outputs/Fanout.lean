import Mathlib.Algebra.GroupWithZero.Nat
import Mathlib.Data.List.Nodup
import Tribuchet.Base.Runs
import Tribuchet.Outputs.Client

/-! The replay buffer, send by send. A call of `publish` holds the lock while it waits on one
subscriber after the other; the subscribers read, and drop their receivers, at any moment. A
channel has a capacity, and `subscribe` does not look at whether `try_send` finds room. -/

namespace Tribuchet.Outputs.Fanout

open Runs Function List Replay
open Option hiding all_eq_true any any_eq_false any_eq_true

variable {E C : Type}

/-- `SUB_CHANNEL_SLACK`. -/
def subChannelSlack : ℕ := 1024

structure Channel (E : Type) where
  items : List (Except Code E)
  capacity : ℕ
  closed : Bool

def Channel.hasRoom (ch : Channel E) : Bool := ch.items.length < ch.capacity

def Channel.push (ch : Channel E) (item : Except Code E) : Channel E := { ch with items := ch.items ++ [item] }

/-- `try_send`; the caller ignores that there is no room. -/
def Channel.trySend (ch : Channel E) (item : Except Code E) : Channel E := if ch.hasRoom then ch.push item else ch

structure State (E C : Type) where
  events : List E
  bytes : ℕ
  overflowed : Bool
  subs : List C
  done : Bool
  publishing : Option (E × List C)
  channels : C → Option (Channel E)
  /-- not of the source: the events of the publications so far -/
  published : List E
  /-- not of the source: what a subscriber has taken off its channel -/
  received : C → List (Except Code E)

namespace State

/-- `Replay::default`. -/
def empty : State E C := ⟨[], 0, false, [], false, none, fun _ => none, [], fun _ => []⟩

/-- What `publish` does once it has gone through its subscribers. -/
def record (size : E → ℕ) (s : State E C) (e : E) : State E C :=
  let s := { s with publishing := none }
  if s.overflowed then s
  else if maxReplayBytes < s.bytes + size e then { s with overflowed := true, events := [], bytes := 0 }
  else { s with bytes := s.bytes + size e, events := s.events ++ [e] }

/-- The channel that `subscribe` returns. -/
def newChannel (verdict : E → Bool) (s : State E C) : Channel E :=
  if s.overflowed then Channel.trySend ⟨[], 1, false⟩ (.error .resourceExhausted)
  else
    let ch := s.events.foldl (fun ch e => ch.trySend (.ok e)) ⟨[], s.events.length + subChannelSlack, false⟩
    if s.done && !s.events.any verdict then ch.trySend (.error .unavailable) else ch

end State

inductive Action (E C : Type)
  /-- `publish` takes the lock -/
  | publish (e : E)
  | send
  | stall
  /-- `publish` returns -/
  | record
  | subscribe (c : C)
  | finish
  | take (c : C)
  | hangUp (c : C)

variable [DecidableEq C]

def State.setChannel (s : State E C) (c : C) (ch : Channel E) : State E C :=
  { s with channels := update s.channels c (some ch) }

/-- The send to a subscriber has put the event on its channel. -/
def State.sendTo (s : State E C) (e : E) (c : C) (ch : Channel E) (rest : List C) : State E C :=
  { s.setChannel c (ch.push (.ok e)) with publishing := some (e, rest), subs := s.subs ++ [c] }

def step (size : E → ℕ) (verdict : E → Bool) (s : State E C) : Action E C → Option (State E C)
  | .publish e =>
    if s.publishing.isSome then none
    else some { s with publishing := some (e, s.subs), subs := [], published := s.published ++ [e] }
  | .send =>
    match s.publishing with
    | some (e, c :: rest) =>
      match s.channels c with
      | some ch =>
        if ch.closed then some { s with publishing := some (e, rest) }
        else if ch.hasRoom then some (s.sendTo e c ch rest)
        else none
      | none => none
    | _ => none
  | .stall =>
    match s.publishing with
    | some (e, _ :: rest) => some { s with publishing := some (e, rest) }
    | _ => none
  | .record =>
    match s.publishing with
    | some (e, []) => some (s.record size e)
    | _ => none
  | .subscribe c =>
    if s.publishing.isSome || (s.channels c).isSome then none
    else some { s.setChannel c (s.newChannel verdict) with
      subs := if s.overflowed || s.done then s.subs else s.subs ++ [c] }
  | .finish => if s.publishing.isSome then none else some { s with done := true, subs := [] }
  | .take c =>
    match s.channels c with
    | some ⟨item :: items, capacity, false⟩ =>
      some { s.setChannel c ⟨items, capacity, false⟩ with
        received := update s.received c (s.received c ++ [item]) }
    | _ => none
  | .hangUp c =>
    match s.channels c with
    | some ch => some (s.setChannel c { ch with items := [], closed := true })
    | none => none

def system (size : E → ℕ) (verdict : E → Bool) : System (State E C) (Action E C) where
  init s := s = .empty
  step := step size verdict

/-! ### What a step can do -/

variable {size : E → ℕ} {verdict : E → Bool} {s s' : State E C} {a : Action E C} {c : C} {e : E}

inductive Steps (size : E → ℕ) (verdict : E → Bool) (s : State E C) : State E C → Prop
  | publish {e : E} : s.publishing = none →
      Steps size verdict s
        { s with publishing := some (e, s.subs), subs := [], published := s.published ++ [e] }
  | sent {e : E} {c : C} {rest : List C} {ch : Channel E} : s.publishing = some (e, c :: rest) →
      s.channels c = some ch → ch.closed = false → Steps size verdict s (s.sendTo e c ch rest)
  | skipped {e : E} {c : C} {rest : List C} : s.publishing = some (e, c :: rest) →
      Steps size verdict s { s with publishing := some (e, rest) }
  | record {e : E} : s.publishing = some (e, []) → Steps size verdict s (s.record size e)
  | subscribe {c : C} : s.publishing = none → s.channels c = none →
      Steps size verdict s { s.setChannel c (s.newChannel verdict) with
        subs := if s.overflowed || s.done then s.subs else s.subs ++ [c] }
  | finish : s.publishing = none → Steps size verdict s { s with done := true, subs := [] }
  | take {c : C} {item : Except Code E} {items : List (Except Code E)} {capacity : ℕ} :
      s.channels c = some ⟨item :: items, capacity, false⟩ →
      Steps size verdict s { s.setChannel c ⟨items, capacity, false⟩ with
        received := update s.received c (s.received c ++ [item]) }
  | hangUp {c : C} {ch : Channel E} : s.channels c = some ch →
      Steps size verdict s (s.setChannel c { ch with items := [], closed := true })

theorem step_cases (h : step size verdict s a = some s') : Steps size verdict s s' := by
  cases a with
  | publish e =>
    simp only [step] at h
    split_ifs at h with hp
    cases h
    exact .publish (not_isSome_iff_eq_none.mp hp)
  | send =>
    simp only [step] at h
    split at h
    · rename_i e c rest hp
      split at h
      · rename_i ch hc
        split_ifs at h with hclosed
        · cases h
          exact .skipped hp
        · cases h
          exact .sent hp hc (Bool.not_eq_true _ ▸ hclosed)
      · cases h
    · cases h
  | stall =>
    simp only [step] at h
    split at h
    · cases h
      exact .skipped ‹_›
    · cases h
  | record =>
    simp only [step] at h
    split at h
    · cases h
      exact .record ‹_›
    · cases h
  | subscribe c =>
    obtain ⟨hp, h⟩ := ite_none_left_eq_some.mp h
    cases h
    rw [Bool.or_eq_true, not_or, not_isSome_iff_eq_none, not_isSome_iff_eq_none] at hp
    exact .subscribe hp.1 hp.2
  | finish =>
    simp only [step] at h
    split_ifs at h with hp
    cases h
    exact .finish (not_isSome_iff_eq_none.mp hp)
  | take c =>
    simp only [step] at h
    split at h
    · cases h
      exact .take ‹_›
    · cases h
  | hangUp c =>
    simp only [step] at h
    split at h
    · cases h
      exact .hangUp ‹_›
    · cases h

/-! ### The backlog -/

section
omit [DecidableEq C]

theorem Channel.trySend_items {ch : Channel E} {item : Except Code E} (h : ch.items.length < ch.capacity) :
    ch.trySend item = ch.push item := by
  unfold Channel.trySend Channel.hasRoom
  rw [if_pos (decide_eq_true h)]

theorem foldl_trySend (es : List E) (ch : Channel E) (h : ch.items.length + es.length ≤ ch.capacity) :
    es.foldl (fun ch e => ch.trySend (.ok e)) ch = { ch with items := ch.items ++ es.map .ok } := by
  induction es generalizing ch with
  | nil => simp
  | cons e es ih =>
    rw [length_cons] at h
    rw [foldl_cons, Channel.trySend_items (by omega), ih]
    · simp [Channel.push]
    · simp only [Channel.push, length_append, length_singleton]
      omega

def State.toReplay (s : State E C) : Replay E C where
  events := s.events
  bytes := s.bytes
  overflowed := s.overflowed
  subs := s.subs
  done := s.done
  streams c := ((s.channels c).filter fun ch => !ch.closed).map Channel.items
  published := s.published
  received c := eventsOf (s.received c)

theorem newChannel_eq (s : State E C) (verdict : E → Bool) :
    ∃ capacity, s.newChannel verdict = ⟨s.toReplay.backlog verdict, capacity, false⟩ := by
  unfold State.newChannel backlog State.toReplay
  dsimp only
  split_ifs with ho hd
  · exact ⟨1, Channel.trySend_items (by simp)⟩
  · refine ⟨s.events.length + subChannelSlack, ?_⟩
    rw [foldl_trySend _ _ (by simp), Channel.trySend_items]
    · simp [Channel.push]
    · simp [subChannelSlack]
  · refine ⟨s.events.length + subChannelSlack, ?_⟩
    rw [foldl_trySend _ _ (by simp)]
    simp

/-! ### The invariant -/

def State.stream (s : State E C) (c : C) : List (Except Code E) :=
  s.received c ++ ((s.channels c).map Channel.items).getD []

def State.current (s : State E C) : List E := (s.publishing.map Prod.fst).toList

/-- The subscribers that the publication under way has not got to. -/
@[simp] def State.waiting (s : State E C) : List C := (s.publishing.map Prod.snd).getD []

structure Inv (size : E → ℕ) (s : State E C) : Prop where
  bytes : s.bytes = (s.events.map size).sum
  bounded : s.bytes ≤ maxReplayBytes
  kept : s.overflowed = false → s.events ++ s.current = s.published
  once : (s.subs ++ s.waiting).Nodup
  known : ∀ c ∈ s.subs ++ s.waiting, s.channels c ≠ none
  fresh : ∀ c, s.channels c = none → s.received c = []
  ahead : ∀ c, eventsOf (s.stream c) <+: s.published
  live : ∀ c ch, c ∈ s.subs → s.channels c = some ch → ch.closed = false →
    eventsOf (s.stream c) = s.published
  behind : ∀ c ch, c ∈ s.waiting → s.channels c = some ch → ch.closed = false →
    eventsOf (s.stream c) ++ s.current = s.published

theorem inv_empty : Inv size (State.empty : State E C) where
  bytes := rfl
  bounded := Nat.zero_le _
  kept _ := rfl
  once := nodup_nil
  known _ h := by cases h
  fresh _ _ := rfl
  ahead _ := prefix_rfl
  live _ _ h := by cases h
  behind _ _ h := by cases h

theorem waiting_of_publishing {rest : List C} (h : s.publishing = some (e, rest)) : s.waiting = rest := by
  unfold State.waiting
  rw [h]
  rfl

theorem current_of_publishing {rest : List C} (h : s.publishing = some (e, rest)) : s.current = [e] := by
  unfold State.current
  rw [h]
  rfl

theorem waiting_of_none (h : s.publishing = none) : s.waiting = [] := by
  unfold State.waiting
  rw [h]
  rfl

theorem current_of_none (h : s.publishing = none) : s.current = [] := by
  unfold State.current
  rw [h]
  rfl

variable (h : Inv size s)

include h

theorem Inv.publish (hp : s.publishing = none) : Inv size
    { s with publishing := some (e, s.subs), subs := [], published := s.published ++ [e] } where
  bytes := h.bytes
  bounded := h.bounded
  kept ho := by
    have := h.kept ho
    rw [current_of_none hp, append_nil] at this
    exact congrArg (· ++ [e]) this
  once := by
    have := h.once
    rwa [waiting_of_none hp, append_nil] at this
  known c hc := h.known c (mem_append_left _ hc)
  fresh := h.fresh
  ahead c := (h.ahead c).trans (prefix_append _ _)
  live _ _ hc := by cases hc
  behind c ch hc hch hopen := congrArg (· ++ [e]) (h.live c ch hc hch hopen)

theorem Inv.skipped {rest : List C} (hp : s.publishing = some (e, c :: rest)) :
    Inv size { s with publishing := some (e, rest) } := by
  have hcurrent := current_of_publishing hp
  have hwaiting := waiting_of_publishing hp
  have hmem : ∀ c' ∈ rest, c' ∈ s.waiting := by
    intro c' hc'
    rw [hwaiting]
    exact mem_cons_of_mem _ hc'
  refine ⟨h.bytes, h.bounded, fun ho => ?_, ?_, fun c' hc' => h.known c' ?_, h.fresh, h.ahead, h.live,
    fun c' ch hc' hch hopen => ?_⟩
  · rw [← h.kept ho, hcurrent]
    rfl
  · have hsub : List.Sublist (s.subs ++ rest) (s.subs ++ s.waiting) := by
      rw [hwaiting]
      exact (sublist_cons_self c rest).append_left s.subs
    exact h.once.sublist hsub
  · rcases mem_append.mp hc' with hc' | hc'
    · exact mem_append_left _ hc'
    · exact mem_append_right _ (hmem c' hc')
  · rw [← h.behind c' ch (hmem c' hc') hch hopen, hcurrent]
    rfl

theorem Inv.finish (hp : s.publishing = none) : Inv size { s with done := true, subs := [] } where
  bytes := h.bytes
  bounded := h.bounded
  kept := h.kept
  once := by
    show (State.waiting s).Nodup
    rw [waiting_of_none hp]
    exact nodup_nil
  known c hc := h.known c (mem_append_right _ hc)
  fresh := h.fresh
  ahead := h.ahead
  live _ _ hc := by cases hc
  behind := h.behind

theorem Inv.record (hp : s.publishing = some (e, [])) : Inv size (s.record size e) := by
  have hwaiting := waiting_of_publishing hp
  have honce : s.subs.Nodup := by
    have := h.once
    rwa [hwaiting, append_nil] at this
  have hknown : ∀ c ∈ s.subs, s.channels c ≠ none := fun c hc => h.known c (mem_append_left _ hc)
  unfold State.record
  dsimp only
  split_ifs with ho hcap
  · refine ⟨h.bytes, h.bounded, fun hc => ?_, ?_, ?_, h.fresh, h.ahead, h.live, nofun⟩
    · cases ho.symm.trans hc
    · simpa using honce
    · simpa using hknown
  · refine ⟨rfl, Nat.zero_le _, nofun, ?_, ?_, h.fresh, h.ahead, h.live,
      nofun⟩
    · simpa using honce
    · simpa using hknown
  · refine ⟨?_, not_lt.mp hcap, fun _ => ?_, ?_, ?_, h.fresh, h.ahead, h.live, nofun⟩
    · simp [h.bytes]
    · rw [← h.kept (Bool.not_eq_true _ ▸ ho), current_of_publishing hp]
      exact append_nil _
    · simpa using honce
    · simpa using hknown

omit h in
theorem stream_of_channel {ch : Channel E} (h : s.channels c = some ch) : s.stream c = s.received c ++ ch.items := by
  unfold State.stream
  rw [h]
  rfl

theorem Inv.oneChannel {ch : Channel E} (hevents : s'.events = s.events) (hbytes : s'.bytes = s.bytes)
    (hover : s'.overflowed = s.overflowed) (hcurrent : s'.current = s.current) (hpub : s'.published = s.published)
    (hother : ∀ c', c' ≠ c → s'.channels c' = s.channels c' ∧ s'.received c' = s.received c')
    (hsubs : ∀ c', c' ≠ c → c' ∈ s'.subs → c' ∈ s.subs)
    (hwaiting : ∀ c', c' ≠ c → c' ∈ s'.waiting → c' ∈ s.waiting) (honce : (s'.subs ++ s'.waiting).Nodup)
    (hself : s'.channels c = some ch) (hahead : eventsOf (s'.received c ++ ch.items) <+: s.published)
    (hlive : c ∈ s'.subs → ch.closed = false → eventsOf (s'.received c ++ ch.items) = s.published)
    (hbehind : c ∈ s'.waiting → ch.closed = false →
      eventsOf (s'.received c ++ ch.items) ++ s.current = s.published) : Inv size s' := by
  have hstream : ∀ c', c' ≠ c → s'.stream c' = s.stream c' := by
    intro c' hc
    unfold State.stream
    rw [(hother c' hc).1, (hother c' hc).2]
  refine ⟨?_, ?_, ?_, honce, fun c' hc' => ?_, fun c' hc' => ?_, fun c' => ?_, fun c' ch' hc' hch' hopen => ?_,
    fun c' ch' hc' hch' hopen => ?_⟩
  · rw [hbytes, hevents]
    exact h.bytes
  · rw [hbytes]
    exact h.bounded
  · rw [hover, hevents, hcurrent, hpub]
    exact h.kept
  · by_cases hc : c' = c
    · rw [hc, hself]
      simp
    · rw [(hother c' hc).1]
      apply h.known
      rcases mem_append.mp hc' with hm | hm
      · exact mem_append_left _ (hsubs c' hc hm)
      · exact mem_append_right _ (hwaiting c' hc hm)
  · have hc : c' ≠ c := by
      rintro rfl
      cases hself.symm.trans hc'
    rw [(hother c' hc).2]
    exact h.fresh c' ((hother c' hc).1 ▸ hc')
  · rw [hpub]
    by_cases hc : c' = c
    · rw [hc, stream_of_channel hself]
      exact hahead
    · rw [hstream c' hc]
      exact h.ahead c'
  · rw [hpub]
    by_cases hc : c' = c
    · subst hc
      cases hself.symm.trans hch'
      rw [stream_of_channel hself]
      exact hlive hc' hopen
    · rw [hstream c' hc]
      exact h.live c' ch' (hsubs c' hc hc') ((hother c' hc).1 ▸ hch') hopen
  · rw [hpub, hcurrent]
    by_cases hc : c' = c
    · subst hc
      cases hself.symm.trans hch'
      rw [stream_of_channel hself]
      exact hbehind hc' hopen
    · rw [hstream c' hc]
      exact h.behind c' ch' (hwaiting c' hc hc') ((hother c' hc).1 ▸ hch') hopen

theorem Inv.faithful (hp : s.publishing = none) : s.toReplay.Faithful := by
  have hstream : ∀ c items, s.toReplay.streams c = some items →
      ∃ ch, s.channels c = some ch ∧ ch.closed = false ∧
      s.toReplay.received c ++ eventsOf items = eventsOf (s.stream c) := by
    intro c items hs
    obtain ⟨ch, hf, rfl⟩ := map_eq_some_iff.mp hs
    obtain ⟨hch, hopen⟩ := filter_eq_some_iff.mp hf
    refine ⟨ch, hch, by simpa using hopen, ?_⟩
    rw [stream_of_channel hch, eventsOf_append]
    rfl
  refine ⟨fun ho => ?_, fun c items hs => ?_, fun c items hc hs => ?_⟩
  · have := h.kept ho
    rwa [current_of_none hp, append_nil] at this
  · obtain ⟨ch, -, -, heq⟩ := hstream c items hs
    rw [heq]
    exact h.ahead c
  · obtain ⟨ch, hch, hopen, heq⟩ := hstream c items hs
    rw [heq]
    exact h.live c ch hc hch hopen

theorem Inv.not_waiting (hc : s.channels c = none) : c ∉ s.subs ∧ c ∉ s.waiting :=
  ⟨fun hm => h.known c (mem_append_left _ hm) hc, fun hm => h.known c (mem_append_right _ hm) hc⟩

omit h

end

variable {ch : Channel E}

theorem setChannel_of_ne {c' : C} (hc : c' ≠ c) :
    (s.setChannel c ch).channels c' = s.channels c' ∧ s.received c' = s.received c' :=
  ⟨update_of_ne hc _ _, rfl⟩

theorem setChannel_self : (s.setChannel c ch).channels c = some ch := update_self _ _ _

variable (h : Inv size s)

include h

theorem Inv.sent {rest : List C} (hp : s.publishing = some (e, c :: rest))
    (hch : s.channels c = some ch) (hopen : ch.closed = false) : Inv size (s.sendTo e c ch rest) := by
  have hwaiting := waiting_of_publishing hp
  have hcurrent := current_of_publishing hp
  have honce := h.once
  rw [hwaiting] at honce
  have hnot : c ∉ rest := (nodup_cons.mp honce.of_append_right).1
  have hstream : eventsOf (s.received c ++ (ch.items ++ [.ok e])) = s.published := by
    rw [← h.behind c ch (hwaiting ▸ mem_cons_self) hch hopen, hcurrent, stream_of_channel hch,
      ← append_assoc, eventsOf_append _ [_]]
    rfl
  refine h.oneChannel (c := c) rfl rfl rfl hcurrent.symm rfl (fun c' hc => setChannel_of_ne hc) ?_ ?_ ?_
    setChannel_self ?_ ?_ ?_
  · intro c' hc hm
    have hm : c' ∈ s.subs ++ [c] := hm
    simpa [hc] using hm
  · intro c' _ hm
    rw [hwaiting]
    exact mem_cons_of_mem c hm
  · show (s.subs ++ [c] ++ rest).Nodup
    rwa [append_assoc]
  · show eventsOf (s.received c ++ (ch.items ++ [.ok e])) <+: s.published
    rw [hstream]
  · exact fun _ _ => hstream
  · exact fun hm => absurd hm hnot

theorem Inv.subscribe (hp : s.publishing = none) (hc : s.channels c = none) : Inv size
    { s.setChannel c (s.newChannel verdict) with
      subs := if s.overflowed || s.done then s.subs else s.subs ++ [c] } := by
  obtain ⟨hsub, hwait⟩ := h.not_waiting hc
  obtain ⟨capacity, hnew⟩ := newChannel_eq s verdict
  have hmem : ∀ c', c' ∈ (if s.overflowed || s.done then s.subs else s.subs ++ [c]) →
      c' ∈ s.subs ∨ c' = c ∧ s.overflowed = false ∧ s.done = false := by
    intro c' hm
    split_ifs at hm with hd
    · exact .inl hm
    · rw [Bool.or_eq_true, not_or, Bool.not_eq_true, Bool.not_eq_true] at hd
      rcases mem_append.mp hm with hm | hm
      · exact .inl hm
      · exact .inr ⟨mem_singleton.mp hm, hd⟩
  have hstream : s.received c ++ (s.newChannel verdict).items = s.toReplay.backlog verdict := by
    rw [h.fresh c hc, hnew]
    rfl
  refine h.oneChannel (c := c) rfl rfl rfl rfl rfl (fun c' hc => setChannel_of_ne hc) ?_ (fun _ _ hm => hm) ?_
    setChannel_self ?_ ?_ (fun hm => absurd hm hwait)
  · intro c' hne hm
    exact (hmem c' hm).resolve_right fun hm => hne hm.1
  · show ((if s.overflowed || s.done then s.subs else s.subs ++ [c]) ++ s.waiting).Nodup
    have honce := h.once
    rw [waiting_of_none hp, append_nil] at honce ⊢
    split_ifs
    · exact honce
    · exact honce.append (nodup_singleton c) (by simpa using hsub)
  · show eventsOf (s.received c ++ (s.newChannel verdict).items) <+: s.published
    rw [hstream]
    exact (h.faithful hp).backlog
  · intro hm _
    obtain ⟨-, ho, hd⟩ := (hmem c hm).resolve_left hsub
    show eventsOf (s.received c ++ (s.newChannel verdict).items) = s.published
    have hkept : s.events = s.published := (h.faithful hp).kept ho
    have hevents : s.toReplay.backlog verdict = s.events.map .ok := by
      simp [backlog, State.toReplay, ho, hd]
    rw [hstream, hevents, eventsOf_map_ok, hkept]

theorem Inv.take {item : Except Code E} {items : List (Except Code E)} {capacity : ℕ}
    (hc : s.channels c = some ⟨item :: items, capacity, false⟩) : Inv size
      { s.setChannel c ⟨items, capacity, false⟩ with
        received := update s.received c (s.received c ++ [item]) } := by
  have hstream : update s.received c (s.received c ++ [item]) c ++ items = s.stream c := by
    rw [stream_of_channel hc, update_self, append_assoc]
    rfl
  refine h.oneChannel (c := c) rfl rfl rfl rfl rfl ?_ (fun _ _ hm => hm) (fun _ _ hm => hm) h.once
    setChannel_self ?_ ?_ ?_
  · intro c' hne
    exact ⟨(setChannel_of_ne hne).1, update_of_ne hne _ _⟩
  · show eventsOf (update s.received c (s.received c ++ [item]) c ++ items) <+: _
    rw [hstream]
    exact h.ahead c
  · intro hm _
    show eventsOf (update s.received c (s.received c ++ [item]) c ++ items) = _
    rw [hstream]
    exact h.live c _ hm hc rfl
  · intro hm _
    show eventsOf (update s.received c (s.received c ++ [item]) c ++ items) ++ _ = _
    rw [hstream]
    exact h.behind c _ hm hc rfl

theorem Inv.hangUp (hc : s.channels c = some ch) :
    Inv size (s.setChannel c { ch with items := [], closed := true }) := by
  refine h.oneChannel (c := c) rfl rfl rfl rfl rfl (fun c' hc => setChannel_of_ne hc) (fun _ _ hm => hm)
    (fun _ _ hm => hm) h.once setChannel_self ?_ nofun nofun
  have hahead := h.ahead c
  rw [stream_of_channel hc, eventsOf_append] at hahead
  show eventsOf (s.received c ++ []) <+: s.published
  rw [append_nil]
  exact (prefix_append _ _).trans hahead

theorem Inv.step (hs : Steps size verdict s s') : Inv size s' := by
  cases hs with
  | publish hp => exact h.publish hp
  | sent hp hc hopen => exact h.sent hp hc hopen
  | skipped hp => exact h.skipped hp
  | record hp => exact h.record hp
  | subscribe hp hc => exact h.subscribe hp hc
  | finish hp => exact h.finish hp
  | take hc => exact h.take hc
  | hangUp hc => exact h.hangUp hc

omit h

theorem inv_reachable (h : (system size verdict).Reachable s) : Inv size s := by
  apply h.invariant
  · rintro s rfl
    exact inv_empty
  · intro s a s' hs hstep
    exact hs.step (step_cases hstep)

/-! ### Those who come too late -/

/-- The subscriber has its channel open, finds nothing on it and has no sender left. -/
def State.ended (s : State E C) (c : C) : Prop :=
  (∃ capacity, s.channels c = some ⟨[], capacity, false⟩) ∧ c ∉ s.subs ∧ c ∉ s.waiting

structure Shut (stream : List (Except Code E)) (c : C) (s : State E C) : Prop where
  channel : ∃ ch, s.channels c = some ch ∧ (ch.closed = false → s.received c ++ ch.items = stream)
  received : s.received c <+: stream
  subs : c ∉ s.subs
  waiting : c ∉ s.waiting

variable {stream : List (Except Code E)}

omit [DecidableEq C] in
theorem Shut.congr (h : Shut stream c s) (hch : s'.channels c = s.channels c)
    (hr : s'.received c = s.received c) (hsubs : c ∉ s'.subs) (hwait : c ∉ s'.waiting) : Shut stream c s' := by
  refine ⟨?_, hr ▸ h.received, hsubs, hwait⟩
  rw [hch, hr]
  exact h.channel

theorem Shut.step (h : Shut stream c s) (hs : Steps size verdict s s') : Shut stream c s' := by
  have hwaiting : ∀ {e : E} {rest : List C}, s.publishing = some (e, rest) → c ∉ rest :=
    fun hp => waiting_of_publishing hp ▸ h.waiting
  obtain ⟨ch, hch, hstream⟩ := h.channel
  cases hs with
  | publish hp => exact h.congr rfl rfl not_mem_nil h.subs
  | @sent e c' rest ch' hp hc' hopen =>
    have hne : c ≠ c' := ne_of_not_mem_cons (hwaiting hp)
    have hsubs : c ∉ s.subs ++ [c'] := by
      simpa [hne] using h.subs
    exact h.congr (setChannel_of_ne hne).1 rfl hsubs (not_mem_of_not_mem_cons (hwaiting hp))
  | skipped hp => exact h.congr rfl rfl h.subs (not_mem_of_not_mem_cons (hwaiting hp))
  | @record e hp =>
    unfold State.record
    dsimp only
    split_ifs
    · exact h.congr rfl rfl h.subs not_mem_nil
    · exact h.congr rfl rfl h.subs not_mem_nil
    · exact h.congr rfl rfl h.subs not_mem_nil
  | @subscribe c' hp hc' =>
    have hne : c ≠ c' := by
      rintro rfl
      cases hch.symm.trans hc'
    refine h.congr (setChannel_of_ne hne).1 rfl ?_ h.waiting
    show c ∉ if s.overflowed || s.done then s.subs else s.subs ++ [c']
    split_ifs
    · exact h.subs
    · simpa [hne] using h.subs
  | finish hp => exact h.congr rfl rfl not_mem_nil h.waiting
  | @take c' item items capacity hc' =>
    by_cases hcc : c = c'
    · subst hcc
      cases hch.symm.trans hc'
      have hrest : s.received c ++ [item] ++ items = stream := by
        rw [← hstream rfl, append_assoc]
        rfl
      refine ⟨⟨_, setChannel_self, fun _ => ?_⟩, ?_, h.subs, h.waiting⟩
      · show update s.received c (s.received c ++ [item]) c ++ items = stream
        rw [update_self, hrest]
      · show update s.received c (s.received c ++ [item]) c <+: stream
        rw [update_self, ← hrest]
        exact prefix_append _ _
    · exact h.congr (setChannel_of_ne hcc).1 (update_of_ne hcc _ _) h.subs h.waiting
  | @hangUp c' ch' hc' =>
    by_cases hcc : c = c'
    · subst hcc
      exact ⟨⟨_, setChannel_self, nofun⟩, h.received, h.subs, h.waiting⟩
    · exact h.congr (setChannel_of_ne hcc).1 rfl h.subs h.waiting

theorem Shut.exec {as : List (Action E C)} (h : Shut stream c s)
    (hs : (system size verdict).exec s as = some s') : Shut stream c s' := by
  induction as generalizing s with
  | nil =>
    cases hs
    exact h
  | cons a as ih =>
    obtain ⟨t, ht, hs⟩ := bind_eq_some_iff.mp hs
    exact ih (h.step (step_cases ht)) hs

omit [DecidableEq C] in
theorem Shut.received_of_ended (h : Shut stream c s) (he : s.ended c) : s.received c = stream := by
  obtain ⟨⟨capacity, hc⟩, -, -⟩ := he
  obtain ⟨ch, hch, hstream⟩ := h.channel
  cases hc.symm.trans hch
  rw [← hstream rfl, append_nil]

theorem Inv.shut_of_late (h : Inv size s) (hs : Fanout.step size verdict s (.subscribe c) = some s')
    (hlate : s.overflowed = true ∨ s.done = true ∧ ∀ e ∈ s.published, verdict e = false) :
    ∃ (es : List E) (code : Code), Shut (es.map .ok ++ [.error code]) c s' := by
  obtain ⟨hfree, hs⟩ := ite_none_left_eq_some.mp hs
  cases hs
  rw [Bool.or_eq_true, not_or, not_isSome_iff_eq_none, not_isSome_iff_eq_none] at hfree
  obtain ⟨hp, hc⟩ := hfree
  obtain ⟨hsub, hwait⟩ := h.not_waiting hc
  have hclosed : (s.overflowed || s.done) = true := by
    rcases hlate with ho | hd
    · rw [ho, Bool.true_or]
    · rw [hd.1, Bool.or_true]
  have hback : ∃ (es : List E) (code : Code), s.toReplay.backlog verdict = es.map .ok ++ [.error code] := by
    unfold backlog
    split_ifs with ho hd
    · exact ⟨[], .resourceExhausted, rfl⟩
    · exact ⟨s.events, .unavailable, rfl⟩
    · -- the backlog is all that was published, and has no verdict
      exfalso
      obtain ⟨hdone, hno⟩ := hlate.resolve_left ho
      have hkept : s.events = s.published := (h.faithful hp).kept (Bool.not_eq_true _ ▸ ho)
      apply hd
      have hany : s.events.any verdict = false := by
        rw [hkept, any_eq_false]
        intro e he
        rw [hno e he]
        exact Bool.false_ne_true
      show (s.done && !s.events.any verdict) = true
      rw [hdone, hany]
      rfl
  obtain ⟨es, code, hback⟩ := hback
  obtain ⟨capacity, hnew⟩ := newChannel_eq s verdict
  refine ⟨es, code, ⟨_, setChannel_self, fun _ => ?_⟩, ?_, ?_, hwait⟩
  · show s.received c ++ (s.newChannel verdict).items = _
    rw [h.fresh c hc, hnew, hback]
    rfl
  · show s.received c <+: _
    rw [h.fresh c hc]
    exact nil_prefix
  · show c ∉ if s.overflowed || s.done then s.subs else s.subs ++ [c]
    rwa [if_pos hclosed]

/-! ### What every subscriber gets -/

/-- A subscriber gets the first events that were published, without gap, repetition or
reordering; the buffer is accounted for; and whoever comes too late finds an error at the
end. -/
theorem subscribers_see_prefixes {s : State Event C} (h : (system Event.size Event.verdict).Reachable s) :
    (∀ c, eventsOf (s.received c) <+: s.published) ∧
      s.bytes = (s.events.map Event.size).sum ∧ s.bytes ≤ maxReplayBytes ∧
      ∀ c s₁ as s₂, step Event.size Event.verdict s (.subscribe c) = some s₁ →
        (s.overflowed = true ∨ s.done = true ∧ ∀ e ∈ s.published, e.verdict = false) →
        (system Event.size Event.verdict).exec s₁ as = some s₂ →
        ∃ (es : List Event) (code : Code), s₂.received c <+: es.map .ok ++ [.error code] ∧
          (s₂.ended c → s₂.received c = es.map .ok ++ [.error code]) := by
  have hinv := inv_reachable h
  refine ⟨fun c => ?_, hinv.bytes, hinv.bounded, fun c s₁ as s₂ hs hlate hexec => ?_⟩
  · have hahead := hinv.ahead c
    rw [State.stream, eventsOf_append] at hahead
    exact (prefix_append _ _).trans hahead
  · obtain ⟨es, code, hshut⟩ := hinv.shut_of_late hs hlate
    have hshut := hshut.exec hexec
    exact ⟨es, code, hshut.received, hshut.received_of_ended⟩

/-- A job ends without a verdict, and a client that asks for it afterwards reads its log and
then the error. -/
theorem subscribers_see_prefixes_late : ∃ s s₁ s₂ : State Event ℕ,
    (system Event.size Event.verdict).Reachable s ∧ s.bytes = 64 ∧
      step Event.size Event.verdict s (.subscribe 1) = some s₁ ∧
      (system Event.size Event.verdict).exec s₁ [.take 1, .take 1] = some s₂ ∧
      ∃ (es : List Event) (code : Code), s₂.received 1 = es.map .ok ++ [.error code] := by
  obtain ⟨s, hreach, hs⟩ := (system Event.size Event.verdict).exists_reachable_of_exec (.empty : State Event ℕ)
    [.subscribe 0, .publish (.log []), .send, .record, .hangUp 0, .finish]
    (fun s => s.bytes == 64 && s.done && s.published.all (!·.verdict) &&
      (step Event.size Event.verdict s (.subscribe 1)).any fun s₁ =>
        ((system Event.size Event.verdict).exec s₁ [.take 1, .take 1]).any fun s₂ =>
          (s₂.channels 1).any (fun ch => ch.items.isEmpty && !ch.closed) && !s₂.subs.contains 1 &&
            !s₂.waiting.contains 1) rfl (by decide)
  simp only [Bool.and_eq_true, beq_iff_eq, all_eq_true, Bool.not_eq_true', Option.any_eq_true] at hs
  obtain ⟨⟨⟨hbytes, hdone⟩, hverdict⟩, s₁, hs₁, s₂, hs₂, ⟨hch, hsubs⟩, hwaiting⟩ := hs
  obtain ⟨⟨items, capacity, closed⟩, hch, hitems, hopen⟩ := hch
  obtain ⟨es, code, -, hreceived⟩ :=
    (subscribers_see_prefixes hreach).2.2.2 1 s₁ _ s₂ hs₁ (.inr ⟨hdone, hverdict⟩) hs₂
  refine ⟨s, s₁, s₂, hreach, hbytes, hs₁, hs₂, es, code, hreceived ⟨⟨capacity, ?_⟩, ?_, ?_⟩⟩
  · obtain rfl : items = [] := isEmpty_iff.mp hitems
    obtain rfl : closed = false := hopen
    exact hch
  · simpa using hsubs
  · simpa using hwaiting

end Tribuchet.Outputs.Fanout
