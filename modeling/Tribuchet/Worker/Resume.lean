import Mathlib.Data.Finset.Basic
import Tribuchet.Base.Runs
import Tribuchet.Base.Table

/-! Builds past staging on the worker and the delivery of their results
(`worker/resume/delivery.rs`, `adopt_assignment` in `worker.rs`, `handle_assignment` in
`worker/session.rs`). The session loop, the threads of the builds, the calls of
`try_deliver`, the threads that serve chunks and the reaper share the registry; each of
them moves between two uses of its lock. A message is sent as soon as it is in the
session's channel; sending on a session that is gone fails. Logs are left out. -/

namespace Tribuchet.Worker.Resume

open Runs Option

variable {K I H : Type} [DecidableEq K] [DecidableEq I] [DecidableEq H]

/-- The reaper's `TTL`, in seconds. -/
def ttl : ℕ := 300

/-- A `FinishedBuild`: what its outputs and then its extras consist of. -/
structure Finished (H : Type) where
  /-- which allocation its `Arc`s share -/
  serial : ℕ
  exitCode : ℤ
  hashes : List H
  finishedAt : ℕ
  deriving DecidableEq

/-- A `ResumableBuild`; a sender is the number of its session. -/
structure Entry (I H : Type) where
  buildId : I
  outTx : Option ℕ
  finished : Option (Finished H)
  delivering : Bool
  deriving DecidableEq

inductive Msg (I H : Type)
  | resumed (id : I)
  /-- the `Result` that `deliver` sends -/
  | result (id : I) (fin : Finished H)
  /-- a failing `Result` without outputs -/
  | failed (id : I) (error : String)
  | chunk (id : I) (hash : H)
  | eof (id : I)
  deriving DecidableEq

def Msg.isResumed (id : I) : Msg I H → Bool
  | .resumed id' => id' = id
  | _ => false

def Msg.isResult (id : I) : Msg I H → Bool
  | .result id' _ => id' = id
  | _ => false

/-- A successful `Result`, to which the hub answers with a `Need`. -/
def Msg.succeeds (id : I) : Msg I H → Bool
  | .result id' fin => id' = id ∧ fin.exitCode = 0
  | _ => false

/-- Where `handle_assignment` stands for a key the worker holds. -/
inductive Loop (K I : Type)
  | idle
  /-- adopted, `Resumed` comes next -/
  | adopted (key : K) (id : I)
  /-- `Resumed` is sent, spawning `try_deliver` comes next -/
  | resumed (key : K)
  deriving DecidableEq

def Loop.key : Loop K I → Option K
  | .idle => none
  | .adopted key _ | .resumed key => some key

/-- A call of `try_deliver` that took up a result. -/
structure Delivery (K I H : Type) where
  key : K
  buildId : I
  session : ℕ
  fin : Finished H
  /-- `deliver` has returned -/
  done : Bool
  deriving DecidableEq

/-- A thread in `send_chunks`: what it was asked for, the frames it has still to send,
and whether the result has everything it was asked for. -/
structure Serving (I H : Type) where
  session : ℕ
  buildId : I
  serial : ℕ
  asked : List H
  frames : List H
  complete : Bool
  deriving DecidableEq

/-- A `Need` the worker received. -/
structure Request (I H : Type) where
  session : ℕ
  buildId : I
  asked : List H
  deriving DecidableEq

structure State (K I H : Type) where
  registry : AList fun _ : K => Entry I H
  session : ℕ
  up : Bool
  loop : Loop K I
  /-- calls of `try_deliver` that are scheduled or about to be made -/
  calls : List K
  deliveries : List (Delivery K I H)
  servings : List (Serving I H)
  sent : List (ℕ × Msg I H)
  assigned : List I
  adopted : List I
  requests : List (Request I H)
  dropped : List (Request I H)
  now : ℕ
  serials : ℕ

namespace State

def isUp (s : State K I H) (session : ℕ) : Prop := session = s.session ∧ s.up = true

instance (s : State K I H) (session : ℕ) : Decidable (s.isUp session) := inferInstanceAs (Decidable (_ ∧ _))

def send (s : State K I H) (session : ℕ) (m : Msg I H) : State K I H :=
  if s.isUp session then { s with sent := s.sent ++ [(session, m)] } else s

def setEntry (s : State K I H) (key : K) (e : Entry I H) : State K I H :=
  { s with registry := s.registry.insert key e }

def drop (s : State K I H) (key : K) : State K I H := { s with registry := s.registry.erase key }

end State

/-- One look at a recipe: the needed chunks in recipe order, each once, and what is then
still needed. -/
def pick : List H → Finset H → List H × Finset H
  | [], needed => ([], needed)
  | h :: hs, needed =>
    if h ∈ needed then
      let (frames, rest) := pick hs (needed.erase h)
      (h :: frames, rest)
    else pick hs needed

/-- The look-up of `serve_chunks`. -/
def State.findBuild (s : State K I H) (id : I) : Option (Finished H) :=
  (s.registry.entries.find? fun e => e.2.buildId = id).bind fun e => e.2.finished

/-- The hub asks once for the chunks of a build, after its successful `Result` on this
session. -/
def State.asks (s : State K I H) (id : I) : Prop :=
  (∃ m ∈ s.sent, m.1 = s.session ∧ m.2.succeeds id) ∧ ∀ r ∈ s.requests, r.session = s.session → r.buildId ≠ id

instance (s : State K I H) (id : I) : Decidable (s.asks id) := inferInstanceAs (Decidable (_ ∧ _))

inductive Action (K I H : Type)
  | connect
  | lose
  | launch (key : K) (id : I)
  | readopt (key : K) (id : I)
  | adopt (key : K) (id : I)
  | sendResumed
  | spawn
  /-- `record_finished` -/
  | finish (key : K) (exitCode : ℤ) (hashes : List H)
  /-- `try_deliver`, up to the end of its first locked section -/
  | tryDeliver (key : K)
  | deliver (d : Delivery K I H)
  | delivered (d : Delivery K I H)
  | need (id : I) (hashes : List H)
  | serve (t : Serving I H) (error : Option String)
  | ack (key : K)
  | reap (key : K)
  | tick (seconds : ℕ)

/-- `try_deliver` takes up a result: what it finds under the lock. -/
def State.deliverable (s : State K I H) (key : K) : Option (Entry I H × ℕ × Finished H) :=
  match s.registry.lookup key with
  | none => none
  | some e =>
    if e.delivering then none
    else match e.finished, e.outTx with
      | some fin, some session => some (e, session, fin)
      | _, _ => none

omit [DecidableEq I] [DecidableEq H] in
theorem deliverable_eq_some {s : State K I H} {key : K} {e : Entry I H} {session : ℕ} {fin : Finished H} :
    s.deliverable key = some (e, session, fin) ↔ s.registry.lookup key = some e ∧ e.delivering = false ∧
      e.finished = some fin ∧ e.outTx = some session := by
  unfold State.deliverable
  constructor
  · intro h
    split at h
    · cases h
    · rename_i e' he
      split_ifs at h with hdel
      split at h
      · rename_i fin' session' hfin hout
        cases h
        exact ⟨he, by simpa using hdel, hfin, hout⟩
      · cases h
  · rintro ⟨he, hdel, hfin, hout⟩
    simp [he, hdel, hfin, hout]

/-- Whether an `Arc` of a finished build is held outside the registry. -/
def State.shared (s : State K I H) (fin : Finished H) : Prop :=
  (∃ d ∈ s.deliveries, d.fin.serial = fin.serial) ∨ ∃ t ∈ s.servings, t.serial = fin.serial

instance (s : State K I H) (fin : Finished H) : Decidable (s.shared fin) := inferInstanceAs (Decidable (_ ∨ _))

def State.expired (s : State K I H) (e : Entry I H) : Prop :=
  ∃ fin ∈ e.finished, e.delivering = false ∧ ¬ s.shared fin ∧ fin.finishedAt + ttl < s.now

instance (s : State K I H) (e : Entry I H) : Decidable (s.expired e) :=
  match h : e.finished with
  | none => .isFalse (by simp [State.expired, h])
  | some fin => decidable_of_iff (e.delivering = false ∧ ¬ s.shared fin ∧ fin.finishedAt + ttl < s.now)
      (by simp [State.expired, h])

/-- The thread that answers a `Need`. -/
def Serving.start (r : Request I H) (fin : Finished H) : Serving I H :=
  let (frames, rest) := pick fin.hashes r.asked.toFinset
  ⟨r.session, r.buildId, fin.serial, r.asked, frames, rest = ∅⟩

def serveError (err : String) : String := "worker could not serve output chunks: " ++ err

/-- The next message of a serving thread, and the thread if it has more to send. -/
def Serving.next (t : Serving I H) : Option String → Msg I H × Option (Serving I H)
  | some err => (.failed t.buildId (serveError err), none)
  | none =>
    match t.frames with
    | hash :: frames => (.chunk t.buildId hash, some { t with frames := frames })
    | [] =>
      if t.complete then (.eof t.buildId, none)
      else (.failed t.buildId (serveError "hub asked for chunks outside the result recipes"), none)

def step (s : State K I H) : Action K I H → Option (State K I H)
  | .connect =>
    if s.up = false ∧ s.loop = .idle then some { s with session := s.session + 1, up := true } else none
  | .lose => if s.up then some { s with up := false } else none
  | .launch key id =>
    if 0 < s.session ∧ key ∉ s.registry ∧ id ∉ s.assigned then
      some { s.setEntry key ⟨id, some s.session, none, false⟩ with assigned := s.assigned ++ [id] }
    else none
  | .readopt key id =>
    if s.session = 0 ∧ key ∉ s.registry ∧ id ∉ s.assigned then
      some { s.setEntry key ⟨id, none, none, false⟩ with assigned := s.assigned ++ [id] }
    else none
  | .adopt key id =>
    match s.registry.lookup key with
    | none => none
    | some e =>
      if s.up ∧ s.loop = .idle ∧ id ∉ s.assigned then
        some { s.setEntry key { e with buildId := id, outTx := some s.session } with
          loop := .adopted key id, assigned := s.assigned ++ [id], adopted := s.adopted ++ [id] }
      else none
  | .sendResumed =>
    match s.loop with
    | .adopted key id =>
      -- the loop ends with the session if the send fails
      some { s.send s.session (.resumed id) with loop := if s.up then .resumed key else .idle }
    | _ => none
  | .spawn =>
    match s.loop with
    | .resumed key => some { s with loop := .idle, calls := s.calls ++ [key] }
    | _ => none
  | .finish key exitCode hashes =>
    match s.registry.lookup key with
    | none => none
    | some e =>
      if e.finished = none then
        some { s.setEntry key { e with finished := some ⟨s.serials, exitCode, hashes, s.now⟩ } with
          serials := s.serials + 1, calls := s.calls ++ [key] }
      else none
  | .tryDeliver key =>
    if key ∈ s.calls then
      let s := { s with calls := s.calls.erase key }
      match s.deliverable key with
      | none => some s
      | some (e, session, fin) => some { s.setEntry key { e with delivering := true } with
          deliveries := ⟨key, e.buildId, session, fin, false⟩ :: s.deliveries }
    else none
  | .deliver d =>
    if d ∈ s.deliveries ∧ d.done = false then
      some { s.send d.session (.result d.buildId d.fin) with
        deliveries := { d with done := true } :: s.deliveries.erase d }
    else none
  | .delivered d =>
    if d ∈ s.deliveries ∧ d.done = true then
      let s := { s with deliveries := s.deliveries.erase d }
      match s.registry.lookup d.key with
      | none => some s
      | some e => some (s.setEntry d.key { e with delivering := false })
    else none
  | .need id hashes =>
    if s.up ∧ s.loop = .idle ∧ s.asks id then
      let r : Request I H := ⟨s.session, id, hashes⟩
      let s := { s with requests := s.requests ++ [r] }
      match s.findBuild id with
      | none => some { s with dropped := s.dropped ++ [r] }
      | some fin => some { s with servings := Serving.start r fin :: s.servings }
    else none
  | .serve t error =>
    if t ∈ s.servings then
      -- a thread whose session is gone has nobody to tell
      some { s.send t.session (t.next error).1 with
        servings := (if s.isUp t.session then (t.next error).2.toList else []) ++ s.servings.erase t }
    else none
  | .ack key =>
    match s.registry.lookup key with
    | none => none
    | some e => if s.up ∧ s.loop = .idle then some (if e.finished.isSome then s.drop key else s) else none
  | .reap key =>
    match s.registry.lookup key with
    | none => none
    | some e => if s.expired e then some (s.drop key) else none
  | .tick seconds => some { s with now := s.now + seconds }

/-! ### What a step does -/

inductive Step (s : State K I H) : Action K I H → State K I H → Prop
  | connect (hup : s.up = false) (hloop : s.loop = .idle) :
    Step s .connect { s with session := s.session + 1, up := true }
  | lose (hup : s.up = true) : Step s .lose { s with up := false }
  | launch {key : K} {id : I} (hs : 0 < s.session) (hkey : key ∉ s.registry) (hid : id ∉ s.assigned) :
    Step s (.launch key id)
      { s.setEntry key ⟨id, some s.session, none, false⟩ with assigned := s.assigned ++ [id] }
  | readopt {key : K} {id : I} (hs : s.session = 0) (hkey : key ∉ s.registry) (hid : id ∉ s.assigned) :
    Step s (.readopt key id) { s.setEntry key ⟨id, none, none, false⟩ with assigned := s.assigned ++ [id] }
  | adopt {key : K} {id : I} {e : Entry I H} (he : s.registry.lookup key = some e) (hup : s.up = true)
    (hloop : s.loop = .idle) (hid : id ∉ s.assigned) :
    Step s (.adopt key id) { s.setEntry key { e with buildId := id, outTx := some s.session } with
      loop := .adopted key id, assigned := s.assigned ++ [id], adopted := s.adopted ++ [id] }
  | sendResumed {key : K} {id : I} (hloop : s.loop = .adopted key id) (hup : s.up = true) :
    Step s .sendResumed { s with sent := s.sent ++ [(s.session, .resumed id)], loop := .resumed key }
  | resumeLost {key : K} {id : I} (hloop : s.loop = .adopted key id) (hup : s.up = false) :
    Step s .sendResumed { s with loop := .idle }
  | spawn {key : K} (hloop : s.loop = .resumed key) : Step s .spawn { s with loop := .idle, calls := s.calls ++ [key] }
  | finish {key : K} {exitCode : ℤ} {hashes : List H} {e : Entry I H} (he : s.registry.lookup key = some e)
    (hfin : e.finished = none) : Step s (.finish key exitCode hashes)
      { s.setEntry key { e with finished := some ⟨s.serials, exitCode, hashes, s.now⟩ } with
        serials := s.serials + 1, calls := s.calls ++ [key] }
  | giveUp {key : K} (hcall : key ∈ s.calls) (hd : s.deliverable key = none) :
    Step s (.tryDeliver key) { s with calls := s.calls.erase key }
  | takeUp {key : K} {e : Entry I H} {session : ℕ} {fin : Finished H} (hcall : key ∈ s.calls)
    (he : s.registry.lookup key = some e) (hidle : e.delivering = false) (hfin : e.finished = some fin)
    (hout : e.outTx = some session) : Step s (.tryDeliver key) { s.setEntry key { e with delivering := true } with
      calls := s.calls.erase key, deliveries := ⟨key, e.buildId, session, fin, false⟩ :: s.deliveries }
  | deliver {d : Delivery K I H} (hd : d ∈ s.deliveries) (hover : d.done = false) :
    Step s (.deliver d) { s.send d.session (.result d.buildId d.fin) with
      deliveries := { d with done := true } :: s.deliveries.erase d }
  | delivered {d : Delivery K I H} {e : Entry I H} (hd : d ∈ s.deliveries) (hover : d.done = true)
    (he : s.registry.lookup d.key = some e) : Step s (.delivered d)
      { s.setEntry d.key { e with delivering := false } with deliveries := s.deliveries.erase d }
  | deliveredGone {d : Delivery K I H} (hd : d ∈ s.deliveries) (hover : d.done = true)
    (he : s.registry.lookup d.key = none) : Step s (.delivered d) { s with deliveries := s.deliveries.erase d }
  | needDropped {id : I} {hashes : List H} (hup : s.up = true) (hasked : s.asks id) (hfind : s.findBuild id = none) :
    Step s (.need id hashes) { s with
      requests := s.requests ++ [⟨s.session, id, hashes⟩], dropped := s.dropped ++ [⟨s.session, id, hashes⟩] }
  | needServed {id : I} {hashes : List H} {fin : Finished H} (hup : s.up = true) (hasked : s.asks id)
    (hfind : s.findBuild id = some fin) : Step s (.need id hashes) { s with
      requests := s.requests ++ [⟨s.session, id, hashes⟩]
      servings := Serving.start ⟨s.session, id, hashes⟩ fin :: s.servings }
  | serve {t : Serving I H} {error : Option String} (ht : t ∈ s.servings) (hup : s.isUp t.session) :
    Step s (.serve t error) { s with
      sent := s.sent ++ [(t.session, (t.next error).1)], servings := (t.next error).2.toList ++ s.servings.erase t }
  | serveLost {t : Serving I H} {error : Option String} (ht : t ∈ s.servings) (hup : ¬ s.isUp t.session) :
    Step s (.serve t error) { s with servings := s.servings.erase t }
  | ack {key : K} {e : Entry I H} (he : s.registry.lookup key = some e) (hup : s.up = true) (hloop : s.loop = .idle)
    (hfin : e.finished.isSome) : Step s (.ack key) (s.drop key)
  | ackEarly {key : K} (hup : s.up = true) : Step s (.ack key) s
  | reap {key : K} {e : Entry I H} (he : s.registry.lookup key = some e) (hexp : s.expired e) :
    Step s (.reap key) (s.drop key)
  | tick {seconds : ℕ} : Step s (.tick seconds) { s with now := s.now + seconds }

theorem step_cases {s s' : State K I H} {a : Action K I H} (h : step s a = some s') : Step s a s' := by
  cases a with
  | connect =>
    obtain ⟨hok, hs⟩ := ite_none_right_eq_some.mp h
    cases hs
    exact .connect hok.1 hok.2
  | lose =>
    obtain ⟨hok, hs⟩ := ite_none_right_eq_some.mp h
    cases hs
    exact .lose hok
  | launch key id =>
    obtain ⟨hok, hs⟩ := ite_none_right_eq_some.mp h
    cases hs
    exact .launch hok.1 hok.2.1 hok.2.2
  | readopt key id =>
    obtain ⟨hok, hs⟩ := ite_none_right_eq_some.mp h
    cases hs
    exact .readopt hok.1 hok.2.1 hok.2.2
  | adopt key id =>
    simp only [step] at h
    split at h
    · cases h
    · rename_i e he
      split_ifs at h with hok
      cases h
      exact .adopt he hok.1 hok.2.1 hok.2.2
  | sendResumed =>
    simp only [step] at h
    split at h
    · rename_i key id hloop
      cases h
      by_cases hup : s.up = true
      · have hsend : s.send s.session (.resumed id) = { s with sent := s.sent ++ [(s.session, .resumed id)] } :=
          if_pos ⟨rfl, hup⟩
        rw [hsend, if_pos hup]
        exact .sendResumed hloop hup
      · have hsend : s.send s.session (.resumed id) = s := if_neg fun hc => hup hc.2
        rw [hsend, if_neg hup]
        exact .resumeLost hloop (by simpa using hup)
    · cases h
  | spawn =>
    simp only [step] at h
    split at h
    · rename_i key hloop
      cases h
      exact .spawn hloop
    · cases h
  | finish key exitCode hashes =>
    simp only [step] at h
    split at h
    · cases h
    · rename_i e he
      split_ifs at h with hok
      cases h
      exact .finish he hok
  | tryDeliver key =>
    obtain ⟨hcall, hs⟩ := ite_none_right_eq_some.mp h
    have hdeq : State.deliverable { s with calls := s.calls.erase key } key = s.deliverable key := rfl
    simp only [hdeq] at hs
    cases hd : s.deliverable key with
    | none =>
      simp only [hd, some.injEq] at hs
      subst hs
      exact .giveUp hcall hd
    | some found =>
      obtain ⟨e, session, fin⟩ := found
      simp only [hd, some.injEq] at hs
      subst hs
      obtain ⟨he, hidle, hfin, hout⟩ := deliverable_eq_some.mp hd
      exact .takeUp hcall he hidle hfin hout
  | deliver d =>
    obtain ⟨hok, hs⟩ := ite_none_right_eq_some.mp h
    cases hs
    exact .deliver hok.1 hok.2
  | delivered d =>
    obtain ⟨hok, hs⟩ := ite_none_right_eq_some.mp h
    cases he : s.registry.lookup d.key with
    | none =>
      simp only [he, some.injEq] at hs
      subst hs
      exact .deliveredGone hok.1 hok.2 he
    | some e =>
      simp only [he, some.injEq] at hs
      subst hs
      exact .delivered hok.1 hok.2 he
  | need id hashes =>
    obtain ⟨hok, hs⟩ := ite_none_right_eq_some.mp h
    have hfeq : State.findBuild { s with requests := s.requests ++ [⟨s.session, id, hashes⟩] } id = s.findBuild id := rfl
    simp only [hfeq] at hs
    cases hf : s.findBuild id with
    | none =>
      simp only [hf, some.injEq] at hs
      subst hs
      exact .needDropped hok.1 hok.2.2 hf
    | some fin =>
      simp only [hf, some.injEq] at hs
      subst hs
      exact .needServed hok.1 hok.2.2 hf
  | serve t error =>
    obtain ⟨ht, hs⟩ := ite_none_right_eq_some.mp h
    rw [← some.inj hs]
    by_cases hup : s.isUp t.session
    · have hsend : s.send t.session (t.next error).1 = { s with sent := s.sent ++ [(t.session, (t.next error).1)] } :=
        if_pos hup
      rw [hsend, if_pos hup]
      exact .serve ht hup
    · have hsend : s.send t.session (t.next error).1 = s := if_neg hup
      rw [hsend, if_neg hup]
      exact .serveLost ht hup
  | ack key =>
    simp only [step] at h
    split at h
    · cases h
    · rename_i e he
      split_ifs at h with hok hfin
      · cases h
        exact .ack he hok.1 hok.2 hfin
      · cases h
        exact .ackEarly hok.1
  | reap key =>
    simp only [step] at h
    split at h
    · cases h
    · rename_i e he
      split_ifs at h with hok
      cases h
      exact .reap he hok
  | tick seconds =>
    cases h
    exact .tick

def State.initial : State K I H := ⟨∅, 0, false, .idle, [], [], [], [], [], [], [], [], 0, 0⟩

def system (K I H : Type) [DecidableEq K] [DecidableEq I] [DecidableEq H] : System (State K I H) (Action K I H) where
  init s := s = State.initial
  step := step

end Tribuchet.Worker.Resume
