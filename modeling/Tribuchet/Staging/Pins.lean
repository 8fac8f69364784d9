import Tribuchet.Base.Greedy
import Tribuchet.Staging.Build

/-! Which inputs get a temp root of their own (`plan_pins` in `worker/pins.rs`), and how `check_inputs`
in `worker/build.rs` uses the plan while paths come and go in the store. The database is a snapshot;
what is valid is given anew for each call to the daemon. The references of a path never change.
An error is the chain of its messages. What is left out is the check of the outputs on macOS. -/

namespace Tribuchet.Staging.Pins

open Greedy Hoare Relation List

/-! ### `plan_pins` -/

structure StoreDb where
  validPaths : List (ℤ × String)
  refs : List (ℤ × ℤ)
  ids_nodup : (validPaths.map Prod.fst).Nodup
  paths_nodup : (validPaths.map Prod.snd).Nodup

def StoreDb.idOf (db : StoreDb) (path : String) : Option ℤ := (db.validPaths.find? (·.2 = path)).map Prod.fst

def StoreDb.referencesOf (db : StoreDb) (id : ℤ) : List ℤ := (db.refs.filter fun r => r.1 = id ∧ r.2 ≠ id).map Prod.snd

structure PinPlan where
  pins : Finset String
  dbValid : Finset String

abbrev Ids := AList fun _ : ℤ => String

/-- `id_to_path` and `db_valid`, one path after the other. -/
def findId (db : StoreDb) (found : Ids × Finset String) (p : String) : Ids × Finset String :=
  match db.idOf p with
  | none => found
  | some id => (found.1.insert id p, insert p found.2)

def addReferenced (ids : Ids) (referenced : Finset String) (r : ℤ) : Finset String :=
  match ids.lookup r with
  | none => referenced
  | some p => insert p referenced

def referencedBy (db : StoreDb) (ids : Ids) : Finset String :=
  ids.keys.foldl (fun referenced id => (db.referencesOf id).foldl (addReferenced ids) referenced) ∅

def planPins (db : StoreDb) (offered : List String) : PinPlan :=
  let found := offered.foldl (findId db) (∅, ∅)
  let referenced := referencedBy db found.1
  ⟨(offered.filter (· ∉ referenced)).toFinset, found.2⟩

section Plan

variable {db : StoreDb} {offered : List String} {p q : String} {i j : ℤ}

theorem idOf_eq_some : db.idOf p = some i ↔ (i, p) ∈ db.validPaths := by
  constructor
  · intro h
    obtain ⟨⟨i', p'⟩, hfind, rfl⟩ := Option.map_eq_some_iff.mp h
    have hp := find?_some hfind
    simp only [decide_eq_true_eq] at hp
    exact hp ▸ mem_of_find?_eq_some hfind
  · intro h
    cases hfind : db.validPaths.find? (·.2 = p) with
    | none =>
      have := find?_eq_none.mp hfind (i, p) h
      simp at this
    | some e =>
      have hp := find?_some hfind
      simp only [decide_eq_true_eq] at hp
      have he : e = (i, p) := inj_on_of_nodup_map db.paths_nodup (mem_of_find?_eq_some hfind) h hp
      rw [StoreDb.idOf, hfind, he]
      rfl

theorem idOf_inj (hp : db.idOf p = some i) (hq : db.idOf q = some i) : p = q := by
  have := inj_on_of_nodup_map db.ids_nodup (idOf_eq_some.mp hp) (idOf_eq_some.mp hq) rfl
  exact congrArg Prod.snd this

def StoreDb.Refers (db : StoreDb) (p q : String) : Prop := ∃ i j, db.idOf p = some i ∧ db.idOf q = some j ∧ (i, j) ∈ db.refs

theorem lookup_found : (offered.foldl (findId db) (∅, ∅)).1.lookup i = some p ↔ p ∈ offered ∧ db.idOf p = some i := by
  induction offered using reverseRecOn with
  | nil => simp
  | append_singleton offered q ih =>
    rw [foldl_append, foldl_cons, foldl_nil, findId]
    cases hq : db.idOf q with
    | none =>
      rw [ih, mem_append, mem_singleton]
      constructor
      · tauto
      · rintro ⟨hp | rfl, hid⟩
        · exact ⟨hp, hid⟩
        · rw [hq] at hid
          cases hid
    | some k =>
      rw [Table.lookup_insert_eq, mem_append, mem_singleton]
      split_ifs with hik
      · subst hik
        constructor
        · intro h
          cases h
          exact ⟨.inr rfl, hq⟩
        · rintro ⟨-, hid⟩
          rw [idOf_inj hq hid]
      · rw [ih]
        constructor
        · tauto
        · rintro ⟨hp | rfl, hid⟩
          · exact ⟨hp, hid⟩
          · rw [hq] at hid
            cases hid
            exact absurd rfl hik

theorem mem_dbValid : p ∈ (planPins db offered).dbValid ↔ p ∈ offered ∧ (db.idOf p).isSome := by
  unfold planPins
  induction offered using reverseRecOn with
  | nil => simp
  | append_singleton offered q ih =>
    dsimp only at ih ⊢
    rw [foldl_append, foldl_cons, foldl_nil, findId, mem_append, mem_singleton]
    cases hq : db.idOf q with
    | none =>
      rw [ih]
      constructor
      · tauto
      · rintro ⟨hp | rfl, hid⟩
        · exact ⟨hp, hid⟩
        · simp [hq] at hid
    | some k =>
      rw [Finset.mem_insert, ih]
      constructor
      · rintro (rfl | ⟨hp, hid⟩)
        · exact ⟨.inr rfl, by simp [hq]⟩
        · exact ⟨.inl hp, hid⟩
      · rintro ⟨hp | rfl, hid⟩
        · exact .inr ⟨hp, hid⟩
        · exact .inl rfl

theorem mem_foldl_addReferenced {ids : Ids} {refs : List ℤ} {referenced : Finset String} :
    p ∈ refs.foldl (addReferenced ids) referenced ↔ p ∈ referenced ∨ ∃ r ∈ refs, ids.lookup r = some p := by
  induction refs generalizing referenced with
  | nil => simp
  | cons r refs ih =>
    rw [foldl_cons, ih, addReferenced]
    cases hr : ids.lookup r with
    | none => simp [hr]
    | some q =>
      simp only [Finset.mem_insert, mem_cons, exists_eq_or_imp, hr, Option.some.injEq]
      tauto

theorem mem_foldl_referencedBy {ids : Ids} {keys : List ℤ} {referenced : Finset String} :
    p ∈ keys.foldl (fun referenced id => (db.referencesOf id).foldl (addReferenced ids) referenced) referenced ↔
      p ∈ referenced ∨ ∃ id ∈ keys, ∃ r ∈ db.referencesOf id, ids.lookup r = some p := by
  induction keys generalizing referenced with
  | nil => simp
  | cons id keys ih =>
    rw [foldl_cons, ih, mem_foldl_addReferenced]
    simp only [mem_cons, exists_eq_or_imp, or_assoc]

theorem mem_referencesOf : j ∈ db.referencesOf i ↔ (i, j) ∈ db.refs ∧ j ≠ i := by
  simp only [StoreDb.referencesOf, mem_map, mem_filter, decide_eq_true_eq]
  constructor
  · rintro ⟨⟨i', j'⟩, ⟨hmem, rfl, hne⟩, rfl⟩
    exact ⟨hmem, hne⟩
  · rintro ⟨hmem, hne⟩
    exact ⟨(i, j), ⟨hmem, rfl, hne⟩, rfl⟩

theorem mem_referencedBy : p ∈ referencedBy db (offered.foldl (findId db) (∅, ∅)).1 ↔
    p ∈ offered ∧ ∃ q ∈ offered, q ≠ p ∧ db.Refers q p := by
  simp only [referencedBy, mem_foldl_referencedBy, mem_referencesOf, lookup_found, Finset.notMem_empty, false_or]
  constructor
  · rintro ⟨i, hi, j, ⟨href, hne⟩, hp, hj⟩
    obtain ⟨q, hlookup⟩ := Table.exists_lookup (AList.mem_keys.mpr hi)
    obtain ⟨hq, hi⟩ := lookup_found.mp hlookup
    refine ⟨hp, q, hq, ?_, i, j, hi, hj, href⟩
    rintro rfl
    rw [hi] at hj
    exact hne (Option.some.inj hj).symm
  · rintro ⟨hp, q, hq, hne, i, j, hi, hj, href⟩
    refine ⟨i, ?_, j, ⟨href, ?_⟩, hp, hj⟩
    · exact AList.mem_keys.mp (AList.lookup_isSome.mp (by rw [lookup_found.mpr ⟨hq, hi⟩]; rfl))
    · rintro rfl
      exact hne (idOf_inj hi hj)

theorem mem_pins : p ∈ (planPins db offered).pins ↔ p ∈ offered ∧ ∀ q ∈ offered, q ≠ p → ¬ db.Refers q p := by
  simp only [planPins, mem_toFinset, mem_filter, decide_eq_true_eq, mem_referencedBy]
  constructor
  · rintro ⟨hp, h⟩
    exact ⟨hp, fun q hq hne href => h ⟨hp, q, hq, hne, href⟩⟩
  · rintro ⟨hp, h⟩
    refine ⟨hp, ?_⟩
    rintro ⟨-, q, hq, hne, href⟩
    exact h q hq hne href

theorem unknown_mem_pins (hp : p ∈ offered) (hnone : db.idOf p = none) : p ∈ (planPins db offered).pins := by
  refine mem_pins.mpr ⟨hp, fun q _ _ href => ?_⟩
  obtain ⟨i, j, -, hj, -⟩ := href
  rw [hnone] at hj
  cases hj

theorem pins_eq_planPins {refs : String → List String} (hrefs : ∀ q p, p ∈ refs q ↔ db.Refers q p) :
    (planPins db offered).pins = (Staging.planPins refs (planPins db offered).dbValid offered).toFinset := by
  have hvalid {q p : String} (h : db.Refers q p) : (db.idOf q).isSome ∧ (db.idOf p).isSome := by
    obtain ⟨i, j, hi, hj, -⟩ := h
    simp [hi, hj]
  ext p
  simp only [mem_pins, Staging.planPins, mem_toFinset, mem_filter, decide_eq_true_eq, mem_dbValid, hrefs]
  constructor
  · rintro ⟨hp, h⟩
    refine ⟨hp, ?_⟩
    rintro ⟨-, q, hq, -, hne, href⟩
    exact h q hq hne href
  · rintro ⟨hp, h⟩
    exact ⟨hp, fun q hq hne href => h ⟨⟨hp, (hvalid href).2⟩, q, hq, ⟨hq, (hvalid href).1⟩, hne, href⟩⟩

/-- There are no cycles in the snapshot, other than paths that refer to themselves. -/
def StoreDb.Acyclic (db : StoreDb) : Prop := ∀ p q, ReflTransGen db.Refers p q → ReflTransGen db.Refers q p → p = q

/-- References between offered paths that the database calls valid. -/
def StoreDb.RefersWithin (db : StoreDb) (offered : List String) (p q : String) : Prop :=
  p ∈ offered ∧ q ∈ offered ∧ db.Refers p q

/-- A valid path is in the closure of a valid pin. Otherwise it has a referrer that is not either,
and so on, which leads to a cycle. -/
theorem covered (hacyclic : db.Acyclic) (hp : p ∈ offered) (hvalid : (db.idOf p).isSome) :
    ∃ pin ∈ (planPins db offered).pins, (db.idOf pin).isSome ∧ ReflTransGen (db.RefersWithin offered) pin p := by
  classical
  by_contra hnot
  let covered (x : String) : Prop :=
    ∃ pin ∈ (planPins db offered).pins, (db.idOf pin).isSome ∧ ReflTransGen (db.RefersWithin offered) pin x
  let uncovered := offered.toFinset.filter fun x => (db.idOf x).isSome ∧ ¬ covered x
  have hstep : ∀ x ∈ uncovered, ∃ y ∈ uncovered, y ≠ x ∧ db.Refers y x := by
    intro x hx
    simp only [uncovered, Finset.mem_filter, mem_toFinset] at hx
    obtain ⟨hx, hxvalid, hcov⟩ := hx
    have hpin : x ∉ (planPins db offered).pins := fun h => hcov ⟨x, h, hxvalid, .refl⟩
    simp only [mem_pins, hx, true_and, not_forall, not_not] at hpin
    obtain ⟨y, hy, hne, href⟩ := hpin
    have hyvalid : (db.idOf y).isSome := by
      obtain ⟨i, j, hi, -⟩ := href
      simp [hi]
    refine ⟨y, ?_, hne, href⟩
    simp only [uncovered, Finset.mem_filter, mem_toFinset]
    refine ⟨hy, hyvalid, ?_⟩
    rintro ⟨pin, hpin, hpinvalid, hreach⟩
    exact hcov ⟨pin, hpin, hpinvalid, hreach.tail ⟨hy, hx, href⟩⟩
  have hmem : p ∈ uncovered := by
    simp only [uncovered, Finset.mem_filter, mem_toFinset]
    exact ⟨hp, hvalid, hnot⟩
  have htangled : Tangled (fun x y => y ≠ x ∧ db.Refers y x) p := tangled_of_forall_waits hstep hmem
  obtain ⟨c, -, hcycle⟩ := htangled
  obtain ⟨y, ⟨hne, href⟩, hback⟩ := TransGen.head'_iff.mp hcycle
  have hback : ReflTransGen db.Refers c y := by
    have := hback.swap
    exact this.lift id fun a b hab => hab.2
  exact hne (hacyclic y c (.single href) hback)

end Plan

/-! ### `check_inputs` -/

inductive Call (P : Type)
  | addTempRoot (p : P)
  | queryValidPaths

/-- What is outside of the function: how names are parsed, which calls to the daemon fail, the paths
that are valid when it answers its n-th call, and whether a missing path is this build's to request. -/
structure Host (P : Type) where
  connect : Except (List String) Unit
  parse : String → Except (List String) P
  fails : ℕ → Option (List String)
  valid : ℕ → Finset P
  claim : String → Bool

/-- The calls that were answered on the connection, and the inputs of the build. -/
structure Session (P : Type) where
  calls : List (Call P)
  inputs : Finset String

section Check

variable {P : Type} (host : Host P)

abbrev CheckM (P : Type) := Act (Session P) (List String)

def liftCtx {α : Type} (msg : String) (r : Except (List String) α) : CheckM P α := fun s =>
  match r with
  | .ok a => (.ok a, s)
  | .error chain => (.error (msg :: chain), s)

/-- A call to the daemon, which answers from the store as it is then. -/
def call {α : Type} (msg : String) (c : Call P) (answer : Finset P → α) : CheckM P α := fun s =>
  match host.fails s.calls.length with
  | some chain => (.error (msg :: chain), s)
  | none => (.ok (answer (host.valid s.calls.length)), { s with calls := s.calls ++ [c] })

def addTempRoot (p : String) (sp : P) : CheckM P Unit := call host s!"adding temp root for {p}" (.addTempRoot sp) fun _ => ()

def queryValidPaths [DecidableEq P] (msg : String) (set : Finset P) : CheckM P (Finset P) := call host msg .queryValidPaths (set ∩ ·)

def parseOne (parsed : List (String × P)) (p : String) : CheckM P (List (String × P)) := do
  let sp ← liftCtx s!"offered path {p.quote} is not a store path" (host.parse p)
  pure (parsed ++ [(p, sp)])

def rootPin (plan : Option PinPlan) (pinned : Finset String) (e : String × P) : CheckM P (Finset String) := do
  if plan.all fun plan => e.1 ∈ plan.pins then
    addTempRoot host e.1 e.2
    pure (insert e.1 pinned)
  else pure pinned

def rootRest (pinned : Finset String) (_ : Unit) (e : String × P) : CheckM P Unit := do
  if e.1 ∉ pinned then addTempRoot host e.1 e.2 else pure ()

def raced [DecidableEq P] (plan : Option PinPlan) (parsed : List (String × P)) (valid : Finset P) : Bool :=
  plan.any fun plan => parsed.any fun e => e.1 ∈ plan.dbValid ∧ e.2 ∉ valid

def checkOne [DecidableEq P] (valid : Finset P) (missing : List String) (e : String × P) : CheckM P (List String) := do
  if e.2 ∈ valid then
    modify fun s => { s with inputs := insert e.1 s.inputs }
    pure missing
  else if host.claim e.1 then pure (missing ++ [e.1])
  else pure missing

def queryRooted [DecidableEq P] (plan : Option PinPlan) (parsed : List (String × P)) : CheckM P (Finset P) := do
  let set := (parsed.map Prod.snd).toFinset
  let pinned ← parsed.foldlM (rootPin host plan) ∅
  let valid ← queryValidPaths host "querying valid paths" set
  if raced plan parsed valid then
    parsed.foldlM (rootRest host pinned) ()
    queryValidPaths host "re-querying valid paths" set
  else pure valid

/-- `db` is `none` if the database could not be read. -/
def checkInputs [DecidableEq P] (db : Option StoreDb) (offered : List String) : CheckM P (List String) := do
  liftCtx "connecting to the local nix-daemon" host.connect
  modify fun s => { s with calls := [] }
  let parsed ← offered.foldlM (parseOne host) []
  let plan := db.map (planPins · offered)
  let valid ← queryRooted host plan parsed
  parsed.foldlM (checkOne host valid) []

/-! The programs meet their specifications in all runs that do not fail. -/

variable {host} {s : Session P} {plan : Option PinPlan} {parsed : List (String × P)}

abbrev Returns {α : Type} (x : CheckM P α) (s : Session P) (Q : α → Session P → Prop) : Prop := Ends x s Q fun _ _ => True

theorem returns_call {α : Type} {msg : String} {c : Call P} {answer : Finset P → α} : Returns (call host msg c answer) s
    fun a t => a = answer (host.valid s.calls.length) ∧ t = { s with calls := s.calls ++ [c] } := by
  unfold Returns Ends exec call
  cases host.fails s.calls.length <;> simp

theorem returns_liftCtx {α : Type} {msg : String} {r : Except (List String) α} :
    Returns (liftCtx msg r) s fun a t => r = .ok a ∧ t = s := by
  unfold Returns Ends exec liftCtx
  cases r <;> simp

theorem returns_parse (offered : List String) : Returns (offered.foldlM (parseOne host) []) s fun parsed t =>
    t = s ∧ parsed.map Prod.fst = offered ∧ ∀ e ∈ parsed, host.parse e.1 = .ok e.2 := by
  refine (ends_foldlM (I := fun rest parsed t => t = s ∧ parsed.map Prod.fst ++ rest = offered ∧
    ∀ e ∈ parsed, host.parse e.1 = .ok e.2) ?_ ⟨rfl, by simp, by simp⟩).imp fun parsed t h => by simpa using h
  rintro p rest parsed t ⟨rfl, hnames, hparse⟩
  refine Ends.bind returns_liftCtx ?_
  rintro sp t ⟨hsp, rfl⟩
  refine ends_pure ⟨rfl, by simpa using hnames, fun e he => ?_⟩
  rcases mem_append.mp he with he | he
  · exact hparse e he
  · rw [mem_singleton.mp he]
    exact hsp

def Planned (plan : Option PinPlan) (p : String) : Prop := ∀ plan' ∈ plan, p ∈ plan'.pins

def Rooted (calls : List (Call P)) (p : P) : Prop := .addTempRoot p ∈ calls

structure Adds (s t : Session P) : Prop where
  inputs : t.inputs = s.inputs
  calls : ∀ c ∈ s.calls, c ∈ t.calls

theorem returns_addTempRoot {p : String} {sp : P} :
    Returns (addTempRoot host p sp) s fun _ t => Adds s t ∧ Rooted t.calls sp := by
  refine returns_call.imp ?_
  rintro _ t ⟨-, rfl⟩
  exact ⟨⟨rfl, fun c hc => mem_append_left _ hc⟩, mem_append_right _ (mem_singleton_self _)⟩

theorem Adds.refl (s : Session P) : Adds s s := ⟨rfl, fun _ hc => hc⟩

theorem Adds.trans {s t u : Session P} (h : Adds s t) (h' : Adds t u) : Adds s u :=
  ⟨h'.inputs.trans h.inputs, fun c hc => h'.calls c (h.calls c hc)⟩

theorem returns_rootPin {pinned : Finset String} {e : String × P} : Returns (rootPin host plan pinned e) s fun pinned' t =>
    Adds s t ∧ (∀ p ∈ pinned, p ∈ pinned') ∧ (Planned plan e.1 → e.1 ∈ pinned') ∧
      ∀ p ∈ pinned', p ∈ pinned ∨ (p = e.1 ∧ Rooted t.calls e.2) := by
  unfold rootPin
  split_ifs with hplan
  · refine Ends.bind returns_addTempRoot ?_
    rintro _ t ⟨hadds, hroot⟩
    refine ends_pure ⟨hadds, fun p hp => Finset.mem_insert_of_mem hp, fun _ => Finset.mem_insert_self _ _, fun p hp => ?_⟩
    rcases Finset.mem_insert.mp hp with rfl | hp
    · exact .inr ⟨rfl, hroot⟩
    · exact .inl hp
  · refine ends_pure ⟨.refl s, fun p hp => hp, fun h => absurd ?_ hplan, fun p hp => .inl hp⟩
    cases plan with
    | none => rfl
    | some plan' => exact decide_eq_true (h plan' rfl)

theorem returns_rootPins : Returns (parsed.foldlM (rootPin host plan) ∅) s fun pinned t =>
    Adds s t ∧ (∀ e ∈ parsed, Planned plan e.1 → e.1 ∈ pinned) ∧
      ∀ p ∈ pinned, ∃ e ∈ parsed, p = e.1 ∧ Rooted t.calls e.2 := by
  refine (ends_foldlM (I := fun rest pinned t => Adds s t ∧ (∀ e ∈ rest, e ∈ parsed) ∧
    (∀ e ∈ parsed, e ∈ rest ∨ (Planned plan e.1 → e.1 ∈ pinned)) ∧
    ∀ p ∈ pinned, ∃ e ∈ parsed, p = e.1 ∧ Rooted t.calls e.2) ?_ ⟨.refl s, fun e he => he, fun e he => .inl he, by simp⟩).imp ?_
  · rintro e rest pinned t ⟨hadds, hrest, hplanned, hpinned⟩
    refine returns_rootPin.imp ?_
    rintro pinned' t' ⟨hadds', hkept, he, hnew⟩
    refine ⟨hadds.trans hadds', fun x hx => hrest x (mem_cons_of_mem e hx), fun x hx => ?_, fun p hp => ?_⟩
    · rcases hplanned x hx with hx | hx
      · rcases mem_cons.mp hx with rfl | hx
        · exact .inr he
        · exact .inl hx
      · exact .inr fun h => hkept x.1 (hx h)
    · rcases hnew p hp with hp | ⟨rfl, hroot⟩
      · obtain ⟨x, hx, rfl, hroot⟩ := hpinned p hp
        exact ⟨x, hx, rfl, hadds'.calls _ hroot⟩
      · exact ⟨e, hrest e mem_cons_self, rfl, hroot⟩
  · rintro pinned t ⟨hadds, -, hplanned, hpinned⟩
    exact ⟨hadds, fun e he => (hplanned e he).resolve_left not_mem_nil, hpinned⟩

theorem returns_rootRest {pinned : Finset String} : Returns (parsed.foldlM (rootRest host pinned) ()) s fun _ t =>
    Adds s t ∧ ∀ e ∈ parsed, e.1 ∈ pinned ∨ Rooted t.calls e.2 := by
  refine (ends_foldlM (I := fun rest _ t => Adds s t ∧ ∀ e ∈ parsed, e ∈ rest ∨ e.1 ∈ pinned ∨ Rooted t.calls e.2) ?_
    ⟨.refl s, fun e he => .inl he⟩).imp ?_
  · rintro e rest _ t ⟨hadds, hrooted⟩
    unfold rootRest
    split_ifs with he
    · refine ends_pure ⟨hadds, fun x hx => ?_⟩
      rcases hrooted x hx with hx | hx
      · rcases mem_cons.mp hx with rfl | hx
        · exact .inr (.inl he)
        · exact .inl hx
      · exact .inr hx
    · refine returns_addTempRoot.imp ?_
      rintro _ t' ⟨hadds', hroot⟩
      refine ⟨hadds.trans hadds', fun x hx => ?_⟩
      rcases hrooted x hx with hx | hx | hx
      · rcases mem_cons.mp hx with rfl | hx
        · exact .inr (.inr hroot)
        · exact .inl hx
      · exact .inr (.inl hx)
      · exact .inr (.inr (hadds'.calls _ hx))
  · rintro _ t ⟨hadds, hrooted⟩
    exact ⟨hadds, fun e he => (hrooted e he).resolve_left not_mem_nil⟩

/-- The answer comes after every path has a root, or after the pins have one, and then it has all
the paths of the snapshot. -/
structure Asked (host : Host P) (plan : Option PinPlan) (parsed : List (String × P)) (before : List (Call P)) (valid : Finset P) : Prop where
  answer : valid ⊆ host.valid before.length
  rooted : (∀ e ∈ parsed, Rooted before e.2) ∨ ∃ plan', plan = some plan' ∧
    (∀ e ∈ parsed, e.1 ∈ plan'.pins → Rooted before e.2) ∧ ∀ e ∈ parsed, e.1 ∈ plan'.dbValid → e.2 ∈ valid

def Records (host : Host P) (refs : P → List P) (db : StoreDb) : Prop :=
  ∀ p q sp sq, db.Refers p q → host.parse p = .ok sp → host.parse q = .ok sq → sq ∈ refs sp

/-- The path is in the closure of one that has a root, and the closure is valid up to it. -/
def HeldBy (refs : P → List P) (before : List (Call P)) (valid : Finset P) (p : P) : Prop :=
  ∃ root, Rooted before root ∧ root ∈ valid ∧ ReflTransGen (fun x y => y ∈ refs x ∧ y ∈ valid) root p

theorem Asked.held {refs : P → List P} {db : Option StoreDb} (hacyclic : ∀ d ∈ db, d.Acyclic)
    (hrecords : ∀ d ∈ db, Records host refs d) {offered : List String} (hnames : parsed.map Prod.fst = offered)
    (hparsed : ∀ e ∈ parsed, host.parse e.1 = .ok e.2) {before : List (Call P)} {valid : Finset P}
    (h : Asked host (db.map (planPins · offered)) parsed before valid) {e : String × P} (he : e ∈ parsed)
    (hvalid : e.2 ∈ valid) : HeldBy refs before (host.valid before.length) e.2 := by
  rcases h.rooted with hall | ⟨plan', hplan, hpins, hdb⟩
  · exact ⟨e.2, hall e he, h.answer hvalid, .refl⟩
  · obtain ⟨d, rfl, rfl⟩ := Option.map_eq_some_iff.mp hplan
    have hparse {p : String} (hp : p ∈ offered) : ∃ x ∈ parsed, x.1 = p := mem_map.mp (hnames ▸ hp)
    have hoffered : e.1 ∈ offered := hnames ▸ mem_map_of_mem he
    by_cases hknown : (d.idOf e.1).isSome
    · obtain ⟨pin, hpin, hpinvalid, hreach⟩ := covered (hacyclic d rfl) hoffered hknown
      -- the chain of names, from the pin downwards, is a chain of valid store paths
      have hchain : ∀ q, ReflTransGen (d.RefersWithin offered) pin q → ∀ x ∈ parsed, x.1 = q →
          HeldBy refs before (host.valid before.length) x.2 := by
        intro q hq
        induction hq with
        | refl =>
          rintro x hx rfl
          have hxvalid := h.answer (hdb x hx (mem_dbValid.mpr ⟨hnames ▸ mem_map_of_mem hx, hpinvalid⟩))
          exact ⟨x.2, hpins x hx hpin, hxvalid, .refl⟩
        | @tail a b _ hab ih =>
          rintro x hx rfl
          obtain ⟨ha, hb, href⟩ := hab
          obtain ⟨y, hy, rfl⟩ := hparse ha
          obtain ⟨root, hroot, hrootvalid, hreach⟩ := ih y hy rfl
          have hxvalid : (d.idOf x.1).isSome := by
            obtain ⟨i, j, -, hj, -⟩ := href
            simp [hj]
          refine ⟨root, hroot, hrootvalid, hreach.tail ⟨?_, h.answer (hdb x hx (mem_dbValid.mpr ⟨hb, hxvalid⟩))⟩⟩
          exact hrecords d rfl y.1 x.1 y.2 x.2 href (hparsed y hy) (hparsed x hx)
      exact hchain e.1 hreach e he rfl
    · have hpin : e.1 ∈ (planPins d offered).pins := unknown_mem_pins hoffered (by simpa using hknown)
      exact ⟨e.2, hpins e he hpin, h.answer hvalid, .refl⟩

variable [DecidableEq P]

theorem returns_queryRooted (hparsed : ∀ e ∈ parsed, host.parse e.1 = .ok e.2) :
    Returns (queryRooted host plan parsed) s fun valid t =>
      t.inputs = s.inputs ∧ ∃ before, t.calls = before ++ [.queryValidPaths] ∧ Asked host plan parsed before valid := by
  have hsame {e e' : String × P} (he : e ∈ parsed) (he' : e' ∈ parsed) (h : e.1 = e'.1) : e.2 = e'.2 := by
    have := hparsed e he
    rw [h, hparsed e' he'] at this
    exact (Except.ok.inj this).symm
  unfold queryRooted
  refine Ends.bind returns_rootPins ?_
  rintro pinned t ⟨hadds, hplanned, hpinned⟩
  have hroot : ∀ e ∈ parsed, e.1 ∈ pinned → Rooted t.calls e.2 := by
    intro e he h
    obtain ⟨e', he', heq, hroot⟩ := hpinned e.1 h
    exact hsame he he' heq ▸ hroot
  refine Ends.bind returns_call ?_
  rintro valid t' ⟨rfl, rfl⟩
  split_ifs with hraced
  · refine Ends.bind returns_rootRest ?_
    rintro _ t'' ⟨hadds', hrest⟩
    refine returns_call.imp ?_
    rintro valid u ⟨rfl, rfl⟩
    refine ⟨hadds'.inputs.trans hadds.inputs, t''.calls, rfl, Finset.inter_subset_right, .inl fun e he => ?_⟩
    rcases hrest e he with hpin | hroot'
    · exact hadds'.calls _ (mem_append_left _ (hroot e he hpin))
    · exact hroot'
  · refine ends_pure ⟨hadds.inputs, t.calls, rfl, Finset.inter_subset_right, ?_⟩
    cases plan with
    | none => exact .inl fun e he => hroot e he (hplanned e he (by simp [Planned]))
    | some plan' =>
      refine .inr ⟨plan', rfl, fun e he hpin => hroot e he (hplanned e he (by simpa [Planned] using hpin)), fun e he hdb => ?_⟩
      by_contra hnot
      exact hraced (any_eq_true.mpr ⟨e, he, decide_eq_true ⟨hdb, hnot⟩⟩)

theorem returns_checkOnes {valid : Finset P} : Returns (parsed.foldlM (checkOne host valid) []) s fun _ t =>
    t.calls = s.calls ∧ ∀ p ∈ t.inputs, p ∈ s.inputs ∨ ∃ e ∈ parsed, e.1 = p ∧ e.2 ∈ valid := by
  refine (ends_foldlM (I := fun rest _ t => (∀ e ∈ rest, e ∈ parsed) ∧ t.calls = s.calls ∧
    ∀ p ∈ t.inputs, p ∈ s.inputs ∨ ∃ e ∈ parsed, e.1 = p ∧ e.2 ∈ valid) ?_
    ⟨fun e he => he, rfl, fun p hp => .inl hp⟩).imp fun _ t h => h.2
  rintro e rest missing t ⟨hrest, hcalls, hinputs⟩
  have hrest' : ∀ x ∈ rest, x ∈ parsed := fun x hx => hrest x (mem_cons_of_mem e hx)
  unfold checkOne
  split_ifs with hvalid hclaim
  · refine ends_modify_bind (ends_pure ⟨hrest', hcalls, fun p hp => ?_⟩)
    rcases Finset.mem_insert.mp hp with rfl | hp
    · exact .inr ⟨e, hrest e mem_cons_self, rfl, hvalid⟩
    · exact hinputs p hp
  · exact ends_pure ⟨hrest', hcalls, hinputs⟩
  · exact ends_pure ⟨hrest', hcalls, hinputs⟩

theorem returns_checkInputs (db : Option StoreDb) (offered : List String) : Returns (checkInputs host db offered) s fun _ t =>
    ∃ before valid parsed, t.calls = before ++ [.queryValidPaths] ∧ parsed.map Prod.fst = offered ∧
      (∀ e ∈ parsed, host.parse e.1 = .ok e.2) ∧ Asked host (db.map (planPins · offered)) parsed before valid ∧
      ∀ p ∈ t.inputs, p ∈ s.inputs ∨ ∃ e ∈ parsed, e.1 = p ∧ e.2 ∈ valid := by
  unfold checkInputs
  refine Ends.bind returns_liftCtx ?_
  rintro _ t ⟨-, rfl⟩
  refine ends_modify_bind (Ends.bind (returns_parse offered) ?_)
  rintro parsed t' ⟨rfl, hnames, hparsed⟩
  refine Ends.bind (returns_queryRooted hparsed) ?_
  rintro valid u ⟨hinputs, before, hcalls, hasked⟩
  refine returns_checkOnes.imp ?_
  rintro missing v ⟨hcalls', hinputs'⟩
  refine ⟨before, valid, parsed, hcalls'.trans hcalls, hnames, hparsed, hasked, fun p hp => ?_⟩
  have := hinputs' p hp
  rwa [hinputs] at this

/-! ### The result -/

def Protects (host : Host P) (refs : P → List P) (before : List (Call P)) : Prop :=
  ∀ n ≥ before.length, ∀ root, Rooted before root → root ∈ host.valid n →
    ∀ x, ReflTransGen (fun x y => y ∈ refs x) root x → x ∈ host.valid (n + 1)

omit [DecidableEq P] in
theorem HeldBy.valid {refs : P → List P} {before : List (Call P)} {sp : P}
    (h : HeldBy refs before (host.valid before.length) sp) (hvalid : sp ∈ host.valid before.length)
    (hprotects : Protects host refs before) : ∀ n ≥ before.length, sp ∈ host.valid n := by
  obtain ⟨root, hroot, hrootvalid, hreach⟩ := h
  have hreach : ReflTransGen (fun x y => y ∈ refs x) root sp := hreach.lift id fun a b hab => hab.1
  have hkept : ∀ n ≥ before.length, root ∈ host.valid n := by
    intro n hn
    induction n, hn using Nat.le_induction with
    | base => exact hrootvalid
    | succ n hn ih => exact hprotects n hn root hroot ih root .refl
  intro n hn
  rcases Nat.eq_or_lt_of_le hn with rfl | hlt
  · exact hvalid
  · obtain ⟨m, rfl⟩ := Nat.exists_eq_add_of_lt hlt
    exact hprotects _ (by omega) root hroot (hkept _ (by omega)) sp hreach

/-- Of the offered paths that the snapshot calls valid each is reached from a valid pin, and those it
does not know are pins. So, whether or not the database could be read, each input was valid when the
daemon was last asked, in the closure of a path that had its root by then, and as long as roots
protect closures it stays valid. -/
theorem inputs_held_by_roots (host : Host P) (refs : P → List P) (db : StoreDb) (hacyclic : db.Acyclic)
    (hrecords : Records host refs db) (offered : List String) :
    (∀ p ∈ offered, (db.idOf p).isSome → ∃ pin ∈ (planPins db offered).pins, (db.idOf pin).isSome ∧
      ReflTransGen (db.RefersWithin offered) pin p) ∧
    (∀ p ∈ offered, db.idOf p = none → p ∈ (planPins db offered).pins) ∧
    ∀ read : Option StoreDb, (∀ d ∈ read, d = db) → ∀ s missing t,
      exec (checkInputs host read offered) s = (.ok missing, t) →
      ∃ before, t.calls = before ++ [.queryValidPaths] ∧ ∀ p ∈ t.inputs, p ∈ s.inputs ∨ ∃ sp, host.parse p = .ok sp ∧
        sp ∈ host.valid before.length ∧ HeldBy refs before (host.valid before.length) sp ∧
        (Protects host refs before → ∀ n ≥ before.length, sp ∈ host.valid n) := by
  refine ⟨fun p hp hvalid => covered hacyclic hp hvalid, fun p hp hnone => unknown_mem_pins hp hnone, ?_⟩
  intro read hread s missing t hrun
  obtain ⟨before, valid, parsed, hcalls, hnames, hparsed, hasked, hinputs⟩ := (returns_checkInputs read offered).ok hrun
  refine ⟨before, hcalls, fun p hp => ?_⟩
  rcases hinputs p hp with hold | ⟨e, he, rfl, hvalid⟩
  · exact .inl hold
  · have hheld := hasked.held (fun d hd => hread d hd ▸ hacyclic) (fun d hd => hread d hd ▸ hrecords) hnames hparsed he hvalid
    exact .inr ⟨e.2, hparsed e he, hasked.answer hvalid, hheld, hheld.valid (hasked.answer hvalid)⟩

end Check

/-! A path and the one it refers to, both valid. -/

def pairDb : StoreDb where
  validPaths := [(1, "a"), (2, "b")]
  refs := [(1, 2)]
  ids_nodup := by decide
  paths_nodup := by decide

def pairHost : Host Bool where
  connect := .ok ()
  parse p := if p = "a" then .ok true else if p = "b" then .ok false else .error ["not a store path"]
  fails _ := none
  valid _ := {true, false}
  claim _ := true

theorem pairDb_refers {p q : String} : pairDb.Refers p q ↔ p = "a" ∧ q = "b" := by
  simp only [StoreDb.Refers, idOf_eq_some, pairDb, mem_cons, Prod.mk.injEq, not_mem_nil, or_false]
  constructor
  · rintro ⟨i, j, hp, hq, rfl, rfl⟩
    simpa using And.intro hp hq
  · rintro ⟨rfl, rfl⟩
    exact ⟨1, 2, by simp⟩

theorem pairDb_acyclic : pairDb.Acyclic := by
  intro p q h h'
  rcases h.cases_head with rfl | ⟨_, hp, -⟩
  · rfl
  · rcases h'.cases_head with rfl | ⟨_, hq, -⟩
    · rfl
    · rw [(pairDb_refers.mp hp).1, (pairDb_refers.mp hq).1]

theorem inputs_held_by_roots_pair : ∃ t, exec (checkInputs pairHost (some pairDb) ["a", "b"]) ⟨[], ∅⟩ = (.ok [], t) ∧
    "b" ∈ t.inputs ∧ HeldBy (fun p => if p then [false] else []) [.addTempRoot true] {true, false} false := by
  have hrecords : Records pairHost (fun p => if p then [false] else []) pairDb := by
    intro p q sp sq href hp hq
    obtain ⟨rfl, rfl⟩ := pairDb_refers.mp href
    cases hp
    cases hq
    decide
  obtain ⟨-, -, hall⟩ := inputs_held_by_roots pairHost _ pairDb pairDb_acyclic hrecords ["a", "b"]
  have hrun : exec (checkInputs pairHost (some pairDb) ["a", "b"]) ⟨[], ∅⟩ =
      (.ok [], ⟨[.addTempRoot true, .queryValidPaths], {"b", "a"}⟩) := by rfl
  obtain ⟨before, hcalls, hinputs⟩ := hall (some pairDb) (by simp) _ _ _ hrun
  have hsplit : [Call.addTempRoot true] ++ [.queryValidPaths] = before ++ [.queryValidPaths] := hcalls
  obtain ⟨rfl, -⟩ := append_inj' hsplit rfl
  obtain ⟨sp, hsp, -, hheld, -⟩ := (hinputs "b" (by decide)).resolve_left (by decide)
  cases hsp
  exact ⟨_, hrun, by decide, hheld⟩

end Tribuchet.Staging.Pins
