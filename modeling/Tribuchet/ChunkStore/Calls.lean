import Tribuchet.ChunkStore.Frames

/-! A store that several jobs share (`hub/chunkcache.rs`), as one of them sees it: the calls it
makes, what they give it, and what the calls of the others leave of the chunks it has pinned. -/

namespace Tribuchet.ChunkStore

open ByteStrings Filesystem Hoare Option List

namespace State

/-- `ChunkCache::locate`. -/
def locating (t : State) (hash : Hash) : Option (Option FrameRef × State) :=
  t.idle.map fun store =>
    let r := exec (locate hash) (t.world store [])
    (r.1.toOption.join, t.after r fun r _ t => t.issue hash r)

/-- `ChunkCache::admit` up to its eviction loop, and whether it goes on. -/
def admitting (t : State) (hash : Hash) (frame : Bytes) : Option (Bool × State) :=
  (step (fun _ _ => true) t (.insert hash frame [])).map fun t' =>
    (t.idle.any fun store => (exec (insertFrame hash frame) (t.world store [])).1.isOk, t')

/-- `FrameRef::read`. -/
def readBack (t : State) (r : FrameRef) : Option Bytes := (exec r.read ⟨t.dir, []⟩).1.toOption

def Held (t : State) (hash : Hash) : Prop := ∃ p, t.process = some p ∧ p.store.map.lookup hash ≠ none

end State

variable {t t' : State} {a : Action} {hash : Hash}

theorem after_keeps {α : Type} {K : State → Prop} {r : Except Error α × World} {k : α → Store → State → State}
    (ht : ∀ dir process, K { t with dir := dir, process := process }) (hk : ∀ a st t', K t' → K (k a st t')) :
    K (t.after r k) := by
  match r with
  | (.ok a, w) => exact hk a w.store _ (ht _ _)
  | (.error (.io kind), w) => exact ht _ _
  | (.error .panicked, w) => exact ht _ _
  | (.error .stopped, w) => exact ht _ _

/-- What a step leaves: references stay issued, guards go only when they are dropped, and the record
of the admitted frames changes only by an insert. -/
structure Keeps (t : State) (a : Action) (t' : State) : Prop where
  issued : t.issued ⊆ t'.issued
  guards : t.guards ⊆ t'.guards ∨ ∃ i, a = .dropGuard i ∧ t'.guards = t.guards.eraseIdx i
  admitted : t'.admitted = t.admitted ∨
    ∃ hash frame outcomes, a = .insert hash frame outcomes ∧ t'.admitted = t.admitted.insert hash frame

variable (intact : Bytes → Hash → Bool)

theorem step_keeps (hs : step intact t a = some t')
    (ha : ∀ budget outcomes, a ≠ .start budget outcomes) : Keeps t a t' := by
  have hsame (dir : Directory FileName) (process : Option Process) :
      Keeps t a { t with dir := dir, process := process } := ⟨Subset.refl _, .inl (Subset.refl _), .inl rfl⟩
  have hissue {hash : Hash} {r : Option FrameRef} {u : State} (hu : Keeps t a u) : Keeps t a (u.issue hash r) :=
    ⟨fun x hx => mem_append_right _ (hu.issued hx), hu.guards, hu.admitted⟩
  cases a with
  | start budget outcomes => exact absurd rfl (ha budget outcomes)
  | insert hash frame outcomes =>
    obtain ⟨st, -, rfl⟩ := map_eq_some_iff.mp hs
    refine after_keeps (K := Keeps t _) (k := fun (fresh : Bool) store (u : State) =>
      { u with process := some ⟨store, if fresh then some 0 else none⟩ }) (fun dir process => ?_) fun _ _ _ hu =>
        ⟨hu.issued, hu.guards, hu.admitted⟩
    split_ifs
    · exact hsame dir process
    · exact ⟨Subset.refl _, .inl (Subset.refl _), .inr ⟨hash, frame, outcomes, rfl, rfl⟩⟩
  | evict outcomes =>
    simp only [step] at hs
    split at hs
    · cases hs
      refine after_keeps (K := Keeps t _) hsame fun next st u hu => ?_
      cases next with
      | none | some n => exact ⟨hu.issued, hu.guards, hu.admitted⟩
    · cases hs
  | locate hash outcomes | peek hash outcomes =>
    obtain ⟨st, -, rfl⟩ := map_eq_some_iff.mp hs
    exact after_keeps (K := Keeps t _) hsame fun _ _ _ hu => hissue hu
  | forget hash =>
    obtain ⟨st, -, rfl⟩ := map_eq_some_iff.mp hs
    exact hsame _ _
  | pin hashes =>
    obtain ⟨st, -, rfl⟩ := map_eq_some_iff.mp hs
    exact ⟨Subset.refl _, .inl (subset_cons_self _ _), .inl rfl⟩
  | dropGuard i =>
    simp only [step] at hs
    split at hs
    · cases hs
      exact ⟨Subset.refl _, .inr ⟨i, rfl, rfl⟩, .inl rfl⟩
    · cases hs
  | quit =>
    cases hs
    exact hsame _ _

theorem State.Held.step (h : t.Held hash) (hc : Sound t) (hf : Faultless t a)
    (hs : ChunkStore.step intact t a = some t') (hq : a ≠ .quit) (hforget : a ≠ .forget hash) {guard : List Hash}
    (hg : guard ∈ t.guards) (hm : hash ∈ guard) : t'.Held hash := by
  obtain ⟨p, hp, hl⟩ := h
  obtain ⟨p', hp', hleave⟩ := (sound_step intact hc hf hs).2 hq p hp
  refine ⟨p', hp', fun hn => ?_⟩
  obtain ⟨e, he⟩ := ne_none_iff_exists'.mp hl
  rcases hleave hash e he hn with ha | ⟨outcomes, -, -, hno⟩
  · exact hforget ha
  · exact hno guard hg hm

theorem locate_absent {store : Store} {d : Directory FileName} (hl : store.map.lookup hash = none) :
    EndsFrom quiet (locate hash) store d (fun r _ _ => r = none) (fun _ _ _ => False) := by
  unfold locate
  refine endsFrom_getStore ?_
  simp only [hl]
  exact endsFrom_pure rfl

theorem locating_spec (hc : Sound t) {r : Option FrameRef} (hl : t.locating hash = some (r, t')) :
    step (fun _ _ => true) t (.locate hash []) = some t' ∧ (r ≠ none ↔ t.Held hash) ∧
      ∀ ref, r = some ref → ∃ frame, t.admitted.lookup hash = some frame ∧ (ref, some frame) ∈ t'.issued := by
  obtain ⟨st, hi, he⟩ := map_eq_some_iff.mp hl
  have hgood := hc.good _ (idle_eq hi)
  rcases (served_locate hgood).cases (forall_mem_nil fun o : Outcome => o = .ok) with ⟨r', w, hr, -, hout⟩ | ⟨_, _, -, hf⟩
  · have hr' : exec (locate hash) (t.world st []) = (.ok r', w) := hr
    simp only [hr', Except.toOption, join_some, Prod.mk.injEq] at he
    obtain ⟨rfl, rfl⟩ := he
    refine ⟨by simp [step, hi, hr'], ⟨fun hn => ?_, ?_⟩, fun ref href => ?_⟩
    · refine ⟨_, idle_eq hi, fun hnone => hn ?_⟩
      exact ((locate_absent hnone [] (by simp)).ok hr).1
    · rintro ⟨p, hp, hm⟩
      rw [idle_eq hi, some.injEq] at hp
      subst hp
      exact hout.1 hm
    · obtain ⟨frame, hA, -⟩ := hout.2 ref href
      have hA : t.admitted.lookup hash = some frame := hA
      subst href
      exact ⟨frame, hA, by simp [State.after, State.issue, hA]⟩
  · exact hf.elim

theorem insert_holds (hc : Sound t) {st : Store} (hi : t.idle = some st) {frame : Bytes} (hlen : frame.length < 2 ^ 32) :
    ∃ fresh w, exec (insertFrame hash frame) (t.world st []) = (.ok fresh, w) ∧ w.store.map.lookup hash ≠ none := by
  have hgood := hc.good _ (idle_eq hi)
  by_cases hp : st.contains hash = true
  · have habsent : st.contains hash = false → t.admitted.lookup hash = some frame := by simp [hp]
    rcases (served_insert hgood habsent).cases (forall_mem_nil fun o : Outcome => o = .ok) with
      ⟨fresh, w, hx, -, hm⟩ | ⟨_, _, -, hbig, -⟩
    · exact ⟨fresh, w, hx, hm⟩
    · omega
  · -- the ghost record of what was admitted is the new frame
    have hsame : ∀ h' e, st.map.lookup h' = some e →
        (t.admitted.insert hash frame).lookup h' = t.admitted.lookup h' := by
      intro h' e he
      refine AList.lookup_insert_ne ?_
      rintro rfl
      simp [Store.contains, he] at hp
    rcases (served_insert (hgood.setAdmitted hsame) fun _ => AList.lookup_insert _).cases (forall_mem_nil fun o : Outcome => o = .ok) with
      ⟨fresh, w, hx, -, hm⟩ | ⟨_, _, -, hbig, -⟩
    · exact ⟨fresh, w, hx, hm⟩
    · omega

theorem admitting_spec (hc : Sound t) {frame : Bytes} (hlen : frame.length < 2 ^ 32) {admitted : Bool}
    (hl : t.admitting hash frame = some (admitted, t')) :
    step (fun _ _ => true) t (.insert hash frame []) = some t' ∧ admitted = true ∧ t'.Held hash := by
  obtain ⟨u, hs, he⟩ := map_eq_some_iff.mp hl
  obtain ⟨st, hi, hu⟩ := map_eq_some_iff.mp hs
  simp only [Prod.mk.injEq] at he
  obtain ⟨hok, rfl⟩ := he
  obtain ⟨fresh, w, hx, hheld⟩ := insert_holds hc hi hlen
  refine ⟨hs, ?_, ⟨w.store, if fresh then some 0 else none⟩, ?_, hheld⟩
  · rw [← hok, hi]
    simp [hx, Except.isOk, Except.toBool]
  · rw [← hu]
    by_cases hp : st.contains hash = true
    · simp only [if_pos hp]
      rw [after_ok hx]
    · simp only [if_neg hp]
      rw [after_ok (t := { t with admitted := t.admitted.insert hash frame }) hx]

theorem readBack_issued (hc : Sound t) {ref : FrameRef} {frame : Bytes} (hm : (ref, some frame) ∈ t.issued) :
    t.readBack ref = some frame := by
  obtain ⟨bytes, hb, hread⟩ := (hc.issued _ hm).read
  cases hb
  simp only [State.readBack, hread]
  rfl

end Tribuchet.ChunkStore
