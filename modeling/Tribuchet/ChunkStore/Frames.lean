import Tribuchet.ChunkStore.Eviction
import Tribuchet.ChunkStore.Runs

/-! Runs of a store from an empty directory in which no file operation fails: a
`FrameRef` always reads the frame that was admitted, an entry leaves the map only when
it is forgotten or evicted cold and unpinned, and the pin counts are the live guards'. -/

namespace Tribuchet.ChunkStore

open ByteStrings Filesystem Hoare Runs Option Table Store
open List hiding all_eq_true

/-- No file operation fails, and the store is opened on an empty directory. -/
def Faultless (t : State) (a : Action) : Prop :=
  (∀ o ∈ a.outcomes, o = .ok) ∧ ∀ budget outcomes, a = .start budget outcomes → t.dir.names.keys = []

/-! ### Pin counts -/

def pinCount (guards : List (List Hash)) (hash : Hash) : ℕ := (guards.map (count hash)).sum

def PinsExact (pins : AList fun _ : Hash => ℕ) (count : Hash → ℕ) : Prop :=
  ∀ hash, pins.lookup hash = if count hash = 0 then none else some (count hash)

variable {pins : AList fun _ : Hash => ℕ}

theorem PinsExact.congr {c c' : Hash → ℕ} (h : PinsExact pins c)
    (he : ∀ hash, c' hash = c hash) : PinsExact pins c' := by
  obtain rfl : c' = c := funext he
  exact h

variable {count : Hash → ℕ}

theorem pinsExact_pinOne (h : PinsExact pins count)
    (x : Hash) : PinsExact (pinOne pins x) fun hash => [x].count hash + count hash := by
  intro hash
  have hh := h hash
  rw [pinOne, lookup_insert_eq]
  by_cases hx : hash = x
  · subst hx
    rw [hh]
    by_cases hc : count hash = 0 <;> simp [hc]
    omega
  · have hx' : ¬ x = hash := fun he => hx he.symm
    simpa [hx, hx', count_singleton] using hh

theorem pinsExact_unpinOne {x : Hash}
    (h : PinsExact pins fun hash => [x].count hash + count hash) : PinsExact (unpinOne pins x) count := by
  intro hash
  have hh := h hash
  have hl : pins.lookup x = some (1 + count x) := by simpa using h x
  simp only [unpinOne, hl, Nat.add_sub_cancel_left]
  by_cases hx : hash = x
  · subst hx
    by_cases hc : count hash = 0 <;> simp [hc]
  · have hx' : ¬ x = hash := fun he => hx he.symm
    have hne : pins.lookup hash = if count hash = 0 then none else some (count hash) := by
      simpa [hx', count_singleton] using hh
    by_cases hc : count x = 0
    · rw [if_pos hc, lookup_erase_eq, if_neg hx, hne]
    · rw [if_neg hc, lookup_insert_eq, if_neg hx, hne]

variable {s : Store}

theorem pinsExact_pin (h : PinsExact s.pins count) (hashes : List Hash) :
    PinsExact (s.pin hashes).pins fun hash => hashes.count hash + count hash := by
  suffices hs : ∀ (hashes : List Hash) pins count, PinsExact pins count →
      PinsExact (hashes.foldl pinOne pins) fun hash => hashes.count hash + count hash from
    hs hashes s.pins count h
  intro hashes
  induction hashes with
  | nil =>
    intro pins count h
    simpa using h
  | cons x xs ih =>
    intro pins count h
    refine (ih _ _ (pinsExact_pinOne h x)).congr fun hash => ?_
    simp only [count_cons, count_nil]
    omega

theorem pinsExact_unpin {hashes : List Hash}
    (h : PinsExact s.pins fun hash => hashes.count hash + count hash) : PinsExact (s.unpin hashes).pins count := by
  suffices hs : ∀ (hashes : List Hash) pins, PinsExact pins (fun hash => hashes.count hash + count hash) →
      PinsExact (hashes.foldl unpinOne pins) count from hs hashes s.pins h
  intro hashes
  induction hashes with
  | nil =>
    intro pins h
    simpa using h
  | cons x xs ih =>
    intro pins h
    refine ih _ (pinsExact_unpinOne (h.congr fun hash => ?_))
    simp only [count_cons, count_nil]
    omega

theorem pinCount_eraseIdx {guards : List (List Hash)} {i : ℕ} {hashes : List Hash}
    (h : guards[i]? = some hashes) (hash : Hash) :
    pinCount guards hash = hashes.count hash + pinCount (guards.eraseIdx i) hash := by
  obtain ⟨hi, rfl⟩ := List.getElem?_eq_some_iff.mp h
  have hp := (List.getElem_cons_eraseIdx_perm hi).symm
  unfold pinCount
  rw [(hp.map _).sum_nat, map_cons, sum_cons]

/-! ### Runs -/

/-- A `FrameRef` reads the bytes it was handed out for. -/
def ReadsBack (dir : Directory FileName) (r : FrameRef × Option Bytes) : Prop :=
  ∃ bytes, r.2 = some bytes ∧ PackFile dir r.1.file ∧
    readExact (dir.data r.1.file) r.1.offset r.1.len = some bytes

theorem ReadsBack.grows {dir dir' : Directory FileName} {r : FrameRef × Option Bytes} (h : ReadsBack dir r)
    (hg : Grows dir dir') : ReadsBack dir' r := by
  obtain ⟨bytes, hb, hp, hr⟩ := h
  obtain ⟨hp', more, hm⟩ := hg _ hp
  exact ⟨bytes, hb, hp', hm ▸ readExact_append hr more⟩

structure Sound (t : State) : Prop where
  good : ∀ p, t.process = some p → Good (fun _ => False) noQueue t.admitted.lookup p.store t.dir
  issued : ∀ r ∈ t.issued, ReadsBack t.dir r
  pins : ∀ p, t.process = some p → PinsExact p.store.pins (pinCount t.guards)

theorem sound_empty : Sound State.empty :=
  ⟨by simp [State.empty], by simp [State.empty], by simp [State.empty]⟩

variable {d : Directory FileName}

theorem good_initial (budget : ℕ) (hd : ∀ n, d.file n = none)
    (A : Hash → Option Bytes) : Good (fun _ => False) noQueue A (initial budget) d := by
  have hw : ∀ q, (initial budget).writer q = none := fun q => by cases q <;> rfl
  have hc : ∀ n, d.content n = none := fun n => Directory.content_eq_none.mpr (hd n)
  refine ⟨⟨fun id => packOk_of_unindexed (hc _) (by simp [hc]), by simp [hw], by simp [hw],
    by simp [initial], fun id _ => ⟨hd _, hd _⟩, ?_, ?_⟩, ⟨by simp [initial], by simp [hw],
    by simp [initial], by simp [initial], by simp, by simp [initial]⟩, by simp [Resident, initial]⟩
  · exact lt_of_lt_of_le (by norm_num) (le_max_left _ _)
  · exact max_le (Nat.mul_le_mul_right _ (by omega)) (min_le_right _ _)

variable {A : Hash → Option Bytes} {hash : Hash}

theorem Good.setFreq {K : ℕ → Prop} {full : Queue → Prop} {e : Entry} (h : Good K full A s d)
    (hl : s.map.lookup hash = some e) (freq : ℕ) :
    Good K full A { s with map := s.map.insert hash { e with freq := freq } } d := by
  refine ⟨h.safe.congr rfl, ⟨h.tidy.packed, h.tidy.active, h.tidy.queued, h.tidy.nodup, h.tidy.outside,
    h.tidy.readers⟩, fun h' e' he => ?_⟩
  rw [lookup_insert_eq] at he
  split_ifs at he with heq
  · cases he
    exact heq ▸ h.resident hash e hl
  · exact h.resident h' e' he

section Operations

variable {A : Hash → Option Bytes} {s : Store} {d : Directory FileName}

/-- The store after an operation of the caller: good, with no bytes of a pack file or
pin changed and the same hashes in the map or more. -/
structure Served (A : Hash → Option Bytes) (s : Store) (d : Directory FileName) (s' : Store)
    (d' : Directory FileName) : Prop where
  good : Good (fun _ => False) noQueue A s' d'
  grows : Grows d d'
  pins : s'.pins = s.pins
  present : ∀ hash, s.map.lookup hash ≠ none → s'.map.lookup hash ≠ none

theorem served_insert {bytes : Bytes} (h : Good (fun _ => False) noQueue A s d)
    (hA : s.contains hash = false → A hash = some bytes) : EndsFrom quiet (insertFrame hash bytes) s d
      (fun _ s' d' => Served A s d s' d' ∧ s'.map.lookup hash ≠ none)
      (fun e s' d' => 2 ^ 32 ≤ bytes.length ∧ e = .io .invalidInput ∧ Served A s d s' d') := by
  unfold insertFrame
  refine endsFrom_getStore ?_
  split_ifs with hc
  · exact endsFrom_pure ⟨⟨h, .refl d, rfl, fun _ hn => hn⟩, by simpa [Store.contains, isSome_iff_ne_none] using hc⟩
  · have hg : Good (fun _ => False) noQueue A { s with ghostSet := s.ghostSet.erase (ghostKey hash) } d :=
      h.congr rfl rfl rfl rfl
    refine endsFrom_modifyStore (EndsFrom.bind ((good_append _ 0 hg (hA (by simpa using hc))).mono
      (Q := fun _ s' d' => Served A s d s' d' ∧ s'.map.lookup hash ≠ none) ?_ ?_) fun _ _ _ hs => endsFrom_pure hs)
    · rintro _ s' d' ⟨hg, hk, e, hm, -, -⟩
      refine ⟨⟨hg, hk.grows, hk.pins, fun h' hn => ?_⟩, by simp [hm]⟩
      rw [hm, lookup_insert_eq]
      split_ifs
      · simp
      · exact hn
    · rintro _ s' d' ⟨hlen, rfl, hg, hk, hm⟩
      exact ⟨hlen, rfl, hg, hk.grows, hk.pins, fun h' hn => by rw [hm]; exact hn⟩

/-- A reference was handed out if the hash was present, and reads its frame. -/
def HandsOut (A : Hash → Option Bytes) (s : Store) (hash : Hash) (r : Option FrameRef)
    (d : Directory FileName) : Prop :=
  (s.map.lookup hash ≠ none → r ≠ none) ∧ ∀ ref, r = some ref → ReadsBack d (ref, A hash)

theorem served_peek (h : Good (fun _ => False) noQueue A s d) : EndsFrom quiet (peek hash) s d
    (fun r s' d' => Served A s d s' d' ∧ HandsOut A s hash r d') (fun _ _ _ => False) := by
  refine (good_peek h).mono ?_ fun _ _ _ hf => hf
  rintro r s' _ ⟨rfl, hg, ⟨hm, hp, -⟩, hsome, hread⟩
  refine ⟨⟨hg, .refl _, hp, fun h' hn => by rw [hm]; exact hn⟩, fun hn => ?_, fun ref hr => ?_⟩
  · obtain ⟨e, he⟩ := ne_none_iff_exists'.mp hn
    exact hsome e he
  · obtain ⟨hpack, bytes, hA, hb⟩ := hread ref hr
    exact ⟨bytes, hA, hpack, hb⟩

theorem served_locate (h : Good (fun _ => False) noQueue A s d) : EndsFrom quiet (locate hash) s d
      (fun r s' d' => Served A s d s' d' ∧ HandsOut A s hash r d') (fun _ _ _ => False) := by
  unfold locate
  refine endsFrom_getStore ?_
  split
  · rename_i hl
    exact endsFrom_pure ⟨⟨h, .refl d, rfl, fun _ hn => hn⟩, by simp [hl], by simp⟩
  · rename_i e hl
    refine endsFrom_modifyStore ((served_peek (h.setFreq hl _)).mono ?_ fun _ _ _ hf => hf)
    rintro r s' d' ⟨hs, ho⟩
    have hpresent : ∀ h', s.map.lookup h' ≠ none →
        (s.map.insert hash { e with freq := min (e.freq + 1) freqMax }).lookup h' ≠ none := by
      intro h' hn
      rw [lookup_insert_eq]
      split_ifs
      · simp
      · exact hn
    exact ⟨⟨hs.good, hs.grows, hs.pins, fun h' hn => hs.present h' (hpresent h' hn)⟩,
      fun hn => ho.1 (hpresent hash hn), ho.2⟩

end Operations

variable {outcomes : List Outcome}

theorem EndsFrom.cases {α : Type} {x : StoreM α}
    {Q : α → Store → Directory FileName → Prop} {E : Error → Store → Directory FileName → Prop}
    (h : EndsFrom quiet x s d Q E) (ho : ∀ o ∈ outcomes, o = .ok) :
    (∃ a w, exec x ⟨s, ⟨d, outcomes⟩⟩ = (.ok a, w) ∧ Q a w.store w.disk.dir) ∨
      ∃ e w, exec x ⟨s, ⟨d, outcomes⟩⟩ = (.error e, w) ∧ E e w.store w.disk.dir := by
  have h := h outcomes ho
  unfold Ends at h
  cases hx : exec x ⟨s, ⟨d, outcomes⟩⟩ with
  | mk r w =>
    rw [hx] at h
    cases r with
    | ok a => exact .inl ⟨a, w, rfl, h.1⟩
    | error e => exact .inr ⟨e, w, rfl, h.1⟩

def MayLeave (t : State) (a : Action) (hash : Hash) (e : Entry) : Prop :=
  a = .forget hash ∨ ∃ outcomes, a = .evict outcomes ∧ e.freq = 0 ∧ ∀ g ∈ t.guards, hash ∉ g

/-- The process goes on, and a hash leaves its map only as it may. -/
def Resumes (t : State) (a : Action) (t' : State) : Prop :=
  ∀ p, t.process = some p → ∃ p', t'.process = some p' ∧
    ∀ hash e, p.store.map.lookup hash = some e → p'.store.map.lookup hash = none → MayLeave t a hash e

variable {t : State}

theorem Served.sound {p : Process} {evicting : Option ℕ} {s' : Store} {d' : Directory FileName}
    (hs : Served t.admitted.lookup p.store t.dir s' d') (hi : ∀ r ∈ t.issued, ReadsBack t.dir r)
    (hp : PinsExact p.store.pins (pinCount t.guards)) :
    Sound { t with dir := d', process := some ⟨s', evicting⟩ } where
  good := by
    rintro _ ⟨⟩
    exact hs.good
  issued r hr := (hi r hr).grows hs.grows
  pins := by
    rintro _ ⟨⟩
    change PinsExact s'.pins (pinCount t.guards)
    rw [hs.pins]
    exact hp

variable {st : Store}

theorem idle_eq (h : t.idle = some st) : t.process = some ⟨st, none⟩ := by
  unfold State.idle at h
  split at h
  · rename_i hp
    cases h
    exact hp
  · cases h

theorem not_mem_of_pinCount {guards : List (List Hash)} (h : pinCount guards hash = 0) : ∀ g ∈ guards, hash ∉ g := by
  intro g hg hm
  have hz : ∀ n ∈ guards.map (List.count hash), n = 0 := List.sum_eq_zero_iff_forall_eq_nat.mp h
  have := hz _ (mem_map_of_mem hg)
  exact absurd (count_pos_iff.mpr hm) (by omega)

theorem after_ok {α : Type} {x : StoreM α} {a : α} {w : World}
    (h : exec x ⟨st, ⟨t.dir, outcomes⟩⟩ = (.ok a, w)) (k : α → Store → State → State) :
    t.after (exec x (t.world st outcomes)) k =
      k a w.store { t with dir := w.disk.dir, process := some ⟨w.store, none⟩ } := by
  simp [State.after, State.world, h]

theorem after_io {α : Type} {x : StoreM α}
    {kind : ErrorKind} {w : World} (h : exec x ⟨st, ⟨t.dir, outcomes⟩⟩ = (.error (.io kind), w))
    (k : α → Store → State → State) : t.after (exec x (t.world st outcomes)) k =
      { t with dir := w.disk.dir, process := some ⟨w.store, none⟩ } := by
  simp [State.after, State.world, h]

variable {t' : State}

variable (intact : Bytes → Hash → Bool)

theorem sound_start {budget : ℕ}
    (hd : t.dir.names.keys = []) (hs : step intact t (.start budget outcomes) = some t') : Sound t' := by
  have hfile : ∀ n, t.dir.file n = none := by
    intro n
    by_contra hn
    have hm : n ∈ t.dir.names.keys := by
      rw [AList.mem_keys.symm, ← AList.lookup_isSome, ← ne_none_iff_isSome]
      exact hn
    rw [hd] at hm
    cases hm
  have hload : exec (load intact) (t.world (initial budget) outcomes) =
      (.ok (), t.world (initial budget) outcomes) := by
    have hids : packIds t.dir = [] := by simp [packIds, hd]
    unfold load
    change exec ((packIds t.dir).foldlM (loadPack intact) ()) _ = _
    rw [hids]
    rfl
  simp only [step] at hs
  split at hs
  · cases hs
  · rw [hload] at hs
    cases hs
    refine ⟨?_, by simp, ?_⟩
    · rintro _ ⟨⟩
      exact good_initial budget hfile _
    · rintro _ ⟨⟩ hash
      rfl

theorem sound_issue (hash : Hash) (outcomes : List Outcome)
    {x : StoreM (Option FrameRef)} (h : Sound t) (hi : t.idle = some st) (ho : ∀ o ∈ outcomes, o = .ok)
    (hx : EndsFrom quiet x st t.dir
      (fun r s' d' => Served t.admitted.lookup st t.dir s' d' ∧ HandsOut t.admitted.lookup st hash r d')
      (fun _ _ _ => False)) :
    ∃ r s' d', t.after (exec x (t.world st outcomes)) (fun r _ s => s.issue hash r) =
        { t with dir := d', process := some ⟨s', none⟩ }.issue hash r ∧
      Served t.admitted.lookup st t.dir s' d' ∧ HandsOut t.admitted.lookup st hash r d' ∧
      Sound ({ t with dir := d', process := some ⟨s', none⟩ }.issue hash r) := by
  rcases hx.cases ho with ⟨r, w, hr, hserved, hout⟩ | ⟨_, _, -, hf⟩
  · have hsound : Sound { t with dir := w.disk.dir, process := some ⟨w.store, none⟩ } :=
      Served.sound (p := ⟨st, none⟩) hserved h.issued (h.pins _ (idle_eq hi))
    refine ⟨r, w.store, w.disk.dir, after_ok hr _, hserved, hout, hsound.good, fun ref href => ?_, hsound.pins⟩
    rcases mem_append.mp href with href | href
    · obtain ⟨ref', hr', rfl⟩ := map_eq_some_iff.mp (mem_toList.mp href)
      exact hout.2 ref' hr'
    · exact hsound.issued ref href
  · exact hf.elim

theorem Served.resumes {d' : Directory FileName} {a : Action} {q : Process} (hs : Served A st d q.store d') (hi : t.idle = some st)
    (hp : t'.process = some q) : Resumes t a t' := by
  intro p hp₀
  rw [idle_eq hi, some.injEq] at hp₀
  subst hp₀
  refine ⟨q, hp, fun hash e he hn => absurd hn (hs.present hash ?_)⟩
  simp [he]

theorem Good.setAdmitted {K : ℕ → Prop} {full : Queue → Prop} {A' : Hash → Option Bytes} (h : Good K full A s d)
    (hA : ∀ hash e, s.map.lookup hash = some e → A' hash = A hash) : Good K full A' s d := by
  refine ⟨h.safe, h.tidy, fun hash e he => ?_⟩
  obtain ⟨before, frame, after, hr, ho, hl, hf⟩ := h.resident hash e he
  exact ⟨before, frame, after, hr, ho, hl, (hA hash e he).trans hf⟩

theorem sound_insert {bytes : Bytes} (h : Sound t) (ho : ∀ o ∈ outcomes, o = .ok)
    (hs : step intact t (.insert hash bytes outcomes) = some t') :
    Sound t' ∧ Resumes t (.insert hash bytes outcomes) t' := by
  obtain ⟨st, hi, rfl⟩ := map_eq_some_iff.mp hs
  set t₁ := if st.contains hash then t else { t with admitted := t.admitted.insert hash bytes } with ht₁
  have hgood : Good (fun _ => False) noQueue t₁.admitted.lookup st t₁.dir ∧
      (st.contains hash = false → t₁.admitted.lookup hash = some bytes) := by
    have hg := h.good _ (idle_eq hi)
    by_cases hc : st.contains hash = true
    · rw [ht₁, if_pos hc]
      exact ⟨hg, by simp [hc]⟩
    · rw [ht₁, if_neg hc]
      refine ⟨hg.setAdmitted fun h' e he => ?_, fun _ => AList.lookup_insert _⟩
      refine AList.lookup_insert_ne ?_
      rintro rfl
      simp [Store.contains, he] at hc
  have hsame : t₁.dir = t.dir ∧ t₁.guards = t.guards ∧ t₁.issued = t.issued := by
    rw [ht₁]
    split_ifs
    · exact ⟨rfl, rfl, rfl⟩
    · exact ⟨rfl, rfl, rfl⟩
  obtain ⟨hdir, hguards, hissued⟩ := hsame
  have hpins : PinsExact st.pins (pinCount t₁.guards) := hguards ▸ h.pins _ (idle_eq hi)
  have hiss : ∀ r ∈ t₁.issued, ReadsBack t₁.dir r := by
    rw [hissued, hdir]
    exact h.issued
  rcases (served_insert hgood.1 hgood.2).cases ho with ⟨fresh, w, hx, hserved, -⟩ | ⟨_, w, hx, -, rfl, hserved⟩
  · rw [after_ok hx]
    exact ⟨Served.sound (t := t₁) (p := ⟨st, none⟩) hserved hiss hpins, hserved.resumes hi rfl⟩
  · rw [after_io hx]
    exact ⟨Served.sound (t := t₁) (p := ⟨st, none⟩) hserved hiss hpins, hserved.resumes hi rfl⟩

theorem sound_evict (h : Sound t) (ho : ∀ o ∈ outcomes, o = .ok) (hs : step intact t (.evict outcomes) = some t') :
    Sound t' ∧ Resumes t (.evict outcomes) t' := by
  simp only [step] at hs
  split at hs
  next st round hp =>
    have hpins := h.pins _ hp
    rcases (good_evictTurn round (h.good _ hp)).cases ho with ⟨next, w, hx, hgood, hev⟩ | ⟨_, _, -, hf⟩
    · have hdone : ∀ s' evicting, s'.core = w.store.core → s'.packs = w.store.packs →
          s'.readers = w.store.readers → s'.map = w.store.map → s'.pins = w.store.pins →
          Sound { t with dir := w.disk.dir, process := some ⟨s', evicting⟩ } ∧
            Resumes t (.evict outcomes) { t with dir := w.disk.dir, process := some ⟨s', evicting⟩ } := by
        intro s' evicting hc hpk hrd hm hpn
        refine ⟨⟨?_, fun r hr => (h.issued r hr).grows hev.grows, ?_⟩, fun p hp₀ => ⟨_, rfl, fun hash e he hn => ?_⟩⟩
        · rintro _ ⟨⟩
          exact hgood.congr hc hpk hrd hm
        · rintro _ ⟨⟩
          change PinsExact s'.pins _
          rw [hpn, hev.pins]
          exact hpins
        · rw [hp, some.injEq] at hp₀
          subst hp₀
          obtain ⟨hfreq, hpin⟩ := hev.dropped hash e he (hm ▸ hn)
          refine .inr ⟨outcomes, rfl, hfreq, not_mem_of_pinCount ?_⟩
          have := hpins hash
          rw [hpin] at this
          by_contra hne
          rw [if_neg hne] at this
          cases this
      rw [after_ok hx] at hs
      cases next with
      | none =>
        cases hs
        exact hdone _ none rfl rfl rfl rfl rfl
      | some n =>
        cases hs
        exact hdone _ (some n) rfl rfl rfl rfl rfl
    · exact hf.elim
  next => cases hs

theorem sound_step {a : Action} (h : Sound t) (hf : Faultless t a)
    (hs : step intact t a = some t') : Sound t' ∧ (a ≠ .quit → Resumes t a t') := by
  obtain ⟨ho, hempty⟩ := hf
  have hquiet : ∀ outcomes, a.outcomes = outcomes → ∀ o ∈ outcomes, o = .ok := fun _ he => he ▸ ho
  -- an operation that leaves every entry in the map
  have hkeep : ∀ {p p' : Process}, t.process = some p → t'.process = some p' →
      (∀ hash e, p.store.map.lookup hash = some e → p'.store.map.lookup hash = none → MayLeave t a hash e) →
      Resumes t a t' := by
    intro p p' hp hp' hl p₀ hp₀
    rw [hp, some.injEq] at hp₀
    exact ⟨p', hp', hp₀ ▸ hl⟩
  cases a with
  | start budget outcomes =>
    refine ⟨sound_start intact (hempty _ _ rfl) hs, fun _ p hp => ?_⟩
    simp [step, hp] at hs
  | insert hash bytes outcomes => exact (sound_insert intact h ho hs).imp_right fun hr _ => hr
  | evict outcomes => exact (sound_evict intact h ho hs).imp_right fun hr _ => hr
  | locate hash outcomes =>
    obtain ⟨st, hi, rfl⟩ := map_eq_some_iff.mp hs
    obtain ⟨r, s', d', he, hsv, -, hsound⟩ := sound_issue hash outcomes h hi (hquiet outcomes rfl)
      (served_locate (h.good _ (idle_eq hi)))
    rw [he]
    exact ⟨hsound, fun _ => hsv.resumes (q := ⟨s', none⟩) hi rfl⟩
  | peek hash outcomes =>
    obtain ⟨st, hi, rfl⟩ := map_eq_some_iff.mp hs
    obtain ⟨r, s', d', he, hsv, -, hsound⟩ := sound_issue hash outcomes h hi (hquiet outcomes rfl)
      (served_peek (h.good _ (idle_eq hi)))
    rw [he]
    exact ⟨hsound, fun _ => hsv.resumes (q := ⟨s', none⟩) hi rfl⟩
  | forget hash =>
    obtain ⟨st, hi, rfl⟩ := map_eq_some_iff.mp hs
    have hgood := h.good _ (idle_eq hi)
    have hpins := h.pins _ (idle_eq hi)
    refine ⟨⟨?_, h.issued, ?_⟩, fun _ => hkeep (idle_eq hi) rfl fun h' e he hn => .inl ?_⟩
    · rintro _ ⟨⟩
      exact hgood.eraseMap hash
    · rintro _ ⟨⟩
      exact hpins
    · by_contra hne
      have hn' : h' ≠ hash := fun heq => hne (by rw [heq])
      simp only [forget, lookup_erase_eq, if_neg hn'] at hn
      rw [he] at hn
      cases hn
  | pin hashes =>
    obtain ⟨st, hi, rfl⟩ := map_eq_some_iff.mp hs
    refine ⟨⟨?_, h.issued, ?_⟩, fun _ => hkeep (idle_eq hi) rfl fun h' e he hn => ?_⟩
    · rintro _ ⟨⟩
      exact (h.good _ (idle_eq hi)).congr rfl rfl rfl rfl
    · rintro _ ⟨⟩
      exact pinsExact_pin (h.pins _ (idle_eq hi)) hashes
    · exact absurd (he.symm.trans hn) (by simp)
  | dropGuard i =>
    simp only [step] at hs
    split at hs
    next p hashes hp hg =>
      cases hs
      refine ⟨⟨?_, h.issued, ?_⟩, fun _ => hkeep hp rfl fun h' e he hn => ?_⟩
      · rintro _ ⟨⟩
        exact (h.good _ hp).congr rfl rfl rfl rfl
      · rintro _ ⟨⟩
        exact pinsExact_unpin ((h.pins _ hp).congr fun hash => (pinCount_eraseIdx hg hash).symm)
      · exact absurd (he.symm.trans hn) (by simp)
    next => cases hs
  | quit =>
    cases hs
    exact ⟨⟨by simp, h.issued, by simp⟩, fun hq => absurd rfl hq⟩

theorem sound_of_reachable (h : (system intact).ReachableIf Faultless t) : Sound t :=
  h.invariant (fun _ hi => hi ▸ sound_empty) fun _ _ _ ht hf hs => (sound_step intact ht hf hs).1

theorem ReadsBack.read {dir : Directory FileName} {r : FrameRef × Option Bytes} (h : ReadsBack dir r) :
    ∃ bytes, r.2 = some bytes ∧ (exec r.1.read ⟨dir, []⟩).1 = .ok bytes := by
  obtain ⟨bytes, hb, -, hr⟩ := h
  refine ⟨bytes, hb, ?_⟩
  simp [FrameRef.read, readFrame, readExactAt, fileOp, exec, hr]

theorem lookup_issues {a : Action} (h : Sound t) (hi : t.idle = some st) (hc : st.contains hash = true)
    (ha : a = .locate hash [] ∨ a = .peek hash []) :
    ∃ t' ref, step intact t a = some t' ∧ t'.issued = (ref, t.admitted.lookup hash) :: t.issued := by
  have hm : st.map.lookup hash ≠ none := by
    simpa [Store.contains, isSome_iff_ne_none] using hc
  have hgood := h.good _ (idle_eq hi)
  rcases ha with rfl | rfl
  · obtain ⟨r, s', d', he, -, hout, -⟩ := sound_issue hash [] h hi (by simp) (served_locate hgood)
    obtain ⟨ref, rfl⟩ := ne_none_iff_exists'.mp (hout.1 hm)
    exact ⟨_, ref, by rw [step, hi, map_some, he], rfl⟩
  · obtain ⟨r, s', d', he, -, hout, -⟩ := sound_issue hash [] h hi (by simp) (served_peek hgood)
    obtain ⟨ref, rfl⟩ := ne_none_iff_exists'.mp (hout.1 hm)
    exact ⟨_, ref, by rw [step, hi, map_some, he], rfl⟩

/-- In every run from an empty directory without file failures: each reference handed
out reads, now, the frame admitted for its hash; a hash in the map is handed out; a hash
leaves the map only when it is forgotten or evicted cold with no live guard naming it;
and the pins count the live guards. -/
theorem frames_read_back (intact : Bytes → Hash → Bool) {t : State} (h : (system intact).ReachableIf Faultless t) :
    (∀ r ∈ t.issued, ∃ bytes, r.2 = some bytes ∧ (exec r.1.read ⟨t.dir, []⟩).1 = .ok bytes) ∧
    (∀ store hash a, t.idle = some store → store.contains hash = true →
      (a = .locate hash [] ∨ a = .peek hash []) →
      ∃ t' ref, step intact t a = some t' ∧ t'.issued = (ref, t.admitted.lookup hash) :: t.issued) ∧
    (∀ a t', Faultless t a → step intact t a = some t' → a ≠ .quit → Resumes t a t') ∧
    ∀ p, t.process = some p → PinsExact p.store.pins (pinCount t.guards) := by
  have hsound := sound_of_reachable intact h
  exact ⟨fun r hr => (hsound.issued r hr).read, fun _ _ _ hi hc ha => lookup_issues intact hsound hi hc ha,
    fun _ _ hf hs hq => (sound_step intact hsound hf hs).2 hq, hsound.pins⟩

/-- Two hashes and a run of them: the first is pinned when the pack of both is retired. -/
private def pinnedHash : Hash := .ofSlice (replicate 32 1)

private def coldHash : Hash := .ofSlice (replicate 32 2)

private def pinnedRun : List Action :=
  [.start 40 [], .insert pinnedHash [7, 7] [], .evict [], .peek pinnedHash [], .pin [pinnedHash],
    .insert coldHash [8] [], .evict [], .evict [], .locate pinnedHash []]

private def faultless (s : State) (a : Action) : Bool :=
  a.outcomes.all (· == .ok) && match a with
    | .start _ _ => s.dir.names.keys.isEmpty
    | _ => true

private theorem faultless_sound (s : State) (a : Action) (h : faultless s a = true) : Faultless s a := by
  simp only [faultless, Bool.and_eq_true, List.all_eq_true, beq_iff_eq] at h
  refine ⟨h.1, ?_⟩
  rintro budget outcomes rfl
  simpa using h.2

/-- Two references to the frame `[7, 7]`, in different packs. -/
def movedBetween : List (FrameRef × Option Bytes) → Bool
  | [(new, frame), (old, frame')] => old.file != new.file && frame == some [7, 7] && frame' == some [7, 7]
  | _ => false

/-- A reference taken before its chunk moved to another pack and one taken after both read
the chunk, and the chunk that was not pinned is gone. -/
theorem frames_read_back_after_eviction : ∃ t p old new, (system fun _ _ => true).ReachableIf Faultless t ∧
    t.process = some p ∧ p.store.contains coldHash = false ∧
    t.issued = [(new, some [7, 7]), (old, some [7, 7])] ∧ old.file ≠ new.file ∧
    (exec old.read ⟨t.dir, []⟩).1 = .ok [7, 7] ∧ (exec new.read ⟨t.dir, []⟩).1 = .ok [7, 7] ∧
    p.store.pins.lookup pinnedHash = some 1 := by
  obtain ⟨t, ht, hp⟩ := (system fun _ _ => true).exists_reachableIf_of_exec faultless faultless_sound State.empty
    pinnedRun (fun t => t.process.any (fun p => p.store.contains coldHash == false) &&
      (t.guards == [[pinnedHash]] && movedBetween t.issued)) rfl (by decide +kernel)
  rw [Bool.and_eq_true, Bool.and_eq_true, beq_iff_eq] at hp
  obtain ⟨hproc, hguards, hissued⟩ := hp
  obtain ⟨p, hp, hcold⟩ := (any_eq_true _ _).mp hproc
  obtain ⟨hread, -, -, hpins⟩ := frames_read_back _ ht
  unfold movedBetween at hissued
  split at hissued
  next new frame old frame' hi =>
    simp only [Bool.and_eq_true, bne_iff_ne, beq_iff_eq] at hissued
    obtain ⟨⟨hne, rfl⟩, rfl⟩ := hissued
    rw [hi] at hread
    obtain ⟨_, ⟨⟩, hnew⟩ := hread (new, some [7, 7]) (by simp)
    obtain ⟨_, ⟨⟩, hold⟩ := hread (old, some [7, 7]) (by simp)
    refine ⟨t, p, old, new, ht, hp, by simpa using hcold, hi, hne, hold, hnew, ?_⟩
    rw [hpins p hp, hguards]
    simp [pinCount]
  next => cases hissued

end Tribuchet.ChunkStore
