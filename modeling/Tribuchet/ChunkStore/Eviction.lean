import Tribuchet.ChunkStore.Resident

/-! Eviction in a store none of whose file operations fail: a retired pack's frames
are copied forward or leave the map, and only cold, unpinned entries leave it. -/

namespace Tribuchet.ChunkStore

open ByteStrings Filesystem Hoare List Option Table

variable {d d' : Directory FileName} {s s' : Store} {K : ℕ → Prop} {full : Queue → Prop}
  {A : Hash → Option Bytes}

/-- Where `retire` of `id`, started from `s₀`, stands with `rest` of the index to go:
what the map still names in the pack is to come and as it was, and what left the map
was cold and unpinned. -/
structure Retiring (A : Hash → Option Bytes) (id : ℕ) (s₀ : Store) (d₀ : Directory FileName)
    (rest : List IndexEntry) (s : Store) (d : Directory FileName) : Prop where
  good : Good (· = id) noQueue A s d
  kept : Kept s₀ d₀ s d
  coming : ∀ h e, s.map.lookup h = some e → e.pack = id → s₀.map.lookup h = some e ∧ ∃ x ∈ rest, x.hash = h
  dropped : ∀ h e, s₀.map.lookup h = some e → s.map.lookup h = none → e.freq = 0 ∧ s₀.pins.lookup h = none

theorem Good.eraseMap (h : Good K full A s d) (hash : Hash) : Good K full A { s with map := s.map.erase hash } d := by
  refine ⟨h.safe.congr rfl, ⟨h.tidy.packed, h.tidy.active, h.tidy.queued, h.tidy.nodup, h.tidy.outside,
    h.tidy.readers⟩, fun h' e he => ?_⟩
  rw [lookup_erase_eq] at he
  split_ifs at he
  exact h.resident h' e he

theorem dropEntry_fields (s : Store) (q : Queue) (hash : Hash) :
    (s.dropEntry q hash).packs = s.packs ∧ (s.dropEntry q hash).readers = s.readers ∧
      (s.dropEntry q hash).map = s.map.erase hash ∧ (s.dropEntry q hash).pins = s.pins := by
  cases q with
  | small =>
    simp only [Store.dropEntry, Store.ghostPush]
    split_ifs <;> exact ⟨rfl, rfl, rfl, rfl⟩
  | main => exact ⟨rfl, rfl, rfl, rfl⟩

variable {s₀ : Store} {d₀ : Directory FileName} {id : ℕ}
variable {rest : List IndexEntry}

theorem Retiring.still {x : IndexEntry} {hash : Hash} {e : Entry}
    (h : Retiring A id s₀ d₀ (x :: rest) s d) (he : s.map.lookup hash = some e) (hp : e.pack = id)
    (hne : hash ≠ x.hash) : s₀.map.lookup hash = some e ∧ ∃ y ∈ rest, y.hash = hash := by
  obtain ⟨h1, y, hy, rfl⟩ := h.coming hash e he hp
  rcases mem_cons.mp hy with rfl | hy
  · exact absurd rfl hne
  · exact ⟨h1, y, hy, rfl⟩

theorem Retiring.skip {x : IndexEntry} (h : Retiring A id s₀ d₀ (x :: rest) s d)
    (hx : ∀ e, s.map.lookup x.hash = some e → e.pack ≠ id) : Retiring A id s₀ d₀ rest s d := by
  refine ⟨h.good, h.kept, fun h' e he hp => h.still he hp ?_, h.dropped⟩
  rintro rfl
  exact hx e he hp

theorem retiring_retireEntry (q : Queue) (promoted : Bool) {x : IndexEntry}
    (h : Retiring A id s₀ d₀ (x :: rest) s d) : EndsFrom quiet (retireEntry id q promoted x) s d
      (fun _ => Retiring A id s₀ d₀ rest) (fun _ _ _ => False) := by
  refine retireEntry_rule h.skip (fun e hl hpack hfreq hpin => ?_) (fun e hl _ => good_frame h.good hl) ?_
  · -- cold and unpinned: it leaves the map
    obtain ⟨hp, hr, hm, hpins⟩ := dropEntry_fields s q x.hash
    obtain ⟨horig, -⟩ := h.coming x.hash e hl hpack
    refine ⟨?_, ?_, fun h' e' he' hp' => ?_, fun h' e' he' hn => ?_⟩
    · exact (h.good.eraseMap x.hash).congr (core_dropEntry s q x.hash) hp hr hm
    · exact h.kept.trans ⟨.refl d, hpins, by rw [hp]; exact fun _ hid => hid⟩
    · rw [hm, lookup_erase_eq] at he'
      split_ifs at he' with hne
      exact h.still he' hp' hne
    · rw [hm, lookup_erase_eq] at hn
      split_ifs at hn with heq
      · subst heq
        rw [horig, some.injEq] at he'
        rw [← he', ← h.kept.pins]
        exact ⟨hfreq, hpin⟩
      · exact h.dropped h' e' he' hn
  · -- hot or pinned: it is copied forward
    rintro e bytes s₁ d freq hl hpack - ⟨hA, rfl, h₁, hm₁, hpins₁, hp₁⟩
    have hlen : bytes.length < 2 ^ 32 := by
      obtain ⟨before, frame, after, hrec, -, -, hA'⟩ := h.good.resident x.hash e hl
      rw [hA, some.injEq] at hA'
      subst hA'
      rcases hrec with ⟨-, hs⟩ | ⟨_, _, -, -, hw⟩
      · exact hs.frames (x.hash, bytes) (by simp)
      · exact hw.frames (x.hash, bytes) (by simp)
    refine (good_append .main freq (h₁.eraseMap x.hash) hA).mono ?_ fun _ _ _ hf =>
      absurd hlen (not_lt.mpr hf.1)
    rintro - s₂ d₂ ⟨h₂, hk₂, e₂, hm₂, -, hpack₂⟩
    have hlook : ∀ h', s₂.map.lookup h' = if h' = x.hash then some e₂ else s.map.lookup h' := by
      intro h'
      rw [hm₂, lookup_insert_eq]
      split_ifs with hne
      · rfl
      · change (s₁.map.erase x.hash).lookup h' = _
        rw [lookup_erase_eq, if_neg hne, hm₁]
    have hk₁ : Kept s d s₁ d := ⟨.refl d, hpins₁, by rw [hp₁]; exact fun _ hid => hid⟩
    refine ⟨h₂, h.kept.trans (hk₁.trans ⟨hk₂.grows, hk₂.pins, hk₂.packs⟩),
      fun h' e' he' hp' => ?_, fun h' e' he' hn => ?_⟩
    · rw [hlook] at he'
      split_ifs at he' with hne
      · cases he'
        exact absurd (hp' ▸ hpack₂) (h₁.tidy.queued id (.inr (.inr rfl)))
      · exact h.still he' hp' hne
    · rw [hlook] at hn
      split_ifs at hn
      exact h.dropped h' e' he' hn

/-- What a turn of the eviction loop does: it drops cold, unpinned entries only. -/
structure Evicted (s : Store) (d : Directory FileName) (s' : Store) (d' : Directory FileName) : Prop where
  grows : Grows d d'
  pins : s'.pins = s.pins
  dropped : ∀ h e, s.map.lookup h = some e → s'.map.lookup h = none → e.freq = 0 ∧ s.pins.lookup h = none

variable {q : Queue}

theorem Retiring.removed {z : ℕ} (h : Retiring A id s₀ d₀ [] s d) (hr : s'.readers = s.readers.erase id)
    (hs : s' = { { s with packs := s.packs.erase id }.setBytes q (· - z) with readers := s'.readers })
    (ho : OnlyPack id d d') : Tidy (fun _ => False) s' d' ∧ Resident A s' d' := by
  have ht := h.good.tidy
  have hpacks : s'.packs = s.packs.erase id := by rw [hs]; cases q <;> rfl
  have hwr : s'.writer = s.writer := by
    funext q'
    rw [hs]
    cases q <;> cases q' <;> rfl
  have hmap : s'.map = s.map := by rw [hs]; cases q <;> rfl
  have hsmall : s'.small = s.small ∧ s'.main = s.main ∧ s'.nextId = s.nextId := by
    rw [hs]
    cases q <;> exact ⟨rfl, rfl, rfl⟩
  obtain ⟨hsm, hma, hnext⟩ := hsmall
  have hlook : ∀ i, s'.packs.lookup i = if i = id then none else s.packs.lookup i := by
    intro i
    rw [hpacks, lookup_erase_eq]
  have hnone : ∀ q' w, s.writer q' = some w → w.id ≠ id := by
    rintro q' w hq' rfl
    exact ht.queued w.id (.inr (.inr rfl)) (ht.active q' w hq').1
  refine ⟨⟨fun i hi => ?_, fun q' w hq' => ?_, fun i hi => ?_, by rw [hsm, hma]; exact ht.nodup, by simp,
    fun i j hj => ?_⟩, h.good.resident.extend hmap fun hash e rs he hrec => ⟨[], ?_⟩⟩
  · rw [hlook] at hi
    rw [hnext]
    split_ifs at hi with hne
    · exact absurd rfl hi
    · obtain ⟨h1, rs, h2⟩ := ht.packed i hi
      exact ⟨h1, rs, h2.onlyPack ho hne⟩
  · rw [hwr] at hq'
    obtain ⟨h1, rs, h2⟩ := ht.active q' w hq'
    rw [hlook]
    exact ⟨by rw [if_neg (hnone q' w hq')]; exact h1, rs, h2.onlyPack ho (hnone q' w hq')⟩
  · rw [hsm, hma] at hi
    obtain ⟨h1, h2⟩ := ht.outside id rfl
    have hne : i ≠ id := by
      rintro rfl
      rcases hi with hi | hi | hi
      · exact h1 hi
      · exact h2 hi
      · exact hi
    rw [hlook, if_neg hne]
    exact ht.queued i (by tauto)
  · rw [hr, lookup_erase_eq] at hj
    split_ifs at hj with hne
    rw [ho.file (.pack i) hne]
    exact ht.readers i j hj
  · rw [append_nil]
    have hne : e.pack ≠ id := by
      intro hp
      obtain ⟨-, x, hx, -⟩ := h.coming hash e he hp
      cases hx
    refine hrec.onlyPack ho hne (fun hp => by rw [hlook, if_neg hne]; exact hp) fun q' w hq' _ => ?_
    rw [hwr]
    exact hq'

variable {rs : List (Hash × Bytes)}

theorem SealedPack.decodeIndex (h : SealedPack d id rs) : decodeIndex (encodeIndex (entriesOf 0 rs)) = entriesOf 0 rs :=
  decodeIndex_encodeIndex (inBounds_entriesOf h.frames (lt_of_le_of_lt h.len maxPackLen_lt))

theorem mem_index_of_records {before after : List (Hash × Bytes)} {hash : Hash} {bytes : Bytes}
    (h : Good (· = id) full A s d) (hs : SealedPack d id rs)
    (hr : Records s d id (before ++ (hash, bytes) :: after)) :
    (⟨hash, (encodeRecords before).length + headerLen, bytes.length⟩ : IndexEntry) ∈ entriesOf 0 rs := by
  rcases hr with ⟨-, hr⟩ | ⟨q, w, hq, rfl, -⟩
  · have hi := hr.index
    rw [hs.index, some.injEq] at hi
    rw [← hs.decodeIndex, hi, hr.decodeIndex, entriesOf_append, entriesOf, zero_add]
    simp
  · exact absurd (h.tidy.active q w hq).1 (h.tidy.queued w.id (.inr (.inr rfl)))

theorem SealedPack.removed {Q : Unit → Store → Directory FileName → Prop}
    (hs : SealedPack d id rs) (hgone : ∀ t, t = { s with readers := s.readers.erase id } →
      Q () t ((d.unlink (.pack id)).unlink (.index id))) :
    EndsFrom quiet (removePack id) s d Q fun _ _ _ => False := by
  refine removePack_rule rfl ?_ ?_ (hgone _ rfl)
  · rintro (hf | hn)
    · exact absurd hf not_faulty_quiet
    · have hc := hs.pack
      rw [Directory.content_eq_none.mpr hn] at hc
      cases hc
  · rintro (hf | hn)
    · exact absurd hf not_faulty_quiet
    · have hc := hs.index
      rw [Directory.content_eq_none.mpr hn] at hc
      cases hc

theorem good_retire (q : Queue) (h : Good (· = id) noQueue A s d) : EndsFrom quiet (retire id q) s d
    (fun _ s' d' => Good (fun _ => False) noQueue A s' d' ∧ Evicted s d s' d') (fun _ _ _ => False) := by
  have hsafe : EndsFrom quiet (retire id q) s d (fun _ => Safe (fun _ => False) noQueue)
      (fun _ => Safe (fun _ => False) noQueue) :=
    (safe_retire (K := (· = id)) q rfl h.safe).mono (fun _ _ _ h => h.mono (fun _ hk => hk.elim) fun _ hf => hf)
      fun _ _ _ h => h.mono (fun _ hk => hk.elim) fun _ hf => hf
  have hrest : EndsFrom quiet (retire id q) s d (fun _ s' d' => (Tidy (fun _ => False) s' d' ∧ Resident A s' d') ∧
      Evicted s d s' d') (fun _ _ _ => False) := by
    obtain ⟨-, rs, hsealed⟩ := h.tidy.packed id (h.tidy.queued id (.inr (.inr rfl)))
    refine retire_rule (I := fun rest => Retiring A id s d rest) (fun idx hidx => ?_) ?_
      (fun x rest promoted _ _ h => retiring_retireEntry q promoted h)
      (fun _ _ h hn => h.good.tidy.queued id (.inr (.inr rfl)) hn) ?_
    · rw [hsealed.index, some.injEq] at hidx
      rw [← hidx, hsealed.decodeIndex]
      refine ⟨h, .refl s d, fun hash e he hp => ⟨he, ?_⟩, fun hash e he hn => by rw [he] at hn; cases hn⟩
      obtain ⟨before, frame, after, hrec, -⟩ := h.resident hash e he
      rw [hp] at hrec
      exact ⟨_, mem_index_of_records h hsealed hrec, rfl⟩
    · rintro _ (⟨-, hn⟩ | ⟨hf, -⟩)
      · rw [hsealed.index] at hn
        cases hn
      · exact not_faulty_quiet hf
    intro s₂ d₂ size t h₂ _ ht
    obtain ⟨-, rs₂, hsealed₂⟩ := h₂.good.tidy.packed id (h₂.good.tidy.queued id (.inr (.inr rfl)))
    refine ⟨fun hf => absurd hf not_faulty_quiet, hsealed₂.removed fun t' ht' => ?_⟩
    have hr : t'.readers = s₂.readers.erase id := by
      subst ht' ht
      cases q <;> rfl
    have hmap : t'.map = s₂.map ∧ t'.pins = s₂.pins := by
      subst ht' ht
      cases q <;> exact ⟨rfl, rfl⟩
    refine ⟨h₂.removed (q := q) (z := size) hr (by rw [hr, ht', ht]; cases q <;> rfl)
      ((onlyPack_unlink (.pack id)).trans (onlyPack_unlink (.index id))),
      h₂.kept.grows.trans ((grows_unlink _).trans (grows_unlink _)), hmap.2.trans h₂.kept.pins, ?_⟩
    rw [hmap.1]
    exact h₂.dropped
  exact (hsafe.and hrest).mono (fun _ _ _ h => ⟨⟨h.1, h.2.1.1, h.2.1.2⟩, h.2.2⟩) fun _ _ _ h => h.2

theorem Good.popFront (h : Good (fun _ => False) noQueue A s d)
    (hs : s'.core = (s.activeSmall, s.activeMain, s'.small, s'.main, s.nextId, s.sealBytes))
    (hrest : s'.packs = s.packs ∧ s'.readers = s.readers ∧ s'.map = s.map)
    (hperm : (s.small ++ s.main).Perm (id :: (s'.small ++ s'.main))) : Good (· = id) noQueue A s' d := by
  have hsafe : Safe (· = id) noQueue s' d :=
    (h.safe.popFront hs hperm).mono (fun _ hk => .inr hk) fun _ hf => hf
  simp only [Store.core, Prod.mk.injEq, true_and] at hs
  obtain ⟨h1, h2, h3, h4⟩ := hs
  obtain ⟨hp, hr, hm⟩ := hrest
  have hw : s'.writer = s.writer := by
    funext q
    cases q <;> assumption
  have ht := h.tidy
  have hnodup := hperm.nodup_iff.mp ht.nodup
  rw [nodup_cons] at hnodup
  refine ⟨hsafe, ⟨by rw [hp, h3]; exact ht.packed, by rw [hw, hp]; exact ht.active, fun i hi => ?_, hnodup.2, ?_,
    by rw [hr]; exact ht.readers⟩, h.resident.extend hm fun hash e rs _ hrec => ⟨[], ?_⟩⟩
  · rw [hp]
    refine ht.queued i ?_
    have : i ∈ s.small ++ s.main := by
      rw [hperm.mem_iff, mem_cons, mem_append]
      tauto
    rw [mem_append] at this
    tauto
  · rintro _ rfl
    exact ⟨fun hm => hnodup.1 (mem_append_left _ hm), fun hm => hnodup.1 (mem_append_right _ hm)⟩
  · rw [append_nil]
    unfold Records at hrec ⊢
    rwa [hp, hw]

theorem Evicted.of_kept {t t' : Store} {d'' : Directory FileName} (hk : Kept s d s' d') (hm : s'.map = s.map)
    (h : Evicted t d' t' d'') (ht : t.map = s'.map ∧ t.pins = s'.pins) : Evicted s d t' d'' := by
  refine ⟨hk.grows.trans h.grows, (h.pins.trans ht.2).trans hk.pins, fun hash e he hn => ?_⟩
  rw [← hk.pins, ← ht.2]
  exact h.dropped hash e (by rw [ht.1, hm]; exact he) hn

theorem good_sealQueue_unfull (q : Queue) (h : Good K noQueue A s d) : EndsFrom quiet (sealQueue q) s d
    (fun _ s' d' => Good K noQueue A s' d' ∧ Kept s d s' d' ∧ s'.map = s.map) (fun _ _ _ => False) := by
  refine good_sealQueue q ⟨h.safe.mono (fun _ hk => hk) fun _ hf => hf.elim, h.tidy, h.resident⟩
    fun w rs hq hw => ?_
  have hrs := h.safe.writes_bounded (q := q) id hq hw
  have hmax : maxPackLen = 256 * 2 ^ 20 + (headerLen + 2 ^ 32) := rfl
  omega

/-- One turn of the eviction loop succeeds, keeps every frame readable and drops cold,
unpinned entries only. -/
theorem good_evictTurn (n : ℕ) (h : Good (fun _ => False) noQueue A s d) : EndsFrom quiet (evictTurn n) s d
    (fun _ s' d' => Good (fun _ => False) noQueue A s' d' ∧ Evicted s d s' d') (fun _ _ _ => False) := by
  refine evictTurn_rule n (I := fun s' d' => Good (fun _ => False) noQueue A s' d' ∧ Kept s d s' d' ∧ s'.map = s.map)
    ⟨h, .refl s d, rfl⟩ ?_ ?_ ?_ ?_
  · rintro q s₁ d₁ ⟨h₁, hk₁, hm₁⟩
    refine (good_sealQueue_unfull q h₁).mono ?_ fun _ _ _ hf => hf
    rintro _ s₂ d₂ ⟨h₂, hk₂, hm₂⟩
    exact ⟨h₂, hk₁.trans hk₂, hm₂.trans hm₁⟩
  · rintro s₁ d₁ ⟨h₁, hk₁, hm₁⟩
    refine ⟨h₁, hk₁.grows, hk₁.pins, fun h e he hn => ?_⟩
    rw [hm₁, he] at hn
    cases hn
  · rintro s₁ d₁ id rest ⟨h₁, hk₁, hm₁⟩ hm
    have hpop : Good (· = id) noQueue A { s₁ with small := rest } d₁ :=
      h₁.popFront rfl ⟨rfl, rfl, rfl⟩ (by rw [hm]; exact List.Perm.refl _)
    exact (good_retire .small hpop).mono (fun _ _ _ ht => ⟨ht.1, .of_kept hk₁ hm₁ ht.2 ⟨rfl, rfl⟩⟩) fun _ _ _ hf => hf
  · rintro s₁ d₁ id rest ⟨h₁, hk₁, hm₁⟩ hm
    have hpop : Good (· = id) noQueue A { s₁ with main := rest } d₁ :=
      h₁.popFront rfl ⟨rfl, rfl, rfl⟩ (by rw [hm]; exact perm_middle)
    exact (good_retire .main hpop).mono (fun _ _ _ ht => ⟨ht.1, .of_kept hk₁ hm₁ ht.2 ⟨rfl, rfl⟩⟩) fun _ _ _ hf => hf

end Tribuchet.ChunkStore
