import Tribuchet.ChunkStore.Whole

/-! Durable chunks survive a crash as long as every admitted frame is intact: a scan goes
through the records that were fsynced, and whichever record of a chunk an open finds is
intact. One admitted frame that is not hides the records behind it from the scan. -/

namespace Tribuchet.ChunkStore.Crash

open ByteStrings Filesystem Hoare Runs Function List Option Directory

variable {α : Type} {allowed : Outcome → Prop} {intact : Bytes → Hash → Bool} {recs : ℕ → List (Hash × Bytes)}
  {d d' : Directory FileName} {s : Store} {id : ℕ} {synced : ℕ → ℕ}

/-! ### Opening -/

/-- An open finds the chunk in this pack: the index lists it, or there is none and the chunk's
record is among intact ones that are fsynced. -/
def SureIn (intact : Bytes → Hash → Bool) (synced : ℕ → ℕ) (d : Directory FileName) (id : ℕ) (hash : Hash) : Prop :=
  Listed d id hash ∧ d.file (.pack id) ≠ none ∨ d.content (.index id) = none ∧
    ∃ i rs, d.file (.pack id) = some i ∧ encodeRecords rs <+: (d.data i).take (synced i) ∧ Intact intact rs ∧
      hash ∈ rs.map Prod.fst

theorem hash_entriesOf (pos : ℕ) (rs : List (Hash × Bytes)) :
    (entriesOf pos rs).map IndexEntry.hash = rs.map Prod.fst := by
  induction rs generalizing pos with
  | nil => rfl
  | cons r rs ih => rw [entriesOf, map_cons, map_cons, ih]

theorem SureIn.onlyPack {id' : ℕ} {hash : Hash} (h : SureIn intact synced d id hash) (ho : OnlyPack id' d d')
    (hid : id ≠ id') : SureIn intact synced d' id hash := by
  have hp : d'.content (.pack id) = d.content (.pack id) := ho.content (.pack id) hid
  have hi : d'.content (.index id) = d.content (.index id) := ho.content (.index id) hid
  have hf : d'.file (.pack id) = d.file (.pack id) := ho.file (.pack id) hid
  rcases h with ⟨⟨idx, hidx, hm⟩, hfile⟩ | ⟨hn, i, rs, hfile, hpre, hin, hm⟩
  · exact .inl ⟨⟨idx, hi.trans hidx, hm⟩, hf ▸ hfile⟩
  · have hdata : d'.data i = d.data i := by
      rw [content_of_file (hf.trans hfile), content_of_file hfile, some.injEq] at hp
      exact hp
    exact .inr ⟨hi.trans hn, i, rs, hf.trans hfile, by rw [hdata]; exact hpre, hin, hm⟩

/-- What an open knows of a pack once it has its entries, or has failed to get them. -/
structure Recovered (intact : Bytes → Hash → Bool) (synced : ℕ → ℕ) (d : Directory FileName) (id : ℕ)
    (rs₀ rs : List (Hash × Bytes)) (d' : Directory FileName) : Prop where
  only : OnlyPack id d d'
  holds : Holds intact d' id rs
  file : d'.file (.pack id) = d.file (.pack id)
  kept : ∀ e ∈ entriesOf 0 rs₀, e ∈ entriesOf 0 rs
  sure : ∀ hash, SureIn intact synced d id hash → SureIn intact synced d' id hash

theorem endsIn_indexOf_sure {rs₀ : List (Hash × Bytes)} (hh : Holds intact d id rs₀) (hok : PackOk d id) :
    EndsIn allowed (indexOf intact id) d
      (fun es d' => ∃ rs, Recovered intact synced d id rs₀ rs d' ∧ es = entriesOf 0 rs ∧
        ∀ hash, SureIn intact synced d id hash → hash ∈ rs.map Prod.fst)
      (fun _ d' => ∃ rs, Recovered intact synced d id rs₀ rs d') := by
  have hsame : Recovered intact synced d id rs₀ rs₀ d := ⟨.refl _ _, hh, rfl, fun _ he => he, fun _ h => h⟩
  refine EndsIn.tryCatch ((endsIn_loadIndex id).mono ?_ fun _ _ h => h) ?_
  · rintro es d ⟨rfl, idx, hidx, rfl⟩
    refine ⟨rs₀, hsame, hh.decodeIndex hok hidx, fun hash hsure => ?_⟩
    rcases hsure with ⟨⟨idx', hidx', hm⟩, -⟩ | ⟨hn, -⟩
    · rw [hidx, some.injEq] at hidx'
      rwa [← hidx', hh.decodeIndex hok hidx, hash_entriesOf] at hm
    · rw [hidx] at hn
      cases hn
  · rintro e d ⟨rfl, ⟨rfl, hi⟩ | ⟨-, he⟩⟩
    · rw [if_pos rfl]
      obtain ⟨tail₀, hdata⟩ := hh.data
      obtain ⟨rs, tail, hsplit, hin, hscan, hrecover⟩ := endsIn_recover allowed intact hdata
      -- intact records at the start of the pack are found
      have hscanned : ∀ {rs₁}, Intact intact rs₁ → encodeRecords rs₁ <+: encodeRecords rs₀ ++ tail₀ →
          (∀ e ∈ entriesOf 0 rs₁, e ∈ entriesOf 0 rs) ∧ encodeRecords rs₁ <+: encodeRecords rs := by
        intro rs₁ hin₁ hpre
        obtain ⟨more, stop, hscan', hstop⟩ := scan_intact_prefix intact hin₁ hpre
        rw [hscan, Prod.mk.injEq] at hscan'
        refine ⟨fun e he => ?_, prefix_of_prefix_length_le hpre ⟨tail, hsplit.symm⟩ (by omega)⟩
        rw [hscan'.1]
        exact mem_append_left _ he
      have hkept := (hscanned hh.intact (prefix_append _ _)).1
      have hfound : ∀ hash, SureIn intact synced d id hash → hash ∈ rs.map Prod.fst := by
        rintro hash (⟨⟨idx, hidx, -⟩, -⟩ | ⟨-, i, rs₁, hfile, hpre, hin₁, hm⟩)
        · rw [hi] at hidx
          cases hidx
        · rw [content_of_file hfile, some.injEq] at hdata
          have hsub := (hscanned hin₁ (hdata ▸ hpre.trans ( take_prefix _ _))).1
          rw [← hash_entriesOf 0] at hm ⊢
          obtain ⟨e, he, rfl⟩ := mem_map.mp hm
          exact mem_map_of_mem (hsub e he)
      refine hrecover.mono ?_ ?_
      · rintro es d' ⟨ho, rfl, hf, hp', hi', -⟩
        have hholds : Holds intact d' id rs := by
          refine ⟨⟨[], by simpa using hp'⟩, fun idx hidx => ?_, hin⟩
          rw [hi', some.injEq] at hidx
          exact hidx.symm
        refine ⟨rs, ⟨ho, hholds, hf, hkept, fun hash hsure => .inl ⟨⟨_, hi', ?_⟩, hholds.file⟩⟩, rfl, hfound⟩
        rw [hash_decodeIndex, hash_entriesOf]
        exact hfound hash hsure
      · rintro e d' ⟨-, ho, hi', hf, hp'⟩
        rw [hi] at hi'
        have hsure : ∀ {bs}, d'.content (.pack id) = some bs →
            (∀ {rs₁}, Intact intact rs₁ → encodeRecords rs₁ <+: encodeRecords rs₀ ++ tail₀ → encodeRecords rs₁ <+: bs) →
            ∀ hash, SureIn intact synced d id hash → SureIn intact synced d' id hash := by
          rintro bs hbs hcut hash (⟨⟨idx, hidx, -⟩, -⟩ | ⟨-, i, rs₁, hfile, hpre, hin₁, hm⟩)
          · rw [hi] at hidx
            cases hidx
          · rw [content_of_file hfile, some.injEq] at hdata
            rw [content_of_file (hf.trans hfile), some.injEq] at hbs
            have hle : (encodeRecords rs₁).length ≤ synced i :=
              hpre.length_le.trans (by rw [length_take]; exact min_le_left _ _)
            refine .inr ⟨hi', i, rs₁, hf.trans hfile, ?_, hin₁, hm⟩
            rw [hbs]
            exact prefix_take_iff.mpr ⟨hcut hin₁ (hdata ▸ hpre.trans ( take_prefix _ _)), hle⟩
        have hindex : ∀ rs', ∀ idx, d'.content (.index id) = some idx → idx = encodeIndex (entriesOf 0 rs') := by
          intro rs' idx hidx
          rw [hi'] at hidx
          cases hidx
        rcases hp' with hp' | hp'
        · exact ⟨rs₀, ho, ⟨⟨tail₀, hp'⟩, hindex rs₀, hh.intact⟩, hf, fun _ he => he, hsure hp' fun _ hpre => hpre⟩
        · exact ⟨rs, ho, ⟨⟨[], by simpa using hp'⟩, hindex rs, hin⟩, hf, hkept,
            hsure hp' fun hin₁ hpre => (hscanned hin₁ hpre).2⟩
    · rw [if_neg he]
      exact endsIn_throw ⟨rs₀, hsame⟩

theorem lookup_addEntries_isSome {es : List IndexEntry} {map : AList fun _ : Hash => Entry} {hash : Hash}
    (h : hash ∈ es.map IndexEntry.hash ∨ map.lookup hash ≠ none) : (addEntries id es map).lookup hash ≠ none := by
  induction es generalizing map with
  | nil => exact h.resolve_left (by simp)
  | cons x es ih =>
    refine ih ?_
    rw [map_cons, mem_cons] at h
    rcases h with (rfl | h) | h
    · right
      rw [Table.lookup_insert_eq, if_pos rfl]
      simp
    · exact .inl h
    · right
      rw [Table.lookup_insert_eq]
      split_ifs
      · simp
      · exact h

/-- While packs are loaded, from the directory `d₀`; `rest` are still to come. -/
structure Finding (intact : Bytes → Hash → Bool) (synced : ℕ → ℕ) (d₀ : Directory FileName) (rest : List ℕ)
    (s : Store) (d : Directory FileName) : Prop where
  whole : ∃ recs, Whole intact recs s d
  idle : (∀ q, s.writer q = none) ∧ s.readers = ∅
  packs : ∀ id ∈ rest, d.file (.pack id) ≠ none ∧ PackOk d id
  sure : ∀ id hash, SureIn intact synced d₀ id hash → SureIn intact synced d id hash
  found : ∀ id hash, SureIn intact synced d₀ id hash → id ∈ rest ∨ s.map.lookup hash ≠ none

def Left (intact : Bytes → Hash → Bool) (synced : ℕ → ℕ) (d₀ d : Directory FileName) : Prop :=
  (∃ recs : ℕ → List (Hash × Bytes), ∀ id, d.file (.pack id) ≠ none → Holds intact d id (recs id)) ∧
    ∀ id hash, SureIn intact synced d₀ id hash → SureIn intact synced d id hash

theorem finding_loadPack {d₀ : Directory FileName} {rest : List ℕ} (h : Finding intact synced d₀ (id :: rest) s d)
    (hn : id ∉ rest) : EndsFrom allowed (loadPack intact () id) s d
      (fun _ => Finding intact synced d₀ rest) (fun _ _ d' => Left intact synced d₀ d') := by
  obtain ⟨recs, hw⟩ := h.whole
  obtain ⟨hfile, hok⟩ := h.packs id mem_cons_self
  have hset : ∀ {rs d'}, Recovered intact synced d id (recs id) rs d' →
      Whole intact (update recs id rs) s d' := by
    intro rs d' hr
    refine hw.setRecs hr.only hr.holds (fun _ => ⟨hr.file, hr.kept⟩) (fun q w hq => ?_) (fun _ _ he => .inl he) rfl
    rw [h.idle.1 q] at hq
    cases hq
  have hsure : ∀ {rs d'}, Recovered intact synced d id (recs id) rs d' →
      ∀ id' hash, SureIn intact synced d₀ id' hash → SureIn intact synced d' id' hash := by
    intro rs d' hr id' hash hs
    have hs := h.sure id' hash hs
    rcases eq_or_ne id' id with rfl | hne
    · exact hr.sure hash hs
    · exact hs.onlyPack hr.only hne
  refine loadPack_rule (@endsIn_indexOf_sure _ _ _ _ synced _ (hw.packs id hfile) hok) ?_ ?_ ?_
  · rintro _ d' ⟨rs, hr⟩
    exact ⟨⟨_, (hset hr).packs⟩, hsure hr⟩
  · rintro _ d' _ ⟨rs, hr, -⟩ -
    exact ⟨⟨_, (hset hr).packs⟩, hsure hr⟩
  rintro _ d' data ⟨rs, hr, rfl, hfound⟩ -
  have hw' := hset hr
  refine ⟨⟨update recs id rs, hw'.packs, hw'.writers, fun hash e he => ?_, hw'.readers⟩, h.idle,
    fun id' hid' => ?_, hsure hr, fun id' hash hs => ?_⟩
  · rcases lookup_addEntries he with ⟨x, hx, rfl, rfl⟩ | he
    · rw [update_self]
      exact ⟨hr.holds.file, hx⟩
    · exact hw'.map hash e he
  · have hne : id' ≠ id := fun heq => hn (heq ▸ hid')
    obtain ⟨hf, hpk⟩ := h.packs id' (mem_cons_of_mem _ hid')
    exact ⟨by rw [hr.only.file (.pack id') hne]; exact hf, hpk.onlyPack hr.only hne⟩
  · by_cases hid' : id' ∈ rest
    · exact .inl hid'
    · right
      apply lookup_addEntries_isSome
      rcases h.found id' hash hs with hm | hm
      · obtain rfl := (mem_cons.mp hm).resolve_right hid'
        left
        rw [hash_entriesOf]
        exact hfound hash (h.sure id' hash hs)
      · exact .inr hm

theorem finding_load (allowed : Outcome → Prop) (budget : ℕ) (synced : ℕ → ℕ) (hok : ∀ id, PackOk d id)
    (hh : ∀ id, d.file (.pack id) ≠ none → Holds intact d id (recs id)) :
    EndsFrom allowed (load intact) (Store.initial budget) d
      (fun _ s' d' => (∃ recs', Whole intact recs' s' d') ∧
        ∀ id hash, SureIn intact synced d id hash → s'.map.lookup hash ≠ none)
      (fun _ _ d' => Left intact synced d d') := by
  have hinit : Finding intact synced d (packIds d) (Store.initial budget) d := by
    refine ⟨⟨recs, hh, fun q w hq => ?_, fun hash e he => ?_, fun id i hi => ?_⟩, ⟨fun q => ?_, rfl⟩,
      fun id hid => ⟨(mem_packIds d id).mp hid, hok id⟩, fun _ _ h => h, fun id hash hs => .inl ?_⟩
    · cases q <;> cases hq
    · cases he
    · cases hi
    · cases q <;> rfl
    · rw [mem_packIds]
      rcases hs with ⟨-, hf⟩ | ⟨-, i, -, hf, -⟩
      · exact hf
      · rw [hf]
        simp
  refine (load_rule (I := fun rest s' d' => Finding intact synced d rest s' d' ∧ rest.Nodup)
    ⟨hinit, packIds_nodup d⟩ fun id rest _ _ h => ?_).mono (fun _ s d h => ⟨h.1.whole, ?_⟩) fun _ _ _ h => h
  · obtain ⟨hf, hnodup⟩ := h
    obtain ⟨hn, hnodup⟩ := nodup_cons.mp hnodup
    exact (finding_loadPack hf hn).mono (fun _ _ _ hf => ⟨hf, hnodup⟩) fun _ _ _ hl => hl
  · exact fun id hash hs => (h.1.found id hash hs).resolve_left (by simp)

/-! ### Runs -/

/-- The packs are intact whether or not a process runs, and what is owed is sure to be found. -/
structure Survives (intact : Bytes → Hash → Bool) (m : Machine) : Prop where
  consistent : Consistent m.state
  packs : ∃ recs : ℕ → List (Hash × Bytes), ∀ id, m.state.dir.file (.pack id) ≠ none → Holds intact m.state.dir id (recs id)
  running : ∀ p, m.state.process = some p → ∃ recs, Whole intact recs p.store m.state.dir
  owed : m.state.process = none → ∀ hash ∈ m.owed, ∃ id, SureIn intact m.synced m.state.dir id hash

theorem survives_empty : Survives intact .empty where
  consistent := consistent_empty
  packs := ⟨fun _ => [], fun id hid => absurd rfl hid⟩
  running := by rintro _ ⟨⟩
  owed := by
    rintro - hash hm
    cases hm

theorem sureIn_of_owing {hash : Hash} (h : Whole intact recs s d) (ho : hash ∈ owing intact s d synced) :
    ∃ id, SureIn intact synced d id hash := by
  obtain ⟨-, ho⟩ := mem_filter.mp ho
  obtain ⟨e, he, ho⟩ := (any_eq_true _ _).mp ho
  have hd := (Bool.and_eq_true_iff.mp ho).1
  obtain ⟨hfile, hmem⟩ := h.map hash e he
  have hh := h.packs e.pack hfile
  refine ⟨e.pack, ?_⟩
  cases hidx : d.content (.index e.pack) with
  | some idx =>
    refine .inl ⟨⟨idx, hidx, ?_⟩, hfile⟩
    rw [hh.index idx hidx, hash_decodeIndex]
    exact mem_map_of_mem (f := IndexEntry.hash) hmem
  | none =>
    rw [durable, content_eq_none.mp hidx, isSome_none, Bool.false_or] at hd
    obtain ⟨i, hi, hle⟩ := (any_eq_true _ _).mp hd
    have hle := of_decide_eq_true hle
    obtain ⟨tail, hdata⟩ := hh.data
    rw [content_of_file hi, some.injEq] at hdata
    obtain ⟨before, frame, after, hsplit, hoff, hlen⟩ := exists_record_of_mem hmem
    have hin := hh.intact
    rw [hsplit] at hin
    refine .inr ⟨hidx, i, before ++ [(hash, frame)], hi, prefix_take_iff.mpr ⟨?_, ?_⟩, fun r hr => hin r ?_, by simp⟩
    · rw [hdata, hsplit]
      exact ⟨encodeRecords after ++ tail, by simp⟩
    · simp only [encodeRecords_append, encodeRecords_cons, encodeRecords_nil, length_append, length_record,
        length_nil]
      simp only at hoff hlen
      omega
    · rcases mem_append.mp hr with hr | hr
      · exact mem_append_left _ hr
      · rw [mem_singleton.mp hr]
        simp

variable {m : Machine} {t : State}

theorem survives_op {store : Store} (hc : Consistent t) (hw : Whole intact recs store t.dir)
    (hp : ∀ p, t.process = some p →
      p.store.map = store.map ∧ p.store.writer = store.writer ∧ p.store.readers = store.readers) :
    Survives intact ⟨t, synced,
      match t.process, some store with
      | some _, _ => []
      | none, some store => owing intact store t.dir synced
      | none, none => m.owed⟩ where
  consistent := hc
  packs := ⟨recs, hw.packs⟩
  running p hp' := by
    obtain ⟨h1, h2, h3⟩ := hp p hp'
    refine ⟨recs, hw.congr h2 (fun _ e he => ⟨e, h1 ▸ he, rfl, rfl, rfl⟩) ?_⟩
    rw [h3]
    exact hw.readers
  owed hn hash hm := by
    have hn : t.process = none := hn
    simp only [hn] at hm
    exact sureIn_of_owing hw hm

theorem kept_exec {st : Store} {x : StoreM α} (outcomes : List Outcome)
    (hx : EndsFrom (fun _ => True) x st t.dir (fun _ => Kept intact fun _ => False)
      (fun _ => Kept intact fun _ => False)) :
    Kept intact (fun _ => False) (exec x (t.world st outcomes)).2.store (exec x (t.world st outcomes)).2.disk.dir := by
  have h := hx outcomes (by simp)
  unfold Ends at h
  simp only [State.world] at h ⊢
  cases hr : exec x ⟨st, ⟨t.dir, outcomes⟩⟩ with
  | mk r w =>
    rw [hr] at h
    cases r with
    | ok a => exact h.1
    | error e => exact h.1

/-- What reading leaves alone of a store, as far as its packs go. -/
def SamePacks (s s' : Store) : Prop := s'.map = s.map ∧ s'.writer = s.writer ∧ s'.readers = s.readers

theorem after_fields {r : Except Error α × World} {k : α → Store → State → State}
    (hk : ∀ a st t', t'.process = some ⟨st, none⟩ →
      (k a st t').dir = t'.dir ∧ ∀ p, (k a st t').process = some p → SamePacks st p.store) :
    (t.after r k).dir = r.2.disk.dir ∧ ∀ p, (t.after r k).process = some p → SamePacks r.2.store p.store := by
  match r with
  | (.ok a, w) => exact hk a w.store _ rfl
  | (.error (.io kind), w) =>
    refine ⟨rfl, ?_⟩
    rintro _ ⟨⟩
    exact ⟨rfl, rfl, rfl⟩
  | (.error .panicked, w) => exact ⟨rfl, by rintro _ ⟨⟩⟩
  | (.error .stopped, w) => exact ⟨rfl, by rintro _ ⟨⟩⟩

variable {outcomes : List Outcome}

theorem survives_after {t' : State} {st : Store} {x : StoreM α} {k : α → Store → State → State} (hc : Consistent t')
    (hx : EndsFrom (fun _ => True) x st t.dir (fun _ => Kept intact fun _ => False)
      (fun _ => Kept intact fun _ => False))
    (ht : t' = t.after (exec x (t.world st outcomes)) k)
    (hk : ∀ a st t', t'.process = some ⟨st, none⟩ →
      (k a st t').dir = t'.dir ∧ ∀ p, (k a st t').process = some p → SamePacks st p.store) :
    Survives intact ⟨t', synced,
      match t'.process, some (exec x (t.world st outcomes)).2.store with
      | some _, _ => []
      | none, some store => owing intact store t'.dir synced
      | none, none => m.owed⟩ := by
  obtain ⟨hdir, hproc⟩ := after_fields (t := t) (r := exec x (t.world st outcomes)) hk
  obtain ⟨-, recs, hw⟩ := kept_exec outcomes hx
  rw [← ht] at hdir hproc
  exact survives_op hc (hdir ▸ hw) hproc

variable (h : Survives intact m)

include h

theorem Survives.idle {st : Store} (hi : m.state.idle = some st) : Kept intact (fun _ => False) st m.state.dir :=
  ⟨h.consistent.idle hi, h.running _ (idle_eq hi)⟩

theorem Survives.resume {p : Process} {owed : List Hash}
    (hc : Consistent t) (hdir : t.dir = m.state.dir) (ht : t.process = some p)
    (hw : ∃ recs, Whole intact recs p.store m.state.dir) : Survives intact ⟨t, synced, owed⟩ where
  consistent := hc
  packs := by
    show ∃ recs : ℕ → List (Hash × Bytes), ∀ id, t.dir.file (.pack id) ≠ none → Holds intact t.dir id (recs id)
    rw [hdir]
    exact h.packs
  running p' hp' := by
    have hp' : t.process = some p' := hp'
    rw [ht, some.injEq] at hp'
    show ∃ recs, Whole intact recs p'.store t.dir
    rw [hdir, ← hp']
    exact hw
  owed hn := by
    have hn : t.process = none := hn
    rw [ht] at hn
    cases hn

theorem start_spec {budget : ℕ} (hs : ChunkStore.step intact m.state (.start budget outcomes) = some t) :
    (∀ p, t.process = some p → (∃ recs, Whole intact recs p.store t.dir) ∧
      ∀ hash ∈ m.owed, p.store.map.lookup hash ≠ none) ∧
    (t.process = none → Left intact m.synced m.state.dir t.dir ∧ m.state.process = none) := by
  simp only [ChunkStore.step] at hs
  split at hs
  · cases hs
  rename_i hproc
  obtain ⟨recs, hh⟩ := h.packs
  have hl := finding_load (fun _ => True) budget m.synced h.consistent.packs hh outcomes (by simp)
  unfold Ends at hl
  simp only [State.world] at hs
  split at hs
  · rename_i a w hx
    cases hs
    rw [hx] at hl
    obtain ⟨⟨hw, hfound⟩, -⟩ := hl
    refine ⟨?_, by rintro ⟨⟩⟩
    rintro _ ⟨⟩
    refine ⟨hw, fun hash hm => ?_⟩
    obtain ⟨id, hsure⟩ := h.owed hproc hash hm
    exact hfound id hash hsure
  · rename_i e w hx
    cases hs
    rw [hx] at hl
    exact ⟨by rintro _ ⟨⟩, fun _ => ⟨hl.1, hproc⟩⟩

theorem survives_start {budget : ℕ}
    (hc : Consistent t) (hs : ChunkStore.step intact m.state (.start budget outcomes) = some t) :
    Survives intact ⟨t, m.synced, match t.process with | some _ => [] | none => m.owed⟩ := by
  obtain ⟨hopened, hfailed⟩ := start_spec h hs
  cases hp : t.process with
  | some p =>
    obtain ⟨recs, hw⟩ := (hopened p hp).1
    refine ⟨hc, ⟨recs, hw.packs⟩, fun p' hp' => (hopened p' hp').1, fun hn => ?_⟩
    cases hp.symm.trans hn
  | none =>
    obtain ⟨⟨⟨recs, hh⟩, hsure⟩, hproc⟩ := hfailed hp
    refine ⟨hc, ⟨recs, hh⟩, fun p' hp' => (hopened p' hp').1, fun _ hash hm => ?_⟩
    obtain ⟨id, hs⟩ := h.owed hproc hash hm
    exact ⟨id, hsure id hash hs⟩

omit h in
theorem volatile_spec {i : ℕ} (h : volatile d i = true) :
    (∀ id, d.file (.pack id) = some i → d.file (.index id) = none) ∧ ∀ id, d.file (.index id) ≠ some i := by
  have hmem : ∀ n, d.file n = some i → n ∈ d.names.keys := by
    intro n hn
    rw [AList.mem_keys.symm, ← AList.lookup_isSome]
    change (d.file n).isSome = true
    rw [hn]
    rfl
  have hall := all_eq_true.mp h
  refine ⟨fun id hid => ?_, fun id hid => ?_⟩
  · simpa [hid] using hall _ (hmem _ hid)
  · simpa [hid] using hall _ (hmem _ hid)

theorem survives_lose {i : ℕ} {data : Bytes} (hn : m.state.process = none)
    (hv : volatile m.state.dir i = true) (hpre : (m.state.dir.data i).take (m.synced i) <+: data)
    (hlen : data.length ≤ (m.state.dir.data i).length) :
    Survives intact { m with state := { m.state with dir := m.state.dir.setData i data } } := by
  obtain ⟨hpack, hindex⟩ := volatile_spec hv
  have hcontent : ∀ n, (m.state.dir.setData i data).content n =
      if m.state.dir.file n = some i then some data else m.state.dir.content n := by
    intro n
    rw [content, file_setData]
    split_ifs with hf
    · rw [hf]
      simp [setData]
    · refine map_congr fun j hj => ?_
      have hji : j ≠ i := fun heq => hf (heq ▸ hj)
      exact update_of_ne hji _ _
  have hidx : ∀ id, (m.state.dir.setData i data).content (.index id) = m.state.dir.content (.index id) := fun id => by
    rw [hcontent, if_neg (hindex id)]
  refine ⟨⟨fun id => ?_, ?_⟩, ?_, ?_, ?_⟩
  · -- only a pack without an index may have changed, and it has not grown
    have hok := h.consistent.packs id
    by_cases hf : m.state.dir.file (.pack id) = some i
    · refine packOk_of_unindexed ((hidx id).trans (content_eq_none.mpr (hpack id hf))) fun data' hd => ?_
      rw [hcontent, if_pos hf, some.injEq] at hd
      rw [← hd]
      exact hlen.trans (hok.bounded _ (content_of_file hf))
    · have hp : (m.state.dir.setData i data).content (.pack id) = m.state.dir.content (.pack id) := by
        rw [hcontent, if_neg hf]
      exact ⟨by rw [hp, hidx]; exact hok.indexed, by rw [hp]; exact hok.bounded⟩
  · intro p hp
    have hp : m.state.process = some p := hp
    rw [hn] at hp
    cases hp
  · obtain ⟨recs, hh⟩ := h.packs
    refine ⟨fun id => if m.state.dir.file (.pack id) = some i then [] else recs id, fun id hid => ?_⟩
    have hid : m.state.dir.file (.pack id) ≠ none := hid
    dsimp only
    split_ifs with hf
    · refine ⟨⟨data, by rw [hcontent, if_pos hf]; rfl⟩, fun idx hx => ?_, by simp [Intact]⟩
      rw [hidx, content_eq_none.mpr (hpack id hf)] at hx
      cases hx
    · have hh := hh id hid
      exact ⟨by rw [hcontent, if_neg hf]; exact hh.data, by rw [hidx]; exact hh.index, hh.intact⟩
  · intro p hp
    have hp : m.state.process = some p := hp
    rw [hn] at hp
    cases hp
  · intro _ hash hm
    obtain ⟨id, hs⟩ := h.owed hn hash hm
    refine ⟨id, ?_⟩
    rcases hs with ⟨⟨idx, hx, hmem⟩, hf⟩ | ⟨hx, j, rs, hf, hrs, hin, hmem⟩
    · exact .inl ⟨⟨idx, (hidx id).trans hx, hmem⟩, hf⟩
    · refine .inr ⟨(hidx id).trans hx, j, rs, hf, ?_, hin, hmem⟩
      rcases eq_or_ne j i with rfl | hji
      · have hle : (encodeRecords rs).length ≤ m.synced j :=
          hrs.length_le.trans (by rw [length_take]; exact min_le_left _ _)
        refine prefix_take_iff.mpr ⟨?_, hle⟩
        show encodeRecords rs <+: update m.state.dir.data j data j
        rw [update_self]
        exact hrs.trans hpre
      · show encodeRecords rs <+: (update m.state.dir.data i data j).take (m.synced j)
        rw [update_of_ne hji]
        exact hrs

omit h in
theorem Verified.noStaleIndex {a : Action} (h : Verified intact m (.op a)) : NoStaleIndex m.state a := by
  cases a with
  | start budget outcomes => exact h
  | _ => trivial

theorem survives_step {m' : Machine} {ev : Event} (hv : Verified intact m ev)
    (hs : step intact m ev = some m') : Survives intact m' := by
  cases ev with
  | lose i data =>
    simp only [step] at hs
    split at hs
    · rename_i hc
      cases hs
      simp only [Bool.and_eq_true, isNone_iff_eq_none, isPrefixOf_iff_prefix, decide_eq_true_eq] at hc
      obtain ⟨⟨⟨hn, hvol⟩, hpre⟩, hlen⟩ := hc
      exact survives_lose h hn hvol hpre hlen
    · cases hs
  | op a =>
    obtain ⟨t, ht, rfl⟩ := map_eq_some_iff.mp hs
    have hc := consistent_step intact h.consistent hv.noStaleIndex ht
    have hsame : ∀ {st : Store} {t' : State}, t'.process = some ⟨st, none⟩ →
        ∀ p, t'.process = some p → SamePacks st p.store := by
      intro st t' hp p hp'
      cases hp.symm.trans hp'
      exact ⟨rfl, rfl, rfl⟩
    cases a with
    | start budget outcomes =>
      convert survives_start h hc ht using 2
      · cases m.state.process <;> rfl
      · cases t.process <;> rfl
    | insert hash frame outcomes =>
      obtain ⟨st, hi, rfl⟩ := map_eq_some_iff.mp ht
      have hk : EndsFrom (fun _ => True) _ _ _ _ _ := kept_insert (h.idle hi) (hv : intact frame hash = true)
      simp only [memory, hi, map_some]
      split_ifs at hc ⊢
      · refine survives_after (m := m) hc hk rfl fun fresh st t' hp => ⟨rfl, ?_⟩
        rintro _ ⟨⟩
        exact ⟨rfl, rfl, rfl⟩
      · refine survives_after (m := m) (t := { m.state with admitted := m.state.admitted.insert hash frame }) hc hk
          rfl fun fresh st t' hp => ⟨rfl, ?_⟩
        rintro _ ⟨⟩
        exact ⟨rfl, rfl, rfl⟩
    | evict outcomes =>
      simp only [ChunkStore.step] at ht
      split at ht
      · rename_i st n hp
        cases ht
        simp only [memory, hp]
        refine survives_after (m := m) hc (kept_evictTurn n ⟨h.consistent.safe _ hp, h.running _ hp⟩) rfl
          fun next st t' hp => ?_
        cases next with
        | none | some n =>
          refine ⟨rfl, ?_⟩
          rintro _ ⟨⟩
          exact ⟨rfl, rfl, rfl⟩
      · cases ht
    | locate hash outcomes =>
      obtain ⟨st, hi, rfl⟩ := map_eq_some_iff.mp ht
      simp only [memory, hi, map_some]
      exact survives_after (m := m) hc (kept_locate hash (h.idle hi)) rfl fun r st t' hp => ⟨rfl, hsame hp⟩
    | peek hash outcomes =>
      obtain ⟨st, hi, rfl⟩ := map_eq_some_iff.mp ht
      simp only [memory, hi, map_some]
      exact survives_after (m := m) hc (kept_peek hash (h.idle hi)) rfl fun r st t' hp => ⟨rfl, hsame hp⟩
    | forget hash =>
      obtain ⟨st, hi, rfl⟩ := map_eq_some_iff.mp ht
      obtain ⟨-, recs, hw⟩ := h.idle hi
      refine h.resume hc rfl rfl ⟨recs, ?_⟩
      exact (hw.erase hash).congr rfl (fun _ e he => ⟨e, he, rfl, rfl, rfl⟩) hw.readers
    | pin hashes =>
      obtain ⟨st, hi, rfl⟩ := map_eq_some_iff.mp ht
      obtain ⟨-, recs, hw⟩ := h.idle hi
      refine h.resume hc rfl rfl ⟨recs, ?_⟩
      exact hw.congr rfl (fun _ e he => ⟨e, he, rfl, rfl, rfl⟩) hw.readers
    | dropGuard i =>
      simp only [ChunkStore.step] at ht
      split at ht
      · rename_i p hashes hp hg
        cases ht
        obtain ⟨recs, hw⟩ := h.running p hp
        refine h.resume hc rfl rfl ⟨recs, ?_⟩
        exact hw.congr rfl (fun _ e he => ⟨e, he, rfl, rfl, rfl⟩) hw.readers
      · cases ht
    | quit =>
      cases ht
      cases hp : m.state.process with
      | some p =>
        obtain ⟨recs, hw⟩ := h.running p hp
        simp only [memory, hp, map_some]
        exact survives_op (m := m) hc hw (by rintro _ ⟨⟩)
      | none =>
        simp only [memory, hp, map_none]
        refine ⟨hc, h.packs, (by rintro _ ⟨⟩), fun _ hash hm => ?_⟩
        exact h.owed hp hash hm

omit h

/-- If every admitted frame is intact and the store is opened only on directories without a stale
index, a chunk that was durable in the map when the process stopped is readable after the next open,
whatever is left of the bytes that were not fsynced. -/
theorem durable_chunks_survive_if_verified (intact : Bytes → Hash → Bool) {m m' : Machine} {p : Process}
    {budget : ℕ} {outcomes : List Outcome} (h : (system intact).ReachableIf (Verified intact) m)
    (hs : step intact m (.op (.start budget outcomes)) = some m') (hp : m'.state.process = some p) :
    ∀ hash ∈ m.owed, Readable intact p.store m'.state.dir hash := by
  have hm : Survives intact m := by
    refine h.invariant ?_ fun _ _ _ hi hv hs => survives_step hi hv hs
    rintro _ rfl
    exact survives_empty
  intro hash ho
  obtain ⟨t, ht, rfl⟩ := map_eq_some_iff.mp hs
  obtain ⟨⟨recs, hw⟩, hfound⟩ := (start_spec hm ht).1 p hp
  obtain ⟨e, he⟩ := ne_none_iff_exists'.mp (hfound hash ho)
  obtain ⟨data, frame, hd, hr, hin⟩ := hw.read he
  exact ⟨e, data, frame, he, hd, hr, hin⟩

/-! ### Two crashes -/

private def threes : Hash := ⟨replicate 32 3, rfl⟩

private def fours : Hash := ⟨replicate 32 4, rfl⟩

/-- Of the frames below, `[1]` is intact and `[0]` is not. -/
private def isOne : Bytes → Hash → Bool := fun frame _ => frame == [1]

private def verified (m : Machine) : Event → Bool
  | .op (.insert hash frame _) => isOne frame hash
  | .op (.start budget outcomes) => noStaleIndex m.state (.start budget outcomes)
  | _ => true

private theorem verified_sound (m : Machine) (ev : Event) (h : verified m ev = true) : Verified isOne m ev := by
  match ev with
  | .op (.insert hash frame outcomes) => exact h
  | .op (.start budget outcomes) => exact noStaleIndex_sound m.state (.start budget outcomes) h
  | .op (.evict _) | .op (.locate _ _) | .op (.peek _ _) | .op (.forget _) | .op (.pin _) | .op (.dropGuard _)
  | .op .quit | .lose _ _ => trivial

/-- The process stops in the middle of a copy, and of the bytes after the fsynced ones two are
left, with other values: the chunk before them is found. -/
theorem durable_chunks_survive_torn_copy : ∃ m m' p, (system isOne).ReachableIf (Verified isOne) m ∧
    step isOne m (.op (.start 0 [])) = some m' ∧ m'.state.process = some p ∧ threes ∈ m.owed ∧
    m.state.dir.content (.pack 2) = some (record threes [1] ++ [9, 9]) ∧
    Readable isOne p.store m'.state.dir threes := by
  obtain ⟨m, hm, h⟩ := (system isOne).exists_reachableIf_of_exec verified verified_sound .empty
    [.op (.start 0 []), .op (.pin [threes, fours]), .op (.insert threes [1] []), .op (.evict []), .op (.evict []),
      .op (.insert fours [1] []), .op (.evict (replicate 9 .ok ++ [.stop 20])),
      .lose 4 (record threes [1] ++ [9, 9])]
    (fun m => (step isOne m (.op (.start 0 []))).any fun m' => m'.state.process.isSome && threes ∈ m.owed &&
      m.state.dir.content (.pack 2) == some (record threes [1] ++ [9, 9])) rfl (by decide +kernel)
  obtain ⟨m', hs, h⟩ := (any_eq_true _ _).mp h
  simp only [Bool.and_eq_true, decide_eq_true_eq, beq_iff_eq] at h
  obtain ⟨⟨hp, ho⟩, hc⟩ := h
  obtain ⟨p, hp⟩ := isSome_iff_exists.mp hp
  exact ⟨m, m', p, hm, hs, hp, ho, hc, durable_chunks_survive_if_verified isOne hm hs hp threes ho⟩

/-- A frame that is not intact was admitted and copied first: the scan of the pack stops at it, and
the intact frame that was copied and fsynced after it is gone. -/
theorem durable_chunk_lost_behind_bad_frame : ∃ m m' p, (system isOne).Reachable m ∧
    step isOne m (.op (.start 0 [])) = some m' ∧ m'.state.process = some p ∧ fours ∈ m.owed ∧
    ¬ Readable isOne p.store m'.state.dir fours := by
  obtain ⟨m, hm, h⟩ := (system isOne).exists_reachable_of_exec .empty
    [.op (.start 0 []), .op (.pin [threes, fours]), .op (.insert threes [0] []), .op (.evict []), .op (.evict []),
      .op (.insert fours [1] []), .op (.evict []), .op .quit]
    (fun m => (step isOne m (.op (.start 0 []))).any fun m' => fours ∈ m.owed &&
      m'.state.process.any fun p => p.store.map.lookup fours == none) rfl (by decide +kernel)
  obtain ⟨m', hs, h⟩ := (any_eq_true _ _).mp h
  obtain ⟨ho, h⟩ := Bool.and_eq_true_iff.mp h
  obtain ⟨p, hp, hl⟩ := (any_eq_true _ _).mp h
  refine ⟨m, m', p, hm, hs, hp, of_decide_eq_true ho, ?_⟩
  rintro ⟨e, -, -, he, -⟩
  rw [eq_of_beq hl] at he
  cases he

end Tribuchet.ChunkStore.Crash
