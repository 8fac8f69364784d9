import Tribuchet.ChunkStore.Crash

/-! A running store to which only intact frames are admitted. Every record of every pack
is then intact, the map names such records only, and the index of a pack lists its
records, wherever an operation fails or the process stops. -/

namespace Tribuchet.ChunkStore.Crash

open ByteStrings Filesystem Hoare Runs Function List Option Table Directory

variable {α : Type} {allowed : Outcome → Prop} {intact : Bytes → Hash → Bool} {recs : ℕ → List (Hash × Bytes)}
  {d d' : Directory FileName} {s s' : Store} {K : ℕ → Prop} {full : Queue → Prop} {id : ℕ}
  {rs : List (Hash × Bytes)}

/-- The pack holds these records, and its index, if it has one, lists them. -/
structure Holds (intact : Bytes → Hash → Bool) (d : Directory FileName) (id : ℕ) (rs : List (Hash × Bytes)) :
    Prop where
  data : ∃ tail, d.content (.pack id) = some (encodeRecords rs ++ tail)
  index : ∀ idx, d.content (.index id) = some idx → idx = encodeIndex (entriesOf 0 rs)
  intact : Intact intact rs

theorem Holds.onlyPack {id' : ℕ} (h : Holds intact d id rs) (ho : OnlyPack id' d d') (hid : id ≠ id') :
    Holds intact d' id rs := by
  have hp : d'.content (.pack id) = d.content (.pack id) := ho.content (.pack id) hid
  have hi : d'.content (.index id) = d.content (.index id) := ho.content (.index id) hid
  exact ⟨by rw [hp]; exact h.data, by rw [hi]; exact h.index, h.intact⟩

theorem Holds.file (h : Holds intact d id rs) : d.file (.pack id) ≠ none := by
  obtain ⟨tail, ht⟩ := h.data
  intro hn
  rw [content_eq_none.mpr hn] at ht
  cases ht

/-- A running store none of whose packs has a frame that is not intact. -/
structure Whole (intact : Bytes → Hash → Bool) (recs : ℕ → List (Hash × Bytes)) (s : Store)
    (d : Directory FileName) : Prop where
  packs : ∀ id, d.file (.pack id) ≠ none → Holds intact d id (recs id)
  writers : ∀ q w, s.writer q = some w → ∃ tail, Writes d w (recs w.id) tail
  map : ∀ hash e, s.map.lookup hash = some e →
    d.file (.pack e.pack) ≠ none ∧ (⟨hash, e.offset, e.len⟩ : IndexEntry) ∈ entriesOf 0 (recs e.pack)
  readers : ∀ id i, s.readers.lookup id = some i → d.file (.pack id) = some i

variable (h : Whole intact recs s d)

include h

theorem Whole.congr (hw : s'.writer = s.writer)
    (hm : ∀ hash e, s'.map.lookup hash = some e →
      ∃ e', s.map.lookup hash = some e' ∧ e'.pack = e.pack ∧ e'.offset = e.offset ∧ e'.len = e.len)
    (hr : ∀ id i, s'.readers.lookup id = some i → d.file (.pack id) = some i) : Whole intact recs s' d := by
  refine ⟨h.packs, by rw [hw]; exact h.writers, fun hash e he => ?_, hr⟩
  obtain ⟨e', he', hp, ho, hl⟩ := hm hash e he
  rw [← hp, ← ho, ← hl]
  exact h.map hash e' he'

theorem Whole.setRecs (ho : OnlyPack id d d') (hh : Holds intact d' id rs)
    (hf : d.file (.pack id) ≠ none → d'.file (.pack id) = d.file (.pack id) ∧
      ∀ e ∈ entriesOf 0 (recs id), e ∈ entriesOf 0 rs)
    (hw : ∀ q w, s'.writer q = some w →
      w.id = id ∧ (∃ tail, Writes d' w rs tail) ∨ w.id ≠ id ∧ s.writer q = some w)
    (hm : ∀ hash e, s'.map.lookup hash = some e → s.map.lookup hash = some e ∨
      e.pack = id ∧ (⟨hash, e.offset, e.len⟩ : IndexEntry) ∈ entriesOf 0 rs)
    (hr : s'.readers = s.readers) : Whole intact (update recs id rs) s' d' := by
  refine ⟨fun id' hid => ?_, fun q w hq => ?_, fun hash e he => ?_, fun id' i hi => ?_⟩
  · rcases eq_or_ne id' id with rfl | hne
    · rw [update_self]
      exact hh
    · rw [update_of_ne hne]
      rw [ho.file (.pack id') hne] at hid
      exact (h.packs id' hid).onlyPack ho hne
  · rcases hw q w hq with ⟨rfl, hwrites⟩ | ⟨hne, hq⟩
    · rw [update_self]
      exact hwrites
    · rw [update_of_ne hne]
      obtain ⟨tail, ht⟩ := h.writers q w hq
      exact ⟨tail, ht.onlyPack ho hne⟩
  · rcases hm hash e he with he | ⟨hp, hmem⟩
    · obtain ⟨hfile, hmem⟩ := h.map hash e he
      rcases eq_or_ne e.pack id with hp | hne
      · rw [hp] at hfile hmem ⊢
        obtain ⟨hsame, hsub⟩ := hf hfile
        rw [update_self, hsame]
        exact ⟨hfile, hsub _ hmem⟩
      · rw [update_of_ne hne, ho.file (.pack e.pack) hne]
        exact ⟨hfile, hmem⟩
    · rw [hp, update_self]
      exact ⟨hh.file, hmem⟩
  · rw [hr] at hi
    have hfile := h.readers id' i hi
    rcases eq_or_ne id' id with rfl | hne
    · rw [(hf (by rw [hfile]; simp)).1]
      exact hfile
    · rw [ho.file (.pack id') hne]
      exact hfile

/-! ### Appending and sealing -/

omit h in
theorem holds_of_writes {w : PackWriter} {tail : Bytes} (h : Writes d w rs tail) (hi : Intact intact rs) :
    Holds intact d w.id rs := by
  refine ⟨⟨tail, h.content⟩, fun idx hidx => ?_, hi⟩
  rw [content_eq_none.mpr h.unindexed] at hidx
  cases hidx

omit h in
theorem whole_activeWriter (q : Queue) (h : Whole intact recs s d) (hsafe : Safe K noQueue s d) :
    EndsFrom allowed (activeWriter q) s d
      (fun _ s' d' => ∃ recs', Whole intact recs' s' d' ∧ s'.map = s.map)
      (fun _ s' d' => ∃ recs', Whole intact recs' s' d') := by
  have hfresh := hsafe.fresh s.nextId le_rfl
  refine activeWriter_rule hfresh (fun _ _ => ⟨recs, h, rfl⟩) (fun _ w d' hid _ hw ho _ => ?_)
    fun _ _ => ⟨recs, h.congr rfl (fun _ e he => ⟨e, he, rfl, rfl, rfl⟩) h.readers⟩
  refine ⟨update recs s.nextId [], ?_, by cases q <;> rfl⟩
  rw [← hid] at ho hfresh ⊢
  refine h.setRecs ho (holds_of_writes hw (by simp [Intact])) (fun hn => absurd hfresh.1 hn)
    (fun q' w' hq' => ?_) (fun hash e he => ?_) ?_
  · rw [writer_setWriter] at hq'
    split_ifs at hq' with hqq
    · cases hq'
      exact .inl ⟨rfl, [], hw⟩
    · have hlt := (hsafe.writers q' w' hq').1
      exact .inr ⟨by omega, hq'⟩
  · left
    cases q <;> exact he
  · cases q <;> rfl

omit h in
theorem whole_sealQueue (q : Queue) (h : Whole intact recs s d)
    (hd : ∀ q' w w', q' ≠ q → s.writer q = some w → s.writer q' = some w' → w'.id ≠ w.id) :
    EndsFrom allowed (sealQueue q) s d (fun _ s' d' => ∃ recs', Whole intact recs' s' d' ∧ s'.map = s.map)
      (fun _ s' d' => ∃ recs', Whole intact recs' s' d') := by
  refine sealQueue_rule (fun _ => ⟨recs, h, rfl⟩) fun w hq => ?_
  obtain ⟨tail, hw⟩ := h.writers q w hq
  have hin : Intact intact (recs w.id) := (h.packs w.id (by rw [hw.file]; simp)).intact
  have hset : ∀ {d'}, OnlyPack w.id d d' → d'.file (.pack w.id) = some w.file → Holds intact d' w.id (recs w.id) →
      Whole intact (update recs w.id (recs w.id)) (s.setWriter q none) d' := by
    intro d' ho hfile hh
    refine h.setRecs ho hh (fun _ => ⟨hfile.trans hw.file.symm, fun _ he => he⟩) (fun q' w' hq' => .inr ?_)
      (fun hash e he => .inl ?_) (by cases q <;> rfl)
    · rw [writer_setWriter] at hq'
      split_ifs at hq' with hqq
      exact ⟨hd q' w w' hqq hq hq', hq'⟩
    · cases q <;> exact he
  refine ⟨recs w.id, tail, hw, fun d' ho hfile hp hi _ => ⟨update recs w.id (recs w.id), ?_, by cases q <;> rfl⟩,
    fun e d' tail' _ ho hi hfile _ hp => ⟨_, hset ho hfile ⟨⟨tail', hp⟩, fun idx hidx => ?_, hin⟩⟩⟩
  · have h' := hset ho hfile ⟨⟨[], by simpa using hp⟩, fun idx hidx => by
      rw [hi, some.injEq] at hidx
      rw [← hidx, hw.entries], hin⟩
    refine h'.congr ?_ (fun hash e he => ⟨e, ?_, rfl, rfl, rfl⟩) ?_
    · funext q'
      cases q <;> cases q' <;> rfl
    · cases q <;> exact he
    · cases q <;> exact h'.readers
  · rw [content_eq_none.mpr hi] at hidx
    cases hidx

variable {hash : Hash}

omit h in
theorem whole_append (q : Queue) {bytes : Bytes} (freq : ℕ) (h : Whole intact recs s d)
    (hsafe : Safe K noQueue s d) (hi : intact bytes hash = true) : EndsFrom allowed (append q hash bytes freq) s d
      (fun _ s' d' => ∃ recs', Whole intact recs' s' d' ∧ ∃ e, s'.map = s.map.insert hash e ∧ ¬ K e.pack)
      (fun _ s' d' => ∃ recs', Whole intact recs' s' d') := by
  refine append_rule (((safe_activeWriter q hsafe).and (whole_activeWriter q h hsafe)).mono (fun _ _ _ h => h)
    fun _ _ _ h => h.2) ?_
  rintro w s₁ d₁ ⟨⟨hq, hsafe₁⟩, recs₁, h₁, hm₁⟩
  obtain ⟨tail, hw⟩ := h₁.writers q w hq
  have hin : Intact intact (recs₁ w.id) := (h₁.packs w.id (by rw [hw.file]; simp)).intact
  refine ⟨recs₁ w.id, tail, hw, fun _ => ⟨recs₁, h₁⟩, fun e d' tail' _ ho hw' => ?_, fun d' hb ho _ hw' t ht => ?_⟩
  · refine ⟨_, h₁.setRecs ho (holds_of_writes hw' hin) (fun _ => ⟨hw'.file.trans hw.file.symm, fun _ he => he⟩)
      (fun q' w' hq' => ?_) (fun _ _ he => .inl he) rfl⟩
    rcases eq_or_ne q' q with rfl | hqq
    · rw [hq, some.injEq] at hq'
      exact .inl ⟨by rw [hq'], tail', hq' ▸ hw'⟩
    · exact .inr ⟨hsafe₁.others_ne hq q' w' hqq hq', hq'⟩
  have hin' : Intact intact (recs₁ w.id ++ [(hash, bytes)]) := by
    intro r hr
    rcases mem_append.mp hr with hr | hr
    · exact hin r hr
    · rw [mem_singleton.mp hr]
      exact ⟨hb, hi⟩
  have hlast : (⟨hash, w.len + headerLen, bytes.length⟩ : IndexEntry) ∈
      entriesOf 0 (recs₁ w.id ++ [(hash, bytes)]) := by
    rw [entriesOf_append, hw.len]
    simp [entriesOf]
  have hp := pushed_pushRecord s₁ q w (w.push hash bytes) hash ⟨w.id, w.len + headerLen, bytes.length, freq⟩
  rw [← ht] at hp
  have ht' : Whole intact (update recs₁ w.id (recs₁ w.id ++ [(hash, bytes)])) t d' := by
    refine h₁.setRecs ho (holds_of_writes (w := w.push hash bytes) hw' hin') (fun _ => ⟨hw'.file.trans hw.file.symm, fun e he => ?_⟩)
      (fun q' w' hq' => ?_) (fun hash' e he => ?_) hp.readers
    · rw [entriesOf_append]
      exact mem_append_left _ he
    · rw [hp.writer] at hq'
      split_ifs at hq' with hqq
      · cases hq'
        exact .inl ⟨rfl, _, hw'⟩
      · exact .inr ⟨hsafe₁.others_ne hq q' w' hqq hq', hq'⟩
    · rw [hp.map, lookup_insert_eq] at he
      split_ifs at he with heq
      · cases he
        subst heq
        exact .inr ⟨rfl, hlast⟩
      · exact .inl he
  have hnew : ∃ e, t.map = s.map.insert hash e ∧ ¬ K e.pack := by
    refine ⟨_, by rw [hp.map, hm₁], fun hK => ?_⟩
    exact (hsafe₁.retirable w.id (.inr (.inr hK))).2 q w hq rfl
  refine ⟨fun _ => (whole_sealQueue q ht' fun q' w₁ w₂ hne h₁' h₂' => ?_).mono ?_ fun _ _ _ h => h,
    fun _ => ⟨_, ht', hnew⟩⟩
  · rw [hp.writer, if_pos rfl, some.injEq] at h₁'
    rw [hp.writer, if_neg hne] at h₂'
    subst h₁'
    exact hsafe₁.others_ne hq q' w₂ hne h₂'
  · rintro _ s₂ d₂ ⟨recs₂, h₂, hm₂⟩
    rw [hm₂]
    exact ⟨recs₂, h₂, hnew⟩

/-! ### Reading -/

theorem Whole.eraseReader (id : ℕ) :
    Whole intact recs { s with readers := s.readers.erase id } d := by
  refine h.congr rfl (fun _ e he => ⟨e, he, rfl, rfl, rfl⟩) fun id' i hi => ?_
  rw [lookup_erase_eq] at hi
  split_ifs at hi
  exact h.readers id' i hi

omit h in
theorem whole_reader (pack : ℕ) (h : Whole intact recs s d) : EndsFrom allowed (reader pack) s d
    (fun file s' d' => d' = d ∧ d.file (.pack pack) = some file ∧ Whole intact recs s' d ∧ s'.map = s.map ∧
      s'.core = s.core)
    (fun _ s' d' => d' = d ∧ Whole intact recs s' d ∧ s'.core = s.core) := by
  refine reader_rule (fun file hl => ⟨rfl, h.readers pack file hl, h, rfl, rfl⟩) (fun file hf => ⟨rfl, hf, ?_, rfl, rfl⟩)
    fun _ _ => ⟨rfl, h, rfl⟩
  refine h.congr rfl (fun _ e he => ⟨e, he, rfl, rfl, rfl⟩) fun id i hi => ?_
  rw [lookup_insert_eq] at hi
  split_ifs at hi with hid
  · rw [hid, hf]
    exact hi
  · exact h.readers id i hi

theorem Whole.read {e : Entry} (hl : s.map.lookup hash = some e) :
    ∃ data frame, d.content (.pack e.pack) = some data ∧ readExact data e.offset e.len = some frame ∧
      intact frame hash = true := by
  obtain ⟨hfile, hmem⟩ := h.map hash e hl
  have hh := h.packs e.pack hfile
  obtain ⟨tail, hdata⟩ := hh.data
  obtain ⟨before, frame, after, hsplit, ho, hlen⟩ := exists_record_of_mem hmem
  have hdes : Designates (encodeRecords (recs e.pack) ++ tail) ⟨hash, e.offset, e.len⟩ frame := by
    rw [hsplit]
    exact ⟨before, encodeRecords after ++ tail, by simp, ho, hlen⟩
  exact ⟨_, frame, hdata, hdes.read, (hh.intact (hash, frame) (by rw [hsplit]; simp)).2⟩

theorem whole_frame {e : Entry} (hl : s.map.lookup hash = some e) :
    EndsFrom allowed (frame e.pack e.offset e.len) s d
      (fun bytes s' d' => d' = d ∧ intact bytes hash = true ∧ Whole intact recs s' d ∧ s'.map = s.map ∧
        s'.core = s.core)
      (fun _ s' d' => d' = d ∧ Whole intact recs s' d ∧ s'.core = s.core) := by
  obtain ⟨data, bytes, hdata, hread, hi⟩ := h.read hl
  refine frame_rule (whole_reader e.pack h) ?_ ?_
  · rintro file s₁ _ bs ⟨rfl, hfile, h₁, hm₁, hc₁⟩ hb
    rw [content_of_file hfile, some.injEq] at hdata
    rw [hdata, hread, some.injEq] at hb
    exact ⟨rfl, hb ▸ hi, h₁, hm₁, hc₁⟩
  · rintro file s₁ _ _ ⟨rfl, -, h₁, -, hc₁⟩ -
    exact ⟨⟨rfl, h₁, hc₁⟩, rfl, h₁.eraseReader e.pack, hc₁⟩

omit h

/-! ### Retiring a pack -/

def Kept (intact : Bytes → Hash → Bool) (K : ℕ → Prop) (s : Store) (d : Directory FileName) : Prop :=
  Safe K noQueue s d ∧ ∃ recs, Whole intact recs s d

/-- What the map still names in the pack that is being retired is to come. -/
structure Moving (intact : Bytes → Hash → Bool) (id : ℕ) (rest : List IndexEntry) (s : Store)
    (d : Directory FileName) : Prop where
  kept : Kept intact (· = id) s d
  coming : ∀ hash e, s.map.lookup hash = some e → e.pack = id → hash ∈ rest.map IndexEntry.hash

theorem Moving.next {x : IndexEntry} {rest : List IndexEntry} (h : Moving intact id (x :: rest) s d)
    (hk : Kept intact (· = id) s' d')
    (hm : ∀ hash e, s'.map.lookup hash = some e → e.pack = id → hash ≠ x.hash ∧ s.map.lookup hash = some e) :
    Moving intact id rest s' d' := by
  refine ⟨hk, fun hash e he hp => ?_⟩
  obtain ⟨hne, he⟩ := hm hash e he hp
  exact (mem_cons.mp (h.coming hash e he hp)).resolve_left hne

theorem Whole.erase (h : Whole intact recs s d) (hash : Hash) : Whole intact recs { s with map := s.map.erase hash } d := by
  refine h.congr rfl (fun hash' e he => ?_) h.readers
  rw [lookup_erase_eq] at he
  split_ifs at he
  exact ⟨e, he, rfl, rfl, rfl⟩

theorem moving_retireEntry (q : Queue) (promoted : Bool) {x : IndexEntry} {rest : List IndexEntry}
    (h : Moving intact id (x :: rest) s d) : EndsFrom allowed (retireEntry id q promoted x) s d
      (fun _ => Moving intact id rest) (fun _ => Kept intact (· = id)) := by
  obtain ⟨hsafe, recs, hwhole⟩ := h.kept
  refine retireEntry_rule (fun hx => h.next h.kept fun hash e he hp => ⟨?_, he⟩) (fun _ _ _ _ _ => ?_)
    (fun e hl _ => (whole_frame hwhole hl).mono (fun _ _ _ h => h) ?_) ?_
  · rintro rfl
    exact hx e he hp
  · -- cold and unpinned: it leaves the map
    obtain ⟨-, hr, hm, -⟩ := dropEntry_fields s q x.hash
    have hcore := core_dropEntry s q x.hash
    have hw : (s.dropEntry q x.hash).writer = s.writer := by
      simp only [Store.core, Prod.mk.injEq] at hcore
      obtain ⟨h1, h2, -⟩ := hcore
      funext q'
      cases q' <;> assumption
    have herased : ∀ hash e, (s.dropEntry q x.hash).map.lookup hash = some e →
        hash ≠ x.hash ∧ s.map.lookup hash = some e := by
      intro hash e he
      rw [hm, lookup_erase_eq] at he
      split_ifs at he with hne
      exact ⟨hne, he⟩
    refine h.next ⟨hsafe.congr hcore, recs, hwhole.congr hw (fun hash e he => ?_)
      (by rw [hr]; exact hwhole.readers)⟩ fun hash e he _ => herased hash e he
    exact ⟨e, (herased hash e he).2, rfl, rfl, rfl⟩
  · rintro _ s' _ ⟨rfl, h', hc'⟩
    exact ⟨hsafe.congr hc', recs, h'⟩
  · -- hot or pinned: an intact frame is copied forward, into a pack that is not this one
    rintro _ bytes s₁ _ freq - - - ⟨rfl, hi, h₁, hm₁, hc₁⟩
    have hsafe₁ : Safe (· = id) noQueue { s₁ with map := s₁.map.erase x.hash } _ := hsafe.congr hc₁
    refine ((safe_append .main x.hash bytes freq hsafe₁).and
      (whole_append .main freq (h₁.erase x.hash) hsafe₁ hi)).mono ?_ fun _ _ _ h => h
    rintro - s₂ d₂ ⟨hsafe₂, recs₂, h₂, e₂, hm₂, hpack₂⟩
    refine h.next ⟨hsafe₂, recs₂, h₂⟩ fun hash e he hp => ?_
    rw [hm₂, lookup_insert_eq] at he
    split_ifs at he with hne
    · cases he
      exact absurd hp hpack₂
    · rw [lookup_erase_eq, if_neg hne, hm₁] at he
      exact ⟨hne, he⟩

theorem Holds.decodeIndex (h : Holds intact d id rs) (hok : PackOk d id) {idx : Bytes}
    (hi : d.content (.index id) = some idx) : ChunkStore.decodeIndex idx = entriesOf 0 rs := by
  obtain ⟨tail, hdata⟩ := h.data
  have hlen := hok.bounded _ hdata
  rw [length_append] at hlen
  have hmax := maxPackLen_lt
  rw [h.index idx hi, decodeIndex_encodeIndex (inBounds_entriesOf (fun r hr => (h.intact r hr).1) (by omega))]

theorem Whole.unlink {n : FileName} (h : Whole intact recs s d) (hw : ∀ q w, s.writer q = some w → w.id ≠ n.id)
    (hm : ∀ hash e, s.map.lookup hash = some e → e.pack ≠ n.id) (hr : s.readers.lookup n.id = none) :
    Whole intact recs s (d.unlink n) := by
  have ho := onlyPack_unlink (d := d) n
  refine ⟨fun id hid => ?_, fun q w hq => ?_, fun hash e he => ?_, fun id i hi => ?_⟩
  · have hn : FileName.pack id ≠ n := by
      rintro rfl
      rw [file_unlink, if_pos rfl] at hid
      exact hid rfl
    rw [file_unlink, if_neg hn] at hid
    have hh := h.packs id hid
    refine ⟨?_, fun idx hidx => ?_, hh.intact⟩
    · rw [content_unlink, if_neg hn]
      exact hh.data
    · rw [content_unlink] at hidx
      split_ifs at hidx
      exact hh.index idx hidx
  · obtain ⟨tail, ht⟩ := h.writers q w hq
    exact ⟨tail, ht.onlyPack ho (hw q w hq)⟩
  · rw [ho.file (.pack e.pack) (hm hash e he)]
    exact h.map hash e he
  · rw [ho.file (.pack id)]
    · exact h.readers id i hi
    · rintro rfl
      change s.readers.lookup n.id = some i at hi
      rw [hr] at hi
      cases hi

theorem whole_removePack (h : Whole intact recs s d) (hw : ∀ q w, s.writer q = some w → w.id ≠ id)
    (hm : ∀ hash e, s.map.lookup hash = some e → e.pack ≠ id) : EndsFrom allowed (removePack id) s d
      (fun _ s' d' => ∃ recs', Whole intact recs' s' d') (fun _ s' d' => ∃ recs', Whole intact recs' s' d') := by
  have h₁ := h.eraseReader id
  have hr : (s.readers.erase id).lookup id = none := by rw [lookup_erase_eq, if_pos rfl]
  have h₂ := h₁.unlink (n := .pack id) hw hm hr
  exact removePack_rule rfl (fun _ _ => ⟨recs, h₁⟩) (fun _ _ => ⟨⟨recs, h₂⟩, recs, h₂⟩)
    ⟨recs, h₂.unlink (n := .index id) hw hm hr⟩

theorem kept_retire (q : Queue) (h : Kept intact (· = id) s d) : EndsFrom allowed (retire id q) s d
    (fun _ => Kept intact fun _ => False) (fun _ => Kept intact fun _ => False) := by
  have hsafe : EndsFrom allowed (retire id q) s d (fun _ => Safe (fun _ => False) noQueue)
      (fun _ => Safe (fun _ => False) noQueue) :=
    (safe_retire (K := (· = id)) q rfl h.1).mono (fun _ _ _ h => h.mono (fun _ hk => hk.elim) fun _ hf => hf)
      fun _ _ _ h => h.mono (fun _ hk => hk.elim) fun _ hf => hf
  have hrest : EndsFrom allowed (retire id q) s d (fun _ s' d' => ∃ recs', Whole intact recs' s' d')
      (fun _ s' d' => ∃ recs', Whole intact recs' s' d') := by
    refine retire_rule (I := fun entries => Moving intact id entries) (fun idx hidx => ⟨h, fun hash e he hp => ?_⟩)
      (fun _ _ => h.2) (fun x rest promoted _ _ h => (moving_retireEntry q promoted h).mono (fun _ _ _ h => h)
        fun _ _ _ h => h.2) (fun _ _ h _ => h.kept.2) ?_
    · obtain ⟨hsafe', recs, hw⟩ := h
      obtain ⟨hfile, hmem⟩ := hw.map hash e he
      rw [hp] at hfile hmem
      rw [(hw.packs id hfile).decodeIndex (hsafe'.packs id) hidx]
      exact mem_map_of_mem hmem
    rintro s₂ d₂ size _ h₂ - rfl
    obtain ⟨hsafe₂, recs₂, hw₂⟩ := h₂.kept
    have h₃ : Whole intact recs₂ ({ s₂ with packs := s₂.packs.erase id }.setBytes q (· - size)) d₂ := by
      refine hw₂.congr ?_ (fun _ e he => ⟨e, ?_, rfl, rfl, rfl⟩) ?_
      · funext q'
        cases q <;> cases q' <;> rfl
      · cases q <;> exact he
      · cases q <;> exact hw₂.readers
    refine ⟨fun _ _ => ⟨recs₂, h₃⟩, whole_removePack h₃ (fun q' w hq' => ?_) fun hash e he hp => ?_⟩
    · refine (hsafe₂.retirable id (.inr (.inr rfl))).2 q' w ?_
      cases q <;> cases q' <;> exact hq'
    · have he' : s₂.map.lookup hash = some e := by cases q <;> exact he
      cases h₂.coming hash e he' hp
  exact (hsafe.and hrest).mono (fun _ _ _ h => h) fun _ _ _ h => h

/-! ### The other operations -/

theorem kept_retire_front {s' : Store} (q : Queue) (h : Kept intact (fun _ => False) s d)
    (hs : s'.core = (s.activeSmall, s.activeMain, s'.small, s'.main, s.nextId, s.sealBytes))
    (hrest : s'.readers = s.readers ∧ s'.map = s.map)
    (hperm : (s.small ++ s.main).Perm (id :: (s'.small ++ s'.main))) : EndsFrom allowed (retire id q) s' d
      (fun _ => Kept intact fun _ => False) (fun _ => Kept intact fun _ => False) := by
  obtain ⟨hsafe, recs, hw⟩ := h
  refine kept_retire q ⟨(hsafe.popFront hs hperm).mono (fun _ hk => .inr hk) fun _ hf => hf, recs,
    hw.congr ?_ (fun _ e he => ⟨e, hrest.2 ▸ he, rfl, rfl, rfl⟩) (hrest.1 ▸ hw.readers)⟩
  simp only [Store.core, Prod.mk.injEq] at hs
  obtain ⟨h1, h2, -⟩ := hs
  funext q'
  cases q' <;> assumption

theorem kept_sealQueue (q : Queue) (h : Kept intact K s d) : EndsFrom allowed (sealQueue q) s d
    (fun _ => Kept intact K) (fun _ => Kept intact K) := by
  obtain ⟨hsafe, recs, hw⟩ := h
  refine ((safe_sealQueue_unfull q hsafe).and (whole_sealQueue q hw fun q' w w' hne hq hq' =>
    hsafe.others_ne hq q' w' hne hq')).mono ?_ fun _ _ _ h => h
  rintro _ s' d' ⟨hsafe', recs', hw', -⟩
  exact ⟨hsafe', recs', hw'⟩

theorem kept_evictTurn (n : ℕ) (h : Kept intact (fun _ => False) s d) : EndsFrom allowed (evictTurn n) s d
    (fun _ => Kept intact fun _ => False) (fun _ => Kept intact fun _ => False) := by
  refine evictTurn_rule n h (fun q _ _ h => kept_sealQueue q h) (fun _ _ h => h)
    (fun s d id rest h hm => kept_retire_front .small h rfl ⟨rfl, rfl⟩ ?_)
    fun s d id rest h hm => kept_retire_front .main h rfl ⟨rfl, rfl⟩ ?_
  · rw [hm]
    exact Perm.refl _
  · rw [hm]
    exact perm_middle

theorem kept_insert {bytes : Bytes} (h : Kept intact (fun _ => False) s d)
    (hi : intact bytes hash = true) : EndsFrom allowed (insertFrame hash bytes) s d
      (fun _ => Kept intact fun _ => False) (fun _ => Kept intact fun _ => False) := by
  unfold insertFrame
  refine endsFrom_getStore ?_
  split_ifs
  · exact endsFrom_pure h
  · obtain ⟨hsafe, recs, hw⟩ := h
    refine endsFrom_modifyStore ?_
    have hw' : Whole intact recs (s.ghostRemove hash).2 d :=
      hw.congr rfl (fun _ e he => ⟨e, he, rfl, rfl, rfl⟩) hw.readers
    have hsafe' : Safe (fun _ => False) noQueue (s.ghostRemove hash).2 d := hsafe.congr rfl
    refine EndsFrom.bind (((safe_append _ hash bytes 0 hsafe').and (whole_append _ 0 hw' hsafe' hi)).mono
      (fun _ _ _ h => h) fun _ _ _ h => h) ?_
    rintro _ s₁ d₁ ⟨hsafe₁, recs₁, h₁, -⟩
    exact endsFrom_pure ⟨hsafe₁, recs₁, h₁⟩

theorem kept_peek (hash : Hash) (h : Kept intact K s d) : EndsFrom allowed (peek hash) s d
    (fun _ => Kept intact K) (fun _ => Kept intact K) := by
  obtain ⟨hsafe, recs, hw⟩ := h
  refine (safe_peek hash hsafe).and (R := fun _ s' d' => ∃ recs, Whole intact recs s' d') (peek_rule (fun _ => ⟨recs, hw⟩)
    fun entry _ => (whole_reader entry.pack hw).mono ?_ ?_)
  · rintro file s' _ ⟨rfl, -, h', -⟩
    exact ⟨recs, h'⟩
  · rintro _ s' _ ⟨rfl, h', -⟩
    exact ⟨⟨recs, h'⟩, recs, h'⟩

theorem kept_locate (hash : Hash) (h : Kept intact K s d) : EndsFrom allowed (locate hash) s d
    (fun _ => Kept intact K) (fun _ => Kept intact K) := by
  unfold locate
  refine endsFrom_getStore ?_
  split
  · exact endsFrom_pure h
  · rename_i entry hl
    obtain ⟨hsafe, recs, hw⟩ := h
    refine endsFrom_modifyStore (kept_peek hash ⟨hsafe.congr rfl, recs, hw.congr rfl (fun hash' e he => ?_) hw.readers⟩)
    rw [lookup_insert_eq] at he
    split_ifs at he with heq
    · cases he
      exact ⟨entry, heq ▸ hl, rfl, rfl, rfl⟩
    · exact ⟨e, he, rfl, rfl, rfl⟩

end Tribuchet.ChunkStore.Crash
