import Tribuchet.ChunkStore.Sealed

/-! A store none of whose file operations fail. Every hash in the map names a record
of a sealed or active pack with the frame it was admitted with, and bytes of a pack
file, once written, are never changed, also after the file is unlinked. -/

namespace Tribuchet.ChunkStore

open ByteStrings Filesystem Hoare List Option Table Store

variable {d d' : Directory FileName} {s s' : Store} {K : ℕ → Prop} {full : Queue → Prop}
  {A : Hash → Option Bytes}

def quiet : Outcome → Prop := (· = .ok)

theorem not_faulty_quiet : ¬ Faulty quiet := fun ⟨_, ho, hn⟩ => hn ho

structure SealedPack (d : Directory FileName) (id : ℕ) (rs : List (Hash × Bytes)) : Prop where
  pack : d.content (.pack id) = some (encodeRecords rs)
  index : d.content (.index id) = some (encodeIndex (entriesOf 0 rs))
  frames : ∀ r ∈ rs, r.2.length < 2 ^ 32
  len : (encodeRecords rs).length ≤ maxPackLen

variable {rs : List (Hash × Bytes)}

theorem SealedPack.onlyPack {id id' : ℕ} (h : SealedPack d id rs)
    (ho : OnlyPack id' d d') (hid : id ≠ id') : SealedPack d' id rs :=
  ⟨(ho.content (.pack id) hid).trans h.pack, (ho.content (.index id) hid).trans h.index, h.frames, h.len⟩

def Records (s : Store) (d : Directory FileName) (id : ℕ) (rs : List (Hash × Bytes)) : Prop :=
  s.packs.lookup id ≠ none ∧ SealedPack d id rs ∨ ∃ q w, s.writer q = some w ∧ w.id = id ∧ Writes d w rs []

/-- Every hash in the map has the frame `A` says, in a record of its pack. -/
def Resident (A : Hash → Option Bytes) (s : Store) (d : Directory FileName) : Prop :=
  ∀ hash e, s.map.lookup hash = some e → ∃ before frame after,
    Records s d e.pack (before ++ (hash, frame) :: after) ∧
      e.offset = (encodeRecords before).length + headerLen ∧ e.len = frame.length ∧ A hash = some frame

/-- The bookkeeping of packs. `K` names packs taken off their queue. -/
structure Tidy (K : ℕ → Prop) (s : Store) (d : Directory FileName) : Prop where
  packed : ∀ id, s.packs.lookup id ≠ none → id < s.nextId ∧ ∃ rs, SealedPack d id rs
  active : ∀ q w, s.writer q = some w → s.packs.lookup w.id = none ∧ ∃ rs, Writes d w rs []
  queued : ∀ id, id ∈ s.small ∨ id ∈ s.main ∨ K id → s.packs.lookup id ≠ none
  nodup : (s.small ++ s.main).Nodup
  outside : ∀ id, K id → id ∉ s.small ∧ id ∉ s.main
  readers : ∀ id i, s.readers.lookup id = some i → d.file (.pack id) = some i

structure Good (K : ℕ → Prop) (full : Queue → Prop) (A : Hash → Option Bytes) (s : Store)
    (d : Directory FileName) : Prop where
  safe : Safe K full s d
  tidy : Tidy K s d
  resident : Resident A s d

theorem Records.content {id : ℕ} (h : Records s d id rs) : d.content (.pack id) = some (encodeRecords rs) := by
  rcases h with ⟨-, h⟩ | ⟨q, w, -, rfl, h⟩
  · exact h.pack
  · simpa using h.content

theorem Resident.extend (h : Resident A s d) (hm : s'.map = s.map)
    (he : ∀ hash e rs, s.map.lookup hash = some e → Records s d e.pack rs →
      ∃ more, Records s' d' e.pack (rs ++ more)) : Resident A s' d' := by
  intro hash e hl
  rw [hm] at hl
  obtain ⟨before, frame, after, hr, ho, hlen, hA⟩ := h hash e hl
  obtain ⟨more, hr'⟩ := he hash e _ hl hr
  exact ⟨before, frame, after ++ more, by simpa using hr', ho, hlen, hA⟩

variable {hash : Hash}

theorem Resident.designates (h : Resident A s d) {e : Entry}
    (hl : s.map.lookup hash = some e) : ∃ i frame, d.file (.pack e.pack) = some i ∧ A hash = some frame ∧
      readExact (d.data i) e.offset e.len = some frame := by
  obtain ⟨before, frame, after, hr, ho, hlen, hA⟩ := h hash e hl
  obtain ⟨i, hi, hd⟩ := Directory.content_eq_some.mp hr.content
  refine ⟨i, frame, hi, hA, ?_⟩
  have hdes : Designates (d.data i) ⟨hash, e.offset, e.len⟩ frame :=
    ⟨before, encodeRecords after, by rw [hd]; simp, ho, hlen⟩
  exact hdes.read

theorem Good.congr (h : Good K full A s d) (hc : s'.core = s.core) (hp : s'.packs = s.packs)
    (hr : s'.readers = s.readers) (hm : s'.map = s.map) : Good K full A s' d := by
  have hc' := hc
  simp only [core, Prod.mk.injEq] at hc'
  obtain ⟨h1, h2, h3, h4, h5, h6⟩ := hc'
  have hw : s'.writer = s.writer := by
    funext q
    cases q <;> assumption
  have ht := h.tidy
  refine ⟨h.safe.congr hc, ⟨?_, ?_, ?_, ?_, ?_, ?_⟩, h.resident.extend hm fun hash e rs _ hrec => ⟨[], ?_⟩⟩
  · rw [hp, h5]
    exact ht.packed
  · rw [hw, hp]
    exact ht.active
  · rw [h3, h4, hp]
    exact ht.queued
  · rw [h3, h4]
    exact ht.nodup
  · rw [h3, h4]
    exact ht.outside
  · rw [hr]
    exact ht.readers
  · rw [append_nil]
    unfold Records at hrec ⊢
    rwa [hp, hw]

/-! ### Reading -/

def SameMap (s s' : Store) : Prop := s'.map = s.map ∧ s'.pins = s.pins ∧ s'.packs = s.packs

theorem good_reader {pack i : ℕ} (h : Good K full A s d) (hi : d.file (.pack pack) = some i) :
    EndsFrom quiet (reader pack) s d
      (fun file s' d' => file = i ∧ d' = d ∧ Good K full A s' d ∧ SameMap s s') (fun _ _ _ => False) := by
  refine reader_rule (fun file hl => ?_) (fun file hf => ?_) ?_
  · have := h.tidy.readers pack file hl
    rw [hi, some.injEq] at this
    exact ⟨this.symm, rfl, h, rfl, rfl, rfl⟩
  · refine ⟨some.inj (hf.symm.trans hi), rfl, ⟨h.safe.congr rfl, ?_, h.resident⟩, rfl, rfl, rfl⟩
    refine { h.tidy with readers := fun id j hj => ?_ }
    rw [lookup_insert_eq] at hj
    split_ifs at hj with hid
    · rw [hid, hf]
      exact hj
    · exact h.tidy.readers id j hj
  · rintro _ (⟨-, hn⟩ | ⟨hf, -⟩)
    · rw [hi] at hn
      cases hn
    · exact not_faulty_quiet hf

theorem good_frame {e : Entry} (h : Good K full A s d) (hl : s.map.lookup hash = some e) :
    EndsFrom quiet (frame e.pack e.offset e.len) s d
      (fun bytes s' d' => A hash = some bytes ∧ d' = d ∧ Good K full A s' d ∧ SameMap s s')
      (fun _ _ _ => False) := by
  obtain ⟨i, bytes, hi, hA, hread⟩ := h.resident.designates hl
  refine frame_rule (good_reader h hi) ?_ ?_
  · rintro file s' _ bs ⟨rfl, rfl, h', hsame⟩ hb
    rw [hread] at hb
    exact ⟨hA.trans hb, rfl, h', hsame⟩
  · rintro file s' _ _ ⟨rfl, rfl, -⟩ (⟨-, hn⟩ | ⟨hf, -⟩)
    · rw [hread] at hn
      cases hn
    · exact absurd hf not_faulty_quiet

theorem good_peek (h : Good K full A s d) : EndsFrom quiet (peek hash) s d
    (fun r s' d' => d' = d ∧ Good K full A s' d ∧ SameMap s s' ∧
      (∀ e, s.map.lookup hash = some e → r ≠ none) ∧
      ∀ ref, r = some ref → PackFile d ref.file ∧ ∃ bytes, A hash = some bytes ∧
        readExact (d.data ref.file) ref.offset ref.len = some bytes)
    (fun _ _ _ => False) := by
  refine peek_rule (fun hl => ⟨rfl, h, ⟨rfl, rfl, rfl⟩, by simp [hl], by simp⟩) fun e hl => ?_
  obtain ⟨i, bytes, hi, hA, hread⟩ := h.resident.designates hl
  refine (good_reader h hi).mono ?_ fun _ _ _ hf => hf.elim
  rintro _ s' _ ⟨rfl, rfl, h', hsame⟩
  refine ⟨rfl, h', hsame, by simp, ?_⟩
  rintro ref ⟨⟩
  refine ⟨⟨Directory.file_lt hi, fun n hn => ?_⟩, bytes, hA, hread⟩
  rw [Directory.file_inj hn hi]
  rfl

/-! ### Appending and sealing -/

/-- What appending leaves alone: bytes of pack files, pins and sealed packs. -/
structure Kept (s : Store) (d : Directory FileName) (s' : Store) (d' : Directory FileName) : Prop where
  grows : Grows d d'
  pins : s'.pins = s.pins
  packs : ∀ id, s.packs.lookup id ≠ none → s'.packs.lookup id ≠ none

theorem Kept.refl (s : Store) (d : Directory FileName) : Kept s d s d := ⟨.refl d, rfl, fun _ h => h⟩

theorem Kept.trans {s'' : Store} {d'' : Directory FileName} (h : Kept s d s' d') (h' : Kept s' d' s'' d'') :
    Kept s d s'' d'' :=
  ⟨h.grows.trans h'.grows, h'.pins.trans h.pins, fun id hid => h'.packs id (h.packs id hid)⟩

theorem Records.onlyPack {id id' : ℕ} (h : Records s d id rs)
    (ho : OnlyPack id' d d') (hid : id ≠ id') (hp : s.packs.lookup id ≠ none → s'.packs.lookup id ≠ none)
    (hw : ∀ q w, s.writer q = some w → w.id = id → s'.writer q = some w) : Records s' d' id rs := by
  rcases h with ⟨h1, h2⟩ | ⟨q, w, h1, rfl, h2⟩
  · exact .inl ⟨hp h1, h2.onlyPack ho hid⟩
  · exact .inr ⟨q, w, hw q w h1 rfl, rfl, h2.onlyPack ho hid⟩

variable {w : PackWriter}

theorem tidy_sealWriter {q : Queue} (h : Good K full A s d) (hq : s.writer q = some w)
    (hlen : ∀ rs, Writes d w rs [] → (encodeRecords rs).length ≤ maxPackLen) (ho : OnlyPack w.id d d')
    (hf : d'.file (.pack w.id) = some w.file) (hc : d'.content (.pack w.id) = d.content (.pack w.id))
    (hi : d'.content (.index w.id) = some (encodeIndex w.entries)) :
    Tidy K (s.sealWriter q w) d' ∧ Resident A (s.sealWriter q w) d' := by
  have ht := h.tidy
  obtain ⟨hnone, rs₀, hw₀⟩ := ht.active q w hq
  have hlook : ∀ id, (s.sealWriter q w).packs.lookup id = if id = w.id then some w.len else s.packs.lookup id := by
    intro id
    rw [packs_sealWriter, lookup_insert_eq]
  have hsealed : ∀ rs, Writes d w rs [] → SealedPack d' w.id rs := by
    intro rs hw
    refine ⟨by rw [hc, hw.content, append_nil], by rw [hi, hw.entries], hw.frames, hlen rs hw⟩
  have hqueued : ∀ id, id ∈ s.small ∨ id ∈ s.main ∨ K id → id ≠ w.id := by
    rintro id hid rfl
    exact ht.queued _ hid hnone
  have hmem : ∀ id, id ∈ (s.sealWriter q w).small ∨ id ∈ (s.sealWriter q w).main →
      (id ∈ s.small ∨ id ∈ s.main) ∨ id = w.id := by
    intro id hid
    cases q <;>
      simp only [sealWriter, setWriter, pushBack, mem_append, mem_singleton] at hid <;>
      tauto
  refine ⟨⟨fun id hid => ?_, fun q' w' hq' => ?_, fun id hid => ?_, ?_, fun id hid => ?_, fun id i hr => ?_⟩,
    h.resident.extend (by cases q <;> rfl) fun hash e rs _ hrec => ⟨[], ?_⟩⟩
  · have hnext : (s.sealWriter q w).nextId = s.nextId := by cases q <;> rfl
    rw [hlook] at hid
    rw [hnext]
    split_ifs at hid with heq
    · rw [heq]
      exact ⟨(h.safe.writers q w hq).1, rs₀, hsealed rs₀ hw₀⟩
    · obtain ⟨h1, rs, h2⟩ := ht.packed id hid
      exact ⟨h1, rs, h2.onlyPack ho heq⟩
  · rw [writer_sealWriter] at hq'
    split_ifs at hq' with hqq
    obtain ⟨h1, rs, h2⟩ := ht.active q' w' hq'
    have hne := h.safe.others_ne hq q' w' hqq hq'
    exact ⟨by rw [hlook, if_neg hne]; exact h1, rs, h2.onlyPack ho hne⟩
  · rw [hlook]
    split_ifs with heq
    · simp
    · refine ht.queued id ?_
      rcases hid with hid | hid | hid
      · exact ((hmem id (.inl hid)).resolve_right heq).imp_right .inl
      · exact ((hmem id (.inr hid)).resolve_right heq).imp_right .inl
      · exact .inr (.inr hid)
  · have hnew : w.id ∉ s.small ++ s.main := by
      intro hm
      rcases mem_append.mp hm with hm | hm
      · exact hqueued w.id (.inl hm) rfl
      · exact hqueued w.id (.inr (.inl hm)) rfl
    have hn := ht.nodup
    cases q with
    | small =>
      change ((s.small ++ [w.id]) ++ s.main).Nodup
      rw [append_assoc, singleton_append]
      exact nodup_middle.mpr (nodup_cons.mpr ⟨hnew, hn⟩)
    | main =>
      change (s.small ++ (s.main ++ [w.id])).Nodup
      rw [← append_assoc]
      exact nodup_append_comm.mp (nodup_cons.mpr ⟨hnew, hn⟩)
  · have hne := hqueued id (.inr (.inr hid))
    obtain ⟨h1, h2⟩ := ht.outside id hid
    exact ⟨fun hm => (hmem id (.inl hm)).elim (fun hm => hm.elim h1 h2) hne,
      fun hm => (hmem id (.inr hm)).elim (fun hm => hm.elim h1 h2) hne⟩
  · have hr' : s.readers.lookup id = some i := by cases q <;> exact hr
    have hfile := ht.readers id i hr'
    rcases eq_or_ne id w.id with rfl | hne
    · rw [hf, ← hw₀.file]
      exact hfile
    · rw [ho.file (.pack id) hne]
      exact hfile
  · rw [append_nil]
    rcases eq_or_ne e.pack w.id with heq | hne
    · rcases hrec with ⟨h1, -⟩ | ⟨q', w', hq', hid, hw'⟩
      · exact absurd (heq ▸ hnone) h1
      · have hqq : q' = q := by
          by_contra hqq
          exact h.safe.others_ne hq q' w' hqq hq' (hid.trans heq)
        subst hqq
        rw [hq, some.injEq] at hq'
        subst hq'
        refine .inl ⟨by rw [hlook, if_pos heq]; simp, ?_⟩
        rw [heq]
        exact hsealed rs hw'
    · refine hrec.onlyPack ho hne (fun hp => by rw [hlook, if_neg hne]; exact hp) fun q' w' hq' hid => ?_
      rw [writer_sealWriter, if_neg]
      · exact hq'
      · rintro rfl
        rw [hq, some.injEq] at hq'
        exact hne (hid.symm.trans (by rw [hq']))

theorem good_sealQueue (q : Queue) (h : Good K (· = q) A s d)
    (hb : ∀ w rs, s.writer q = some w → Writes d w rs [] → (encodeRecords rs).length ≤ maxPackLen) :
    EndsFrom quiet (sealQueue q) s d
      (fun _ s' d' => Good K noQueue A s' d' ∧ Kept s d s' d' ∧ s'.map = s.map) (fun _ _ _ => False) := by
  have hsafe : EndsFrom quiet (sealQueue q) s d (fun _ => Safe K noQueue) (fun _ => Safe K noQueue) := by
    refine safe_sealQueue q h.safe fun w rs tail hq hw => ?_
    obtain ⟨-, rs', hw'⟩ := h.tidy.active q w hq
    have hlen := hb w rs' hq hw'
    have hc := hw.content
    rw [hw'.content, some.injEq, append_nil] at hc
    rwa [hc, length_append] at hlen
  have hrest : EndsFrom quiet (sealQueue q) s d (fun _ s' d' => Tidy K s' d' ∧ Resident A s' d' ∧
      Kept s d s' d' ∧ s'.map = s.map) (fun _ _ _ => False) := by
    refine sealQueue_rule (fun _ => ⟨h.tidy, h.resident, .refl s d, rfl⟩) fun w hq => ?_
    obtain ⟨hnone, rs, hw⟩ := h.tidy.active q w hq
    refine ⟨rs, [], hw, fun d' ho hf hc hi hg => ?_, fun _ _ _ hf _ _ _ _ _ => not_faulty_quiet hf⟩
    obtain ⟨ht, hr⟩ := tidy_sealWriter h hq (fun rs => hb w rs hq) ho hf
      (by rw [hc, hw.content, append_nil]) hi
    refine ⟨ht, hr, ⟨hg rfl, by cases q <;> rfl, fun id hid => ?_⟩, by cases q <;> rfl⟩
    rw [packs_sealWriter, lookup_insert_eq]
    split_ifs
    · simp
    · exact hid
  exact (hsafe.and hrest).mono
    (fun _ _ _ h => ⟨⟨h.1, h.2.1, h.2.2.1⟩, h.2.2.2.1, h.2.2.2.2⟩) fun _ _ _ h => h.2

theorem good_activeWriter (q : Queue) (h : Good K noQueue A s d) : EndsFrom quiet (activeWriter q) s d
    (fun w s' d' => s'.writer q = some w ∧ Good K noQueue A s' d' ∧ Kept s d s' d' ∧ s'.map = s.map ∧
      s'.packs = s.packs) (fun _ _ _ => False) := by
  have ht := h.tidy
  have hfresh := h.safe.fresh s.nextId le_rfl
  have hrest : EndsFrom quiet (activeWriter q) s d (fun _ s' d' => Tidy K s' d' ∧ Resident A s' d' ∧
      Kept s d s' d' ∧ s'.map = s.map ∧ s'.packs = s.packs) (fun _ _ _ => False) := by
    refine activeWriter_rule hfresh (fun _ _ => ⟨ht, h.resident, .refl s d, rfl, rfl⟩)
      (fun hq w d' hid _ hw ho hg => ?_) fun hf _ => not_faulty_quiet hf
    have hwr : ∀ q', ({ s with nextId := s.nextId + 1 }.setWriter q (some w)).writer q' =
        if q' = q then some w else s.writer q' := by
      intro q'
      rw [writer_setWriter]
      rfl
    have hold : ∀ q' w', s.writer q' = some w' → w'.id ≠ s.nextId := fun q' w' hq' =>
      ne_of_lt (h.safe.writers q' w' hq').1
    have hpacks : ∀ id, s.packs.lookup id ≠ none → id ≠ s.nextId := fun id hid =>
      ne_of_lt (ht.packed id hid).1
    have htidy : Tidy K ({ s with nextId := s.nextId + 1 }.setWriter q (some w)) d' := by
      refine ⟨fun id hid' => ?_, fun q' w' hq' => ?_, ?_, ?_, ?_, fun id i hr => ?_⟩
      · have hid₀ : s.packs.lookup id ≠ none := by cases q <;> exact hid'
        obtain ⟨h1, rs, h2⟩ := ht.packed id hid₀
        refine ⟨?_, rs, h2.onlyPack ho (hpacks id hid₀)⟩
        cases q <;> exact Nat.lt_succ_of_lt h1
      · rw [hwr] at hq'
        split_ifs at hq'
        · cases hq'
          refine ⟨?_, [], hw⟩
          have hnone : s.packs.lookup w.id = none := by
            by_contra hn
            exact hpacks w.id hn hid
          cases q <;> exact hnone
        · obtain ⟨h1, rs, h2⟩ := ht.active q' w' hq'
          refine ⟨?_, rs, h2.onlyPack ho (hold q' w' hq')⟩
          cases q <;> exact h1
      · cases q <;> exact ht.queued
      · cases q <;> exact ht.nodup
      · cases q <;> exact ht.outside
      · have hr' : s.readers.lookup id = some i := by cases q <;> exact hr
        have hfile := ht.readers id i hr'
        have hne : id ≠ s.nextId := by
          rintro rfl
          rw [hfresh.1] at hfile
          cases hfile
        rw [ho.file (.pack id) hne]
        exact hfile
    refine ⟨htidy, h.resident.extend (by cases q <;> rfl) fun hash e rs _ hrec => ⟨[], ?_⟩,
      ⟨hg, by cases q <;> rfl, fun id hid' => by cases q <;> exact hid'⟩, by cases q <;> rfl,
      by cases q <;> rfl⟩
    rw [append_nil]
    have hne : e.pack ≠ s.nextId := by
      rcases hrec with ⟨h1, -⟩ | ⟨q', w', hq', hid', -⟩
      · exact hpacks _ h1
      · rw [← hid']
        exact hold q' w' hq'
    refine hrec.onlyPack ho hne (fun hp => by cases q <;> exact hp) fun q' w' hq' _ => ?_
    rw [hwr, if_neg]
    · exact hq'
    · rintro rfl
      rw [hq] at hq'
      cases hq'
  exact ((safe_activeWriter q h.safe).and hrest).mono
    (fun _ _ _ h => ⟨h.1.1, ⟨h.1.2, h.2.1, h.2.2.1⟩, h.2.2.2⟩) fun _ _ _ h => h.2

theorem Writes.congr {rs' : List (Hash × Bytes)} {tail : Bytes} (h : Writes d w rs tail)
    (he : encodeRecords rs' = encodeRecords rs) (hx : entriesOf 0 rs' = entriesOf 0 rs)
    (hf : ∀ r ∈ rs', r.2.length < 2 ^ 32) : Writes d w rs' tail :=
  ⟨h.file, by rw [h.data, he], by rw [h.len, he], by rw [h.entries, hx], hf, h.tail_le, h.unindexed⟩

theorem Writes.push {bytes : Bytes} {rs' : List (Hash × Bytes)} (h : Writes d w rs []) (h' : Writes d w rs' [])
    (hp : Writes d' (w.push hash bytes) (rs ++ [(hash, bytes)]) []) :
    Writes d' (w.push hash bytes) (rs' ++ [(hash, bytes)]) [] := by
  have he : encodeRecords rs' = encodeRecords rs := by simpa using h'.data.symm.trans h.data
  have hx : entriesOf 0 rs' = entriesOf 0 rs := h'.entries.symm.trans h.entries
  refine hp.congr (by simp [he]) (by simp [entriesOf_append, he, hx]) fun r hr => ?_
  rcases mem_append.mp hr with hr | hr
  · exact h'.frames r hr
  · exact hp.frames r (mem_append_right _ hr)

theorem tidy_pushRecord {q : Queue} {bytes : Bytes} {freq : ℕ}
    {rs₀ : List (Hash × Bytes)} (h : Good K full A s d) (hq : s.writer q = some w) (hA : A hash = some bytes)
    (ho : OnlyPack w.id d d') (hw₀ : Writes d w rs₀ [])
    (hp : Writes d' (w.push hash bytes) (rs₀ ++ [(hash, bytes)]) []) {t : Store}
    (ht : t = s.pushRecord q w (w.push hash bytes) hash ⟨w.id, w.len + headerLen, bytes.length, freq⟩) :
    Tidy K t d' ∧ Resident A t d' := by
  have hnone := (h.tidy.active q w hq).1
  have hp' := pushed_pushRecord s q w (w.push hash bytes) hash ⟨w.id, w.len + headerLen, bytes.length, freq⟩
  rw [← ht] at hp'
  obtain ⟨hwr, hmap, hpacks, hreaders, -, hsmall, hmain, hnext, -⟩ := hp'
  have hrec : ∀ id rs, Records s d id rs → ∃ more, Records t d' id (rs ++ more) := by
    intro id rs hrec
    rcases eq_or_ne id w.id with rfl | hne
    · rcases hrec with ⟨h1, -⟩ | ⟨q', w', hq', hid, hw'⟩
      · exact absurd hnone h1
      · have hqq : q' = q := by
          by_contra hqq
          exact h.safe.others_ne hq q' w' hqq hq' hid
        subst hqq
        rw [hq, some.injEq] at hq'
        subst hq'
        exact ⟨[(hash, bytes)], .inr ⟨q', w.push hash bytes, by rw [hwr, if_pos rfl], rfl, hw₀.push hw' hp⟩⟩
    · refine ⟨[], ?_⟩
      rw [append_nil]
      refine hrec.onlyPack ho hne (by rw [hpacks]; exact fun h => h) fun q' w' hq' hid => ?_
      rw [hwr, if_neg]
      · exact hq'
      · rintro rfl
        rw [hq, some.injEq] at hq'
        exact hne (hid.symm.trans (by rw [hq']))
  refine ⟨⟨fun id hid => ?_, fun q' w' hq' => ?_, ?_, ?_, ?_, fun id i hr => ?_⟩, fun h' e he => ?_⟩
  · rw [hpacks] at hid
    obtain ⟨h1, rs, h2⟩ := h.tidy.packed id hid
    have hne : id ≠ w.id := by
      rintro rfl
      exact hid hnone
    exact ⟨hnext ▸ h1, rs, h2.onlyPack ho hne⟩
  · rw [hwr] at hq'
    rw [hpacks]
    split_ifs at hq' with hqq
    · cases hq'
      exact ⟨hnone, _, hp⟩
    · obtain ⟨h1, rs, h2⟩ := h.tidy.active q' w' hq'
      exact ⟨h1, rs, h2.onlyPack ho (h.safe.others_ne hq q' w' hqq hq')⟩
  · rw [hsmall, hmain, hpacks]
    exact h.tidy.queued
  · rw [hsmall, hmain]
    exact h.tidy.nodup
  · rw [hsmall, hmain]
    exact h.tidy.outside
  · rw [hreaders] at hr
    have hfile := h.tidy.readers id i hr
    rcases eq_or_ne id w.id with rfl | hne
    · rw [hw₀.file] at hfile
      exact hp.file.trans hfile
    · rw [ho.file (.pack id) hne]
      exact hfile
  · rw [hmap, lookup_insert_eq] at he
    split_ifs at he with heq
    · cases he
      subst heq
      exact ⟨rs₀, bytes, [], .inr ⟨q, w.push h' bytes, by rw [hwr, if_pos rfl], rfl, hp⟩,
        by simp only [hw₀.len], rfl, hA⟩
    · obtain ⟨before, frame, after, hr, hoff, hlen, hA'⟩ := h.resident h' e he
      obtain ⟨more, hr'⟩ := hrec e.pack _ hr
      exact ⟨before, frame, after ++ more, by simpa using hr', hoff, hlen, hA'⟩

theorem good_append (q : Queue) {bytes : Bytes} (freq : ℕ) (h : Good K noQueue A s d)
    (hA : A hash = some bytes) : EndsFrom quiet (append q hash bytes freq) s d
      (fun _ s' d' => Good K noQueue A s' d' ∧ Kept s d s' d' ∧
        ∃ e, s'.map = s.map.insert hash e ∧ e.freq = freq ∧ s.packs.lookup e.pack = none)
      (fun e s' d' => 2 ^ 32 ≤ bytes.length ∧ e = .io .invalidInput ∧ Good K noQueue A s' d' ∧
        Kept s d s' d' ∧ s'.map = s.map) := by
  refine append_rule ((good_activeWriter q h).mono (fun _ _ _ h => h) fun _ _ _ hf => hf.elim) ?_
  rintro w s₁ d₁ ⟨hq, h₁, hk₁, hm₁, hp₁⟩
  obtain ⟨hnone, rs, hw⟩ := h₁.tidy.active q w hq
  have hrs := h₁.safe.writes_bounded (q := q) id hq hw
  refine ⟨rs, [], hw, fun hb => ⟨hb, rfl, h₁, hk₁, hm₁⟩, fun _ _ _ hf _ _ => absurd hf not_faulty_quiet,
    fun d' hb ho hg hw' t ht => ?_⟩
  rw [drop_nil] at hw'
  have hlen' : (encodeRecords (rs ++ [(hash, bytes)])).length + ([] : Bytes).length ≤ maxPackLen := by
    simpa using length_push_le hash (t := []) hrs hb (by simp)
  have hp := pushed_pushRecord s₁ q w (w.push hash bytes) hash ⟨w.id, w.len + headerLen, bytes.length, freq⟩
  rw [← ht] at hp
  have hgood : ∀ full, (¬ full q → (w.push hash bytes).len < s₁.sealBytes) → Good K full A t d' := by
    intro full hf
    obtain ⟨htidy, hres⟩ := tidy_pushRecord h₁ hq hA ho hw hw' ht
    exact ⟨ht ▸ safe_pushRecord h₁.safe hq ho hw' hlen' hf, htidy, hres⟩
  have hkept : Kept s d t d' := hk₁.trans ⟨hg rfl, hp.pins, fun id hid => by rw [hp.packs]; exact hid⟩
  have hmap := hp.map
  rw [hm₁] at hmap
  rw [hp₁] at hnone
  refine ⟨fun _ => ?_, fun hroom => ⟨hgood noQueue fun _ => hroom, hkept, _, hmap, rfl, hnone⟩⟩
  refine (good_sealQueue q (hgood (· = q) (by simp)) fun w₂ rs₂ hq₂ hw₂ => ?_).mono ?_ fun _ _ _ hf => hf.elim
  · rw [hp.writer, if_pos rfl, some.injEq] at hq₂
    subst hq₂
    have hc := hw₂.content
    rw [hw'.content, some.injEq, append_nil, append_nil] at hc
    rw [← hc]
    simpa using hlen'
  · rintro _ s₂ d₂ ⟨h₂, hk₂, hm₂⟩
    exact ⟨h₂, hkept.trans hk₂, _, hm₂.trans hmap, rfl, hnone⟩

end Tribuchet.ChunkStore
