import Tribuchet.ChunkStore.Operations

/-! Packs and their indexes under any failures and stops. An index is written only
for the records of its own pack and a sealed pack never changes, so every index that
exists beside its pack designates records of it. Each operation of a running store
keeps this, wherever it fails or the process stops, as long as no index exists for an
id that is still to be used. -/

namespace Tribuchet.ChunkStore

open ByteStrings Filesystem Hoare List Option Directory Store

variable {allowed : Outcome → Prop} {d d' : Directory FileName} {s : Store}

/-- No pack file gets longer: a record is appended only below the largest seal limit. -/
def maxPackLen : ℕ := 256 * 2 ^ 20 + (headerLen + 2 ^ 32)

theorem maxPackLen_lt : maxPackLen < 2 ^ 64 := by
  unfold maxPackLen headerLen
  omega

structure PackOk (d : Directory FileName) (id : ℕ) : Prop where
  indexed : ∀ data idx, d.content (.pack id) = some data → d.content (.index id) = some idx →
    ∀ e ∈ decodeIndex idx, ∃ frame, Designates data e frame
  bounded : ∀ data, d.content (.pack id) = some data → data.length ≤ maxPackLen

variable {id : ℕ}

theorem PackOk.onlyPack {id' : ℕ} (h : PackOk d id) (ho : OnlyPack id' d d') (hid : id ≠ id') : PackOk d' id := by
  have hp : d'.content (.pack id) = d.content (.pack id) := ho.content (.pack id) hid
  have hi : d'.content (.index id) = d.content (.index id) := ho.content (.index id) hid
  exact ⟨by rw [hp, hi]; exact h.indexed, by rw [hp]; exact h.bounded⟩

theorem packOk_of_unindexed (hi : d.content (.index id) = none)
    (hb : ∀ data, d.content (.pack id) = some data → data.length ≤ maxPackLen) : PackOk d id :=
  ⟨by simp [hi], hb⟩

variable {rs : List (Hash × Bytes)}

theorem packOk_of_sealed (hf : ∀ r ∈ rs, r.2.length < 2 ^ 32)
    (hl : (encodeRecords rs).length ≤ maxPackLen) (hp : d.content (.pack id) = some (encodeRecords rs))
    (hi : d.content (.index id) = some (encodeIndex (entriesOf 0 rs))) : PackOk d id := by
  have hlt : (encodeRecords rs).length < 2 ^ 64 := lt_of_le_of_lt hl maxPackLen_lt
  refine ⟨fun data idx hd hx e he => ?_, fun data hd => ?_⟩
  · rw [hp, some.injEq] at hd
    rw [hi, some.injEq] at hx
    subst hd hx
    rw [decodeIndex_encodeIndex (inBounds_entriesOf hf hlt)] at he
    simpa using designates_of_mem he []
  · rw [hp, some.injEq] at hd
    exact hd ▸ hl

/-- A running store over its directory. `K` names further packs that are about to be
retired, `full` the queues whose active pack may have reached the seal limit. -/
structure Safe (K : ℕ → Prop) (full : Queue → Prop) (s : Store) (d : Directory FileName) : Prop where
  packs : ∀ id, PackOk d id
  writers : ∀ q w, s.writer q = some w →
    w.id < s.nextId ∧ (¬ full q → w.len < s.sealBytes) ∧ ∃ rs tail, Writes d w rs tail
  distinct : ∀ q q' w w', s.writer q = some w → s.writer q' = some w' → q ≠ q' → w.id ≠ w'.id
  retirable : ∀ id, id ∈ s.small ∨ id ∈ s.main ∨ K id →
    id < s.nextId ∧ ∀ q w, s.writer q = some w → w.id ≠ id
  fresh : ∀ id, s.nextId ≤ id → d.file (.pack id) = none ∧ d.file (.index id) = none
  limit : 0 < s.sealBytes ∧ s.sealBytes ≤ 256 * 2 ^ 20

/-- What `Safe` reads of a store. -/
def Store.core (s : Store) : Option PackWriter × Option PackWriter × List ℕ × List ℕ × ℕ × ℕ :=
  (s.activeSmall, s.activeMain, s.small, s.main, s.nextId, s.sealBytes)

variable {K K' : ℕ → Prop} {full full' : Queue → Prop}

variable {s' : Store}

theorem Safe.congr (h : Safe K full s d) (hc : s'.core = s.core) : Safe K full s' d := by
  simp only [core, Prod.mk.injEq] at hc
  obtain ⟨h1, h2, h3, h4, h5, h6⟩ := hc
  have hw : s'.writer = s.writer := by
    funext q
    cases q <;> assumption
  exact ⟨h.packs, by rw [hw, h5, h6]; exact h.writers, by rw [hw]; exact h.distinct,
    by rw [h3, h4, h5, hw]; exact h.retirable, by rw [h5]; exact h.fresh, by rw [h6]; exact h.limit⟩

theorem Safe.mono (h : Safe K full s d) (hK : ∀ id, K' id → K id) (hf : ∀ q, full q → full' q) :
    Safe K' full' s d where
  packs := h.packs
  writers q w hw := by
    obtain ⟨h1, h2, h3⟩ := h.writers q w hw
    exact ⟨h1, fun hn => h2 fun hq => hn (hf q hq), h3⟩
  distinct := h.distinct
  retirable id hid := h.retirable id (hid.imp_right fun h => h.imp_right (hK id))
  fresh := h.fresh
  limit := h.limit

theorem writer_setWriter (s : Store) (q q' : Queue) (w : Option PackWriter) :
    (s.setWriter q w).writer q' = if q' = q then w else s.writer q' := by
  cases q <;> cases q' <;> rfl

theorem Safe.onlyPack (h : Safe K full s d) (ho : OnlyPack id d d') (hok : PackOk d' id)
    (hid : id < s.nextId) (hw : ∀ q w, s.writer q = some w → w.id ≠ id) : Safe K full s d' where
  packs i := by
    rcases eq_or_ne i id with rfl | hi
    · exact hok
    · exact (h.packs i).onlyPack ho hi
  writers q w hq := by
    obtain ⟨h1, h2, rs, tail, h3⟩ := h.writers q w hq
    exact ⟨h1, h2, rs, tail, h3.onlyPack ho (hw q w hq)⟩
  distinct := h.distinct
  retirable := h.retirable
  fresh i hi := by
    have hne : i ≠ id := by omega
    exact ⟨(ho.file (.pack i) hne).trans (h.fresh i hi).1, (ho.file (.index i) hne).trans (h.fresh i hi).2⟩
  limit := h.limit

variable {q : Queue}

theorem Safe.setWriter {ow : Option PackWriter} (h : Safe K full s d)
    (ho : OnlyPack id d d') (hok : PackOk d' id) (hid : id < s.nextId)
    (hothers : ∀ q' w, q' ≠ q → s.writer q' = some w → w.id ≠ id)
    (hret : ∀ i, i ∈ s.small ∨ i ∈ s.main ∨ K i → i ≠ id) (hw : ∀ w, ow = some w →
      w.id = id ∧ (¬ full' q → w.len < s.sealBytes) ∧ ∃ rs tail, Writes d' w rs tail)
    (hfull : ∀ q', q' ≠ q → full q' → full' q') : Safe K full' (s.setWriter q ow) d' := by
  have hcore : (s.setWriter q ow).nextId = s.nextId ∧ (s.setWriter q ow).small = s.small ∧
      (s.setWriter q ow).main = s.main ∧ (s.setWriter q ow).sealBytes = s.sealBytes := by
    cases q <;> exact ⟨rfl, rfl, rfl, rfl⟩
  obtain ⟨hn, hsm, hma, hse⟩ := hcore
  refine ⟨fun i => ?_, fun q' w hq => ?_, fun q₁ q₂ w₁ w₂ h₁ h₂ hne => ?_, fun i hi => ?_, fun i hi => ?_,
    by rw [hse]; exact h.limit⟩
  · rcases eq_or_ne i id with rfl | hi
    · exact hok
    · exact (h.packs i).onlyPack ho hi
  · rw [writer_setWriter] at hq
    rw [hn, hse]
    split_ifs at hq with hqq
    · obtain ⟨rfl, h2, h3⟩ := hw w hq
      exact ⟨hid, hqq ▸ h2, h3⟩
    · obtain ⟨h1, h2, rs, tail, h3⟩ := h.writers q' w hq
      exact ⟨h1, fun hf => h2 fun hq => hf (hfull q' hqq hq), rs, tail, h3.onlyPack ho (hothers q' w hqq hq)⟩
  · rw [writer_setWriter] at h₁ h₂
    split_ifs at h₁ h₂ with e₁ e₂ e₂
    · exact absurd (e₁.trans e₂.symm) hne
    · rw [(hw w₁ h₁).1]
      exact (hothers q₂ w₂ e₂ h₂).symm
    · rw [(hw w₂ h₂).1]
      exact hothers q₁ w₁ e₁ h₁
    · exact h.distinct q₁ q₂ w₁ w₂ h₁ h₂ hne
  · rw [hsm, hma] at hi
    refine ⟨hn ▸ (h.retirable i hi).1, fun q' w hq => ?_⟩
    rw [writer_setWriter] at hq
    split_ifs at hq
    · rw [(hw w hq).1]
      exact (hret i hi).symm
    · exact (h.retirable i hi).2 q' w hq
  · rw [hn] at hi
    have hne : i ≠ id := by omega
    exact ⟨(ho.file (.pack i) hne).trans (h.fresh i hi).1, (ho.file (.index i) hne).trans (h.fresh i hi).2⟩

/-! ### Every operation keeps it -/

def noQueue : Queue → Prop := fun _ => False

variable {w : PackWriter}

theorem Safe.writes_bounded {tail : Bytes}
    (h : Safe K full s d) (hf : ¬ full q) (hq : s.writer q = some w) (hw : Writes d w rs tail) :
    (encodeRecords rs).length ≤ 256 * 2 ^ 20 := by
  have h1 := (h.writers q w hq).2.1 hf
  have h2 := h.limit.2
  rw [hw.len] at h1
  omega

theorem packOk_of_writes {tail : Bytes} (h : Writes d w rs tail)
    (hl : (encodeRecords rs).length + tail.length ≤ maxPackLen) : PackOk d w.id := by
  refine packOk_of_unindexed (content_eq_none.mpr h.unindexed) fun data hd => ?_
  rw [h.content, some.injEq] at hd
  rw [← hd, length_append]
  exact hl

theorem Safe.ne_of_retirable (h : Safe K full s d) (hq : s.writer q = some w)
    (i : ℕ) (hi : i ∈ s.small ∨ i ∈ s.main ∨ K i) : i ≠ w.id :=
  ((h.retirable i hi).2 q w hq).symm

theorem Safe.others_ne (h : Safe K full s d) (hq : s.writer q = some w)
    (q' : Queue) (w' : PackWriter) (hne : q' ≠ q) (hq' : s.writer q' = some w') : w'.id ≠ w.id :=
  h.distinct q' q w' w hq' hq hne

theorem safe_sealQueue (q : Queue) (h : Safe K (· = q) s d)
    (hb : ∀ w rs tail, s.writer q = some w → Writes d w rs tail →
      (encodeRecords rs).length + tail.length ≤ maxPackLen) :
    EndsFrom allowed (sealQueue q) s d (fun _ => Safe K noQueue) (fun _ => Safe K noQueue) := by
  refine sealQueue_rule (fun hq => ⟨h.packs, fun q' w hq' => ?_, h.distinct, h.retirable, h.fresh, h.limit⟩)
    fun w hq => ?_
  · obtain ⟨h1, h2, h3⟩ := h.writers q' w hq'
    refine ⟨h1, fun _ => h2 ?_, h3⟩
    rintro rfl
    rw [hq] at hq'
    cases hq'
  obtain ⟨hid, -, rs, tail, hw⟩ := h.writers q w hq
  have hlen := hb w rs tail hq hw
  -- the writer is taken before its pack is sealed
  have h₁ : Safe K noQueue (s.setWriter q none) d :=
    h.setWriter (.refl w.id d) (h.packs w.id) hid (h.others_ne hq) (h.ne_of_retirable hq) (by simp)
      fun q' hne hq' => hne hq'
  have hnot : ∀ q' w', (s.setWriter q none).writer q' = some w' → w'.id ≠ w.id := by
    intro q' w' hq'
    rw [writer_setWriter] at hq'
    split_ifs at hq' with hqq
    exact h.others_ne hq q' w' hqq hq'
  have hid₁ : w.id < (s.setWriter q none).nextId := by cases q <;> exact hid
  refine ⟨rs, tail, hw, fun d' ho _ hp hi _ => ?_, fun e d' tail' _ ho hi _ ht hp => ?_⟩
  · have h₂ : Safe K noQueue (s.setWriter q none) d' := h₁.onlyPack ho
      (packOk_of_sealed hw.frames (by omega) hp (by rw [hi, hw.entries])) hid₁ hnot
    unfold sealWriter
    generalize s.setWriter q none = t at *
    have hwr : ({ t with packs := t.packs.insert w.id w.len }.pushBack q w.id).writer = t.writer := by
      funext q'
      cases q <;> cases q' <;> rfl
    refine ⟨h₂.packs, ?_, by rw [hwr]; exact h₂.distinct, fun i hi => ?_, ?_, ?_⟩
    · rw [hwr]
      cases q <;> exact h₂.writers
    · have hi' : (i ∈ t.small ∨ i ∈ t.main ∨ K i) ∨ i = w.id := by
        cases q <;> simp only [pushBack, mem_append, mem_singleton] at hi <;> tauto
      rw [hwr]
      rcases hi' with hi' | rfl
      · cases q <;> exact h₂.retirable i hi'
      · cases q <;> exact ⟨hid₁, hnot⟩
    · cases q <;> exact h₂.fresh
    · cases q <;> exact h₂.limit
  · refine h₁.onlyPack ho (packOk_of_unindexed (content_eq_none.mpr hi) fun data hd => ?_) hid₁ hnot
    rw [hp, some.injEq] at hd
    rw [← hd, length_append]
    omega

theorem safe_activeWriter (q : Queue) (h : Safe K noQueue s d) :
    EndsFrom allowed (activeWriter q) s d (fun w s' d' => s'.writer q = some w ∧ Safe K noQueue s' d')
      (fun _ => Safe K noQueue) := by
  have h₁ : Safe K noQueue { s with nextId := s.nextId + 1 } d := by
    refine ⟨h.packs, fun q' w hw => ?_, h.distinct, fun i hi => ?_, fun i hi => ?_, h.limit⟩
    · obtain ⟨h1, h2⟩ := h.writers q' w hw
      exact ⟨Nat.lt_succ_of_lt h1, h2⟩
    · obtain ⟨h1, h2⟩ := h.retirable i hi
      exact ⟨Nat.lt_succ_of_lt h1, h2⟩
    · exact h.fresh i (Nat.le_of_succ_le hi)
  refine activeWriter_rule (h.fresh s.nextId le_rfl) (fun w hq => ⟨hq, h⟩) (fun _ w d' hid hl hw ho _ => ⟨?_, ?_⟩)
    fun _ _ => h₁
  · rw [writer_setWriter, if_pos rfl]
  · refine h₁.setWriter ho ?_ (Nat.lt_succ_self _) ?_ ?_ ?_ fun _ _ hf => hf
    · rw [← hid]
      exact packOk_of_writes hw (by simp)
    · intro q' w' _ hq' he
      have := (h.writers q' w' hq').1
      omega
    · intro i hi' he
      have := (h.retirable i hi').1
      omega
    · rintro w' ⟨⟩
      refine ⟨hid, fun _ => ?_, [], [], hw⟩
      rw [hl]
      exact h.limit.1

theorem core_pushRecord (s : Store) (q : Queue) (w w' : PackWriter) (hash : Hash) (e : Entry) :
    (s.pushRecord q w w' hash e).core = (s.setWriter q (some w')).core := by
  cases q <;> rfl

theorem safe_pushRecord {hash : Hash} {bytes : Bytes} {e : Entry} {tail : Bytes} (h : Safe K noQueue s d) (hq : s.writer q = some w)
    (ho : OnlyPack w.id d d') (hw : Writes d' (w.push hash bytes) rs tail)
    (hlen : (encodeRecords rs).length + tail.length ≤ maxPackLen)
    (hf : ¬ full q → (w.push hash bytes).len < s.sealBytes) :
    Safe K full (s.pushRecord q w (w.push hash bytes) hash e) d' := by
  have hok : PackOk d' w.id := packOk_of_writes (w := w.push hash bytes) hw hlen
  refine Safe.congr ?_ (core_pushRecord s q w (w.push hash bytes) hash e)
  exact h.setWriter ho hok (h.writers q w hq).1 (h.others_ne hq) (h.ne_of_retirable hq)
    (by rintro _ ⟨⟩; exact ⟨rfl, hf, _, _, hw⟩) fun _ _ hf => hf.elim

theorem length_push_le (hash : Hash) {bytes t : Bytes}
    (hrs : (encodeRecords rs).length ≤ 256 * 2 ^ 20) (hb : bytes.length < 2 ^ 32)
    (ht : t.length ≤ headerLen + 2 ^ 32) : (encodeRecords (rs ++ [(hash, bytes)])).length +
      (t.drop (headerLen + bytes.length)).length ≤ maxPackLen := by
  have hmax : maxPackLen = 256 * 2 ^ 20 + (headerLen + 2 ^ 32) := rfl
  simp only [encodeRecords_append, encodeRecords_cons, encodeRecords_nil, length_append, length_record,
    length_nil, length_drop]
  omega

theorem safe_append (q : Queue) (hash : Hash) (bytes : Bytes) (freq : ℕ) (h : Safe K noQueue s d) :
    EndsFrom allowed (append q hash bytes freq) s d (fun _ => Safe K noQueue) (fun _ => Safe K noQueue) := by
  refine append_rule (safe_activeWriter q h) ?_
  rintro w s d ⟨hq, h⟩
  obtain ⟨hid, hlen, rs, tail, hw⟩ := h.writers q w hq
  have hrs := h.writes_bounded (q := q) id hq hw
  have hmax : maxPackLen = 256 * 2 ^ 20 + (headerLen + 2 ^ 32) := rfl
  refine ⟨rs, tail, hw, fun _ => h, fun e d' tail' _ ho hw' => ?_, ?_⟩
  · -- a torn record is part of the tail
    have hset : Safe K noQueue (s.setWriter q (some w)) d' := h.setWriter ho
      (packOk_of_writes hw' (by have := hw'.tail_le; omega)) hid (h.others_ne hq) (h.ne_of_retirable hq)
      (by rintro _ ⟨⟩; exact ⟨rfl, hlen, rs, tail', hw'⟩) fun _ _ hf => hf
    refine hset.congr ?_
    cases q <;> simp only [setWriter, core, ← hq, writer]
  · rintro d' hb ho - hw' t rfl
    have hlen' := length_push_le hash hrs hb hw.tail_le
    refine ⟨fun _ => safe_sealQueue q (safe_pushRecord h hq ho hw' hlen' (by simp)) ?_,
      fun hroom => safe_pushRecord h hq ho hw' hlen' fun _ => hroom⟩
    intro w₂ rs₂ tail₂ hq₂ hw₂
    have hw₂' : w₂ = w.push hash bytes := by cases q <;> exact (some.inj hq₂).symm
    subst hw₂'
    have hc := hw₂.content
    rw [hw'.content, some.injEq] at hc
    have hl := congrArg length hc
    simp only [length_append] at hl hlen' ⊢
    omega

theorem Safe.reread (h : Safe K full s d) (hr : Reread s d s' d') : Safe K full s' d' := by
  obtain ⟨rfl, _, rfl⟩ := hr
  exact h.congr rfl

theorem safe_peek (hash : Hash) (h : Safe K full s d) :
    EndsFrom allowed (peek hash) s d (fun _ => Safe K full) (fun _ => Safe K full) :=
  (reread_peek hash).mono (fun _ _ _ hr => h.reread hr) fun _ _ _ hr => h.reread hr

theorem safe_locate (hash : Hash) (h : Safe K full s d) :
    EndsFrom allowed (locate hash) s d (fun _ => Safe K full) (fun _ => Safe K full) := by
  unfold locate
  refine endsFrom_getStore ?_
  split
  · exact endsFrom_pure h
  · exact endsFrom_modifyStore (safe_peek hash (h.congr rfl))

theorem core_dropEntry (s : Store) (q : Queue) (hash : Hash) : (s.dropEntry q hash).core = s.core := by
  cases q with
  | small =>
    simp only [dropEntry, ghostPush]
    split_ifs <;> rfl
  | main => rfl

theorem safe_retireEntry (id : ℕ) (q : Queue) (promoted : Bool) (e : IndexEntry)
    (h : Safe K noQueue s d) : EndsFrom allowed (retireEntry id q promoted e) s d
      (fun _ => Safe K noQueue) (fun _ => Safe K noQueue) := by
  refine retireEntry_rule (fun _ => h) (fun _ _ _ _ _ => h.congr (core_dropEntry s q e.hash)) (fun entry _ _ =>
    (reread_frame _ _ _).mono (fun _ _ _ hr => h.reread hr) fun _ _ _ hr => h.reread hr) ?_
  intro _ bytes s' d' _ _ _ _ h'
  exact safe_append .main e.hash bytes _ (h'.congr rfl)

theorem safe_removeFile {n : FileName} (hK : K n.id) (h : Safe K noQueue s d) : Safe K noQueue s (d.unlink n) := by
  obtain ⟨hid, hw⟩ := h.retirable n.id (.inr (.inr hK))
  refine h.onlyPack (onlyPack_unlink n) ⟨fun data idx hd hx => ?_, fun data hd => ?_⟩ hid hw
  · rw [content_unlink] at hd hx
    split_ifs at hd hx
    exact (h.packs n.id).indexed data idx hd hx
  · rw [content_unlink] at hd
    split_ifs at hd
    exact (h.packs n.id).bounded data hd

theorem safe_removePack (hK : K id) (h : Safe K noQueue s d) :
    EndsFrom allowed (removePack id) s d (fun _ => Safe K noQueue) (fun _ => Safe K noQueue) := by
  have h₁ : Safe K noQueue { s with readers := s.readers.erase id } d := h.congr rfl
  have h₂ := safe_removeFile (n := .pack id) hK h₁
  exact removePack_rule rfl (fun _ _ => h₁) (fun _ _ => ⟨h₂, h₂⟩) (safe_removeFile (n := .index id) hK h₂)

theorem safe_retire (q : Queue) (hK : K id) (h : Safe K noQueue s d) :
    EndsFrom allowed (retire id q) s d (fun _ => Safe K noQueue) (fun _ => Safe K noQueue) := by
  refine retire_rule (I := fun _ => Safe K noQueue) (fun _ _ => h) (fun _ _ => h)
    (fun x _ promoted _ _ h => safe_retireEntry id q promoted x h) (fun _ _ h _ => h) ?_
  rintro s d size _ h - rfl
  have h₁ : Safe K noQueue ({ s with packs := s.packs.erase id }.setBytes q (· - size)) d :=
    h.congr (by cases q <;> rfl)
  exact ⟨fun _ _ => h₁, safe_removePack hK h₁⟩

theorem safe_sealQueue_unfull (q : Queue) (h : Safe K noQueue s d) :
    EndsFrom allowed (sealQueue q) s d (fun _ => Safe K noQueue) (fun _ => Safe K noQueue) := by
  refine safe_sealQueue q (h.mono (fun _ hk => hk) fun _ hf => hf.elim) fun w rs tail hq hw => ?_
  have hrs := h.writes_bounded (q := q) id hq hw
  have htail := hw.tail_le
  have hmax : maxPackLen = 256 * 2 ^ 20 + (headerLen + 2 ^ 32) := rfl
  omega

theorem Safe.popFront (h : Safe K full s d)
    (hs : s'.core = (s.activeSmall, s.activeMain, s'.small, s'.main, s.nextId, s.sealBytes))
    (hperm : (s.small ++ s.main).Perm (id :: (s'.small ++ s'.main))) : Safe (fun i => K i ∨ i = id) full s' d := by
  simp only [core, Prod.mk.injEq, true_and] at hs
  obtain ⟨h1, h2, h3, h4⟩ := hs
  have hw : s'.writer = s.writer := by
    funext q
    cases q <;> assumption
  have hmem : ∀ i, (i ∈ s'.small ∨ i ∈ s'.main) ∨ i = id → i ∈ s.small ∨ i ∈ s.main := by
    intro i hi
    rw [← mem_append, hperm.mem_iff, mem_cons, mem_append]
    tauto
  refine ⟨h.packs, by rw [hw, h3, h4]; exact h.writers, by rw [hw]; exact h.distinct, fun i hi => ?_,
    by rw [h3]; exact h.fresh, by rw [h4]; exact h.limit⟩
  rw [hw, h3]
  refine h.retirable i ?_
  have := hmem i
  tauto

theorem safe_retire_front (q : Queue) (h : Safe K noQueue s d)
    (hs : s'.core = (s.activeSmall, s.activeMain, s'.small, s'.main, s.nextId, s.sealBytes))
    (hperm : (s.small ++ s.main).Perm (id :: (s'.small ++ s'.main))) :
    EndsFrom allowed (retire id q) s' d (fun _ => Safe K noQueue) (fun _ => Safe K noQueue) := by
  refine (safe_retire q (.inr rfl) (h.popFront hs hperm)).mono (fun _ _ _ h => ?_) fun _ _ _ h => ?_ <;>
    exact h.mono (fun _ hk => .inl hk) fun _ hf => hf

theorem safe_evictTurn (n : ℕ) (h : Safe K noQueue s d) : EndsFrom allowed (evictTurn n) s d
    (fun _ => Safe K noQueue) (fun _ => Safe K noQueue) := by
  refine evictTurn_rule n h (fun q _ _ h => safe_sealQueue_unfull q h) (fun _ _ h => h)
    (fun s d id rest h hm => safe_retire_front .small h rfl ?_)
    fun s d id rest h hm => safe_retire_front .main h rfl ?_
  · rw [hm]
    exact List.Perm.refl _
  · rw [hm]
    exact perm_middle

theorem safe_insert (hash : Hash) (bytes : Bytes) (h : Safe K noQueue s d) :
    EndsFrom allowed (insertFrame hash bytes) s d (fun _ => Safe K noQueue) (fun _ => Safe K noQueue) := by
  unfold insertFrame
  refine endsFrom_getStore ?_
  split_ifs
  · exact endsFrom_pure h
  · refine endsFrom_modifyStore ?_
    refine EndsFrom.bind (safe_append _ hash bytes 0 (h.congr rfl)) fun _ _ _ h => endsFrom_pure h

end Tribuchet.ChunkStore
