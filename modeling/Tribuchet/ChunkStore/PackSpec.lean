import Tribuchet.ChunkStore.DiskRules
import Tribuchet.ChunkStore.Records

/-! What the functions on one pack do to the directory, for any allowed outcomes of
their file operations: on success exactly, on an error as much as holds wherever it
happened. -/

namespace Tribuchet.ChunkStore

open ByteStrings Filesystem Hoare List Option Directory PackWriter

variable {allowed : Outcome → Prop} {d : Directory FileName}

/-- The file of an active writer: its records and then what failed writes left. -/
structure Writes (d : Directory FileName) (w : PackWriter) (rs : List (Hash × Bytes)) (tail : Bytes) :
    Prop where
  file : d.file (.pack w.id) = some w.file
  data : d.data w.file = encodeRecords rs ++ tail
  len : w.len = (encodeRecords rs).length
  entries : w.entries = entriesOf 0 rs
  frames : ∀ r ∈ rs, r.2.length < 2 ^ 32
  tail_le : tail.length ≤ headerLen + 2 ^ 32
  unindexed : d.file (.index w.id) = none

variable {w : PackWriter} {rs : List (Hash × Bytes)} {tail : Bytes}

theorem Writes.content (h : Writes d w rs tail) : d.content (.pack w.id) = some (encodeRecords rs ++ tail) := by
  rw [content_of_file h.file, h.data]

theorem Writes.onlyPack {id : ℕ} {d' : Directory FileName} (h : Writes d w rs tail) (ho : OnlyPack id d d') (hid : w.id ≠ id) :
    Writes d' w rs tail := by
  have hf : d'.file (.pack w.id) = some w.file := (ho.file (.pack w.id) hid).trans h.file
  have hc := (ho.content (.pack w.id) hid).trans h.content
  rw [content_of_file hf, some.injEq] at hc
  exact ⟨hf, hc, h.len, h.entries, h.frames, h.tail_le, (ho.file (.index w.id) hid).trans h.unindexed⟩

/-! ### Single operations -/

theorem endsIn_lookup {α : Type} (f : Directory FileName → Option α) (kind : ErrorKind) : EndsIn allowed
      (fileOp (fun _ d => d) fun d => (f d).elim (.error kind) fun a => .ok (a, d)) d
      (fun a d' => d' = d ∧ f d = some a)
      (fun e d' => d' = d ∧ (e = .io kind ∧ f d = none ∨ Faulty allowed ∧ e ≠ .io .notFound)) := by
  refine endsIn_fileOp ?_ ?_ fun hf _ => ⟨⟨rfl, .inr ⟨hf, by simp⟩⟩, ⟨rfl, .inr ⟨hf, by simp⟩⟩⟩
  · intro a d' h
    cases hc : f d with
    | none => simp [hc] at h
    | some b =>
      simp only [hc, elim_some, Except.ok.injEq, Prod.mk.injEq] at h
      exact ⟨h.2.symm, by rw [h.1]⟩
  · intro k h
    cases hc : f d with
    | none =>
      simp only [hc, elim_none, Except.error.injEq] at h
      exact ⟨rfl, .inl ⟨by rw [← h], rfl⟩⟩
    | some b => simp [hc] at h

theorem endsIn_total (g : Directory FileName → Directory FileName) :
    EndsIn allowed (fileOp (fun _ d => d) fun d => .ok ((), g d)) d
      (fun _ d' => d' = g d) (fun _ d' => d' = d ∧ Faulty allowed) := by
  refine endsIn_fileOp ?_ ?_ fun hf _ => ⟨⟨rfl, hf⟩, ⟨rfl, hf⟩⟩
  · intro _ d' h
    simp only [Except.ok.injEq, Prod.mk.injEq] at h
    exact h.2.symm
  · intro kind h
    cases h

theorem endsIn_syncData : EndsIn allowed syncData d (fun _ d' => d' = d) (fun _ d' => d' = d ∧ Faulty allowed) :=
  endsIn_total fun d => d

theorem endsIn_writeAllAt (file : ℕ) (bs : Bytes) (offset : ℕ) : EndsIn allowed (writeAllAt file bs offset) d
    (fun _ d' => d' = d.write file offset bs)
    (fun _ d' => Faulty allowed ∧ ∃ n, d' = d.write file offset (bs.take n)) := by
  refine endsIn_fileOp ?_ ?_ fun hf n => ⟨⟨hf, n, rfl⟩, ⟨hf, n, rfl⟩⟩
  · intro _ d' h
    simp only [Except.ok.injEq, Prod.mk.injEq] at h
    exact h.2.symm
  · intro kind h
    cases h

theorem endsIn_removeFile (n : FileName) : EndsIn allowed (removeFile n) d (fun _ d' => d' = d.unlink n)
    (fun _ d' => d' = d ∧ (Faulty allowed ∨ d.file n = none)) := by
  refine endsIn_fileOp ?_ ?_ fun hf _ => ⟨⟨rfl, .inl hf⟩, ⟨rfl, .inl hf⟩⟩
  · intro _ d' h
    cases hc : d.file n with
    | none => simp [hc] at h
    | some j =>
      simp only [hc, elim_some, Except.ok.injEq, Prod.mk.injEq] at h
      exact h.2.symm
  · intro kind h
    cases hc : d.file n with
    | none => exact ⟨rfl, .inr rfl⟩
    | some j => simp [hc] at h

theorem endsIn_create (n : FileName) (hn : n.isPack = false) : EndsIn allowed (create n) d
    (fun i d' => Beside n.id d d' ∧ d'.file n = some i ∧ d'.data i = [] ∧
      ∀ m, m ≠ n → d'.content m = d.content m)
    (fun _ d' => d' = d ∧ Faulty allowed) := by
  refine endsIn_fileOp ?_ ?_ fun hf _ => ⟨⟨rfl, hf⟩, ⟨rfl, hf⟩⟩
  · intro i d' h
    simp only [Except.ok.injEq] at h
    unfold Directory.create at h
    split at h
    · rename_i j hj
      cases h
      refine ⟨beside_setData hj hn [], hj, by simp [setData], fun m hm => ?_⟩
      rw [content_setData hj, if_neg hm]
    · cases h
      refine ⟨beside_allocate hn, by simp [file_allocate], by simp [allocate],
        fun m hm => ?_⟩
      rw [content_allocate, if_neg hm]
  · intro kind h
    cases h

theorem endsIn_rename {m n : FileName} (hid : m.id = n.id) (hm : m.isPack = false) (hn : n.isPack = false)
    (hmn : m ≠ n) {i : ℕ} (hi : d.file m = some i) : EndsIn allowed (rename m n) d
    (fun _ d' => Beside n.id d d' ∧ d'.content n = d.content m ∧ d'.content m = none)
    (fun _ d' => d' = d ∧ Faulty allowed) := by
  have hr : d.rename m n = some (d.renamed m n i hi) := by
    unfold Directory.rename
    split
    · rename_i h
      rw [hi] at h
      cases h
    · rename_i j h
      rw [hi] at h
      cases h
      rfl
  refine endsIn_fileOp ?_ ?_ fun hf _ => ⟨⟨rfl, hf⟩, ⟨rfl, hf⟩⟩
  · intro _ d' h
    simp only [hr, elim_some, Except.ok.injEq, Prod.mk.injEq] at h
    rw [← h.2]
    refine ⟨beside_renamed hi hid hm hn, by rw [content_renamed, if_pos rfl], ?_⟩
    rw [content_renamed, if_neg hmn, if_pos rfl]
  · intro kind h
    simp [hr] at h

/-! ### The index -/

theorem endsIn_loadIndex (id : ℕ) : EndsIn allowed (loadIndex id) d
    (fun es d' => d' = d ∧ ∃ idx, d.content (.index id) = some idx ∧ es = decodeIndex idx)
    (fun e d' => d' = d ∧ (e = .io .notFound ∧ d.content (.index id) = none ∨
      Faulty allowed ∧ e ≠ .io .notFound)) :=
  (endsIn_lookup (fun d => d.content (.index id)) .notFound).bind fun idx _ h =>
    endsIn_pure ⟨h.1, idx, h.2, rfl⟩

theorem endsIn_writeIndex (id : ℕ) (entries : List IndexEntry) : EndsIn allowed (writeIndex id entries) d
    (fun _ d' => Beside id d d' ∧ d'.content (.index id) = some (encodeIndex entries) ∧
      d'.content (.indexTmp id) = none)
    (fun _ d' => Faulty allowed ∧ Beside id d d' ∧ d'.content (.index id) = d.content (.index id)) := by
  unfold writeIndex
  refine ((endsIn_create (.indexTmp id) rfl).mono (fun _ _ h => h) ?_).bind ?_
  · rintro e d' ⟨rfl, hf⟩
    exact ⟨hf, .refl id d', rfl⟩
  rintro f d₁ ⟨hb₁, hf₁, hdata, hc₁⟩
  have hi₁ := hc₁ (.index id) (by simp)
  have hwrite : ∀ bs, d₁.write f 0 bs = d₁.setData f bs := by
    intro bs
    have := writeAt_length [] bs []
    simp only [nil_append, length_nil, drop_nil, append_nil] at this
    rw [write, hdata, this]
  have hset : ∀ bs, Beside id d (d₁.setData f bs) ∧
      (d₁.setData f bs).content (.index id) = d.content (.index id) := by
    intro bs
    refine ⟨hb₁.trans (beside_setData hf₁ rfl bs), ?_⟩
    rw [content_setData hf₁, if_neg (by simp), hi₁]
  refine ((endsIn_writeAllAt f (encodeIndex entries) 0).mono (fun _ _ h => h) ?_).bind ?_
  · rintro e d' ⟨hf, n, rfl⟩
    rw [hwrite]
    exact ⟨hf, hset _⟩
  rintro - d₂ rfl
  rw [hwrite]
  refine (endsIn_syncData.mono (fun _ _ h => h) ?_).bind ?_
  · rintro e d' ⟨rfl, hf⟩
    exact ⟨hf, hset _⟩
  rintro - d₃ rfl
  have hf₃ : (d₁.setData f (encodeIndex entries)).file (.indexTmp id) = some f := hf₁
  refine (endsIn_rename (m := .indexTmp id) (n := .index id) rfl rfl rfl (by simp) hf₃).mono ?_ ?_
  · rintro - d' ⟨hb, hc, htmp⟩
    refine ⟨(hset _).1.trans hb, hc.trans ?_, htmp⟩
    rw [content_setData hf₁, if_pos rfl]
  · rintro e d' ⟨rfl, hf⟩
    exact ⟨hf, hset _⟩

/-! ### The writer -/

theorem endsIn_createPack {id : ℕ} (hp : d.file (.pack id) = none) (hi : d.file (.index id) = none) :
    EndsIn allowed (PackWriter.create id) d
      (fun w d' => w.id = id ∧ w.len = 0 ∧ Writes d' w [] [] ∧ OnlyPack id d d' ∧ Grows d d')
      (fun _ d' => d' = d ∧ Faulty allowed) := by
  have hc : d.createNew (.pack id) = some (d.next, d.allocate (.pack id)) := by
    simp [Directory.createNew, hp]
  refine EndsIn.bind (R := fun i d' => i = d.next ∧ d' = d.allocate (.pack id))
    (endsIn_fileOp ?_ ?_ fun hf _ => ⟨⟨rfl, hf⟩, ⟨rfl, hf⟩⟩) ?_
  · intro i d' h
    simp only [hc, elim_some, Except.ok.injEq, Prod.mk.injEq] at h
    exact ⟨h.1.symm, h.2.symm⟩
  · intro kind h
    simp [hc] at h
  rintro i d' ⟨rfl, rfl⟩
  refine endsIn_pure ⟨rfl, rfl, ?_, onlyPack_allocate (.pack id), grows_allocate _⟩
  refine ⟨?_, by simp [allocate], rfl, rfl, by simp, by simp, ?_⟩
  · rw [file_allocate, if_pos rfl]
  · rw [file_allocate, if_neg (by simp)]
    exact hi

theorem endsIn_append (h : Writes d w rs tail) (hash : Hash) (frame : Bytes) : EndsIn allowed (w.append hash frame) d
      (fun r d' => r = (w.push hash frame, w.len + headerLen) ∧ frame.length < 2 ^ 32 ∧ OnlyPack w.id d d' ∧
        (tail = [] → Grows d d') ∧
        Writes d' (w.push hash frame) (rs ++ [(hash, frame)]) (tail.drop (headerLen + frame.length)))
      (fun e d' => e = .io .invalidInput ∧ d' = d ∧ 2 ^ 32 ≤ frame.length ∨
        Faulty allowed ∧ OnlyPack w.id d d' ∧ ∃ tail', Writes d' w rs tail') := by
  have hwrite : ∀ bs, d.write w.file w.len bs =
      d.setData w.file (encodeRecords rs ++ bs ++ tail.drop bs.length) := by
    intro bs
    rw [write, h.data, h.len, writeAt_length]
  unfold append
  by_cases hbig : 2 ^ 32 ≤ frame.length
  · rw [if_pos hbig]
    exact EndsIn.bind (R := fun _ _ => False) (endsIn_throw (.inl ⟨rfl, rfl, hbig⟩)) (by simp)
  rw [if_neg hbig]
  refine EndsIn.bind ((endsIn_writeAllAt _ _ _).mono (fun _ _ h => h) ?_) ?_
  · rintro e d' ⟨hf, n, rfl⟩
    rw [hwrite]
    refine .inr ⟨hf, onlyPack_setData h.file _, (record hash frame).take n ++
      tail.drop ((record hash frame).take n).length, ?_⟩
    refine ⟨h.file, by simp [setData], h.len, h.entries, h.frames, ?_, h.unindexed⟩
    have := h.tail_le
    simp only [length_append, length_drop, length_take, length_record]
    omega
  · rintro - d' rfl
    rw [hwrite]
    refine endsIn_pure ⟨rfl, by omega, onlyPack_setData h.file _, ?_, ?_⟩
    · rintro rfl
      refine grows_setData fun _ => ?_
      rw [h.data]
      simp
    · refine ⟨h.file, ?_, ?_, ?_, ?_, ?_, h.unindexed⟩
      · simp [setData, push]
      · simp only [push, h.len, encodeRecords_append, encodeRecords_cons, encodeRecords_nil,
          length_append, length_record, length_nil]
        omega
      · simp only [push, entriesOf_append, h.entries, h.len, entriesOf, zero_add]
      · intro r hr
        rcases mem_append.mp hr with hr | hr
        · exact h.frames r hr
        · rw [mem_singleton.mp hr]
          exact lt_of_not_ge hbig
      · have := h.tail_le
        rw [length_drop]
        omega

theorem endsIn_sealPack (h : Writes d w rs tail) : EndsIn allowed w.sealPack d
      (fun _ d' => OnlyPack w.id d d' ∧ d'.file (.pack w.id) = some w.file ∧
        d'.content (.pack w.id) = some (encodeRecords rs) ∧
        d'.content (.index w.id) = some (encodeIndex w.entries) ∧ (tail = [] → Grows d d'))
      (fun _ d' => Faulty allowed ∧ OnlyPack w.id d d' ∧ d'.file (.index w.id) = none ∧
        d'.file (.pack w.id) = some w.file ∧
        ∃ tail', tail'.length ≤ tail.length ∧ d'.content (.pack w.id) = some (encodeRecords rs ++ tail')) := by
  have hset : d.truncate w.file w.len = d.setData w.file (encodeRecords rs) := by
    rw [truncate, h.data, h.len, setLen_length]
  have honly : OnlyPack w.id d (d.setData w.file (encodeRecords rs)) := onlyPack_setData h.file _
  have hcont : (d.setData w.file (encodeRecords rs)).content (.pack w.id) = some (encodeRecords rs) := by
    rw [content_setData h.file, if_pos rfl]
  have hidx : (d.setData w.file (encodeRecords rs)).content (.index w.id) = none :=
    content_eq_none.mpr h.unindexed
  unfold sealPack
  refine EndsIn.bind ((endsIn_total fun d => d.truncate w.file w.len).mono (fun _ _ h => h) ?_) ?_
  · rintro e d' ⟨rfl, hf⟩
    exact ⟨hf, .refl _ _, h.unindexed, h.file, tail, le_rfl, h.content⟩
  rintro - d₁ rfl
  rw [hset]
  refine EndsIn.bind (endsIn_syncData.mono (fun _ _ h => h) ?_) ?_
  · rintro e d' ⟨rfl, hf⟩
    exact ⟨hf, honly, h.unindexed, h.file, [], by simp, by simpa using hcont⟩
  rintro - d₂ rfl
  refine (endsIn_writeIndex w.id w.entries).mono ?_ ?_
  · rintro - d' ⟨hb, hi, -⟩
    refine ⟨honly.trans hb.only, hb.file.trans h.file, hb.content.trans hcont, hi, ?_⟩
    rintro rfl
    refine Grows.trans (grows_setData fun _ => ?_) hb.grows
    simpa only [h.data, append_nil] using prefix_refl _
  · rintro e d' ⟨hf, hb, hi⟩
    refine ⟨hf, honly.trans hb.only, content_eq_none.mp (hi.trans hidx), hb.file.trans h.file, [],
      by simp, ?_⟩
    rw [hb.content, hcont, append_nil]

/-! ### Recovery -/

/-- Recovery keeps the records that the scan of the pack finds; an error leaves the pack as
it was or already cut. -/
theorem endsIn_recover (allowed : Outcome → Prop) (intact : Bytes → Hash → Bool) {id : ℕ} {data : Bytes}
    (hp : d.content (.pack id) = some data) : ∃ rs tail, data = encodeRecords rs ++ tail ∧ Intact intact rs ∧
      scan intact data.length 0 data = (entriesOf 0 rs, (encodeRecords rs).length) ∧
      EndsIn allowed (recover intact id) d
        (fun es d' => OnlyPack id d d' ∧ es = entriesOf 0 rs ∧ d'.file (.pack id) = d.file (.pack id) ∧
          d'.content (.pack id) = some (encodeRecords rs) ∧ d'.content (.index id) = some (encodeIndex es) ∧
          d'.content (.indexTmp id) = none)
        (fun _ d' => Faulty allowed ∧ OnlyPack id d d' ∧ d'.content (.index id) = d.content (.index id) ∧
          d'.file (.pack id) = d.file (.pack id) ∧
          (d'.content (.pack id) = some data ∨ d'.content (.pack id) = some (encodeRecords rs))) := by
  obtain ⟨i, hfile, hdata⟩ := content_eq_some.mp hp
  obtain ⟨rs, tail, hsplit, hframes, hscan⟩ := scan_records intact data.length 0 data
  have hset : d.truncate i (encodeRecords rs).length = d.setData i (encodeRecords rs) := by
    rw [truncate, hdata, hsplit, setLen_length]
  have honly : OnlyPack id d (d.setData i (encodeRecords rs)) := onlyPack_setData hfile _
  have hcont : (d.setData i (encodeRecords rs)).content (.pack id) = some (encodeRecords rs) := by
    rw [content_setData hfile, if_pos rfl]
  have hidx : (d.setData i (encodeRecords rs)).content (.index id) = d.content (.index id) :=
    (content_setData hfile _ _).trans (if_neg (by simp))
  rw [zero_add] at hscan
  refine ⟨rs, tail, hsplit, hframes, hscan, ?_⟩
  unfold recover
  refine EndsIn.bind ((endsIn_lookup (fun d => d.file (.pack id)) .notFound).mono (fun _ _ h => h) ?_) ?_
  · rintro e d' ⟨rfl, ⟨-, hn⟩ | ⟨hf, -⟩⟩
    · rw [hfile] at hn
      cases hn
    · exact ⟨hf, .refl _ _, rfl, rfl, .inl hp⟩
  rintro j d₁ ⟨rfl, hj⟩
  obtain rfl : i = j := by simpa [hfile] using hj
  refine EndsIn.bind (R := fun bs d' => d' = d₁ ∧ bs = data) (endsIn_fileOp ?_ ?_ ?_) ?_
  · intro bs d' h
    simp only [Except.ok.injEq, Prod.mk.injEq] at h
    exact ⟨h.2.symm, h.1.symm.trans hdata⟩
  · intro kind h
    cases h
  · intro hf _
    exact ⟨⟨hf, .refl _ _, rfl, rfl, .inl hp⟩, ⟨hf, .refl _ _, rfl, rfl, .inl hp⟩⟩
  rintro bs d₂ ⟨rfl, rfl⟩
  rw [hscan]
  refine EndsIn.bind ((endsIn_total fun d => d.truncate i (encodeRecords rs).length).mono
    (fun _ _ h => h) ?_) ?_
  · rintro e d' ⟨rfl, hf⟩
    exact ⟨hf, .refl _ _, rfl, rfl, .inl hp⟩
  rintro - d₃ rfl
  rw [hset]
  refine EndsIn.bind (endsIn_syncData.mono (fun _ _ h => h) ?_) ?_
  · rintro e d' ⟨rfl, hf⟩
    exact ⟨hf, honly, hidx, rfl, .inr hcont⟩
  rintro - d₄ rfl
  refine EndsIn.bind ((endsIn_writeIndex id (entriesOf 0 rs)).mono (fun _ _ h => h) ?_) ?_
  · rintro e d' ⟨hf, hb, hi'⟩
    exact ⟨hf, honly.trans hb.only, hi'.trans hidx, hb.file, .inr (hb.content.trans hcont)⟩
  · rintro - d' ⟨hb, hi', htmp⟩
    exact endsIn_pure ⟨honly.trans hb.only, rfl, hb.file, hb.content.trans hcont, hi', htmp⟩

end Tribuchet.ChunkStore
