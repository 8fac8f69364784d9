import Tribuchet.ChunkStore.Pack

/-! Specifications of file operations. `EndsIn allowed x d Q E`: whatever allowed
outcomes the file operations of `x` meet, `x` ends from the directory `d` as `Q`
or, on an error, as `E` says. Two relations between the directory before and after
say what an operation leaves alone: `OnlyPack id` that only files of one pack
changed, and `Grows` that every pack file, open or named, keeps its bytes as a
first part. -/

namespace Tribuchet.ChunkStore

open ByteStrings Filesystem Hoare Directory

variable {α β : Type} {allowed : Outcome → Prop} {d d' d'' : Directory FileName}

def EndsIn (allowed : Outcome → Prop) (x : DiskM α) (d : Directory FileName)
    (Q : α → Directory FileName → Prop) (E : Error → Directory FileName → Prop) : Prop :=
  ∀ outcomes, (∀ o ∈ outcomes, allowed o) → Ends x ⟨d, outcomes⟩
    (fun a k => Q a k.dir ∧ ∀ o ∈ k.outcomes, allowed o)
    (fun e k => E e k.dir ∧ ∀ o ∈ k.outcomes, allowed o)

def Faulty (allowed : Outcome → Prop) : Prop := ∃ o, allowed o ∧ o ≠ .ok

variable {Q R : α → Directory FileName → Prop} {E F : Error → Directory FileName → Prop}

theorem EndsIn.mono {x : DiskM α} (h : EndsIn allowed x d R F) (hQ : ∀ a d, R a d → Q a d)
    (hE : ∀ e d, F e d → E e d) : EndsIn allowed x d Q E := fun outcomes ho =>
  (h outcomes ho).mono (fun a k hk => ⟨hQ a k.dir hk.1, hk.2⟩) fun e k hk => ⟨hE e k.dir hk.1, hk.2⟩

theorem EndsIn.bind {x : DiskM α} {f : α → DiskM β} {Q : β → Directory FileName → Prop}
    (h : EndsIn allowed x d R E) (k : ∀ a d, R a d → EndsIn allowed (f a) d Q E) :
    EndsIn allowed (x >>= f) d Q E := fun outcomes ho =>
  (h outcomes ho).bind fun a t ht => k a t.dir ht.1 t.outcomes ht.2

theorem endsIn_pure {a : α} (h : Q a d) : EndsIn allowed (pure a) d Q E := fun _ ho =>
  ends_pure ⟨h, ho⟩

theorem endsIn_throw {e : Error} (h : E e d) : EndsIn allowed (throw e : DiskM α) d Q E := fun _ ho =>
  ends_throw ⟨h, ho⟩

theorem EndsIn.tryCatch {x : DiskM α} {h : Error → DiskM α} (hx : EndsIn allowed x d Q F)
    (k : ∀ e d, F e d → EndsIn allowed (h e) d Q E) : EndsIn allowed (tryCatch x h) d Q E :=
  fun outcomes ho => (hx outcomes ho).tryCatch fun e t ht => k e t.dir ht.1 t.outcomes ht.2

theorem endsIn_fileOp {torn : ℕ → Directory FileName → Directory FileName}
    {op : Directory FileName → Except ErrorKind (α × Directory FileName)}
    (hok : ∀ a d', op d = .ok (a, d') → Q a d') (herr : ∀ kind, op d = .error kind → E (.io kind) d)
    (hfail : Faulty allowed → ∀ n, E (.io .other) (torn n d) ∧ E .stopped (torn n d)) :
    EndsIn allowed (fileOp torn op) d Q E := by
  intro outcomes ho
  have htail : ∀ o ∈ outcomes.tail, allowed o := fun o h => ho o (List.mem_of_mem_tail h)
  have hhead : outcomes.headD .ok = .ok ∨ allowed (outcomes.headD .ok) := by
    cases outcomes with
    | nil => exact .inl rfl
    | cons o os => exact .inr (ho o (by simp))
  unfold Ends
  simp only [exec, fileOp]
  cases hd : outcomes.headD .ok with
  | ok =>
    cases hop : op d with
    | ok r => exact ⟨hok r.1 r.2 hop, htail⟩
    | error kind => exact ⟨herr kind hop, htail⟩
  | fail n =>
    rw [hd] at hhead
    have hf : Faulty allowed := ⟨.fail n, hhead.resolve_left (by simp), by simp⟩
    exact ⟨(hfail hf n).1, htail⟩
  | stop n =>
    rw [hd] at hhead
    have hf : Faulty allowed := ⟨.stop n, hhead.resolve_left (by simp), by simp⟩
    exact ⟨(hfail hf n).2, htail⟩

/-! ### Which files change -/

def FileName.id : FileName → ℕ
  | .pack id | .index id | .indexTmp id => id

def FileName.isPack : FileName → Bool
  | .pack _ => true
  | _ => false

/-- Only names of the pack `id` changed what they refer to or hold. -/
structure OnlyPack (id : ℕ) (d d' : Directory FileName) : Prop where
  file : ∀ n : FileName, n.id ≠ id → d'.file n = d.file n
  content : ∀ n : FileName, n.id ≠ id → d'.content n = d.content n

theorem OnlyPack.refl (id : ℕ) (d : Directory FileName) : OnlyPack id d d :=
  ⟨fun _ _ => rfl, fun _ _ => rfl⟩

theorem OnlyPack.trans {id : ℕ} (h : OnlyPack id d d') (h' : OnlyPack id d' d'') : OnlyPack id d d'' :=
  ⟨fun n hn => (h'.file n hn).trans (h.file n hn), fun n hn => (h'.content n hn).trans (h.content n hn)⟩

variable {n : FileName} {i : ℕ}

theorem onlyPack_setData (h : d.file n = some i) (bs : Bytes) : OnlyPack n.id d (d.setData i bs) := by
  refine ⟨fun m _ => rfl, fun m hm => ?_⟩
  rw [content_setData h, if_neg]
  rintro rfl
  exact hm rfl

theorem onlyPack_allocate (n : FileName) : OnlyPack n.id d (d.allocate n) := by
  constructor <;> intro m hm
  · rw [file_allocate, if_neg]
    rintro rfl
    exact hm rfl
  · rw [content_allocate, if_neg]
    rintro rfl
    exact hm rfl

theorem onlyPack_unlink (n : FileName) : OnlyPack n.id d (d.unlink n) := by
  constructor <;> intro m hm
  · rw [file_unlink, if_neg]
    rintro rfl
    exact hm rfl
  · rw [content_unlink, if_neg]
    rintro rfl
    exact hm rfl

theorem onlyPack_renamed {m : FileName} (h : d.file m = some i) (hid : m.id = n.id) :
    OnlyPack n.id d (d.renamed m n i h) := by
  constructor <;> intro k hk
  · rw [file_renamed, if_neg, if_neg] <;> rintro rfl
    · exact hk hid
    · exact hk rfl
  · rw [content_renamed, if_neg, if_neg] <;> rintro rfl
    · exact hk hid
    · exact hk rfl

/-- An inode that no index refers to: a pack file, named or unlinked. -/
def PackFile (d : Directory FileName) (i : ℕ) : Prop :=
  i < d.next ∧ ∀ n, d.file n = some i → n.isPack = true

/-- Pack files stay pack files and keep their bytes as a first part. -/
def Grows (d d' : Directory FileName) : Prop :=
  ∀ i, PackFile d i → PackFile d' i ∧ d.data i <+: d'.data i

theorem Grows.refl (d : Directory FileName) : Grows d d := fun _ hi => ⟨hi, List.prefix_refl _⟩

theorem Grows.trans (h : Grows d d') (h' : Grows d' d'') : Grows d d'' := fun i hi =>
  ⟨(h' i (h i hi).1).1, (h i hi).2.trans (h' i (h i hi).1).2⟩

theorem grows_setData {bs : Bytes} (h : PackFile d i → d.data i <+: bs) : Grows d (d.setData i bs) := by
  refine fun j hj => ⟨hj, ?_⟩
  rcases eq_or_ne j i with rfl | hji
  · simpa [setData] using h hj
  · simp [setData, Function.update_of_ne hji]

theorem grows_allocate (n : FileName) : Grows d (d.allocate n) := by
  rintro i ⟨hlt, hn⟩
  have hi : i ≠ d.next := ne_of_lt hlt
  refine ⟨⟨Nat.lt_succ_of_lt hlt, fun m hm => ?_⟩, ?_⟩
  · rw [file_allocate] at hm
    split_ifs at hm
    · cases hm
      exact absurd rfl hi
    · exact hn m hm
  · simp [allocate, Function.update_of_ne hi]

theorem grows_unlink (n : FileName) : Grows d (d.unlink n) := by
  rintro i ⟨hlt, hn⟩
  refine ⟨⟨hlt, fun m hm => ?_⟩, List.prefix_refl _⟩
  rw [file_unlink] at hm
  split_ifs at hm
  exact hn m hm

theorem grows_renamed {m : FileName} (h : d.file m = some i) (hm : m.isPack = false) : Grows d (d.renamed m n i h) := by
  rintro j ⟨hlt, hn⟩
  have hji : j ≠ i := by
    rintro rfl
    simpa [hm] using hn m h
  refine ⟨⟨hlt, fun k hk => ?_⟩, List.prefix_refl _⟩
  rw [file_renamed] at hk
  split_ifs at hk
  · cases hk
    exact absurd rfl hji
  · exact hn k hk

/-- Only files beside the pack file of `id` changed. -/
structure Beside (id : ℕ) (d d' : Directory FileName) : Prop where
  only : OnlyPack id d d'
  grows : Grows d d'
  file : d'.file (.pack id) = d.file (.pack id)
  content : d'.content (.pack id) = d.content (.pack id)

theorem Beside.refl (id : ℕ) (d : Directory FileName) : Beside id d d :=
  ⟨.refl id d, .refl d, rfl, rfl⟩

theorem Beside.trans {id : ℕ} (h : Beside id d d') (h' : Beside id d' d'') : Beside id d d'' :=
  ⟨h.only.trans h'.only, h.grows.trans h'.grows, h'.file.trans h.file, h'.content.trans h.content⟩

theorem not_packFile (h : d.file n = some i) (hn : n.isPack = false) :
    ¬ PackFile d i := fun hp => by simpa [hn] using hp.2 n h

theorem ne_pack (hn : n.isPack = false) : FileName.pack n.id ≠ n := by
  intro h
  rw [← h] at hn
  cases hn

theorem beside_setData (h : d.file n = some i) (hn : n.isPack = false)
    (bs : Bytes) : Beside n.id d (d.setData i bs) where
  only := onlyPack_setData h bs
  grows := grows_setData fun hp => absurd hp (not_packFile h hn)
  file := rfl
  content := by rw [content_setData h, if_neg (ne_pack hn)]

theorem beside_allocate (hn : n.isPack = false) : Beside n.id d (d.allocate n) where
  only := onlyPack_allocate n
  grows := grows_allocate n
  file := by rw [file_allocate, if_neg (ne_pack hn)]
  content := by rw [content_allocate, if_neg (ne_pack hn)]

theorem beside_renamed {m : FileName} (h : d.file m = some i) (hid : m.id = n.id)
    (hm : m.isPack = false) (hn : n.isPack = false) : Beside n.id d (d.renamed m n i h) where
  only := onlyPack_renamed h hid
  grows := grows_renamed h hm
  file := by
    rw [file_renamed, if_neg (ne_pack hn), if_neg]
    rw [← hid]
    exact ne_pack hm
  content := by
    rw [content_renamed, if_neg (ne_pack hn), if_neg]
    rw [← hid]
    exact ne_pack hm

end Tribuchet.ChunkStore
