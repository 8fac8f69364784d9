import Tribuchet.ChunkStore.PackSpec
import Tribuchet.ChunkStore.StoreRules

/-! One rule for each operation of a running store. A rule says in which stores and
directories the operation may end and leaves to its user what is to hold there, so that
an invariant is carried through an operation without going through its code again. -/

namespace Tribuchet.ChunkStore

open ByteStrings Filesystem Hoare

variable {α : Type} {allowed : Outcome → Prop} {s : Store} {d : Directory FileName}
  {E F : Error → Store → Directory FileName → Prop} {q : Queue} {id : ℕ}

/-! ### Reading -/

def Misses (allowed : Outcome → Prop) (kind : ErrorKind) (found : Option α) (e : Error) : Prop :=
  e = .io kind ∧ found = none ∨ Faulty allowed ∧ e ≠ .io .notFound

theorem reader_rule {pack : ℕ} {Q : ℕ → Store → Directory FileName → Prop}
    (hheld : ∀ file, s.readers.lookup pack = some file → Q file s d)
    (hopen : ∀ file, d.file (.pack pack) = some file → Q file { s with readers := s.readers.insert pack file } d)
    (hmiss : ∀ e, Misses allowed .notFound (d.file (.pack pack)) e → E e s d) :
    EndsFrom allowed (reader pack) s d Q E := by
  unfold reader
  refine endsFrom_getStore ?_
  split
  · rename_i file hl
    exact endsFrom_pure (hheld file hl)
  · refine EndsFrom.bind (R := fun file s' d' => s' = s ∧ d' = d ∧ d.file (.pack pack) = some file)
      (endsFrom_onDisk (endsIn_lookup (fun d => d.file (.pack pack)) .notFound) ?_ ?_) ?_
    · rintro file _ ⟨rfl, hf⟩
      exact ⟨rfl, rfl, hf⟩
    · rintro e _ ⟨rfl, he⟩
      exact hmiss e he
    · rintro file _ _ ⟨rfl, rfl, hf⟩
      exact endsFrom_modifyStore (endsFrom_pure (hopen file hf))

theorem frame_rule {pack offset len : ℕ} {R : ℕ → Store → Directory FileName → Prop}
    {Q : Bytes → Store → Directory FileName → Prop} (hr : EndsFrom allowed (reader pack) s d R E)
    (hread : ∀ file s d bytes, R file s d → readExact (d.data file) offset len = some bytes → Q bytes s d)
    (hmiss : ∀ file s d e, R file s d → Misses allowed .unexpectedEof (readExact (d.data file) offset len) e →
      E e s d ∧ E e { s with readers := s.readers.erase pack } d) :
    EndsFrom allowed (frame pack offset len) s d Q E := by
  unfold frame
  refine EndsFrom.bind hr fun file s₁ d₁ h₁ => ?_
  refine EndsFrom.tryCatch (F := fun e s' d' => E e s' d' ∧ E e { s' with readers := s'.readers.erase pack } d')
    (endsFrom_onDisk (endsIn_lookup (fun d => readExact (d.data file) offset len) .unexpectedEof) ?_ ?_) ?_
  · rintro bytes _ ⟨rfl, hb⟩
    exact hread file s₁ _ bytes h₁ hb
  · rintro e _ ⟨rfl, he⟩
    exact hmiss file s₁ _ e h₁ he
  · intro e s₂ d₂ h₂
    dsimp only
    split_ifs
    · exact endsFrom_modifyStore (endsFrom_throw h₂.2)
    · exact endsFrom_throw h₂.1

theorem peek_rule {hash : Hash} {Q : Option FrameRef → Store → Directory FileName → Prop}
    (hnone : s.map.lookup hash = none → Q none s d)
    (hr : ∀ entry, s.map.lookup hash = some entry → EndsFrom allowed (reader entry.pack) s d
      (fun file => Q (some ⟨file, entry.offset, entry.len⟩)) fun e s' d' => E e s' d' ∧ Q none s' d') :
    EndsFrom allowed (peek hash) s d Q E := by
  unfold peek
  refine endsFrom_getStore ?_
  split
  · rename_i hl
    exact endsFrom_pure (hnone hl)
  · rename_i entry hl
    refine EndsFrom.tryCatch (EndsFrom.bind (hr entry hl) fun file s' d' h' => endsFrom_pure h') fun e s' d' h' => ?_
    split_ifs
    · exact endsFrom_throw h'.1
    · exact endsFrom_pure h'.2

def Reread (s : Store) (d : Directory FileName) (s' : Store) (d' : Directory FileName) : Prop :=
  d' = d ∧ ∃ readers, s' = { s with readers := readers }

theorem reread_reader (pack : ℕ) : EndsFrom allowed (reader pack) s d (fun _ => Reread s d) fun _ => Reread s d :=
  reader_rule (fun _ _ => ⟨rfl, _, rfl⟩) (fun _ _ => ⟨rfl, _, rfl⟩) fun _ _ => ⟨rfl, _, rfl⟩

theorem reread_frame (pack offset len : ℕ) :
    EndsFrom allowed (frame pack offset len) s d (fun _ => Reread s d) fun _ => Reread s d := by
  refine frame_rule (reread_reader pack) (fun _ _ _ _ h _ => h) ?_
  rintro _ _ _ e ⟨rfl, readers, rfl⟩ -
  exact ⟨⟨rfl, _, rfl⟩, rfl, _, rfl⟩

theorem reread_peek (hash : Hash) : EndsFrom allowed (peek hash) s d (fun _ => Reread s d) fun _ => Reread s d :=
  peek_rule (fun _ => ⟨rfl, _, rfl⟩) fun entry _ => (reread_reader entry.pack).mono (fun _ _ _ h => h)
    fun _ _ _ h => ⟨h, h⟩

/-! ### Appending and sealing -/

/-- The store after `seal` of the writer `w`. -/
def Store.sealWriter (s : Store) (q : Queue) (w : PackWriter) : Store :=
  { s.setWriter q none with packs := (s.setWriter q none).packs.insert w.id w.len }.pushBack q w.id

theorem writer_sealWriter (s : Store) (q q' : Queue) (w : PackWriter) :
    (s.sealWriter q w).writer q' = if q' = q then none else s.writer q' := by
  cases q <;> cases q' <;> rfl

theorem packs_sealWriter (s : Store) (q : Queue) (w : PackWriter) :
    (s.sealWriter q w).packs = s.packs.insert w.id w.len := by
  cases q <;> rfl

variable {Q : Unit → Store → Directory FileName → Prop}

theorem sealQueue_rule (hnone : s.writer q = none → Q () s d)
    (hseal : ∀ w, s.writer q = some w → ∃ rs tail, Writes d w rs tail ∧
      (∀ d', OnlyPack w.id d d' → d'.file (.pack w.id) = some w.file →
        d'.content (.pack w.id) = some (encodeRecords rs) →
        d'.content (.index w.id) = some (encodeIndex w.entries) → (tail = [] → Grows d d') →
        Q () (s.sealWriter q w) d') ∧
      ∀ e d' tail', Faulty allowed → OnlyPack w.id d d' → d'.file (.index w.id) = none →
        d'.file (.pack w.id) = some w.file → tail'.length ≤ tail.length →
        d'.content (.pack w.id) = some (encodeRecords rs ++ tail') → E e (s.setWriter q none) d') :
    EndsFrom allowed (sealQueue q) s d Q E := by
  unfold sealQueue
  refine endsFrom_getStore ?_
  cases hq : s.writer q with
  | none => exact endsFrom_pure (hnone hq)
  | some w =>
    obtain ⟨rs, tail, hw, hok, hfail⟩ := hseal w hq
    refine endsFrom_modifyStore (EndsFrom.bind
      (R := fun _ s' d' => s' = s.setWriter q none ∧ Q () (s.sealWriter q w) d')
      (endsFrom_onDisk (endsIn_sealPack hw) ?_ ?_) ?_)
    · rintro - d' ⟨ho, hf, hp, hi, hg⟩
      exact ⟨rfl, hok d' ho hf hp hi hg⟩
    · rintro e d' ⟨hf, ho, hi, hfile, tail', ht, hp⟩
      exact hfail e d' tail' hf ho hi hfile ht hp
    · rintro - _ d' ⟨rfl, h⟩
      exact endsFrom_modify h

theorem activeWriter_rule {Q : PackWriter → Store → Directory FileName → Prop}
    (hfresh : d.file (.pack s.nextId) = none ∧ d.file (.index s.nextId) = none)
    (hsome : ∀ w, s.writer q = some w → Q w s d)
    (hnew : s.writer q = none → ∀ w d', w.id = s.nextId → w.len = 0 → Writes d' w [] [] →
      OnlyPack s.nextId d d' → Grows d d' → Q w ({ s with nextId := s.nextId + 1 }.setWriter q (some w)) d')
    (hfail : Faulty allowed → ∀ e, E e { s with nextId := s.nextId + 1 } d) :
    EndsFrom allowed (activeWriter q) s d Q E := by
  unfold activeWriter
  refine endsFrom_getStore ?_
  cases hq : s.writer q with
  | some w => exact endsFrom_pure (hsome w hq)
  | none =>
    refine endsFrom_modifyStore (EndsFrom.bind
      (R := fun w s' d' => s' = { s with nextId := s.nextId + 1 } ∧ w.id = s.nextId ∧ w.len = 0 ∧
        Writes d' w [] [] ∧ OnlyPack s.nextId d d' ∧ Grows d d')
      (endsFrom_onDisk (endsIn_createPack hfresh.1 hfresh.2) (fun _ _ h => ⟨rfl, h⟩) ?_) ?_)
    · rintro e d' ⟨rfl, hf⟩
      exact hfail hf e
    · rintro w _ d' ⟨rfl, hid, hl, hw, ho, hg⟩
      exact endsFrom_modifyStore (f := fun _ => pure w) (endsFrom_pure (hnew hq w d' hid hl hw ho hg))

/-- What a record more in the active pack of a queue changes, the byte counts apart. -/
structure Pushed (q : Queue) (w : PackWriter) (hash : Hash) (e : Entry) (s t : Store) : Prop where
  writer : ∀ q', t.writer q' = if q' = q then some w else s.writer q'
  map : t.map = s.map.insert hash e
  packs : t.packs = s.packs
  readers : t.readers = s.readers
  pins : t.pins = s.pins
  small : t.small = s.small
  main : t.main = s.main
  nextId : t.nextId = s.nextId
  sealBytes : t.sealBytes = s.sealBytes

theorem pushed_pushRecord (s : Store) (q : Queue) (w w' : PackWriter) (hash : Hash) (e : Entry) :
    Pushed q w' hash e s (s.pushRecord q w w' hash e) := by
  constructor <;> cases q <;> try rfl
  all_goals exact fun q' => by cases q' <;> rfl

theorem append_rule {hash : Hash} {bytes : Bytes} {freq : ℕ} {R : PackWriter → Store → Directory FileName → Prop} (ha : EndsFrom allowed (activeWriter q) s d R E)
    (hw : ∀ w s d, R w s d → ∃ rs tail, Writes d w rs tail ∧
      (2 ^ 32 ≤ bytes.length → E (.io .invalidInput) s d) ∧
      (∀ e d' tail', Faulty allowed → OnlyPack w.id d d' → Writes d' w rs tail' → E e s d') ∧
      ∀ d', bytes.length < 2 ^ 32 → OnlyPack w.id d d' → (tail = [] → Grows d d') →
        Writes d' (w.push hash bytes) (rs ++ [(hash, bytes)]) (tail.drop (headerLen + bytes.length)) →
        ∀ t, t = s.pushRecord q w (w.push hash bytes) hash ⟨w.id, w.len + headerLen, bytes.length, freq⟩ →
        (s.sealBytes ≤ (w.push hash bytes).len → EndsFrom allowed (sealQueue q) t d' Q E) ∧
        ((w.push hash bytes).len < s.sealBytes → Q () t d')) :
    EndsFrom allowed (append q hash bytes freq) s d Q E := by
  unfold append
  refine EndsFrom.bind ha fun w s₁ d₁ h₁ => ?_
  obtain ⟨rs, tail, hwrites, hbig, htorn, hok⟩ := hw w s₁ d₁ h₁
  refine EndsFrom.bind
    (R := fun r s' d' => s' = s₁ ∧ r = (w.push hash bytes, w.len + headerLen) ∧ bytes.length < 2 ^ 32 ∧
      OnlyPack w.id d₁ d' ∧ (tail = [] → Grows d₁ d') ∧
      Writes d' (w.push hash bytes) (rs ++ [(hash, bytes)]) (tail.drop (headerLen + bytes.length)))
    (endsFrom_onDisk (endsIn_append hwrites hash bytes) (fun _ _ h => ⟨rfl, h⟩) ?_) ?_
  · rintro e d' (⟨rfl, rfl, hb⟩ | ⟨hf, ho, tail', hw'⟩)
    · exact hbig hb
    · exact htorn e d' tail' hf ho hw'
  · rintro _ s₁ d' ⟨rfl, rfl, hb, ho, hg, hw'⟩
    refine endsFrom_modifyStore (endsFrom_getStore ?_)
    obtain ⟨hfull, hroom⟩ := hok d' hb ho hg hw' _ rfl
    rw [(pushed_pushRecord s₁ q w (w.push hash bytes) hash _).sealBytes]
    split_ifs with h
    · exact hfull h
    · exact endsFrom_pure (hroom (lt_of_not_ge h))

/-! ### Eviction -/

theorem retireEntry_rule {promoted : Bool} {x : IndexEntry} {R : Bytes → Store → Directory FileName → Prop}
    {Q : Bool → Store → Directory FileName → Prop}
    (hskip : (∀ e, s.map.lookup x.hash = some e → e.pack ≠ id) → Q promoted s d)
    (hdrop : ∀ e, s.map.lookup x.hash = some e → e.pack = id → e.freq = 0 → s.pins.lookup x.hash = none →
      Q promoted (s.dropEntry q x.hash) d)
    (hread : ∀ e, s.map.lookup x.hash = some e → e.pack = id → EndsFrom allowed (frame e.pack e.offset e.len) s d R E)
    (hcopy : ∀ e bytes s' d' freq, s.map.lookup x.hash = some e → e.pack = id →
      ¬ (e.freq = 0 ∧ s.pins.lookup x.hash = none) → R bytes s' d' →
      EndsFrom allowed (append .main x.hash bytes freq) { s' with map := s'.map.erase x.hash } d' (fun _ => Q true) E) :
    EndsFrom allowed (retireEntry id q promoted x) s d Q E := by
  unfold retireEntry
  refine endsFrom_getStore ?_
  split
  · rename_i hl
    exact endsFrom_pure (hskip (by simp [hl]))
  rename_i e hl
  split_ifs with hpack hcold
  · refine endsFrom_pure (hskip fun e' he' => ?_)
    rw [hl, Option.some.injEq] at he'
    exact he' ▸ hpack
  · exact endsFrom_modifyStore (endsFrom_pure (hdrop e hl (not_not.mp hpack) hcold.1 hcold.2))
  · refine EndsFrom.bind (hread e hl (not_not.mp hpack)) fun bytes s' d' h' => endsFrom_modifyStore ?_
    exact EndsFrom.bind (hcopy e bytes s' d' _ hl (not_not.mp hpack) hcold h') fun _ _ _ h => endsFrom_pure h

theorem removePack_rule {t : Store} (ht : t = { s with readers := s.readers.erase id })
    (hmiss : Faulty allowed ∨ d.file (.pack id) = none → ∀ e, E e t d)
    (hleft : Faulty allowed ∨ d.file (.index id) = none → ∀ e,
      E e t (d.unlink (.pack id)) ∧ Q () t (d.unlink (.pack id)))
    (hgone : Q () t ((d.unlink (.pack id)).unlink (.index id))) : EndsFrom allowed (removePack id) s d Q E := by
  subst ht
  unfold removePack
  refine endsFrom_modifyStore (EndsFrom.bind (R := fun _ s' d' =>
    s' = { s with readers := s.readers.erase id } ∧ d' = d.unlink (.pack id))
    (endsFrom_onDisk (endsIn_removeFile _) (fun _ _ h => ⟨rfl, h⟩) ?_) ?_)
  · rintro e _ ⟨rfl, h⟩
    exact hmiss h e
  rintro _ _ _ ⟨rfl, rfl⟩
  refine EndsFrom.ignore (endsFrom_onDisk (endsIn_removeFile _) ?_ ?_)
  · rintro _ _ rfl
    exact hgone
  · rintro e _ ⟨rfl, h⟩
    rw [Directory.file_unlink, if_neg (by simp)] at h
    obtain ⟨h1, h2⟩ := hleft h e
    split_ifs
    · exact h1
    · exact h2

theorem retire_rule {I : List IndexEntry → Store → Directory FileName → Prop}
    (hload : ∀ idx, d.content (.index id) = some idx → I (decodeIndex idx) s d)
    (hmiss : ∀ e, Misses allowed .notFound (d.content (.index id)) e → E e s d)
    (hstep : ∀ x rest promoted s d, I (x :: rest) s d →
      EndsFrom allowed (retireEntry id q promoted x) s d (fun _ => I rest) E)
    (hpanic : ∀ s d, I [] s d → s.packs.lookup id = none → E .panicked s d)
    (hdrop : ∀ s d size t, I [] s d → s.packs.lookup id = some size →
      t = { s with packs := s.packs.erase id }.setBytes q (· - size) →
      (Faulty allowed → ∀ e, E e t d) ∧ EndsFrom allowed (removePack id) t d Q E) :
    EndsFrom allowed (retire id q) s d Q E := by
  unfold retire
  refine EndsFrom.bind (R := I) (endsFrom_onDisk (endsIn_loadIndex id) ?_ ?_) fun entries s₁ d₁ h₁ => ?_
  · rintro _ _ ⟨rfl, idx, hidx, rfl⟩
    exact hload idx hidx
  · rintro e _ ⟨rfl, he⟩
    exact hmiss e he
  refine EndsFrom.bind (endsFrom_foldlM (I := fun rest _ => I rest)
    (fun x rest promoted s d h => hstep x rest promoted s d h) h₁) fun promoted s₂ d₂ h₂ => endsFrom_getStore ?_
  split
  · rename_i hn
    exact endsFrom_throw (hpanic s₂ d₂ h₂ hn)
  rename_i size hsize
  obtain ⟨hsync, hremove⟩ := hdrop s₂ d₂ size _ h₂ hsize rfl
  refine endsFrom_modifyStore ?_
  split_ifs
  · refine EndsFrom.bind (R := fun _ s' d' =>
      s' = { s₂ with packs := s₂.packs.erase id }.setBytes q (· - size) ∧ d' = d₂)
      (endsFrom_onDisk endsIn_syncData (fun _ _ h => ⟨rfl, h⟩) ?_) ?_
    · rintro e _ ⟨rfl, hf⟩
      exact hsync hf e
    · rintro _ _ _ ⟨rfl, rfl⟩
      exact hremove
  · exact hremove

theorem evictTurn_rule {I J : Store → Directory FileName → Prop} (n : ℕ) (h : I s d)
    (hseal : ∀ q s d, I s d → EndsFrom allowed (sealQueue q) s d (fun _ => I) E) (hnone : ∀ s d, I s d → J s d)
    (hsmall : ∀ s d id rest, I s d → s.small = id :: rest →
      EndsFrom allowed (retire id .small) { s with small := rest } d (fun _ => J) E)
    (hmain : ∀ s d id rest, I s d → s.main = id :: rest →
      EndsFrom allowed (retire id .main) { s with main := rest } d (fun _ => J) E) :
    EndsFrom allowed (evictTurn n) s d (fun _ => J) E := by
  have hretireMain : ∀ {s d}, I s d → EndsFrom allowed (retireMain n) s d (fun _ => J) E := by
    intro s d h
    refine endsFrom_getStore ?_
    split
    · exact endsFrom_pure (hnone s d h)
    · rename_i id rest hm
      refine endsFrom_modifyStore (EndsFrom.bind (hmain s d id rest h hm) fun _ t k ht => endsFrom_getStore ?_)
      split_ifs <;> exact endsFrom_pure ht
  have hevictMain : ∀ {s d}, I s d → EndsFrom allowed (evictMain n) s d (fun _ => J) E := by
    intro s d h
    refine endsFrom_getStore ?_
    split_ifs
    · exact EndsFrom.bind (hseal .main s d h) fun _ _ _ h => hretireMain h
    · exact hretireMain h
  have hretireSmall : ∀ {s d}, I s d → EndsFrom allowed (retireSmall n) s d (fun _ => J) E := by
    intro s d h
    refine endsFrom_getStore ?_
    split
    · rename_i id rest hm
      exact endsFrom_modifyStore (EndsFrom.bind (hsmall s d id rest h hm) fun _ t k ht => endsFrom_pure ht)
    · exact hevictMain h
  refine endsFrom_getStore ?_
  split_ifs
  · exact endsFrom_pure (hnone s d h)
  · exact EndsFrom.bind (hseal .small s d h) fun _ _ _ h => hretireSmall h
  · exact hretireSmall h
  · exact hevictMain h

/-! ### Opening -/

theorem loadPack_rule {intact : Bytes → Hash → Bool} {R : List IndexEntry → Directory FileName → Prop}
    {F : Error → Directory FileName → Prop}
    (hindex : EndsIn allowed (indexOf intact id) d R F) (hfail : ∀ e d', F e d' → E e s d')
    (hmiss : ∀ es d' e, R es d' → Misses allowed .notFound (d'.content (.pack id)) e → E e s d')
    (hload : ∀ es d' data, R es d' → d'.content (.pack id) = some data → Q () { s with
      map := addEntries id es s.map
      packs := s.packs.insert id data.length
      main := s.main ++ [id]
      mainBytes := s.mainBytes + data.length
      nextId := max s.nextId (id + 1) } d') : EndsFrom allowed (loadPack intact () id) s d Q E := by
  unfold loadPack
  refine EndsFrom.bind (R := fun es s' d' => s' = s ∧ R es d')
    (endsFrom_onDisk hindex (fun _ _ h => ⟨rfl, h⟩) hfail) ?_
  rintro es s d' ⟨rfl, hr⟩
  refine EndsFrom.bind (R := fun data s' k => s' = s ∧ k = d' ∧ d'.content (.pack id) = some data)
    (endsFrom_onDisk (endsIn_lookup (fun d => d.content (.pack id)) .notFound) ?_ ?_) ?_
  · rintro data _ ⟨rfl, hc⟩
    exact ⟨rfl, rfl, hc⟩
  · rintro e _ ⟨rfl, he⟩
    exact hmiss es _ e hr he
  · rintro data _ _ ⟨rfl, rfl, hc⟩
    exact endsFrom_modify (hload es _ data hr hc)

theorem load_rule {intact : Bytes → Hash → Bool} {I : List ℕ → Store → Directory FileName → Prop}
    (hinit : I (packIds d) s d) (hstep : ∀ id rest s d, I (id :: rest) s d →
      EndsFrom allowed (loadPack intact () id) s d (fun _ => I rest) E) :
    EndsFrom allowed (load intact) s d (fun _ => I []) E := by
  unfold load
  refine EndsFrom.bind (R := fun w s' d' => w.disk.dir = d ∧ s' = s ∧ d' = d) (fun _ ho => ⟨⟨rfl, rfl, rfl⟩, ho⟩) ?_
  rintro w _ _ ⟨hw, rfl, rfl⟩
  rw [hw]
  exact endsFrom_foldlM (I := fun rest _ => I rest) (fun id rest _ s d h => hstep id rest s d h) hinit

end Tribuchet.ChunkStore
