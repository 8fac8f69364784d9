import Tribuchet.ChunkStore.Turns

/-! Runs in which no file operation fails, with a process that may end between any two operations
and a store that is reopened with any budget. A directory that such runs leave has an index only
beside the sealed pack it belongs to, so opening it gives a store in order again. -/

namespace Tribuchet.ChunkStore

open ByteStrings Filesystem Hoare Runs Option List Function Directory Store

variable {d d' : Directory FileName} {s s' : Store} {A : Hash → Option Bytes} {id : ℕ} {q : Queue}

/-! ### Opening a directory -/

/-- Every index belongs to a sealed pack, and no pack file is too long. -/
structure Orderly (d : Directory FileName) : Prop where
  indexed : ∀ id, d.file (.index id) ≠ none → ∃ rs, SealedPack d id rs
  bounded : ∀ id data, d.content (.pack id) = some data → data.length ≤ maxPackLen

theorem Steady.orderly (h : Steady A s d) : Orderly d where
  indexed id hi := (h.good.tidy.packed id (h.filed.index id hi)).2
  bounded id data hd := (h.good.safe.packs id).bounded data hd

theorem Orderly.packOk (h : Orderly d) (id : ℕ) : PackOk d id := by
  by_cases hi : d.file (.index id) = none
  · exact packOk_of_unindexed (content_eq_none.mpr hi) (h.bounded id)
  · obtain ⟨rs, hs⟩ := h.indexed id hi
    exact packOk_of_sealed hs.frames hs.len hs.pack hs.index

theorem SealedPack.file {rs : List (Hash × Bytes)} (h : SealedPack d id rs) : d.file (.pack id) ≠ none := by
  intro hn
  have hc := h.pack
  rw [content_eq_none.mpr hn] at hc
  cases hc

theorem Orderly.unstale (h : Orderly d) : Unstale d := by
  intro id hi
  obtain ⟨rs, hs⟩ := h.indexed id hi
  exact ⟨id, le_rfl, hs.file⟩

variable (intact : Bytes → Hash → Bool)

theorem endsIn_indexOf_orderly (h : Orderly d) (hp : d.file (.pack id) ≠ none) : EndsIn quiet (indexOf intact id) d
      (fun es d' => OnlyPack id d d' ∧ ∃ rs, SealedPack d' id rs ∧ es = entriesOf 0 rs) (fun _ _ => False) := by
  obtain ⟨data, hdata⟩ : ∃ data, d.content (.pack id) = some data :=
    ne_none_iff_exists'.mp fun hn => hp (content_eq_none.mp hn)
  refine EndsIn.tryCatch ((endsIn_loadIndex id).mono ?_ fun _ _ h => h) ?_
  · rintro _ d ⟨rfl, idx, hidx, rfl⟩
    obtain ⟨rs, hs⟩ := h.indexed id fun hn => by
      rw [content_eq_none.mpr hn] at hidx
      cases hidx
    rw [hs.index, some.injEq] at hidx
    exact ⟨.refl _ _, rs, hs, by rw [← hidx, hs.decodeIndex]⟩
  · rintro e d ⟨rfl, ⟨rfl, -⟩ | ⟨hfault, -⟩⟩
    · rw [if_pos rfl]
      obtain ⟨rs, tail, hsplit, hintact, -, hrecover⟩ := endsIn_recover quiet intact hdata
      refine hrecover.mono ?_ fun _ _ hf => not_faulty_quiet hf.1
      rintro _ d' ⟨ho, rfl, -, hpack, hindex, -⟩
      refine ⟨ho, rs, ⟨hpack, hindex, fun r hr => (hintact r hr).1, ?_⟩, rfl⟩
      have hlen := h.bounded id data hdata
      rw [hsplit, length_append] at hlen
      omega
    · exact absurd hfault not_faulty_quiet

/-- While packs are loaded; `rest` are still to come. -/
structure Restoring (rest : List ℕ) (s : Store) (d : Directory FileName) : Prop where
  orderly : Orderly d
  writers : ∀ q, s.writer q = none
  readers : s.readers = ∅
  nodup : rest.Nodup
  coming : ∀ id ∈ rest, d.file (.pack id) ≠ none ∧ s.packs.lookup id = none
  sized : ∀ id z, s.packs.lookup id = some z → ∃ rs, SealedPack d id rs ∧ (encodeRecords rs).length = z
  files : ∀ id, d.file (.pack id) ≠ none → id ∈ rest ∨ s.packs.lookup id ≠ none
  map : ∀ hash e, s.map.lookup hash = some e → s.packs.lookup e.pack ≠ none ∧ ∃ before frame after,
    SealedPack d e.pack (before ++ (hash, frame) :: after) ∧
      e.offset = (encodeRecords before).length + headerLen ∧ e.len = frame.length

theorem restoring_loadPack {rest : List ℕ} (h : Restoring (id :: rest) s d) :
    EndsFrom quiet (loadPack intact () id) s d (fun _ => Restoring rest) (fun _ _ _ => False) := by
  obtain ⟨hfile, hnone⟩ := h.coming id mem_cons_self
  refine loadPack_rule (endsIn_indexOf_orderly intact h.orderly hfile) (fun _ _ hf => hf) ?_ ?_
  · rintro _ d' _ ⟨-, rs, hs, -⟩ (⟨-, hn⟩ | ⟨hfault, -⟩)
    · rw [hs.pack] at hn
      cases hn
    · exact not_faulty_quiet hfault
  rintro _ d' data ⟨ho, rs, hs, rfl⟩ hdata
  obtain rfl : encodeRecords rs = data := some.inj (hs.pack.symm.trans hdata)
  have hlook : ∀ i, (s.packs.insert id (encodeRecords rs).length).lookup i =
      if i = id then some (encodeRecords rs).length else s.packs.lookup i := fun i => Table.lookup_insert_eq _ _ _ _
  have hother : ∀ {i}, s.packs.lookup i ≠ none → i ≠ id := by
    rintro i hi rfl
    exact hi hnone
  have hpacks : ∀ {i}, s.packs.lookup i ≠ none → (s.packs.insert id (encodeRecords rs).length).lookup i ≠ none := by
    intro i hi
    rw [hlook, if_neg (hother hi)]
    exact hi
  have hfiles : ∀ i, i ≠ id → d'.file (.pack i) = d.file (.pack i) := fun i hi => ho.file (.pack i) hi
  refine ⟨⟨fun i hi => ?_, fun i data hi => ?_⟩, h.writers, h.readers, h.nodup.of_cons, fun i hi => ?_, fun i z hz => ?_,
    fun i hi => ?_, fun hash e he => ?_⟩
  · rcases eq_or_ne i id with rfl | hne
    · exact ⟨rs, hs⟩
    · rw [ho.file (.index i) hne] at hi
      obtain ⟨rs', hs'⟩ := h.orderly.indexed i hi
      exact ⟨rs', hs'.onlyPack ho hne⟩
  · rcases eq_or_ne i id with rfl | hne
    · rw [hs.pack, some.injEq] at hi
      exact hi ▸ hs.len
    · rw [ho.content (.pack i) hne] at hi
      exact h.orderly.bounded i data hi
  · have hne : i ≠ id := fun heq => (nodup_cons.mp h.nodup).1 (heq ▸ hi)
    obtain ⟨h1, h2⟩ := h.coming i (mem_cons_of_mem _ hi)
    rw [hfiles i hne, hlook, if_neg hne]
    exact ⟨h1, h2⟩
  · rw [hlook] at hz
    split_ifs at hz with heq
    · cases hz
      exact ⟨rs, heq ▸ hs, rfl⟩
    · obtain ⟨rs', hs', hlen⟩ := h.sized i z hz
      exact ⟨rs', hs'.onlyPack ho heq, hlen⟩
  · rcases eq_or_ne i id with rfl | hne
    · refine .inr ?_
      rw [hlook, if_pos rfl]
      simp
    · rw [hfiles i hne] at hi
      rcases h.files i hi with hm | hp
      · exact .inl ((mem_cons.mp hm).resolve_left hne)
      · exact .inr (hpacks hp)
  · rcases lookup_addEntries he with ⟨x, hx, rfl, rfl⟩ | he
    · obtain ⟨before, frame, after, rfl, hoff, hlen⟩ := exists_record_of_mem hx
      exact ⟨by rw [hlook, if_pos rfl]; simp, before, frame, after, hs, hoff, hlen⟩
    · obtain ⟨hp, before, frame, after, hs', hoff, hlen⟩ := h.map hash e he
      exact ⟨hpacks hp, before, frame, after, hs'.onlyPack ho (hother hp), hoff, hlen⟩

def Store.framesIn (s : Store) (d : Directory FileName) (hash : Hash) : Option Bytes :=
  (s.map.lookup hash).bind fun e => (d.content (.pack e.pack)).bind fun data => readExact data e.offset e.len

theorem Restoring.steady (h : Restoring [] s d) (hsafe : Safe (fun _ => False) noQueue s d)
    (hb : Books noPack s d) : Steady (s.framesIn d) s d := by
  have hkeys : ∀ i, i ∈ s.packs.keys ↔ s.packs.lookup i ≠ none := by
    intro i
    rw [AList.mem_keys.symm, ← AList.lookup_isSome, ← ne_none_iff_isSome]
  have hnowr : ∀ {q w}, s.writer q ≠ some w := by
    intro q w
    rw [h.writers q]
    simp
  have hqueues : (s.small ++ s.main).Perm s.packs.keys := hb.queues
  refine ⟨⟨hsafe, ⟨fun i hi => ?_, fun q w hq => absurd hq hnowr, fun i hi => ?_, ?_, fun _ hk => hk.elim,
    fun i j hj => ?_⟩, fun hash e he => ?_⟩, hb, fun i z hz => ?_, fun i hi => ?_, fun i hi => ?_⟩
  · obtain ⟨z, hz⟩ := ne_none_iff_exists'.mp hi
    obtain ⟨rs, hs, -⟩ := h.sized i z hz
    exact ⟨hb.below i ((hkeys i).mpr hi), rs, hs⟩
  · refine (hkeys i).mp (hqueues.subset (mem_append.mpr ?_))
    tauto
  · exact hqueues.nodup_iff.mpr (AList.keys_nodup _)
  · rw [h.readers] at hj
    cases hj
  · obtain ⟨hp, before, frame, after, hs, ho, hlen⟩ := h.map hash e he
    refine ⟨before, frame, after, .inl ⟨hp, hs⟩, ho, hlen, ?_⟩
    have hdes : Designates (encodeRecords (before ++ (hash, frame) :: after)) ⟨hash, e.offset, e.len⟩ frame :=
      ⟨before, encodeRecords after, by simp, ho, hlen⟩
    simp only [framesIn, he, hs.pack, bind_some]
    exact hdes.read
  · obtain ⟨rs, hs, hlen⟩ := h.sized i z hz
    exact ⟨_, hs.pack, hlen⟩
  · exact .inl ((h.files i hi).resolve_left (by simp))
  · obtain ⟨rs, hs⟩ := h.orderly.indexed i hi
    exact (h.files i hs.file).resolve_left (by simp)

theorem steady_load (budget : ℕ) (h : Orderly d) :
    EndsFrom quiet (load intact) (initial budget) d (fun _ s' d' => ∃ A, Steady A s' d') (fun _ _ _ => False) := by
  have hinit : Restoring (packIds d) (initial budget) d := by
    refine ⟨h, fun q => by cases q <;> rfl, rfl, packIds_nodup d, fun id hid => ⟨(mem_packIds d id).mp hid, rfl⟩,
      fun id z hz => ?_, fun id hid => .inl ((mem_packIds d id).mpr hid), fun hash e he => ?_⟩
    · cases hz
    · cases he
  have hrestored : EndsFrom quiet (load intact) (initial budget) d (fun _ => Restoring []) (fun _ _ _ => False) :=
    load_rule hinit fun id rest _ _ h => restoring_loadPack intact h
  refine (hrestored.and ((loading_load quiet intact budget h.packOk).and (books_load quiet d intact budget))).mono ?_
    fun _ _ _ hf => hf.1
  rintro _ s' d' ⟨hr, ⟨-, -, hsafe⟩, hb⟩
  exact ⟨_, hr.steady (hsafe h.unstale) hb⟩

/-! ### Operations -/

theorem Steady.congr (h : Steady A s d) (hc : s'.core = s.core) (hr : s'.readers = s.readers)
    (hm : s'.map = s.map) (hl : s'.ledger = s.ledger) : Steady A s' d := by
  have hl' := hl
  simp only [ledger, Prod.mk.injEq] at hl'
  obtain ⟨h1, h2, -, -, -, -, h7, -⟩ := hl'
  refine ⟨h.good.congr hc h7 hr hm, h.books.congr_map hl hm, h.filed.congr h7 ?_⟩
  funext q
  cases q <;> assumption

theorem Steady.update (h : Steady A s d) {hash : Hash} (hn : s.map.lookup hash = none) (frame : Option Bytes) :
    Steady (update A hash frame) s d := by
  refine ⟨⟨h.good.safe, h.good.tidy, fun h' e he => ?_⟩, h.books, h.filed⟩
  obtain ⟨before, bytes, after, hr, ho, hlen, hA⟩ := h.good.resident h' e he
  refine ⟨before, bytes, after, hr, ho, hlen, ?_⟩
  rw [update_of_ne]
  · exact hA
  · rintro rfl
    rw [hn] at he
    cases he

theorem sealQueue_quiet (q : Queue) (s : Store) (d : Directory FileName) :
    EndsFrom quiet (sealQueue q) s d (fun _ _ _ => True) (fun _ _ _ => False) := by
  have hseal : ∀ (w : PackWriter) (d : Directory FileName),
      EndsIn quiet w.sealPack d (fun _ _ => True) (fun _ _ => False) := by
    intro w d
    unfold PackWriter.sealPack
    refine EndsIn.bind ((endsIn_total fun d => d.truncate w.file w.len).mono (fun _ _ h => h)
      fun _ _ hf => not_faulty_quiet hf.2) fun _ _ _ => ?_
    refine EndsIn.bind (endsIn_syncData.mono (fun _ _ h => h) fun _ _ hf => not_faulty_quiet hf.2) fun _ _ _ => ?_
    exact (endsIn_writeIndex w.id w.entries).mono (fun _ _ _ => trivial) fun _ _ hf => not_faulty_quiet hf.1
  unfold sealQueue
  refine endsFrom_getStore ?_
  split
  · exact endsFrom_pure trivial
  · refine endsFrom_modifyStore (EndsFrom.bind (R := fun _ _ _ => True)
      (endsFrom_onDisk (hseal _ _) (fun _ _ h => h) fun _ _ hf => hf) fun _ _ _ _ => endsFrom_modify trivial)

theorem books_append_quiet (q : Queue) (hash : Hash) (bytes : Bytes) (freq : ℕ) (h : Books noPack s d) :
    EndsFrom quiet (append q hash bytes freq) s d (fun _ => Books noPack) (fun _ => Books noPack) := by
  rw [append_eq]
  refine EndsFrom.bind (books_appendRecord q hash bytes freq h) ?_
  rintro full s₁ d₁ ⟨h₁, -⟩
  cases full with
  | false => exact endsFrom_pure h₁
  | true => exact ((books_sealQueue q h₁).and (sealQueue_quiet q s₁ d₁)).mono (fun _ _ _ h => h.1.1) fun _ _ _ h => h.2.elim

theorem steady_insert {hash : Hash} {bytes : Bytes} (h : Steady A s d)
    (hA : s.contains hash = false → A hash = some bytes) : EndsFrom quiet (insertFrame hash bytes) s d
      (fun fresh s' d' => Steady A s' d' ∧ fresh = !s.contains hash ∧
        (s.contains hash = false → Grown (s.insertQueue hash) (headerLen + bytes.length) s s'))
      (fun e s' d' => 2 ^ 32 ≤ bytes.length ∧ e = .io .invalidInput ∧ Steady A s' d') := by
  have hrest : EndsFrom quiet (insertFrame hash bytes) s d
      (fun fresh s' d' => Books noPack s' d' ∧ Filed s' d' ∧ fresh = !s.contains hash ∧
        (s.contains hash = false → Grown (s.insertQueue hash) (headerLen + bytes.length) s s'))
      (fun _ s' d' => Books noPack s' d' ∧ Filed s' d') := by
    unfold insertFrame
    refine endsFrom_getStore ?_
    split_ifs with hc
    · exact endsFrom_pure ⟨h.books, h.filed, by simp [hc], fun hf => by rw [hc] at hf; cases hf⟩
    · have h₁ : Steady A { s with ghostSet := s.ghostSet.erase (ghostKey hash) } d := h.congr rfl rfl rfl rfl
      refine endsFrom_modifyStore (EndsFrom.bind
        (R := fun _ s' d' => Books noPack s' d' ∧ Filed s' d' ∧
          Grown (s.insertQueue hash) (headerLen + bytes.length) s s')
        (((books_append_quiet _ hash bytes 0 h₁.books).and (filed_append _ hash bytes 0 h₁.good h₁.filed)).mono ?_ ?_) ?_)
      · rintro _ s' d' ⟨hb, hf, hg⟩
        have hgrown : Grown (s.insertQueue hash) 0 s { s with ghostSet := s.ghostSet.erase (ghostKey hash) } :=
          .of_terms _ rfl
        rw [← zero_add (headerLen + bytes.length)]
        exact ⟨hb, hf, hgrown.trans hg⟩
      · rintro _ s' d' ⟨hb, hf, -⟩
        exact ⟨hb, hf⟩
      · rintro _ s' d' ⟨hb, hf, hg⟩
        exact endsFrom_pure ⟨hb, hf, by simp [hc], fun _ => hg⟩
  refine ((served_insert h.good hA).and hrest).mono ?_ ?_
  · rintro fresh s' d' ⟨⟨hs, -⟩, hb, hf, hfresh, hg⟩
    exact ⟨⟨hs.good, hb, hf⟩, hfresh, hg⟩
  · rintro e s' d' ⟨⟨hlen, he, hs⟩, hb, hf⟩
    exact ⟨hlen, he, hs.good, hb, hf⟩

theorem filed_peek (hash : Hash) (h : Filed s d) : EndsFrom quiet (peek hash) s d (fun _ => Filed) (fun _ => Filed) :=
  (reread_peek hash).mono (fun _ _ _ hr => (h.reread hr).1) fun _ _ _ hr => (h.reread hr).1

theorem steady_peek (hash : Hash) (h : Steady A s d) : EndsFrom quiet (peek hash) s d (fun _ => Steady A)
    (fun _ _ _ => False) :=
  ((served_peek h.good).and ((books_peek hash h.books).and (filed_peek hash h.filed))).mono
    (fun _ _ _ hs => ⟨hs.1.1.good, hs.2.1, hs.2.2⟩) fun _ _ _ hs => hs.1

theorem steady_locate (hash : Hash) (h : Steady A s d) : EndsFrom quiet (locate hash) s d (fun _ => Steady A)
    (fun _ _ _ => False) := by
  have hfiled : EndsFrom quiet (locate hash) s d (fun _ => Filed) (fun _ => Filed) := by
    unfold locate
    refine endsFrom_getStore ?_
    split
    · exact endsFrom_pure h.filed
    · exact endsFrom_modifyStore (filed_peek hash (h.filed.congr rfl rfl))
  exact ((served_locate h.good).and ((books_locate hash h.books).and hfiled)).mono
    (fun _ _ _ hs => ⟨hs.1.1.good, hs.2.1, hs.2.2⟩) fun _ _ _ hs => hs.1

theorem Steady.forget (h : Steady A s d) (hash : Hash) : Steady A (s.forget hash) d :=
  ⟨h.good.eraseMap hash, h.books.erase hash, h.filed.congr rfl rfl⟩

/-! ### Runs -/

def Calm (_ : State) (a : Action) : Prop := ∀ o ∈ a.outcomes, o = .ok

/-- A running store is in order, and so is the directory it would leave. -/
structure Settled (t : State) : Prop where
  orderly : Orderly t.dir
  running : ∀ p, t.process = some p → ∃ A, Steady A p.store t.dir

theorem settled_empty : Settled State.empty where
  orderly := ⟨fun id hi => absurd rfl hi, nofun⟩
  running := by simp [State.empty]

variable {t : State}

theorem Steady.settled {evicting : Option ℕ} (h : Steady A s d) (hd : t.dir = d)
    (hp : t.process = some ⟨s, evicting⟩) : Settled t := by
  subst hd
  refine ⟨h.orderly, fun p hp' => ?_⟩
  rw [hp, some.injEq] at hp'
  subst hp'
  exact ⟨A, h⟩

variable {outcomes : List Outcome}

variable {t' : State}

theorem settled_start {budget : ℕ}
    (h : Settled t) (ho : ∀ o ∈ outcomes, o = .ok) (hs : step intact t (.start budget outcomes) = some t') :
    Settled t' := by
  simp only [step] at hs
  split at hs
  · cases hs
  · rcases (steady_load intact budget h.orderly).cases ho with ⟨_, w, hx, A, hw⟩ | ⟨_, _, -, hf⟩
    · rw [State.world, hx] at hs
      cases hs
      exact hw.settled rfl rfl
    · exact hf.elim

theorem Steady.admit (h : Steady A s d) (hash : Hash) (bytes : Bytes) :
    ∃ A, Steady A s d ∧ (s.contains hash = false → A hash = some bytes) := by
  by_cases hin : s.contains hash = true
  · exact ⟨A, h, fun hn => by rw [hin] at hn; cases hn⟩
  · have hnone : s.map.lookup hash = none := by simpa [Store.contains] using hin
    exact ⟨_, h.update hnone (some bytes), fun _ => update_self _ _ _⟩

theorem settled_insert {hash : Hash} {bytes : Bytes} (h : Settled t) (ho : ∀ o ∈ outcomes, o = .ok)
    (hs : step intact t (.insert hash bytes outcomes) = some t') : Settled t' := by
  obtain ⟨st, hi, rfl⟩ := map_eq_some_iff.mp hs
  obtain ⟨_, hst⟩ := h.running _ (idle_eq hi)
  obtain ⟨A, hst, hA⟩ := hst.admit hash bytes
  dsimp only
  generalize hu : (if st.contains hash then t else { t with admitted := t.admitted.insert hash bytes }) = u
  have hdir : u.dir = t.dir := by subst hu; split_ifs <;> rfl
  rw [← hdir] at hst
  rcases (steady_insert hst hA).cases ho with ⟨fresh, w, hx, hw, -⟩ | ⟨_, w, hx, -, rfl, hw⟩
  · rw [after_ok hx]
    exact hw.settled rfl rfl
  · rw [after_io hx]
    exact hw.settled rfl rfl

theorem settled_evict (h : Settled t)
    (ho : ∀ o ∈ outcomes, o = .ok) (hs : step intact t (.evict outcomes) = some t') : Settled t' := by
  simp only [step] at hs
  split at hs
  · rename_i st n hp
    cases hs
    obtain ⟨A, hst⟩ := h.running _ hp
    rcases (turned_evictTurn n hst).cases ho with ⟨next, w, hx, hw, -⟩ | ⟨_, _, -, hf⟩
    · rw [after_ok hx]
      cases next with
      | none =>
        have hw' : Steady A w.store.trimGhost w.disk.dir := hw.congr rfl rfl rfl rfl
        exact hw'.settled rfl rfl
      | some m => exact hw.settled rfl rfl
    · exact hf.elim
  · cases hs

theorem settled_step {a : Action} (h : Settled t) (hc : Calm t a)
    (hs : step intact t a = some t') : Settled t' := by
  have hidle : ∀ {st}, t.idle = some st → ∃ A, Steady A st t.dir := fun hi => h.running _ (idle_eq hi)
  have hlookup : ∀ {st : Store} {x : StoreM (Option FrameRef)} {hash : Hash} {outcomes : List Outcome} {A},
      (∀ o ∈ outcomes, o = .ok) → EndsFrom quiet x st t.dir (fun _ => Steady A) (fun _ _ _ => False) →
      Settled (t.after (exec x (t.world st outcomes)) fun r _ s => s.issue hash r) := by
    intro st x hash outcomes A ho hx
    rcases hx.cases ho with ⟨r, w, hx, hw⟩ | ⟨_, _, -, hf⟩
    · rw [after_ok hx]
      exact hw.settled rfl rfl
    · exact hf.elim
  cases a with
  | start budget outcomes => exact settled_start intact h hc hs
  | insert hash bytes outcomes => exact settled_insert intact h hc hs
  | evict outcomes => exact settled_evict intact h hc hs
  | locate hash outcomes =>
    obtain ⟨st, hi, rfl⟩ := map_eq_some_iff.mp hs
    obtain ⟨A, hst⟩ := hidle hi
    exact hlookup hc (steady_locate hash hst)
  | peek hash outcomes =>
    obtain ⟨st, hi, rfl⟩ := map_eq_some_iff.mp hs
    obtain ⟨A, hst⟩ := hidle hi
    exact hlookup hc (steady_peek hash hst)
  | forget hash =>
    obtain ⟨st, hi, rfl⟩ := map_eq_some_iff.mp hs
    obtain ⟨A, hst⟩ := hidle hi
    exact (hst.forget hash).settled rfl rfl
  | pin hashes =>
    obtain ⟨st, hi, rfl⟩ := map_eq_some_iff.mp hs
    obtain ⟨A, hst⟩ := hidle hi
    have hpin : Steady A (st.pin hashes) t.dir := hst.congr rfl rfl rfl rfl
    exact hpin.settled rfl rfl
  | dropGuard i =>
    simp only [step] at hs
    split at hs
    · rename_i p hashes hp hg
      cases hs
      obtain ⟨A, hst⟩ := h.running p hp
      have hdrop : Steady A (p.store.unpin hashes) t.dir := hst.congr rfl rfl rfl rfl
      exact hdrop.settled rfl rfl
    · cases hs
  | quit =>
    cases hs
    exact ⟨h.orderly, by simp⟩

theorem settled_of_reachable (h : (system intact).ReachableIf Calm t) : Settled t := by
  refine h.invariant ?_ fun _ _ _ hi hc hs => settled_step intact hi hc hs
  rintro _ rfl
  exact settled_empty

end Tribuchet.ChunkStore
