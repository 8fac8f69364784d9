import Mathlib.Algebra.Order.BigOperators.Group.List
import Tribuchet.ChunkStore.Balance
import Tribuchet.ChunkStore.Recovery

/-! What retiring a pack does to the byte counts when no file operation fails. The bytes that are
copied forward are those of records the map still names in the pack, each record once, so they are
at most the size of the pack; they are all of it only if every record of the pack is named, and hot
or pinned. Packs that are sealed while survivors are appended have reached the seal limit. -/

namespace Tribuchet.ChunkStore

open ByteStrings Filesystem Hoare List Table Store
open Option hiding any any_eq_true

variable {d d' : Directory FileName} {s s' : Store} {K : ℕ → Prop} {A : Hash → Option Bytes} {q : Queue}

/-! ### The files of a store -/

/-- The recorded sizes are those of the pack files, and the directory has no other packs or
indexes than those of the store. -/
structure Filed (s : Store) (d : Directory FileName) : Prop where
  sized : ∀ id z, s.packs.lookup id = some z → ∃ data, d.content (.pack id) = some data ∧ data.length = z
  pack : ∀ id, d.file (.pack id) ≠ none → s.packs.lookup id ≠ none ∨ ∃ q w, s.writer q = some w ∧ w.id = id
  index : ∀ id, d.file (.index id) ≠ none → s.packs.lookup id ≠ none

theorem Filed.congr (h : Filed s d) (hp : s'.packs = s.packs) (hw : s'.writer = s.writer) : Filed s' d := by
  refine ⟨?_, ?_, ?_⟩
  · rw [hp]
    exact h.sized
  · rw [hp, hw]
    exact h.pack
  · rw [hp]
    exact h.index

theorem Filed.onlyPack {id : ℕ} (h : Filed s d) (ho : OnlyPack id d d')
    (hp : ∀ i, i ≠ id → s'.packs.lookup i = s.packs.lookup i)
    (hw : ∀ q w, s.writer q = some w → w.id ≠ id → s'.writer q = some w)
    (hsize : ∀ z, s'.packs.lookup id = some z → ∃ data, d'.content (.pack id) = some data ∧ data.length = z)
    (hpack : d'.file (.pack id) ≠ none → s'.packs.lookup id ≠ none ∨ ∃ q w, s'.writer q = some w ∧ w.id = id)
    (hindex : d'.file (.index id) ≠ none → s'.packs.lookup id ≠ none) : Filed s' d' := by
  refine ⟨fun i z hz => ?_, fun i hi => ?_, fun i hi => ?_⟩
  · rcases eq_or_ne i id with rfl | hne
    · exact hsize z hz
    · rw [ho.content (.pack i) hne]
      exact h.sized i z (hp i hne ▸ hz)
  · rcases eq_or_ne i id with rfl | hne
    · exact hpack hi
    · rw [ho.file (.pack i) hne] at hi
      rw [hp i hne]
      refine (h.pack i hi).imp_right ?_
      rintro ⟨q, w, hq, rfl⟩
      exact ⟨q, w, hw q w hq hne, rfl⟩
  · rcases eq_or_ne i id with rfl | hne
    · exact hindex hi
    · rw [ho.file (.index i) hne] at hi
      rw [hp i hne]
      exact h.index i hi

/-! ### Appending -/

/-- What appending `n` bytes to a queue does to the books: packs join the queue at its end, each of
the seal limit or more. -/
structure Grown (q : Queue) (n : ℕ) (s s' : Store) : Prop where
  bytes : ∀ q', s'.queueBytes q' = s.queueBytes q' + if q' = q then n else 0
  queue : ∃ new, s'.queue q = s.queue q ++ new ∧ ∀ i ∈ new, ∃ z, s'.packs.lookup i = some z ∧ s.sealBytes ≤ z
  others : ∀ q', q' ≠ q → s'.queue q' = s.queue q' ∧ s'.writer q' = s.writer q'
  sizes : ∀ id z, s.packs.lookup id = some z → s'.packs.lookup id = some z
  sealBytes : s'.sealBytes = s.sealBytes
  budget : s'.budget = s.budget

def Store.terms (s : Store) : Option PackWriter × Option PackWriter × List ℕ × List ℕ × ℕ × ℕ ×
    (AList fun _ : ℕ => ℕ) × ℕ × ℕ :=
  (s.activeSmall, s.activeMain, s.small, s.main, s.smallBytes, s.mainBytes, s.packs, s.sealBytes, s.budget)

theorem Grown.of_terms (q : Queue) (h : s'.terms = s.terms) : Grown q 0 s s' := by
  simp only [terms, Prod.mk.injEq] at h
  obtain ⟨h1, h2, h3, h4, h5, h6, h7, h8, h9⟩ := h
  refine ⟨fun q' => ?_, ⟨[], ?_, by simp⟩, fun q' _ => ?_, fun id z hz => by rw [h7]; exact hz, h8, h9⟩
  · rw [ite_self, add_zero]
    cases q' <;> assumption
  · rw [append_nil]
    cases q <;> assumption
  · cases q'
    · exact ⟨h3, h1⟩
    · exact ⟨h4, h2⟩

theorem Grown.trans {m n : ℕ} {s'' : Store} (h : Grown q m s s') (h' : Grown q n s' s'') : Grown q (m + n) s s'' := by
  obtain ⟨new, hnew, hfull⟩ := h.queue
  obtain ⟨new', hnew', hfull'⟩ := h'.queue
  refine ⟨fun q' => ?_, ⟨new ++ new', by rw [hnew', hnew, append_assoc], fun i hi => ?_⟩, fun q' hq => ?_,
    fun id z hz => h'.sizes id z (h.sizes id z hz), h'.sealBytes.trans h.sealBytes, h'.budget.trans h.budget⟩
  · rw [h'.bytes, h.bytes]
    split_ifs <;> omega
  · rcases mem_append.mp hi with hi | hi
    · obtain ⟨z, hz, hle⟩ := hfull i hi
      exact ⟨z, h'.sizes i z hz, hle⟩
    · rw [← h.sealBytes]
      exact hfull' i hi
  · obtain ⟨h1, h2⟩ := h.others q' hq
    obtain ⟨h1', h2'⟩ := h'.others q' hq
    exact ⟨h1'.trans h1, h2'.trans h2⟩

theorem filed_activeWriter (q : Queue) (h : Good K noQueue A s d) (hf : Filed s d) :
    EndsFrom quiet (activeWriter q) s d (fun _ s' d' => Filed s' d' ∧ Grown q 0 s s') fun _ _ _ => False := by
  refine activeWriter_rule (h.safe.fresh s.nextId le_rfl) (fun _ _ => ⟨hf, .of_terms q rfl⟩)
    (fun hq w d' hid _ hw ho _ => ?_) fun hfault _ => not_faulty_quiet hfault
  generalize ht : { s with nextId := s.nextId + 1 }.setWriter q (some w) = t
  have hpacks : t.packs = s.packs := by subst ht; cases q <;> rfl
  have hwr : ∀ q', t.writer q' = if q' = q then some w else s.writer q' := by
    intro q'
    subst ht
    rw [writer_setWriter]
    rfl
  have hnone : s.packs.lookup s.nextId = none := by
    by_contra hn
    exact lt_irrefl _ (h.tidy.packed _ hn).1
  refine ⟨hf.onlyPack ho (fun i _ => by rw [hpacks]) (fun q' w' hq' _ => ?_) (fun z hz => ?_)
    (fun _ => .inr ⟨q, w, by rw [hwr, if_pos rfl], hid⟩) fun hx => ?_, ?_⟩
  · rw [hwr, if_neg]
    · exact hq'
    · rintro rfl
      rw [hq] at hq'
      cases hq'
  · rw [hpacks, hnone] at hz
    cases hz
  · exact absurd (hid ▸ hw.unindexed) hx
  · refine ⟨fun q' => ?_, ⟨[], ?_, by simp⟩, fun q' hne => ⟨?_, by rw [hwr, if_neg hne]⟩,
      fun id z hz => by rw [hpacks]; exact hz, ?_, ?_⟩ <;> subst ht
    · rw [ite_self, add_zero]
      cases q <;> cases q' <;> rfl
    · cases q <;> exact (append_nil _).symm
    · cases q <;> cases q' <;> rfl
    · cases q <;> rfl
    · cases q <;> rfl

theorem filed_sealQueue (q : Queue) (hf : Filed s d)
    (hw : ∀ w, s.writer q = some w → s.packs.lookup w.id = none ∧ ∃ rs, Writes d w rs []) :
    EndsFrom quiet (sealQueue q) s d
      (fun _ s' d' => Filed s' d' ∧ (s.writer q = none ∧ s' = s ∨ ∃ w, s.writer q = some w ∧ s' = s.sealWriter q w))
      fun _ _ _ => False := by
  refine sealQueue_rule (fun hq => ⟨hf, .inl ⟨hq, rfl⟩⟩) fun w hq => ?_
  obtain ⟨hnone, rs, hw⟩ := hw w hq
  refine ⟨rs, [], hw, fun d' ho _ hc _ _ => ⟨?_, .inr ⟨w, hq, rfl⟩⟩, fun _ _ _ hfault _ _ _ _ _ => not_faulty_quiet hfault⟩
  have hlook : ∀ i, (s.sealWriter q w).packs.lookup i = if i = w.id then some w.len else s.packs.lookup i := by
    intro i
    rw [packs_sealWriter, lookup_insert_eq]
  have hsealed : (s.sealWriter q w).packs.lookup w.id ≠ none := by
    rw [hlook, if_pos rfl]
    simp
  refine hf.onlyPack ho (fun i hi => by rw [hlook, if_neg hi]) (fun q' w' hq' hne => ?_) (fun z hz => ?_)
    (fun _ => .inl hsealed) fun _ => hsealed
  · rw [writer_sealWriter, if_neg]
    · exact hq'
    · rintro rfl
      rw [hq, some.injEq] at hq'
      exact hne (by rw [hq'])
  · rw [hlook, if_pos rfl, some.injEq] at hz
    exact ⟨_, hc, by rw [← hz, hw.len]⟩

theorem Grown.of_sealWriter {w : PackWriter} (hw : s.packs.lookup w.id = none) (hfull : s.sealBytes ≤ w.len) :
    Grown q 0 s (s.sealWriter q w) := by
  refine ⟨fun q' => ?_, ⟨[w.id], by cases q <;> rfl, fun i hi => ⟨w.len, ?_, hfull⟩⟩, fun q' hne => ⟨?_, ?_⟩,
    fun id z hz => ?_, by cases q <;> rfl, by cases q <;> rfl⟩
  · rw [ite_self, add_zero]
    cases q <;> cases q' <;> rfl
  · rw [packs_sealWriter, mem_singleton.mp hi, lookup_insert_eq, if_pos rfl]
  · cases q <;> cases q' <;> first | rfl | exact absurd rfl hne
  · rw [writer_sealWriter, if_neg hne]
  · rw [packs_sealWriter, lookup_insert_eq, if_neg]
    · exact hz
    · rintro rfl
      rw [hw] at hz
      cases hz

theorem filed_append (q : Queue) (hash : Hash) (bytes : Bytes) (freq : ℕ) (h : Good K noQueue A s d)
    (hf : Filed s d) : EndsFrom quiet (append q hash bytes freq) s d
      (fun _ s' d' => Filed s' d' ∧ Grown q (headerLen + bytes.length) s s')
      fun _ s' d' => Filed s' d' ∧ Grown q 0 s s' := by
  refine append_rule (((good_activeWriter q h).and (filed_activeWriter q h hf)).mono (fun _ _ _ h => h)
    fun _ _ _ h => h.1.elim) ?_
  rintro w s₁ d₁ ⟨⟨hq, h₁, -⟩, hf₁, hg₁⟩
  obtain ⟨hnone, rs, hw⟩ := h₁.tidy.active q w hq
  refine ⟨rs, [], hw, fun _ => ⟨hf₁, hg₁⟩, fun _ _ _ hfault _ _ => absurd hfault not_faulty_quiet,
    fun d' _ ho _ hw' t ht => ?_⟩
  rw [drop_nil] at hw'
  have hp := pushed_pushRecord s₁ q w (w.push hash bytes) hash ⟨w.id, w.len + headerLen, bytes.length, freq⟩
  rw [← ht] at hp
  have hwr := hp.writer
  have hft : Filed t d' := by
    refine hf₁.onlyPack ho (fun i _ => by rw [hp.packs]) (fun q' w' hq' hne => ?_) (fun z hz => ?_)
      (fun _ => .inr ⟨q, w.push hash bytes, by rw [hwr, if_pos rfl], rfl⟩) fun hx => absurd hw'.unindexed hx
    · rw [hwr, if_neg]
      · exact hq'
      · rintro rfl
        rw [hq, some.injEq] at hq'
        exact hne (by rw [hq'])
    · rw [hp.packs, hnone] at hz
      cases hz
  have hgt : Grown q (headerLen + bytes.length) s t := by
    rw [← zero_add (headerLen + bytes.length)]
    refine hg₁.trans ⟨fun q' => ?_, ⟨[], ?_, by simp⟩, fun q' hne => ⟨?_, by rw [hwr, if_neg hne]⟩,
      fun id z hz => by rw [hp.packs]; exact hz, hp.sealBytes, by subst ht; cases q <;> rfl⟩
    · have hlen : (w.push hash bytes).len - w.len = headerLen + bytes.length := by
        simp only [PackWriter.push]
        omega
      rw [← hlen]
      subst ht
      cases q <;> cases q' <;> rfl
    · subst ht
      cases q <;> exact (append_nil _).symm
    · subst ht
      cases q <;> cases q' <;> rfl
  refine ⟨fun hfull => ?_, fun _ => ⟨hft, hgt⟩⟩
  have hactive : ∀ w', t.writer q = some w' → t.packs.lookup w'.id = none ∧ ∃ rs, Writes d' w' rs [] := by
    intro w' hq'
    rw [hwr, if_pos rfl, some.injEq] at hq'
    subst hq'
    rw [hp.packs]
    exact ⟨hnone, _, hw'⟩
  refine (filed_sealQueue q hft hactive).mono ?_ fun _ _ _ hf => hf.elim
  rintro _ s₂ d₂ ⟨hf₂, ⟨hn, -⟩ | ⟨w', hq', rfl⟩⟩
  · rw [hwr, if_pos rfl] at hn
    cases hn
  · refine ⟨hf₂, ?_⟩
    rw [← add_zero (headerLen + bytes.length)]
    refine hgt.trans (Grown.of_sealWriter (hactive w' hq').1 ?_)
    rw [hwr, if_pos rfl, some.injEq] at hq'
    rw [← hq', hp.sealBytes]
    exact hfull

theorem Filed.reread (h : Filed s d) (hr : Reread s d s' d') : Filed s' d' ∧ s'.terms = s.terms := by
  obtain ⟨rfl, _, rfl⟩ := hr
  exact ⟨h.congr rfl rfl, rfl⟩

/-! ### What the map still names in a pack -/

def Store.names (s : Store) (id : ℕ) (x : IndexEntry) : Bool :=
  (s.map.lookup x.hash).any fun e => e.pack = id ∧ e.offset = x.offset

def Store.liveBytes (s : Store) (id : ℕ) (es : List IndexEntry) : ℕ :=
  (es.map fun x => if s.names id x then headerLen + x.len else 0).sum

theorem Store.names_iff {id : ℕ} {x : IndexEntry} :
    s.names id x = true ↔ ∃ e, s.map.lookup x.hash = some e ∧ e.pack = id ∧ e.offset = x.offset := by
  simp [names, Option.any_eq_true]

theorem offsets_entriesOf (pos : ℕ) (rs : List (Hash × Bytes)) :
    (∀ x ∈ entriesOf pos rs, pos < x.offset) ∧ (entriesOf pos rs).Pairwise fun x y => x.offset < y.offset := by
  induction rs generalizing pos with
  | nil => simp [entriesOf]
  | cons r rs ih =>
    obtain ⟨h1, h2⟩ := ih (pos + headerLen + r.2.length)
    have hpos : 0 < headerLen := by decide
    refine ⟨fun x hx => ?_, List.Pairwise.cons (fun x hx => ?_) h2⟩
    · rcases mem_cons.mp hx with rfl | hx
      · exact Nat.lt_add_of_pos_right hpos
      · have := h1 x hx
        omega
    · have := h1 x hx
      change pos + headerLen < x.offset
      omega

theorem nodup_offsets (rs : List (Hash × Bytes)) : ((entriesOf 0 rs).map IndexEntry.offset).Nodup :=
  pairwise_map.mpr ((offsets_entriesOf 0 rs).2.imp fun hlt => ne_of_lt hlt)

theorem sum_entriesOf (pos : ℕ) (rs : List (Hash × Bytes)) :
    ((entriesOf pos rs).map fun x => headerLen + x.len).sum = (encodeRecords rs).length := by
  induction rs generalizing pos with
  | nil => rfl
  | cons r rs ih =>
    rw [entriesOf, map_cons, sum_cons, ih, encodeRecords_cons, length_append, length_record]

theorem liveBytes_le (s : Store) (id : ℕ) (rs : List (Hash × Bytes)) :
    s.liveBytes id (entriesOf 0 rs) ≤ (encodeRecords rs).length := by
  rw [← sum_entriesOf 0]
  refine sum_le_sum fun x _ => ?_
  split_ifs
  · exact le_rfl
  · exact Nat.zero_le _

theorem names_of_liveBytes {id : ℕ} {rs : List (Hash × Bytes)}
    (h : (encodeRecords rs).length ≤ s.liveBytes id (entriesOf 0 rs)) : ∀ x ∈ entriesOf 0 rs, s.names id x = true := by
  intro x hx
  by_contra hn
  have hlt : s.liveBytes id (entriesOf 0 rs) < ((entriesOf 0 rs).map fun x => headerLen + x.len).sum := by
    refine sum_lt_sum _ _ (fun y _ => ?_) ⟨x, hx, ?_⟩
    · split_ifs
      · exact le_rfl
      · exact Nat.zero_le _
    · rw [if_neg hn]
      exact Nat.add_pos_left (by decide) _
  rw [sum_entriesOf] at hlt
  omega

theorem sum_map_of_single {α : Type} {l : List α} {f g : α → ℕ} {a : α} {n : ℕ} (hl : l.Nodup) (ha : a ∈ l)
    (hfa : f a = g a + n) (hfg : ∀ x ∈ l, x ≠ a → f x = g x) : (l.map f).sum = (l.map g).sum + n := by
  induction l with
  | nil => cases ha
  | cons x l ih =>
    obtain ⟨hx, hl⟩ := nodup_cons.mp hl
    rw [map_cons, sum_cons, map_cons, sum_cons]
    rcases mem_cons.mp ha with rfl | ha
    · have hrest : l.map f = l.map g := map_congr_left fun y hy =>
        hfg y (mem_cons_of_mem _ hy) fun heq => hx (heq ▸ hy)
      rw [hrest, hfa]
      omega
    · rw [hfg x mem_cons_self fun heq => hx (heq ▸ ha),
        ih hl ha fun y hy => hfg y (mem_cons_of_mem _ hy)]
      omega

theorem liveBytes_of_left {id : ℕ} {rs : List (Hash × Bytes)} {hash : Hash} {e : Entry}
    (hl : s.map.lookup hash = some e) (hp : e.pack = id)
    (hx : (⟨hash, e.offset, e.len⟩ : IndexEntry) ∈ entriesOf 0 rs)
    (hgone : ∀ e', s'.map.lookup hash = some e' → e'.pack ≠ id)
    (hother : ∀ h, h ≠ hash → s'.map.lookup h = s.map.lookup h) :
    s.liveBytes id (entriesOf 0 rs) = s'.liveBytes id (entriesOf 0 rs) + (headerLen + e.len) := by
  have hnot : ∀ x : IndexEntry, x.hash = hash → ¬ s'.names id x = true := by
    rintro x rfl hn
    obtain ⟨e', he', hp', -⟩ := names_iff.mp hn
    exact hgone e' he' hp'
  refine sum_map_of_single (nodup_offsets rs).of_map hx ?_ fun x hm hne => ?_
  · rw [if_pos (names_iff.mpr ⟨e, hl, hp, rfl⟩), if_neg (hnot _ rfl), zero_add]
  · rcases eq_or_ne x.hash hash with heq | hh
    · rw [if_neg (hnot x heq), if_neg]
      intro hn
      obtain ⟨e', he', -, ho⟩ := names_iff.mp hn
      rw [heq, hl, some.injEq] at he'
      exact hne (inj_on_of_nodup_map (nodup_offsets rs) hm hx (by rw [← ho, ← he']))
    · rw [names, names, hother x.hash hh]

/-! ### Retiring a pack -/

/-- The bytes while a pack is retired, from `s₀` on. -/
structure Tally (id : ℕ) (rs : List (Hash × Bytes)) (s₀ s : Store) (copied dropped : ℕ) : Prop where
  grown : Grown .main copied s₀ s
  live : copied + dropped + s.liveBytes id (entriesOf 0 rs) = s₀.liveBytes id (entriesOf 0 rs)
  hot : dropped = 0 → ∀ h e, s₀.map.lookup h = some e → e.pack = id →
    s.map.lookup h = some e ∨ 0 < e.freq ∨ s₀.pins.lookup h ≠ none

variable {id : ℕ} {s₀ : Store} {d₀ : Directory FileName} {rs : List (Hash × Bytes)}

/-- Where `retire` stands: the bytes so far, and what is to come. -/
def Counting (A : Hash → Option Bytes) (id : ℕ) (rs : List (Hash × Bytes)) (s₀ : Store) (d₀ : Directory FileName)
    (rest : List IndexEntry) (s : Store) (d : Directory FileName) : Prop :=
  Retiring A id s₀ d₀ rest s d ∧ Filed s d ∧ ∃ copied dropped, Tally id rs s₀ s copied dropped

theorem Good.mem_index (h : Good (· = id) noQueue A s d) (hs : SealedPack d id rs) {hash : Hash} {e : Entry}
    (hl : s.map.lookup hash = some e) (hp : e.pack = id) :
    (⟨hash, e.offset, e.len⟩ : IndexEntry) ∈ entriesOf 0 rs := by
  obtain ⟨before, frame, after, hrec, ho, hlen, -⟩ := h.resident hash e hl
  rw [hp] at hrec
  rw [ho, hlen]
  exact mem_index_of_records h hs hrec

theorem counting_retireEntry (q : Queue) (promoted : Bool) {x : IndexEntry} {rest : List IndexEntry}
    (h₀ : Good (· = id) noQueue A s₀ d₀) (hs : SealedPack d₀ id rs)
    (h : Counting A id rs s₀ d₀ (x :: rest) s d) : EndsFrom quiet (retireEntry id q promoted x) s d
      (fun _ => Counting A id rs s₀ d₀ rest) (fun _ _ _ => False) := by
  obtain ⟨hr, hf, copied, dropped, ht⟩ := h
  have hrest : EndsFrom quiet (retireEntry id q promoted x) s d
      (fun _ s' d' => Filed s' d' ∧ ∃ copied dropped, Tally id rs s₀ s' copied dropped) (fun _ _ _ => True) := by
    refine retireEntry_rule (fun _ => ⟨hf, copied, dropped, ht⟩) (fun e hl hp _ _ => ?_)
      (fun e hl _ => ((good_frame hr.good hl).and (reread_frame _ _ _)).mono (fun _ _ _ h => h)
        fun _ _ _ _ => trivial) ?_
    · -- cold and unpinned: its bytes are dropped
      obtain ⟨hpacks, -, hm, hpins⟩ := dropEntry_fields s q x.hash
      have hterms : (s.dropEntry q x.hash).terms = s.terms := by
        cases q with
        | main => rfl
        | small =>
          simp only [dropEntry, ghostPush]
          split_ifs <;> rfl
      have hlook : ∀ h, (s.dropEntry q x.hash).map.lookup h = if h = x.hash then none else s.map.lookup h := by
        intro h
        rw [hm, lookup_erase_eq]
      obtain ⟨horig, -⟩ := hr.coming x.hash e hl hp
      have hlive : s.liveBytes id (entriesOf 0 rs) =
          (s.dropEntry q x.hash).liveBytes id (entriesOf 0 rs) + (headerLen + e.len) := by
        refine liveBytes_of_left hl hp (h₀.mem_index hs horig hp) (fun e' he' => ?_) fun h hne => ?_
        · rw [hlook, if_pos rfl] at he'
          cases he'
        · rw [hlook, if_neg hne]
      have hpos : 0 < headerLen := by decide
      refine ⟨hf.congr hpacks ?_, copied, dropped + (headerLen + e.len),
        ht.grown.trans (.of_terms .main hterms), ?_, fun hz => by omega⟩
      · simp only [terms, Prod.mk.injEq] at hterms
        funext q'
        cases q'
        · exact hterms.1
        · exact hterms.2.1
      · have := ht.live
        omega
    · -- hot or pinned: its bytes are copied
      rintro e bytes s₁ d freq hl hp hcold ⟨⟨hA, rfl, h₁, hm₁, -, -⟩, hr₁⟩
      obtain ⟨hf₁, hterms₁⟩ := hf.reread hr₁
      obtain ⟨horig, -⟩ := hr.coming x.hash e hl hp
      have hlen : bytes.length = e.len := by
        obtain ⟨_, frame, _, -, -, hlen, hA'⟩ := hr.good.resident x.hash e hl
        rw [hA, some.injEq] at hA'
        rw [hA', hlen]
      have hf₁' : Filed { s₁ with map := s₁.map.erase x.hash } d := hf₁.congr rfl rfl
      have hg₁ : Grown .main 0 s { s₁ with map := s₁.map.erase x.hash } := .of_terms .main hterms₁
      refine ((good_append .main freq (h₁.eraseMap x.hash) hA).and
        (filed_append .main x.hash bytes freq (h₁.eraseMap x.hash) hf₁')).mono ?_ fun _ _ _ _ => trivial
      rintro - s₂ d₂ ⟨⟨h₂, -, e₂, hm₂, -, hpack₂⟩, hf₂, hg₂⟩
      have hlook : ∀ h, s₂.map.lookup h = if h = x.hash then some e₂ else s.map.lookup h := by
        intro h
        rw [hm₂, lookup_insert_eq]
        split_ifs with hne
        · rfl
        · change (s₁.map.erase x.hash).lookup h = _
          rw [lookup_erase_eq, if_neg hne, hm₁]
      have hlive : s.liveBytes id (entriesOf 0 rs) = s₂.liveBytes id (entriesOf 0 rs) + (headerLen + e.len) := by
        refine liveBytes_of_left hl hp (h₀.mem_index hs horig hp) (fun e' he' hid => ?_) fun h hne => ?_
        · rw [hlook, if_pos rfl, some.injEq] at he'
          subst he'
          exact h₁.tidy.queued id (.inr (.inr rfl)) (hid ▸ hpack₂)
        · rw [hlook, if_neg hne]
      rw [hlen] at hg₂
      refine ⟨hf₂, copied + (0 + (headerLen + e.len)), dropped,
        ht.grown.trans (hg₁.trans hg₂), ?_, fun hz h' e' he' hp' => ?_⟩
      · have := ht.live
        omega
      · rw [hlook]
        split_ifs with heq
        · subst heq
          rw [horig, some.injEq] at he'
          subst he'
          rw [← hr.kept.pins]
          refine .inr ?_
          by_contra hn
          obtain ⟨hfreq, hpin⟩ := not_or.mp hn
          exact hcold ⟨by omega, not_not.mp hpin⟩
        · exact ht.hot hz h' e' he' hp'
  exact ((retiring_retireEntry q promoted hr).and hrest).mono (fun _ _ _ h => h) fun _ _ _ h => h.1

theorem Filed.removed {size : ℕ} {t : Store} (h : Good (· = id) noQueue A s d) (hf : Filed s d)
    (hsize : s.packs.lookup id = some size) (ht : t = { s with packs := s.packs.erase id }.setBytes q (· - size)) :
    EndsFrom quiet (removePack id) t d (fun _ s' d' => Filed s' d' ∧ s'.terms = t.terms) (fun _ _ _ => False) := by
  have hwr : t.writer = s.writer := by
    subst ht
    funext q'
    cases q <;> cases q' <;> rfl
  have hlook : ∀ i, t.packs.lookup i = if i = id then none else s.packs.lookup i := by
    intro i
    rw [← lookup_erase_eq]
    subst ht
    cases q <;> rfl
  obtain ⟨-, rs, hsealed⟩ := h.tidy.packed id (by simp [hsize])
  refine hsealed.removed ?_
  rintro _ rfl
  have hgone : Filed t ((d.unlink (.pack id)).unlink (.index id)) := by
    have ho : OnlyPack id d ((d.unlink (.pack id)).unlink (.index id)) :=
      (onlyPack_unlink (.pack id)).trans (onlyPack_unlink (.index id))
    refine hf.onlyPack ho (fun i hne => by rw [hlook, if_neg hne]) (fun q' w hq' _ => by rw [hwr]; exact hq')
      (fun z hz => ?_) (fun hn => absurd ?_ hn) fun hn => absurd ?_ hn
    · rw [hlook, if_pos rfl] at hz
      cases hz
    · rw [Directory.file_unlink, if_neg (by simp), Directory.file_unlink, if_pos rfl]
    · rw [Directory.file_unlink, if_pos rfl]
  exact ⟨hgone.congr rfl rfl, rfl⟩

def Store.Survives (s : Store) (id : ℕ) (hash : Hash) : Prop :=
  ∃ e, s.map.lookup hash = some e ∧ e.pack = id ∧ (0 < e.freq ∨ s.pins.lookup hash ≠ none)

/-- What retiring the pack `id` of a queue does to the books: its size leaves the queue, and the
bytes that are copied join the main queue. -/
structure Retired (id : ℕ) (q : Queue) (es : List IndexEntry) (copied size : ℕ) (s s' : Store) : Prop where
  recorded : s.packs.lookup id = some size
  copied_le : copied ≤ size
  bytes : ∀ q', s'.queueBytes q' + (if q' = q then size else 0) =
    s.queueBytes q' + if q' = .main then copied else 0
  main : ∃ new, s'.main = s.main ++ new ∧ ∀ i ∈ new, ∃ z, s'.packs.lookup i = some z ∧ s.sealBytes ≤ z
  small : s'.small = s.small ∧ s'.activeSmall = s.activeSmall
  gone : s'.packs.lookup id = none
  sizes : ∀ i z, i ≠ id → s.packs.lookup i = some z → s'.packs.lookup i = some z
  sealBytes : s'.sealBytes = s.sealBytes
  budget : s'.budget = s.budget
  hot : copied = size → ∀ x ∈ es, s.Survives id x.hash

theorem Tally.survives {copied dropped : ℕ} (h : Tally id rs s₀ s copied dropped)
    (hr : Retiring A id s₀ d₀ [] s d) (hall : (encodeRecords rs).length ≤ copied) :
    ∀ x ∈ entriesOf 0 rs, s₀.Survives id x.hash := by
  intro x hx
  have hle := liveBytes_le s₀ id rs
  have hlive := h.live
  have hnamed : s₀.names id x = true := names_of_liveBytes (by omega) x hx
  obtain ⟨e, he, hp, -⟩ := names_iff.mp hnamed
  refine ⟨e, he, hp, (h.hot (by omega) x.hash e he hp).resolve_left fun hl => ?_⟩
  obtain ⟨-, _, hm, -⟩ := hr.coming x.hash e hl hp
  cases hm

theorem retired_retire (h : Good (· = id) noQueue A s d) (hb : Books (onePack id q) s d) (hf : Filed s d)
    (hs : SealedPack d id rs) : EndsFrom quiet (retire id q) s d (fun _ s' d' => Filed s' d' ∧
      ∃ copied size, Retired id q (entriesOf 0 rs) copied size s s') (fun _ _ _ => False) := by
  refine retire_rule (I := fun rest s' d' => Counting A id rs s d rest s' d' ∧ Copying id q rest s' d')
    (fun idx hidx => ⟨?_, hb.copying hidx⟩) ?_
    (fun x rest promoted _ _ hc => ((counting_retireEntry q promoted h hs hc.1).and
      (copying_retireEntry promoted hc.2)).mono (fun _ _ _ h => h) fun _ _ _ h => h.1)
    (fun _ _ hc hn => hc.1.1.good.tidy.queued id (.inr (.inr rfl)) hn) ?_
  · rw [hs.index, some.injEq] at hidx
    rw [← hidx, hs.decodeIndex]
    exact ⟨⟨h, .refl s d, fun hash e he hp => ⟨he, _, h.mem_index hs he hp, rfl⟩,
      fun hash e he hn => by rw [he] at hn; cases hn⟩, hf, 0, 0, .of_terms .main rfl, by omega,
      fun _ hash e he _ => .inl he⟩
  · rintro _ (⟨-, hn⟩ | ⟨hfault, -⟩)
    · rw [hs.index] at hn
      cases hn
    · exact not_faulty_quiet hfault
  rintro s₁ d₁ size t ⟨⟨hr, hf₁, copied, dropped, ht⟩, hc⟩ hsize₁ rfl
  obtain ⟨size', hsize⟩ := ne_none_iff_exists'.mp (h.tidy.queued id (.inr (.inr rfl)))
  obtain rfl : size = size' := some.inj (hsize₁.symm.trans (ht.grown.sizes id size' hsize))
  have hlen : (encodeRecords rs).length = size := by
    obtain ⟨data, hdata, hlen⟩ := hf.sized id size hsize
    rw [hs.pack, some.injEq] at hdata
    rw [hdata, hlen]
  have hcounted : size ≤ s₁.queueBytes q := by
    rw [hc.books.bytes q, onePack, if_pos rfl, singleton_append, map_cons, sum_cons, Store.sizeOf,
      hsize₁, getD_some]
    omega
  refine ⟨fun hfault => absurd hfault not_faulty_quiet,
    (Filed.removed (q := q) hr.good hf₁ hsize₁ rfl).mono ?_ fun _ _ _ h => h⟩
  rintro _ s' d' ⟨hf', hterms⟩
  simp only [terms, Prod.mk.injEq] at hterms
  obtain ⟨h1, -, h3, h4, h5, h6, h7, h8, h9⟩ := hterms
  have hpacks : s'.packs = s₁.packs.erase id := by rw [h7]; cases q <;> rfl
  have hlook : ∀ i, s'.packs.lookup i = if i = id then none else s₁.packs.lookup i := by
    intro i
    rw [hpacks, lookup_erase_eq]
  have hmain : s'.main = s₁.main := by rw [h4]; cases q <;> rfl
  obtain ⟨new, hnew, hfull⟩ := ht.grown.queue
  obtain ⟨hsmall, hactive⟩ := ht.grown.others .small (by simp)
  refine ⟨hf', copied, size, hsize, ?_, fun q' => ?_, ⟨new, hmain.trans hnew, fun i hi => ?_⟩, ⟨?_, ?_⟩, ?_,
    fun i z hi hz => ?_, ?_, ?_, fun hall => ht.survives hr (by omega)⟩
  · have hlive := liveBytes_le s id rs
    have htally := ht.live
    omega
  · rw [← ht.grown.bytes q']
    have hbytes : s'.queueBytes q' = if q' = q then s₁.queueBytes q' - size else s₁.queueBytes q' := by
      cases q <;> cases q' <;> first | exact h5 | exact h6
    rw [hbytes]
    split_ifs with hqq
    · subst hqq
      omega
    · rfl
  · have hne : i ≠ id := by
      rintro rfl
      refine (hr.good.tidy.outside i rfl).2 ?_
      rw [show s₁.main = s.main ++ new from hnew]
      exact mem_append_right _ hi
    rw [hlook, if_neg hne]
    exact hfull i hi
  · rw [h3]
    cases q <;> exact hsmall
  · rw [h1]
    cases q <;> exact hactive
  · rw [hlook, if_pos rfl]
  · rw [hlook, if_neg hi]
    exact ht.grown.sizes i z hz
  · rw [h8, ← ht.grown.sealBytes]
    cases q <;> rfl
  · rw [h9, ← ht.grown.budget]
    cases q <;> rfl

end Tribuchet.ChunkStore
