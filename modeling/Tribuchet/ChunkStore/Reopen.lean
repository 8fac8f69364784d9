import Tribuchet.ChunkStore.Runs
import Tribuchet.ChunkStore.Sealed

/-! What `open` finds after any history of operations, failures and stops. Every
index beside its pack designates records of it, unless the pack was created while
the index of an earlier pack with the same id was still there. That happens:
`retire` unlinks the pack before its index, and ids are chosen from the packs that
are left. -/

namespace Tribuchet.ChunkStore

open ByteStrings Filesystem Hoare Runs List Store
open Option hiding all_eq_true

variable {allowed : Outcome → Prop} {d d' : Directory FileName} {s : Store}

/-- Every entry of the map designates a record of its pack file: the file is a
sequence of records up to it, and the header stored there is its hash and length. -/
def MapDesignates (s : Store) (d : Directory FileName) : Prop :=
  ∀ hash e, s.map.lookup hash = some e →
    ∃ data frame, d.content (.pack e.pack) = some data ∧ Designates data ⟨hash, e.offset, e.len⟩ frame

def Unstale (d : Directory FileName) : Prop :=
  ∀ id, d.file (.index id) ≠ none → ∃ id', id ≤ id' ∧ d.file (.pack id') ≠ none

/-! ### Loading -/

theorem mem_packIds (d : Directory FileName) (id : ℕ) : id ∈ packIds d ↔ d.file (.pack id) ≠ none := by
  have hk : FileName.pack id ∈ d.names.keys ↔ d.file (.pack id) ≠ none := by
    rw [AList.mem_keys.symm, ← AList.lookup_isSome, ← ne_none_iff_isSome]
    rfl
  rw [packIds, mem_insertionSort, mem_filterMap, ← hk]
  constructor
  · rintro ⟨n, hn, he⟩
    cases n with
    | pack i => cases he; exact hn
    | index i => cases he
    | indexTmp i => cases he
  · intro h
    exact ⟨.pack id, h, rfl⟩

theorem packIds_nodup (d : Directory FileName) : (packIds d).Nodup := by
  refine (perm_insertionSort _ _).nodup_iff.mpr ((AList.keys_nodup d.names).filterMap ?_)
  intro m n id hm hn
  cases m <;> cases n <;> simp_all

variable (intact : Bytes → Hash → Bool)

theorem endsIn_indexOf {id : ℕ} {data : Bytes} (hp : d.content (.pack id) = some data) (hok : PackOk d id) :
    EndsIn allowed (indexOf intact id) d
      (fun es d' => OnlyPack id d d' ∧ PackOk d' id ∧ (d.content (.index id) ≠ none → d' = d) ∧
        ∃ data' idx, d'.content (.pack id) = some data' ∧ d'.content (.index id) = some idx ∧
          es = decodeIndex idx)
      (fun _ d' => OnlyPack id d d' ∧ PackOk d' id) := by
  refine EndsIn.tryCatch ((endsIn_loadIndex id).mono ?_ fun _ _ h => h) ?_
  · rintro es d' ⟨rfl, idx, hi, rfl⟩
    exact ⟨.refl _ _, hok, fun _ => rfl, data, idx, hp, hi, rfl⟩
  · rintro e d' ⟨rfl, ⟨rfl, hi⟩ | ⟨-, he⟩⟩
    · rw [if_pos rfl]
      obtain ⟨rs, tail, hsplit, hf, -, hrecover⟩ := endsIn_recover allowed intact hp
      have hlen : (encodeRecords rs).length ≤ maxPackLen := by
        have := hok.bounded data hp
        rw [hsplit, length_append] at this
        omega
      have hframes : ∀ r ∈ rs, r.2.length < 2 ^ 32 := fun r hr => (hf r hr).1
      refine hrecover.mono ?_ ?_
      · rintro es d₂ ⟨ho, rfl, -, hp₂, hi₂, -⟩
        refine ⟨ho, packOk_of_sealed hframes hlen hp₂ hi₂, fun h => absurd hi h, _, _, hp₂, hi₂, ?_⟩
        exact (decodeIndex_encodeIndex
          (inBounds_entriesOf hframes (lt_of_le_of_lt hlen maxPackLen_lt))).symm
      · rintro _ d₂ ⟨-, ho, hi₂, -, hp₂⟩
        refine ⟨ho, packOk_of_unindexed (hi₂.trans hi) fun data' hd => ?_⟩
        rcases hp₂ with hp₂ | hp₂ <;> rw [hp₂, some.injEq] at hd
        · exact hd ▸ hok.bounded data hp
        · exact hd ▸ hlen
    · rw [if_neg he]
      exact endsIn_throw ⟨.refl _ _, hok⟩

theorem lookup_addEntries {id : ℕ} {es : List IndexEntry} {map : AList fun _ : Hash => Entry} {hash : Hash}
    {e : Entry} (h : (addEntries id es map).lookup hash = some e) :
    (∃ x ∈ es, x.hash = hash ∧ e = ⟨id, x.offset, x.len, 0⟩) ∨ map.lookup hash = some e := by
  induction es generalizing map with
  | nil => exact .inr h
  | cons x es ih =>
    rcases ih h with ⟨y, hy, h1⟩ | hm
    · exact .inl ⟨y, mem_cons_of_mem x hy, h1⟩
    · rw [Table.lookup_insert_eq] at hm
      split_ifs at hm with hx
      · exact .inl ⟨x, by simp, hx.symm, (some.inj hm).symm⟩
      · exact .inr hm

/-- While packs are loaded: `rest` are the packs still to come, `P` says that the
directory had no stale index at the start. -/
structure Loading (P : Prop) (rest : List ℕ) (s : Store) (d : Directory FileName) : Prop where
  packs : ∀ id, PackOk d id
  writers : ∀ q, s.writer q = none
  small : s.small = []
  main : ∀ id ∈ s.main, id < s.nextId
  limit : 0 < s.sealBytes ∧ s.sealBytes ≤ 256 * 2 ^ 20
  exist : ∀ id ∈ rest, d.file (.pack id) ≠ none
  below : ∀ id, d.file (.pack id) ≠ none → id ∈ rest ∨ id < s.nextId
  unstale : P → Unstale d
  loaded : ∀ hash e, s.map.lookup hash = some e → d.content (.index e.pack) ≠ none
  map : MapDesignates s d

variable {P : Prop}

theorem loading_loadPack (id : ℕ) (rest : List ℕ)
    (h : Loading P (id :: rest) s d) : EndsFrom allowed (loadPack intact () id) s d
      (fun _ => Loading P rest) (fun _ _ d' => ∀ id, PackOk d' id) := by
  obtain ⟨data, hdata⟩ : ∃ data, d.content (.pack id) = some data :=
    ne_none_iff_exists'.mp fun hn => h.exist id (by simp) (Directory.content_eq_none.mp hn)
  have hpacks : ∀ {d'}, OnlyPack id d d' → PackOk d' id → ∀ i, PackOk d' i := by
    intro d' ho hok i
    rcases eq_or_ne i id with rfl | hi
    · exact hok
    · exact (h.packs i).onlyPack ho hi
  refine loadPack_rule (endsIn_indexOf intact hdata (h.packs id)) (fun _ _ h => hpacks h.1 h.2)
    (fun _ _ _ h _ => hpacks h.1 h.2.1) ?_
  rintro _ d' bytes ⟨ho, hok, hsame, _, idx, -, hi', rfl⟩ hp'
  have hpack : ∀ n, d'.file (.pack n) ≠ none ↔ d.file (.pack n) ≠ none := by
    intro n
    rcases eq_or_ne n id with rfl | hn
    · rw [ne_eq, ne_eq, ← Directory.content_eq_none, ← Directory.content_eq_none, hp', hdata]
      simp
    · rw [ho.file (.pack n) hn]
  refine ⟨hpacks ho hok, h.writers, h.small, ?_, h.limit, ?_, ?_, ?_, ?_, ?_⟩
  · intro i hi
    rcases mem_append.mp hi with hi | hi
    · exact lt_of_lt_of_le (h.main i hi) (le_max_left _ _)
    · rw [mem_singleton.mp hi]
      exact lt_of_lt_of_le (Nat.lt_succ_self _) (le_max_right _ _)
  · intro i hi
    exact (hpack i).mpr (h.exist i (mem_cons_of_mem id hi))
  · intro i hi
    rcases h.below i ((hpack i).mp hi) with hm | hlt
    · rcases mem_cons.mp hm with rfl | hm
      · exact .inr (lt_of_lt_of_le (Nat.lt_succ_self _) (le_max_right _ _))
      · exact .inl hm
    · exact .inr (lt_of_lt_of_le hlt (le_max_left _ _))
  · intro hP i hi
    rcases eq_or_ne i id with rfl | hne
    · exact ⟨i, le_rfl, (hpack i).mpr (h.exist i (by simp))⟩
    · rw [ho.file (.index i) hne] at hi
      obtain ⟨i', hle, hi'⟩ := h.unstale hP i hi
      exact ⟨i', hle, (hpack i').mpr hi'⟩
  · intro hash e he
    rcases lookup_addEntries he with ⟨x, -, -, rfl⟩ | he
    · simp [hi']
    · rcases eq_or_ne e.pack id with hid | hid
      · simp [hid, hi']
      · rw [ho.content (.index e.pack) hid]
        exact h.loaded hash e he
  · intro hash e he
    rcases lookup_addEntries he with ⟨x, hx, rfl, rfl⟩ | he
    · obtain ⟨frame, hf⟩ := hok.indexed bytes idx hp' hi' x hx
      exact ⟨bytes, frame, hp', hf⟩
    · -- an entry of a pack loaded before: that pack has an index and is left alone
      have hcont : d'.content (.pack e.pack) = d.content (.pack e.pack) := by
        rcases eq_or_ne e.pack id with hid | hid
        · rw [hsame (hid ▸ h.loaded hash e he)]
        · exact ho.content (.pack e.pack) hid
      rw [hcont]
      exact h.map hash e he

theorem loading_load (allowed : Outcome → Prop) (intact : Bytes → Hash → Bool) (budget : ℕ) (hok : ∀ id, PackOk d id) :
    EndsFrom allowed (load intact) (initial budget) d
      (fun _ s' d' => MapDesignates s' d' ∧ (∀ id, PackOk d' id) ∧ (Unstale d → Safe (fun _ => False) noQueue s' d'))
      (fun _ _ d' => ∀ id, PackOk d' id) := by
  have hinit : Loading (Unstale d) (packIds d) (initial budget) d := by
    refine ⟨hok, fun q => by cases q <;> rfl, rfl, by simp [initial], ⟨?_, ?_⟩, ?_, ?_, id,
      by simp [initial], by simp [MapDesignates, initial]⟩
    · exact lt_of_lt_of_le (by norm_num) (le_max_left _ _)
    · exact max_le (Nat.mul_le_mul_right _ (by omega)) (min_le_right _ _)
    · exact fun id hid => (mem_packIds d id).mp hid
    · exact fun id hid => .inl ((mem_packIds d id).mpr hid)
  refine (load_rule hinit fun id rest _ _ h => loading_loadPack intact id rest h).mono ?_ fun _ _ _ h => h
  intro _ s d h
  have hwr : ∀ q w, s.writer q ≠ some w := by
    intro q w
    rw [h.writers q]
    simp
  refine ⟨h.map, h.packs, fun hu => ⟨h.packs, fun q w hq => absurd hq (hwr q w),
    fun q _ w _ hq => absurd hq (hwr q w), fun i hi => ?_, fun i hi => ⟨?_, ?_⟩, h.limit⟩⟩
  · rw [h.small] at hi
    simp only [not_mem_nil, or_false, false_or] at hi
    exact ⟨h.main i hi, fun q w hq => absurd hq (hwr q w)⟩
  · by_contra hn
    have := (h.below i hn).resolve_left (by simp)
    omega
  · by_contra hn
    obtain ⟨i', hle, hi'⟩ := h.unstale hu i hn
    have := (h.below i' hi').resolve_left (by simp)
    omega

/-! ### Runs -/

/-- The store is opened only on directories without a stale index. -/
def NoStaleIndex (s : State) : Action → Prop
  | .start _ _ => Unstale s.dir
  | _ => True

structure Consistent (s : State) : Prop where
  packs : ∀ id, PackOk s.dir id
  safe : ∀ p, s.process = some p → Safe (fun _ => False) noQueue p.store s.dir

theorem consistent_empty : Consistent State.empty where
  packs id := packOk_of_unindexed rfl (by rintro _ ⟨⟩)
  safe := by simp [State.empty]

theorem Safe.consistent {t : State} {st : Store} {evicting : Option ℕ}
    (h : Safe (fun _ => False) noQueue st t.dir) : Consistent { t with process := some ⟨st, evicting⟩ } where
  packs := h.packs
  safe := by
    rintro p ⟨⟩
    exact h

theorem consistent_after {α : Type} {t : State} {st : Store} {x : StoreM α}
    (hx : EndsFrom (fun _ => True) x st t.dir (fun _ => Safe (fun _ => False) noQueue)
      (fun _ => Safe (fun _ => False) noQueue)) (outcomes : List Outcome) {k : α → Store → State → State}
    (hk : ∀ a st' t', t'.process = some ⟨st', none⟩ → Consistent t' → Consistent (k a st' t')) :
    Consistent (t.after (exec x (t.world st outcomes)) k) := by
  have h := hx outcomes (by simp)
  unfold State.after
  unfold Ends at h
  simp only [State.world] at h ⊢
  cases hr : exec x ⟨st, ⟨t.dir, outcomes⟩⟩ with
  | mk r w =>
    rw [hr] at h
    cases r with
    | ok a => exact hk a w.store _ rfl (Safe.consistent (t := { t with dir := w.disk.dir }) h.1)
    | error e =>
      cases e with
      | io kind => exact Safe.consistent (t := { t with dir := w.disk.dir }) h.1
      | panicked | stopped => exact ⟨h.1.packs, by simp⟩

theorem Consistent.idle {t : State} {st : Store} (h : Consistent t) (hi : t.idle = some st) :
    Safe (fun _ => False) noQueue st t.dir := by
  unfold State.idle at hi
  split at hi
  · rename_i hp
    cases hi
    exact h.safe _ hp
  · cases hi

theorem consistent_step {t t' : State} {a : Action} (h : Consistent t)
    (hn : NoStaleIndex t a) (hs : step intact t a = some t') : Consistent t' := by
  cases a with
  | start budget outcomes =>
    simp only [step] at hs
    split at hs
    · cases hs
    · have hl := loading_load (fun _ => True) intact budget h.packs outcomes (by simp)
      unfold Ends at hl
      simp only [State.world] at hs
      split at hs
      · rename_i hx
        cases hs
        rw [hx] at hl
        obtain ⟨⟨-, -, hsafe⟩, -⟩ := hl
        exact ⟨(hsafe hn).packs, by rintro p ⟨⟩; exact hsafe hn⟩
      · rename_i hx
        cases hs
        rw [hx] at hl
        exact ⟨hl.1, by simp⟩
  | insert hash bytes outcomes =>
    obtain ⟨st, hi, rfl⟩ := map_eq_some_iff.mp hs
    have hsafe := h.idle hi
    split_ifs
    · exact consistent_after (safe_insert hash bytes hsafe) outcomes fun fresh st' t' hp ht =>
        Safe.consistent (ht.safe _ hp)
    · exact consistent_after (t := { t with admitted := t.admitted.insert hash bytes })
        (safe_insert hash bytes hsafe) outcomes fun fresh st' t' hp ht => Safe.consistent (ht.safe _ hp)
  | evict outcomes =>
    simp only [step] at hs
    split at hs
    · rename_i st n hp
      cases hs
      refine consistent_after (safe_evictTurn n (h.safe _ hp)) outcomes fun next st' t' hp' ht => ?_
      have hst := ht.safe _ hp'
      cases next with
      | none => exact Safe.consistent (hst.congr rfl)
      | some m => exact Safe.consistent hst
    · cases hs
  | locate hash outcomes =>
    obtain ⟨st, hi, rfl⟩ := map_eq_some_iff.mp hs
    exact consistent_after (safe_locate hash (h.idle hi)) outcomes fun r st' t' hp ht => ⟨ht.packs, ht.safe⟩
  | peek hash outcomes =>
    obtain ⟨st, hi, rfl⟩ := map_eq_some_iff.mp hs
    exact consistent_after (safe_peek hash (h.idle hi)) outcomes fun r st' t' hp ht => ⟨ht.packs, ht.safe⟩
  | forget hash =>
    obtain ⟨st, hi, rfl⟩ := map_eq_some_iff.mp hs
    exact Safe.consistent ((h.idle hi).congr rfl)
  | pin hashes =>
    obtain ⟨st, hi, rfl⟩ := map_eq_some_iff.mp hs
    exact Safe.consistent (t := { t with guards := hashes :: t.guards }) ((h.idle hi).congr rfl)
  | dropGuard i =>
    simp only [step] at hs
    split at hs
    · rename_i p hashes hp hg
      cases hs
      exact Safe.consistent (t := { t with guards := t.guards.eraseIdx i }) ((h.safe p hp).congr rfl)
    · cases hs
  | quit =>
    cases hs
    exact ⟨h.packs, by simp⟩

/-- After any run in which the store was opened only on directories without a stale
index, each open yields a map whose every entry designates a record of its pack with
exactly the entry's hash and length in the stored header. -/
theorem reopened_map_designates (intact : Bytes → Hash → Bool) {t t' : State} {p : Process} {budget : ℕ}
    {outcomes : List Outcome} (h : (system intact).ReachableIf NoStaleIndex t)
    (hs : step intact t (.start budget outcomes) = some t') (hp : t'.process = some p) :
    MapDesignates p.store t'.dir := by
  have hc : Consistent t := by
    refine h.invariant ?_ fun _ _ _ hi hn hs => consistent_step intact hi hn hs
    rintro _ rfl
    exact consistent_empty
  have hl := loading_load (fun _ => True) intact budget hc.packs outcomes (by simp)
  unfold Ends at hl
  simp only [step, State.world] at hs
  split at hs
  · cases hs
  · split at hs <;> rename_i hx <;> cases hs
    · rw [hx] at hl
      cases hp
      exact hl.1.1
    · cases hp

/-! ### Two histories -/

private def ones : Hash := ⟨replicate 32 1, rfl⟩

private def twos : Hash := ⟨replicate 32 2, rfl⟩

private def anyFrame : Bytes → Hash → Bool := fun _ _ => true

def noStaleIndex (s : State) : Action → Bool
  | .start _ _ => s.dir.names.keys.all fun
    | .index id => (packIds s.dir).any fun id' => id ≤ id'
    | _ => true
  | _ => true

theorem noStaleIndex_sound (s : State) (a : Action) (h : noStaleIndex s a = true) : NoStaleIndex s a := by
  cases a with
  | start budget outcomes =>
    intro id hid
    simp only [noStaleIndex, all_eq_true] at h
    have hk : FileName.index id ∈ s.dir.names.keys := by
      rw [AList.mem_keys.symm, ← AList.lookup_isSome, ← Option.ne_none_iff_isSome]
      exact hid
    obtain ⟨id', hmem, hle⟩ := any_eq_true.mp (h _ hk)
    exact ⟨id', of_decide_eq_true hle, (mem_packIds s.dir id').mp hmem⟩
  | _ => trivial

/-- A pack was sealed and the process stopped before retiring it: the next open finds
its record. -/
theorem reopened_map_designates_sealed : ∃ t t' p, (system anyFrame).ReachableIf NoStaleIndex t ∧
    step anyFrame t (.start 0 []) = some t' ∧ t'.process = some p ∧
    p.store.map.lookup ones = some ⟨0, headerLen, 2, 0⟩ ∧ MapDesignates p.store t'.dir := by
  obtain ⟨t, ht, hp⟩ := (system anyFrame).exists_reachableIf_of_exec noStaleIndex noStaleIndex_sound State.empty
    [.start 0 [], .insert ones [7, 7] [], .evict [.ok, .ok, .ok, .ok, .ok, .ok, .stop 0]]
    (fun t => (step anyFrame t (.start 0 [])).any fun t' =>
      t'.process.any fun p => p.store.map.lookup ones == some ⟨0, headerLen, 2, 0⟩) rfl (by decide +kernel)
  obtain ⟨t', hs, h'⟩ := (any_eq_true _ _).mp hp
  obtain ⟨p, hproc, hl⟩ := (any_eq_true _ _).mp h'
  exact ⟨t, t', p, ht, hs, hproc, by simpa using hl, reopened_map_designates anyFrame ht hs hproc⟩

/-- The process stops between the unlinks of pack 0 and its index, the next process
uses id 0 again and stops after one append: the map after the next open says that pack 0
holds a chunk that is gone, where another chunk's record is. -/
theorem reopened_map_misdesignates : ∃ t t' p, (system anyFrame).Reachable t ∧
    step anyFrame t (.start 0 []) = some t' ∧ t'.process = some p ∧
    p.store.map.lookup ones = some ⟨0, headerLen, 2, 0⟩ ∧
    t'.dir.content (.pack 0) = some (record twos [9]) ∧ ¬ MapDesignates p.store t'.dir := by
  obtain ⟨t, ht, hp⟩ := (system anyFrame).exists_reachable_of_exec State.empty
    [.start 0 [], .insert ones [7, 7] [], .evict [.ok, .ok, .ok, .ok, .ok, .ok, .ok, .ok, .stop 0],
      .start 0 [], .insert twos [9] [], .quit]
    (fun t => (step anyFrame t (.start 0 [])).any fun t' =>
      t'.process.any fun p => p.store.map.lookup ones == some ⟨0, headerLen, 2, 0⟩ &&
        t'.dir.content (.pack 0) == some (record twos [9])) rfl (by decide +kernel)
  obtain ⟨t', hs, h'⟩ := (any_eq_true _ _).mp hp
  obtain ⟨p, hproc, hl⟩ := (any_eq_true _ _).mp h'
  simp only [Bool.and_eq_true, beq_iff_eq] at hl
  obtain ⟨hl, hc⟩ := hl
  refine ⟨t, t', p, ht, hs, hproc, hl, hc, fun hm => ?_⟩
  obtain ⟨data, frame, hdata, hd⟩ := hm ones _ hl
  rw [hc, some.injEq] at hdata
  subst hdata
  exact absurd hd.header.2.2 (by decide)

end Tribuchet.ChunkStore
