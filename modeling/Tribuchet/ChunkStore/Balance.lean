import Tribuchet.ChunkStore.Books

/-! The books of a store through eviction, opening and whole runs. They agree after
every run in which sealing and copying complete, and a pack that cannot be sealed is
counted for ever. -/

namespace Tribuchet.ChunkStore

open ByteStrings Filesystem Hoare Runs List Option Table AList
open Store hiding sizeOf

variable {α : Type} {allowed : Outcome → Prop} {d d' : Directory FileName} {s s' : Store}
  {front : Queue → List ℕ}

/-! ### Retiring a pack -/

theorem books_append (q : Queue) (hash : Hash) (bytes : Bytes) (freq : ℕ) (h : Books front s d) :
    EndsFrom allowed (append q hash bytes freq) s d
      (fun _ s' d' => Books front s' d' ∧ ∃ e, s'.map = s.map.insert hash e ∧ e.pack ∉ s.packs.keys)
      (fun _ _ _ => True) := by
  rw [append_eq]
  refine EndsFrom.bind ((books_appendRecord q hash bytes freq h).mono (fun _ _ _ h => h) fun _ _ _ _ => trivial) ?_
  rintro full s₁ d₁ ⟨h₁, -, e, hm, he⟩
  cases full with
  | false => exact endsFrom_pure ⟨h₁, e, hm, he⟩
  | true =>
    refine (books_sealQueue q h₁).mono ?_ fun _ _ _ h => h
    rintro _ s₂ d₂ ⟨h₂, hm₂⟩
    exact ⟨h₂, e, hm₂.trans hm, he⟩

theorem Books.reread (h : Books front s d) (hr : Reread s d s' d') : Books front s' d' ∧ s'.map = s.map := by
  obtain ⟨rfl, _, rfl⟩ := hr
  exact ⟨h.congr_map rfl rfl, rfl⟩

variable {id : ℕ} {q : Queue}

/-- What the map still names in the pack that is being retired is to come. -/
structure Copying (id : ℕ) (q : Queue) (rest : List IndexEntry) (s : Store) (d : Directory FileName) : Prop where
  books : Books (onePack id q) s d
  coming : ∀ hash e, s.map.lookup hash = some e → e.pack = id → hash ∈ rest.map IndexEntry.hash

theorem Books.mem_front (h : Books (onePack id q) s d) : id ∈ s.packs.keys := by
  refine h.queues.subset ?_
  cases q <;> simp [onePack]

theorem Copying.next {x : IndexEntry} {rest : List IndexEntry} (h : Copying id q (x :: rest) s d)
    (hb : Books (onePack id q) s' d')
    (hm : ∀ hash e, s'.map.lookup hash = some e → e.pack = id → hash ≠ x.hash ∧ s.map.lookup hash = some e) :
    Copying id q rest s' d' := by
  refine ⟨hb, fun hash e he hp => ?_⟩
  obtain ⟨hne, he⟩ := hm hash e he hp
  exact (mem_cons.mp (h.coming hash e he hp)).resolve_left hne

theorem copying_retireEntry (promoted : Bool) {x : IndexEntry} {rest : List IndexEntry}
    (h : Copying id q (x :: rest) s d) : EndsFrom allowed (retireEntry id q promoted x) s d
      (fun _ => Copying id q rest) (fun _ _ _ => True) := by
  refine retireEntry_rule (fun hx => h.next h.books fun hash e he hp => ⟨?_, he⟩) (fun _ _ _ _ _ => ?_)
    (fun _ _ _ => (reread_frame _ _ _).mono (fun _ _ _ hr => hr) fun _ _ _ _ => trivial) ?_
  · rintro rfl
    exact hx e he hp
  · -- cold and unpinned: it leaves the map
    obtain ⟨hp, -, hm, -⟩ := dropEntry_fields s q x.hash
    have hledger : (s.dropEntry q x.hash).ledger = s.ledger := by
      cases q with
      | main => rfl
      | small =>
        simp only [dropEntry, ghostPush]
        split_ifs <;> rfl
    have herased : ∀ hash e, (s.dropEntry q x.hash).map.lookup hash = some e →
        hash ≠ x.hash ∧ s.map.lookup hash = some e := by
      intro hash e he
      rw [hm, lookup_erase_eq] at he
      split_ifs at he with hne
      exact ⟨hne, he⟩
    refine h.next (h.books.congr hledger fun hash e he => ?_) fun hash e he _ => herased hash e he
    exact ⟨e, (herased hash e he).2, rfl⟩
  · -- hot or pinned: it is copied forward, into a pack that is not this one
    intro _ bytes s₁ d₁ freq _ _ _ hr
    obtain ⟨h₁, hm₁⟩ := h.books.reread hr
    refine (books_append .main _ bytes freq (h₁.erase x.hash)).mono ?_ fun _ _ _ h => h
    rintro - s₂ d₂ ⟨h₂, e₂, hm₂, hpack₂⟩
    refine h.next h₂ fun hash e he hp => ?_
    rw [hm₂, lookup_insert_eq] at he
    split_ifs at he with hne
    · cases he
      exact absurd (hp ▸ h₁.mem_front) hpack₂
    · rw [lookup_erase_eq, if_neg hne, hm₁] at he
      exact ⟨hne, he⟩

theorem Books.copying (h : Books (onePack id q) s d) {idx : Bytes} (hidx : d.content (.index id) = some idx) :
    Copying id q (decodeIndex idx) s d := by
  refine ⟨h, fun hash e he hp => ?_⟩
  rcases h.map hash e he with ⟨-, idx', hidx', hm⟩ | ⟨q', w, hq', hid, -⟩
  · rw [hp, hidx, some.injEq] at hidx'
    exact hidx' ▸ hm
  · exact absurd (hid.trans hp ▸ h.mem_front) (h.active q' w hq').2.1

theorem copying_copyForward (h : Books (onePack id q) s d) : EndsFrom allowed (copyForward id q) s d
    (fun _ => Copying id q []) (fun _ _ _ => True) := by
  unfold copyForward
  refine EndsFrom.bind (R := fun entries s' d' => Copying id q entries s' d')
    (endsFrom_onDisk (endsIn_loadIndex id) ?_ fun _ _ _ => trivial) fun entries s₁ d₁ h₁ => ?_
  · rintro entries _ ⟨rfl, idx, hidx, rfl⟩
    exact h.copying hidx
  · exact endsFrom_foldlM (I := fun rest _ => Copying id q rest)
      (fun x rest promoted _ _ h => copying_retireEntry promoted h) h₁

theorem Copying.dropped {size : ℕ} (h : Copying id q [] s d) (hsize : s.packs.lookup id = some size) :
    Books noPack ({ s with packs := s.packs.erase id }.setBytes q (· - size)) d := by
  have hb := h.books
  generalize ht : ({ s with packs := s.packs.erase id }.setBytes q (· - size)) = t
  have hpacks : t.packs = s.packs.erase id := by subst ht; cases q <;> rfl
  have hkeys : t.packs.keys = s.packs.keys.erase id := by rw [hpacks, keys_erase]
  have hwr : t.writer = s.writer := by
    subst ht
    funext q'
    cases q <;> cases q' <;> rfl
  have hqueue : t.queue = s.queue := by
    subst ht
    funext q'
    cases q <;> cases q' <;> rfl
  have hmem : ∀ i, i ∈ t.packs.keys ↔ i ≠ id ∧ i ∈ s.packs.keys := by
    intro i
    rw [hkeys, (keys_nodup s.packs).mem_erase_iff]
  have hperm : (s.small ++ s.main).Perm t.packs.keys := by
    have hall : (id :: (s.small ++ s.main)).Perm s.packs.keys := by
      refine List.Perm.trans ?_ hb.queues
      cases q with
      | small => exact List.Perm.refl _
      | main => exact perm_middle.symm
    rw [hkeys]
    have := hall.erase id
    rwa [erase_cons_head] at this
  have hnot : ∀ q', ∀ i ∈ s.queue q', i ≠ id := by
    intro q' i hi
    refine ((hmem i).mp (hperm.subset ?_)).1
    cases q' with
    | small => exact mem_append_left _ hi
    | main => exact mem_append_right _ hi
  have hsizes : ∀ q', (s.queue q').map t.sizeOf = (s.queue q').map s.sizeOf := by
    intro q'
    refine map_congr_left fun i hi => ?_
    rw [Store.sizeOf, hpacks, lookup_erase_eq, if_neg (hnot q' i hi), Store.sizeOf]
  refine ⟨fun q' => ?_, ?_, fun i hi => ?_, fun q' w hq' => ?_, ?_, fun hash e he => ?_⟩
  · have hbytes := hb.bytes q'
    have hold : s.sizeOf id = size := by rw [Store.sizeOf, hsize, getD_some]
    rw [activeLen, hqueue, hwr, noPack, nil_append, hsizes]
    rcases eq_or_ne q' q with rfl | hqq
    · have htb : t.queueBytes q' = s.queueBytes q' - size := by subst ht; cases q' <;> rfl
      rw [onePack, if_pos rfl, singleton_append, map_cons, sum_cons, hold] at hbytes
      rw [htb, hbytes, activeLen]
      omega
    · have htb : t.queueBytes q' = s.queueBytes q' := by
        subst ht
        cases q <;> cases q' <;> first | rfl | exact absurd rfl hqq
      rw [onePack, if_neg hqq, nil_append] at hbytes
      rw [htb, hbytes, activeLen]
  · have hlists : t.small = s.small ∧ t.main = s.main := ⟨congrFun hqueue .small, congrFun hqueue .main⟩
    rw [hlists.1, hlists.2]
    exact hperm
  · have hnext : t.nextId = s.nextId := by subst ht; cases q <;> rfl
    rw [hnext]
    exact hb.below i ((hmem i).mp hi).2
  · have hnext : t.nextId = s.nextId := by subst ht; cases q <;> rfl
    rw [hwr] at hq'
    obtain ⟨h1, h2, h3⟩ := hb.active q' w hq'
    exact ⟨by rw [hnext]; exact h1, fun hm => h2 ((hmem w.id).mp hm).2, h3⟩
  · rw [hwr]
    exact hb.distinct
  · have hmap : t.map = s.map := by subst ht; cases q <;> rfl
    rw [hmap] at he
    rw [hwr]
    rcases hb.map hash e he with ⟨hk, hl⟩ | hw
    · have hne : e.pack ≠ id := fun hp => by cases h.coming hash e he hp
      exact .inl ⟨(hmem e.pack).mpr ⟨hne, hk⟩, hl⟩
    · exact .inr hw

theorem Books.unlink (h : Books noPack s d) {n : FileName} (hn : n.id ∉ s.packs.keys) :
    Books noPack s (d.unlink n) := by
  refine h.disk (fun i hi => (grows_unlink n i hi).1) fun id hid => ?_
  rw [Directory.content_unlink, if_neg]
  rintro rfl
  exact hn hid

theorem books_dropPack (promoted : Bool) (h : Copying id q [] s d) : EndsFrom allowed (dropPack id q promoted) s d
    (fun _ => Books noPack) (fun _ => Books noPack) := by
  unfold dropPack
  refine endsFrom_getStore ?_
  split
  · rename_i hn
    exact absurd (mem_keys.mpr h.books.mem_front) (lookup_eq_none.mp hn)
  · rename_i size hsize
    have hd := h.dropped hsize
    generalize ht : { s with packs := s.packs.erase id }.setBytes q (· - size) = t at hd
    have hid : id ∉ t.packs.keys := by
      have hpacks : t.packs = s.packs.erase id := by subst ht; cases q <;> rfl
      rw [hpacks, keys_erase, (keys_nodup s.packs).mem_erase_iff]
      exact fun hm => hm.1 rfl
    have hremove : EndsFrom allowed (removePack id) t d (fun _ => Books noPack) (fun _ => Books noPack) := by
      have hread : ∀ {d}, Books noPack t d → Books noPack { t with readers := t.readers.erase id } d :=
        fun h => h.congr_map rfl rfl
      have hpack := hd.unlink (n := .pack id) hid
      exact removePack_rule rfl (fun _ _ => hread hd) (fun _ _ => ⟨hread hpack, hread hpack⟩)
        (hread (hpack.unlink (n := .index id) hid))
    refine endsFrom_modifyStore ?_
    rw [ht]
    split_ifs
    · refine EndsFrom.bind (R := fun _ s' d' => s' = t ∧ d' = d)
        (endsFrom_onDisk endsIn_syncData (fun _ _ h => ⟨rfl, h⟩) ?_) ?_
      · rintro _ _ ⟨rfl, -⟩
        exact hd
      · rintro _ _ _ ⟨rfl, rfl⟩
        exact hremove
    · exact hremove

/-! ### A turn of the eviction -/

def BooksOf (v : Option (ℕ × Queue)) (s : Store) (d : Directory FileName) : Prop :=
  match v with
  | none => Books noPack s d
  | some (id, q) => Books (onePack id q) s d

theorem booksOf_mainVictim (h : Books noPack s d) : EndsFrom allowed mainVictim s d BooksOf (fun _ _ _ => True) := by
  have hpop : ∀ {s d}, Books noPack s d → EndsFrom allowed popMain s d BooksOf (fun _ _ _ => True) := by
    intro s d h
    unfold popMain
    refine endsFrom_getStore ?_
    split
    · exact endsFrom_pure h
    · rename_i id rest hm
      refine endsFrom_modifyStore (endsFrom_pure ⟨fun q => ?_, ?_, h.below, h.active, h.distinct, h.map⟩)
      · have hb := h.bytes q
        cases q with
        | small => exact hb
        | main =>
          rw [queue, hm] at hb
          exact hb
      · have hq := h.queues
        rw [hm] at hq
        exact hq
  unfold mainVictim
  refine endsFrom_getStore ?_
  split_ifs
  · exact EndsFrom.bind (books_sealQueue .main h) fun _ _ _ h => hpop h.1
  · exact hpop h

theorem booksOf_smallVictim (h : Books noPack s d) :
    EndsFrom allowed smallVictim s d BooksOf (fun _ _ _ => True) := by
  unfold smallVictim
  refine endsFrom_getStore ?_
  split
  · rename_i id rest hm
    refine endsFrom_modifyStore (endsFrom_pure ⟨fun q => ?_, ?_, h.below, h.active, h.distinct, h.map⟩)
    · have hb := h.bytes q
      cases q with
      | main => exact hb
      | small =>
        rw [queue, hm] at hb
        exact hb
    · have hq := h.queues
      rw [hm] at hq
      exact hq
  · exact booksOf_mainVictim h

theorem booksOf_victim (h : Books noPack s d) : EndsFrom allowed victim s d BooksOf (fun _ _ _ => True) := by
  unfold victim
  refine endsFrom_getStore ?_
  split_ifs
  · exact endsFrom_pure h
  · exact EndsFrom.bind (books_sealQueue .small h) fun _ _ _ h => booksOf_smallVictim h.1
  · exact booksOf_smallVictim h
  · exact booksOf_mainVictim h

variable {x : StoreM α} {w : World}

theorem Completes.bind {β : Type} {f : α → StoreM β} (h : Completes (x >>= f) w) :
    Completes x w ∧ ∀ a w', exec x w = (.ok a, w') → Completes (f a) w' := by
  unfold Completes at h ⊢
  rw [exec_bind] at h
  refine ⟨fun kind hk => ?_, fun a w' hx kind hk => ?_⟩
  · cases hx : exec x w with
    | mk r w' =>
      rw [hx] at h hk
      subst hk
      exact h kind rfl
  · rw [hx] at h
    exact h kind hk

/-- The books agree after `x`, also when an I/O error came out of it. -/
def KeepsBooks (x : StoreM α) (w : World) : Prop :=
  Ends x w (fun _ w' => Books noPack w'.store w'.disk.dir)
    fun e w' => (∃ kind, e = .io kind) → Books noPack w'.store w'.disk.dir

variable {outcomes : List Outcome}

theorem EndsFrom.completes {Q : α → Store → Directory FileName → Prop}
    (h : EndsFrom (fun _ => True) x s d Q fun _ _ _ => True) (hc : Completes x ⟨s, ⟨d, outcomes⟩⟩) :
    Ends x ⟨s, ⟨d, outcomes⟩⟩ (fun a w => Q a w.store w.disk.dir)
      fun e w => (∃ kind, e = .io kind) → Books noPack w.store w.disk.dir := by
  have hx := h outcomes (by simp)
  unfold Ends at hx ⊢
  cases he : exec x ⟨s, ⟨d, outcomes⟩⟩ with
  | mk r w =>
    rw [he] at hx
    cases r with
    | ok a => exact hx.1
    | error e =>
      rintro ⟨kind, rfl⟩
      exact absurd (congrArg Prod.fst he) (hc kind)

theorem keepsBooks_of_endsFrom (h : EndsFrom (fun _ => True) x s d (fun _ => Books noPack) fun _ => Books noPack) :
    KeepsBooks x ⟨s, ⟨d, outcomes⟩⟩ :=
  (h outcomes (by simp)).mono (fun _ _ hq => hq.1) fun _ _ he _ => he.1

theorem keepsBooks_retire (h : Books (onePack id q) w.store w.disk.dir)
    (hc : Completes (copyForward id q) w) : KeepsBooks (retire id q) w := by
  rw [retire_eq]
  exact (EndsFrom.completes (copying_copyForward h) hc).bind fun promoted w' hw =>
    keepsBooks_of_endsFrom (books_dropPack promoted hw)

theorem keepsBooks_evictTurn (n : ℕ) (h : Books noPack w.store w.disk.dir)
    (hc : Completes copyVictim w) : KeepsBooks (evictTurn n) w := by
  obtain ⟨hv, hcopy⟩ := hc.bind
  rw [evictTurn_eq]
  refine (EndsFrom.completes (booksOf_victim h) hv).bind_exec fun v w' hx hbooks => ?_
  have hretire : ∀ {id q}, v = some (id, q) → KeepsBooks (retire id q) w' := by
    rintro id q rfl
    exact keepsBooks_retire hbooks (hcopy _ _ hx).bind.1
  match v with
  | none => exact ends_pure hbooks
  | some (id, .small) => exact (hretire rfl).bind fun _ w'' hw => ends_pure hw
  | some (id, .main) =>
    refine ends_get_bind ((hretire rfl).bind fun _ w'' hw => ends_get_bind ?_)
    split_ifs <;> exact ends_pure hw

/-! ### The other operations -/

theorem keepsBooks_insert (hash : Hash) (bytes : Bytes) (h : Books noPack w.store w.disk.dir)
    (hc : w.store.contains hash = false → ∀ w',
      exec (appendRecord (w.store.insertQueue hash) hash bytes 0) { w with store := (w.store.ghostRemove hash).2 } =
        (.ok true, w') → Completes (sealQueue (w.store.insertQueue hash)) w') :
    KeepsBooks (insertFrame hash bytes) w := by
  unfold insertFrame
  refine ends_get_bind ?_
  split_ifs with hin
  · exact ends_pure h
  · refine ends_modify_bind ?_
    have hr : KeepsBooks (append (w.store.insertQueue hash) hash bytes 0)
        { w with store := (w.store.ghostRemove hash).2 } := by
      rw [append_eq]
      have hbooks : Books noPack (w.store.ghostRemove hash).2 w.disk.dir := h.congr_map rfl rfl
      have hrec : KeepsBooks (appendRecord (w.store.insertQueue hash) hash bytes 0)
          { w with store := (w.store.ghostRemove hash).2 } :=
        keepsBooks_of_endsFrom ((books_appendRecord _ hash bytes 0 hbooks).mono (fun _ _ _ hr => hr.1)
          fun _ _ _ hr => hr)
      refine hrec.bind_exec fun full w' hx hb => ?_
      cases full with
      | false => exact ends_pure hb
      | true =>
        exact (EndsFrom.completes (books_sealQueue _ hb) (hc (by simpa using hin) w' hx)).imp fun _ _ hq => hq.1
    exact hr.bind fun _ w' hw => ends_pure hw

theorem books_peek (hash : Hash) (h : Books front s d) : EndsFrom allowed (peek hash) s d
    (fun _ => Books front) (fun _ => Books front) :=
  (reread_peek hash).mono (fun _ _ _ hr => (h.reread hr).1) fun _ _ _ hr => (h.reread hr).1

theorem books_locate (hash : Hash) (h : Books front s d) : EndsFrom allowed (locate hash) s d
    (fun _ => Books front) (fun _ => Books front) := by
  unfold locate
  refine endsFrom_getStore ?_
  split
  · exact endsFrom_pure h
  · rename_i entry hl
    refine endsFrom_modifyStore (books_peek hash (h.congr rfl fun hash' e he => ?_))
    rw [lookup_insert_eq] at he
    split_ifs at he with heq
    · cases he
      exact ⟨entry, heq ▸ hl, rfl⟩
    · exact ⟨e, he, rfl⟩

/-- While packs are loaded; `rest` are still to come. -/
structure Opening (rest : List ℕ) (s : Store) (d : Directory FileName) : Prop where
  books : Books noPack s d
  writers : ∀ q, s.writer q = none
  fresh : ∀ id ∈ rest, id ∉ s.packs.keys
  nodup : rest.Nodup

variable (intact : Bytes → Hash → Bool)

theorem endsIn_indexOf_listed (id : ℕ) : EndsIn allowed (indexOf intact id) d
    (fun es d' => (∀ id', id' ≠ id → d'.content (.index id') = d.content (.index id')) ∧
      ∀ e ∈ es, Listed d' id e.hash) (fun _ _ => True) := by
  refine EndsIn.tryCatch ((endsIn_loadIndex id).mono ?_ fun _ _ h => h) ?_
  · rintro _ _ ⟨rfl, idx, hidx, rfl⟩
    exact ⟨fun _ _ => rfl, fun e he => ⟨idx, hidx, mem_map_of_mem he⟩⟩
  · rintro e d ⟨rfl, ⟨rfl, hi⟩ | ⟨-, he⟩⟩
    · rw [if_pos rfl]
      cases hp : d.content (.pack id) with
      | none =>
        unfold recover
        refine EndsIn.bind (R := fun _ _ => False)
          ((endsIn_lookup (fun d => d.file (.pack id)) .notFound).mono ?_ fun _ _ _ => trivial) fun _ _ hf => hf.elim
        rintro i _ ⟨-, hfile⟩
        rw [Directory.content_eq_none.mp hp] at hfile
        cases hfile
      | some data =>
        obtain ⟨rs, tail, -, -, -, hrecover⟩ := endsIn_recover allowed intact hp
        refine hrecover.mono ?_ fun _ _ _ => trivial
        rintro es d' ⟨ho, -, -, -, hidx, -⟩
        refine ⟨fun id' hne => ho.content (.index id') hne, fun e he => ⟨_, hidx, ?_⟩⟩
        rw [hash_decodeIndex]
        exact mem_map_of_mem he
    · rw [if_neg he]
      exact endsIn_throw trivial

theorem Opening.loaded {rest : List ℕ} {es : List IndexEntry} {size : ℕ} (h : Opening (id :: rest) s d)
    (hi : ∀ id', id' ≠ id → d'.content (.index id') = d.content (.index id'))
    (hes : ∀ e ∈ es, Listed d' id e.hash) : Opening rest { s with
      map := addEntries id es s.map
      packs := s.packs.insert id size
      main := s.main ++ [id]
      mainBytes := s.mainBytes + size
      nextId := max s.nextId (id + 1) } d' := by
  have hb := h.books
  have hnew : id ∉ s.packs.keys := h.fresh id mem_cons_self
  have hkeys : (s.packs.insert id size).keys = id :: s.packs.keys := by
    rw [keys_insert, erase_of_not_mem hnew]
  have hqueued : ∀ i ∈ s.small ++ s.main, i ≠ id := by
    rintro i hm rfl
    exact hnew (hb.queues.subset hm)
  have hsizes : ∀ l : List ℕ, (∀ i ∈ l, i ∈ s.small ++ s.main) →
      l.map (fun i => ((s.packs.insert id size).lookup i).getD 0) = l.map s.sizeOf := by
    intro l hl
    refine map_congr_left fun i hm => ?_
    rw [lookup_insert_eq, if_neg (hqueued i (hl i hm)), Store.sizeOf]
  refine ⟨⟨fun q => ?_, ?_, fun i hi' => ?_, fun q w hq => ?_, fun q _ w _ hq => ?_, fun hash e he => ?_⟩,
    h.writers, fun i hi' hm => ?_, h.nodup.of_cons⟩
  · have hlen : ∀ q, s.activeLen q = 0 := fun q => by rw [activeLen, h.writers q, elim_none]
    have hbytes := hb.bytes q
    rw [hlen] at hbytes
    cases q with
    | small =>
      change s.smallBytes = (s.small.map fun i => ((s.packs.insert id size).lookup i).getD 0).sum + s.activeLen .small
      rw [hsizes _ fun i hm => mem_append_left _ hm, hlen]
      exact hbytes
    | main =>
      change s.mainBytes + size =
        ((s.main ++ [id]).map fun i => ((s.packs.insert id size).lookup i).getD 0).sum + s.activeLen .main
      have hmain : s.mainBytes = (s.main.map s.sizeOf).sum := hbytes
      rw [map_append, sum_append, hsizes _ fun i hm => mem_append_right _ hm, hlen, hmain]
      simp [lookup_insert_eq]
  · change (s.small ++ (s.main ++ [id])).Perm (s.packs.insert id size).keys
    rw [hkeys, ← append_assoc]
    exact (perm_append_singleton id _).trans (List.Perm.cons id hb.queues)
  · change i ∈ (s.packs.insert id size).keys at hi'
    rw [hkeys] at hi'
    rcases mem_cons.mp hi' with rfl | hi'
    · exact lt_of_lt_of_le (Nat.lt_succ_self i) (le_max_right _ _)
    · exact lt_of_lt_of_le (hb.below i hi') (le_max_left _ _)
  · exact absurd (hq.symm.trans (h.writers q)) (by simp)
  · exact absurd (hq.symm.trans (h.writers q)) (by simp)
  · left
    change e.pack ∈ (s.packs.insert id size).keys ∧ _
    rw [hkeys]
    rcases lookup_addEntries he with ⟨x, hx, rfl, rfl⟩ | he
    · exact ⟨mem_cons_self, hes x hx⟩
    · rcases hb.map hash e he with ⟨hk, idx, hidx, hm⟩ | ⟨q, w, hq, -⟩
      · have hne : e.pack ≠ id := fun heq => hnew (heq ▸ hk)
        exact ⟨mem_cons_of_mem _ hk, idx, (hi e.pack hne).trans hidx, hm⟩
      · exact absurd (hq.symm.trans (h.writers q)) (by simp)
  · change i ∈ (s.packs.insert id size).keys at hm
    rw [hkeys] at hm
    rcases mem_cons.mp hm with rfl | hm
    · exact (nodup_cons.mp h.nodup).1 hi'
    · exact h.fresh i (mem_cons_of_mem _ hi') hm

theorem opening_loadPack {rest : List ℕ} (h : Opening (id :: rest) s d) :
    EndsFrom allowed (loadPack intact () id) s d (fun _ => Opening rest) (fun _ _ _ => True) :=
  loadPack_rule (endsIn_indexOf_listed intact id) (fun _ _ _ => trivial) (fun _ _ _ _ _ => trivial)
    fun _ _ _ hr _ => h.loaded hr.1 hr.2

theorem books_load (allowed : Outcome → Prop) (d : Directory FileName) (intact : Bytes → Hash → Bool) (budget : ℕ) :
    EndsFrom allowed (load intact) (initial budget) d (fun _ => Books noPack) (fun _ _ _ => True) := by
  have hinit : Opening (packIds d) (initial budget) d := by
    refine ⟨⟨fun q => ?_, List.Perm.refl _, fun id hid => absurd hid not_mem_nil, fun q w hq => ?_,
      fun q _ w _ hq => ?_, fun hash e he => ?_⟩, fun q => ?_, fun id _ => not_mem_nil, packIds_nodup d⟩
    · cases q <;> rfl
    · cases q <;> cases hq
    · cases q <;> cases hq
    · cases he
    · cases q <;> rfl
  exact (load_rule hinit fun id rest _ _ h => opening_loadPack intact h).mono (fun _ _ _ h => h.books) fun _ _ _ h => h

/-! ### Runs -/

def Balances (t : State) : Prop := ∀ p, t.process = some p → Books noPack p.store t.dir

theorem balances_after {t : State} {st : Store}
    {k : α → Store → State → State} (hx : KeepsBooks x (t.world st outcomes))
    (hk : ∀ a st' t', t'.process = some ⟨st', none⟩ → Balances t' → Balances (k a st' t')) :
    Balances (t.after (exec x (t.world st outcomes)) k) := by
  unfold KeepsBooks Ends at hx
  cases hr : exec x (t.world st outcomes) with
  | mk r w =>
    rw [hr] at hx
    cases r with
    | ok a =>
      refine hk a w.store _ rfl ?_
      rintro _ ⟨⟩
      exact hx
    | error e =>
      cases e with
      | io kind =>
        rintro _ ⟨⟩
        exact hx ⟨kind, rfl⟩
      | panicked => rintro _ ⟨⟩
      | stopped => rintro _ ⟨⟩

theorem balances_step {t t' : State} {a : Action} (h : Balances t)
    (hn : Unbroken t a) (hs : step intact t a = some t') : Balances t' := by
  have hidle : ∀ {st}, t.idle = some st → Books noPack st t.dir := fun hi => h _ (idle_eq hi)
  cases a with
  | start budget outcomes =>
    simp only [step] at hs
    split at hs
    · cases hs
    · have hl := books_load (fun _ => True) t.dir intact budget outcomes (by simp)
      unfold Ends at hl
      simp only [State.world] at hs
      split at hs
      · rename_i hx
        cases hs
        rw [hx] at hl
        rintro _ ⟨⟩
        exact hl.1
      · cases hs
        rintro _ ⟨⟩
  | insert hash bytes outcomes =>
    obtain ⟨st, hi, rfl⟩ := map_eq_some_iff.mp hs
    have hkeep : KeepsBooks (insertFrame hash bytes) (t.world st outcomes) :=
      keepsBooks_insert hash bytes (w := t.world st outcomes) (hidle hi) fun hc w' hx => hn st w' hi hc hx
    split_ifs
    · refine balances_after hkeep fun fresh st' t' hp ht => ?_
      rintro _ ⟨⟩
      exact ht ⟨st', none⟩ hp
    · refine balances_after (t := { t with admitted := t.admitted.insert hash bytes }) hkeep
        fun fresh st' t' hp ht => ?_
      rintro _ ⟨⟩
      exact ht ⟨st', none⟩ hp
  | evict outcomes =>
    simp only [step] at hs
    split at hs
    · rename_i st n hp
      cases hs
      refine balances_after (keepsBooks_evictTurn n (w := t.world st outcomes) (h _ hp) (hn st n hp))
        fun next st' t' hp' ht => ?_
      cases next with
      | none =>
        rintro _ ⟨⟩
        exact (ht _ hp').congr_map rfl rfl
      | some m =>
        rintro _ ⟨⟩
        exact ht ⟨st', none⟩ hp'
    · cases hs
  | locate hash outcomes =>
    obtain ⟨st, hi, rfl⟩ := map_eq_some_iff.mp hs
    exact balances_after (keepsBooks_of_endsFrom (books_locate hash (hidle hi))) fun r st' t' hp ht => ht
  | peek hash outcomes =>
    obtain ⟨st, hi, rfl⟩ := map_eq_some_iff.mp hs
    exact balances_after (keepsBooks_of_endsFrom (books_peek hash (hidle hi))) fun r st' t' hp ht => ht
  | forget hash =>
    obtain ⟨st, hi, rfl⟩ := map_eq_some_iff.mp hs
    rintro _ ⟨⟩
    exact (hidle hi).erase hash
  | pin hashes =>
    obtain ⟨st, hi, rfl⟩ := map_eq_some_iff.mp hs
    rintro _ ⟨⟩
    exact (hidle hi).congr_map rfl rfl
  | dropGuard i =>
    simp only [step] at hs
    split at hs
    · rename_i p hashes hp hg
      cases hs
      rintro _ ⟨⟩
      exact (h p hp).congr_map rfl rfl
    · cases hs
  | quit =>
    cases hs
    rintro _ ⟨⟩

/-- After every operation of every run in which no I/O error comes out of sealing a pack
or out of copying a retired pack, the books agree, whatever other file operations failed. -/
theorem books_balance_unless_broken (intact : Bytes → Hash → Bool) {t : State} {p : Process}
    (h : (system intact).ReachableIf Unbroken t) (hp : t.process = some p) : Balanced p.store := by
  have hb : Balances t := by
    refine h.invariant ?_ fun _ _ _ hi hn hs => balances_step intact hi hn hs
    rintro _ rfl _ ⟨⟩
  exact (hb p hp).balanced

/-! ### Two failures -/

private def sevens : Hash := ⟨replicate 32 7, rfl⟩

private def completes (x : StoreM α) (w : World) : Bool :=
  match (exec x w).1 with
  | .error (.io _) => false
  | _ => true

private theorem completes_sound (h : completes x w = true) : Completes x w := by
  intro kind hk
  simp [completes, hk] at h

private def unbroken (t : State) : Action → Bool
  | .insert hash frame outcomes =>
    t.idle.all fun store => store.contains hash ||
      match exec (appendRecord (store.insertQueue hash) hash frame 0)
        (t.world (store.ghostRemove hash).2 outcomes) with
      | (.ok true, w) => completes (sealQueue (store.insertQueue hash)) w
      | _ => true
  | .evict outcomes => t.process.all fun p => completes copyVictim (t.world p.store outcomes)
  | _ => true

private theorem unbroken_sound (t : State) (a : Action) (h : unbroken t a = true) : Unbroken t a := by
  cases a with
  | insert hash frame outcomes =>
    intro store w hi hc hx
    simp only [unbroken, hi, all_some, hc, Bool.false_or, hx] at h
    exact completes_sound h
  | evict outcomes =>
    intro store n hp
    simp only [unbroken, hp, all_some] at h
    exact completes_sound h
  | _ => trivial

/-- An append is torn, and the unlink of a retired pack fails: the insert that evicts
returns an error, the file stays, and the books agree. -/
theorem books_balance_after_failed_unlink : ∃ t p, (system fun _ _ => true).ReachableIf Unbroken t ∧
    t.process = some p ∧ p.evicting = none ∧ t.dir.content (.pack 0) = some (record sevens [9, 9]) ∧
    p.store.packs = ∅ ∧ Balanced p.store := by
  obtain ⟨t, ht, h⟩ := (system fun _ _ => true).exists_reachableIf_of_exec unbroken unbroken_sound State.empty
    [.start 0 [], .insert sevens [9] [.ok, .fail 5], .insert sevens [9, 9] [],
      .evict (replicate 7 .ok ++ [.fail 0])]
    (fun t => t.process.any fun p => p.evicting == none &&
      t.dir.content (.pack 0) == some (record sevens [9, 9]) && p.store.packs.entries == []) rfl (by decide +kernel)
  obtain ⟨p, hp, h⟩ := (any_eq_true _ _).mp h
  simp only [Bool.and_eq_true, beq_iff_eq] at h
  obtain ⟨⟨he, hc⟩, hpacks⟩ := h
  exact ⟨t, p, ht, hp, he, hc, ext hpacks, books_balance_unless_broken _ ht hp⟩

/-- A pack that cannot be sealed stays counted: no queue has it, and its chunk is still in
the map. -/
theorem books_lose_unsealed_pack : ∃ t p, (system fun _ _ => true).Reachable t ∧ t.process = some p ∧
    p.evicting = none ∧ p.store.smallBytes = headerLen + 2 ∧ p.store.packs = ∅ ∧
    p.store.map.lookup sevens = some ⟨0, headerLen, 2, 0⟩ ∧ ¬ Balanced p.store := by
  obtain ⟨t, ht, h⟩ := (system fun _ _ => true).exists_reachable_of_exec State.empty
    [.start 0 [], .insert sevens [9, 9] [], .evict [.fail 0]]
    (fun t => t.process.any fun p => p.evicting == none && p.store.smallBytes == headerLen + 2 &&
      p.store.packs.entries == [] && p.store.map.lookup sevens == some ⟨0, headerLen, 2, 0⟩ &&
      p.store.activeLen .small == 0 && p.store.activeLen .main == 0) rfl (by decide +kernel)
  obtain ⟨p, hp, h⟩ := (any_eq_true _ _).mp h
  simp only [Bool.and_eq_true, beq_iff_eq] at h
  obtain ⟨⟨⟨⟨⟨he, hb⟩, hpacks⟩, hmap⟩, hsmall⟩, hmain⟩ := h
  refine ⟨t, p, ht, hp, he, hb, ext hpacks, hmap, fun hbal => ?_⟩
  have hbytes := hbal.bytes
  rw [hb, hpacks, hsmall, hmain] at hbytes
  simp [headerLen] at hbytes

end Tribuchet.ChunkStore
