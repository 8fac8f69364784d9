import Tribuchet.Hub.Serve

/-! What a served `Need` sends. Whatever the cache answers, the needed chunks are sent and no others, each from
the first manifest that holds it. A path that is packed again sends a chunk as often as its recipe has it. -/

namespace Tribuchet.Hub.Serve

open ByteStrings Feeding Hoare Nar List Node

variable {H σ R P α : Type} (host : Host H σ R P) (blake3 : Bytes → H) (cdc : Cdc)

def Host.Decodes (hash : H) (frame : Bytes) : Prop := ∃ data, host.decompress frame = some data ∧ blake3 data = hash

/-- A frame located for a hash is intact whenever it can be read. -/
def Host.Intact : Prop := ∀ hash c ref c', host.locate hash c = (some ref, c') →
  ∀ t frame t', host.read ref t = (some frame, t') → host.Decodes blake3 hash frame

structure Host.Reliable : Prop where
  connected : ∀ n, host.lost n = false
  compresses : ∀ data, ∃ frame, host.compress data = some frame ∧ host.decompress frame = some data

structure Manifest.Describes (m : Manifest H P) : Prop where
  wellFormed : (host.tree m.storePath).WellFormed
  recipe : ∃ reads, m.recipe = ((host.tree m.storePath).chunks blake3 cdc reads).map fun c => (c.hash, c.data.length)

/-- The program sends frames for the hashes `hashes`, intact ones if those of the cache are. -/
structure Sends (s s' : Relay H σ) (hashes : List H) : Prop where
  sent : ∃ frames, s'.sent = s.sent ++ frames ∧ frames.map Prod.fst = hashes ∧
    (host.Intact blake3 → ∀ f ∈ frames, host.Decodes blake3 f.1 f.2)

variable {host blake3 cdc} {s s' s'' : Relay H σ} {l l' : List H}

theorem Sends.refl (h : s'.sent = s.sent) : Sends host blake3 s s' [] := ⟨[], by simp [h]⟩

theorem Sends.trans (h : Sends host blake3 s s' l) (h' : Sends host blake3 s' s'' l') :
    Sends host blake3 s s'' (l ++ l') := by
  obtain ⟨frames, hsent, rfl, hintact⟩ := h
  obtain ⟨frames', hsent', rfl, hintact'⟩ := h'
  refine ⟨frames ++ frames', by rw [hsent', hsent, append_assoc], map_append, fun hi f hf => ?_⟩
  rcases mem_append.mp hf with hf | hf
  · exact hintact hi f hf
  · exact hintact' hi f hf

abbrev Returns (x : Act (Relay H σ) (ServeError P) α) (s : Relay H σ) (Q : α → Relay H σ → Prop) : Prop :=
  Ends x s Q fun _ _ => False

theorem returns_use (f : ChunkCache H σ → α × ChunkCache H σ) (s : Relay H σ) :
    Returns (P := P) (use host f) s fun a s' => (∃ c, a = (f c).1) ∧ s'.sent = s.sent := ⟨⟨_, rfl⟩, rfl⟩

theorem returns_read (ref : R) (s : Relay H σ) : Returns (P := P) (use host (ChunkCache.read host ref)) s fun bytes s' =>
    s'.sent = s.sent ∧ ∀ frame, bytes = some frame → ∃ t t', host.read ref t = (some frame, t') := by
  refine (returns_use _ s).imp fun bytes s' h => ⟨h.2, fun frame hframe => ?_⟩
  obtain ⟨⟨c, rfl⟩, -⟩ := h
  exact ⟨c.store, (host.read ref c.store).2, Prod.ext hframe rfl⟩

variable (hr : host.Reliable)

variable (blake3) in
include hr in
theorem returns_sendFrame {hash : H} {frame : Bytes} (h : host.Intact blake3 → host.Decodes blake3 hash frame)
    (s : Relay H σ) : Returns (P := P) (sendFrame host hash frame) s fun _ s' => Sends host blake3 s s' [hash] := by
  unfold Returns Ends exec sendFrame
  rw [if_neg (by simp [hr.connected])]
  exact ⟨[(hash, frame)], rfl, rfl, fun hi f hf => by rw [mem_singleton.mp hf]; exact h hi⟩

include hr in
theorem returns_compressed {chunk : Chunk H} (hc : chunk.hash = blake3 chunk.data) (toAdmit : Bool) (s : Relay H σ) :
    Returns (P := P) (compressed host chunk toAdmit) s fun frame s' =>
      s'.sent = s.sent ∧ host.Decodes blake3 chunk.hash frame := by
  obtain ⟨frame, hframe, hdata⟩ := hr.compresses chunk.data
  have hdecodes : host.Decodes blake3 chunk.hash frame := ⟨chunk.data, hdata, hc.symm⟩
  unfold compressed
  simp only [hframe]
  split_ifs
  · refine (returns_use _ s).bind fun _ s' h => ?_
    exact ends_pure ⟨h.2, hdecodes⟩
  · exact ends_pure ⟨rfl, hdecodes⟩

def Located (host : Host H σ R P) (f : H × R) : Prop := ∃ t t', host.locate f.1 t = (some f.2, t')

theorem located_of_locateAll {hashes : List H} {c : ChunkCache H σ} {frames : List (H × R)}
    (h : (ChunkCache.locateAll host hashes c).1 = some frames) :
    frames.map Prod.fst = hashes ∧ ∀ f ∈ frames, Located host f := by
  induction hashes generalizing c frames with
  | nil =>
    cases h
    exact ⟨rfl, nofun⟩
  | cons hash hashes ih =>
    unfold ChunkCache.locateAll at h
    split at h
    · cases h
    · rename_i ref store hlocate
      obtain ⟨rest, hrest, rfl⟩ := Option.map_eq_some_iff.mp h
      obtain ⟨rfl, hlocated⟩ := ih hrest
      exact ⟨rfl, forall_mem_cons.mpr ⟨⟨c.store, store, hlocate⟩, hlocated⟩⟩

variable [DecidableEq H]

theorem locate_of_classify {hash : H} {c : ChunkCache H σ} {ref : R}
    (h : (ChunkCache.classify host hash c).1 = .cached ref) : ∃ t t', host.locate hash t = (some ref, t') := by
  unfold ChunkCache.classify at h
  split at h
  · rename_i frame store hlocate
    cases h
    exact ⟨c.store, store, hlocate⟩
  · split_ifs at h

include hr in
theorem returns_frameFor {chunk : Chunk H} (hc : chunk.hash = blake3 chunk.data) (s : Relay H σ) :
    Returns (P := P) (frameFor host chunk) s fun frame s' =>
      s'.sent = s.sent ∧ (host.Intact blake3 → host.Decodes blake3 chunk.hash frame) := by
  have hcompressed (toAdmit : Bool) (s' : Relay H σ) (hs : s'.sent = s.sent) :
      Returns (P := P) (compressed host chunk toAdmit) s' fun frame s'' =>
        s''.sent = s.sent ∧ (host.Intact blake3 → host.Decodes blake3 chunk.hash frame) :=
    (returns_compressed hr hc toAdmit s').imp fun frame s'' h => ⟨h.1.trans hs, fun _ => h.2⟩
  refine (returns_use _ s).bind fun disposition s₁ h₁ => ?_
  obtain ⟨⟨c, hclassify⟩, hs₁⟩ := h₁
  cases disposition with
  | firstSeen => exact hcompressed false s₁ hs₁
  | toAdmit => exact hcompressed true s₁ hs₁
  | cached ref =>
    obtain ⟨t, t', hlocate⟩ := locate_of_classify hclassify.symm
    refine (returns_read ref s₁).bind fun bytes s₂ h₂ => ?_
    obtain ⟨hs₂, hread⟩ := h₂
    cases bytes with
    | none => exact hcompressed false s₂ (hs₂.trans hs₁)
    | some frame =>
      obtain ⟨u, u', hread⟩ := hread frame rfl
      exact ends_pure ⟨hs₂.trans hs₁, fun hi => hi chunk.hash t ref t' hlocate u frame u' hread⟩

variable {m : Manifest H P}

theorem returns_streamPathChunks (hs : cdc.Stable) (hr : host.Reliable)
    (hm : m.Describes host blake3 cdc) (todo : List H) (s : Relay H σ) :
    Returns (streamPathChunks host blake3 cdc m.storePath todo) s fun _ s' =>
      Sends host blake3 s s' (m.hashes.filter (· ∈ todo)) := by
  obtain ⟨reads, hrecipe⟩ := hm.recipe
  have hhashes : m.hashes =
      ((host.tree m.storePath).chunks blake3 cdc (host.reads m.storePath)).map Chunk.hash := by
    rw [Manifest.hashes, hrecipe, map_map, chunks_eq blake3 hs _ reads (host.reads m.storePath)]
    rfl
  obtain ⟨s', hfeed, hsends⟩ := feed_complete (f := onChunk host todo) (s := s)
    (l := (host.tree m.storePath).chunks blake3 cdc (host.reads m.storePath))
    (I := fun past t => Sends host blake3 s t ((past.map Chunk.hash).filter (· ∈ todo)))
    (fun past chunk rest t hl ht => by
      have hsound : chunk.Sound blake3 :=
        sound_of_mem_chunks blake3 cdc (hl ▸ mem_append_right past mem_cons_self)
      rw [map_append, filter_append]
      by_cases hmem : chunk.hash ∈ todo
      · have hreturns : Returns (P := P) (do
            let frame ← frameFor host chunk
            sendFrame host chunk.hash frame
            pure true) t fun more t' => more = true ∧ Sends host blake3 t t' [chunk.hash] := by
          refine (returns_frameFor hr hsound.2.2 t).bind fun frame t₁ h₁ => ?_
          refine (returns_sendFrame blake3 hr h₁.2 t₁).bind fun _ t₂ h₂ => ?_
          exact ends_pure ⟨rfl, (Sends.refl h₁.1).trans h₂⟩
        obtain ⟨more, t', hexec, rfl, hsend⟩ := hreturns.returns
        refine ⟨t', by rw [onChunk, if_pos hmem, hexec], ?_⟩
        simpa [hmem] using ht.trans hsend
      · exact ⟨t, by rw [onChunk, if_neg hmem], by simpa [hmem] using ht⟩) (Sends.refl rfl)
  unfold Returns Ends exec streamPathChunks
  rw [chunkStorePath_feed hm.wellFormed, hfeed, hhashes]
  exact hsends

/-! ### What the cache serves -/

variable (blake3) in
theorem returns_sendCached (hr : host.Reliable) {frames : List (H × R)} {rest : List H}
    (hnodup : (frames.map Prod.fst).Nodup) (hsub : ∀ f ∈ frames, f.1 ∈ rest)
    (hlocated : ∀ f ∈ frames, Located host f) (s : Relay H σ) :
    Returns (sendCached host frames rest) s fun left s' => ∃ l, Sends host blake3 s s' l ∧ (l ++ left).Perm rest := by
  induction frames generalizing rest s with
  | nil => exact ends_pure ⟨[], Sends.refl rfl, List.Perm.refl _⟩
  | cons f frames ih =>
    obtain ⟨hash, ref⟩ := f
    obtain ⟨hfirst, hnodup⟩ := nodup_cons.mp hnodup
    obtain ⟨hmem, hsub⟩ := forall_mem_cons.mp hsub
    obtain ⟨⟨t, t', hlocate⟩, hlocated⟩ := forall_mem_cons.mp hlocated
    refine (returns_read ref s).bind fun bytes s₁ h₁ => ?_
    obtain ⟨hs₁, hread⟩ := h₁
    cases bytes with
    | none => exact ends_pure ⟨[], Sends.refl hs₁, List.Perm.refl _⟩
    | some frame =>
      obtain ⟨u, u', hread⟩ := hread frame rfl
      have hdecodes (hi : host.Intact blake3) : host.Decodes blake3 hash frame :=
        hi hash t ref t' hlocate u frame u' hread
      refine (returns_sendFrame blake3 hr hdecodes s₁).bind fun _ s₂ h₂ => ?_
      have herase : ∀ f ∈ frames, f.1 ∈ rest.erase hash := by
        intro f hf
        refine (mem_erase_of_ne ?_).mpr (hsub f hf)
        intro heq
        exact hfirst (mem_map.mpr ⟨f, hf, heq⟩)
      refine (ih hnodup herase hlocated s₂).imp fun left s₃ h₃ => ?_
      obtain ⟨l, hsends, hperm⟩ := h₃
      exact ⟨hash :: l, ((Sends.refl hs₁).trans h₂).trans hsends,
        (hperm.cons hash).trans (perm_cons_erase hmem).symm⟩

variable (blake3) in
theorem returns_serveCached (hr : host.Reliable) {todo : List H} (hnodup : todo.Nodup) (s : Relay H σ) :
    Returns (serveCached host todo) s fun rest s' => ∃ l, Sends host blake3 s s' l ∧ (l ++ rest).Perm todo := by
  refine (returns_use _ s).bind fun frames s₁ h₁ => ?_
  obtain ⟨⟨c, hframes⟩, hs₁⟩ := h₁
  cases frames with
  | none => exact ends_pure ⟨[], Sends.refl hs₁, List.Perm.refl _⟩
  | some frames =>
    obtain ⟨hhashes, hlocated⟩ := located_of_locateAll hframes.symm
    have hperm := host.iter_perm todo
    have hsub : ∀ f ∈ frames, f.1 ∈ todo := by
      intro f hf
      rw [← hperm.mem_iff, ← hhashes]
      exact mem_map_of_mem hf
    have hnodup' : (frames.map Prod.fst).Nodup := by
      rw [hhashes]
      exact hperm.nodup_iff.mpr hnodup
    refine (returns_sendCached blake3 hr hnodup' hsub hlocated s₁).imp fun rest s' h => ?_
    obtain ⟨l, hsends, hleft⟩ := h
    exact ⟨l, (Sends.refl hs₁).trans hsends, hleft⟩

/-! ### A manifest, and all of them -/

theorem nodup_todo (needed served : Finset H) (m : Manifest H P) : (todo needed served m).Nodup := nodup_dedup _

variable {needed : Finset H}

variable {served : Finset H}

theorem mem_todo {h : H} : h ∈ todo needed served m ↔ h ∈ m.hashes ∧ h ∈ needed ∧ h ∉ served := by
  simp [todo]

/-- The hashes sent for a manifest: those it is asked for, each not more often than its recipe has it. -/
structure Serves (needed served : Finset H) (m : Manifest H P) (l : List H) : Prop where
  mem : ∀ h, h ∈ l ↔ h ∈ todo needed served m
  count : ∀ h, l.count h ≤ m.hashes.count h

theorem serves_append {l rest : List H} (hperm : (l ++ rest).Perm (todo needed served m)) :
    Serves needed served m (l ++ m.hashes.filter (· ∈ rest)) := by
  have hnodup : (l ++ rest).Nodup := hperm.nodup_iff.mpr (nodup_todo needed served m)
  have hmem (h : H) : h ∈ l ∨ h ∈ rest ↔ h ∈ todo needed served m := by rw [← hperm.mem_iff, mem_append]
  have hhashes {h : H} (hh : h ∈ l ∨ h ∈ rest) : h ∈ m.hashes := (mem_todo.mp ((hmem h).mp hh)).1
  refine ⟨fun h => ?_, fun h => ?_⟩
  · rw [← hmem, mem_append, mem_filter, decide_eq_true_iff]
    exact or_congr_right ⟨fun hh => hh.2, fun hh => ⟨hhashes (.inr hh), hh⟩⟩
  · rw [count_append]
    by_cases hrest : h ∈ rest
    · have hl : h ∉ l := fun hl => disjoint_of_nodup_append hnodup hl hrest
      rw [count_eq_zero_of_not_mem hl, zero_add]
      exact filter_sublist.count_le h
    · have hfilter : h ∉ m.hashes.filter (· ∈ rest) := fun hh => hrest (by simpa using (mem_filter.mp hh).2)
      rw [count_eq_zero_of_not_mem hfilter, add_zero]
      by_cases hl : h ∈ l
      · exact (nodup_iff_count_le_one.mp hnodup.of_append_left h).trans (count_pos_iff.mpr (hhashes (.inl hl)))
      · rw [count_eq_zero_of_not_mem hl]
        exact Nat.zero_le _

theorem returns_serveManifest (hs : cdc.Stable) (hr : host.Reliable) (hm : m.Describes host blake3 cdc)
    (needed served : Finset H) (s : Relay H σ) :
    Returns (serveManifest host blake3 cdc needed served m) s fun served' s' =>
      served' = served ∪ (todo needed served m).toFinset ∧
        ∃ l, Sends host blake3 s s' l ∧ Serves needed served m l := by
  unfold serveManifest
  split_ifs with hnil
  · have hserves : Serves needed served m [] := ⟨fun h => by rw [hnil], fun h => Nat.zero_le _⟩
    exact ends_pure ⟨by rw [hnil]; simp, [], Sends.refl rfl, hserves⟩
  · refine (returns_serveCached blake3 hr (nodup_todo needed served m) s).bind fun rest s₁ h₁ => ?_
    obtain ⟨l, hsends, hperm⟩ := h₁
    have hserves := serves_append hperm
    split_ifs with hrest
    · have hfilter : m.hashes.filter (· ∈ rest) = [] := by simp [hrest]
      rw [hfilter, append_nil] at hserves
      exact ends_pure ⟨rfl, l, hsends, hserves⟩
    · refine (returns_streamPathChunks hs hr hm rest s₁).bind fun _ s₂ h₂ => ?_
      exact ends_pure ⟨rfl, _, hsends.trans h₂, hserves⟩

def holder (sent : List (Manifest H P)) (h : H) : Option (Manifest H P) := sent.find? (h ∈ ·.hashes)

/-- The manifests `past` are through: `l` was sent for them. -/
structure Through (needed : Finset H) (past : List (Manifest H P)) (served : Finset H) (l : List H) : Prop where
  asked : ∀ h, h ∈ served ↔ h ∈ needed ∧ ∃ m ∈ past, h ∈ m.hashes
  mem : ∀ h, h ∈ l ↔ h ∈ served
  count : ∀ h m, holder past h = some m → l.count h ≤ m.hashes.count h

theorem Through.snoc {past : List (Manifest H P)} {l l' : List H}
    (h : Through needed past served l) (h' : Serves needed served m l') :
    Through needed (past ++ [m]) (served ∪ (todo needed served m).toFinset) (l ++ l') where
  asked x := by
    rw [Finset.mem_union, mem_toFinset, mem_todo, h.asked]
    simp only [mem_append, mem_singleton]
    constructor
    · rintro (⟨hx, m', hm', hin⟩ | ⟨hin, hx, -⟩)
      · exact ⟨hx, m', .inl hm', hin⟩
      · exact ⟨hx, m, .inr rfl, hin⟩
    · rintro ⟨hx, m', hm' | rfl, hin⟩
      · exact .inl ⟨hx, m', hm', hin⟩
      · by_cases hpast : ∃ m' ∈ past, x ∈ m'.hashes
        · exact .inl ⟨hx, hpast⟩
        · exact .inr ⟨hin, hx, fun hh => hpast hh.2⟩
  mem x := by rw [mem_append, h.mem, h'.mem, Finset.mem_union, mem_toFinset]
  count x m' hholder := by
    rw [holder, find?_append] at hholder
    rw [count_append]
    cases hpast : past.find? (x ∈ ·.hashes) with
    | some first =>
      rw [hpast, Option.some_or] at hholder
      obtain rfl := Option.some_inj.mp hholder
      have hx : x ∉ l' := by
        rw [h'.mem, mem_todo]
        rintro ⟨-, hx, hserved⟩
        have hin : x ∈ first.hashes := by simpa using find?_some hpast
        exact hserved ((h.asked x).mpr ⟨hx, first, mem_of_find?_eq_some hpast, hin⟩)
      rw [count_eq_zero_of_not_mem hx]
      exact h.count x first hpast
    | none =>
      rw [hpast, Option.none_or] at hholder
      obtain rfl := mem_singleton.mp (mem_of_find?_eq_some hholder)
      have hx : x ∉ l := by
        rw [h.mem, h.asked]
        rintro ⟨-, m, hm, hin⟩
        exact absurd (decide_eq_true hin) (find?_eq_none.mp hpast m hm)
      rw [count_eq_zero_of_not_mem hx, zero_add]
      exact h'.count x

theorem returns_serveNeed (hs : cdc.Stable) (hr : host.Reliable) {sent : List (Manifest H P)}
    (hsent : ∀ m ∈ sent, m.Describes host blake3 cdc)
    (hneeded : ∀ h ∈ needed, ∃ m ∈ sent, h ∈ m.hashes) (s : Relay H σ) :
    Returns (serveNeed host blake3 cdc sent needed) s fun _ s' =>
      ∃ l, Sends host blake3 s s' l ∧ Through needed sent needed l := by
  have hloop : Returns (sent.foldlM (serveManifest host blake3 cdc needed) ∅) s fun served s' =>
      ∃ past l, sent = past ++ [] ∧ Sends host blake3 s s' l ∧ Through needed past served l := by
    refine ends_foldlM (I := fun rest served s' =>
      ∃ past l, sent = past ++ rest ∧ Sends host blake3 s s' l ∧ Through needed past served l) ?_ ?_
    · rintro m rest served s₁ ⟨past, l, hpast, hsends, hthrough⟩
      have hm : m.Describes host blake3 cdc := hsent m (hpast ▸ mem_append_right past mem_cons_self)
      refine (returns_serveManifest hs hr hm needed served s₁).imp fun served' s₂ h => ?_
      obtain ⟨rfl, l', hsends', hserves⟩ := h
      exact ⟨past ++ [m], l ++ l', by rw [hpast, append_assoc]; rfl, hsends.trans hsends', hthrough.snoc hserves⟩
    · exact ⟨[], [], rfl, Sends.refl rfl, ⟨by simp, by simp, nofun⟩⟩
  refine hloop.bind fun served s' h => ?_
  obtain ⟨past, l, hpast, hsends, hthrough⟩ := h
  rw [append_nil] at hpast
  subst hpast
  have hserved : served = needed := by
    ext h
    rw [hthrough.asked]
    exact ⟨fun hh => hh.1, fun hh => ⟨hh, hneeded h hh⟩⟩
  rw [if_neg (by rw [hserved]; simp)]
  exact ends_pure ⟨l, hsends, hserved ▸ hthrough⟩

def coldHost (root : Node) : Host Bytes Unit Unit Unit where
  locate _ c := (none, c)
  insert _ _ c := (true, c)
  read _ c := (none, c)
  others c := c
  compress := some
  decompress := some
  tree _ := root
  reads _ _ n := n
  lost _ := false
  iter l := l
  iter_perm _ := .refl _

theorem coldHost_reliable (root : Node) : (coldHost root).Reliable := ⟨fun _ => rfl, fun data => ⟨data, rfl, rfl⟩⟩

def coldManifest (cdc : Cdc) (root : Node) : Manifest Bytes Unit :=
  ⟨(), (root.chunks (fun b => b) cdc fun _ n => n).map fun c => (c.hash, c.data.length)⟩

def coldRelay : Relay Bytes Unit := ⟨⟨(), [], ∅⟩, []⟩

theorem coldManifest_describes (cdc : Cdc) {root : Node} (h : root.WellFormed) :
    (coldManifest cdc root).Describes (coldHost root) (fun b => b) cdc := ⟨h, _, rfl⟩

/-! ### Chunks that repeat -/

theorem returns_uncached (hs : cdc.Stable) (hr : host.Reliable) (hm : m.Describes host blake3 cdc)
    (hcold : ∀ h t, ∃ t', host.locate h t = (none, t')) (hneeded : ∀ h ∈ needed, h ∈ m.hashes) (s : Relay H σ) :
    Returns (serveNeed host blake3 cdc [m] needed) s fun _ s' =>
      Sends host blake3 s s' (m.hashes.filter (· ∈ needed)) := by
  have htodo (h : H) : h ∈ todo needed ∅ m ↔ h ∈ needed := by
    rw [mem_todo]
    exact ⟨fun hh => hh.2.1, fun hh => ⟨hneeded h hh, hh, Finset.notMem_empty h⟩⟩
  have hserved : (todo needed ∅ m).toFinset = needed := by
    ext h
    rw [mem_toFinset, htodo]
  have hmanifest : Returns (serveManifest host blake3 cdc needed ∅ m) s fun served s' =>
      served = needed ∧ Sends host blake3 s s' (m.hashes.filter (· ∈ needed)) := by
    unfold serveManifest
    split_ifs with hnil
    · have hempty : needed = ∅ := by rw [← hserved, hnil]; rfl
      subst hempty
      exact ends_pure ⟨rfl, by simpa using Sends.refl rfl⟩
    · have hcached : Returns (serveCached host (todo needed ∅ m)) s fun rest s' =>
          rest = todo needed ∅ m ∧ s'.sent = s.sent := by
        refine (returns_use _ s).bind fun frames s₁ h₁ => ?_
        obtain ⟨⟨c, hframes⟩, hs₁⟩ := h₁
        obtain ⟨h, hashes, hiter⟩ := exists_cons_of_ne_nil fun heq : host.iter (todo needed ∅ m) = [] =>
          hnil (heq ▸ host.iter_perm (todo needed ∅ m)).symm.eq_nil
        obtain ⟨t', hlocate⟩ := hcold h c.store
        rw [hiter, ChunkCache.locateAll, hlocate] at hframes
        rw [hframes]
        exact ends_pure ⟨rfl, hs₁⟩
      refine hcached.bind fun rest s₁ h₁ => ?_
      obtain ⟨rfl, hs₁⟩ := h₁
      rw [if_neg hnil]
      refine (returns_streamPathChunks hs hr hm _ s₁).bind fun _ s₂ h₂ => ?_
      refine ends_pure ⟨by rw [hserved, Finset.empty_union], ?_⟩
      simp only [htodo] at h₂
      exact (Sends.refl hs₁).trans h₂
  unfold serveNeed
  rw [foldlM_cons]
  refine Ends.bind (R := fun served s' => served = needed ∧ Sends host blake3 s s' (m.hashes.filter (· ∈ needed)))
    (hmanifest.bind fun served s₁ h₁ => ends_pure h₁) fun served s₁ h₁ => ?_
  obtain ⟨rfl, hsends⟩ := h₁
  rw [if_neg (by simp)]
  exact ends_pure hsends

/-- Cuts at the greatest length, as FastCDC does where no cut by content is found. -/
def longest : Cdc where
  cuts l := (Cutting.chunksOf cdcMax l).map length
  tiles l := by rw [← length_flatten, Cutting.flatten_chunksOf (by decide)]
  bounds l n hn := by
    obtain ⟨c, hc, rfl⟩ := mem_map.mp hn
    obtain ⟨hne, hlen⟩ := Cutting.mem_chunksOf hc
    exact ⟨length_pos_iff.mpr hne, hlen⟩

theorem first_longest {l : Bytes} (h : l ≠ []) : longest.first l = min cdcMax l.length := by
  simp [Cutting.Cutter.first, longest, Cutting.chunksOf_of_ne_nil (n := cdcMax) (by decide) h]

theorem longest_stable : longest.Stable where
  rest l hl := by
    rw [first_longest hl]
    simp only [longest]
    rw [Cutting.chunksOf_of_ne_nil (by decide) hl, map_cons, length_take]
    rcases Nat.le_total cdcMax l.length with hle | hle
    · rw [Nat.min_eq_left hle]
    · rw [Nat.min_eq_right hle, drop_eq_nil_of_le hle, drop_length]
  window l hl := by
    have hne : l ≠ [] := by
      rintro rfl
      exact absurd hl (by decide)
    have hne' : l.take cdcMax ≠ [] := by
      rw [← length_pos_iff, length_take]
      have : 0 < cdcMax := by decide
      have := length_pos_iff.mpr hne
      omega
    rw [first_longest hne, first_longest hne', length_take, ← Nat.min_assoc, Nat.min_self]

def zeros : Bytes := replicate cdcMax 0

def zeroFile : Node := .regular 0o644 (2 * cdcMax) (zeros ++ zeros)

theorem length_zeros : zeros.length = cdcMax := length_replicate

theorem zeroFile_wellFormed : zeroFile.WellFormed := by
  refine ⟨?_, by decide⟩
  rw [length_append, length_zeros]
  omega

theorem split_longest (l : Bytes) : longest.split (zeros ++ l) = zeros :: longest.split l := by
  have hne : zeros ++ l ≠ [] := by
    rw [← length_pos_iff, length_append, length_zeros]
    have : 0 < cdcMax := by decide
    omega
  have hfirst : longest.first (zeros ++ l) = zeros.length := by
    rw [first_longest hne, length_append, length_zeros]
    omega
  rw [longest_stable.split_cons hne, hfirst, take_left, drop_left]

theorem body_mem_walk : .body [] (zeros ++ zeros) ∈ zeroFile.walk := by
  have hlarge : ¬ (zeros ++ zeros).length < bodyMin := by
    rw [length_append, length_zeros]
    decide
  have htake : (zeros ++ zeros).take (2 * cdcMax) = zeros ++ zeros := by
    refine take_of_length_le ?_
    rw [length_append, length_zeros]
    omega
  rw [walk, zeroFile, steps, htake, fileSteps, if_neg hlarge]
  simp

theorem zeros_twice : [zeros, zeros].Sublist (coldManifest longest zeroFile).hashes := by
  have hne : zeros ++ zeros ≠ [] := by
    rw [← length_pos_iff, length_append, length_zeros]
    decide
  have hinfix := (chunks_body (fun b => b) longest_stable body_mem_walk hne fun _ n => n).map Chunk.hash
  have hsplit : longest.split (zeros ++ zeros) = [zeros, zeros] := by
    have hnil : longest.split [] = [] := by simp [Cutting.Cutter.split, longest, Cutting.chunksOf_nil]
    have hlast := split_longest []
    rw [append_nil, hnil] at hlast
    rw [split_longest, hlast]
  rw [hsplit] at hinfix
  simp only [coldManifest, Manifest.hashes, map_map]
  exact hinfix.sublist

theorem sent_twice {root : Node} (h : root.WellFormed) {z : Bytes}
    (htwice : [z, z].Sublist (coldManifest longest root).hashes) :
    ∃ s', exec (serveNeed (coldHost root) (fun b => b) longest [coldManifest longest root] {z}) coldRelay =
      (.ok (), s') ∧ [z, z].Sublist (s'.sent.map Prod.fst) := by
  have hneeded : ∀ h ∈ ({z} : Finset Bytes), h ∈ (coldManifest longest root).hashes := by
    intro h hh
    rw [Finset.mem_singleton.mp hh]
    exact htwice.subset mem_cons_self
  have hdescribes := coldManifest_describes longest h
  have hcold (h : Bytes) (t : Unit) : ∃ t', (coldHost root).locate h t = (none, t') := ⟨t, rfl⟩
  have hreturns := returns_uncached longest_stable (coldHost_reliable root) hdescribes hcold hneeded coldRelay
  obtain ⟨_, s', hexec, hsends⟩ := hreturns.returns
  obtain ⟨frames, hsent, hhashes, -⟩ := hsends.sent
  refine ⟨s', hexec, ?_⟩
  have hframes : s'.sent = frames := hsent
  have hfilter := htwice.filter (· ∈ ({z} : Finset Bytes))
  rw [filter_cons_of_pos (by simp), filter_cons_of_pos (by simp), filter_nil] at hfilter
  rw [hframes, hhashes]
  exact hfilter

end Tribuchet.Hub.Serve
