import Mathlib.Tactic.ByContra
import Tribuchet.Staging.Chunks

/-! What the chunk bookkeeping counts: a path is in `remaining` exactly while some
chunk has it among its waiters, with the number of such chunks, and no list of
waiters names a path twice. Every operation of the bookkeeping keeps this, whatever
the store holds at the time. -/

namespace Tribuchet.Staging.ChunkStaging

open Hoare List Table AList

variable {P H : Type} [DecidableEq P] [DecidableEq H]

def waiting (waiters : AList fun _ : H => List P) (p : P) : ℕ := count (fun ws => decide (p ∈ ws)) waiters

structure Counted (c : ChunkStaging P H) : Prop where
  waiters : ∀ hash ws, c.waiters.lookup hash = some ws → ws.Nodup ∧ ws ≠ []
  remaining : ∀ p, c.remaining.lookup p = if waiting c.waiters p = 0 then none else some (waiting c.waiters p)

theorem counted_empty : (empty : ChunkStaging P H).Counted := by
  constructor
  · intro hash ws h
    cases h
  · intro p
    rfl

variable {c : ChunkStaging P H} {waiters : AList fun _ : H => List P}

theorem Counted.mem_remaining (h : c.Counted) (p : P) : p ∈ c.remaining ↔ 0 < waiting c.waiters p := by
  rw [← lookup_isSome, h.remaining p]
  split_ifs with hw
  · simp [hw]
  · simp
    omega

theorem waiting_eq_erase_add (waiters : AList fun _ : H => List P) (hash : H) (p : P) :
    waiting waiters p = waiting (waiters.erase hash) p + (decide (p ∈ waitersOf waiters hash)).toNat := by
  unfold waiting waitersOf
  cases hl : waiters.lookup hash with
  | none => simp [erase_eq_self hl]
  | some ws => simpa using count_eq_erase_add hl _

theorem waiting_insert (waiters : AList fun _ : H => List P) (hash : H) (ws : List P) (p : P) :
    waiting (waiters.insert hash ws) p = waiting (waiters.erase hash) p + (decide (p ∈ ws)).toNat :=
  count_insert _ waiters hash ws

theorem waiting_pos {hash : H} {p : P} (h : p ∈ waitersOf waiters hash) : 0 < waiting waiters p := by
  rw [waiting_eq_erase_add waiters hash p]
  simp [h]

omit [DecidableEq P] in
theorem mem_of_waitersOf_ne_nil {hash : H} (h : waitersOf waiters hash ≠ []) : hash ∈ waiters := by
  unfold waitersOf at h
  cases hl : waiters.lookup hash with
  | none => simp [hl] at h
  | some ws => exact mem_of_lookup hl

/-! ### Awaiting what the store lacks -/

section Await

variable (store : Finset H) (path : P)

/-- What the loop of `await_missing` has done after some of the recipe, from the
waiters `start`. -/
structure Awaits (path : P) (start : AList fun _ : H => List P) (hashes : List H)
    (acc : (AList fun _ : H => List P) × List H × ℕ) : Prop where
  waiters : ∀ hash ws, acc.1.lookup hash = some ws → ws.Nodup ∧ ws ≠ []
  others : ∀ p, p ≠ path → waiting acc.1 p = waiting start p
  counted : waiting acc.1 path = waiting start path + acc.2.2
  requested : ∀ hash ∈ acc.2.1, hash ∈ hashes
  covered : 0 < acc.2.2 → acc.2.1 ≠ [] ∨ ∃ p, 0 < waiting start p
  awaited : ∀ hash ∈ acc.1, hash ∈ start ∨ hash ∈ acc.2.1

variable {start : AList fun _ : H => List P}

theorem awaits_start (h : ∀ hash ws, start.lookup hash = some ws → ws.Nodup ∧ ws ≠ []) (hashes : List H) :
    Awaits path start hashes (start, [], 0) where
  waiters := h
  others _ _ := rfl
  counted := rfl
  requested := by simp
  covered := by simp
  awaited _ h := .inl h

variable {path}
variable {acc : (AList fun _ : H => List P) × List H × ℕ}

theorem Awaits.awaitOne {hashes : List H} (h : Awaits path start hashes acc) {hash : H}
    (hm : hash ∈ hashes) : Awaits path start hashes (awaitOne store path acc hash) := by
  obtain ⟨waiters, need, missing⟩ := acc
  unfold ChunkStaging.awaitOne
  by_cases hs : hash ∈ store
  · simpa only [if_pos hs] using h
  have hneed : ∀ hash' ∈ (if waitersOf waiters hash = [] then need ++ [hash] else need), hash' ∈ hashes := by
    intro hash' hmem
    split_ifs at hmem
    · rcases mem_append.mp hmem with hmem | hmem
      · exact h.requested hash' hmem
      · rw [mem_singleton.mp hmem]
        exact hm
    · exact h.requested hash' hmem
  have hgrow : need ≠ [] → (if waitersOf waiters hash = [] then need ++ [hash] else need) ≠ [] := by
    intro hne
    split_ifs <;> simp [hne]
  have hold : ∀ hash' ∈ waiters, hash' ∈ start ∨
      hash' ∈ (if waitersOf waiters hash = [] then need ++ [hash] else need) := by
    intro hash' hmem
    refine (h.awaited hash' hmem).imp_right fun hn => ?_
    split_ifs
    · exact mem_append_left _ hn
    · exact hn
  simp only [if_neg hs]
  by_cases hp : path ∈ waitersOf waiters hash
  · simp only [if_pos hp]
    exact ⟨h.waiters, h.others, h.counted, hneed, fun h0 => (h.covered h0).imp_left hgrow, hold⟩
  · simp only [if_neg hp]
    have herase := waiting_eq_erase_add waiters hash
    refine ⟨?_, ?_, ?_, hneed, ?_, ?_⟩
    · intro hash' ws hl
      rw [lookup_insert_eq] at hl
      split_ifs at hl with heq
      · cases hl
        refine ⟨?_, by simp⟩
        have hnodup : (waitersOf waiters hash).Nodup := by
          unfold waitersOf
          cases hl : waiters.lookup hash with
          | none => exact nodup_nil
          | some ws => exact (h.waiters hash ws hl).1
        exact nodup_append.mpr ⟨hnodup, by simp, by
          intro a ha b hb hab
          rw [mem_singleton.mp hb] at hab
          exact hp (hab ▸ ha)⟩
      · exact h.waiters hash' ws hl
    · intro p hne
      rw [← h.others p hne, waiting_insert, herase p]
      simp [hne]
    · have hc := h.counted
      rw [herase path] at hc
      rw [waiting_insert]
      simp only [hp, decide_false, Bool.toNat_false] at hc
      simp
      omega
    · intro _
      by_cases hw : waitersOf waiters hash = []
      · left
        simp [hw]
      · right
        -- somebody else waits on this chunk, and did before the loop
        obtain ⟨q, hq⟩ := exists_mem_of_ne_nil _ hw
        have hqp : q ≠ path := fun heq => hp (heq ▸ hq)
        exact ⟨q, h.others q hqp ▸ waiting_pos hq⟩
    · intro hash' hmem
      rcases (mem_insert _).mp hmem with rfl | hmem
      · by_cases hw : waitersOf waiters hash' = []
        · right
          simp [hw]
        · exact hold hash' (mem_of_waitersOf_ne_nil hw)
      · exact hold hash' hmem

theorem Awaits.foldl {all hashes : List H} (h : Awaits path start all acc) (hs : hashes ⊆ all) :
    Awaits path start all (hashes.foldl (ChunkStaging.awaitOne store path) acc) := by
  induction hashes generalizing acc with
  | nil => exact h
  | cons hash hashes ih =>
    rw [foldl_cons]
    exact ih (h.awaitOne store (hs mem_cons_self)) fun x hx => hs (mem_cons_of_mem _ hx)

/-- The bookkeeping after `await_missing` of a path and the hashes to request. -/
structure Awaited (c : ChunkStaging P H) (path : P) (recipe : Recipe H) (c' : ChunkStaging P H)
    (need : List H) : Prop where
  counted : c'.Counted
  recipes : c'.recipes = c.recipes
  others : ∀ p, p ≠ path → c'.remaining.lookup p = c.remaining.lookup p
  requested : ∀ hash ∈ need, hash ∈ recipe.hashes
  covered : path ∈ c'.remaining → need ≠ [] ∨ ∃ p, p ∈ c.remaining
  awaited : ∀ hash ∈ c'.waiters, hash ∈ c.waiters ∨ hash ∈ need

theorem Awaited.mem_remaining {path q : P} {recipe : Recipe H} {c' : ChunkStaging P H} {need : List H}
    (h : Awaited c path recipe c' need) (hq : q ≠ path) : q ∈ c'.remaining ↔ q ∈ c.remaining := by
  rw [← lookup_isSome, ← lookup_isSome, h.others q hq]

variable (path)

theorem awaited (h : c.Counted) (recipe : Recipe H) :
    Awaited c path recipe (c.awaitMissing store path recipe).1 (c.awaitMissing store path recipe).2 := by
  have hloop := (awaits_start path h.waiters recipe.hashes).foldl store (List.Subset.refl _)
  unfold awaitMissing
  generalize recipe.hashes.foldl (awaitOne store path) (c.waiters, [], 0) = acc at hloop ⊢
  obtain ⟨waiters, need, missing⟩ := acc
  have hcount : waiting waiters path = waiting c.waiters path + missing := hloop.counted
  -- the counts, whether or not anything is missing
  have hrem : ∀ p, (if 0 < missing then c.remaining.insert path ((c.remaining.lookup path).getD 0 + missing)
      else c.remaining).lookup p = if waiting waiters p = 0 then none else some (waiting waiters p) := by
    intro p
    by_cases hp : p = path
    · subst hp
      rw [hcount]
      split_ifs with hm h0 h0
      · omega
      · rw [lookup_insert, h.remaining p]
        split_ifs with hw
        · simp [hw]
        · simp
      · rw [h.remaining p, if_pos (by omega)]
      · rw [h.remaining p, if_neg (by omega)]
        congr 1
        omega
    · rw [hloop.others p hp, ← h.remaining p]
      split_ifs with hm
      · exact lookup_insert_ne hp
      · rfl
  have hcounted : (⟨c.recipes, waiters, if 0 < missing then
      c.remaining.insert path ((c.remaining.lookup path).getD 0 + missing) else c.remaining⟩ :
      ChunkStaging P H).Counted := ⟨hloop.waiters, hrem⟩
  refine ⟨hcounted, rfl, ?_, hloop.requested, ?_, hloop.awaited⟩
  · intro p hp
    rw [h.remaining p, ← hloop.others p hp]
    exact hrem p
  · intro hmem
    rw [hcounted.mem_remaining] at hmem
    change 0 < waiting waiters path at hmem
    by_cases hm : 0 < missing
    · refine (hloop.covered hm).imp_right ?_
      rintro ⟨p, hp⟩
      exact ⟨p, (h.mem_remaining p).mpr hp⟩
    · right
      exact ⟨path, (h.mem_remaining path).mpr (by omega)⟩

variable {path} in
theorem waitersOf_awaitOne (hash hash' : H) : waitersOf (awaitOne store path acc hash).1 hash' = [] ↔
    waitersOf acc.1 hash' = [] ∧ (hash' = hash → hash ∈ store) := by
  unfold awaitOne
  dsimp only
  by_cases hs : hash ∈ store
  · simp [hs]
  · rw [if_neg hs]
    by_cases hp : path ∈ waitersOf acc.1 hash
    · rw [if_pos hp]
      have hne : waitersOf acc.1 hash ≠ [] := ne_nil_of_mem hp
      simp only [hs, imp_false, iff_self_and]
      rintro hnil rfl
      exact hne hnil
    · rw [if_neg hp]
      rcases eq_or_ne hash' hash with rfl | hne
      · simp [waitersOf, hs]
      · simp [waitersOf, hne]

variable {path} in
theorem need_awaitOne (hash : H) : (awaitOne store path acc hash).2.1 =
    if hash ∉ store ∧ waitersOf acc.1 hash = [] then acc.2.1 ++ [hash] else acc.2.1 := by
  unfold awaitOne
  by_cases hs : hash ∈ store
  · simp [hs]
  · simp only [hs, if_false, not_false_eq_true, true_and]
    split_ifs <;> rfl

variable (acc) in
theorem need_foldl (hashes : List H) (hnodup : acc.2.1.Nodup) (hasked : ∀ hash ∈ acc.2.1, waitersOf acc.1 hash ≠ []) :
    (hashes.foldl (awaitOne store path) acc).2.1.Nodup ∧ ∀ hash, hash ∈ (hashes.foldl (awaitOne store path) acc).2.1 ↔
      hash ∈ acc.2.1 ∨ hash ∈ hashes ∧ hash ∉ store ∧ waitersOf acc.1 hash = [] := by
  induction hashes generalizing acc with
  | nil => simp [hnodup]
  | cons first hashes ih =>
    have hnodup' : (awaitOne store path acc first).2.1.Nodup := by
      rw [need_awaitOne]
      split_ifs with hfirst
      · exact nodup_append.mpr ⟨hnodup, nodup_singleton _, fun a ha b hb hab => hasked a ha (by simp_all)⟩
      · exact hnodup
    have hasked' : ∀ hash ∈ (awaitOne store path acc first).2.1, waitersOf (awaitOne store path acc first).1 hash ≠ [] := by
      intro hash hm hnil
      rw [waitersOf_awaitOne] at hnil
      rw [need_awaitOne] at hm
      split_ifs at hm with hfirst
      · rcases mem_append.mp hm with hm | hm
        · exact hasked hash hm hnil.1
        · exact hfirst.1 (hnil.2 (mem_singleton.mp hm))
      · exact hasked hash hm hnil.1
    obtain ⟨h1, h2⟩ := ih _ hnodup' hasked'
    refine ⟨h1, fun hash => ?_⟩
    rw [foldl_cons, h2, need_awaitOne, waitersOf_awaitOne]
    by_cases hf : hash = first
    · subst hf
      split_ifs with hfirst <;> simp <;> tauto
    · split_ifs <;> simp [hf]

/-- A hash is requested once, if the store lacks it and nobody waits for it. -/
theorem need_awaitMissing (c : ChunkStaging P H) (recipe : Recipe H) :
    (c.awaitMissing store path recipe).2.Nodup ∧ ∀ hash, hash ∈ (c.awaitMissing store path recipe).2 ↔
      hash ∈ recipe.hashes ∧ hash ∉ store ∧ waitersOf c.waiters hash = [] := by
  have h := need_foldl store path (c.waiters, [], 0) recipe.hashes nodup_nil (by simp)
  simp only [not_mem_nil, false_or] at h
  exact h

omit [DecidableEq P] [DecidableEq H] in
theorem parseEntries_error {path : P} {total : ℕ} {es : List (H × ℕ)} {e : Error P}
    (h : parseEntries path total es = .error e) : e = .oversizedRecipe path := by
  induction es generalizing total with
  | nil => cases h
  | cons entry es ih =>
    obtain ⟨hash, size⟩ := entry
    simp only [parseEntries] at h
    split_ifs at h
    · cases h
      rfl
    · cases hr : parseEntries path (total + size) es with
      | error e' =>
        rw [hr] at h
        cases h
        exact ih hr
      | ok rest =>
        rw [hr] at h
        cases h

omit [DecidableEq P] [DecidableEq H] in
theorem parseRecipe_cases (path : P) (recipe : Recipe H) :
    parseRecipe path recipe.hashes (recipe.map Prod.snd) = .ok recipe ∨
      parseRecipe path recipe.hashes (recipe.map Prod.snd) = .error (.oversizedRecipe path) := by
  have hzip : recipe.hashes.zip (recipe.map Prod.snd) = recipe := by
    simp [Recipe.hashes, zip_map']
  unfold parseRecipe
  rw [if_neg (by simp [Recipe.hashes]), hzip]
  cases hr : parseEntries path 0 recipe with
  | ok r => exact .inl (by rw [parseEntries_ok hr])
  | error e => exact .inr (by rw [parseEntries_error hr])

theorem addRecipe_rule (h : c.Counted) (hashes : List H) (sizes : List ℕ) : Ends (addRecipe store path hashes sizes) c
      (fun r c' => ∃ recipe c₁, parseRecipe path hashes sizes = .ok recipe ∧ Awaited c path recipe c₁ r.1 ∧
        c' = { c₁ with recipes := c₁.recipes.insert path recipe } ∧ r.2 = decide (path ∉ c₁.remaining))
      fun e c' => parseRecipe path hashes sizes = .error e ∧ c' = c := by
  unfold addRecipe
  cases hp : parseRecipe path hashes sizes with
  | ok recipe =>
    apply ends_get_bind
    apply ends_set_bind
    exact ends_pure ⟨recipe, _, rfl, awaited store path h recipe, rfl, rfl⟩
  | error e => exact ends_throw ⟨rfl, rfl⟩

theorem addRecipe_spec (h : c.Counted) (recipe : Recipe H) :
    Ends (addRecipe store path recipe.hashes (recipe.map Prod.snd)) c
      (fun r c' => ∃ c₁, Awaited c path recipe c₁ r.1 ∧ c' = { c₁ with recipes := c₁.recipes.insert path recipe } ∧
        r.2 = decide (path ∉ c₁.remaining))
      fun e c' => e = .oversizedRecipe path ∧ c' = c := by
  refine (addRecipe_rule store path h recipe.hashes (recipe.map Prod.snd)).mono ?_ ?_
  · rintro r c' ⟨recipe', c₁, hp, haw, hc, hr⟩
    rcases parseRecipe_cases path recipe with hok | herr
    · cases hp.symm.trans hok
      exact ⟨c₁, haw, hc, hr⟩
    · cases hp.symm.trans herr
  · rintro e c' ⟨hp, rfl⟩
    rcases parseRecipe_cases path recipe with hok | herr
    · cases hp.symm.trans hok
    · cases hp.symm.trans herr
      exact ⟨rfl, rfl⟩

end Await

/-! ### A chunk arrives -/

section Ingest

/-- The loop of `ingest`: the waiters still to be told count one chunk more than the
entries left in `waiters` say. -/
structure Arriving (start : ChunkStaging P H) (rest ready : List P) (c : ChunkStaging P H) : Prop where
  waiters : ∀ hash ws, c.waiters.lookup hash = some ws → ws.Nodup ∧ ws ≠ []
  recipes : c.recipes = start.recipes
  nodup : rest.Nodup
  remaining : ∀ p, c.remaining.lookup p = if waiting c.waiters p + rest.count p = 0 then none
    else some (waiting c.waiters p + rest.count p)
  readyNodup : ready.Nodup
  completed : ∀ p ∈ ready, p ∈ start.remaining ∧ p ∉ c.remaining
  kept : ∀ p, p ∉ ready → (p ∈ c.remaining ↔ p ∈ start.remaining)

theorem arrived_spec {start : ChunkStaging P H} {path : P} {rest ready : List P}
    (h : Arriving start (path :: rest) ready c) :
    Ends (arrived ready path) c (fun ready c => Arriving start rest ready c) fun _ _ => False := by
  obtain ⟨hnot, hrest⟩ := nodup_cons.mp h.nodup
  have hzero : rest.count path = 0 := count_eq_zero.mpr hnot
  have hleft : c.remaining.lookup path = some (waiting c.waiters path + 1) := by
    rw [h.remaining path, count_cons_self, hzero, if_neg (by omega)]
  have hmem : path ∈ c.remaining := mem_of_lookup hleft
  have hnotready : path ∉ ready := fun hr => (h.completed path hr).2 hmem
  have hother : ∀ p, p ≠ path → (path :: rest).count p = rest.count p := by
    intro p hp
    rw [count_cons]
    simp [hp.symm]
  unfold arrived
  apply ends_get_bind
  rw [hleft]
  cases hw : waiting c.waiters path with
  | zero =>
    apply ends_modify_bind
    apply ends_pure
    refine ⟨h.waiters, h.recipes, hrest, ?_, ?_, ?_, ?_⟩
    · intro p
      simp only [lookup_erase_eq]
      split_ifs with hp h0 h0
      · rfl
      · subst hp
        omega
      · rw [h.remaining p, hother p hp, if_pos h0]
      · rw [h.remaining p, hother p hp, if_neg h0]
    · refine nodup_append.mpr ⟨h.readyNodup, by simp, ?_⟩
      intro a ha b hb hab
      rw [mem_singleton.mp hb] at hab
      exact hnotready (hab ▸ ha)
    · intro p hp
      rcases mem_append.mp hp with hp | hp
      · refine ⟨(h.completed p hp).1, fun hm => (h.completed p hp).2 ?_⟩
        exact (mem_erase.mp hm).2
      · obtain rfl := mem_singleton.mp hp
        exact ⟨(h.kept p hnotready).mp hmem, by simp⟩
    · intro p hp
      rw [mem_append, not_or] at hp
      have hne : p ≠ path := by simpa using hp.2
      rw [← h.kept p hp.1]
      simp [hne]
  | succ n =>
    apply ends_modify_bind
    apply ends_pure
    refine ⟨h.waiters, h.recipes, hrest, ?_, h.readyNodup, ?_, ?_⟩
    · intro p
      simp only [lookup_insert_eq]
      split_ifs with hp h0 h0
      · subst hp
        omega
      · subst hp
        congr 1
        omega
      · rw [h.remaining p, hother p hp, if_pos h0]
      · rw [h.remaining p, hother p hp, if_neg h0]
    · intro p hp
      refine ⟨(h.completed p hp).1, fun hm => (h.completed p hp).2 ?_⟩
      rcases (mem_insert _).mp hm with heq | hm
      · exact heq ▸ hmem
      · exact hm
    · intro p hp
      rw [← h.kept p hp]
      constructor
      · intro hm
        rcases (mem_insert _).mp hm with heq | hm
        · exact heq ▸ hmem
        · exact hm
      · intro hm
        exact (mem_insert _).mpr (.inr hm)

/-- The bookkeeping after a chunk arrived and the paths it completed. -/
structure Ingested (c c' : ChunkStaging P H) (done : List P) : Prop where
  counted : c'.Counted
  recipes : c'.recipes = c.recipes
  nodup : done.Nodup
  completed : ∀ p ∈ done, p ∈ c.remaining ∧ p ∉ c'.remaining
  kept : ∀ p, p ∉ done → (p ∈ c'.remaining ↔ p ∈ c.remaining)

theorem Counted.nodup_waitersOf (h : c.Counted) (hash : H) : (waitersOf c.waiters hash).Nodup := by
  unfold waitersOf
  cases hl : c.waiters.lookup hash with
  | none => exact nodup_nil
  | some ws => exact (h.waiters hash ws hl).1

theorem ingest_spec (h : c.Counted) (hash : H) :
    Ends (ingest hash) c (fun ready c' => Ingested c c' ready) fun _ _ => False := by
  have hnodup := h.nodup_waitersOf hash
  have hstart : Arriving c (waitersOf c.waiters hash) [] { c with waiters := c.waiters.erase hash } := by
    refine ⟨?_, rfl, hnodup, ?_, nodup_nil, by simp, fun p _ => Iff.rfl⟩
    · intro hash' ws hl
      rw [lookup_erase_eq] at hl
      split_ifs at hl
      exact h.waiters hash' ws hl
    · intro p
      have hc : waiting (c.waiters.erase hash) p + (waitersOf c.waiters hash).count p = waiting c.waiters p := by
        rw [waiting_eq_erase_add c.waiters hash p]
        by_cases hp : p ∈ waitersOf c.waiters hash
        · simp [hp, count_eq_one_of_mem hnodup hp]
        · simp [hp, count_eq_zero.mpr hp]
      simp only [hc]
      exact h.remaining p
  unfold ingest
  apply ends_get_bind
  apply ends_modify_bind
  refine (ends_foldlM (I := Arriving c) (fun path rest ready t ht => arrived_spec ht) hstart).mono ?_ fun _ _ hf => hf
  intro ready c' hc
  refine ⟨⟨hc.waiters, fun p => ?_⟩, hc.recipes, hc.readyNodup, hc.completed, hc.kept⟩
  have hp := hc.remaining p
  rw [count_nil, add_zero] at hp
  exact hp

theorem ingest_waiters (c : ChunkStaging P H) (hash : H) :
    Ends (ingest hash) c (fun _ c' => c'.waiters = c.waiters.erase hash) fun _ _ => True := by
  unfold ingest
  apply ends_get_bind
  apply ends_modify_bind
  refine (ends_foldlM (I := fun _ _ c' => c'.waiters = c.waiters.erase hash) ?_ rfl).imp fun _ _ h => h
  intro path rest ready c' hc
  unfold arrived
  apply ends_get_bind
  split
  · exact ends_throw trivial
  · exact ends_throw trivial
  · exact ends_modify_bind (ends_pure hc)
  · exact ends_modify_bind (ends_pure hc)

/-- A chunk completes the paths that wait for it and for nothing else. -/
theorem ingest_ready (h : c.Counted) (hash : H) : Ends (ingest hash) c
    (fun ready c' => c'.Counted ∧ ready.Nodup ∧ ∀ p, p ∈ ready ↔ p ∈ waitersOf c.waiters hash ∧ waiting c.waiters p = 1)
    fun _ _ => False := by
  refine ((ingest_spec h hash).and (ingest_waiters c hash)).mono ?_ fun _ _ hf => hf.1
  rintro ready c' ⟨hi, hw⟩
  refine ⟨hi.counted, hi.nodup, fun p => ?_⟩
  have hready : p ∈ ready ↔ p ∈ c.remaining ∧ p ∉ c'.remaining :=
    ⟨hi.completed p, fun hp => by_contra fun hn => hp.2 ((hi.kept p hn).mpr hp.1)⟩
  have hsum := waiting_eq_erase_add c.waiters hash p
  rw [hready, h.mem_remaining, hi.counted.mem_remaining, hw]
  by_cases hp : p ∈ waitersOf c.waiters hash
  · simp only [hp, decide_true, Bool.toNat_true] at hsum
    simp only [hp, true_and]
    omega
  · simp only [hp, decide_false, Bool.toNat_false] at hsum
    simp only [hp, false_and, iff_false]
    omega

end Ingest

/-! ### Awaiting again -/

section Reawait

variable (store : Finset H)

/-- The loop of `reawait_stuck` with some of the stuck paths still to come. -/
structure Reawaiting (start : ChunkStaging P H) (rest : List P) (acc : List H × List P)
    (c : ChunkStaging P H) : Prop where
  counted : c.Counted
  recipes : c.recipes = start.recipes
  nodup : rest.Nodup ∧ acc.2.Nodup
  stuck : ∀ p, p ∈ rest ∨ p ∈ acc.2 ∨ p ∈ c.remaining → p ∈ start.remaining
  apart : (∀ p ∈ rest, p ∉ acc.2 ∧ p ∉ c.remaining) ∧ ∀ p ∈ acc.2, p ∉ c.remaining
  requested : ∀ hash ∈ acc.1, ∃ p recipe, start.recipes.lookup p = some recipe ∧ hash ∈ recipe.hashes
  covered : (∃ p, p ∈ c.remaining) → acc.1 ≠ []
  all : ∀ p ∈ start.remaining, p ∈ rest ∨ p ∈ acc.2 ∨ p ∈ c.remaining

theorem reawaitOne_spec {start : ChunkStaging P H} {path : P} {rest : List P} {acc : List H × List P}
    (hr : ∀ p ∈ start.remaining, p ∈ start.recipes) (h : Reawaiting start (path :: rest) acc c) :
    Ends (reawaitOne store acc path) c (fun acc c => Reawaiting start rest acc c) fun _ _ => False := by
  have hstuck : path ∈ start.remaining := h.stuck path (.inl mem_cons_self)
  obtain ⟨recipe, hrecipe⟩ := exists_lookup (hr path hstuck)
  obtain ⟨hnot, hrest⟩ := nodup_cons.mp h.nodup.1
  obtain ⟨hready, hrem⟩ := h.apart.1 path mem_cons_self
  have haw := awaited store path h.counted recipe
  unfold reawaitOne
  apply ends_get_bind
  rw [h.recipes, hrecipe]
  apply ends_get_bind
  generalize c.awaitMissing store path recipe = r at haw ⊢
  obtain ⟨c', need⟩ := r
  apply ends_set_bind
  apply ends_pure
  have hothers : ∀ p, p ≠ path → (p ∈ c'.remaining ↔ p ∈ c.remaining) := by
    intro p hp
    rw [← lookup_isSome, ← lookup_isSome, haw.others p hp]
  have hreq : ∀ hash ∈ acc.1 ++ need, ∃ p recipe, start.recipes.lookup p = some recipe ∧ hash ∈ recipe.hashes := by
    intro hash hh
    rcases mem_append.mp hh with hh | hh
    · exact h.requested hash hh
    · exact ⟨path, recipe, hrecipe, haw.requested hash hh⟩
  have hcov : (∃ p, p ∈ c'.remaining) → acc.1 ++ need ≠ [] := by
    rintro ⟨p, hp⟩ hnil
    obtain ⟨ha, hn⟩ := append_eq_nil_iff.mp hnil
    have hnone : ¬ ∃ p, p ∈ c.remaining := fun he => h.covered he ha
    by_cases heq : p = path
    · subst heq
      rcases haw.covered hp with hne | he
      · exact hne hn
      · exact hnone he
    · exact hnone ⟨p, (hothers p heq).mp hp⟩
  have hrestne : ∀ p ∈ rest, p ≠ path := fun p hp heq => hnot (heq ▸ hp)
  by_cases hm : path ∈ c'.remaining
  · simp only [if_pos hm]
    refine ⟨haw.counted, haw.recipes.trans h.recipes, ⟨hrest, h.nodup.2⟩, ?_, ⟨?_, ?_⟩, hreq, hcov, ?_⟩
    · intro p hp
      by_cases heq : p = path
      · exact heq ▸ hstuck
      · apply h.stuck p
        rcases hp with hp | hp | hp
        · exact .inl (mem_cons_of_mem _ hp)
        · exact .inr (.inl hp)
        · exact .inr (.inr ((hothers p heq).mp hp))
    · intro p hp
      obtain ⟨h1, h2⟩ := h.apart.1 p (mem_cons_of_mem _ hp)
      exact ⟨h1, fun hc => h2 ((hothers p (hrestne p hp)).mp hc)⟩
    · intro p hp
      have hne : p ≠ path := fun heq => hready (heq ▸ hp)
      exact fun hc => h.apart.2 p hp ((hothers p hne).mp hc)
    · intro p hp
      by_cases heq : p = path
      · exact .inr (.inr (heq ▸ hm))
      · rcases h.all p hp with hp | hp | hp
        · exact .inl ((mem_cons.mp hp).resolve_left heq)
        · exact .inr (.inl hp)
        · exact .inr (.inr ((hothers p heq).mpr hp))
  · simp only [if_neg hm]
    have hback : ∀ p, p ∈ c'.remaining → p ≠ path ∧ p ∈ c.remaining := by
      intro p hp
      have hne : p ≠ path := fun heq => hm (heq ▸ hp)
      exact ⟨hne, (hothers p hne).mp hp⟩
    refine ⟨haw.counted, haw.recipes.trans h.recipes, ⟨hrest, ?_⟩, ?_, ⟨?_, ?_⟩, hreq, hcov, ?_⟩
    · refine nodup_append.mpr ⟨h.nodup.2, by simp, ?_⟩
      intro a ha b hb hab
      rw [mem_singleton.mp hb] at hab
      exact hready (hab ▸ ha)
    · intro p hp
      by_cases heq : p = path
      · exact heq ▸ hstuck
      · apply h.stuck p
        rcases hp with hp | hp | hp
        · exact .inl (mem_cons_of_mem _ hp)
        · exact .inr (.inl ((mem_append.mp hp).resolve_right (by simpa using heq)))
        · exact .inr (.inr (hback p hp).2)
    · intro p hp
      obtain ⟨h1, h2⟩ := h.apart.1 p (mem_cons_of_mem _ hp)
      refine ⟨?_, fun hc => h2 (hback p hc).2⟩
      rw [mem_append, not_or]
      exact ⟨h1, by simpa using hrestne p hp⟩
    · intro p hp hc
      obtain ⟨hne, hc⟩ := hback p hc
      rcases mem_append.mp hp with hp | hp
      · exact h.apart.2 p hp hc
      · exact hne (mem_singleton.mp hp)
    · intro p hp
      by_cases heq : p = path
      · exact .inr (.inl (by simp [heq]))
      · rcases h.all p hp with hp | hp | hp
        · exact .inl ((mem_cons.mp hp).resolve_left heq)
        · exact .inr (.inl (mem_append.mpr (.inl hp)))
        · exact .inr (.inr ((hothers p heq).mpr hp))

/-- The bookkeeping after `reawait_stuck`, the hashes to request and the paths that
need none. -/
structure Reawaited (c c' : ChunkStaging P H) (need : List H) (done : List P) : Prop where
  counted : c'.Counted
  recipes : c'.recipes = c.recipes
  nodup : done.Nodup
  split : ∀ p, p ∈ c.remaining ↔ p ∈ done ∨ p ∈ c'.remaining
  apart : ∀ p ∈ done, p ∉ c'.remaining
  requested : ∀ hash ∈ need, ∃ p recipe, c.recipes.lookup p = some recipe ∧ hash ∈ recipe.hashes
  covered : (∃ p, p ∈ c'.remaining) → need ≠ []

theorem reawaitStuck_spec (hr : ∀ p ∈ c.remaining, p ∈ c.recipes) :
    Ends (reawaitStuck store) c (fun r c' => Reawaited c c' r.1 r.2) fun _ _ => False := by
  have hstart : Reawaiting c c.remaining.keys ([], []) { c with waiters := ∅, remaining := ∅ } := by
    refine ⟨⟨?_, fun p => rfl⟩, rfl, ⟨c.remaining.keys_nodup, nodup_nil⟩, ?_, ⟨?_, by simp⟩, by simp, ?_, ?_⟩
    · intro hash ws h
      cases h
    · intro p hp
      rcases hp with hp | hp | hp
      · exact mem_keys.mpr hp
      · cases hp
      · exact absurd hp (notMem_empty p)
    · intro p _
      exact ⟨by simp, notMem_empty p⟩
    · rintro ⟨p, hp⟩
      exact absurd hp (notMem_empty p)
    · intro p hp
      exact .inl (mem_keys.mp hp)
  unfold reawaitStuck
  apply ends_get_bind
  apply ends_modify_bind
  have hloop := ends_foldlM (I := Reawaiting c) (f := reawaitOne store)
    (fun path rest acc t ht => reawaitOne_spec store hr ht) hstart
  refine hloop.mono ?_ fun _ _ hf => hf
  intro acc c' hc
  refine ⟨hc.counted, hc.recipes, hc.nodup.2, fun p => ⟨fun hp => ?_, fun hp => hc.stuck p (.inr hp)⟩, hc.apart.2,
    hc.requested, hc.covered⟩
  rcases hc.all p hp with hp | hp
  · cases hp
  · exact hp

end Reawait

end Tribuchet.Staging.ChunkStaging
