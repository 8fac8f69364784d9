import Tribuchet.Outputs.Lockstep

/-! A result is transferred beside other jobs that use the cache. The chunks a delivery does not
ask for stay in the cache because they are pinned before they are looked up; so along every run the
worker and the hub stay in lockstep, and the hub publishes the plaintexts of the recipes. -/

namespace Tribuchet.Outputs.Transfer

open ByteStrings Hoare Runs Staging List Option Announced
open Transfer.State hiding take
open ChunkStore (Hash FrameRef)

variable {T : Type} {codec : Codec Hash T} {plain : Hash → Bytes} {fin : FinishedBuild}
variable {outputs extras : List (Announced Hash)} {attempt : ℕ} {c c' : ChunkStore.State} {guard : List Hash}

/-! ### The cache -/

structure Polite (codec : Codec Hash T) (plain : Hash → Bytes) (a : ChunkStore.Action) : Prop where
  quiet : ∀ o ∈ a.outcomes, o = .ok
  runs : (∀ budget outcomes, a ≠ .start budget outcomes) ∧ a ≠ .quit
  remembers : ∀ hash, a ≠ .forget hash
  inserts : ∀ hash frame outcomes, a = .insert hash frame outcomes → codec.decompress frame = some (plain hash)

structure Later (guard : List Hash) (c c' : ChunkStore.State) : Prop where
  guarded : guard ∈ c'.guards
  held : ∀ hash ∈ guard, c.Held hash → c'.Held hash
  issued : c.issued ⊆ c'.issued

variable {a : ChunkStore.Action}

theorem Intact.step (h : Intact codec plain c) (ha : Polite codec plain a)
    (hs : ChunkStore.step (fun _ _ => true) c a = some c') : Intact codec plain c' := by
  obtain ⟨p, hp⟩ := h.running
  have hf : ChunkStore.Faultless c a := ⟨ha.quiet, fun budget outcomes he => absurd he (ha.runs.1 budget outcomes)⟩
  obtain ⟨hsound, hresumes⟩ := ChunkStore.sound_step (fun _ _ => true) h.sound hf hs
  obtain ⟨p', hp', -⟩ := hresumes ha.runs.2 p hp
  refine ⟨⟨p', hp'⟩, hsound, fun hash frame hframe => ?_⟩
  rcases (ChunkStore.step_keeps _ hs ha.runs.1).admitted with hadmitted | ⟨x, new, outcomes, rfl, hadmitted⟩
  · exact h.frames hash frame (hadmitted ▸ hframe)
  · rw [hadmitted, Table.lookup_insert_eq] at hframe
    split_ifs at hframe with hx
    · obtain rfl := hx
      cases hframe
      exact ha.inserts _ _ _ rfl
    · exact h.frames hash frame hframe

theorem Intact.later (h : Intact codec plain c) (ha : Polite codec plain a)
    (hs : ChunkStore.step (fun _ _ => true) c a = some c') (hg : guard ∈ c.guards)
    (hdrop : ∀ i, a = .dropGuard i → guard ∈ c.guards.eraseIdx i) : Later guard c c' := by
  have hf : ChunkStore.Faultless c a := ⟨ha.quiet, fun budget outcomes he => absurd he (ha.runs.1 budget outcomes)⟩
  have hkeeps := ChunkStore.step_keeps _ hs ha.runs.1
  refine ⟨?_, fun hash hmem hheld => ?_, hkeeps.issued⟩
  · rcases hkeeps.guards with hsub | ⟨i, ha, heq⟩
    · exact hsub hg
    · exact heq ▸ hdrop i ha
  · exact hheld.step _ h.sound hf hs ha.runs.2 (ha.remembers hash) hg hmem

theorem polite_locate (hash : Hash) : Polite codec plain (.locate hash []) :=
  ⟨by simp [ChunkStore.Action.outcomes], ⟨by simp, by simp⟩, by simp, by simp⟩

theorem polite_pin (hashes : List Hash) : Polite codec plain (.pin hashes) :=
  ⟨by simp [ChunkStore.Action.outcomes], ⟨by simp, by simp⟩, by simp, by simp⟩

theorem polite_insert {hash : Hash} {frame : Bytes} (h : codec.decompress frame = some (plain hash)) :
    Polite codec plain (.insert hash frame []) := by
  refine ⟨by simp [ChunkStore.Action.outcomes], ⟨by simp, by simp⟩, by simp, fun x new outcomes he => ?_⟩
  cases he
  exact h

theorem polite_of_foreign {s : State} (h : foreign codec plain outputs extras s a) : Polite codec plain a := by
  obtain ⟨hquiet, hwhat⟩ := h
  cases a with
  | start _ _ => cases hwhat
  | forget _ => cases hwhat
  | quit => cases hwhat
  | insert hash frame outcomes =>
    refine ⟨hquiet, ⟨by simp, by simp⟩, by simp, fun x new outcomes he => ?_⟩
    cases he
    exact hwhat
  | evict _ | locate _ _ | peek _ _ | pin _ | dropGuard _ => exact ⟨hquiet, ⟨by simp, by simp⟩, by simp, by simp⟩

theorem Intact.locating (h : Intact codec plain c) {hash : Hash} {r : Option FrameRef}
    (hl : c.locating hash = some (r, c')) (hg : guard ∈ c.guards) :
    Intact codec plain c' ∧ Later guard c c' ∧ (r ≠ none ↔ c.Held hash) ∧
      ∀ ref, r = some ref → ∃ frame, codec.decompress frame = some (plain hash) ∧ (ref, some frame) ∈ c'.issued := by
  obtain ⟨hs, hheld, hissued⟩ := ChunkStore.locating_spec h.sound hl
  refine ⟨h.step (polite_locate hash) hs, h.later (polite_locate hash) hs hg (by simp), hheld, fun ref href => ?_⟩
  obtain ⟨frame, hframe, hmem⟩ := hissued ref href
  exact ⟨frame, h.frames hash frame hframe, hmem⟩

/-! ### The invariant -/

section

variable (codec plain outputs extras)

/-- Between two turns of the delivery: what is not needed is in the cache. -/
structure Between (c : ChunkStore.State) (d : Delivery Hash) (events : List Event) : Prop where
  entries : ∀ e ∈ left d, Accepted codec plain e ∧ e.1 ∈ allHashes outputs extras
  nodup : d.needed.Nodup
  held : ∀ e ∈ left d, e.1 ∈ d.needed ∨ c.Held e.1
  shown : events.map (shown codec) ++ script plain d.outputs d.extras = script plain outputs extras

def InStep (d : Delivery Hash) : List (WorkerMsg Hash) → Option Sending → Prop :=
  Lockstep codec plain (firsts d.needed.toFinset ((left d).map Prod.fst))

inductive At (c : ChunkStore.State) : Phase → List (WorkerMsg Hash) → Option Sending → List Event → Prop
  | pinning : At c .pinning [] none []
  | asking {past rest needed} : allHashes outputs extras ∈ c.guards → allHashes outputs extras = past ++ rest →
      needed.Nodup → (∀ hash ∈ needed, hash ∈ past) → (∀ hash ∈ past, hash ∈ needed ∨ c.Held hash) →
      At c (.asking rest needed) [] none []
  | ready {d channel sending events} : allHashes outputs extras ∈ c.guards →
      Between codec plain outputs extras c d events → InStep codec plain d channel sending →
      At c (.ready d) channel sending events
  | received {d hash size rest frame channel sending events} : allHashes outputs extras ∈ c.guards →
      Between codec plain outputs extras c d events → nextHash d = some hash → hash ∈ d.needed →
      left d = (hash, size) :: rest → codec.decompress frame = some (plain hash) → frame.length < 2 ^ 32 →
      Lockstep codec plain (firsts (d.needed.toFinset.erase hash) (rest.map Prod.fst)) channel sending →
      At c (.received d (.chunk hash frame false)) channel sending events
  | storing {e d channel sending events} : allHashes outputs extras ∈ c.guards →
      Between codec plain outputs extras c d (events ++ e.toList) → InStep codec plain d channel sending →
      At c (.storing (.goOn e d)) channel sending events
  | located {d hash ref frame channel sending events} : allHashes outputs extras ∈ c.guards →
      Between codec plain outputs extras c d events → InStep codec plain d channel sending → nextHash d = some hash →
      hash ∉ d.needed → (ref, some frame) ∈ c.issued → codec.decompress frame = some (plain hash) →
      At c (.located d (some ref)) channel sending events
  | finished {events} : events.map (shown codec) = script plain outputs extras → At c .finished [] none events
  | failed {hashes channel sending events} : Lockstep codec plain hashes channel sending →
      events.map (shown codec) <+: script plain outputs extras →
      At c (.failed (.other "registering extra")) channel sending events

structure Inv (s : State) : Prop where
  cache : Intact codec plain s.cache
  refused : s.refused = none
  order : s.sent = s.consumed ++ s.channel
  position : At codec plain outputs extras s.cache s.phase s.channel s.sending s.events

end

variable {d d' : Delivery Hash} {events : List Event} {phase : Phase} {channel more : List (WorkerMsg Hash)}
variable {sending sending' : Option Sending} {s s' : State}

theorem Between.later (h : Between codec plain outputs extras c d events) (hl : Later (allHashes outputs extras) c c') :
    Between codec plain outputs extras c' d events where
  entries := h.entries
  nodup := h.nodup
  held e he := (h.held e he).imp_right (hl.held e.1 (h.entries e he).2)
  shown := h.shown

theorem At.later (h : At codec plain outputs extras c phase channel sending events)
    (hl : allHashes outputs extras ∈ c.guards → phase.pinned = true → Later (allHashes outputs extras) c c') :
    At codec plain outputs extras c' phase channel sending events := by
  cases h with
  | pinning => exact .pinning
  | asking hg hall hnodup hsub hheld =>
    have hl := hl hg rfl
    refine .asking hl.guarded hall hnodup hsub fun hash hh => (hheld hash hh).imp_right (hl.held hash ?_)
    exact hall ▸ mem_append_left _ hh
  | ready hg hb hk => exact .ready (hl hg rfl).guarded (hb.later (hl hg rfl)) hk
  | received hg hb hn hmem hleft hframe hlen hk =>
    exact .received (hl hg rfl).guarded (hb.later (hl hg rfl)) hn hmem hleft hframe hlen hk
  | storing hg hb hk => exact .storing (hl hg rfl).guarded (hb.later (hl hg rfl)) hk
  | located hg hb hk hn hmem hissued hframe =>
    exact .located (hl hg rfl).guarded (hb.later (hl hg rfl)) hk hn hmem ((hl hg rfl).issued hissued) hframe
  | finished hshown => exact .finished hshown
  | failed hk hshown => exact .failed hk hshown

theorem At.extend {w : Sending} (h : At codec plain outputs extras c phase channel (some w) events)
    (hw : w.Honest codec plain → Lockstep codec plain (firsts w.needed w.hashes) more sending') :
    At codec plain outputs extras c phase (channel ++ more) sending' events := by
  cases h with
  | ready hg hb hk => exact .ready hg hb (Lockstep.extend hk hw)
  | received hg hb hn hmem hleft hframe hlen hk => exact .received hg hb hn hmem hleft hframe hlen (hk.extend hw)
  | storing hg hb hk => exact .storing hg hb (Lockstep.extend hk hw)
  | located hg hb hk hn hmem hissued hframe => exact .located hg hb (Lockstep.extend hk hw) hn hmem hissued hframe
  | failed hk hshown => exact .failed (hk.extend hw) hshown

theorem At.honest {w : Sending} (h : At codec plain outputs extras c phase channel (some w) events) :
    w.Honest codec plain := by
  cases h with
  | ready _ _ hk => exact Lockstep.honest hk
  | received _ _ _ _ _ _ _ hk => exact hk.honest
  | storing _ _ hk => exact Lockstep.honest hk
  | located _ _ hk => exact Lockstep.honest hk
  | failed hk _ => exact hk.honest

/-! ### Steps of the worker and of others -/

theorem inv_other (h : Inv codec plain outputs extras s)
    (hf : foreign codec plain outputs extras s a) (hs : ChunkStore.step (fun _ _ => true) s.cache a = some c') :
    Inv codec plain outputs extras { s with cache := c' } := by
  have hpolite := polite_of_foreign hf
  refine ⟨h.cache.step hpolite hs, h.refused, h.order, h.position.later fun hg hpinned => ?_⟩
  refine h.cache.later hpolite hs hg fun i hi => ?_
  subst hi
  exact hf.2 hpinned

theorem inv_worker (h : Inv codec plain outputs extras s) (hs : s.worker = some s') : Inv codec plain outputs extras s' := by
  unfold worker at hs
  cases hsending : s.sending with
  | none =>
    rw [hsending] at hs
    cases hs
  | some w =>
    have hat := h.position
    rw [hsending] at hat hs
    rcases hat.honest.turn with ⟨w', hturn, hk⟩ | ⟨m, w', hturn, hk⟩ | ⟨hturn, hnil⟩
    · simp only [hturn, some.injEq] at hs
      subst hs
      have hat' := hat.extend fun _ => hk
      rw [append_nil] at hat'
      exact ⟨h.cache, h.refused, h.order, hat'⟩
    · simp only [hturn, some.injEq] at hs
      subst hs
      refine ⟨h.cache, h.refused, ?_, hat.extend fun _ => hk⟩
      simp only [put, h.order, append_assoc]
    · simp only [hturn, some.injEq] at hs
      subst hs
      refine ⟨h.cache, h.refused, ?_, hat.extend fun _ => hnil ▸ .ended⟩
      simp only [put, h.order, append_assoc]

/-! ### Steps of the delivery -/

/-- The hub was told of the files, and they are what they should be. -/
structure Agreed (codec : Codec Hash T) (plain : Hash → Bytes) (fin : FinishedBuild)
    (outputs extras : List (Announced Hash)) : Prop where
  files : ∀ p ∈ fin.outputs ++ fin.extras, p.Honest codec plain
  hashes : (fin.outputs ++ fin.extras).flatMap (fun p => p.chunks.map OutChunk.hash) = allHashes outputs extras
  entries : ∀ e ∈ (outputs ++ extras).flatMap recipe, Accepted codec plain e

theorem Between.advance (h : Between codec plain outputs extras c d events) {rest : Recipe Hash} {needed : List Hash}
    {e : Option Event} (ha : Advances codec plain d rest needed e d') (hsub : ∀ x ∈ rest, x ∈ left d)
    (hnodup : needed.Nodup) (hheld : ∀ x ∈ rest, x.1 ∈ needed ∨ c.Held x.1) :
    Between codec plain outputs extras c d' (events ++ e.toList) where
  entries x hx := h.entries x (hsub x (ha.left ▸ hx))
  nodup := ha.needed ▸ hnodup
  held x hx := by
    rw [ha.needed]
    exact hheld x (ha.left ▸ hx)
  shown := by rw [map_append, append_assoc, ha.shown, h.shown]

theorem InStep.advance {rest : Recipe Hash} {needed : List Hash} {e : Option Event}
    (ha : Advances codec plain d rest needed e d')
    (hk : Lockstep codec plain (firsts needed.toFinset (rest.map Prod.fst)) channel sending) :
    InStep codec plain d' channel sending := by
  unfold InStep
  rw [ha.left, ha.needed]
  exact hk

theorem Inv.at_phase (h : Inv codec plain outputs extras s) (hphase : s.phase = phase) :
    At codec plain outputs extras s.cache phase s.channel s.sending s.events := hphase ▸ h.position

variable {imported : Bool}

section Hub

variable (h : Inv codec plain outputs extras s)
variable (hs : s.hub codec fin outputs extras attempt imported = some s')

include h hs

theorem inv_pinning (hphase : s.phase = .pinning) : Inv codec plain outputs extras s' := by
  simp only [hub, hphase] at hs
  obtain ⟨c', hpin, rfl⟩ := map_eq_some_iff.mp hs
  have hg : allHashes outputs extras ∈ c'.guards := by
    obtain ⟨st, -, rfl⟩ := map_eq_some_iff.mp hpin
    exact mem_cons_self
  refine ⟨h.cache.step (polite_pin _) hpin, h.refused, h.order, ?_⟩
  have hat := h.at_phase hphase
  generalize s.channel = channel, s.sending = sending, s.events = events at hat ⊢
  cases hat
  exact .asking hg (nil_append _).symm nodup_nil (by simp) (by simp)

theorem inv_asking (hagreed : Agreed codec plain fin outputs extras) {rest needed : List Hash}
    (hphase : s.phase = .asking rest needed) : Inv codec plain outputs extras s' := by
  obtain ⟨cache, phase, sending, refused, channel, sent, consumed, events⟩ := s
  obtain rfl : phase = .asking rest needed := hphase
  obtain ⟨hcache, hrefused, horder, hat⟩ := h
  cases hat with
  | @asking past _ _ hg hall hnodup hsub hheld =>
    cases rest with
    | nil =>
      rw [append_nil] at hall
      simp only [hub, some.injEq] at hs
      subst hs
      refine ⟨hcache, hrefused, horder, .ready hg ⟨fun e he => ⟨hagreed.entries e he, ?_⟩, hnodup, fun e he => ?_, rfl⟩ ?_⟩
      · exact mem_map_of_mem he
      · exact hheld e.1 (hall ▸ mem_map_of_mem he)
      · have hhashes : (Sending.mk (fin.outputs ++ fin.extras) needed.toFinset).hashes = allHashes outputs extras :=
          hagreed.hashes
        have hworking : Lockstep codec plain (firsts needed.toFinset (allHashes outputs extras)) []
            (some ⟨fin.outputs ++ fin.extras, needed.toFinset⟩) := by
          rw [← hhashes]
          refine .working (w := ⟨fin.outputs ++ fin.extras, needed.toFinset⟩) ⟨hagreed.files, fun hash hh => ?_⟩
          rw [hhashes, hall]
          exact hsub hash (List.mem_toFinset.mp hh)
        exact hworking
    | cons hash rest =>
      have hall' : allHashes outputs extras = past ++ [hash] ++ rest := by rw [hall, append_assoc]; rfl
      have hsub' {x : Hash} (hx : x ∈ needed) : x ∈ past ++ [hash] := mem_append_left _ (hsub x hx)
      simp only [hub] at hs
      split_ifs at hs with hmem
      · cases hs
        refine ⟨hcache, hrefused, horder, .asking hg hall' hnodup (fun x => hsub') fun x hx => ?_⟩
        rcases mem_append.mp hx with hx | hx
        · exact hheld x hx
        · exact .inl (mem_singleton.mp hx ▸ hmem)
      · obtain ⟨⟨r, c'⟩, hlocating, rfl⟩ := map_eq_some_iff.mp hs
        obtain ⟨hcache', hl, hr, -⟩ := hcache.locating hlocating hg
        have hpast {x : Hash} (hx : x ∈ past) : x ∈ needed ∨ c'.Held x :=
          (hheld x hx).imp_right (hl.held x (hall ▸ mem_append_left _ hx))
        refine ⟨hcache', hrefused, horder, ?_⟩
        cases r with
        | none =>
          refine .asking hl.guarded hall' ?_ (fun x hx => ?_) fun x hx => ?_
          · exact nodup_append.mpr ⟨hnodup, nodup_singleton hash, by
              intro x hx y hy
              rw [mem_singleton.mp hy]
              rintro rfl
              exact hmem hx⟩
          · rcases mem_append.mp hx with hx | hx
            · exact hsub' hx
            · exact mem_append_right _ hx
          · rcases mem_append.mp hx with hx | hx
            · exact (hpast hx).imp_left (mem_append_left _)
            · exact .inl (mem_append_right _ hx)
        | some ref =>
          refine .asking hl.guarded hall' hnodup (fun x => hsub') fun x hx => ?_
          rcases mem_append.mp hx with hx | hx
          · exact hpast hx
          · rw [mem_singleton.mp hx]
            exact .inr (hl.held hash (hall ▸ mem_append_right _ mem_cons_self) (hr.mp (by simp)))

theorem inv_ready (hphase : s.phase = .ready d) : Inv codec plain outputs extras s' := by
  obtain ⟨cache, phase, sending, refused, channel, sent, consumed, events⟩ := s
  obtain rfl : phase = .ready d := hphase
  obtain ⟨hcache, hrefused, horder, hat⟩ := h
  cases hat with
  | ready hg hb hk =>
    simp only [hub] at hs
    cases hn : nextHash d with
    | some hash =>
      obtain ⟨size, rest, hleft, -⟩ := turn_chunk codec plain attempt hn
      simp only [hn] at hs
      split_ifs at hs with hmem
      · cases channel with
        | nil => cases hs
        | cons m channel =>
          simp only [State.take, some.injEq] at hs
          subst hs
          unfold InStep at hk
          rw [hleft, map_cons, firsts, if_pos (List.mem_toFinset.mpr hmem)] at hk
          rcases hk.take with ⟨x, frame, l, hl, rfl, hframe, hlen, hk⟩ | ⟨hl, -⟩
          · obtain ⟨rfl, rfl⟩ := cons.inj hl
            refine ⟨hcache, hrefused, ?_, .received hg hb hn hmem hleft hframe hlen hk⟩
            rw [horder, append_assoc]
            rfl
          · cases hl
      · obtain ⟨⟨r, c'⟩, hlocating, rfl⟩ := map_eq_some_iff.mp hs
        obtain ⟨hcache', hl, hr, hissued⟩ := hcache.locating hlocating hg
        have hheld := (hb.held (hash, size) (hleft ▸ mem_cons_self)).resolve_left hmem
        obtain ⟨ref, rfl⟩ := ne_none_iff_exists'.mp (hr.mpr hheld)
        obtain ⟨frame, hframe, hmem'⟩ := hissued ref rfl
        exact ⟨hcache', hrefused, horder, .located hl.guarded (hb.later hl) hk hn hmem hmem' hframe⟩
    | none =>
      simp only [hn] at hs
      split_ifs at hs with hend
      · cases channel with
        | nil => cases hs
        | cons m channel =>
          simp only [State.take, some.injEq] at hs
          subst hs
          obtain ⟨outs, exts, needed⟩ := d
          obtain ⟨rfl, rfl⟩ := hend
          rcases hk.take with ⟨x, frame, l, hl, -⟩ | ⟨-, rfl, rfl, rfl⟩
          · cases hl
          · refine ⟨hcache, hrefused, horder.trans (append_nil _).symm, .finished ?_⟩
            have hshown := hb.shown
            rwa [script, flatMap_nil, map_nil, append_nil, append_nil] at hshown
      · cases hs
        rcases turn_path codec plain attempt hn hend imported with ⟨e, d', hturn, ha⟩ | hturn
        · rw [hturn]
          exact ⟨hcache, hrefused, horder,
            .ready hg (hb.advance ha (fun _ hx => hx) hb.nodup hb.held) (InStep.advance ha hk)⟩
        · rw [hturn]
          exact ⟨hcache, hrefused, horder, .failed hk ⟨_, hb.shown⟩⟩

theorem inv_received {m : WorkerMsg Hash} (hphase : s.phase = .received d m) : Inv codec plain outputs extras s' := by
  obtain ⟨cache, phase, sending, refused, channel, sent, consumed, events⟩ := s
  obtain rfl : phase = .received d m := hphase
  obtain ⟨hcache, hrefused, horder, hat⟩ := h
  cases hat with
  | @received _ hash size rest frame _ _ _ hg hb hn hmem hleft hframe hlen hk =>
    obtain ⟨size', rest', hleft', hturn⟩ := turn_chunk codec plain attempt hn
    obtain ⟨hentry, rfl⟩ := cons.inj (hleft.symm.trans hleft')
    obtain ⟨-, rfl⟩ := Prod.mk.inj hentry
    have haccepted := (hb.entries (hash, size) (hleft ▸ mem_cons_self)).1
    obtain ⟨others, hget, hnodup, hothers⟩ := get_received haccepted hframe hmem hb.nodup
    obtain ⟨e, d', hgo, ha⟩ := hturn _ frame _ rfl hget hframe
    simp only [hub, hgo] at hs
    obtain ⟨⟨admitted, c'⟩, hadmitting, rfl⟩ := map_eq_some_iff.mp hs
    obtain ⟨hinsert, rfl, hheld⟩ := ChunkStore.admitting_spec hcache.sound hlen hadmitting
    have hpolite : Polite codec plain (.insert hash frame []) := polite_insert hframe
    have hl := hcache.later hpolite hinsert hg (by simp)
    refine ⟨hcache.step hpolite hinsert, hrefused, horder, .storing hl.guarded ?_ (InStep.advance ha ?_)⟩
    · refine (hb.later hl).advance ha (fun x hx => hleft ▸ mem_cons_of_mem _ hx) hnodup fun x hx => ?_
      by_cases hx' : x.1 = hash
      · exact .inr (hx' ▸ hheld)
      · refine ((hb.later hl).held x (hleft ▸ mem_cons_of_mem _ hx)).imp_left fun hn => ?_
        exact (hothers x.1).mpr ⟨hx', hn⟩
    · have herase : others.toFinset = d.needed.toFinset.erase hash := by
        ext x
        rw [List.mem_toFinset, hothers, Finset.mem_erase, List.mem_toFinset]
      rw [herase]
      exact hk

theorem inv_storing {t : Turn Hash} (hphase : s.phase = .storing t) : Inv codec plain outputs extras s' := by
  obtain ⟨cache, phase, sending, refused, channel, sent, consumed, events⟩ := s
  obtain rfl : phase = .storing t := hphase
  obtain ⟨hcache, hrefused, horder, hat⟩ := h
  cases hat with
  | storing hg hb hk =>
    simp only [hub] at hs
    obtain ⟨st, -, rfl⟩ := map_eq_some_iff.mp hs
    exact ⟨hcache, hrefused, horder, .ready hg hb hk⟩

theorem inv_located {r : Option FrameRef} (hphase : s.phase = .located d r) : Inv codec plain outputs extras s' := by
  obtain ⟨cache, phase, sending, refused, channel, sent, consumed, events⟩ := s
  obtain rfl : phase = .located d r := hphase
  obtain ⟨hcache, hrefused, horder, hat⟩ := h
  cases hat with
  | @located _ hash ref frame _ _ _ hg hb hk hn hmem hissued hframe =>
    obtain ⟨size, rest, hleft, hturn⟩ := turn_chunk codec plain attempt hn
    have haccepted := (hb.entries (hash, size) (hleft ▸ mem_cons_self)).1
    have hread : cache.readBack ref = some frame := ChunkStore.readBack_issued hcache.sound hissued
    obtain ⟨e, d', hgo, ha⟩ := hturn ⟨none, some frame, true, true⟩ frame d.needed rfl
      (by simp [get, hmem, haccepted.decode hframe]) hframe
    simp only [hub, bind_some, hread, hgo, some.injEq] at hs
    subst hs
    refine ⟨hcache, hrefused, horder, .ready hg ?_ (InStep.advance ha ?_)⟩
    · refine hb.advance ha (fun x hx => hleft ▸ mem_cons_of_mem _ hx) hb.nodup fun x hx => ?_
      exact hb.held x (hleft ▸ mem_cons_of_mem _ hx)
    · unfold InStep at hk
      rw [hleft, map_cons, firsts, if_neg (by rw [List.mem_toFinset]; exact hmem)] at hk
      exact hk

theorem inv_hub (hagreed : Agreed codec plain fin outputs extras) : Inv codec plain outputs extras s' := by
  cases hphase : s.phase with
  | pinning => exact inv_pinning h hs hphase
  | asking rest needed => exact inv_asking h hs hagreed hphase
  | ready d => exact inv_ready h hs hphase
  | received d m => exact inv_received h hs hphase
  | storing t => exact inv_storing h hs hphase
  | located d r => exact inv_located h hs hphase
  | finished | failed e => simp [hub, hphase] at hs

end Hub

theorem inv_step (hagreed : Agreed codec plain fin outputs extras) (h : Inv codec plain outputs extras s) {a : Action}
    (hs : step codec plain fin outputs extras attempt s a = some s') : Inv codec plain outputs extras s' := by
  cases a with
  | other a =>
    simp only [step] at hs
    split_ifs at hs with hf
    obtain ⟨c', hc, rfl⟩ := map_eq_some_iff.mp hs
    exact inv_other h hf hc
  | worker => exact inv_worker h hs
  | hub imported => exact inv_hub h hs hagreed

theorem inv_of_reachable (hagreed : Agreed codec plain fin outputs extras)
    (h : (system codec plain fin outputs extras attempt).Reachable s) : Inv codec plain outputs extras s := by
  refine System.Reachable.invariant (I := Inv codec plain outputs extras) ?_ (fun s a s' hi hs => inv_step hagreed hi hs) h
  rintro s ⟨c, hc, rfl⟩
  exact ⟨hc, rfl, rfl, .pinning⟩

/-! ### What the hub was told -/

theorem ofManifest_ok {m : Manifest Hash} {a : Announced Hash} (h : ofManifest m = .ok a) :
    a = ⟨m.storePath, m.hashes.zip m.sizes⟩ := by
  unfold ofManifest parseRecipe at h
  split_ifs at h
  split at h
  · rename_i recipe hparse
    cases h
    rw [parseEntries_ok hparse]
  · cases h

theorem ofManifest_packed {p : Packed} {a : Announced Hash} (h : ofManifest p.manifest = .ok a) : a = p.announced := by
  rw [ofManifest_ok h, Packed.manifest, Packed.announced]
  congr 1
  rw [zip_map']

theorem verifyAfter_packed {requested seen : List String} {ps : List Packed} {announced : List (Announced Hash)}
    (h : verifyAfter requested seen (ps.map Packed.manifest) = .ok announced) : announced = ps.map Packed.announced := by
  induction ps generalizing seen announced with
  | nil =>
    rw [map_nil, verifyAfter] at h
    split at h
    · cases h
    · cases h
      rfl
  | cons p ps ih =>
    rw [map_cons, verifyAfter] at h
    split_ifs at h
    split at h
    · cases h
    · rename_i a ha
      cases hrest : verifyAfter requested (p.manifest.storePath :: seen) (ps.map Packed.manifest) with
      | error e =>
        rw [hrest] at h
        cases h
      | ok more =>
        rw [hrest] at h
        cases h
        rw [ih hrest, ofManifest_packed ha, map_cons]

theorem parseExtras_packed {ps : List Packed} {announced : List (Announced Hash)}
    (h : parseExtras (ps.map Packed.manifest) = .ok announced) : announced = ps.map Packed.announced := by
  induction ps generalizing announced with
  | nil =>
    cases h
    rfl
  | cons p ps ih =>
    rw [map_cons, parseExtras] at h
    split at h
    · cases h
    · rename_i a ha
      cases hrest : parseExtras (ps.map Packed.manifest) with
      | error e =>
        rw [hrest] at h
        cases h
      | ok more =>
        rw [hrest] at h
        cases h
        rw [ih hrest, ofManifest_packed ha, map_cons]

theorem agreed_of_honest (hfin : ∀ p ∈ fin.outputs ++ fin.extras, p.Honest codec plain) {requested : List String}
    (houtputs : verifySet (fin.outputs.map Packed.manifest) requested = .ok outputs)
    (hextras : parseExtras (fin.extras.map Packed.manifest) = .ok extras) : Agreed codec plain fin outputs extras := by
  have hall : outputs ++ extras = (fin.outputs ++ fin.extras).map Packed.announced := by
    rw [verifyAfter_packed houtputs, parseExtras_packed hextras, map_append]
  refine ⟨hfin, ?_, fun e he => ?_⟩
  · rw [allHashes, hall, flatMap_map, map_flatMap]
    refine flatMap_congr fun p _ => ?_
    simp [Packed.announced]
  · rw [hall, flatMap_map] at he
    obtain ⟨p, hp, he⟩ := mem_flatMap.mp he
    obtain ⟨c, hc, rfl⟩ := mem_map.mp he
    obtain ⟨-, frame, -, hdecode⟩ := hfin p hp c hc
    exact (decompress_of_decodeChunk hdecode).2

/-! ### The run -/

theorem At.shown_isPrefix (h : At codec plain outputs extras c phase channel sending events) :
    events.map (shown codec) <+: script plain outputs extras := by
  cases h with
  | pinning => exact nil_prefix
  | asking => exact nil_prefix
  | ready _ hb => exact ⟨_, hb.shown⟩
  | received _ hb => exact ⟨_, hb.shown⟩
  | storing _ hb =>
    have hshown := hb.shown
    rw [map_append, append_assoc] at hshown
    exact ⟨_, hshown⟩
  | located _ hb => exact ⟨_, hb.shown⟩
  | finished hshown => exact hshown ▸ prefix_rfl
  | failed _ hshown => exact hshown

theorem worker_enabled {w : Sending} (h : s.sending = some w) : ∃ s', s.worker = some s' := by
  unfold worker
  rw [h]
  simp only
  split
  · exact ⟨_, rfl⟩
  · exact ⟨_, rfl⟩
  · exact ⟨_, rfl⟩
  · exact ⟨_, rfl⟩

theorem hub_or_worker_enabled (h : At codec plain outputs extras s.cache s.phase s.channel s.sending s.events)
    (hfinished : s.phase ≠ .finished) (hfailed : ∀ e, s.phase ≠ .failed e) {store : ChunkStore.Store}
    (hidle : s.cache.idle = some store) :
    (∃ s', s.hub codec fin outputs extras attempt true = some s') ∨ ∃ s', s.worker = some s' := by
  obtain ⟨cache, phase, sending, refused, channel, sent, consumed, events⟩ := s
  have hlocating (hash : Hash) : ∃ r, cache.locating hash = some r := by simp [ChunkStore.State.locating, hidle]
  simp only at h hfinished hfailed hidle
  cases h with
  | pinning =>
    left
    simp [hub, ChunkStore.step, hidle]
  | @asking past rest needed hg =>
    left
    cases rest with
    | nil => exact ⟨_, rfl⟩
    | cons hash rest =>
      obtain ⟨r, hr⟩ := hlocating hash
      simp only [hub, hr]
      split_ifs
      · exact ⟨_, rfl⟩
      · exact ⟨_, rfl⟩
  | @ready d _ _ _ hg hb hk =>
    cases channel with
    | nil =>
      obtain ⟨w, hw⟩ := hk.waiting
      exact .inr (worker_enabled hw)
    | cons m channel =>
      left
      simp only [hub]
      cases hn : nextHash d with
      | some hash =>
        obtain ⟨r, hr⟩ := hlocating hash
        simp only [hr]
        split_ifs
        · exact ⟨_, rfl⟩
        · exact ⟨_, rfl⟩
      | none =>
        simp only
        split_ifs
        · exact ⟨_, rfl⟩
        · exact ⟨_, rfl⟩
  | @received d hash size rest frame _ _ _ hg hb hn hmem hleft hframe hlen hk =>
    left
    simp only [hub]
    cases d.turn codec attempt ⟨some (.chunk hash frame false), none, true, true⟩ with
    | goOn e d' => simp [ChunkStore.State.admitting, ChunkStore.step, hidle]
    | finished => exact ⟨_, rfl⟩
    | failed e => exact ⟨_, rfl⟩
  | storing =>
    left
    simp [hub, hidle]
  | located => exact .inl ⟨_, rfl⟩
  | finished => exact absurd rfl hfinished
  | failed => exact absurd rfl (hfailed _)

theorem enabled (h : Inv codec plain outputs extras s) (hfinished : s.phase ≠ .finished) (hfailed : ∀ e, s.phase ≠ .failed e) :
    ∃ a s', step codec plain fin outputs extras attempt s a = some s' := by
  obtain ⟨⟨store, evicting⟩, hp⟩ := h.cache.running
  cases evicting with
  | none =>
    have hidle : s.cache.idle = some store := by simp [ChunkStore.State.idle, hp]
    rcases hub_or_worker_enabled h.position hfinished hfailed hidle with ⟨s', hs⟩ | ⟨s', hs⟩
    · exact ⟨.hub true, s', hs⟩
    · exact ⟨.worker, s', hs⟩
  | some n =>
    -- somebody's insert is in its eviction loop, and goes on
    have hforeign : foreign codec plain outputs extras s (.evict []) := ⟨by simp [ChunkStore.Action.outcomes], trivial⟩
    refine ⟨.other (.evict []), ?_⟩
    simp [step, hforeign, ChunkStore.step, hp]

theorem Inv.failed (h : Inv codec plain outputs extras s) (e : RelayError) (he : s.phase = .failed e) :
    e = .other "registering extra" := by
  have hat := h.at_phase he
  generalize s.channel = channel, s.sending = sending, s.events = events at hat
  cases hat
  rfl

theorem identity_nil : some ([] : Bytes) = some [] := rfl

theorem identity_append {a b x y : Bytes} (ha : some a = some x) (hb : some b = some y) :
    some (a ++ b) = some (x ++ y) := by
  rw [← some_inj.mp ha, ← some_inj.mp hb]

/-- Frames that are their own plaintext, hashed by their first 32 bytes. -/
def identityCodec : Codec Hash Bytes where
  blake3 := .ofSlice
  decompress := some
  nar b := b
  restore := some
  decompress_nil := identity_nil
  decompress_append := @identity_append
  restore_iff := by
    intro b t
    rw [some_inj]
    exact eq_comm

def firstHash : Hash := .ofSlice (replicate 32 1)

def twice : FinishedBuild :=
  ⟨[⟨"out", replicate 32 1, [⟨firstHash, 32, 0, 32⟩, ⟨firstHash, 32, 0, 32⟩]⟩], []⟩

def freshCache : ChunkStore.State :=
  (ChunkStore.step (fun _ _ => true) .empty (.start 1000 [])).getD .empty

theorem freshCache_intact (codec : Codec Hash T) (plain : Hash → Bytes) : Intact codec plain freshCache := by
  have hstart : (ChunkStore.step (fun _ _ => true) .empty (.start 1000 [])).any
      (fun c => c.process.isSome && c.admitted.keys == []) = true := by decide +kernel
  obtain ⟨c, hc, htest⟩ := (any_eq_true _ _).mp hstart
  have hfresh : freshCache = c := by rw [freshCache, hc, getD_some]
  simp only [Bool.and_eq_true, beq_iff_eq] at htest
  rw [hfresh]
  refine ⟨isSome_iff_exists.mp htest.1, ?_, fun hash frame hframe => ?_⟩
  · refine (ChunkStore.sound_step _ ChunkStore.sound_empty ⟨by simp [ChunkStore.Action.outcomes], fun _ _ _ => rfl⟩ hc).1
  · have hmem : hash ∈ c.admitted.keys := AList.mem_keys.mp (Table.mem_of_lookup hframe)
    rw [htest.2] at hmem
    cases hmem

def Phase.isFinished : Phase → Bool
  | .finished => true
  | _ => false

theorem twice_honest : ∀ p ∈ twice.outputs ++ twice.extras, p.Honest identityCodec Subtype.val := by
  intro p hp
  obtain rfl := mem_singleton.mp hp
  have hentry : (⟨firstHash, 32, 0, 32⟩ : OutChunk Hash).len < 2 ^ 32 ∧
      ∃ frame, readExact (replicate 32 1) 0 32 = some frame ∧
        decodeChunk identityCodec frame firstHash 32 = some firstHash.1 := by
    exact ⟨by decide, replicate 32 1, by decide, by decide⟩
  intro c hc
  rcases mem_cons.mp hc with rfl | hc
  · exact hentry
  · rw [mem_singleton.mp hc]
    exact hentry

end Tribuchet.Outputs.Transfer
