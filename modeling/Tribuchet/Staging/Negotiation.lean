import Tribuchet.Staging.Wakes

/-! The first handler of a build: every offered path is an input, claimed or waited on,
and the inline manifests of the claimed ones are taken. -/

namespace Tribuchet.Staging

open Hoare Function List Table ActiveBuild

variable {B P H : Type} [DecidableEq B] [DecidableEq P] [DecidableEq H]
variable {cat : Catalog P H} {offered : List P} {active : B → Option (ActiveBuild P H)} {b : B} {c : Claims B P}

/-! ### Inputs -/

/-- A build that knows of the paths in `offered` only whether they are valid and, if not,
who imports them. -/
structure Checked (cat : Catalog P H) (active : B → Option (ActiveBuild P H)) (b : B) (roots answer : Finset P)
    (c : Claims B P) (offered missing : List P) (l : Local B P H) : Prop where
  good : Good cat offered [] l.build
  agree : l.claims.Agree (update active b (some l.build))
  extends_ : Claims.Extends b c l.claims
  inputs : ∀ p, p ∈ l.build.inputs ↔ p ∈ offered ∧ p ∈ answer
  listed : ∀ p, p ∈ missing ↔ p ∈ l.build.pending
  nodup : missing.Nodup
  waiting : ∀ p ch, l.build.waits.lookup p = some ch → ch < l.claims.next ∧ (l.claims.channels ch).state = .running
  watching : ∀ p, l.claims.watching b p = if p ∈ l.build.waits then 1 else 0
  roots : l.build.roots = roots
  parked : l.build.parked = []
  imports : l.build.imports = ∅
  chunks : l.build.chunks = .empty
  needsOutstanding : l.build.needsOutstanding = 0

variable {roots answer : Finset P} {missing : List P} {l : Local B P H} {p : P}

theorem Checked.addInput (h : Checked cat active b roots answer c offered missing l) (hp : p ∉ offered)
    (ha : p ∈ answer) :
    Checked cat active b roots answer c (offered ++ [p]) missing { l with build := l.build.addInput p } := by
  have hgood : Good cat (offered ++ [p]) l.build.parked (l.build.addInput p).unpark :=
    h.good.addInput hp (by simp)
  have hsame : (l.build.addInput p).unpark = l.build.addInput p := by
    unfold unpark
    rw [← h.parked]
    rfl
  rw [hsame, h.parked] at hgood
  refine ⟨hgood, h.agree.congr (fun _ => Iff.rfl) rfl, h.extends_, ?_, h.listed, h.nodup, h.waiting, h.watching,
    h.roots, h.parked, h.imports, h.chunks, h.needsOutstanding⟩
  intro q
  simp only [addInput_inputs, Finset.mem_insert, h.inputs q, mem_append, mem_singleton]
  by_cases hq : q = p
  · simp [hq, ha]
  · simp [hq]

theorem Checked.claim (h : Checked cat active b roots answer c offered missing l) (hp : p ∉ offered)
    (ha : p ∉ answer) {mine : Bool} {l' : Local B P H} (hc : Claimed active b p l.build l.claims mine l') :
    Checked cat active b roots answer c (offered ++ [p]) (if mine then missing ++ [p] else missing) l' := by
  have hnot : p ∉ l.build.pending ∧ p ∉ l.build.waits :=
    ⟨fun hm => hp (h.good.mem_offered (.inr (.inl hm))), fun hm => hp (h.good.mem_offered (.inr (.inr (.inr hm))))⟩
  have hin : ∀ q, q ∈ l.build.inputs ↔ q ∈ offered ++ [p] ∧ q ∈ answer := by
    intro q
    rw [h.inputs q, mem_append, mem_singleton]
    by_cases hq : q = p
    · simp [hq, ha]
    · simp [hq]
  have hold : ∀ q ch, l.build.waits.lookup q = some ch →
      ch < l'.claims.next ∧ (l'.claims.channels ch).state = .running := by
    intro q ch hq
    obtain ⟨hlt, hr⟩ := h.waiting q ch hq
    rw [hc.extends_.channels ch hlt]
    exact ⟨lt_of_lt_of_le hlt hc.extends_.next, hr⟩
  obtain ⟨x', c'⟩ := l'
  rcases hc.build with ⟨hx, rfl⟩ | ⟨ch, hx, rfl, hrun⟩
  · obtain rfl : x' = _ := hx
    refine ⟨h.good.addClaim hp (by simp), hc.agree, h.extends_.trans hc.extends_, hin, ?_, ?_, hold, ?_, h.roots,
      h.parked, h.imports, h.chunks, h.needsOutstanding⟩
    · intro q
      simp [h.listed q, or_comm]
    · refine nodup_append.mpr ⟨h.nodup, by simp, ?_⟩
      intro q hq q' hq' heq
      rw [heq, mem_singleton.mp hq', h.listed] at hq
      exact hnot.1 hq
    · intro q
      rw [hc.watching, h.watching]
      simp
  · obtain rfl : x' = _ := hx
    refine ⟨h.good.addWait hp (by simp) ch, hc.agree, h.extends_.trans hc.extends_, hin, h.listed, h.nodup, ?_, ?_,
      h.roots, h.parked, h.imports, h.chunks, h.needsOutstanding⟩
    · intro q ch' hq
      rw [addWait_waits, lookup_insert_eq] at hq
      split_ifs at hq with heq
      · cases hq
        have hw : waitsOn (update active b (some (l.build.addWait p ch))) b p = some ch := by
          rw [waitsOn_update, if_pos rfl, addWait_waits, lookup_insert_eq, if_pos rfl]
        exact ⟨(hc.agree.waiting b p ch hw).1, hrun⟩
      · exact hold q ch' hq
    · intro q
      rw [hc.watching, h.watching]
      by_cases hq : q = p
      · simp [hq, hnot.2]
      · simp [hq]

theorem checkInputs_spec (cat : Catalog P H) (refs : P → List P) (pin : Pinning P) (hn : offered.Nodup) (hb : active b = none)
    (hc : c.Agree active) (E : Error P → Local B P H → Prop) : Ends (checkInputs b refs pin answer offered) ⟨.new, c⟩
      (Checked cat active b (pin.roots refs offered).toFinset answer c offered) E := by
  unfold checkInputs
  apply ends_modify_bind
  refine (ends_foldlM (I := fun rest missing l => ∃ before, offered = before ++ rest ∧
    Checked cat active b (pin.roots refs offered).toFinset answer c before missing l) ?_ ?_).mono ?_ fun _ _ h => h
  · rintro p rest missing l ⟨before, ho, h⟩
    have hp : p ∉ before := by
      intro hm
      rw [ho] at hn
      exact disjoint_of_nodup_append hn hm (by simp)
    have ho' : offered = before ++ [p] ++ rest := by
      rw [ho]
      simp
    unfold checkOne
    split_ifs with ha
    · refine Ends.bind (R := fun _ l' => l' = { l with build := l.build.addInput p }) (ends_modify rfl) ?_
      rintro - _ rfl
      exact ends_pure ⟨_, ho', h.addInput hp ha⟩
    · have hw : p ∉ l.build.waits := fun hm => hp (h.good.mem_offered (.inr (.inr (.inr hm))))
      refine (claim_spec h.agree hw E).bind ?_
      intro mine l' hcl
      have hnext := h.claim hp ha hcl
      cases mine with
      | true | false => exact ends_pure ⟨_, ho', hnext⟩
  · refine ⟨[], rfl, ?_, ?_, .refl b c, by simp [new], by simp [new], nodup_nil, ?_, ?_,
      rfl, rfl, rfl, rfl, rfl⟩
    · refine ⟨?_, ?_, ChunkStaging.counted_empty, ?_, ?_, ?_, ?_, ?_, ?_, ?_⟩ <;>
        simp [new, places, Complete, ChunkStaging.empty]
    · have hfun : ∀ y : ActiveBuild P H, y.claimed = [] → y.waits = ∅ → c.Agree (update active b (some y)) := by
        intro y hy hy'
        have ho : owns (update active b (some y)) = owns active := by
          funext b' q
          rw [eq_iff_iff, owns_update]
          by_cases h : b' = b
          · simp [h, owns, hb, hy]
          · simp [h]
        have hw : waitsOn (update active b (some y)) = waitsOn active := by
          funext b' q
          rw [waitsOn_update]
          by_cases h : b' = b
          · simp [h, waitsOn, hb, hy']
          · simp [h]
        unfold Claims.Agree
        rw [ho, hw]
        exact hc
      exact hfun _ rfl rfl
    · intro p ch hl
      cases hl
    · intro p
      -- a watcher of `b` would make it wait on something
      have hzero : c.watching b p = 0 := by
        refine countP_eq_zero.mpr ?_
        intro w hw hwb
        have := hc.watchers w hw
        simp only [decide_eq_true_eq] at hwb
        rw [hwb.1] at this
        simp [waitsOn, hb] at this
      simpa [new] using hzero
  · rintro missing l ⟨before, ho, h⟩
    rw [append_nil] at ho
    rw [ho]
    exact ho ▸ h

/-! ### Inline manifests -/

theorem Taken.trans {new new' : List P} {x y z : ActiveBuild P H} {hashes hashes' : List H}
    (h : Taken cat offered new x y hashes) (h' : Taken cat offered new' y z hashes') :
    Taken cat offered (new ++ new') x z (hashes ++ hashes') where
  good := h'.good
  handled := h.handled.trans h'.handled
  outstanding := h'.outstanding.trans h.outstanding
  recipes p := by rw [h'.recipes p, h.recipes p, mem_append, or_assoc]
  requested hash hh := by
    rcases mem_append.mp hh with hh | hh
    · obtain ⟨p, hp, hm⟩ := h.requested hash hh
      exact ⟨p, (h'.recipes p).mpr (.inl hp), hm⟩
    · exact h'.requested hash hh
  covered hrem := by
    rcases h'.covered hrem with hne | hy
    · exact .inl (by simp [hne])
    · exact (h.covered hy).imp_left fun hne => by simp [hne]

variable (hclosed : ∀ p ∈ offered, ∀ r ∈ cat.refs p, r ∈ offered) (store : Finset H) (inline : List P)

include hclosed in
theorem takeInlines_spec (hn : offered.Nodup) {x : ActiveBuild P H} (h : Good cat offered [] x)
    (himp : x.imports = ∅) (hch : x.chunks = .empty) :
    Ends ((offered.map (cat.offer inline)).foldlM (takeInline store) []) x
      (fun hashes x' => Taken cat offered (offered.filter fun p => p ∈ inline ∧ p ∈ x.pending) x x' hashes)
      fun e x' => Excused e ∧ x'.claimed = x.claimed := by
  rw [foldlM_map]
  refine (ends_foldlM (I := fun rest hashes x' => ∃ before, offered = before ++ rest ∧
    Taken cat offered (before.filter fun p => p ∈ inline ∧ p ∈ x.pending) x x' hashes) ?_ ⟨[], rfl, h, .refl x, rfl, by simp, by simp, .inr⟩).mono ?_
    fun _ _ h => h
  · rintro p rest hashes x' ⟨before, ho, ht⟩
    have hp : p ∉ before := by
      intro hm
      rw [ho] at hn
      exact disjoint_of_nodup_append hn hm (by simp)
    have ho' : offered = before ++ [p] ++ rest := by
      rw [ho]
      simp
    have hmem : p ∈ offered := by
      rw [ho]
      simp
    have hrec : p ∉ x'.chunks.recipes := by
      rw [ht.recipes p, hch]
      simp [ChunkStaging.empty, hp]
    unfold takeInline Catalog.offer
    by_cases hi : p ∈ inline
    · simp only [hi, if_true, Catalog.manifest, Option.isSome_some]
      by_cases hpend : p ∈ x.pending
      · have hpend' : p ∈ x'.pending := by
          by_contra hgone
          have hl := ht.handled.imports p
          rw [if_pos ⟨hpend, hgone⟩] at hl
          exact hrec (ht.good.imports p (mem_of_lookup hl)).1
        refine ((takeManifest_spec hclosed store ht.good hpend' hrec).mono (fun _ _ h => h) ?_).bind ?_
        · rintro e y ⟨he, hcl⟩
          exact ⟨he, hcl.trans ht.handled.claimed⟩
        · intro hashes' y hy
          refine ends_pure ⟨_, ho', ?_⟩
          rw [filter_append, filter_singleton]
          simp only [hi, hpend, and_self, decide_true]
          exact ht.trans hy
      · have hpend' : p ∉ x'.pending := fun hm => hpend (ht.handled.pending hm)
        have htol : x'.tolerated p := by
          unfold tolerated
          rw [ht.handled.inputs, ht.handled.waits]
          rcases h.placed_cases hmem with hm | hm | hm | hm
          · exact .inl hm
          · exact absurd hm hpend
          · rw [himp] at hm
            cases hm
          · exact .inr hm
        refine (takeManifest_tolerated store hpend' htol _).bind ?_
        rintro _ _ ⟨rfl, rfl⟩
        refine ends_pure ⟨_, ho', ?_⟩
        rw [filter_append, filter_singleton]
        simpa [hpend] using ht
    · simp only [hi, if_false, Option.isSome_none, Bool.false_eq_true]
      refine ends_pure ⟨_, ho', ?_⟩
      rw [filter_append, filter_singleton]
      simpa [hi] using ht
  · rintro hashes x' ⟨before, ho, ht⟩
    rw [append_nil] at ho
    rw [ho] at ht ⊢
    exact ht

omit [DecidableEq B] [DecidableEq H] in
theorem offer_storePath (cat : Catalog P H) (inline offered : List P) :
    (offered.map (cat.offer inline)).map Manifest.storePath = offered := by
  rw [map_map]
  refine (map_congr_left ?_).trans (map_id offered)
  intro p _
  simp only [comp_apply, Catalog.offer, Catalog.manifest]
  split_ifs <;> rfl

/-- A build after its negotiation, which answered with the first `Need`. -/
structure Negotiated (cat : Catalog P H) (active : B → Option (ActiveBuild P H)) (b : B) (roots answer : Finset P)
    (c : Claims B P) (offered inline : List P) (first : Option (Need P H)) (l : Local B P H) : Prop where
  checked : ∃ x missing, Checked cat active b roots answer c offered missing ⟨x, l.claims⟩ ∧
    askedPaths first = missing ∧
    Responds cat offered (offered.filter fun p => p ∈ inline ∧ p ∈ x.pending) x l.build
      (some ⟨[], askedHashes first⟩)
  isSome : first.isSome

include hclosed in
theorem negotiate_spec (refs : P → List P) (pin : Pinning P) (hn : offered.Nodup) (hb : active b = none)
    (hc : c.Agree active) : Ends (negotiate b refs pin answer store (offered.map (cat.offer inline))) ⟨.new, c⟩
      (Negotiated cat active b (pin.roots refs offered).toFinset answer c offered inline)
      fun e l => Excused e ∧ Claims.Extends b c l.claims ∧
        ∃ x, l.claims.Agree (update active b (some x)) ∧ l.build.claimed = x.claimed := by
  unfold negotiate
  rw [offer_storePath]
  refine (checkInputs_spec cat refs pin hn hb hc _).bind ?_
  rintro missing ⟨x, c₁⟩ hck
  refine ends_onBuild (R := fun first x' => ∃ hashes, first = some ⟨missing, hashes⟩ ∧
      Responds cat offered (offered.filter fun p => p ∈ inline ∧ p ∈ x.pending) x x' (some ⟨[], hashes⟩))
    (F := fun e x' => Excused e ∧ x'.claimed = x.claimed) ?_ ?_ ?_
  · refine (takeInlines_spec hclosed store inline hn hck.good hck.imports hck.chunks).bind ?_
    intro hashes x' ht
    apply ends_modify_bind
    refine ends_pure ⟨hashes, rfl, ht.responds ?_ rfl rfl rfl⟩
    rintro ⟨p, hp⟩
    rw [hck.chunks] at hp
    cases hp
  · rintro _ x' ⟨hashes, rfl, hr⟩
    exact ⟨⟨x, missing, hck, rfl, hr⟩, rfl⟩
  · rintro e x' ⟨he, hcl⟩
    exact ⟨he, hck.extends_, x, hck.agree, hcl⟩

end Tribuchet.Staging
