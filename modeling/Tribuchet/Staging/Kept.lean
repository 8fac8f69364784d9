import Tribuchet.Staging.Handlers

/-! What the handlers of one build keep, whatever the hub sends. The claims of a build and its import
pool depend on a few of its fields; a predicate on those that a dispatch keeps is kept by
every handler for hub messages, however the handler ends. -/

namespace Tribuchet.Staging

open Hoare

variable {P H : Type} [DecidableEq P]

structure Kept (I : ActiveBuild P H → Prop) : Prop where
  dispatch : ∀ {x p}, I x → p ∈ x.pending → I (x.dispatch p)
  congr : ∀ {x x'}, I x → x'.pending = x.pending → x'.imports = x.imports → x'.claimed = x.claimed →
    x'.waits = x.waits → x'.resendRounds = x.resendRounds → I x'

omit [DecidableEq P] in
theorem asked_le_one (need : Option (Need P H)) : asked need ≤ 1 := by
  cases need with
  | none => exact Nat.zero_le 1
  | some need =>
    simp only [asked]
    split_ifs
    · exact Nat.zero_le 1
    · exact Nat.le_refl 1

theorem unstagedRef_stays {x : ActiveBuild P H} (p : P) :
    Ends (unstagedRef p) x (fun _ y => x = y) fun e y => e ≠ .outOfFuel ∧ x = y := by
  unfold unstagedRef
  apply ends_get_bind
  split
  · exact ends_throw ⟨nofun, rfl⟩
  · split
    · exact ends_pure rfl
    · split_ifs
      · exact ends_pure rfl
      · exact ends_throw ⟨nofun, rfl⟩

namespace Kept

variable {I J : ActiveBuild P H → Prop} {x : ActiveBuild P H} {p : P}

theorem and (hI : Kept I) (hJ : Kept J) : Kept fun x => I x ∧ J x where
  dispatch h hp := ⟨hI.dispatch h.1 hp, hJ.dispatch h.2 hp⟩
  congr h hp hi hc hw hr := ⟨hI.congr h.1 hp hi hc hw hr, hJ.congr h.2 hp hi hc hw hr⟩

theorem resendRounds (n : ℕ) : Kept fun x : ActiveBuild P H => x.resendRounds = n where
  dispatch h _ := h
  congr h _ _ _ _ hr := hr.trans h

theorem trivial : Kept fun _ : ActiveBuild P H => True := ⟨fun _ _ => True.intro, fun _ _ _ _ _ _ => True.intro⟩

/-! ### Starting imports -/

variable (hI : Kept I)

include hI

variable (h : I x)

include h

theorem dispatchImport (p : P) :
    Ends (dispatchImport p) x (fun _ y => y = x.dispatch p ∧ I y) fun e y => e ≠ .outOfFuel ∧ I y := by
  unfold Staging.dispatchImport
  apply ends_get_bind
  split_ifs with hr hp hi
  · exact ends_set ⟨rfl, hI.dispatch h hp⟩
  all_goals exact ends_throw ⟨nofun, h⟩

theorem startAll_ends (paths : List P) :
    Ends (startAll paths) x (fun _ y => I y) fun e y => e ≠ .outOfFuel ∧ I y := by
  refine startAll_rule (I := fun _ y => I y) ?_ h
  intro path queue y hy
  refine (unstagedRef_stays path).mono ?_ ?_
  · rintro r _ rfl
    refine ⟨rfl, ?_⟩
    cases r with
    | some r => exact hI.congr hy rfl rfl rfl rfl rfl
    | none =>
      refine (hI.dispatchImport hy path).imp ?_
      rintro - _ ⟨rfl, hz⟩
      exact ⟨rfl, hI.congr hz rfl rfl rfl rfl rfl⟩
  · rintro e _ ⟨he, rfl⟩
    exact ⟨he, hy⟩

theorem retryParked_ends : Ends retryParked x (fun _ y => I y) fun e y => e ≠ .outOfFuel ∧ I y := by
  unfold Staging.retryParked
  apply ends_get_bind
  apply ends_modify_bind
  have hun : I x.unpark := hI.congr h rfl rfl rfl rfl rfl
  exact hI.startAll_ends hun _

theorem startAll (paths : List P) : Stays I (startAll paths) x :=
  (hI.startAll_ends h paths).mono (fun _ _ hy => hy) fun _ _ hy => hy.2

theorem retryParked : Stays I retryParked x :=
  (hI.retryParked_ends h).mono (fun _ _ hy => hy) fun _ _ hy => hy.2

/-! ### Hub messages -/

theorem onChunks {α : Type} (m : ChunkM P H α) : Stays I (onChunks m) x :=
  ends_onChunks ends_trivial (fun _ _ _ => hI.congr h rfl rfl rfl rfl rfl) fun _ _ _ => hI.congr h rfl rfl rfl rfl rfl

theorem need (paths : List P) (hashes : List H) {E : Error P → ActiveBuild P H → Prop} :
    Ends (need paths hashes) x (fun need y => I y ∧ asked need = if hashes = [] then 0 else 1) E := by
  unfold Staging.need
  split_ifs with hnone hhashes hhashes
  · exact ends_pure ⟨h, rfl⟩
  · exact absurd hnone.2 hhashes
  · apply ends_modify_bind
    exact ends_pure ⟨hI.congr h rfl rfl rfl rfl rfl, if_pos hhashes⟩
  · apply ends_modify_bind
    exact ends_pure ⟨hI.congr h rfl rfl rfl rfl rfl, if_neg hhashes⟩

theorem feedTmpDir (eof : Bool) {E : Error P → ActiveBuild P H → Prop} :
    Ends (feedTmpDir eof) x (fun need y => I y ∧ asked need = 0) E := by
  unfold Staging.feedTmpDir
  apply ends_modify_bind
  exact ends_pure ⟨hI.congr h rfl rfl rfl rfl rfl, rfl⟩

omit h

omit hI

variable [DecidableEq H] (store : Finset H)

theorem takeManifest (hI : Kept I) (h : I x) (m : Manifest P H) :
    Ends (takeManifest store m) x (fun hashes y => I y ∧ (m.storePath ∉ x.pending → hashes = [])) fun _ y => I y := by
  unfold Staging.takeManifest
  apply ends_get_bind
  split_ifs with hp
  rotate_left
  · exact ends_pure ⟨h, fun _ => rfl⟩
  · exact ends_throw h
  · split
    · exact ends_throw h
    · rename_i info hinfo
      split_ifs
      · exact ends_throw h
      · apply ends_set_bind
        have hset : I { x with infos := x.infos.insert m.storePath info } := hI.congr h rfl rfl rfl rfl rfl
        refine Ends.bind (hI.onChunks hset _) ?_
        rintro ⟨hashes, ready⟩ y hy
        cases ready with
        | false => exact ends_pure ⟨hy, fun hn => absurd hp hn⟩
        | true =>
          refine Ends.bind (R := fun _ z => I z) ?_ fun _ z hz => ends_pure ⟨hz, fun hn => absurd hp hn⟩
          rw [← startAll_singleton]
          exact hI.startAll hy _

theorem feedManifest (hI : Kept I) (h : I x) (m : Manifest P H) :
    Ends (feedManifest store m) x (fun need y => I y ∧ y.resendRounds = x.resendRounds ∧
      asked need ≤ if m.storePath ∈ x.pending then 1 else 0) fun _ y => I y := by
  have hboth := hI.and (resendRounds x.resendRounds)
  unfold Staging.feedManifest
  refine Ends.bind ((hboth.takeManifest store ⟨h, rfl⟩ m).mono (fun _ _ hy => hy) fun _ _ hy => hy.1) ?_
  rintro hashes y ⟨hy, hnone⟩
  refine (hboth.need hy [] hashes).imp ?_
  rintro need z ⟨⟨hz, hr⟩, ha⟩
  refine ⟨hz, hr, ?_⟩
  split_ifs with hp
  · exact asked_le_one need
  · rw [ha, if_pos (hnone hp)]

theorem feedChunk (hI : Kept I) (hround : ∀ y, I y → y.resendRounds < maxResendRounds → I y.nextRound) (h : I x)
    (frame : ChunkFrame H) :
    Ends (feedChunk store frame) x (fun need y => I y ∧ x.resendRounds + asked need ≤ y.resendRounds) fun _ y => I y := by
  have hboth := hI.and (resendRounds x.resendRounds)
  cases frame with
  | data hash =>
    unfold Staging.feedChunk
    have hingest := hboth.onChunks ⟨h, rfl⟩ (ChunkStaging.ingest hash)
    refine Ends.bind (hingest.mono (fun _ _ hy => hy) fun _ _ hy => hy.1) fun ready y hy => ?_
    have hstart := hboth.startAll hy ready
    exact Ends.bind (hstart.mono (fun _ _ hz => hz) fun _ _ hz => hz.1) fun _ z hz => ends_pure ⟨hz.1, hz.2.ge⟩
  | eof =>
    unfold Staging.feedChunk
    apply ends_get_bind
    split
    · exact ends_throw h
    · apply ends_set_bind
      rename_i n hn
      have hset : I { x with needsOutstanding := n } := hI.congr h rfl rfl rfl rfl rfl
      split_ifs
      · unfold requestStuck
        have hawait := hboth.onChunks ⟨hset, rfl⟩ (ChunkStaging.reawaitStuck store)
        refine Ends.bind (hawait.mono (fun _ _ hy => hy) fun _ _ hy => hy.1) ?_
        rintro ⟨hashes, ready⟩ y ⟨hy, hr⟩
        refine Ends.bind
          (R := fun _ z => I z ∧ z.resendRounds = x.resendRounds + if hashes = [] then 0 else 1) ?_ fun _ z hz => ?_
        · unfold countRound
          split_ifs with hnone
          · exact ends_pure ⟨hy, hr⟩
          · apply ends_get_bind
            split_ifs with hmax
            · exact ends_throw hy
            · exact ends_modify ⟨hround y hy (lt_of_not_ge hmax), congrArg (· + 1) hr⟩
        · have hcount := hI.and (resendRounds (x.resendRounds + if hashes = [] then 0 else 1))
          refine Ends.bind ((hcount.startAll hz ready).mono (fun _ _ hw => hw) fun _ _ hw => hw.1) fun _ w hw => ?_
          refine (hcount.need hw [] hashes).imp ?_
          rintro need v ⟨⟨hv, hrounds⟩, ha⟩
          exact ⟨hv, by rw [ha, hrounds]⟩
      · exact ends_pure ⟨hset, le_rfl⟩

theorem restage (hI : Kept I) (h : I x) (hp : I (x.addPending p)) :
    Ends (restage store [p]) x (fun _ y => I y ∧ y.resendRounds = x.resendRounds) fun _ y => I y := by
  have hboth := hI.and (resendRounds x.resendRounds)
  unfold Staging.restage
  refine Ends.bind (R := fun _ y => I y ∧ y.resendRounds = x.resendRounds) ?_ ?_
  · rw [List.foldlM_cons]
    refine Ends.bind (R := fun _ y => I y ∧ y.resendRounds = x.resendRounds) ?_ fun _ y hy => ends_pure hy
    unfold restageOne
    apply ends_get_bind
    split
    · exact ends_throw h
    · apply ends_set_bind
      exact ends_pure ⟨hI.congr hp rfl rfl rfl rfl rfl, rfl⟩
  · rintro ⟨hashes, ready⟩ y hy
    refine Ends.bind ((hboth.startAll hy ready).mono (fun _ _ hz => hz) fun _ _ hz => hz.1) fun _ z hz => ?_
    exact (hboth.need hz [] hashes).imp fun _ _ hw => hw.1

end Kept

theorem startChunkImport_ends (x : ActiveBuild P H) (p : P) :
    Ends (startChunkImport p) x (fun _ _ => True) fun e _ => e ≠ .outOfFuel := by
  rw [← startAll_singleton]
  exact (Kept.trivial.startAll_ends True.intro _).mono (fun _ _ h => h) fun _ _ h => h.1

theorem retryParked_ends (x : ActiveBuild P H) : Ends retryParked x (fun _ _ => True) fun e _ => e ≠ .outOfFuel :=
  (Kept.trivial.retryParked_ends True.intro).mono (fun _ _ h => h) fun _ _ h => h.1

end Tribuchet.Staging
