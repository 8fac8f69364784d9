import Tribuchet.ChunkStore.PackSpec

/-! Recovery of a pack that has no index. For any bytes it keeps the longest prefix of intact
records, and its index is the one that sealing would have written if nothing else is in the file. -/

namespace Tribuchet.ChunkStore

open ByteStrings Filesystem Hoare List

variable {intact : Bytes → Hash → Bool} {d : Directory FileName} {id : ℕ}

/-! ### Records -/

variable {rs : List (Hash × Bytes)}

theorem records_comparable {rs' : List (Hash × Bytes)} {tail tail' : Bytes} (h : Intact intact rs)
    (h' : Intact intact rs') (heq : encodeRecords rs ++ tail = encodeRecords rs' ++ tail') : rs <+: rs' ∨ rs' <+: rs := by
  induction rs generalizing rs' with
  | nil => exact .inl nil_prefix
  | cons r rs ih =>
    cases rs' with
    | nil => exact .inr nil_prefix
    | cons r' rs' =>
      obtain ⟨hr, hrs⟩ := forall_mem_cons.mp h
      obtain ⟨hr', hrs'⟩ := forall_mem_cons.mp h'
      simp only [encodeRecords_cons, append_assoc] at heq
      obtain ⟨hlen, hhash, hframe⟩ := parse_record r.1 hr.1 (encodeRecords rs ++ tail)
      obtain ⟨hlen', hhash', hframe'⟩ := parse_record r'.1 hr'.1 (encodeRecords rs' ++ tail')
      rw [heq, hlen'] at hlen
      rw [heq, hhash'] at hhash
      rw [heq, ← hlen, hframe'] at hframe
      obtain rfl : r' = r := Prod.ext hhash hframe
      rcases ih hrs hrs' (append_cancel_left heq) with hp | hp
      · exact .inl ((prefix_cons_inj _).mpr hp)
      · exact .inr ((prefix_cons_inj _).mpr hp)

theorem length_entriesOf (pos : ℕ) (rs : List (Hash × Bytes)) : (entriesOf pos rs).length = rs.length := by
  induction rs generalizing pos with
  | nil => rfl
  | cons r rs ih => rw [entriesOf, length_cons, ih, length_cons]

theorem scan_longest {data : Bytes} {tail : Bytes} {stop : ℕ}
    (hdata : data = encodeRecords rs ++ tail) (h : Intact intact rs)
    (hscan : scan intact data.length 0 data = (entriesOf 0 rs, stop)) {rs' : List (Hash × Bytes)}
    (h' : Intact intact rs') (hp : encodeRecords rs' <+: data) : rs' <+: rs := by
  obtain ⟨more, stop', hscan', -⟩ := scan_intact_prefix intact h' hp
  rw [hscan, Prod.mk.injEq] at hscan'
  have hlen := congrArg length hscan'.1
  rw [length_append, length_entriesOf, length_entriesOf] at hlen
  obtain ⟨tail', htail⟩ := hp
  rcases records_comparable h h' (hdata.symm.trans htail.symm) with hpre | hpre
  · have hle := hpre.length_le
    exact (hpre.eq_of_length (by omega)) ▸ prefix_rfl
  · exact hpre

/-! ### Without failures -/

theorem EndsIn.returns {α : Type} {x : DiskM α} {Q : α → Directory FileName → Prop} {E : Error → Directory FileName → Prop}
    (h : EndsIn (fun _ => False) x d Q E) (hE : ∀ e d', ¬E e d') :
    ∃ a d', exec x ⟨d, []⟩ = (.ok a, ⟨d', []⟩) ∧ Q a d' := by
  have hends := h [] (by simp)
  unfold Ends at hends
  split at hends
  · rename_i a k hx
    obtain ⟨hQ, ho⟩ := hends
    refine ⟨a, k.dir, ?_, hQ⟩
    rw [hx, ← eq_nil_iff_forall_not_mem.mpr fun o => ho o]
  · exact absurd hends.1 (hE _ _)

theorem not_faulty : ¬Faulty fun _ => False := fun ⟨_, h, _⟩ => h

theorem recover_returns (intact : Bytes → Hash → Bool) {data : Bytes} (hp : d.content (.pack id) = some data) :
    ∃ rs tail d', data = encodeRecords rs ++ tail ∧ Intact intact rs ∧
      (∀ rs', Intact intact rs' → encodeRecords rs' <+: data → rs' <+: rs) ∧
      exec (recover intact id) ⟨d, []⟩ = (.ok (entriesOf 0 rs), ⟨d', []⟩) ∧ OnlyPack id d d' ∧
      d'.content (.pack id) = some (encodeRecords rs) ∧
      d'.content (.index id) = some (encodeIndex (entriesOf 0 rs)) ∧ d'.content (.indexTmp id) = none := by
  obtain ⟨rs, tail, hdata, hintact, hscan, hends⟩ := endsIn_recover (fun _ => False) intact hp
  obtain ⟨es, d', hexec, ho, rfl, -, hpack, hindex, htmp⟩ := hends.returns fun e d' h => not_faulty h.1
  exact ⟨rs, tail, d', hdata, hintact, fun rs' => scan_longest hdata hintact hscan, hexec, ho, hpack, hindex, htmp⟩

theorem loadIndex_returns {idx : Bytes} (hi : d.content (.index id) = some idx) :
    exec (loadIndex id) ⟨d, []⟩ = (.ok (decodeIndex idx), ⟨d, []⟩) := by
  have hends : EndsIn (fun _ => False) (loadIndex id) d _ _ := endsIn_loadIndex id
  obtain ⟨es, d', hexec, rfl, idx', hidx, rfl⟩ := hends.returns fun e d' h => by
    rcases h with ⟨-, ⟨-, hnone⟩ | ⟨hf, -⟩⟩
    · rw [hi] at hnone
      cases hnone
    · exact not_faulty hf
  rw [hi, Option.some.injEq] at hidx
  rw [hexec, hidx]

theorem recover_records (h : Intact intact rs) (hp : d.content (.pack id) = some (encodeRecords rs)) :
    ∃ d', exec (recover intact id) ⟨d, []⟩ = (.ok (entriesOf 0 rs), ⟨d', []⟩) ∧ OnlyPack id d d' ∧
      d'.content (.pack id) = some (encodeRecords rs) ∧
      d'.content (.index id) = some (encodeIndex (entriesOf 0 rs)) ∧ d'.content (.indexTmp id) = none := by
  obtain ⟨rs', tail, d', hdata, -, hlongest, hexec, ho, hpack, hindex, htmp⟩ := recover_returns intact hp
  obtain ⟨more, hmore⟩ := hlongest rs h prefix_rfl
  have hnil : more = [] := by
    rw [← hmore, encodeRecords_append, append_assoc] at hdata
    have hlen := congrArg length hdata
    cases more with
    | nil => rfl
    | cons r more =>
      rw [length_append, length_append, encodeRecords_cons, length_append, length_record, headerLen] at hlen
      omega
  rw [hnil, append_nil] at hmore
  subst hmore
  exact ⟨d', hexec, ho, hpack, hindex, htmp⟩

/-! ### Writing and recovering -/

def writeRecords (id : ℕ) (rs : List (Hash × Bytes)) : DiskM PackWriter := do
  let w ← PackWriter.create id
  rs.foldlM (fun w r => do
    let (w, _) ← w.append r.1 r.2
    pure w) w

theorem endsIn_appends {w : PackWriter} {before : List (Hash × Bytes)} (h : Writes d w before [])
    (hrs : ∀ r ∈ rs, r.2.length < 2 ^ 32) :
    EndsIn (fun _ => False) (rs.foldlM (fun w r => do let (w, _) ← w.append r.1 r.2; pure w) w) d
      (fun w' d' => w'.id = w.id ∧ Writes d' w' (before ++ rs) []) (fun _ _ => False) := by
  induction rs generalizing w before d with
  | nil =>
    rw [append_nil]
    exact endsIn_pure ⟨rfl, h⟩
  | cons r rs ih =>
    obtain ⟨hr, hrs⟩ := forall_mem_cons.mp hrs
    rw [foldlM_cons]
    refine EndsIn.bind (R := fun w' d' => w'.id = w.id ∧ Writes d' w' (before ++ [r]) []) ?_ ?_
    · refine EndsIn.bind ((endsIn_append h r.1 r.2).mono (fun _ _ h => h) ?_) ?_
      · rintro e d' (⟨-, -, hbig⟩ | ⟨hf, -⟩)
        · omega
        · exact not_faulty hf
      · rintro _ d' ⟨rfl, -, -, -, hw⟩
        rw [drop_nil] at hw
        exact endsIn_pure ⟨rfl, hw⟩
    · rintro w' d' ⟨hid, hw⟩
      refine (ih hw hrs).mono ?_ fun _ _ h => h
      rintro w'' d'' ⟨hid', hw'⟩
      rw [append_assoc] at hw'
      exact ⟨hid'.trans hid, hw'⟩

theorem writeRecords_returns (hp : d.file (.pack id) = none) (hi : d.file (.index id) = none)
    (hrs : ∀ r ∈ rs, r.2.length < 2 ^ 32) :
    ∃ w d', exec (writeRecords id rs) ⟨d, []⟩ = (.ok w, ⟨d', []⟩) ∧ w.id = id ∧ Writes d' w rs [] := by
  have hends : EndsIn (fun _ => False) (writeRecords id rs) d (fun w d' => w.id = id ∧ Writes d' w rs [])
      fun _ _ => False := by
    refine EndsIn.bind ((endsIn_createPack hp hi).mono (fun _ _ h => h) fun _ _ h => not_faulty h.2) ?_
    rintro w d' ⟨rfl, -, hw, -⟩
    exact endsIn_appends hw hrs
  exact hends.returns fun _ _ h => h

/-- Recovery of any pack file without an index keeps the longest prefix of intact records and cuts
the file behind it. The index it writes gives the same list when it is loaded, and a second recovery
changes nothing. On a file with just the records that were appended to it, it returns and writes the
index that sealing writes. -/
theorem recover_longest_prefix (intact : Bytes → Hash → Bool) (id : ℕ) :
    (∀ (d : Directory FileName) (data : Bytes), d.content (.pack id) = some data → d.content (.index id) = none →
      data.length < 2 ^ 63 →
      ∃ rs tail d', data = encodeRecords rs ++ tail ∧ Intact intact rs ∧
        (∀ rs', Intact intact rs' → encodeRecords rs' <+: data → rs' <+: rs) ∧
        exec (recover intact id) ⟨d, []⟩ = (.ok (entriesOf 0 rs), ⟨d', []⟩) ∧
        d'.content (.pack id) = some (encodeRecords rs) ∧ OnlyPack id d d' ∧
        exec (loadIndex id) ⟨d', []⟩ = (.ok (entriesOf 0 rs), ⟨d', []⟩) ∧
        ∃ d'', exec (recover intact id) ⟨d', []⟩ = (.ok (entriesOf 0 rs), ⟨d'', []⟩) ∧
          ∀ n, d''.content n = d'.content n) ∧
    ∀ (d : Directory FileName) (rs : List (Hash × Bytes)), d.file (.pack id) = none → d.file (.index id) = none →
      Intact intact rs →
      ∃ w d₁ dr ds, exec (writeRecords id rs) ⟨d, []⟩ = (.ok w, ⟨d₁, []⟩) ∧
        d₁.content (.pack id) = some (encodeRecords rs) ∧
        exec (recover intact id) ⟨d₁, []⟩ = (.ok w.entries, ⟨dr, []⟩) ∧
        exec w.sealPack ⟨d₁, []⟩ = (.ok (), ⟨ds, []⟩) ∧
        dr.content (.index id) = ds.content (.index id) ∧ dr.content (.pack id) = ds.content (.pack id) := by
  refine ⟨fun d data hp _ hlen => ?_, fun d rs hp hi hrs => ?_⟩
  · obtain ⟨rs, tail, d', hdata, hrs, hlongest, hexec, ho, hpack, hindex, htmp⟩ := recover_returns intact hp
    have hbounds : InBounds (entriesOf 0 rs) := by
      refine inBounds_entriesOf (fun r hr => (hrs r hr).1) ?_
      rw [hdata, length_append] at hlen
      omega
    have hload := loadIndex_returns hindex
    rw [decodeIndex_encodeIndex hbounds] at hload
    obtain ⟨d'', hexec', ho', hpack', hindex', htmp'⟩ := recover_records hrs hpack
    refine ⟨rs, tail, d', hdata, hrs, hlongest, hexec, hpack, ho, hload, d'', hexec', fun n => ?_⟩
    by_cases hn : n.id = id
    · cases n with
      | pack id' =>
        cases hn
        exact hpack'.trans hpack.symm
      | index id' =>
        cases hn
        exact hindex'.trans hindex.symm
      | indexTmp id' =>
        cases hn
        exact htmp'.trans htmp.symm
    · exact ho'.content n hn
  · obtain ⟨w, d₁, hwrite, rfl, hw⟩ := writeRecords_returns hp hi fun r hr => (hrs r hr).1
    have hcontent := hw.content
    rw [append_nil] at hcontent
    obtain ⟨dr, hrecover, -, hpack, hindex, -⟩ := recover_records hrs hcontent
    have hseal : EndsIn (fun _ => False) w.sealPack d₁ _ _ := endsIn_sealPack hw
    obtain ⟨_, ds, hexec, -, -, hpack', hindex', -⟩ := hseal.returns fun _ _ h => not_faulty h.1
    rw [← hw.entries] at hrecover hindex
    exact ⟨w, d₁, dr, ds, hwrite, hcontent, hrecover, hexec, hindex.trans hindex'.symm, hpack.trans hpack'.symm⟩

end Tribuchet.ChunkStore
