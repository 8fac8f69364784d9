import Mathlib.Data.List.Forall2
import Tribuchet.Base.Bytes

/-! A client's build tmp dir on its way to the worker (`tmpdir.rs`): the regular files of a directory
as a zstd stream of records with a length in front, and the loop that reads them back. The directory
does not change while it is packed, writing unpacked files does not fail, and zstd, prost and the test
for UTF-8 are parameters. A reader has its bytes and a way to end: at a clean end, or with an error. -/

namespace Tribuchet.TmpDir

open ByteStrings List Function

structure TmpDirFile where
  name : Bytes
  data : Bytes
deriving DecidableEq

inductive Kind
  | unexpectedEof
  | other
deriving DecidableEq

inductive Error
  | io (kind : Kind)
  | fileTooLarge
  | truncated
  | decode
  | nonUtf8Name
  | invalidName (name : Bytes)
  | streamTooLarge
  /-- not of the source: the fuel of the modelled loop ran out -/
  | outOfFuel
deriving DecidableEq

/-- `MAX_UNPACKED`. -/
def maxUnpacked : ℕ := 1024 * 1024 * 1024

/-! ### Records -/

section

variable (encode : TmpDirFile → Bytes) (decode : Bytes → Option TmpDirFile)

def record (body : Bytes) : Bytes := toLe 4 body.length ++ body

def writeFile (f : TmpDirFile) : Except Error Bytes :=
  if 2 ^ 32 ≤ (encode f).length then .error .fileTooLarge else .ok (record (encode f))

/-! ### Reading -/

inductive Ending
  | clean
  | fails (kind : Kind)
deriving DecidableEq

/-- What `read_exact` reports when the bytes are used up. -/
def Ending.kind : Ending → Kind
  | .clean => .unexpectedEof
  | .fails k => k

/-- A reader behind `take`, with the bytes that it still lets pass. -/
structure Reader where
  data : Bytes
  limit : ℕ
  ending : Ending

namespace Reader

def skip (r : Reader) (n : ℕ) : Reader := { r with data := r.data.drop n, limit := r.limit - n }

def readExact (r : Reader) (n : ℕ) : Except Kind Bytes × Reader :=
  if n ≤ r.data.length ∧ n ≤ r.limit then (.ok (r.data.take n), r.skip n)
  else (.error (if r.limit ≤ r.data.length then .unexpectedEof else r.ending.kind), r.skip (min r.data.length r.limit))

/-- `take(n).read_to_end`. -/
def readUpTo (r : Reader) (n : ℕ) : Except Kind Bytes × Reader :=
  let got := min n (min r.data.length r.limit)
  match r.ending with
  | .fails k => if got < n ∧ r.data.length < r.limit then (.error k, r.skip got) else (.ok (r.data.take got), r.skip got)
  | .clean => (.ok (r.data.take got), r.skip got)

end Reader

def readFile (r : Reader) : Except Error (Option TmpDirFile) × Reader :=
  match r.readExact 4 with
  | (.error .unexpectedEof, r) => (.ok none, r)
  | (.error k, r) => (.error (.io k), r)
  | (.ok len, r) =>
    match r.readUpTo (fromLe len) with
    | (.error k, r) => (.error (.io k), r)
    | (.ok body, r) =>
      if body.length ≠ fromLe len then (.error .truncated, r)
      else ((decode body).elim (.error .decode) fun f => .ok (some f), r)

def validName (name : Bytes) : Bool := name ≠ [] && name ≠ [46] && name ≠ [46, 46] && 47 ∉ name

/-- The loop of `unpack_tmp_dir`. -/
def unpackLoop : ℕ → Reader → Except Error (List TmpDirFile × Reader)
  | 0, _ => .error .outOfFuel
  | n + 1, r =>
    match readFile decode r with
    | (.error e, _) => .error e
    | (.ok none, r) => .ok ([], r)
    | (.ok (some f), r) =>
      if validName f.name then (unpackLoop n r).map fun x => (f :: x.1, x.2) else .error (.invalidName f.name)

def unpackTmpDir (data : Bytes) (ending : Ending) : Except Error (List TmpDirFile) :=
  match unpackLoop decode (data.length + 1) ⟨data, maxUnpacked, ending⟩ with
  | .error e => .error e
  | .ok (files, r) => if r.limit = 0 then .error .streamTooLarge else .ok files

end

/-! ### What is read -/

variable {encode : TmpDirFile → Bytes} {decode : Bytes → Option TmpDirFile}

theorem length_record (body : Bytes) : (record body).length = 4 + body.length := by
  rw [record, length_append, length_toLe]

def Holds (decode : Bytes → Option TmpDirFile) (body : Bytes) (f : TmpDirFile) : Prop :=
  body.length < 2 ^ 32 ∧ decode body = some f ∧ validName f.name = true

theorem readFile_record {body rest : Bytes} {limit : ℕ} {ending : Ending} (hbody : body.length < 2 ^ 32)
    (hlimit : (record body).length ≤ limit) : readFile decode ⟨record body ++ rest, limit, ending⟩ =
      ((decode body).elim (.error .decode) fun f => .ok (some f),
        ⟨rest, limit - (record body).length, ending⟩) := by
  have hlen := length_record body
  have hfour : (toLe 4 body.length).length = 4 := length_toLe _ _
  have htake : (record body ++ rest).take 4 = toLe 4 body.length := by
    rw [record, append_assoc, take_left' hfour]
  have hdrop : (record body ++ rest).drop 4 = body ++ rest := by
    rw [record, append_assoc, drop_left' hfour]
  have hread : Reader.readExact ⟨record body ++ rest, limit, ending⟩ 4 =
      (.ok (toLe 4 body.length), ⟨body ++ rest, limit - 4, ending⟩) := by
    rw [Reader.readExact, if_pos ⟨by rw [length_append]; omega, show 4 ≤ limit by omega⟩, htake]
    rw [Reader.skip, hdrop]
  have hnum : fromLe (toLe 4 body.length) = body.length := fromLe_toLe_of_lt (by omega)
  have hgot : min body.length (min (body ++ rest).length (limit - 4)) = body.length := by
    rw [length_append]
    omega
  have hup : Reader.readUpTo ⟨body ++ rest, limit - 4, ending⟩ body.length =
      (.ok body, ⟨rest, limit - 4 - body.length, ending⟩) := by
    unfold Reader.readUpTo
    dsimp only
    rw [hgot]
    cases ending <;> simp [Reader.skip]
  unfold readFile
  simp only [hread, hnum, hup, ne_eq, not_true_eq_false, if_false, hlen]
  congr 2
  omega

theorem readFile_end {r : Reader} (hdata : r.data.length < 4) (hlimit : r.data.length < r.limit)
    (hkind : r.ending.kind = .unexpectedEof) :
    readFile decode r = (.ok none, ⟨[], r.limit - r.data.length, r.ending⟩) := by
  unfold readFile Reader.readExact
  rw [if_neg (by omega), if_neg (by omega), hkind, Nat.min_eq_left (by omega)]
  simp [Reader.skip]

variable {files : List TmpDirFile}

theorem unpackLoop_records {bodies : List Bytes} (h : Forall₂ (Holds decode) bodies files)
    {tail : Bytes} (htail : tail.length < 4) {limit : ℕ} (hlimit : (bodies.flatMap record ++ tail).length < limit)
    {ending : Ending} (hkind : ending.kind = .unexpectedEof) {n : ℕ} (hn : bodies.length < n) :
    unpackLoop decode n ⟨bodies.flatMap record ++ tail, limit, ending⟩ =
      .ok (files, ⟨[], limit - (bodies.flatMap record ++ tail).length, ending⟩) := by
  induction h generalizing n limit with
  | nil =>
    obtain ⟨n, rfl⟩ : ∃ m, n = m + 1 := ⟨n - 1, by omega⟩
    rw [unpackLoop, flatMap_nil, nil_append, readFile_end htail hlimit hkind]
  | @cons body f bodies files hf _ ih =>
    obtain ⟨n, rfl⟩ : ∃ m, n = m + 1 := ⟨n - 1, by omega⟩
    obtain ⟨hbody, hdecode, hname⟩ := hf
    rw [flatMap_cons, append_assoc, length_append] at hlimit
    rw [unpackLoop, flatMap_cons, append_assoc, readFile_record hbody (by omega), hdecode]
    simp only [Option.elim_some, hname, if_true]
    rw [ih (by omega) (by simpa using hn)]
    simp only [Except.map, length_append]
    congr 3
    omega

theorem exists_of_map_ok {α β ε : Type} {x : Except ε α} {f : α → β} {b : β} (h : x.map f = .ok b) :
    ∃ a, x = .ok a ∧ f a = b := by
  cases x with
  | error e => cases h
  | ok a => exact ⟨a, rfl, Except.ok.inj h⟩

variable {r r' : Reader}

theorem readFile_none (h : readFile decode r = (.ok none, r')) (hlimit : r'.limit ≠ 0) :
    r.data.length < 4 ∧ r.data.length < r.limit ∧ r.ending.kind = .unexpectedEof := by
  unfold readFile Reader.readExact at h
  by_cases hc : 4 ≤ r.data.length ∧ 4 ≤ r.limit
  · rw [if_pos hc] at h
    dsimp only at h
    split at h
    · cases h
    · split_ifs at h
      · cases h
      · cases hd : decode _ with
        | none | some f =>
          rw [hd] at h
          cases h
  · rw [if_neg hc] at h
    by_cases hl : r.limit ≤ r.data.length
    · -- the limit is used up
      rw [if_pos hl] at h
      cases h
      exact absurd (show r.limit - min r.data.length r.limit = 0 by omega) hlimit
    · rw [if_neg hl] at h
      refine ⟨by omega, by omega, ?_⟩
      cases hk : r.ending.kind with
      | unexpectedEof => rfl
      | other =>
        rw [hk] at h
        cases h

theorem readUpTo_full {n : ℕ} {body : Bytes} (h : r.readUpTo n = (.ok body, r')) (hlen : body.length = n) :
    n ≤ r.limit ∧ r.data = body ++ r'.data ∧ r' = ⟨r'.data, r.limit - n, r.ending⟩ := by
  have hok : r.readUpTo n = (.ok (r.data.take (min n (min r.data.length r.limit))),
      r.skip (min n (min r.data.length r.limit))) := by
    unfold Reader.readUpTo at h ⊢
    split at h
    · dsimp only at h ⊢
      split_ifs at h ⊢
      · cases h
      · rfl
    · rfl
  rw [hok] at h
  cases h
  rw [length_take] at hlen
  have hgot : min n (min r.data.length r.limit) = n := by omega
  rw [hgot]
  exact ⟨by omega, (take_append_drop n r.data).symm, rfl⟩

theorem readFile_some {f : TmpDirFile} (h : readFile decode r = (.ok (some f), r')) :
    ∃ body, r.data = record body ++ r'.data ∧ body.length < 2 ^ 32 ∧ decode body = some f ∧
      (record body).length ≤ r.limit ∧ r' = ⟨r'.data, r.limit - (record body).length, r.ending⟩ := by
  unfold readFile Reader.readExact at h
  by_cases hc : 4 ≤ r.data.length ∧ 4 ≤ r.limit
  · rw [if_pos hc] at h
    dsimp only at h
    have hfour : (r.data.take 4).length = 4 := by
      rw [length_take]
      omega
    split at h
    · cases h
    · rename_i body r₁ hup
      split_ifs at h with hlen
      · cases h
      · obtain ⟨hle, hdata, hr₁⟩ := readUpTo_full hup (not_not.mp hlen)
        have hrec : record body = r.data.take 4 ++ body := by
          have hle := toLe_fromLe (r.data.take 4)
          rw [hfour] at hle
          rw [record, not_not.mp hlen, hle]
        cases hd : decode body with
        | none =>
          rw [hd] at h
          cases h
        | some g =>
          rw [hd] at h
          cases h
          have hcount := length_record body
          have hbound := fromLe_lt (r.data.take 4)
          rw [hfour] at hbound
          change fromLe (r.data.take 4) ≤ r.limit - 4 at hle
          refine ⟨body, ?_, by omega, hd, by omega, ?_⟩
          · rw [hrec, append_assoc, ← hdata]
            exact (take_append_drop 4 r.data).symm
          · rw [hr₁]
            congr 1
            change r.limit - 4 - fromLe (r.data.take 4) = _
            omega
  · rw [if_neg hc] at h
    generalize (if r.limit ≤ r.data.length then Kind.unexpectedEof else r.ending.kind) = k at h
    cases k <;> cases h

theorem records_of_unpackLoop {n : ℕ}
    (h : unpackLoop decode n r = .ok (files, r')) (hlimit : r'.limit ≠ 0) :
    ∃ bodies tail, r.data = bodies.flatMap record ++ tail ∧ tail.length < 4 ∧
      Forall₂ (Holds decode) bodies files ∧ r.data.length < r.limit ∧ r.ending.kind = .unexpectedEof := by
  induction n generalizing r files with
  | zero => cases h
  | succ n ih =>
    rw [unpackLoop] at h
    split at h
    · cases h
    · rename_i r₁ hread
      cases h
      obtain ⟨hfour, hless, hkind⟩ := readFile_none hread hlimit
      exact ⟨[], r.data, rfl, hfour, .nil, hless, hkind⟩
    · rename_i f r₁ hread
      split_ifs at h with hname
      obtain ⟨⟨files, r₂⟩, hrest, heq⟩ := exists_of_map_ok h
      cases heq
      obtain ⟨body, hdata, hbody, hdecode, hle, hr₁⟩ := readFile_some hread
      obtain ⟨bodies, tail, hmore, htail, hall, hless, hkind⟩ := ih hrest
      rw [hr₁] at hless hkind
      refine ⟨body :: bodies, tail, ?_, htail, .cons ⟨hbody, hdecode, hname⟩ hall, ?_, hkind⟩
      · rw [hdata, hmore, flatMap_cons, append_assoc]
      · rw [hdata, length_append]
        dsimp only at hless
        omega

/-! ### Round trip -/

/-- `write_file` for each file. -/
def packFiles (encode : TmpDirFile → Bytes) (files : List TmpDirFile) : Except Error Bytes :=
  (files.mapM (writeFile encode)).map flatten

theorem packFiles_ok {stream : Bytes} (h : packFiles encode files = .ok stream) :
    stream = (files.map encode).flatMap record ∧ ∀ f ∈ files, (encode f).length < 2 ^ 32 := by
  obtain ⟨parts, hparts, rfl⟩ := exists_of_map_ok h
  clear h
  induction files generalizing parts with
  | nil =>
    cases hparts
    exact ⟨rfl, nofun⟩
  | cons f files ih =>
    rw [mapM_cons] at hparts
    cases hw : writeFile encode f with
    | error e =>
      rw [hw] at hparts
      cases hparts
    | ok r =>
      cases hrest : files.mapM (writeFile encode) with
      | error e =>
        rw [hw, hrest] at hparts
        cases hparts
      | ok rest =>
        rw [hw, hrest] at hparts
        cases hparts
        obtain ⟨heq, hall⟩ := ih rest hrest
        unfold writeFile at hw
        split_ifs at hw with hlen
        cases hw
        exact ⟨by rw [flatten_cons, heq]; rfl, forall_mem_cons.mpr ⟨lt_of_not_ge hlen, hall⟩⟩

theorem length_le_records (bodies : List Bytes) : bodies.length ≤ (bodies.flatMap record).length := by
  induction bodies with
  | nil => exact le_rfl
  | cons b bodies ih =>
    rw [flatMap_cons, length_append, length_record, length_cons]
    omega

/-- The archive is read as ended exactly after complete records and fewer than four bytes, when the
reader is at its end or fails with `UnexpectedEof`; and what was written is read back, if prost does so
with each file. -/
theorem unpack_ok_iff (encode : TmpDirFile → Bytes) (decode : Bytes → Option TmpDirFile) (data : Bytes) (ending : Ending)
    (files : List TmpDirFile) : (unpackTmpDir decode data ending = .ok files ↔
      ∃ bodies tail, data = bodies.flatMap record ++ tail ∧ tail.length < 4 ∧ Forall₂ (Holds decode) bodies files ∧
        data.length < maxUnpacked ∧ ending.kind = .unexpectedEof) ∧
    ((∀ f ∈ files, decode (encode f) = some f ∧ validName f.name = true) → packFiles encode files = .ok data →
      data.length < maxUnpacked → unpackTmpDir decode data .clean = .ok files) := by
  have hread : ∀ {bodies : List Bytes} {tail : Bytes} {ending : Ending}, Forall₂ (Holds decode) bodies files →
      data = bodies.flatMap record ++ tail → tail.length < 4 → data.length < maxUnpacked →
      ending.kind = .unexpectedEof → unpackTmpDir decode data ending = .ok files := by
    rintro bodies tail ending hall rfl htail hmax hkind
    have hfuel : bodies.length < (bodies.flatMap record ++ tail).length + 1 := by
      have := length_le_records bodies
      rw [length_append]
      omega
    unfold unpackTmpDir
    rw [unpackLoop_records hall htail hmax hkind hfuel]
    exact if_neg (by dsimp only; omega)
  refine ⟨⟨fun h => ?_, ?_⟩, fun hnames hpack hmax => ?_⟩
  · unfold unpackTmpDir at h
    split at h
    · cases h
    · rename_i files' r hloop
      split_ifs at h with hlimit
      cases h
      obtain ⟨bodies, tail, hdata, htail, hall, hmax, hkind⟩ := records_of_unpackLoop hloop hlimit
      exact ⟨bodies, tail, hdata, htail, hall, hmax, hkind⟩
  · rintro ⟨bodies, tail, hdata, htail, hall, hmax, hkind⟩
    exact hread hall hdata htail hmax hkind
  · obtain ⟨hstream, hsmall⟩ := packFiles_ok hpack
    have hall : Forall₂ (Holds decode) (files.map encode) files := by
      refine forall₂_map_left_iff.mpr (forall₂_same.mpr fun f hf => ?_)
      exact ⟨hsmall f hf, hnames f hf⟩
    exact hread hall (hstream.trans (append_nil _).symm) (by decide) hmax rfl

/-- Two bytes of a length, and a reader that breaks off before any byte, count as the end. -/
theorem cut_prefix_is_end : unpackTmpDir (fun _ => none) [5, 0] .clean = .ok [] ∧
    unpackTmpDir (fun _ => none) [] (.fails .unexpectedEof) = .ok [] := by
  decide

/-! ### Packing a directory -/

inductive FileType
  | regularFile
  | other
deriving DecidableEq

structure Entry where
  name : Bytes
  fileType : FileType
  data : Bytes

/-- The names that `pack_zstd_dir` collects, in the order of the listing, with the files. -/
def regularFiles (isUtf8 : Bytes → Bool) : List Entry → Except Error (List TmpDirFile)
  | [] => .ok []
  | e :: listing =>
    if e.name = [46] ∨ e.name = [46, 46] ∨ e.fileType ≠ .regularFile then regularFiles isUtf8 listing
    else if isUtf8 e.name then (regularFiles isUtf8 listing).map (⟨e.name, e.data⟩ :: ·)
    else .error .nonUtf8Name

def packZstdDir (encode : TmpDirFile → Bytes) (compress : Bytes → Bytes) (isUtf8 : Bytes → Bool) (listing : List Entry) :
    Except Error Bytes :=
  match regularFiles isUtf8 listing with
  | .error e => .error e
  | .ok files => (packFiles encode files).map compress

theorem records_inj {bs bs' : List Bytes} (h : bs.flatMap record = bs'.flatMap record) (hbs : ∀ b ∈ bs, b.length < 2 ^ 32)
    (hbs' : ∀ b ∈ bs', b.length < 2 ^ 32) : bs = bs' := by
  induction bs generalizing bs' with
  | nil =>
    cases bs' with
    | nil => rfl
    | cons b' bs' =>
      have hlen := congrArg length h
      rw [flatMap_cons, length_append, length_record, flatMap_nil, length_nil] at hlen
      omega
  | cons b bs ih =>
    cases bs' with
    | nil =>
      have hlen := congrArg length h
      rw [flatMap_cons, length_append, length_record, flatMap_nil, length_nil] at hlen
      omega
    | cons b' bs' =>
      obtain ⟨hb, hbs⟩ := forall_mem_cons.mp hbs
      obtain ⟨hb', hbs'⟩ := forall_mem_cons.mp hbs'
      simp only [flatMap_cons, record, append_assoc] at h
      obtain ⟨hle, h⟩ := append_inj h (by rw [length_toLe, length_toLe])
      have hlen := congrArg fromLe hle
      rw [fromLe_toLe_of_lt (by omega), fromLe_toLe_of_lt (by omega)] at hlen
      obtain ⟨hbody, hrest⟩ := append_inj h hlen
      rw [hbody, ih hrest hbs hbs']

/-- Two listings give one pack exactly when they list the same regular files in the same order. -/
theorem pack_eq_iff (hencode : Injective encode) {compress : Bytes → Bytes} (hzstd : Injective compress)
    {isUtf8 : Bytes → Bool} {listing listing' : List Entry} {p p' : Bytes}
    (h : packZstdDir encode compress isUtf8 listing = .ok p) (h' : packZstdDir encode compress isUtf8 listing' = .ok p') :
    p = p' ↔ regularFiles isUtf8 listing = regularFiles isUtf8 listing' := by
  unfold packZstdDir at h h'
  cases hfiles : regularFiles isUtf8 listing with
  | error e =>
    rw [hfiles] at h
    cases h
  | ok files =>
    cases hfiles' : regularFiles isUtf8 listing' with
    | error e =>
      rw [hfiles'] at h'
      cases h'
    | ok files' =>
      rw [hfiles] at h
      rw [hfiles'] at h'
      obtain ⟨stream, hstream, rfl⟩ := exists_of_map_ok h
      obtain ⟨stream', hstream', rfl⟩ := exists_of_map_ok h'
      constructor
      · intro heq
        obtain rfl := hzstd heq
        obtain ⟨hrec, hsmall⟩ := packFiles_ok hstream
        obtain ⟨hrec', hsmall'⟩ := packFiles_ok hstream'
        have hbodies := records_inj (hrec.symm.trans hrec') (by simpa using hsmall) (by simpa using hsmall')
        rw [map_injective_iff.mpr hencode hbodies]
      · intro heq
        rw [Except.ok.inj heq, hstream'] at hstream
        rw [Except.ok.inj hstream]

def named (f : TmpDirFile) : Bytes := 10 :: UInt8.ofNat f.name.length :: f.name

def tagged (f : TmpDirFile) : Bytes := f.name.flatMap (fun b => [1, b]) ++ 0 :: f.data

theorem tagged_injective : Injective tagged := by
  rintro ⟨name, data⟩ ⟨name', data'⟩ h
  induction name generalizing name' with
  | nil =>
    cases name' with
    | nil => simpa [tagged] using h
    | cons b' name' => simp [tagged] at h
  | cons b name ih =>
    cases name' with
    | nil => simp [tagged] at h
    | cons b' name' =>
      simp only [tagged, flatMap_cons, cons_append, nil_append, cons.injEq, true_and] at h
      have := ih name' h.2
      simp_all

theorem pack_eq_iff_dot : ∃ p p', packZstdDir tagged id (fun _ => true) [⟨[97], .regularFile, []⟩] = .ok p ∧
    packZstdDir tagged id (fun _ => true) [⟨[46], .other, []⟩, ⟨[97], .regularFile, []⟩] = .ok p' ∧ p = p' := by
  have h : packZstdDir tagged id (fun _ => true) [⟨[97], .regularFile, []⟩] = .ok _ := rfl
  have h' : packZstdDir tagged id (fun _ => true) [⟨[46], .other, []⟩, ⟨[97], .regularFile, []⟩] = .ok _ := rfl
  exact ⟨_, _, h, h', (pack_eq_iff tagged_injective injective_id h h').mpr rfl⟩

/-- Two files in two orders. -/
theorem pack_depends_on_order :
    packZstdDir named id (fun _ => true) [⟨[97], .regularFile, []⟩, ⟨[98], .regularFile, []⟩] ≠
      packZstdDir named id (fun _ => true) [⟨[98], .regularFile, []⟩, ⟨[97], .regularFile, []⟩] := by
  decide

end Tribuchet.TmpDir
