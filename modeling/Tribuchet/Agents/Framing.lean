import Tribuchet.Base.Bytes

/-! Messages between worker and agent (`send_message` and `recv_message` in `sandbox-proto/src/framing.rs`):
a little-endian length, the encoded message, and descriptors that travel with the first byte of a `sendmsg`.
The sender takes every body whose length fits in 32 bits, the receiver only those up to `MAX_MESSAGE`. -/

namespace Tribuchet.Framing

open ByteStrings hiding readExact readExact_append
open List

structure Codec (M : Type) where
  encode : M → Bytes
  decode : Bytes → Option M
  decode_encode : ∀ m, decode (encode m) = some m

inductive Error
  | io (step : String)
  | lengthOutOfRange (length : ℕ)
  | tooManyFds
  | connectionClosed
  | decode
  deriving DecidableEq

/-- `MAX_MESSAGE`. -/
def maxMessage : ℕ := 64 * 1024 * 1024

def maxFds : ℕ := 8

/-- The bytes on their way, each with the descriptors that are delivered with it. -/
abbrev Wire (F : Type) := List (UInt8 × List F)

variable {M F : Type}

def plain (bs : Bytes) : Wire F := bs.map (·, [])

/-- The bytes of one `sendmsg` with descriptors. -/
def attach (fds : List F) : Bytes → Wire F
  | [] => []
  | b :: rest => (b, fds) :: plain rest

/-- `send_message`, where `sendmsg` accepts this many bytes and `write_all` takes the others. -/
def sendMessage (codec : Codec M) (accepted : ℕ) (m : M) (fds : List F) (wire : Wire F) : Except Error (Wire F) :=
  let body := codec.encode m
  if 2 ^ 32 ≤ body.length then .error (.lengthOutOfRange body.length)
  else if maxFds < fds.length then .error .tooManyFds
  else
    let buf := toLe 4 body.length ++ body
    .ok (wire ++ attach fds (buf.take accepted) ++ plain (buf.drop accepted))

/-- The bytes that one `recvmsg` may return: it does not cross into data with other descriptors. -/
def reach : Wire F → ℕ
  | [] => 0
  | _ :: rest => 1 + (rest.takeWhile (·.2.isEmpty)).length

/-- How many bytes a read returns that wants at most `limit` bytes, of which `most` can be had, if the
kernel would return `size`. -/
def returned (size limit most : ℕ) : ℕ := min (max 1 size) (min limit most)

/-- `read_exact`, with the sizes of its reads. Descriptors are not collected. -/
def readExact : ℕ → (ℕ → ℕ) → ℕ → Wire F → Except Error (Bytes × Wire F)
  | _, _, 0, wire => .ok ([], wire)
  | 0, _, _ + 1, _ => .error (.io "receiving message")
  | fuel + 1, sizes, want + 1, wire =>
    let n := returned (sizes 0) (want + 1) wire.length
    if n = 0 then .error (.io "receiving message")
    else do
      let (rest, wire') ← readExact fuel (fun i => sizes (i + 1)) (want + 1 - n) (wire.drop n)
      pure ((wire.take n).map Prod.fst ++ rest, wire')

/-- The sizes of the reads of one `recv_message`. -/
structure Reads where
  first : ℕ
  length : ℕ → ℕ
  body : ℕ → ℕ

/-- The part of `recv_message` after the length. -/
def recvBody (codec : Codec M) (sizes : ℕ → ℕ) (fds : List F) (len : ℕ) (wire : Wire F) :
    Except Error ((M × List F) × Wire F) :=
  if maxMessage < len then .error (.lengthOutOfRange len)
  else (readExact len sizes len wire).bind fun r =>
    match codec.decode r.1 with
    | none => .error .decode
    | some value => .ok ((value, fds), r.2)

def recvMessage (codec : Codec M) (reads : Reads) (wire : Wire F) : Except Error ((M × List F) × Wire F) :=
  let n := returned reads.first 4 (reach wire)
  if n = 0 then .error .connectionClosed
  else (readExact 4 reads.length (4 - n) (wire.drop n)).bind fun r =>
    recvBody codec reads.body ((wire.take n).flatMap Prod.snd) (fromLe ((wire.take n).map Prod.fst ++ r.1)) r.2

/-- A message with its descriptors, and the bytes that `sendmsg` accepts of it. -/
structure Sent (M F : Type) where
  accepted : ℕ
  message : M
  fds : List F

def sendAll (codec : Codec M) : List (Sent M F) → Wire F → Except Error (Wire F)
  | [], wire => .ok wire
  | x :: xs, wire => do sendAll codec xs (← sendMessage codec x.accepted x.message x.fds wire)

def recvAll (codec : Codec M) : List Reads → Wire F → Except Error (List (M × List F) × Wire F)
  | [], wire => .ok ([], wire)
  | reads :: rest, wire => (recvMessage codec reads wire).bind fun r =>
    (recvAll codec rest r.2).map fun q => (r.1 :: q.1, q.2)

/-! ### One message -/

@[simp] theorem plain_append (a b : Bytes) : (plain (a ++ b) : Wire F) = plain a ++ plain b := map_append

@[simp] theorem length_plain (bs : Bytes) : (plain bs : Wire F).length = bs.length := length_map _

@[simp] theorem map_fst_plain (bs : Bytes) : (plain bs : Wire F).map Prod.fst = bs := by
  induction bs with
  | nil => rfl
  | cons b bs ih => exact congrArg (b :: ·) ih

theorem take_plain (n : ℕ) (bs : Bytes) : (plain bs : Wire F).take n = plain (bs.take n) := map_take.symm

theorem drop_plain (n : ℕ) (bs : Bytes) : (plain bs : Wire F).drop n = plain (bs.drop n) := map_drop.symm

theorem flatMap_snd_plain (bs : Bytes) : (plain bs : Wire F).flatMap Prod.snd = [] := by
  rw [flatMap_eq_nil_iff]
  rintro _ hx
  obtain ⟨b, -, rfl⟩ := mem_map.mp hx
  rfl

/-- It makes no difference how much of a message the first call takes, as long as it takes something. -/
theorem attach_take {accepted : ℕ} (h : 0 < accepted) (fds : List F) (buf : Bytes) :
    attach fds (buf.take accepted) ++ plain (buf.drop accepted) = attach fds buf := by
  obtain ⟨k, rfl⟩ := Nat.exists_eq_succ_of_ne_zero h.ne'
  cases buf with
  | nil => rfl
  | cons b rest =>
    show (b, fds) :: (plain (rest.take k) ++ plain (rest.drop k)) = (b, fds) :: plain rest
    rw [← plain_append, take_append_drop]

theorem readExact_append (fuel : ℕ) (sizes : ℕ → ℕ) (a rest : Wire F) (h : a.length ≤ fuel) :
    readExact fuel sizes a.length (a ++ rest) = .ok (a.map Prod.fst, rest) := by
  induction fuel generalizing sizes a with
  | zero =>
    cases length_eq_zero_iff.mp (Nat.le_zero.mp h)
    rfl
  | succ fuel ih =>
    cases hlen : a.length with
    | zero =>
      cases length_eq_zero_iff.mp hlen
      rfl
    | succ want =>
      have hn : 0 < returned (sizes 0) (want + 1) (a ++ rest).length ∧
          returned (sizes 0) (want + 1) (a ++ rest).length ≤ a.length := by
        rw [returned, length_append]
        omega
      unfold readExact
      generalize returned (sizes 0) (want + 1) (a ++ rest).length = n at hn ⊢
      have hdrop := ih (fun i => sizes (i + 1)) (a.drop n) (by rw [length_drop]; omega)
      rw [length_drop, hlen] at hdrop
      dsimp only
      rw [if_neg hn.1.ne', drop_append_of_le_length hn.2, take_append_of_le_length hn.2, hdrop]
      show Except.ok _ = _
      rw [← map_append, take_append_drop]

def frame (codec : Codec M) (m : M) (fds : List F) : Wire F :=
  attach fds (toLe 4 (codec.encode m).length ++ codec.encode m)

theorem sendMessage_eq {accepted : ℕ} (h : 0 < accepted) (codec : Codec M) (m : M) (fds : List F) (wire : Wire F) :
    sendMessage codec accepted m fds wire =
      if 2 ^ 32 ≤ (codec.encode m).length then .error (.lengthOutOfRange (codec.encode m).length)
      else if maxFds < fds.length then .error .tooManyFds
      else .ok (wire ++ frame codec m fds) := by
  rw [frame, ← attach_take h, ← append_assoc]
  rfl

theorem recvMessage_frame (codec : Codec M) (reads : Reads) (m : M) (fds : List F) (rest : Wire F)
    (h : (codec.encode m).length < 2 ^ 32) : recvMessage codec reads (frame codec m fds ++ rest) =
      if maxMessage < (codec.encode m).length then .error (.lengthOutOfRange (codec.encode m).length)
      else .ok ((m, fds), rest) := by
  have hlength := length_toLe 4 (codec.encode m).length
  have hnum : fromLe (toLe 4 (codec.encode m).length) = (codec.encode m).length := fromLe_toLe_of_lt (by omega)
  generalize hbody : codec.encode m = body at *
  -- the first read returns part of the length, with all descriptors of the message
  obtain ⟨b, len, hlen⟩ : ∃ b len, toLe 4 body.length = b :: len := ⟨_, _, rfl⟩
  have hlen3 : len.length = 3 := by simpa [hlen] using hlength
  have hwire : frame codec m fds ++ rest = (b, fds) :: (plain len ++ (plain body ++ rest)) := by
    rw [frame, hbody, hlen]
    show (b, fds) :: plain (len ++ body) ++ rest = _
    rw [plain_append, cons_append, append_assoc]
  have hreach : 4 ≤ reach (frame codec m fds ++ rest) := by
    rw [hwire, reach, takeWhile_append_of_pos (by simp [plain]), length_append, length_plain]
    omega
  have hn : 0 < returned reads.first 4 (reach (frame codec m fds ++ rest)) ∧
      returned reads.first 4 (reach (frame codec m fds ++ rest)) ≤ 4 := by
    rw [returned]
    omega
  unfold recvMessage
  generalize returned reads.first 4 (reach (frame codec m fds ++ rest)) = n at hn ⊢
  obtain ⟨k, rfl⟩ := Nat.exists_eq_succ_of_ne_zero hn.1.ne'
  have hk : k ≤ (plain len : Wire F).length := by rw [length_plain]; omega
  have htake : (frame codec m fds ++ rest).take (k + 1) = (b, fds) :: plain (len.take k) := by
    rw [hwire, take_succ_cons, take_append_of_le_length hk, take_plain]
  have hdrop : (frame codec m fds ++ rest).drop (k + 1) = plain (len.drop k) ++ (plain body ++ rest) := by
    rw [hwire, drop_succ_cons, drop_append_of_le_length hk, drop_plain]
  have hfds : ((b, fds) :: plain (len.take k)).flatMap Prod.snd = fds := by
    rw [flatMap_cons, flatMap_snd_plain, append_nil]
  have hread := readExact_append 4 reads.length (plain (len.drop k) : Wire F) (plain body ++ rest)
    (by rw [length_plain, length_drop]; omega)
  have hwant : (plain (len.drop k) : Wire F).length = 4 - (k + 1) := by
    rw [length_plain, length_drop]
    omega
  rw [hwant, map_fst_plain] at hread
  have hdata := readExact_append body.length reads.body (plain body : Wire F) rest (by rw [length_plain])
  rw [length_plain, map_fst_plain] at hdata
  have hlen' : ((b, fds) :: plain (len.take k)).map Prod.fst ++ len.drop k = toLe 4 body.length := by
    rw [map_cons, map_fst_plain, cons_append, take_append_drop, hlen]
  dsimp only
  rw [if_neg hn.1.ne', htake, hdrop, hread]
  show recvBody codec reads.body _ (fromLe (map Prod.fst ((b, fds) :: plain (len.take k)) ++ len.drop k)) _ = _
  rw [hlen', hnum, hfds]
  unfold recvBody
  split_ifs
  · rfl
  · rw [hdata]
    show (match codec.decode body with
      | none => _
      | some value => _) = _
    rw [← hbody, codec.decode_encode]

/-! ### Many messages -/

theorem sendAll_ok {codec : Codec M} {xs : List (Sent M F)} {wire wire' : Wire F} (hx : ∀ x ∈ xs, 0 < x.accepted)
    (h : sendAll codec xs wire = .ok wire') : wire' = wire ++ xs.flatMap (fun x => frame codec x.message x.fds) ∧
      ∀ x ∈ xs, (codec.encode x.message).length < 2 ^ 32 := by
  induction xs generalizing wire with
  | nil =>
    cases h
    simp
  | cons x xs ih =>
    obtain ⟨hx, hxs⟩ := forall_mem_cons.mp hx
    rw [sendAll, sendMessage_eq hx] at h
    split_ifs at h with hlen hfds
    · cases h
    · cases h
    · obtain ⟨rfl, hlens⟩ := ih hxs h
      exact ⟨by rw [flatMap_cons, append_assoc], forall_mem_cons.mpr ⟨lt_of_not_ge hlen, hlens⟩⟩

/-- As many calls as there were messages return these, each with its descriptors, and leave the rest of the
stream alone, if and only if no body is longer than the receiver allows. -/
theorem recvAll_eq_iff {codec : Codec M} {xs : List (Sent M F)} {wire : Wire F} (hx : ∀ x ∈ xs, 0 < x.accepted)
    (h : sendAll codec xs [] = .ok wire) {reads : List Reads} (hreads : reads.length = xs.length) (later : Wire F) :
    recvAll codec reads (wire ++ later) = .ok (xs.map fun x => (x.message, x.fds), later) ↔
      ∀ x ∈ xs, (codec.encode x.message).length ≤ maxMessage := by
  obtain ⟨rfl, hlens⟩ := sendAll_ok hx h
  clear h hx
  rw [nil_append]
  induction xs generalizing reads with
  | nil =>
    cases length_eq_zero_iff.mp hreads
    simp [recvAll]
  | cons x xs ih =>
    obtain ⟨r, reads, rfl⟩ := exists_cons_of_length_eq_add_one hreads
    obtain ⟨hlen, hlens⟩ := forall_mem_cons.mp hlens
    have ih := ih (Nat.succ.inj hreads) hlens
    rw [flatMap_cons, append_assoc, recvAll, recvMessage_frame codec r x.message x.fds _ hlen, forall_mem_cons]
    split_ifs with hmax
    · exact iff_of_false nofun fun hc => Nat.not_lt_of_le hc.1 hmax
    · rw [and_iff_right (le_of_not_gt hmax), ← ih]
      show (recvAll codec reads (xs.flatMap (fun x => frame codec x.message x.fds) ++ later)).map _ = _ ↔ _
      cases recvAll codec reads (xs.flatMap (fun x => frame codec x.message x.fds) ++ later) with
      | error e => exact iff_of_false nofun nofun
      | ok q => simp [Except.map, Prod.ext_iff]

def raw : Codec Bytes := ⟨id, some, fun _ => rfl⟩

/-- The first message has a descriptor and is cut after two bytes of its length. -/
def pair : List (Sent Bytes ℕ) := [⟨2, [7], [3]⟩, ⟨9, [], []⟩]

theorem recvAll_eq_iff_pair : ∃ wire : Wire ℕ, sendAll raw pair [] = .ok wire ∧
    recvAll raw [⟨1, fun _ => 1, fun _ => 1⟩, ⟨4, fun _ => 1, fun _ => 1⟩] (wire ++ [(5, [8])]) =
      .ok ([([7], [3]), ([], [])], [(5, [8])]) := by
  have hsend : sendAll raw pair [] = .ok (pair.flatMap fun x => frame raw x.message x.fds) := rfl
  exact ⟨_, hsend, (recvAll_eq_iff (by decide) hsend rfl _).mpr (by decide)⟩

/-- The sender accepts a body of 64 MiB and one byte, which the receiver refuses. -/
theorem long_body_refused : ∃ wire : Wire ℕ,
    sendMessage raw (maxMessage + 5) (replicate (maxMessage + 1) 0) [] [] = .ok wire ∧
      ∀ reads, recvMessage raw reads wire = .error (.lengthOutOfRange (maxMessage + 1)) := by
  have hlen : (raw.encode (replicate (maxMessage + 1) 0)).length = maxMessage + 1 := length_replicate
  have hfits : maxMessage + 1 < 2 ^ 32 := by decide
  generalize replicate (maxMessage + 1) (0 : UInt8) = body at hlen ⊢
  refine ⟨frame raw body [], ?_, fun reads => ?_⟩
  · rw [sendMessage_eq (Nat.succ_pos _), hlen, if_neg (by omega), if_neg (by simp)]
    rfl
  · rw [← append_nil (frame raw body []), recvMessage_frame raw reads _ _ [] (by rw [hlen]; exact hfits), hlen]
    exact if_pos (Nat.lt_succ_self _)

end Tribuchet.Framing
