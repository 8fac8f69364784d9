import Mathlib.Data.Nat.Bitwise
import Mathlib.Data.List.Basic
import Tribuchet.Base.Hoare

/-! The flow policy of the network of fixed-output builds (`netpolicy.rs`). Addresses are bit vectors;
how `std` reads an address from a text is a parameter. -/

namespace Tribuchet.FlowPolicy

open Hoare List Option

abbrev Text := List Char

inductive IpAddr
  | v4 (a : BitVec 32)
  | v6 (a : BitVec 128)
deriving DecidableEq

/-- `::ffff:a.b.c.d`. -/
def isMapped (a : BitVec 128) : Bool := a.extractLsb' 32 96 = 0xffff#96

namespace IpAddr

/-- `to_canonical`. -/
def toCanonical : IpAddr → IpAddr
  | .v4 a => .v4 a
  | .v6 a => if isMapped a then .v4 (a.setWidth 32) else .v6 a

def isIpv4 : IpAddr → Bool
  | .v4 _ => true
  | .v6 _ => false

def maxPrefix (ip : IpAddr) : ℕ := if ip.isIpv4 then 32 else 128

/-- The first `p` bits are those of `n`. -/
def startsWith {w : ℕ} (n : BitVec w) (p : ℕ) (a : BitVec w) : Bool := a.toNat >>> (w - p) = n.toNat >>> (w - p)

def isPublic : IpAddr → Bool
  | .v4 a =>
    !(startsWith 0x7f000000 8 a || startsWith 0x0a000000 8 a || startsWith 0xac100000 12 a ||
      startsWith 0xc0a80000 16 a || startsWith 0xa9fe0000 16 a || startsWith 0xe0000000 4 a || a = 0xffffffff || a = 0 ||
      startsWith 0x64400000 10 a)
  | .v6 a =>
    !(a = 1 || startsWith (0xff <<< 120) 8 a || a = 0 || startsWith (0xfc <<< 120) 7 a || startsWith (0xfe8 <<< 116) 10 a)

end IpAddr

inductive Dst
  | any
  | priv
  | cidr (ip : IpAddr) (len : ℕ)
deriving DecidableEq

def masked (ip bits len : ℕ) : ℕ :=
  let shift := bits - len
  -- a shift by the full width means that everything matches
  if bits ≤ shift then 0 else ip >>> shift

def cidrContains : IpAddr → ℕ → IpAddr → Bool
  | .v4 net, len, .v4 ip => masked net.toNat 32 len = masked ip.toNat 32 len
  | .v6 net, len, .v6 ip => masked net.toNat 128 len = masked ip.toNat 128 len
  | _, _, _ => false

def Dst.matches (d : Dst) (ip : IpAddr) : Bool :=
  let ip := ip.toCanonical
  match d with
  | .any => true
  | .priv => !ip.isPublic
  | .cidr net len => cidrContains net len ip

inductive ParseError
  | badDestination (s : Text)
  | badPrefixLength (s : Text)
deriving DecidableEq

/-- `str::split_once`. -/
def splitOnce (sep : Char) (s : Text) : Option (Text × Text) :=
  if sep ∈ s then some (s.takeWhile (· ≠ sep), (s.dropWhile (· ≠ sep)).tail) else none

/-- `str::parse` of a `u8`: digits, with a plus sign or none. -/
def parseU8 (s : Text) : Option ℕ :=
  let digits := if s.head? = some '+' then s.tail else s
  let n := digits.foldl (fun n c => 10 * n + (c.toNat - 48)) 0
  if digits ≠ [] ∧ digits.all Char.isDigit ∧ n ≤ 255 then some n else none

/-- `Dst::from_str`. -/
def Dst.fromStr (parseAddr : Text → Option IpAddr) (s : Text) : Except ParseError Dst :=
  if s = "any".toList then .ok .any
  else if s = "private".toList then .ok .priv
  else
    let parts : Text × Option Text := (splitOnce '/' s).elim (s, none) fun x => (x.1, some x.2)
    match parseAddr parts.1 with
    | none => .error (.badDestination s)
    | some ip =>
      match parts.2 with
      | none => .ok (.cidr ip ip.maxPrefix)
      | some l =>
        match parseU8 l with
        | some n => if n ≤ ip.maxPrefix then .ok (.cidr ip n) else .error (.badPrefixLength s)
        | none => .error (.badPrefixLength s)

inductive Action
  | allow
  | deny
deriving DecidableEq

inductive Proto
  | any
  | tcp
  | udp

structure PortRange where
  first : UInt16
  last : UInt16

structure Rule where
  action : Action
  proto : Proto
  dst : Dst
  ports : List PortRange

def Rule.matches (r : Rule) (proto : UInt8) (ip : IpAddr) (port : UInt16) : Bool :=
  let protoOk := match r.proto with
    | .any => true
    | .tcp => proto = 6
    | .udp => proto = 17
  protoOk && r.dst.matches ip && (r.ports.isEmpty || r.ports.any fun p => p.first ≤ port && port ≤ p.last)

structure NetPolicy where
  default : Action
  rules : List Rule

def NetPolicy.allows (p : NetPolicy) (proto : UInt8) (ip : IpAddr) (port : UInt16) : Bool :=
  ((p.rules.find? fun r => r.matches proto ip port).elim p.default Rule.action) = .allow

/-! ### What a destination covers -/

/-- The first `p` bits are the same. -/
def SameBits {w : ℕ} (p : ℕ) (a b : BitVec w) : Prop := ∀ i < p, a.getMsbD i = b.getMsbD i

/-- The flows in a range as it is written: a range of IPv4 also covers the mapped addresses. -/
def InRange : IpAddr → ℕ → IpAddr → Prop
  | .v4 n, p, .v4 a => SameBits p n a
  | .v4 n, p, .v6 a => isMapped a = true ∧ SameBits p n (a.setWidth 32)
  | .v6 n, p, .v6 a => SameBits p n a
  | .v6 _, _, .v4 _ => False

def Crossed : IpAddr → IpAddr → Prop
  | .v6 _, .v6 a => isMapped a = true
  | _, _ => False

theorem masked_eq_iff {w p : ℕ} (hp : p ≤ w) (a b : BitVec w) :
    masked a.toNat w p = masked b.toNat w p ↔ SameBits p a b := by
  unfold masked
  dsimp only
  split_ifs with h
  · -- an empty prefix
    refine iff_of_true rfl fun i hi => ?_
    omega
  · constructor
    · intro heq i hi
      have hbit := congrArg (·.testBit (p - 1 - i)) heq
      simp only [Nat.testBit_shiftRight, show w - p + (p - 1 - i) = w - 1 - i by omega] at hbit
      simpa [BitVec.getMsbD, BitVec.getLsbD, show i < w by omega] using hbit
    · intro hsame
      refine Nat.eq_of_testBit_eq fun k => ?_
      rw [Nat.testBit_shiftRight, Nat.testBit_shiftRight]
      by_cases hk : k < p
      · have hbit := hsame (p - 1 - k) (by omega)
        simpa [BitVec.getMsbD, BitVec.getLsbD, show p - 1 - k < w by omega,
          show w - 1 - (p - 1 - k) = w - p + k by omega] using hbit
      · rw [Nat.testBit_lt_two_pow, Nat.testBit_lt_two_pow]
        · exact lt_of_lt_of_le b.isLt (Nat.pow_le_pow_right (by decide) (by omega))
        · exact lt_of_lt_of_le a.isLt (Nat.pow_le_pow_right (by decide) (by omega))

theorem prefix_le_width {parseAddr : Text → Option IpAddr} {s : Text} {n : IpAddr} {p : ℕ}
    (h : Dst.fromStr parseAddr s = .ok (.cidr n p)) : p ≤ n.maxPrefix := by
  unfold Dst.fromStr at h
  split_ifs at h
  · cases h
  · cases h
  · dsimp only at h
    split at h
    · cases h
    · split at h
      · cases h
        exact le_rfl
      · split at h
        · split_ifs at h with hle
          cases h
          exact hle
        · cases h

/-- A rule matches what lies in its range as written, but for IPv4-mapped addresses in a range of
IPv6, which it never matches. -/
theorem matches_iff_inRange {parseAddr : Text → Option IpAddr} {s : Text} {n : IpAddr} {p : ℕ}
    (h : Dst.fromStr parseAddr s = .ok (.cidr n p)) (a : IpAddr) :
    (Dst.cidr n p).matches a = true ↔ InRange n p a ∧ ¬ Crossed n a := by
  have hp := prefix_le_width h
  cases n with
  | v4 n =>
    have hp : p ≤ 32 := hp
    cases a with
    | v4 a =>
      simp only [Dst.matches, IpAddr.toCanonical, cidrContains, InRange, Crossed, decide_eq_true_eq, masked_eq_iff hp,
        not_false_eq_true, and_true]
    | v6 a =>
      simp only [Dst.matches, IpAddr.toCanonical, InRange, Crossed, not_false_eq_true, and_true]
      by_cases hm : isMapped a = true
      · simp only [hm, if_true, cidrContains, decide_eq_true_eq, masked_eq_iff hp, true_and]
      · simp [hm, cidrContains]
  | v6 n =>
    have hp : p ≤ 128 := hp
    cases a with
    | v4 a => simp [Dst.matches, IpAddr.toCanonical, cidrContains, InRange]
    | v6 a =>
      simp only [Dst.matches, IpAddr.toCanonical, InRange, Crossed]
      by_cases hm : isMapped a = true
      · simp [hm, cidrContains]
      · simp only [hm, if_false, cidrContains, decide_eq_true_eq, masked_eq_iff hp, Bool.false_eq_true, not_false_eq_true,
          and_true]

/-- `std` on one address in mapped notation. -/
def parseMapped (s : Text) : Option IpAddr :=
  if s = "::ffff:10.0.0.0".toList then some (.v6 0xffff0a000000) else none

theorem matches_iff_inRange_mapped : Dst.fromStr parseMapped "::ffff:10.0.0.0/104".toList =
      .ok (.cidr (.v6 0xffff0a000000) 104) ∧
    ((Dst.cidr (.v6 0xffff0a000000) 104).matches (.v6 1) = true ↔
      InRange (.v6 0xffff0a000000) 104 (.v6 1) ∧ ¬ Crossed (.v6 0xffff0a000000) (.v6 1)) := by
  have h : Dst.fromStr parseMapped "::ffff:10.0.0.0/104".toList = .ok (.cidr (.v6 0xffff0a000000) 104) := by decide
  exact ⟨h, matches_iff_inRange h _⟩

/-- A rule that denies `::ffff:10.0.0.0/104` lets a flow to `::ffff:10.0.0.1` pass. -/
theorem mapped_deny_skipped : Dst.fromStr parseMapped "::ffff:10.0.0.0/104".toList =
      .ok (.cidr (.v6 0xffff0a000000) 104) ∧
    InRange (.v6 0xffff0a000000) 104 (.v6 0xffff0a000001) ∧
    (Dst.cidr (.v6 0xffff0a000000) 104).matches (.v6 0xffff0a000001) = false ∧
    NetPolicy.allows ⟨.allow, [⟨.deny, .any, .cidr (.v6 0xffff0a000000) 104, []⟩]⟩ 6 (.v6 0xffff0a000001) 80 = true := by
  exact ⟨by decide, (masked_eq_iff (by decide) _ _).mp (by decide), by decide, by decide⟩

/-! ### The written form -/

/-- `str::parse` of a number of at most `max`. -/
def parseUpTo (max : ℕ) (s : Text) : Option ℕ :=
  let digits := if s.head? = some '+' then s.tail else s
  let n := digits.foldl (fun n c => 10 * n + (c.toNat - 48)) 0
  if digits ≠ [] ∧ digits.all Char.isDigit ∧ n ≤ max then some n else none

/-- `char::is_whitespace`. -/
def isWhitespace (c : Char) : Bool :=
  c.toNat ∈ [9, 10, 11, 12, 13, 32, 0x85, 0xa0, 0x1680, 0x2028, 0x2029, 0x202f, 0x205f, 0x3000] ||
    0x2000 ≤ c.toNat && c.toNat ≤ 0x200a

def trim (s : Text) : Text := ((s.dropWhile isWhitespace).reverse.dropWhile isWhitespace).reverse

inductive ReadError
  | dst (e : ParseError)
  | badPortRange (s : Text)
  | startAfterEnd (s : Text)

/-- `PortRange::from_str`. -/
def PortRange.fromStr (s : Text) : Except ReadError PortRange :=
  let parts := (splitOnce '-' s).getD (s, s)
  let parse (p : Text) := (parseUpTo 65535 (trim p)).map UInt16.ofNat
  match parse parts.1, parse parts.2 with
  | some first, some last => if last < first then .error (.startAfterEnd s) else .ok ⟨first, last⟩
  | _, _ => .error (.badPortRange s)

def PortRange.display (r : PortRange) : Text :=
  if r.first = r.last then Nat.toDigits 10 r.first.toNat
  else Nat.toDigits 10 r.first.toNat ++ '-' :: Nat.toDigits 10 r.last.toNat

def Dst.display (showAddr : IpAddr → Text) : Dst → Text
  | .any => "any".toList
  | .priv => "private".toList
  | .cidr ip len => showAddr ip ++ '/' :: Nat.toDigits 10 len

/-- A rule as it is written; what is missing has a default. -/
structure RawRule where
  action : Action
  proto : Option Proto
  dst : Option Text
  ports : Option (List Text)

structure RawPolicy where
  default : Option Action
  rules : Option (List RawRule)

def Dst.deserialize (parseAddr : Text → Option IpAddr) : Option Text → Except ReadError Dst
  | none => .ok .any
  | some s => (Dst.fromStr parseAddr s).mapError .dst

def Rule.deserialize (parseAddr : Text → Option IpAddr) (x : RawRule) : Except ReadError Rule := do
  let dst ← Dst.deserialize parseAddr x.dst
  let ports ← (x.ports.getD []).mapM PortRange.fromStr
  return ⟨x.action, x.proto.getD .any, dst, ports⟩

def NetPolicy.deserialize (parseAddr : Text → Option IpAddr) (x : RawPolicy) : Except ReadError NetPolicy := do
  let rules ← (x.rules.getD []).mapM (Rule.deserialize parseAddr)
  return ⟨x.default.getD .allow, rules⟩

def Rule.serialize (showAddr : IpAddr → Text) (r : Rule) : RawRule :=
  ⟨r.action, some r.proto, some (r.dst.display showAddr), some (r.ports.map PortRange.display)⟩

def NetPolicy.serialize (showAddr : IpAddr → Text) (p : NetPolicy) : RawPolicy :=
  ⟨some p.default, some (p.rules.map (Rule.serialize showAddr))⟩

theorem isDigit_toDigits (n : ℕ) : ∀ c ∈ Nat.toDigits 10 n, c.isDigit = true :=
  fun _ hc => Nat.isDigit_of_mem_toDigits (by decide) (by decide) hc

theorem not_mem_toDigits {c : Char} (hc : c.isDigit = false) (n : ℕ) : c ∉ Nat.toDigits 10 n := by
  intro hmem
  rw [isDigit_toDigits n c hmem] at hc
  cases hc

theorem parseUpTo_toDigits {n max : ℕ} (h : n ≤ max) : parseUpTo max (Nat.toDigits 10 n) = some n := by
  have hplus : (Nat.toDigits 10 n).head? ≠ some '+' := fun hhead =>
    not_mem_toDigits rfl n (mem_of_head? hhead)
  have hvalue : (Nat.toDigits 10 n).foldl (fun n c => 10 * n + (c.toNat - 48)) 0 = n := Nat.ofDigitChars_ten_toDigits
  simp only [parseUpTo, if_neg hplus, hvalue]
  exact if_pos ⟨Nat.toDigits_ne_nil, all_eq_true.mpr (isDigit_toDigits n), h⟩

theorem isWhitespace_of_isDigit {c : Char} (h : c.isDigit = true) : isWhitespace c = false := by
  have hle : 48 ≤ c.toNat ∧ c.toNat ≤ 57 := by
    simpa [Char.isDigit, UInt32.le_iff_toNat_le] using h
  simp [isWhitespace]
  omega

theorem dropWhile_eq_self {l : Text} (h : ∀ c ∈ l, c.isDigit = true) : l.dropWhile isWhitespace = l := by
  cases l with
  | nil => rfl
  | cons c l => simp [isWhitespace_of_isDigit (h c mem_cons_self)]

theorem trim_toDigits (n : ℕ) : trim (Nat.toDigits 10 n) = Nat.toDigits 10 n := by
  have h := isDigit_toDigits n
  rw [trim, dropWhile_eq_self h, dropWhile_eq_self (by simpa using h), reverse_reverse]

theorem splitOnce_append {sep : Char} {a : Text} (h : sep ∉ a) (b : Text) : splitOnce sep (a ++ sep :: b) = some (a, b) := by
  have hne : ∀ c ∈ a, decide (c ≠ sep) = true := by
    intro c hc
    simp only [decide_eq_true_eq]
    rintro rfl
    exact h hc
  rw [splitOnce, if_pos (by simp), takeWhile_append_of_pos hne, dropWhile_append_of_pos hne]
  simp

theorem fromStr_display_port (s : Text) (r : PortRange) (h : PortRange.fromStr s = .ok r) :
    PortRange.fromStr r.display = .ok r := by
  have hle : ¬ r.last < r.first := by
    unfold PortRange.fromStr at h
    dsimp only at h
    split at h
    · split_ifs at h with hle
      cases h
      exact hle
    · cases h
  have hparse (x : UInt16) : (parseUpTo 65535 (trim (Nat.toDigits 10 x.toNat))).map UInt16.ofNat = some x := by
    have hlt := x.toNat_lt
    rw [trim_toDigits, parseUpTo_toDigits (by omega), map_some, UInt16.ofNat_toNat]
  have hdash (x : UInt16) : '-' ∉ Nat.toDigits 10 x.toNat := not_mem_toDigits (by decide) _
  unfold PortRange.fromStr PortRange.display
  split_ifs with heq
  · rw [splitOnce, if_neg (hdash _)]
    simp only [getD_none, hparse, UInt16.lt_irrefl, if_false]
    exact congrArg (fun x => Except.ok (PortRange.mk r.first x)) heq
  · rw [splitOnce_append (hdash _)]
    simp only [getD_some, hparse]
    exact if_neg hle

theorem mapM_map_of_mapM {α β ε : Type} {f : α → Except ε β} {g : β → α} (hg : ∀ a b, f a = .ok b → f (g b) = .ok b)
    {as : List α} {bs : List β} (h : as.mapM f = .ok bs) : (bs.map g).mapM f = .ok bs := by
  induction as generalizing bs with
  | nil =>
    cases h
    rfl
  | cons a as ih =>
    rw [mapM_cons] at h
    obtain ⟨b, ha, h⟩ := bind_eq_ok.mp h
    obtain ⟨bs, has, h⟩ := bind_eq_ok.mp h
    cases h
    rw [map_cons, mapM_cons, hg a b ha, ih has]
    rfl

section RoundTrip

variable {parseAddr : Text → Option IpAddr} {showAddr : IpAddr → Text}
variable (hparse : ∀ ip, parseAddr (showAddr ip) = some ip) (hslash : ∀ ip, '/' ∉ showAddr ip)

include hparse hslash

theorem fromStr_display_dst {s : Option Text} {d : Dst} (h : Dst.deserialize parseAddr s = .ok d) :
    Dst.deserialize parseAddr (some (d.display showAddr)) = .ok d := by
  cases d with
  | any => rfl
  | priv => rfl
  | cidr ip len =>
    have hlen : len ≤ ip.maxPrefix := by
      cases s with
      | none => cases h
      | some s =>
        cases hs : Dst.fromStr parseAddr s with
        | error e => simp [Dst.deserialize, hs, Except.mapError] at h
        | ok d =>
          rw [Dst.deserialize, hs] at h
          cases h
          exact prefix_le_width hs
    have hne (t : Text) (ht : '/' ∉ t) : showAddr ip ++ '/' :: Nat.toDigits 10 len ≠ t := by
      rintro rfl
      simp at ht
    have hmax : ip.maxPrefix ≤ 255 := by
      unfold IpAddr.maxPrefix
      split_ifs <;> omega
    have hu8 : parseU8 (Nat.toDigits 10 len) = some len := parseUpTo_toDigits (hlen.trans hmax)
    unfold Dst.display Dst.deserialize Dst.fromStr
    dsimp only
    split_ifs with hany hpriv
    · exact absurd hany (hne _ (by decide))
    · exact absurd hpriv (hne _ (by decide))
    · simp [splitOnce_append (hslash ip), hparse, hu8, hlen, Except.mapError]

theorem deserialize_serialize_rule (x : RawRule) (r : Rule) (h : Rule.deserialize parseAddr x = .ok r) :
    Rule.deserialize parseAddr (r.serialize showAddr) = .ok r := by
  unfold Rule.deserialize at h
  obtain ⟨dst, hdst, h⟩ := bind_eq_ok.mp h
  obtain ⟨ports, hports, h⟩ := bind_eq_ok.mp h
  cases h
  simp only [Rule.deserialize, Rule.serialize, fromStr_display_dst hparse hslash hdst, getD_some,
    mapM_map_of_mapM fromStr_display_port hports]
  rfl

/-- A policy that was read is read back from its written form, and decides as before. -/
theorem allows_serialized {x : RawPolicy} {p : NetPolicy} (h : NetPolicy.deserialize parseAddr x = .ok p) :
    ∃ p', NetPolicy.deserialize parseAddr (p.serialize showAddr) = .ok p' ∧
      ∀ proto ip port, p'.allows proto ip port = p.allows proto ip port := by
  obtain ⟨rules, hrules, hp⟩ := bind_eq_ok.mp h
  cases hp
  refine ⟨⟨x.default.getD .allow, rules⟩, ?_, fun _ _ _ => rfl⟩
  simp only [NetPolicy.deserialize, NetPolicy.serialize, getD_some,
    mapM_map_of_mapM (deserialize_serialize_rule hparse hslash) hrules]
  rfl

end RoundTrip

/-- A text form of addresses that is not `std`'s. -/
def plainText : IpAddr → Text
  | .v4 a => '4' :: Nat.toDigits 10 a.toNat
  | .v6 a => '6' :: Nat.toDigits 10 a.toNat

def parsePlain : Text → Option IpAddr
  | '4' :: s => some (.v4 (.ofNat 32 (Nat.ofDigitChars 10 s 0)))
  | '6' :: s => some (.v6 (.ofNat 128 (Nat.ofDigitChars 10 s 0)))
  | _ => none

def fewPorts : RawPolicy :=
  ⟨some .deny, some [⟨.allow, none, some "40/8".toList, some ["443".toList, " 8000-+8999".toList]⟩]⟩

theorem allows_serialized_plain : ∃ p, NetPolicy.deserialize parsePlain fewPorts = .ok p ∧
    ∃ p', NetPolicy.deserialize parsePlain (p.serialize plainText) = .ok p' ∧
      ∀ proto ip port, p'.allows proto ip port = p.allows proto ip port := by
  refine ⟨_, rfl, allows_serialized (fun ip => ?_) (fun ip => ?_) (x := fewPorts) rfl⟩
  · cases ip <;> simp [plainText, parsePlain, Nat.ofDigitChars_ten_toDigits]
  · cases ip <;> simp [plainText, not_mem_toDigits]

end Tribuchet.FlowPolicy
