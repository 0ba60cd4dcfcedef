import Mathlib.Data.List.Basic
import Mathlib.Tactic.IntervalCases

/-!
# RoundRobin.Lib.IpText — IP addresses as text

The parser behind `Ipv4Addr::from_str` and `Ipv6Addr::from_str` of the Rust standard library, and two of the
formats it reads: the dotted quad, and eight colon-separated groups of four hex digits.  A reader takes a byte string to a
value and the bytes it left; one that fails consumes nothing.

Both formats are read back (`ipv4FromStr_dottedQuad`, `ipv6FromStr_colonGroups`).  The dotted quad is the
only text of an IPv4 address (`dottedQuad_of_ipv4FromStr`), an IPv6 address has many.
-/

namespace RoundRobin.IpText

/-- The UTF-8 bytes of a string. -/
def bytesOf (s : String) : List UInt8 := s.toUTF8.data.toList

structure Ipv4Addr where
  a : UInt8
  b : UInt8
  c : UInt8
  d : UInt8
  deriving DecidableEq, Repr

namespace Ipv4Addr

def octets (ip : Ipv4Addr) : List UInt8 := [ip.a, ip.b, ip.c, ip.d]

@[simp] theorem length_octets (ip : Ipv4Addr) : ip.octets.length = 4 := rfl

end Ipv4Addr

structure Ipv6Addr where
  segments : Fin 8 → UInt16

namespace Ipv6Addr

/-- `From<[u16; 8]>`, for an array given by its first elements, the others being 0. -/
def ofSegments (l : List UInt16) : Ipv6Addr := ⟨fun i => l.getD i 0⟩

/-- A 16-bit number, big-endian. -/
def pair (g : UInt16) : List UInt8 := [UInt8.ofNat (g.toNat / 256), UInt8.ofNat g.toNat]

def octets (ip : Ipv6Addr) : List UInt8 := (List.ofFn ip.segments).flatMap pair

@[simp] theorem length_octets (ip : Ipv6Addr) : ip.octets.length = 16 := by
  simp [octets, pair]

end Ipv6Addr

/-! ## The parser -/

/-- `char::to_digit`. -/
def toDigit (radix : ℕ) (b : UInt8) : Option ℕ :=
  let n := b.toNat
  let d :=
    if 48 ≤ n ∧ n ≤ 57 then n - 48
    else if 97 ≤ n ∧ n ≤ 122 then n - 87
    else if 65 ≤ n ∧ n ≤ 90 then n - 55
    else radix
  if d < radix then some d else none

/-- The loop of `read_number`: the value, the number of digits and the rest.  It fails when the value
leaves the type (`bound`) or there are more than `maxDigits` digits. -/
def readDigits (radix bound maxDigits : ℕ) : ℕ → ℕ → List UInt8 → Option (ℕ × ℕ × List UInt8)
  | acc, count, [] => some (acc, count, [])
  | acc, count, b :: bs =>
    match toDigit radix b with
    | none => some (acc, count, b :: bs)
    | some d =>
      if bound ≤ acc * radix then none
      else if bound ≤ acc * radix + d then none
      else if maxDigits < count + 1 then none
      else readDigits radix bound maxDigits (acc * radix + d) (count + 1) bs

def readNumber (radix bound maxDigits : ℕ) (allowZeroPrefix : Bool) (bs : List UInt8) :
    Option (ℕ × List UInt8) :=
  let hasLeadingZero := bs.head? == some 48
  (readDigits radix bound maxDigits 0 0 bs).bind fun r =>
    if r.2.1 = 0 then none
    else if !allowZeroPrefix && hasLeadingZero && decide (1 < r.2.1) then none
    else some (r.1, r.2.2)

def readGivenChar (c : UInt8) : List UInt8 → Option (List UInt8)
  | [] => none
  | b :: bs => if b = c then some bs else none

/-- `inner`, after a separator unless this is the first item. -/
def readSeparator {α : Type} (sep : UInt8) (index : ℕ) (inner : List UInt8 → Option (α × List UInt8))
    (bs : List UInt8) : Option (α × List UInt8) :=
  if 0 < index then (readGivenChar sep bs).bind inner else inner bs

/-- One group of an IPv4 address; octal looking numbers are refused. -/
def readOctet (index : ℕ) (bs : List UInt8) : Option (ℕ × List UInt8) :=
  readSeparator 46 index (readNumber 10 256 3 false) bs

def readIpv4Addr (bs : List UInt8) : Option (Ipv4Addr × List UInt8) :=
  (readOctet 0 bs).bind fun r₁ =>
  (readOctet 1 r₁.2).bind fun r₂ =>
  (readOctet 2 r₂.2).bind fun r₃ =>
  (readOctet 3 r₃.2).bind fun r₄ =>
    some (⟨UInt8.ofNat r₁.1, UInt8.ofNat r₂.1, UInt8.ofNat r₃.1, UInt8.ofNat r₄.1⟩, r₄.2)

/-- `u16::from_be_bytes`. -/
def be16 (hi lo : UInt8) : UInt16 := UInt16.ofNat (hi.toNat * 256 + lo.toNat)

/-- The loop of `read_groups` with `left` slots to fill, at slot `index`: the groups, whether they end in
an embedded IPv4 address, and the rest. -/
def readGroups : ℕ → ℕ → List UInt8 → List UInt16 × Bool × List UInt8
  | 0, _, bs => ([], false, bs)
  | left + 1, index, bs =>
    -- an embedded IPv4 address takes two slots
    match if 1 ≤ left then readSeparator 58 index readIpv4Addr bs else none with
    | some (ip, rest) => ([be16 ip.a ip.b, be16 ip.c ip.d], true, rest)
    | none =>
      match readSeparator 58 index (readNumber 16 65536 4 true) bs with
      | none => ([], false, bs)
      | some (g, rest) =>
        let r := readGroups left (index + 1) rest
        (UInt16.ofNat g :: r.1, r.2)

def readIpv6Addr (bs : List UInt8) : Option (Ipv6Addr × List UInt8) :=
  let head := readGroups 8 0 bs
  if head.1.length = 8 then some (.ofSegments head.1, head.2.2)
  else if head.2.1 then none
  else
    (readGivenChar 58 head.2.2).bind fun rest =>
    (readGivenChar 58 rest).bind fun rest =>
      let tail := readGroups (8 - (head.1.length + 1)) 0 rest
      let zeros := List.replicate (8 - head.1.length - tail.1.length) 0
      some (.ofSegments (head.1 ++ zeros ++ tail.1), tail.2.2)

/-- All of the text has to be read. -/
def parseWith {α : Type} (inner : List UInt8 → Option (α × List UInt8)) (bs : List UInt8) : Option α :=
  match inner bs with
  | some (a, []) => some a
  | _ => none

def ipv4FromStr (s : String) : Option Ipv4Addr :=
  if 15 < (bytesOf s).length then none else parseWith readIpv4Addr (bytesOf s)

def ipv6FromStr (s : String) : Option Ipv6Addr := parseWith readIpv6Addr (bytesOf s)

/-! ## The formats -/

/-- `{}` of a `u8`. -/
def decimal (b : UInt8) : List Char := Nat.toDigits 10 b.toNat

/-- `{}.{}.{}.{}`. -/
def dottedQuad (ip : Ipv4Addr) : String :=
  String.ofList (decimal ip.a ++ '.' :: (decimal ip.b ++ '.' :: (decimal ip.c ++ '.' :: decimal ip.d)))

/-- `{:02x}` of a `u8`. -/
def hexPair (b : UInt8) : List Char := [(b.toNat / 16).digitChar, (b.toNat % 16).digitChar]

/-- `{:02x}{:02x}` of the two octets of every group. -/
def hexGroups : List UInt8 → List (List Char)
  | hi :: lo :: rest => (hexPair hi ++ hexPair lo) :: hexGroups rest
  | _ => []

/-- The groups joined by `:`. -/
def colonGroups (octets : List UInt8) : String := String.ofList ([':'].intercalate (hexGroups octets))

/-! ## ASCII text -/

theorem bytesOf_ofList (cs : List Char) : bytesOf (String.ofList cs) = cs.flatMap String.utf8EncodeChar := by
  rw [bytesOf, String.toUTF8_eq_toByteArray, String.toByteArray_ofList, List.utf8Encode,
    List.toList_data_toByteArray]

theorem bytesOf_ascii {cs : List Char} (h : ∀ c ∈ cs, c.toNat < 128) :
    bytesOf (String.ofList cs) = cs.map Char.toUInt8 := by
  rw [bytesOf_ofList]
  induction cs with
  | nil => rfl
  | cons c cs ih =>
    have hc : c.utf8Size = 1 := by
      rw [Char.utf8Size_eq_one_iff, UInt32.le_iff_toNat_le]
      exact Nat.le_of_lt_succ (h c List.mem_cons_self)
    rw [List.flatMap_cons, String.utf8EncodeChar_eq_singleton hc,
      ih fun d hd => h d (List.mem_cons_of_mem _ hd)]
    rfl

theorem bytesOf_injective {s t : String} (h : bytesOf s = bytesOf t) : s = t := by
  have hd : s.toByteArray.data = t.toByteArray.data := Array.toList_inj.mp h
  exact String.toByteArray_inj.mp (ByteArray.ext hd)

theorem fromUTF8?_bytesOf (s : String) : String.fromUTF8? ⟨(bytesOf s).toArray⟩ = some s := by
  have hback : (⟨(bytesOf s).toArray⟩ : ByteArray) = s.toByteArray := ByteArray.ext Array.toArray_toList
  rw [hback, String.fromUTF8?, dif_pos s.isValidUTF8]
  rfl

theorem bytesOf_fromUTF8? {bs : List UInt8} {s : String} (h : String.fromUTF8? ⟨bs.toArray⟩ = some s) :
    bytesOf s = bs := by
  unfold String.fromUTF8? at h
  split_ifs at h
  obtain rfl := Option.some.inj h
  rfl

/-! ## Digits -/

/-- The byte of a digit. -/
def digitByte (d : ℕ) : UInt8 := d.digitChar.toUInt8

theorem digitChar_ascii {d : ℕ} (h : d < 16) : d.digitChar.toNat < 128 := by
  interval_cases d <;> decide

theorem toDigit_digitByte {d : ℕ} (h : d < 16) : toDigit 16 (digitByte d) = some d := by
  interval_cases d <;> rfl

theorem toDigit_ten_digitByte {d : ℕ} (h : d < 10) : toDigit 10 (digitByte d) = some d := by
  interval_cases d <;> rfl

theorem digitByte_ne {d : ℕ} (h : d < 16) : digitByte d ≠ 46 ∧ digitByte d ≠ 58 := by
  interval_cases d <;> decide

theorem digitByte_ne_zero {d : ℕ} (h0 : d ≠ 0) (h : d < 10) : digitByte d ≠ 48 := by
  interval_cases d <;> first | exact absurd rfl h0 | decide

theorem toDigit_ten {b : UInt8} {d : ℕ} (h : toDigit 10 b = some d) : d < 10 ∧ b = digitByte d := by
  have hb : b = UInt8.ofNat b.toNat := UInt8.ofNat_toNat.symm
  simp only [toDigit] at h
  split_ifs at h with h1 h2 h3 h4
  all_goals first | omega | skip
  obtain rfl := Option.some.inj h
  refine ⟨h2, ?_⟩
  obtain ⟨hlo, hhi⟩ := h1
  generalize b.toNat = n at *
  subst hb
  interval_cases n <;> rfl

/-! ## Numbers -/

/-- The value of a digit string behind `acc`. -/
def valueOf (radix acc : ℕ) (ds : List ℕ) : ℕ := ds.foldl (fun a d => a * radix + d) acc

theorem le_valueOf {radix : ℕ} (hr : 1 ≤ radix) (acc : ℕ) (ds : List ℕ) : acc ≤ valueOf radix acc ds := by
  induction ds generalizing acc with
  | nil => exact le_rfl
  | cons d ds ih =>
    calc acc ≤ acc * radix := Nat.le_mul_of_pos_right acc hr
      _ ≤ acc * radix + d := Nat.le_add_right _ d
      _ ≤ valueOf radix acc (d :: ds) := ih _

/-- What the loop of `read_number` read. -/
theorem readDigits_spec {radix bound maxDigits acc count n k : ℕ} {bs rest : List UInt8}
    (h : readDigits radix bound maxDigits acc count bs = some (n, k, rest)) :
    ∃ pre ds, bs = pre ++ rest ∧ pre.map (toDigit radix) = ds.map some ∧ n = valueOf radix acc ds ∧
      k = count + ds.length ∧ (count ≤ maxDigits → k ≤ maxDigits) ∧ (acc < bound → n < bound) := by
  induction bs generalizing acc count with
  | nil =>
    obtain ⟨rfl, rfl, rfl⟩ : acc = n ∧ count = k ∧ [] = rest := by simpa [readDigits] using h
    exact ⟨[], [], rfl, rfl, rfl, rfl, id, id⟩
  | cons b bs ih =>
    simp only [readDigits] at h
    cases hd : toDigit radix b with
    | none =>
      rw [hd] at h
      obtain ⟨rfl, rfl, rfl⟩ : acc = n ∧ count = k ∧ b :: bs = rest := by simpa using h
      exact ⟨[], [], rfl, rfl, rfl, rfl, id, id⟩
    | some d =>
      rw [hd] at h
      simp only at h
      split_ifs at h with h1 h2 h3
      obtain ⟨pre, ds, rfl, hpre, hn, hk, hmax, hlt⟩ := ih h
      refine ⟨b :: pre, d :: ds, rfl, by simp [hd, hpre], hn, ?_, fun _ => hmax (by omega),
        fun _ => hlt (by omega)⟩
      rw [hk, List.length_cons]
      omega

/-- The loop reads a digit string up to something that is no digit. -/
theorem readDigits_run {radix bound maxDigits acc count : ℕ} {pre rest : List UInt8} {ds : List ℕ}
    (hr : 1 ≤ radix) (hpre : pre.map (toDigit radix) = ds.map some)
    (hrest : ∀ b ∈ rest.head?, toDigit radix b = none) (hlen : count + ds.length ≤ maxDigits)
    (hval : valueOf radix acc ds < bound) :
    readDigits radix bound maxDigits acc count (pre ++ rest) =
      some (valueOf radix acc ds, count + ds.length, rest) := by
  induction ds generalizing pre acc count with
  | nil =>
    obtain rfl : pre = [] := by simpa using hpre
    cases rest with
    | nil => rfl
    | cons b rest => simp [readDigits, hrest b rfl, valueOf]
  | cons d ds ih =>
    cases pre with
    | nil => simp at hpre
    | cons b pre =>
      simp only [List.map_cons, List.cons.injEq] at hpre
      have hle := le_valueOf hr (acc * radix + d) ds
      have hlt : acc * radix + d < bound := lt_of_le_of_lt hle hval
      rw [List.length_cons] at hlen
      rw [List.cons_append, readDigits, hpre.1]
      simp only
      rw [if_neg (by omega), if_neg (by omega), if_neg (by omega),
        ih hpre.2 (by omega) hval, List.length_cons]
      simp only [valueOf, List.foldl_cons]
      congr 3
      omega

/-- A number of one to four hex digits, or the like. -/
theorem readNumber_run {radix bound maxDigits : ℕ} {zeroPrefix : Bool} {pre rest : List UInt8}
    {ds : List ℕ} (hr : 1 ≤ radix) (hpre : pre.map (toDigit radix) = ds.map some)
    (hrest : ∀ b ∈ rest.head?, toDigit radix b = none) (hlen : ds.length ≤ maxDigits)
    (hval : valueOf radix 0 ds < bound) (hne : ds ≠ [])
    (hzero : zeroPrefix = true ∨ pre.head? ≠ some 48 ∨ ds.length = 1) :
    readNumber radix bound maxDigits zeroPrefix (pre ++ rest) = some (valueOf radix 0 ds, rest) := by
  have hrun := @readDigits_run radix bound maxDigits 0 0 pre rest ds hr hpre hrest (by omega) hval
  have hpos : 0 < ds.length := List.length_pos_iff.mpr hne
  have hhead : (pre ++ rest).head? = pre.head? := by
    cases pre with
    | nil => cases ds <;> simp_all
    | cons b pre => rfl
  rw [readNumber, hrun, hhead, Nat.zero_add]
  simp only [Option.bind_some]
  rw [if_neg (by omega), if_neg]
  rcases hzero with h | h | h
  · simp [h]
  · simp [h]
  · simp [h]

/-! ## The dotted quad -/

/-- The decimal digits of a number below 1000. -/
def decDigits (n : ℕ) : List ℕ :=
  if n < 10 then [n] else if n < 100 then [n / 10, n % 10] else [n / 100, n / 10 % 10, n % 10]

theorem toDigits_eq {n : ℕ} (h : n < 1000) : Nat.toDigits 10 n = (decDigits n).map Nat.digitChar := by
  unfold decDigits
  by_cases h1 : n < 10
  · rw [if_pos h1, Nat.toDigits_of_lt_base h1]
    rfl
  · rw [if_neg h1, Nat.toDigits_of_base_le (by decide) (by omega)]
    by_cases h2 : n < 100
    · rw [if_pos h2, Nat.toDigits_of_lt_base (by omega)]
      rfl
    · rw [if_neg h2, Nat.toDigits_of_base_le (by decide) (by omega), Nat.toDigits_of_lt_base (by omega),
        Nat.div_div_eq_div_mul]
      rfl

theorem valueOf_decDigits {n : ℕ} (h : n < 1000) : valueOf 10 0 (decDigits n) = n := by
  unfold decDigits
  split_ifs
  · simp [valueOf]
  · simp only [valueOf, List.foldl_cons, List.foldl_nil]
    omega
  · simp only [valueOf, List.foldl_cons, List.foldl_nil]
    omega

theorem decDigits_lt {n : ℕ} (h : n < 1000) {d : ℕ} (hd : d ∈ decDigits n) : d < 10 := by
  unfold decDigits at hd
  split_ifs at hd <;> simp at hd <;> omega

/-- One to three digits without a leading zero are the digits of their value. -/
theorem decDigits_valueOf {ds : List ℕ} (hd : ∀ d ∈ ds, d < 10) (hne : ds ≠ []) (hlen : ds.length ≤ 3)
    (hzero : ds.head? ≠ some 0 ∨ ds.length = 1) : decDigits (valueOf 10 0 ds) = ds := by
  match ds, hne with
  | [a], _ =>
    have := hd a (by simp)
    simp [valueOf, decDigits, this]
  | [a, b], _ =>
    have ha := hd a (by simp)
    have hb := hd b (by simp)
    have h0 : a ≠ 0 := by simpa using hzero
    have hv : valueOf 10 0 [a, b] = a * 10 + b := by simp [valueOf]
    rw [hv, decDigits, if_neg (by omega), if_pos (by omega)]
    congr 2 <;> omega
  | [a, b, c], _ =>
    have ha := hd a (by simp)
    have hb := hd b (by simp)
    have hc := hd c (by simp)
    have h0 : a ≠ 0 := by simpa using hzero
    have hv : valueOf 10 0 [a, b, c] = (a * 10 + b) * 10 + c := by simp [valueOf]
    rw [hv, decDigits, if_neg (by omega), if_neg (by omega)]
    congr 3 <;> omega
  | _ :: _ :: _ :: _ :: _, _ =>
    simp only [List.length_cons] at hlen
    omega

/-- The text of an octet. -/
def octetBytes (b : UInt8) : List UInt8 := (decimal b).map Char.toUInt8

theorem octetBytes_eq (b : UInt8) : octetBytes b = (decDigits b.toNat).map digitByte := by
  have := b.toNat_lt
  rw [octetBytes, decimal, toDigits_eq (by omega), List.map_map]
  rfl

theorem toDigit_octetBytes (b : UInt8) :
    (octetBytes b).map (toDigit 10) = (decDigits b.toNat).map some := by
  have hb := b.toNat_lt
  rw [octetBytes_eq, List.map_map]
  refine List.map_congr_left fun d hd => ?_
  exact toDigit_ten_digitByte (decDigits_lt (by omega) hd)

theorem readNumber_octet (b : UInt8) {rest : List UInt8} (hrest : ∀ c ∈ rest.head?, toDigit 10 c = none) :
    readNumber 10 256 3 false (octetBytes b ++ rest) = some (b.toNat, rest) := by
  have hb := b.toNat_lt
  have hval := @valueOf_decDigits b.toNat (by omega)
  have hrun := @readNumber_run 10 256 3 false (octetBytes b) rest (decDigits b.toNat) (by decide)
    (toDigit_octetBytes b) hrest ?_ (by rw [hval]; omega) ?_ ?_
  · rwa [hval] at hrun
  · unfold decDigits
    split_ifs <;> simp
  · unfold decDigits
    split_ifs <;> simp
  · rw [octetBytes_eq]
    unfold decDigits
    split_ifs with h1 h2
    · simp
    · simpa using digitByte_ne_zero (show b.toNat / 10 ≠ 0 by omega) (by omega)
    · simpa using digitByte_ne_zero (show b.toNat / 100 ≠ 0 by omega) (by omega)

theorem digits_eq {pre : List UInt8} {ds : List ℕ} (h : pre.map (toDigit 10) = ds.map some) :
    pre = ds.map digitByte ∧ ∀ d ∈ ds, d < 10 := by
  induction pre generalizing ds with
  | nil =>
    obtain rfl : ds = [] := by simpa using h.symm
    simp
  | cons b pre ih =>
    cases ds with
    | nil => simp at h
    | cons d ds =>
      simp only [List.map_cons, List.cons.injEq] at h
      obtain ⟨hlt, rfl⟩ := toDigit_ten h.1
      obtain ⟨rfl, hds⟩ := ih h.2
      refine ⟨rfl, fun d' hd' => ?_⟩
      rcases List.mem_cons.mp hd' with rfl | hd'
      · exact hlt
      · exact hds d' hd'

/-- The only text of an octet. -/
theorem readNumber_octet_eq {bs rest : List UInt8} {n : ℕ} (h : readNumber 10 256 3 false bs = some (n, rest)) :
    bs = octetBytes (UInt8.ofNat n) ++ rest := by
  obtain ⟨⟨n', k, rest'⟩, hrun, hr⟩ := Option.bind_eq_some_iff.mp h
  simp only at hr
  split_ifs at hr with hk hzero
  obtain ⟨rfl, rfl⟩ : n' = n ∧ rest' = rest := by simpa using hr
  obtain ⟨pre, ds, rfl, hpre, hn, hlen, hmax, hbound⟩ := readDigits_spec hrun
  have hlt : n' < 256 := hbound (by omega)
  have hmax := hmax (by omega)
  obtain ⟨rfl, hds⟩ := digits_eq hpre
  have hne : ds ≠ [] := by
    rintro rfl
    simp at hlen
    omega
  have hdec : decDigits n' = ds := by
    rw [hn]
    refine decDigits_valueOf hds hne (by omega) ?_
    by_contra hno
    simp only [not_or, not_not] at hno
    obtain ⟨h0, h1⟩ := hno
    refine hzero ?_
    cases ds with
    | nil => exact absurd rfl hne
    | cons d ds =>
      obtain rfl : d = 0 := by simpa using h0
      have : 1 < k := by
        simp only [List.length_cons] at hlen h1
        omega
      have hzeroByte : digitByte 0 = 48 := rfl
      simp [this, hzeroByte]
  rw [octetBytes_eq, UInt8.toNat_ofNat', Nat.mod_eq_of_lt hlt, hdec]

/-- The text of an IPv4 address. -/
def quadBytes (ip : Ipv4Addr) : List UInt8 :=
  octetBytes ip.a ++ 46 :: (octetBytes ip.b ++ 46 :: (octetBytes ip.c ++ 46 :: octetBytes ip.d))

theorem decimal_ascii {b : UInt8} {c : Char} (h : c ∈ decimal b) : c.toNat < 128 := by
  have hb := b.toNat_lt
  rw [decimal, toDigits_eq (by omega)] at h
  obtain ⟨d, hd, rfl⟩ := List.mem_map.mp h
  have := decDigits_lt (by omega) hd
  exact digitChar_ascii (by omega)

theorem bytesOf_dottedQuad (ip : Ipv4Addr) : bytesOf (dottedQuad ip) = quadBytes ip := by
  rw [dottedQuad, bytesOf_ascii]
  · simp only [List.map_append, List.map_cons]
    rfl
  · have hdot : '.'.toNat < 128 := by decide
    simp only [List.mem_append, List.mem_cons]
    rintro c (h | rfl | h | rfl | h | rfl | h)
    all_goals first | exact decimal_ascii h | exact hdot

theorem readOctet_zero (b : UInt8) {rest : List UInt8} (hrest : ∀ c ∈ rest.head?, toDigit 10 c = none) :
    readOctet 0 (octetBytes b ++ rest) = some (b.toNat, rest) :=
  readNumber_octet b hrest

theorem readOctet_succ (i : ℕ) (b : UInt8) {rest : List UInt8}
    (hrest : ∀ c ∈ rest.head?, toDigit 10 c = none) :
    readOctet (i + 1) (46 :: (octetBytes b ++ rest)) = some (b.toNat, rest) := by
  rw [readOctet, readSeparator, if_pos (Nat.succ_pos i)]
  exact readNumber_octet b hrest

theorem readIpv4Addr_quadBytes (ip : Ipv4Addr) {rest : List UInt8}
    (hrest : ∀ c ∈ rest.head?, toDigit 10 c = none) :
    readIpv4Addr (quadBytes ip ++ rest) = some (ip, rest) := by
  have hdot : ∀ (bs : List UInt8), ∀ c ∈ (46 :: bs).head?, toDigit 10 c = none := by
    intro bs c hc
    obtain rfl : 46 = c := by simpa using hc
    rfl
  simp only [quadBytes, List.append_assoc, List.cons_append, readIpv4Addr]
  rw [readOctet_zero _ (hdot _), Option.bind_some, readOctet_succ _ _ (hdot _), Option.bind_some,
    readOctet_succ _ _ (hdot _), Option.bind_some, readOctet_succ _ _ hrest, Option.bind_some]
  simp

theorem length_octetBytes_le (b : UInt8) : (octetBytes b).length ≤ 3 := by
  rw [octetBytes_eq]
  unfold decDigits
  split_ifs <;> simp

/-- **The dotted quad is read back.** -/
theorem ipv4FromStr_dottedQuad (ip : Ipv4Addr) : ipv4FromStr (dottedQuad ip) = some ip := by
  have ha := length_octetBytes_le ip.a
  have hb := length_octetBytes_le ip.b
  have hc := length_octetBytes_le ip.c
  have hd := length_octetBytes_le ip.d
  have hread := @readIpv4Addr_quadBytes ip [] (by simp)
  rw [List.append_nil] at hread
  rw [ipv4FromStr, bytesOf_dottedQuad, if_neg, parseWith, hread]
  simp only [quadBytes, List.length_append, List.length_cons]
  omega

theorem readOctet_succ_eq {i n : ℕ} {bs rest : List UInt8} (h : readOctet (i + 1) bs = some (n, rest)) :
    bs = 46 :: (octetBytes (UInt8.ofNat n) ++ rest) := by
  rw [readOctet, readSeparator, if_pos (Nat.succ_pos i)] at h
  obtain ⟨bs', hsep, hnum⟩ := Option.bind_eq_some_iff.mp h
  cases bs with
  | nil => cases hsep
  | cons b bs =>
    simp only [readGivenChar] at hsep
    split_ifs at hsep with hb
    obtain rfl := Option.some.inj hsep
    rw [hb, readNumber_octet_eq hnum]

/-- **The dotted quad is the only text of an IPv4 address.** -/
theorem dottedQuad_of_ipv4FromStr {s : String} {ip : Ipv4Addr} (h : ipv4FromStr s = some ip) :
    s = dottedQuad ip := by
  rw [ipv4FromStr] at h
  split_ifs at h
  unfold parseWith at h
  split at h
  · rename_i a hread
    obtain rfl := Option.some.inj h
    obtain ⟨r₁, h₁, hread⟩ := Option.bind_eq_some_iff.mp hread
    obtain ⟨r₂, h₂, hread⟩ := Option.bind_eq_some_iff.mp hread
    obtain ⟨r₃, h₃, hread⟩ := Option.bind_eq_some_iff.mp hread
    obtain ⟨r₄, h₄, hread⟩ := Option.bind_eq_some_iff.mp hread
    obtain ⟨rfl, hrest⟩ := Prod.mk.inj (Option.some.inj hread)
    apply bytesOf_injective
    rw [bytesOf_dottedQuad, readNumber_octet_eq h₁, readOctet_succ_eq h₂, readOctet_succ_eq h₃,
      readOctet_succ_eq h₄, hrest, List.append_nil]
    rfl
  · cases h

/-! ## Eight groups of hex digits -/

/-- The text of two octets in hex. -/
def groupBytes (hi lo : UInt8) : List UInt8 := (hexPair hi ++ hexPair lo).map Char.toUInt8

/-- The four digits of a group. -/
def hexDigits (hi lo : UInt8) : List ℕ :=
  [hi.toNat / 16, hi.toNat % 16, lo.toNat / 16, lo.toNat % 16]

theorem hexDigits_lt {hi lo : UInt8} {d : ℕ} (h : d ∈ hexDigits hi lo) : d < 16 := by
  have h1 := hi.toNat_lt
  have h2 := lo.toNat_lt
  simp only [hexDigits, List.mem_cons, List.not_mem_nil, or_false] at h
  omega

theorem groupBytes_eq (hi lo : UInt8) : groupBytes hi lo = (hexDigits hi lo).map digitByte := rfl

theorem valueOf_hexDigits (hi lo : UInt8) : valueOf 16 0 (hexDigits hi lo) = hi.toNat * 256 + lo.toNat := by
  simp only [valueOf, hexDigits, List.foldl_cons, List.foldl_nil]
  omega

theorem readNumber_group (hi lo : UInt8) {rest : List UInt8}
    (hrest : ∀ c ∈ rest.head?, toDigit 16 c = none) :
    readNumber 16 65536 4 true (groupBytes hi lo ++ rest) = some (hi.toNat * 256 + lo.toNat, rest) := by
  have h1 := hi.toNat_lt
  have h2 := lo.toNat_lt
  have hpre : (groupBytes hi lo).map (toDigit 16) = (hexDigits hi lo).map some := by
    rw [groupBytes_eq, List.map_map]
    exact List.map_congr_left fun d hd => toDigit_digitByte (hexDigits_lt hd)
  have hrun := @readNumber_run 16 65536 4 true _ rest _ (by decide) hpre hrest le_rfl
    (by rw [valueOf_hexDigits]; omega) nofun (.inl rfl)
  rwa [valueOf_hexDigits] at hrun

/-- No IPv4 address starts with a group: its first dot is missing. -/
theorem readIpv4Addr_group (hi lo : UInt8) (rest : List UInt8) :
    readIpv4Addr (groupBytes hi lo ++ rest) = none := by
  rw [readIpv4Addr, Option.bind_eq_none_iff]
  rintro ⟨n, rest'⟩ h
  rw [readOctet, readSeparator, if_neg (Nat.lt_irrefl 0)] at h
  obtain ⟨⟨n', k, rest''⟩, hrun, hr⟩ := Option.bind_eq_some_iff.mp h
  simp only at hr
  split_ifs at hr with hk hzero
  obtain ⟨rfl, rfl⟩ : n' = n ∧ rest'' = rest' := by simpa using hr
  obtain ⟨pre, ds, hbs, hpre, -, hlen, hmax, -⟩ := readDigits_spec hrun
  have hmax := hmax (by omega)
  have hprelen : pre.length = ds.length := by simpa using congrArg List.length hpre
  -- what is left starts with a hex digit
  have hhead : ∃ d < 16, ∃ tl, rest'' = digitByte d :: tl := by
    have hdrop : rest'' = (groupBytes hi lo ++ rest).drop pre.length := by
      rw [hbs, List.drop_left]
    rw [groupBytes_eq, List.drop_append_of_le_length (by simp [hexDigits]; omega), ← List.map_drop] at hdrop
    obtain ⟨d, tl, hd⟩ : ∃ d tl, (hexDigits hi lo).drop pre.length = d :: tl := by
      refine List.exists_cons_of_ne_nil fun hnil => ?_
      have := congrArg List.length hnil
      simp [hexDigits] at this
      omega
    refine ⟨d, hexDigits_lt (List.mem_of_mem_drop (by rw [hd]; exact List.mem_cons_self)), tl.map digitByte ++ rest, ?_⟩
    rw [hdrop, hd, List.map_cons, List.cons_append]
  obtain ⟨d, hd, tl, rfl⟩ := hhead
  have hno : readOctet 1 (digitByte d :: tl) = none := by
    rw [readOctet, readSeparator, if_pos (by decide), readGivenChar, if_neg (digitByte_ne hd).1]
    rfl
  simp [hno]

/-- The groups after the first one, each behind its colon. -/
def moreGroups (gs : List (UInt8 × UInt8)) : List UInt8 := gs.flatMap fun g => 58 :: groupBytes g.1 g.2

theorem moreGroups_head (gs : List (UInt8 × UInt8)) : ∀ c ∈ (moreGroups gs).head?, toDigit 16 c = none := by
  cases gs with
  | nil => simp [moreGroups]
  | cons g gs =>
    intro c hc
    obtain rfl : 58 = c := by simpa [moreGroups] using hc
    rfl

theorem readGroups_more (gs : List (UInt8 × UInt8)) (i : ℕ) :
    readGroups gs.length (i + 1) (moreGroups gs) = (gs.map fun g => be16 g.1 g.2, false, []) := by
  induction gs generalizing i with
  | nil => rfl
  | cons g gs ih =>
    have hcons : moreGroups (g :: gs) = 58 :: (groupBytes g.1 g.2 ++ moreGroups gs) := rfl
    have hno : (if 1 ≤ gs.length then readSeparator 58 (i + 1) readIpv4Addr (moreGroups (g :: gs))
        else none) = none := by
      split_ifs
      · rw [readSeparator, if_pos (Nat.succ_pos i), hcons, readGivenChar, if_pos rfl, Option.bind_some,
          readIpv4Addr_group]
      · rfl
    rw [List.length_cons, readGroups, hno]
    simp only
    rw [readSeparator, if_pos (Nat.succ_pos i), hcons, readGivenChar, if_pos rfl, Option.bind_some,
      readNumber_group _ _ (moreGroups_head gs)]
    simp only [ih, List.map_cons]
    rfl

theorem readIpv6Addr_groups (g : UInt8 × UInt8) {gs : List (UInt8 × UInt8)} (h : gs.length = 7) :
    readIpv6Addr (groupBytes g.1 g.2 ++ moreGroups gs) =
      some (.ofSegments ((g :: gs).map fun g => be16 g.1 g.2), []) := by
  have hread : readGroups 8 0 (groupBytes g.1 g.2 ++ moreGroups gs) =
      ((g :: gs).map fun g => be16 g.1 g.2, false, []) := by
    rw [show (8 : ℕ) = gs.length + 1 by omega, readGroups]
    rw [if_pos (by omega), readSeparator, if_neg (Nat.lt_irrefl 0), readIpv4Addr_group]
    simp only
    rw [readSeparator, if_neg (Nat.lt_irrefl 0), readNumber_group _ _ (moreGroups_head gs)]
    simp only [readGroups_more, List.map_cons]
    rfl
  simp [readIpv6Addr, hread, h]

/-! ## Octets and groups -/

/-- The octets taken two by two. -/
def pairs : List UInt8 → List (UInt8 × UInt8)
  | hi :: lo :: rest => (hi, lo) :: pairs rest
  | _ => []

theorem hexGroups_eq (octets : List UInt8) :
    hexGroups octets = (pairs octets).map fun g => hexPair g.1 ++ hexPair g.2 := by
  induction octets using pairs.induct with
  | case1 hi lo rest ih => simp [hexGroups, pairs, ih]
  | case2 octets h => cases octets with
    | nil => rfl
    | cons a l => cases l with
      | nil => rfl
      | cons b l => exact absurd rfl (h a b l)

theorem pair_be16 (hi lo : UInt8) : Ipv6Addr.pair (be16 hi lo) = [hi, lo] := by
  have h1 := hi.toNat_lt
  have h2 := lo.toNat_lt
  have hv : (be16 hi lo).toNat = hi.toNat * 256 + lo.toNat := by
    rw [be16, UInt16.toNat_ofNat']
    omega
  rw [Ipv6Addr.pair, hv]
  congr 1
  · apply UInt8.toNat_inj.mp
    rw [UInt8.toNat_ofNat']
    omega
  · congr 1
    apply UInt8.toNat_inj.mp
    rw [UInt8.toNat_ofNat']
    omega

theorem be16_pair (g : UInt16) : be16 (UInt8.ofNat (g.toNat / 256)) (UInt8.ofNat g.toNat) = g := by
  have hg := g.toNat_lt
  apply UInt16.toNat_inj.mp
  rw [be16, UInt16.toNat_ofNat', UInt8.toNat_ofNat', UInt8.toNat_ofNat']
  omega

theorem ofSegments_octets {l : List UInt16} (h : l.length = 8) :
    (Ipv6Addr.ofSegments l).octets = l.flatMap Ipv6Addr.pair := by
  have hl : List.ofFn (Ipv6Addr.ofSegments l).segments = l := by
    refine List.ext_getElem (by rw [List.length_ofFn, h]) fun i h1 h2 => ?_
    rw [List.getElem_ofFn]
    exact (List.getD_eq_getElem?_getD).trans (by rw [List.getElem?_eq_getElem h2, Option.getD_some])
  rw [Ipv6Addr.octets, hl]

theorem pairs_spec {octets : List UInt8} {n : ℕ} (h : octets.length = 2 * n) :
    (pairs octets).length = n ∧ ((pairs octets).flatMap fun g => [g.1, g.2]) = octets := by
  induction n generalizing octets with
  | zero =>
    obtain rfl : octets = [] := List.length_eq_zero_iff.mp h
    exact ⟨rfl, rfl⟩
  | succ n ih =>
    match octets, h with
    | hi :: lo :: rest, h =>
      have hrest : rest.length = 2 * n := by
        simp only [List.length_cons] at h
        omega
      obtain ⟨hlen, hflat⟩ := ih hrest
      exact ⟨congrArg Nat.succ hlen, congrArg (fun l => hi :: lo :: l) hflat⟩

theorem hexPair_ascii {b : UInt8} {c : Char} (h : c ∈ hexPair b) : c.toNat < 128 := by
  have hb := b.toNat_lt
  simp only [hexPair, List.mem_cons, List.not_mem_nil, or_false] at h
  rcases h with rfl | rfl
  · exact digitChar_ascii (by omega)
  · exact digitChar_ascii (by omega)

theorem bytesOf_colonGroups {octets : List UInt8} {g : UInt8 × UInt8} {gs : List (UInt8 × UInt8)}
    (h : pairs octets = g :: gs) :
    bytesOf (colonGroups octets) = groupBytes g.1 g.2 ++ moreGroups gs := by
  have hjoin : ∀ (gs : List (UInt8 × UInt8)) (g : UInt8 × UInt8),
      [':'].intercalate ((g :: gs).map fun g => hexPair g.1 ++ hexPair g.2) =
        hexPair g.1 ++ hexPair g.2 ++ gs.flatMap fun g => ':' :: (hexPair g.1 ++ hexPair g.2) := by
    intro gs
    induction gs with
    | nil => simp
    | cons g' gs ih =>
      intro g
      have hg' := ih g'
      rw [List.map_cons] at hg'
      rw [List.map_cons, List.map_cons, List.intercalate_cons_cons, hg', List.flatMap_cons]
      simp
  have hcolon : ':'.toNat < 128 := by decide
  have hpair : ∀ (g : UInt8 × UInt8), ∀ c ∈ hexPair g.1 ++ hexPair g.2, c.toNat < 128 := by
    intro g c hc
    rcases List.mem_append.mp hc with hc | hc
    · exact hexPair_ascii hc
    · exact hexPair_ascii hc
  rw [colonGroups, hexGroups_eq, h, hjoin, bytesOf_ascii]
  · rw [List.map_append, List.map_flatMap]
    rfl
  · intro c hc
    rcases List.mem_append.mp hc with hc | hc
    · exact hpair g c hc
    · obtain ⟨g', -, hc⟩ := List.mem_flatMap.mp hc
      rcases List.mem_cons.mp hc with rfl | hc
      · exact hcolon
      · exact hpair g' c hc

theorem length_moreGroups (gs : List (UInt8 × UInt8)) : (moreGroups gs).length = 5 * gs.length := by
  induction gs with
  | nil => rfl
  | cons g gs ih =>
    have hcons : moreGroups (g :: gs) = 58 :: (groupBytes g.1 g.2 ++ moreGroups gs) := rfl
    rw [hcons, List.length_cons, List.length_append, ih, groupBytes_eq]
    simp only [List.length_map, hexDigits, List.length_cons, List.length_nil]
    omega

/-- The groups of 16 octets. -/
theorem pairs_of_octets {octets : List UInt8} (h : octets.length = 16) :
    ∃ g gs, pairs octets = g :: gs ∧ gs.length = 7 := by
  have hlen := (@pairs_spec octets 8 h).1
  obtain ⟨g, gs, hgs⟩ := List.exists_cons_of_length_pos (show 0 < (pairs octets).length by omega)
  rw [hgs, List.length_cons] at hlen
  exact ⟨g, gs, hgs, by omega⟩

theorem length_colonGroups {octets : List UInt8} (h : octets.length = 16) :
    (bytesOf (colonGroups octets)).length = 39 := by
  obtain ⟨g, gs, hgs, hlen⟩ := pairs_of_octets h
  rw [bytesOf_colonGroups hgs, List.length_append, length_moreGroups, hlen]
  rfl

/-- **Eight groups of four hex digits are read back.**  They are no IPv4 address. -/
theorem ipv6FromStr_colonGroups {octets : List UInt8} (h : octets.length = 16) :
    ipv4FromStr (colonGroups octets) = none ∧
      ∃ ip, ipv6FromStr (colonGroups octets) = some ip ∧ ip.octets = octets := by
  obtain ⟨g, gs, hgs, hlen⟩ := pairs_of_octets h
  have hread := @readIpv6Addr_groups g gs hlen
  refine ⟨?_, .ofSegments ((g :: gs).map fun g => be16 g.1 g.2), ?_, ?_⟩
  · rw [ipv4FromStr, if_pos]
    rw [length_colonGroups h]
    decide
  · rw [ipv6FromStr, parseWith, bytesOf_colonGroups hgs, hread]
  · rw [ofSegments_octets (by simp [hlen]), List.flatMap_map, ← hgs]
    simp only [pair_be16]
    exact (@pairs_spec octets 8 h).2

end RoundRobin.IpText
