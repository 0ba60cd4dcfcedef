import RoundRobin.Lib.IpText

/-!
# RoundRobin.Lib.Ipv6Text — the canonical text of an IPv6 address

`Display` of `Ipv6Addr` in the Rust standard library: lower-case groups without leading zeros, the longest run of
zero groups written `::`, and an IPv4-mapped address with its dotted quad.  Whatever the address, its text is read
back by `from_str`, and it is no IPv4 address (`ipv6FromStr_display`).
-/

namespace RoundRobin.IpText

/-! ## The format -/

/-- `{:x}` of a `u16`. -/
def lowerHex (g : UInt16) : List Char := Nat.toDigits 16 g.toNat

/-- A run of groups. -/
structure Span where
  start : ℕ
  len : ℕ
  deriving DecidableEq, Repr

/-- The loop over the groups from number `i` on, for the longest run of zeros. -/
def zeroes : ℕ → Span → Span → List UInt16 → Span
  | _, longest, _, [] => longest
  | i, longest, current, segment :: rest =>
    if segment = 0 then
      let current : Span := ⟨if current.len = 0 then i else current.start, current.len + 1⟩
      zeroes (i + 1) (if longest.len < current.len then current else longest) current rest
    else zeroes (i + 1) longest ⟨0, 0⟩ rest

/-- The groups with colons between them. -/
def fmtSubslice : List UInt16 → List Char
  | [] => []
  | first :: tail => lowerHex first ++ tail.flatMap fun segment => ':' :: lowerHex segment

namespace Ipv6Addr

def toIpv4Mapped (ip : Ipv6Addr) : Option Ipv4Addr :=
  match ip.octets with
  | [0, 0, 0, 0, 0, 0, 0, 0, 0, 0, 0xff, 0xff, a, b, c, d] => some ⟨a, b, c, d⟩
  | _ => none

/-- `to_string`. -/
def display (ip : Ipv6Addr) : String :=
  match ip.toIpv4Mapped with
  | some ipv4 => "::ffff:" ++ dottedQuad ipv4
  | none =>
    let segments := List.ofFn ip.segments
    let z := zeroes 0 ⟨0, 0⟩ ⟨0, 0⟩ segments
    if 1 < z.len then
      String.ofList (fmtSubslice (segments.take z.start) ++
        ':' :: ':' :: fmtSubslice (segments.drop (z.start + z.len)))
    else String.ofList (fmtSubslice segments)

end Ipv6Addr

/-! ## The longest run -/

/-- The groups of a span are there, and they are zero. -/
def Span.Zero (z : Span) (l : List UInt16) : Prop :=
  ∃ pre post, l = pre ++ List.replicate z.len 0 ++ post ∧ pre.length = z.start

theorem Span.Zero.append {z : Span} {l : List UInt16} (h : z.Zero l) (more : List UInt16) : z.Zero (l ++ more) := by
  obtain ⟨pre, post, rfl, hlen⟩ := h
  exact ⟨pre, post ++ more, by rw [List.append_assoc], hlen⟩

/-- Over the groups before, the longest run is one, and the current one is at the end. -/
theorem zeroes_zero {i : ℕ} {longest current : Span} {before rest : List UInt16} (hi : before.length = i)
    (hl : longest.Zero before)
    (hc : current.len = 0 ∨ ∃ pre, before = pre ++ List.replicate current.len 0 ∧ pre.length = current.start) :
    (zeroes i longest current rest).Zero (before ++ rest) := by
  induction rest generalizing i longest current before with
  | nil =>
    rw [List.append_nil]
    exact hl
  | cons segment rest ih =>
    have hsplit : before ++ segment :: rest = (before ++ [segment]) ++ rest := by simp
    have hi' : (before ++ [segment]).length = i + 1 := by rw [List.length_append, List.length_singleton, hi]
    rw [hsplit, zeroes]
    by_cases hz : segment = 0
    · subst hz
      rw [if_pos rfl]
      -- the run that ends here
      have hcur : ∃ pre, before ++ [0] = pre ++ List.replicate (current.len + 1) 0 ∧
          pre.length = if current.len = 0 then i else current.start := by
        by_cases h0 : current.len = 0
        · rw [if_pos h0, h0]
          exact ⟨before, rfl, hi⟩
        · rw [if_neg h0]
          obtain ⟨pre, hpre, hlen⟩ := hc.resolve_left h0
          refine ⟨pre, ?_, hlen⟩
          rw [hpre, List.replicate_succ', List.append_assoc]
      refine ih hi' ?_ (.inr hcur)
      show Span.Zero (if longest.len < current.len + 1 then _ else longest) _
      by_cases hlt : longest.len < current.len + 1
      · rw [if_pos hlt]
        obtain ⟨pre, hpre, hlen⟩ := hcur
        exact ⟨pre, [], by rw [List.append_nil, hpre], hlen⟩
      · rw [if_neg hlt]
        exact hl.append [0]
    · rw [if_neg hz]
      exact ih hi' (hl.append [segment]) (.inl rfl)

/-- The groups before the longest run and those behind it. -/
theorem zeroes_split (segments : List UInt16) :
    let z := zeroes 0 ⟨0, 0⟩ ⟨0, 0⟩ segments
    segments = segments.take z.start ++ List.replicate z.len 0 ++ segments.drop (z.start + z.len) ∧
      (segments.take z.start).length = z.start := by
  intro z
  obtain ⟨pre, post, h, hlen⟩ := @zeroes_zero 0 ⟨0, 0⟩ ⟨0, 0⟩ [] segments rfl ⟨[], [], rfl, rfl⟩ (.inl rfl)
  rw [List.nil_append] at h
  have hz : z.start = pre.length := hlen.symm
  have htake : segments.take z.start = pre := by rw [h, hz, List.append_assoc, List.take_left]
  have hdrop : segments.drop (z.start + z.len) = post := by
    rw [h, hz, List.drop_left' (by rw [List.length_append, List.length_replicate])]
  rw [htake, hdrop]
  exact ⟨h, hlen⟩

/-! ## Groups without leading zeros -/

/-- The hex digits of a number below 65536. -/
def hexDigitsOf (n : ℕ) : List ℕ :=
  if n < 16 then [n] else if n < 256 then [n / 16, n % 16]
  else if n < 4096 then [n / 256, n / 16 % 16, n % 16]
  else [n / 4096, n / 256 % 16, n / 16 % 16, n % 16]

theorem toDigits_hex {n : ℕ} (h : n < 65536) : Nat.toDigits 16 n = (hexDigitsOf n).map Nat.digitChar := by
  unfold hexDigitsOf
  by_cases h1 : n < 16
  · rw [if_pos h1, Nat.toDigits_of_lt_base h1]
    rfl
  rw [if_neg h1, Nat.toDigits_of_base_le (by decide) (by omega)]
  by_cases h2 : n < 256
  · rw [if_pos h2, Nat.toDigits_of_lt_base (by omega)]
    rfl
  rw [if_neg h2, Nat.toDigits_of_base_le (by decide) (by omega), Nat.div_div_eq_div_mul]
  by_cases h3 : n < 4096
  · rw [if_pos h3, Nat.toDigits_of_lt_base (by omega)]
    rfl
  rw [if_neg h3, Nat.toDigits_of_base_le (by decide) (by omega), Nat.div_div_eq_div_mul,
    Nat.toDigits_of_lt_base (by omega)]
  rfl

theorem hexDigitsOf_lt {n : ℕ} (h : n < 65536) {d : ℕ} (hd : d ∈ hexDigitsOf n) : d < 16 := by
  unfold hexDigitsOf at hd
  split_ifs at hd <;> simp at hd <;> omega

theorem valueOf_hexDigitsOf {n : ℕ} (h : n < 65536) : valueOf 16 0 (hexDigitsOf n) = n := by
  unfold hexDigitsOf
  split_ifs
  all_goals
    simp only [valueOf, List.foldl_cons, List.foldl_nil]
    omega

theorem length_hexDigitsOf (n : ℕ) : 0 < (hexDigitsOf n).length ∧ (hexDigitsOf n).length ≤ 4 := by
  unfold hexDigitsOf
  split_ifs <;> simp

/-- The text of a group. -/
def lowerBytes (g : UInt16) : List UInt8 := (lowerHex g).map Char.toUInt8

theorem lowerBytes_eq (g : UInt16) : lowerBytes g = (hexDigitsOf g.toNat).map digitByte := by
  rw [lowerBytes, lowerHex, toDigits_hex g.toNat_lt, List.map_map]
  rfl

theorem readNumber_lower (g : UInt16) {rest : List UInt8} (hrest : ∀ c ∈ rest.head?, toDigit 16 c = none) :
    readNumber 16 65536 4 true (lowerBytes g ++ rest) = some (g.toNat, rest) := by
  have hg := g.toNat_lt
  have hpre : (lowerBytes g).map (toDigit 16) = (hexDigitsOf g.toNat).map some := by
    rw [lowerBytes_eq, List.map_map]
    exact List.map_congr_left fun d hd => toDigit_digitByte (hexDigitsOf_lt hg hd)
  have hlen := length_hexDigitsOf g.toNat
  have hrun := @readNumber_run 16 65536 4 true _ rest _ (by decide) hpre hrest hlen.2
    (by rw [valueOf_hexDigitsOf hg]; exact hg) (List.length_pos_iff.mp hlen.1) (.inl rfl)
  rwa [valueOf_hexDigitsOf hg] at hrun

/-- An IPv4 address needs a dot behind its first digits. -/
theorem readIpv4Addr_digits {ds : List ℕ} {rest : List UInt8} (hd : ∀ d ∈ ds, d < 16)
    (hrest : ∀ c ∈ rest.head?, c = 58) : readIpv4Addr (ds.map digitByte ++ rest) = none := by
  rw [readIpv4Addr, Option.bind_eq_none_iff]
  rintro ⟨n, rest'⟩ h
  rw [readOctet, readSeparator, if_neg (Nat.lt_irrefl 0)] at h
  obtain ⟨⟨n', k, rest''⟩, hrun, hr⟩ := Option.bind_eq_some_iff.mp h
  simp only at hr
  split_ifs at hr
  obtain ⟨rfl, rfl⟩ : n' = n ∧ rest'' = rest' := by simpa using hr
  obtain ⟨pre, ds', hbs, hpre, -⟩ := readDigits_spec hrun
  -- what is left starts with a digit, with a colon, or not at all
  have hhead : ∀ c ∈ rest''.head?, c ≠ 46 := by
    intro c hc
    have hmem : c ∈ ds.map digitByte ∨ c ∈ rest.head? := by
      rcases List.append_eq_append_iff.mp hbs with ⟨a, rfl, rfl⟩ | ⟨a, ha, rfl⟩
      · cases a with
        | nil => exact .inr hc
        | cons b a =>
          -- the colon is no digit
          obtain rfl := hrest b rfl
          have hcolon : toDigit 10 58 ∈ ds'.map some := by
            rw [← hpre]
            exact List.mem_map_of_mem (List.mem_append_right _ List.mem_cons_self)
          obtain ⟨d, -, hd⟩ := List.mem_map.mp hcolon
          cases hd
      · cases a with
        | nil => exact .inr hc
        | cons b a =>
          obtain rfl : b = c := by simpa using hc
          exact .inl (ha ▸ List.mem_append_right _ List.mem_cons_self)
    rcases hmem with hmem | hmem
    · obtain ⟨d, hds, rfl⟩ := List.mem_map.mp hmem
      exact (digitByte_ne (hd d hds)).1
    · rw [hrest c hmem]
      decide
  have hno : readOctet 1 rest'' = none := by
    rw [readOctet, readSeparator, if_pos Nat.one_pos, Option.bind_eq_none_iff]
    intro bs hbs
    cases rest'' with
    | nil => cases hbs
    | cons c tl =>
      rw [readGivenChar, if_neg (hhead c rfl)] at hbs
      cases hbs
  simp [hno]

theorem readIpv4Addr_lower (g : UInt16) {rest : List UInt8} (hrest : ∀ c ∈ rest.head?, c = 58) :
    readIpv4Addr (lowerBytes g ++ rest) = none := by
  rw [lowerBytes_eq]
  exact readIpv4Addr_digits (fun d hd => hexDigitsOf_lt g.toNat_lt hd) hrest

/-! ## Runs of groups -/

/-- The text of groups from slot `i` on. -/
def groupsText : ℕ → List UInt16 → List UInt8
  | _, [] => []
  | i, g :: gs => (if 0 < i then [58] else []) ++ lowerBytes g ++ groupsText (i + 1) gs

theorem readSeparator_text {α : Type} (i : ℕ) (inner : List UInt8 → Option (α × List UInt8)) (bs : List UInt8) :
    readSeparator 58 i inner ((if 0 < i then [58] else []) ++ bs) = inner bs := by
  unfold readSeparator
  by_cases hi : 0 < i
  · rw [if_pos hi, if_pos hi]
    rfl
  · rw [if_neg hi, if_neg hi]
    rfl

theorem groupsText_head {i : ℕ} (hi : 0 < i) (gs : List UInt16) {rest : List UInt8}
    (hrest : ∀ c ∈ rest.head?, c = 58) : ∀ c ∈ (groupsText i gs ++ rest).head?, c = 58 := by
  cases gs with
  | nil => exact hrest
  | cons g gs =>
    intro c hc
    rw [groupsText, if_pos hi] at hc
    exact (Option.some.inj hc).symm

theorem toDigit_colon {bs : List UInt8} (h : ∀ c ∈ bs.head?, c = 58) : ∀ c ∈ bs.head?, toDigit 16 c = none := by
  intro c hc
  rw [h c hc]
  rfl

/-- `read_groups` reads a run of groups and goes on behind it. -/
theorem readGroups_text (gs : List UInt16) (left i : ℕ) {rest : List UInt8} (hrest : ∀ c ∈ rest.head?, c = 58) :
    readGroups (gs.length + left) i (groupsText i gs ++ rest) =
      (gs ++ (readGroups left (i + gs.length) rest).1, (readGroups left (i + gs.length) rest).2) := by
  induction gs generalizing i with
  | nil => rw [List.length_nil, Nat.zero_add]; rfl
  | cons g gs ih =>
    have hhead := @groupsText_head (i + 1) i.succ_pos gs rest hrest
    have hslots : (g :: gs).length + left = (gs.length + left) + 1 := by rw [List.length_cons]; omega
    have hindex : i + (g :: gs).length = i + 1 + gs.length := by rw [List.length_cons]; omega
    rw [hslots, hindex, groupsText, List.append_assoc, List.append_assoc, readGroups, readSeparator_text,
      readIpv4Addr_lower g hhead, ite_self]
    simp only
    rw [readSeparator_text, readNumber_lower g (toDigit_colon hhead)]
    simp only [ih, List.cons_append, UInt16.ofNat_toNat]

/-- What ends a run of groups: the end of the text, or two colons. -/
theorem readGroups_stop (left i : ℕ) {rest : List UInt8} (h : rest = [] ∨ ∃ bs, rest = 58 :: 58 :: bs) :
    readGroups left i rest = ([], false, rest) := by
  have hno : ∀ {α : Type} (inner : List UInt8 → Option (α × List UInt8)), inner [] = none →
      (∀ bs, inner (58 :: bs) = none) → readSeparator 58 i inner rest = none := by
    intro α inner hnil hcolon
    unfold readSeparator
    rcases h with rfl | ⟨bs, rfl⟩
    · split_ifs
      · rfl
      · exact hnil
    · split_ifs
      · exact hcolon _
      · exact hcolon _
  cases left with
  | zero => rfl
  | succ left =>
    rw [readGroups, hno readIpv4Addr rfl fun _ => rfl, ite_self]
    simp only
    rw [hno (readNumber 16 65536 4 true) rfl fun _ => rfl]

/-! ## The text read back -/

theorem bytesOf_append (s t : String) : bytesOf (s ++ t) = bytesOf s ++ bytesOf t := by
  simp [bytesOf, String.toUTF8_eq_toByteArray, String.toByteArray_append]

theorem lowerHex_ascii {g : UInt16} {c : Char} (h : c ∈ lowerHex g) : c.toNat < 128 := by
  rw [lowerHex, toDigits_hex g.toNat_lt] at h
  obtain ⟨d, hd, rfl⟩ := List.mem_map.mp h
  exact digitChar_ascii (hexDigitsOf_lt g.toNat_lt hd)

theorem fmtSubslice_ascii {gs : List UInt16} {c : Char} (h : c ∈ fmtSubslice gs) : c.toNat < 128 := by
  cases gs with
  | nil => cases h
  | cons g gs =>
    rcases List.mem_append.mp h with h | h
    · exact lowerHex_ascii h
    · obtain ⟨g', -, h⟩ := List.mem_flatMap.mp h
      rcases List.mem_cons.mp h with rfl | h
      · decide
      · exact lowerHex_ascii h

theorem fmtSubslice_bytes (gs : List UInt16) : (fmtSubslice gs).map Char.toUInt8 = groupsText 0 gs := by
  have htail : ∀ (gs : List UInt16) (i : ℕ),
      (gs.flatMap fun g => ':' :: lowerHex g).map Char.toUInt8 = groupsText (i + 1) gs := by
    intro gs
    induction gs with
    | nil => exact fun _ => rfl
    | cons g gs ih =>
      intro i
      rw [List.flatMap_cons, List.map_append, ih (i + 1), groupsText, if_pos i.succ_pos]
      rfl
  cases gs with
  | nil => rfl
  | cons g gs =>
    rw [fmtSubslice, List.map_append, htail gs 0]
    rfl

theorem bytesOf_fmtSubslice (gs : List UInt16) : bytesOf (String.ofList (fmtSubslice gs)) = groupsText 0 gs := by
  rw [bytesOf_ascii fun c hc => fmtSubslice_ascii hc, fmtSubslice_bytes]

theorem bytesOf_compressed (pre post : List UInt16) :
    bytesOf (String.ofList (fmtSubslice pre ++ ':' :: ':' :: fmtSubslice post)) =
      groupsText 0 pre ++ 58 :: 58 :: groupsText 0 post := by
  have hcolon : ':'.toNat < 128 := by decide
  rw [bytesOf_ascii, List.map_append, List.map_cons, List.map_cons, fmtSubslice_bytes, fmtSubslice_bytes]
  · rfl
  · intro c hc
    simp only [List.mem_append, List.mem_cons] at hc
    rcases hc with hc | rfl | rfl | hc
    · exact fmtSubslice_ascii hc
    · exact hcolon
    · exact hcolon
    · exact fmtSubslice_ascii hc

/-- Eight groups. -/
theorem readIpv6Addr_text {gs : List UInt16} (h : gs.length = 8) :
    readIpv6Addr (groupsText 0 gs) = some (.ofSegments gs, []) := by
  have hread := @readGroups_text gs 0 0 [] (by simp)
  rw [List.append_nil, h] at hread
  rw [readIpv6Addr, hread]
  simp [readGroups, h]

/-- Two colons stand for at least one group. -/
theorem readIpv6Addr_compressed {pre post : List UInt16} (h : pre.length + post.length < 8) :
    readIpv6Addr (groupsText 0 pre ++ 58 :: 58 :: groupsText 0 post) =
      some (.ofSegments (pre ++ List.replicate (8 - pre.length - post.length) 0 ++ post), []) := by
  have hhead := @readGroups_text pre (8 - pre.length) 0 (58 :: 58 :: groupsText 0 post)
    (fun c hc => (Option.some.inj hc).symm)
  rw [readGroups_stop _ _ (.inr ⟨_, rfl⟩), List.append_nil, Nat.add_sub_cancel' (by omega)] at hhead
  have htail := @readGroups_text post (8 - (pre.length + 1) - post.length) 0 [] (by simp)
  rw [readGroups_stop _ _ (.inl rfl), List.append_nil, List.append_nil, Nat.add_sub_cancel' (by omega),
    show 8 - (pre.length + 1) = 7 - pre.length by omega] at htail
  have hne : pre.length ≠ 8 := by omega
  simp [readIpv6Addr, hhead, hne, readGivenChar, htail]

/-- `::ffff:` and a dotted quad. -/
theorem readIpv6Addr_mapped (ip : Ipv4Addr) :
    readIpv6Addr (bytesOf "::ffff:" ++ quadBytes ip) =
      some (.ofSegments [0, 0, 0, 0, 0, 0xffff, be16 ip.a ip.b, be16 ip.c ip.d], []) := by
  have htext : bytesOf "::ffff:" ++ quadBytes ip = 58 :: 58 :: (groupsText 0 [0xffff] ++ 58 :: quadBytes ip) := rfl
  have hhead := readGroups_stop 8 0 (.inr ⟨_, htext⟩)
  have hquad := @readIpv4Addr_quadBytes ip [] (by simp)
  rw [List.append_nil] at hquad
  have hlast : readGroups 6 1 (58 :: quadBytes ip) = ([be16 ip.a ip.b, be16 ip.c ip.d], true, []) := by
    rw [readGroups, if_pos (by decide), readSeparator, if_pos Nat.one_pos, readGivenChar, if_pos rfl,
      Option.bind_some, hquad]
  have htail := @readGroups_text [0xffff] 6 0 (58 :: quadBytes ip) (fun c hc => (Option.some.inj hc).symm)
  rw [show 0 + [(0xffff : UInt16)].length = 1 from rfl, hlast] at htail
  rw [htext] at hhead
  have htail' : readGroups 7 0 (groupsText 0 [0xffff] ++ 58 :: quadBytes ip) =
      ([0xffff, be16 ip.a ip.b, be16 ip.c ip.d], true, []) := htail
  rw [htext, readIpv6Addr, hhead]
  simp [readGivenChar, htail']

theorem pairs_flatMap_pair (l : List UInt16) :
    (pairs (l.flatMap Ipv6Addr.pair)).map (fun g => be16 g.1 g.2) = l := by
  induction l with
  | nil => rfl
  | cons g l ih =>
    rw [List.flatMap_cons, Ipv6Addr.pair]
    simp only [List.cons_append, List.nil_append, pairs, List.map_cons, ih, be16_pair]

theorem ofSegments_segments (ip : Ipv6Addr) : Ipv6Addr.ofSegments (List.ofFn ip.segments) = ip := by
  obtain ⟨f⟩ := ip
  refine congrArg Ipv6Addr.mk (funext fun i => ?_)
  show (List.ofFn f).getD i 0 = f i
  have hi : (i : ℕ) < (List.ofFn f).length := by rw [List.length_ofFn]; exact i.isLt
  rw [List.getD_eq_getElem?_getD, List.getElem?_eq_getElem hi, Option.getD_some, List.getElem_ofFn]

theorem segments_of_mapped {ip : Ipv6Addr} {v4 : Ipv4Addr} (h : ip.toIpv4Mapped = some v4) :
    List.ofFn ip.segments = [0, 0, 0, 0, 0, 0xffff, be16 v4.a v4.b, be16 v4.c v4.d] := by
  have hseg : (pairs ip.octets).map (fun g => be16 g.1 g.2) = List.ofFn ip.segments :=
    pairs_flatMap_pair (List.ofFn ip.segments)
  unfold Ipv6Addr.toIpv4Mapped at h
  split at h
  · rename_i a b c d ho
    obtain rfl := Option.some.inj h
    rw [← hseg, ho]
    rfl
  · cases h

/-- A colon rules out a dotted quad. -/
theorem ipv4FromStr_colon {s : String} (h : 58 ∈ bytesOf s) : ipv4FromStr s = none := by
  cases hs : ipv4FromStr s with
  | none => rfl
  | some ip =>
    rw [dottedQuad_of_ipv4FromStr hs, bytesOf_dottedQuad] at h
    have hno : ∀ b : UInt8, (58 : UInt8) ∉ octetBytes b := by
      intro b hb
      have hlt := b.toNat_lt
      rw [octetBytes_eq] at hb
      obtain ⟨d, hd, hd58⟩ := List.mem_map.mp hb
      have := decDigits_lt (by omega) hd
      exact (digitByte_ne (by omega)).2 hd58
    simp [quadBytes, hno] at h

/-- What an IPv4 address is read from is its dotted quad. -/
theorem readIpv4Addr_eq {bs rest : List UInt8} {ip : Ipv4Addr} (h : readIpv4Addr bs = some (ip, rest)) :
    bs = quadBytes ip ++ rest := by
  obtain ⟨r₁, h₁, h⟩ := Option.bind_eq_some_iff.mp h
  obtain ⟨r₂, h₂, h⟩ := Option.bind_eq_some_iff.mp h
  obtain ⟨r₃, h₃, h⟩ := Option.bind_eq_some_iff.mp h
  obtain ⟨r₄, h₄, h⟩ := Option.bind_eq_some_iff.mp h
  obtain ⟨rfl, rfl⟩ := Prod.mk.inj (Option.some.inj h)
  rw [readNumber_octet_eq h₁, readOctet_succ_eq h₂, readOctet_succ_eq h₃, readOctet_succ_eq h₄]
  simp [quadBytes]

theorem length_quadBytes_le (ip : Ipv4Addr) : (quadBytes ip).length ≤ 15 := by
  have ha := length_octetBytes_le ip.a
  have hb := length_octetBytes_le ip.b
  have hc := length_octetBytes_le ip.c
  have hd := length_octetBytes_le ip.d
  simp only [quadBytes, List.length_append, List.length_cons]
  omega

/-- **A text that starts with an IPv4 address is no IPv6 address.** -/
theorem readIpv6Addr_of_ipv4 {bs rest : List UInt8} {ip : Ipv4Addr} (h : readIpv4Addr bs = some (ip, rest)) :
    readIpv6Addr bs = none := by
  have hgroups : readGroups 8 0 bs = ([be16 ip.a ip.b, be16 ip.c ip.d], true, rest) := by
    have hfirst : readSeparator 58 0 readIpv4Addr bs = some (ip, rest) := h
    rw [readGroups, if_pos (by omega), hfirst]
  rw [readIpv6Addr, hgroups]
  rfl

theorem colon_mem_groupsText {gs : List UInt16} (h : 2 ≤ gs.length) : 58 ∈ groupsText 0 gs := by
  match gs, h with
  | g :: g' :: gs, _ =>
    simp [groupsText]

/-- **The text of an IPv6 address is read back**, and nobody takes it for an IPv4 address. -/
theorem ipv6FromStr_display (ip : Ipv6Addr) :
    ipv6FromStr ip.display = some ip ∧ ipv4FromStr ip.display = none := by
  have hlen : (List.ofFn ip.segments).length = 8 := List.length_ofFn
  have hback := ofSegments_segments ip
  unfold Ipv6Addr.display
  cases hm : ip.toIpv4Mapped with
  | some v4 =>
    have hbytes : bytesOf ("::ffff:" ++ dottedQuad v4) = bytesOf "::ffff:" ++ quadBytes v4 := by
      rw [bytesOf_append, bytesOf_dottedQuad]
    refine ⟨?_, ipv4FromStr_colon ?_⟩
    · rw [ipv6FromStr, parseWith, hbytes, readIpv6Addr_mapped, ← segments_of_mapped hm, hback]
    · rw [hbytes]
      exact List.mem_append_left _ List.mem_cons_self
  | none =>
    generalize List.ofFn ip.segments = segments at *
    obtain ⟨hsplit, hstart⟩ := zeroes_split segments
    simp only
    generalize zeroes 0 ⟨0, 0⟩ ⟨0, 0⟩ segments = z at *
    by_cases hz : 1 < z.len
    · rw [if_pos hz]
      have hsum := congrArg List.length hsplit
      rw [List.length_append, List.length_append, List.length_replicate, hlen, hstart] at hsum
      refine ⟨?_, ipv4FromStr_colon ?_⟩
      · rw [ipv6FromStr, parseWith, bytesOf_compressed, readIpv6Addr_compressed (by omega), hstart,
          show 8 - z.start - (segments.drop (z.start + z.len)).length = z.len by omega, ← hsplit, hback]
      · rw [bytesOf_compressed]
        exact List.mem_append_right _ List.mem_cons_self
    · rw [if_neg hz]
      refine ⟨?_, ipv4FromStr_colon ?_⟩
      · rw [ipv6FromStr, parseWith, bytesOf_fmtSubslice, readIpv6Addr_text hlen, hback]
      · rw [bytesOf_fmtSubslice]
        exact colon_mem_groupsText (by omega)

end RoundRobin.IpText
