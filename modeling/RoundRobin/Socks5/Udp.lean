import RoundRobin.Socks5

/-!
# RoundRobin.Socks5.Udp — datagrams of a UDP association

`encode_udp_datagram`, `decode_udp_datagram` and `parse_udp_address` of `src/socks5.rs`.  The decoder
works on a slice: an index or a range outside of it is a fault, which is something else than an error.
`decodeUdpDatagram_eq` says what the decoder does with every byte string, the fault never being it.
-/

namespace RoundRobin.Socks5

open BigEndian IpText

/-! ## The codec -/

def encodeUdpDatagram (target : TargetAddr) (data : Bytes) : Except Socks5Error Bytes :=
  match encodeAddress target.address target.port with
  | .error e => .error e
  | .ok addr => .ok ([0, 0, 0] ++ addr ++ data)

/-- A computation on slices: `none` is a fault. -/
abbrev Checked := ExceptT Socks5Error Option

/-- `bs[i]`. -/
def index (bs : Bytes) (i : ℕ) : Checked UInt8 := ExceptT.mk (bs[i]?.map .ok)

/-- `bs[lo..hi]`. -/
def slice (bs : Bytes) (lo hi : ℕ) : Checked Bytes :=
  ExceptT.mk (if lo ≤ hi ∧ hi ≤ bs.length then some (.ok ((bs.take hi).drop lo)) else none)

def parseUdpAddress (atyp : UInt8) (data : Bytes) : Checked (String × UInt16 × ℕ) :=
  if atyp = atypIpv4 then
    if data.length < 7 then throw .truncatedIpv4
    else do
      let addr := dottedQuad ⟨← index data 1, ← index data 2, ← index data 3, ← index data 4⟩
      let port := be16 (← index data 5) (← index data 6)
      return (addr, port, 7)
  else if atyp = atypDomain then
    if data.length < 2 then throw .truncatedDomain
    else do
      let len := (← index data 1).toNat
      if len = 0 then throw .emptyDomain
      else if data.length < 4 + len then throw .truncatedDomainData
      else
        let addr ← fromUtf8 (← slice data 2 (2 + len))
        let port := be16 (← index data (2 + len)) (← index data (3 + len))
        return (addr, port, 4 + len)
  else if atyp = atypIpv6 then
    if data.length < 19 then throw .truncatedIpv6
    else do
      let addr := colonGroups (← slice data 1 17)
      let port := be16 (← index data 17) (← index data 18)
      return (addr, port, 19)
  else throw (.unsupportedDatagramAtyp atyp)

def decodeUdpDatagram (payload : Bytes) : Checked (TargetAddr × Bytes) :=
  if payload.length < 4 then throw .datagramTooShort
  else do
    let frag ← index payload 2
    if frag ≠ 0 then throw .fragmented
    else
      let atyp ← index payload 3
      let addrData ← slice payload 3 payload.length
      let (addr, port, consumed) ← parseUdpAddress atyp addrData
      let data ← slice payload (3 + consumed) payload.length
      return (⟨addr, port⟩, data)

/-! ## Slices -/

theorem index_at {bs a c : Bytes} {x : UInt8} {i : ℕ} (h : bs = a ++ x :: c) (hi : a.length = i) :
    index bs i = (pure x : Checked UInt8) := by
  subst h hi
  simp only [index, List.getElem?_append_right le_rfl, Nat.sub_self, List.getElem?_cons_zero]
  rfl

theorem slice_at {bs a m c : Bytes} {lo hi : ℕ} (h : bs = a ++ (m ++ c)) (hlo : a.length = lo)
    (hhi : lo + m.length = hi) : slice bs lo hi = (pure m : Checked Bytes) := by
  subst h hlo hhi
  have hin : a.length ≤ a.length + m.length ∧ a.length + m.length ≤ (a ++ (m ++ c)).length := by
    simp only [List.length_append]
    omega
  have hcut : ((a ++ (m ++ c)).take (a.length + m.length)).drop a.length = m := by
    rw [← List.append_assoc, List.take_left' (List.length_append), List.drop_left]
  simp only [slice, if_pos hin, hcut]
  rfl

/-- A type byte, a field of `n` bytes and a port. -/
theorem split_field {data : Bytes} {n : ℕ} (h : n + 3 ≤ data.length) :
    ∃ t body p q rest, body.length = n ∧ data = t :: (body ++ p :: q :: rest) := by
  cases data with
  | nil =>
    simp only [List.length_nil] at h
    omega
  | cons t data =>
    rw [List.length_cons] at h
    obtain ⟨p, l, hp⟩ := List.exists_cons_of_length_pos (l := data.drop n)
      (by rw [List.length_drop]; omega)
    have hl : l.length + 1 = data.length - n := by rw [← List.length_drop, hp, List.length_cons]
    obtain ⟨q, rest, rfl⟩ := List.exists_cons_of_length_pos (show 0 < l.length by omega)
    refine ⟨t, data.take n, p, q, rest, by rw [List.length_take]; omega, ?_⟩
    rw [← hp, List.take_append_drop]

/-! ## One address -/

/-- The domain, if it is one, is not empty. -/
def AddrField.Nonempty : AddrField → Prop
  | .domain name _ => bytesOf name ≠ []
  | _ => True

/-- What the length byte of a domain says. -/
theorem AddrField.toNat_length {name : String} (h : (bytesOf name).length ≤ 255) :
    (UInt8.ofNat (bytesOf name).length).toNat = (bytesOf name).length := by
  rw [UInt8.toNat_ofNat', Nat.mod_eq_of_lt (by omega)]

/-- The two bytes of a port. -/
theorem beBytes_port (port : UInt16) :
    beBytes 2 port.toNat = [UInt8.ofNat (port.toNat / 256), UInt8.ofNat port.toNat] := by
  simp [beBytes]

theorem wire_append (F : AddrField) (port : UInt16) (rest : Bytes) :
    F.wire port ++ rest = F.atyp :: (F.body ++
      UInt8.ofNat (port.toNat / 256) :: UInt8.ofNat port.toNat :: rest) := by
  simp [AddrField.wire, beBytes_port]

theorem length_wire (F : AddrField) (port : UInt16) : (F.wire port).length = F.body.length + 3 := by
  rw [AddrField.wire, List.length_append, length_beBytes]
  rfl

/-- A whole field is parsed to its text. -/
theorem parseUdpAddress_wire {F : AddrField} (hF : F.Nonempty) (port : UInt16) (rest : Bytes) :
    parseUdpAddress F.atyp (F.wire port ++ rest) = pure (F.text, port, (F.wire port).length) := by
  have hport := be16_pair port
  rw [wire_append, length_wire]
  generalize UInt8.ofNat (port.toNat / 256) = p at *
  generalize UInt8.ofNat port.toNat = q at *
  subst hport
  -- the two bytes of the port, behind the field
  have hp : index (F.atyp :: (F.body ++ p :: q :: rest)) (F.body.length + 1) = pure p :=
    index_at (a := F.atyp :: F.body) rfl rfl
  have hq : index (F.atyp :: (F.body ++ p :: q :: rest)) (F.body.length + 2) = pure q :=
    index_at (a := F.atyp :: (F.body ++ [p])) (c := rest) (by simp) (by simp)
  have hlen : (F.atyp :: (F.body ++ p :: q :: rest)).length = F.body.length + 3 + rest.length := by
    simp only [List.length_cons, List.length_append]
    omega
  cases F with
  | ipv4 ip =>
    have hbody : (AddrField.ipv4 ip).body.length = 4 := rfl
    rw [parseUdpAddress, AddrField.atyp, if_pos rfl, if_neg (by rw [← AddrField.atyp, hlen]; omega)]
    rfl
  | domain name short =>
    have hne : atypDomain ≠ atypIpv4 := by decide
    have hbody : (AddrField.domain name short).body.length = (bytesOf name).length + 1 := rfl
    have hpos : (bytesOf name).length ≠ 0 := fun h0 => hF (List.length_eq_zero_iff.mp h0)
    have hl := AddrField.toNat_length short
    have hl1 : index (atypDomain :: ((AddrField.domain name short).body ++ p :: q :: rest)) 1 =
        pure (UInt8.ofNat (bytesOf name).length) := rfl
    have hs : slice (atypDomain :: ((AddrField.domain name short).body ++ p :: q :: rest)) 2
        (2 + (bytesOf name).length) = pure (bytesOf name) :=
      slice_at (a := [atypDomain, UInt8.ofNat (bytesOf name).length]) rfl rfl rfl
    have hu : (liftM (fromUtf8 (bytesOf name)) : Checked String) = pure name := by
      rw [fromUtf8, fromUTF8?_bytesOf]
      rfl
    rw [hbody] at hp hq hlen ⊢
    simp only [AddrField.atyp] at hp hq hlen ⊢
    rw [parseUdpAddress, if_neg hne, if_pos rfl, if_neg (by omega), hl1, pure_bind]
    simp only [hl]
    rw [if_neg hpos, if_neg (by omega), hs, pure_bind, hu, pure_bind,
      show 2 + (bytesOf name).length = (bytesOf name).length + 1 + 1 by omega, hp, pure_bind,
      show 3 + (bytesOf name).length = (bytesOf name).length + 1 + 2 by omega, hq, pure_bind,
      show 4 + (bytesOf name).length = (bytesOf name).length + 1 + 3 by omega]
    rfl
  | ipv6 octets hlen6 =>
    have h1 : atypIpv6 ≠ atypIpv4 := by decide
    have h3 : atypIpv6 ≠ atypDomain := by decide
    have hs : slice (atypIpv6 :: (octets ++ p :: q :: rest)) 1 17 = pure octets :=
      slice_at (a := [atypIpv6]) rfl rfl (by rw [hlen6])
    simp only [AddrField.body, AddrField.atyp, hlen6] at hp hq hlen ⊢
    rw [parseUdpAddress, if_neg h1, if_neg h3, if_pos rfl, if_neg (by omega), hs]
    simp only [pure_bind, hp, hq]
    rfl

/-- What an address parser can do with a slice that is not empty: there is a field at its head, or it is an error. -/
theorem parseUdpAddress_cases (atyp : UInt8) (tail : Bytes) :
    (∃ (F : AddrField) (port : UInt16) (rest : Bytes), F.Nonempty ∧ F.atyp = atyp ∧
      atyp :: tail = F.wire port ++ rest) ∨
    ∃ e, parseUdpAddress atyp (atyp :: tail) = throw e := by
  have hport : ∀ p q : UInt8, beBytes 2 (be16 p q).toNat = [p, q] := beBytes_be16
  by_cases h4 : atyp = atypIpv4
  · by_cases hlen : (atyp :: tail).length < 7
    · exact .inr ⟨.truncatedIpv4, by rw [parseUdpAddress, if_pos h4, if_pos hlen]⟩
    · obtain ⟨t, body, p, q, rest, hb, heq⟩ := @split_field (atyp :: tail) 4 (by omega)
      match body, hb with
      | [a, b, c, d], _ =>
        refine .inl ⟨.ipv4 ⟨a, b, c, d⟩, be16 p q, rest, trivial, h4.symm, ?_⟩
        rw [AddrField.wire, hport, heq, ← (List.cons.inj heq).1, h4]
        rfl
  · by_cases h3 : atyp = atypDomain
    · by_cases hlen : (atyp :: tail).length < 2
      · exact .inr ⟨.truncatedDomain, by rw [parseUdpAddress, if_neg h4, if_pos h3, if_pos hlen]⟩
      · obtain ⟨l, tail, rfl⟩ := List.exists_cons_of_length_pos (show 0 < tail.length by
          rw [List.length_cons] at hlen
          omega)
        have hl : index (atyp :: l :: tail) 1 = pure l := rfl
        have hl256 := l.toNat_lt
        by_cases h0 : l.toNat = 0
        · refine .inr ⟨.emptyDomain, ?_⟩
          rw [parseUdpAddress, if_neg h4, if_pos h3, if_neg hlen, hl, pure_bind]
          simp only [if_pos h0]
        by_cases hcut : (atyp :: l :: tail).length < 4 + l.toNat
        · refine .inr ⟨.truncatedDomainData, ?_⟩
          rw [parseUdpAddress, if_neg h4, if_pos h3, if_neg hlen, hl, pure_bind]
          simp only [if_neg h0, if_pos hcut]
        obtain ⟨t, name, p, q, rest, hb, heq⟩ := @split_field (l :: tail) l.toNat (by
          rw [List.length_cons] at hcut
          omega)
        have hs : slice (atyp :: l :: tail) 2 (2 + l.toNat) = pure name := by
          rw [heq, ← hb]
          exact slice_at (a := [atyp, t]) rfl rfl rfl
        cases hu : String.fromUTF8? ⟨name.toArray⟩ with
        | none =>
          refine .inr ⟨.utf8, ?_⟩
          rw [parseUdpAddress, if_neg h4, if_pos h3, if_neg hlen, hl, pure_bind]
          simp only [if_neg h0, if_neg hcut, hs, pure_bind, fromUtf8, hu]
          rfl
        | some address =>
          have hname := bytesOf_fromUTF8? hu
          have hshort : (bytesOf address).length ≤ 255 := by
            rw [hname]
            omega
          refine .inl ⟨.domain address hshort, be16 p q, rest, ?_, h3.symm, ?_⟩
          · show bytesOf address ≠ []
            rw [hname]
            rintro rfl
            exact h0 hb.symm
          · have hl8 : UInt8.ofNat name.length = l := by
              rw [hb]
              exact UInt8.ofNat_toNat
            rw [AddrField.wire, hport, heq, ← (List.cons.inj heq).1, h3]
            simp [AddrField.atyp, AddrField.body, hname, hl8]
    · by_cases h6 : atyp = atypIpv6
      · by_cases hlen : (atyp :: tail).length < 19
        · exact .inr ⟨.truncatedIpv6, by
            rw [parseUdpAddress, if_neg h4, if_neg h3, if_pos h6, if_pos hlen]⟩
        · obtain ⟨t, body, p, q, rest, hb, heq⟩ := @split_field (atyp :: tail) 16 (by omega)
          refine .inl ⟨.ipv6 body hb, be16 p q, rest, trivial, h6.symm, ?_⟩
          rw [AddrField.wire, hport, heq, ← (List.cons.inj heq).1, h6]
          simp [AddrField.atyp, AddrField.body]
      · exact .inr ⟨.unsupportedDatagramAtyp atyp, by
          rw [parseUdpAddress, if_neg h4, if_neg h3, if_neg h6]⟩

/-! ## Whole datagrams -/

/-- A datagram with a whole field is decoded to it. -/
theorem decodeUdpDatagram_wire {F : AddrField} (hF : F.Nonempty) (port : UInt16) (r₁ r₂ : UInt8)
    (data : Bytes) :
    decodeUdpDatagram ([r₁, r₂, 0] ++ (F.wire port ++ data)) = pure (⟨F.text, port⟩, data) := by
  have hlen := length_wire F port
  have htotal : ([r₁, r₂, 0] ++ (F.wire port ++ data)).length =
      3 + (F.wire port).length + data.length := by
    simp only [List.length_append, List.length_cons, List.length_nil]
    omega
  have hfrag : index ([r₁, r₂, 0] ++ (F.wire port ++ data)) 2 = pure 0 := rfl
  have hatyp : index ([r₁, r₂, 0] ++ (F.wire port ++ data)) 3 = pure F.atyp := rfl
  have haddr : slice ([r₁, r₂, 0] ++ (F.wire port ++ data)) 3
      ([r₁, r₂, 0] ++ (F.wire port ++ data)).length = pure (F.wire port ++ data) :=
    slice_at (a := [r₁, r₂, 0]) (c := []) (by simp) rfl (by simp only [List.length_append, List.length_cons, List.length_nil])
  have hdata : slice ([r₁, r₂, 0] ++ (F.wire port ++ data)) (3 + (F.wire port).length)
      ([r₁, r₂, 0] ++ (F.wire port ++ data)).length = pure data :=
    slice_at (a := [r₁, r₂, 0] ++ F.wire port) (c := []) (by simp) (by simp; omega) (by simp; omega)
  rw [decodeUdpDatagram, if_neg (by omega), hfrag, pure_bind, if_neg (by simp), hatyp, pure_bind, haddr,
    pure_bind, parseUdpAddress_wire hF, pure_bind]
  simp only [hdata]
  rfl

/-- What the decoder can do with a byte string: it holds a whole field behind two reserved bytes and a zero, or it
is an error. -/
theorem decodeUdpDatagram_cases (b : Bytes) :
    (∃ (F : AddrField) (port : UInt16) (r₁ r₂ : UInt8) (data : Bytes), F.Nonempty ∧
      b = [r₁, r₂, 0] ++ (F.wire port ++ data)) ∨
    ∃ e, decodeUdpDatagram b = throw e := by
  by_cases hshort : b.length < 4
  · exact .inr ⟨.datagramTooShort, by rw [decodeUdpDatagram, if_pos hshort]⟩
  · obtain ⟨r₁, r₂, frag, atyp, tail, rfl⟩ : ∃ r₁ r₂ frag atyp tail, b = r₁ :: r₂ :: frag :: atyp :: tail := by
      match b, hshort with
      | r₁ :: r₂ :: frag :: atyp :: tail, _ => exact ⟨r₁, r₂, frag, atyp, tail, rfl⟩
      | [], h | [_], h | [_, _], h | [_, _, _], h => exact absurd (by simp) h
    have hfrag : index (r₁ :: r₂ :: frag :: atyp :: tail) 2 = pure frag := rfl
    have hatyp : index (r₁ :: r₂ :: frag :: atyp :: tail) 3 = pure atyp := rfl
    have haddr : slice (r₁ :: r₂ :: frag :: atyp :: tail) 3 (r₁ :: r₂ :: frag :: atyp :: tail).length =
        pure (atyp :: tail) := slice_at (a := [r₁, r₂, frag]) (c := []) (by simp) rfl (by simp; omega)
    by_cases hz : frag = 0
    · subst hz
      rcases parseUdpAddress_cases atyp tail with ⟨F, port, data, hF, -, heq⟩ | ⟨e, he⟩
      · exact .inl ⟨F, port, r₁, r₂, data, hF, by rw [← heq]; rfl⟩
      · refine .inr ⟨e, ?_⟩
        rw [decodeUdpDatagram, if_neg hshort, hfrag, pure_bind, if_neg (by simp), hatyp, pure_bind, haddr,
          pure_bind, he]
        rfl
    · refine .inr ⟨.fragmented, ?_⟩
      rw [decodeUdpDatagram, if_neg hshort, hfrag, pure_bind, if_pos hz]

theorem encodeUdpDatagram_ok {t : TargetAddr} {data e : Bytes} (h : encodeUdpDatagram t data = .ok e) :
    ∃ addr, encodeAddress t.address t.port = .ok addr ∧ e = [0, 0, 0] ++ (addr ++ data) := by
  unfold encodeUdpDatagram at h
  split at h
  · cases h
  · rename_i addr ha
    exact ⟨addr, ha, by simpa using h.symm⟩

theorem encodeUdpDatagram_field {F : AddrField} (hF : F.resolved = F) (port : UInt16) (data : Bytes) :
    encodeUdpDatagram ⟨F.text, port⟩ data = .ok ([0, 0, 0] ++ (F.wire port ++ data)) := by
  simp only [encodeUdpDatagram, encodeAddress_text, hF, List.append_assoc]

/-- The field `encode_address` writes stands for itself.  Its text is the one it was written from, unless
that was one of the many texts of an IPv6 address. -/
theorem encodeAddress_field {host : String} {port : UInt16} {addr : Bytes}
    (h : encodeAddress host port = .ok addr) :
    ∃ F : AddrField, addr = F.wire port ∧ F.resolved = F ∧ (host ≠ "" → F.Nonempty) ∧
      (ipv4FromStr host ≠ none ∨ ipv6FromStr host = none → F.text = host) ∧
      ∀ ip, ipv4FromStr host = none → ipv6FromStr host = some ip →
        F = .ipv6 ip.octets ip.length_octets := by
  unfold encodeAddress at h
  cases h4 : ipv4FromStr host with
  | some ip =>
    rw [h4] at h
    exact ⟨.ipv4 ip, (Except.ok.inj h).symm, rfl, fun _ => trivial,
      fun _ => (dottedQuad_of_ipv4FromStr h4).symm, by simp⟩
  | none =>
    rw [h4] at h
    cases h6 : ipv6FromStr host with
    | some ip =>
      rw [h6] at h
      refine ⟨.ipv6 ip.octets ip.length_octets, (Except.ok.inj h).symm, rfl, fun _ => trivial, by simp, ?_⟩
      rintro ip' - he
      obtain rfl := Option.some.inj he
      rfl
    | none =>
      rw [h6] at h
      simp only at h
      split_ifs at h with hlong
      refine ⟨.domain host (by omega), (Except.ok.inj h).symm, ?_, fun hne he => hne ?_, fun _ => rfl, by simp⟩
      · simp [AddrField.resolved, h4, h6]
      · exact bytesOf_injective he

/-- **The datagram codec.**  What was encoded for a non-empty address is decoded to the same port and data, and to
the same address up to the text of an IPv6 address, and is encoded the same way again.  What is decoded, with
zeros in the reserved bytes and no domain that is the text of an IP address, is encoded to the same bytes.  And
no byte string makes the decoder index out of range. -/
theorem udp_datagram_codec :
    (∀ (t : TargetAddr) (data e : Bytes), t.address ≠ "" → encodeUdpDatagram t data = .ok e →
      ∃ t', (decodeUdpDatagram e).run = some (.ok (t', data)) ∧ t'.port = t.port ∧
        (ipv4FromStr t.address ≠ none ∨ ipv6FromStr t.address = none → t'.address = t.address) ∧
        (∀ ip, ipv4FromStr t.address = none → ipv6FromStr t.address = some ip →
          ipv4FromStr t'.address = none ∧
            ∃ ip', ipv6FromStr t'.address = some ip' ∧ ip'.octets = ip.octets) ∧
        encodeUdpDatagram t' data = .ok e) ∧
    (∀ (b : Bytes) (t : TargetAddr) (data : Bytes), (decodeUdpDatagram b).run = some (.ok (t, data)) →
      b[0]? = some 0 → b[1]? = some 0 →
      (b[3]? = some atypDomain → ipv4FromStr t.address = none ∧ ipv6FromStr t.address = none) →
      encodeUdpDatagram t data = .ok b) ∧
    ∀ b : Bytes, (decodeUdpDatagram b).run ≠ none := by
  refine ⟨fun t data e hne h => ?_, fun b t data h h0 h1 hlit => ?_, fun b h => ?_⟩
  · obtain ⟨addr, ha, rfl⟩ := encodeUdpDatagram_ok h
    obtain ⟨F, rfl, hres, hF, htext, h6⟩ := encodeAddress_field ha
    refine ⟨⟨F.text, t.port⟩, ?_, rfl, htext, fun ip hn4 hip => ?_, encodeUdpDatagram_field hres t.port data⟩
    · rw [decodeUdpDatagram_wire (hF hne)]
      rfl
    · obtain rfl := h6 ip hn4 hip
      exact ipv6FromStr_colonGroups ip.length_octets
  · rcases decodeUdpDatagram_cases b with ⟨F, port, r₁, r₂, data', hF, rfl⟩ | ⟨e, he⟩
    · rw [decodeUdpDatagram_wire hF] at h
      obtain ⟨rfl, rfl⟩ : ⟨F.text, port⟩ = t ∧ data' = data := by simpa using h
      obtain rfl : r₁ = 0 := Option.some.inj h0
      obtain rfl : r₂ = 0 := Option.some.inj h1
      refine encodeUdpDatagram_field ?_ port data'
      cases F with
      | ipv4 | ipv6 => rfl
      | domain name short =>
        obtain ⟨h4, h6⟩ := hlit rfl
        simp only [AddrField.text] at h4 h6
        simp [AddrField.resolved, h4, h6]
    · rw [he] at h
      cases h
  · rcases decodeUdpDatagram_cases b with ⟨F, port, r₁, r₂, data', hF, rfl⟩ | ⟨e, he⟩
    · rw [decodeUdpDatagram_wire hF] at h
      cases h
    · rw [he] at h
      cases h

/-- A name server's address and a payload of five bytes. -/
theorem udp_datagram_codec_ipv4 :
    (∃ t', (decodeUdpDatagram [0, 0, 0, 1, 1, 2, 3, 4, 0, 53, 104, 101, 108, 108, 111]).run =
        some (.ok (t', [104, 101, 108, 108, 111])) ∧ t'.port = 53 ∧ t'.address = "1.2.3.4") ∧
      encodeUdpDatagram ⟨"1.2.3.4", 53⟩ [104] = .ok [0, 0, 0, 1, 1, 2, 3, 4, 0, 53, 104] := by
  have henc : encodeUdpDatagram ⟨"1.2.3.4", 53⟩ [104, 101, 108, 108, 111] =
      .ok [0, 0, 0, 1, 1, 2, 3, 4, 0, 53, 104, 101, 108, 108, 111] := rfl
  obtain ⟨t', hdec, hport, haddr, -, -⟩ := udp_datagram_codec.1 _ _ _ (by decide) henc
  refine ⟨⟨t', hdec, hport, haddr (.inl nofun)⟩, ?_⟩
  exact udp_datagram_codec.2.1 _ _ _ rfl rfl rfl nofun

end RoundRobin.Socks5
