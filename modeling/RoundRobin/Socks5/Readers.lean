import RoundRobin.Socks5.Udp

/-!
# RoundRobin.Socks5.Readers — the extent of an address field

`read_address`, `drain_address` and `parse_udp_address` of `src/socks5.rs` each count the bytes of an address
field on their own.  All three count `AddrField.body` and the port: what is written with a field in front of it is
found right behind it again.  So a client that has run its handshake with a proxy reads the first byte of the
target next (`socks5ClientConnect_reply`).
-/

namespace RoundRobin.Socks5

open BigEndian IpText

/-! ## Reading what is there -/

theorem bind_run {α β : Type} {x : Socks α} {f : α → Socks β} {s s₁ : Stream} {a : α} (h : x s = (.ok a, s₁)) :
    (x >>= f) s = f a s₁ := by
  have hrun : (x >>= f) s = ExceptT.bindCont f (x s).1 (x s).2 := rfl
  rw [hrun, h]
  rfl

theorem readExact_append {n : ℕ} {bs : Bytes} (h : bs.length = n) (rest out : Bytes) (w : Bool) :
    readExact n ⟨bs ++ rest, out, w⟩ = (.ok bs, ⟨rest, out, w⟩) := by
  have hlong : ¬ (bs ++ rest).length < n := by
    rw [List.length_append]
    omega
  unfold readExact
  rw [if_neg hlong, List.take_left' h, List.drop_left' h]

theorem fromUtf8_run (name : String) (s : Stream) :
    (liftM (fromUtf8 (bytesOf name)) : Socks String) s = (.ok name, s) := by
  rw [fromUtf8, fromUTF8?_bytesOf]
  rfl

theorem writeAll_run (bs input out : Bytes) : writeAll bs ⟨input, out, true⟩ = (.ok (), ⟨input, out ++ bs, true⟩) := rfl

theorem bailIf_run {c : Prop} [Decidable c] (h : ¬ c) (e : Socks5Error) (s : Stream) :
    bailIf c e s = (.ok (), s) := by
  rw [bailIf, if_neg h]
  rfl

theorem portAt_append {bs : Bytes} {i : ℕ} (h : bs.length = i) (port : UInt16) :
    portAt (bs ++ beBytes 2 port.toNat) i = port := by
  subst h
  have hfirst : (bs ++ beBytes 2 port.toNat).getD bs.length 0 = UInt8.ofNat (port.toNat / 256) := by
    rw [beBytes_port, List.getD_eq_getElem?_getD, List.getElem?_append_right le_rfl, Nat.sub_self]
    rfl
  have hsecond : (bs ++ beBytes 2 port.toNat).getD (bs.length + 1) 0 = UInt8.ofNat port.toNat := by
    rw [beBytes_port, List.getD_eq_getElem?_getD, List.getElem?_append_right (Nat.le_add_right _ 1),
      Nat.add_sub_cancel_left]
    rfl
  rw [portAt, hfirst, hsecond, be16_pair]

theorem length_append_port {bs : Bytes} {n : ℕ} (h : bs.length = n) (port : UInt16) :
    (bs ++ beBytes 2 port.toNat).length = n + 2 := by
  rw [List.length_append, length_beBytes, h]

/-! ## One field -/

namespace AddrField

theorem nonempty_of {F : AddrField} (h : ¬ (F.atyp = atypDomain ∧ F.body[0]? = some 0)) : F.Nonempty := by
  cases F with
  | ipv4 | ipv6 => trivial
  | domain name short =>
    intro hname
    apply h
    rw [atyp, body, hname]
    exact ⟨rfl, rfl⟩

end AddrField

/-- A field that is on the stream is read to its text. -/
theorem readAddress_body (F : AddrField) (port : UInt16) (rest out : Bytes) (w : Bool) :
    readAddress F.atyp ⟨F.body ++ beBytes 2 port.toNat ++ rest, out, w⟩ =
      (.ok ⟨F.text, port⟩, ⟨rest, out, w⟩) := by
  cases F with
  | ipv4 ip =>
    have hlen : (ip.octets ++ beBytes 2 port.toNat).length = 6 := length_append_port rfl port
    have hport : portAt (ip.octets ++ beBytes 2 port.toNat) 4 = port := portAt_append rfl port
    rw [readAddress, AddrField.atyp, if_pos rfl]
    refine (bind_run (readExact_append hlen rest out w)).trans ?_
    rw [hport]
    rfl
  | domain name short =>
    have hne : atypDomain ≠ atypIpv4 := by decide
    rw [readAddress, AddrField.atyp, if_neg hne, if_pos rfl, AddrField.body]
    -- the length, the name, the port
    rw [List.append_assoc, ← List.singleton_append, List.append_assoc]
    refine (bind_run (readExact_append rfl _ out w)).trans ?_
    refine (bind_run (readExact_append (AddrField.toNat_length short).symm _ out w)).trans ?_
    refine (bind_run (readExact_append (length_beBytes 2 _) rest out w)).trans ?_
    refine (bind_run (fromUtf8_run name _)).trans ?_
    have hport : portAt (beBytes 2 port.toNat) 0 = port := @portAt_append [] 0 rfl port
    rw [hport]
    rfl
  | ipv6 octets hlen6 =>
    have h4 : atypIpv6 ≠ atypIpv4 := by decide
    have h3 : atypIpv6 ≠ atypDomain := by decide
    have hlen : (octets ++ beBytes 2 port.toNat).length = 18 := length_append_port hlen6 port
    rw [readAddress, AddrField.atyp, if_neg h4, if_neg h3, if_pos rfl]
    refine (bind_run (readExact_append hlen rest out w)).trans ?_
    rw [portAt_append hlen6, List.take_left' hlen6]
    rfl

/-- A field that is on the stream is drained. -/
theorem drainAddress_body (F : AddrField) (port : UInt16) (rest out : Bytes) (w : Bool) :
    drainAddress F.atyp ⟨F.body ++ beBytes 2 port.toNat ++ rest, out, w⟩ = (.ok (), ⟨rest, out, w⟩) := by
  cases F with
  | ipv4 ip =>
    have hlen : (ip.octets ++ beBytes 2 port.toNat).length = 6 := length_append_port rfl port
    rw [drainAddress, AddrField.atyp, if_pos rfl]
    exact bind_run (readExact_append hlen rest out w)
  | domain name short =>
    have hne : atypDomain ≠ atypIpv4 := by decide
    have hlen : (bytesOf name ++ beBytes 2 port.toNat).length =
        (UInt8.ofNat (bytesOf name).length).toNat + 2 :=
      length_append_port (AddrField.toNat_length short).symm port
    rw [drainAddress, AddrField.atyp, if_neg hne, if_pos rfl, AddrField.body]
    rw [List.cons_append, List.cons_append, ← List.singleton_append]
    refine (bind_run (readExact_append rfl _ out w)).trans ?_
    exact bind_run (readExact_append hlen rest out w)
  | ipv6 octets hlen6 =>
    have h4 : atypIpv6 ≠ atypIpv4 := by decide
    have h3 : atypIpv6 ≠ atypDomain := by decide
    have hlen : (octets ++ beBytes 2 port.toNat).length = 18 := length_append_port hlen6 port
    rw [drainAddress, AddrField.atyp, if_neg h4, if_neg h3, if_pos rfl]
    exact bind_run (readExact_append hlen rest out w)

/-! ## The readers agree -/

/-- Both stream readers stop right behind the field, whatever follows it. -/
def Delimits (atyp : UInt8) (field : Bytes) (port : UInt16) : Prop :=
  ∃ address, ∀ rest out w,
    readAddress atyp ⟨field ++ rest, out, w⟩ = (.ok ⟨address, port⟩, ⟨rest, out, w⟩) ∧
    drainAddress atyp ⟨field ++ rest, out, w⟩ = (.ok (), ⟨rest, out, w⟩)

theorem delimits_body (F : AddrField) (port : UInt16) :
    Delimits F.atyp (F.body ++ beBytes 2 port.toNat) port :=
  ⟨F.text, fun rest out w => ⟨readAddress_body F port rest out w, drainAddress_body F port rest out w⟩⟩

theorem encodeReply_wire (rep : UInt8) (addr : SocketAddr) :
    ∃ F : AddrField, encodeReply rep addr = [socksVersion, rep, 0x00] ++ F.wire addr.port := by
  obtain ⟨ip, port⟩ := addr
  cases ip with
  | v4 ip => exact ⟨.ipv4 ip, rfl⟩
  | v6 ip => exact ⟨.ipv6 ip.octets ip.length_octets, rfl⟩

/-- A parsed address is at the head of the bytes behind the type, and `k` counts it, its port and the type. -/
theorem parseUdpAddress_ok {atyp : UInt8} {s : Bytes} {address : String} {port : UInt16} {k : ℕ}
    (h : (parseUdpAddress atyp (atyp :: s)).run = some (.ok (address, port, k))) :
    ∃ (F : AddrField) (rest : Bytes), F.atyp = atyp ∧ F.text = address ∧
      s = F.body ++ beBytes 2 port.toNat ++ rest ∧ k = 1 + (F.body ++ beBytes 2 port.toNat).length := by
  rcases parseUdpAddress_cases atyp s with ⟨F, port', rest, hF, rfl, heq⟩ | ⟨e, he⟩
  · rw [heq, parseUdpAddress_wire hF] at h
    obtain ⟨htext, rfl, rfl⟩ : F.text = address ∧ port' = port ∧ (F.wire port').length = k := by simpa using h
    refine ⟨F, rest, rfl, htext, (List.cons.inj heq).2, ?_⟩
    rw [AddrField.wire, List.cons_append, List.length_cons, Nat.add_comm]
  · rw [he] at h
    cases h

/-- What was read from a prefix is parsed in the whole, unless it is an empty domain. -/
theorem parseUdpAddress_of_readAddress {atyp : UInt8} {p out : Bytes} {w : Bool} {t : TargetAddr} {s' : Stream}
    (h : readAddress atyp ⟨p, out, w⟩ = (.ok t, s')) (hne : ¬ (atyp = atypDomain ∧ p[0]? = some 0)) :
    ∃ n ≤ p.length, s'.input = p.drop n ∧ ∀ q,
      (parseUdpAddress atyp (atyp :: (p ++ q))).run = some (.ok (t.address, t.port, 1 + n)) := by
  obtain ⟨F, rfl, htext, hin, -⟩ := readAddress_spec h
  obtain rfl : p = F.body ++ beBytes 2 t.port.toNat ++ s'.input := hin
  have hF : F.Nonempty := by
    apply AddrField.nonempty_of
    rintro ⟨hdomain, hzero⟩
    refine hne ⟨hdomain, ?_⟩
    obtain ⟨hlt, -⟩ := List.getElem?_eq_some_iff.mp hzero
    rw [List.append_assoc, List.getElem?_append_left hlt, hzero]
  refine ⟨(F.body ++ beBytes 2 t.port.toNat).length, ?_, ?_, fun q => ?_⟩
  · exact (List.prefix_append _ s'.input).length_le
  · rw [List.drop_left]
  · have hwire : F.atyp :: (F.body ++ beBytes 2 t.port.toNat ++ s'.input ++ q) =
        F.wire t.port ++ (s'.input ++ q) := by
      simp [AddrField.wire]
    have hk : (F.wire t.port).length = 1 + (F.body ++ beBytes 2 t.port.toNat).length := by
      rw [AddrField.wire, List.cons_append, List.length_cons, Nat.add_comm]
    rw [hwire, parseUdpAddress_wire hF, hk, htext]
    rfl

/-- A proxy that accepts and then sends `rest`: the handshake ends with all of `rest` on the stream. -/
theorem socks5ClientConnect_reply {target : String} {port : UInt16} {addrBytes : Bytes}
    (h : encodeAddress target port = .ok addrBytes) (bound : SocketAddr) (rest out : Bytes) :
    socks5ClientConnect target port
        ⟨[socksVersion, authNone] ++ (encodeReply repSuccess bound ++ rest), out, true⟩ =
      (.ok (), ⟨rest, out ++ [socksVersion, 0x01, authNone] ++
        ([socksVersion, cmdConnect, 0x00] ++ addrBytes), true⟩) := by
  obtain ⟨F, hwire⟩ := encodeReply_wire repSuccess bound
  have hreply : encodeReply repSuccess bound ++ rest =
      [socksVersion, repSuccess, 0x00, F.atyp] ++ (F.body ++ beBytes 2 bound.port.toNat ++ rest) := by
    rw [hwire]
    rfl
  have hencode (s : Stream) : (liftM (encodeAddress target port) : Socks Bytes) s = (.ok addrBytes, s) := by
    rw [h]
    rfl
  unfold socks5ClientConnect
  rw [hreply]
  refine (bind_run (writeAll_run _ _ _)).trans ?_
  refine (bind_run (readExact_append rfl _ _ _)).trans ?_
  refine (bind_run (bailIf_run (by decide) _ _)).trans ?_
  refine (bind_run (bailIf_run (by decide) _ _)).trans ?_
  refine (bind_run (hencode _)).trans ?_
  refine (bind_run (writeAll_run _ _ _)).trans ?_
  refine (bind_run (readExact_append rfl _ _ _)).trans ?_
  refine (bind_run (bailIf_run ?_ _ _)).trans ?_
  · show ¬ socksVersion ≠ socksVersion
    exact not_not.mpr rfl
  refine (bind_run (bailIf_run ?_ _ _)).trans ?_
  · show ¬ repSuccess ≠ repSuccess
    exact not_not.mpr rfl
  exact drainAddress_body F bound.port rest _ true

/-- **All address readers agree on the extent of a field.**  What the datagram parser finds, the stream readers
consume, to the byte; what `read_address` reads, unless it is an empty domain, the parser finds; and a field that
`encode_address` or `encode_reply` wrote ends where the stream readers stop. -/
theorem address_readers_agree :
    (∀ (atyp : UInt8) (s : Bytes) (address : String) (port : UInt16) (k : ℕ),
      (parseUdpAddress atyp (atyp :: s)).run = some (.ok (address, port, k)) →
        1 ≤ k ∧ k - 1 ≤ s.length ∧ ∀ out w,
          readAddress atyp ⟨s, out, w⟩ = (.ok ⟨address, port⟩, ⟨s.drop (k - 1), out, w⟩) ∧
          drainAddress atyp ⟨s, out, w⟩ = (.ok (), ⟨s.drop (k - 1), out, w⟩)) ∧
    (∀ (atyp : UInt8) (p out : Bytes) (w : Bool) (t : TargetAddr) (s' : Stream),
      readAddress atyp ⟨p, out, w⟩ = (.ok t, s') → ¬ (atyp = atypDomain ∧ p[0]? = some 0) →
        ∃ n ≤ p.length, s'.input = p.drop n ∧ ∀ q,
          (parseUdpAddress atyp (atyp :: (p ++ q))).run = some (.ok (t.address, t.port, 1 + n))) ∧
    (∀ (host : String) (port : UInt16) (addr : Bytes), encodeAddress host port = .ok addr →
      ∃ atyp field, addr = atyp :: field ∧ Delimits atyp field port) ∧
    ∀ (rep : UInt8) (addr : SocketAddr),
      ∃ atyp field, encodeReply rep addr = [socksVersion, rep, 0x00] ++ atyp :: field ∧
        Delimits atyp field addr.port := by
  refine ⟨fun atyp s address port k h => ?_, fun atyp p out w t s' h hne => ?_, fun host port addr h => ?_,
    fun rep addr => ?_⟩
  · obtain ⟨F, rest, rfl, rfl, rfl, rfl⟩ := parseUdpAddress_ok h
    rw [Nat.add_sub_cancel_left]
    refine ⟨Nat.le_add_right 1 _, (List.prefix_append _ rest).length_le, fun out w => ?_⟩
    rw [List.drop_left]
    exact ⟨readAddress_body F port rest out w, drainAddress_body F port rest out w⟩
  · exact parseUdpAddress_of_readAddress h hne
  · obtain ⟨F, rfl, -⟩ := encodeAddress_field h
    exact ⟨F.atyp, _, rfl, delimits_body F port⟩
  · obtain ⟨F, hwire⟩ := encodeReply_wire rep addr
    exact ⟨F.atyp, _, hwire, delimits_body F addr.port⟩

/-- The name of one letter, port 80 and a payload of one byte: parsed, read and parsed again. -/
theorem address_readers_agree_domain :
    readAddress atypDomain ⟨[1, 97, 0, 80, 71], [], true⟩ = (.ok ⟨"a", 80⟩, ⟨[71], [], true⟩) ∧
      (∃ n, [71] = ([1, 97, 0, 80, 71] : Bytes).drop n ∧
        (parseUdpAddress atypDomain [3, 1, 97, 0, 80, 71, 72]).run = some (.ok ("a", 80, 1 + n))) ∧
      ∃ atyp field, ([3, 1, 97, 0, 80] : Bytes) = atyp :: field ∧ Delimits atyp field 80 := by
  have hparse : (parseUdpAddress atypDomain (atypDomain :: [1, 97, 0, 80, 71])).run =
      some (.ok ("a", 80, 5)) := by rfl
  have hread := ((address_readers_agree.1 _ _ _ _ _ hparse).2.2 [] true).1
  obtain ⟨n, -, hn, hq⟩ := address_readers_agree.2.1 _ _ _ _ _ _ hread (by decide)
  exact ⟨hread, ⟨n, hn, hq [72]⟩, address_readers_agree.2.2.1 "a" 80 _ rfl⟩

end RoundRobin.Socks5
