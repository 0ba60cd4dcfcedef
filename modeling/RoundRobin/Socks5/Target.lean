import RoundRobin.FrameStream
import RoundRobin.Socks5

/-!
# RoundRobin.Socks5.Target — a requested target on its way to the egress proxy

The address field of an accepted CONNECT is read to a text, the text travels in a SYN frame, and the other
side writes an address field from it again.  All the lengths on the way fit: a text has at most 255 bytes.
-/

namespace RoundRobin

open BigEndian IpText

/-- Decoding inverts encoding. -/
theorem SynTarget.decode_encode (t : SynTarget) (h : (bytesOf t.address).length ≤ 65535) :
    ∃ payload, t.encode = .ok payload ∧ payload.length = 5 + (bytesOf t.address).length ∧
      SynTarget.decode payload = .ok t := by
  obtain ⟨proto, address, port⟩ := t
  obtain ⟨addr, haddr⟩ : ∃ addr, addr = bytesOf address := ⟨_, rfl⟩
  have hbytes : address.toUTF8.data.toList = addr := haddr.symm
  simp only [← haddr] at h ⊢
  have hp := port.toNat_lt
  refine ⟨[proto] ++ beBytes 2 addr.length ++ addr ++ beBytes 2 port.toNat, ?_, ?_, ?_⟩
  · simp only [encode, hbytes]
    rw [if_neg (by omega)]
  · simp only [List.length_append, List.length_singleton, length_beBytes]
    omega
  · have hlen : ([proto] ++ beBytes 2 addr.length ++ addr ++ beBytes 2 port.toNat).length =
        5 + addr.length := by
      simp only [List.length_append, List.length_singleton, length_beBytes]
      omega
    have hfirst : (([proto] ++ beBytes 2 addr.length ++ addr ++ beBytes 2 port.toNat).drop 1).take 2 =
        beBytes 2 addr.length := by
      rw [List.append_assoc, List.append_assoc, List.drop_append_of_le_length (by simp)]
      exact List.take_left' (length_beBytes 2 addr.length)
    have hmid : ([proto] ++ beBytes 2 addr.length ++ addr ++ beBytes 2 port.toNat).drop 3 =
        addr ++ beBytes 2 port.toNat := by
      rw [List.append_assoc ([proto] ++ beBytes 2 addr.length)]
      exact List.drop_left' (by simp)
    have hport : ([proto] ++ beBytes 2 addr.length ++ addr ++ beBytes 2 port.toNat).drop
        (3 + addr.length) = beBytes 2 port.toNat := by
      rw [← List.drop_drop, hmid, List.drop_left]
    have hofLen : ofBe (beBytes 2 addr.length) = addr.length := ofBe_beBytes_of_lt (by omega)
    have hofPort : ofBe (beBytes 2 port.toNat) = port.toNat := ofBe_beBytes_of_lt (by omega)
    have hutf : String.fromUTF8? ⟨addr.toArray⟩ = some address := by
      rw [haddr]
      exact fromUTF8?_bytesOf address
    unfold decode
    rw [hlen, if_neg (by omega)]
    simp only [hfirst, hofLen]
    rw [if_neg (by omega), hmid, List.take_left, hutf]
    simp only [hport]
    rw [List.take_of_length_le (by simp), hofPort]
    simp

namespace Socks5

theorem length_text (F : AddrField) : (bytesOf F.text).length ≤ 255 := by
  cases F with
  | ipv4 ip =>
    have ha := length_octetBytes_le ip.a
    have hb := length_octetBytes_le ip.b
    have hc := length_octetBytes_le ip.c
    have hd := length_octetBytes_le ip.d
    rw [AddrField.text, bytesOf_dottedQuad, quadBytes]
    simp only [List.length_append, List.length_cons]
    omega
  | domain name short => exact short
  | ipv6 octets hlen => 
    rw [AddrField.text, length_colonGroups hlen]
    decide

/-- **The target survives the tunnel.**  A CONNECT was accepted: the SYN for its target encodes, any frames may
come before and after it on the link, and what the other side decodes is written as the field the client
sent, with a domain that is the text of an IP address as that address. -/
theorem target_survives {relay : Option SocketAddr} {t : TargetAddr} {rep : Bytes} {s s' : Stream}
    (h : socks5ServerAccept relay s = (.ok (.connect t, rep), s')) (c : ConnId) {before after : List Frame}
    (hframes : Frame.Encodable (before ++ after)) :
    ∃ (methods : Bytes) (rsv : UInt8) (F : AddrField),
      s.input = [socksVersion, UInt8.ofNat methods.length] ++ methods ++
        ([socksVersion, cmdConnect, rsv] ++ F.wire t.port) ++ s'.input ∧
      methods.length ≤ 255 ∧
      ∃ payload e, SynTarget.encode ⟨protoTcp, t.address, t.port⟩ = .ok payload ∧
        (Frame.syn c payload).encode = .ok e ∧
        (∀ reads : List Bytes, (∀ r ∈ reads, r ≠ []) →
          reads.flatten = Frame.wires before ++ e ++ Frame.wires after →
          FrameDecoder.new.decodeAll reads = (before ++ Frame.syn c payload :: after, .ok ())) ∧
        ∃ t', SynTarget.decode (Frame.syn c payload).payload = .ok t' ∧ t'.proto = protoTcp ∧
          encodeAddress t'.address t'.port = .ok (F.resolved.wire t.port) := by
  obtain ⟨methods, rsv, F, hm, -, htext, hin, -⟩ := socks5ServerAccept_connect h
  have htl := length_text F
  rw [← htext] at htl
  have hlong : (bytesOf t.address).length ≤ 65535 := by omega
  obtain ⟨payload, henc, hlen, hdec⟩ := SynTarget.decode_encode ⟨protoTcp, t.address, t.port⟩ hlong
  have hfit : (Frame.syn c payload).payload.length ≤ maxPayload := by
    show payload.length ≤ 65535
    rw [hlen]
    show 5 + (bytesOf t.address).length ≤ 65535
    omega
  refine ⟨methods, rsv, F, hin, hm, payload, (Frame.syn c payload).wire, henc,
    Frame.encodeInto_eq hfit [], fun reads hne hflat => ?_, _, hdec, rfl, ?_⟩
  · refine FrameDecoder.decodeAll_wires hne (fun f hf => ?_) ?_
    · rcases List.mem_append.mp hf with hf | hf
      · exact hframes f (List.mem_append_left _ hf)
      · rcases List.mem_cons.mp hf with rfl | hf
        · exact hfit
        · exact hframes f (List.mem_append_right _ hf)
    · rw [hflat, FrameDecoder.wires_append, List.append_assoc]
      rfl
  · show encodeAddress t.address t.port = _
    rw [htext, encodeAddress_text]

/-- A client that asks for port 80 of 127.0.0.1 and goes on to send one byte. -/
def loopback : Stream := ⟨[5, 1, 0, 5, 1, 0, 1, 127, 0, 0, 1, 0, 80, 71], [], true⟩

theorem target_survives_loopback :
    ∃ payload, SynTarget.encode ⟨protoTcp, "127.0.0.1", 80⟩ = .ok payload ∧
      FrameDecoder.new.decodeAll [(Frame.syn 7 payload).wire] = ([Frame.syn 7 payload], .ok ()) ∧
      ∃ t' F, SynTarget.decode payload = .ok t' ∧
        encodeAddress t'.address t'.port = .ok (AddrField.wire F 80) := by
  have haccept : socks5ServerAccept none loopback = (.ok (.connect ⟨"127.0.0.1", 80⟩,
      [5, 0, 0, 1, 0, 0, 0, 0, 0, 0]), ⟨[71], [5, 0], true⟩) := rfl
  obtain ⟨-, -, F, -, -, payload, e, henc, he, hread, t', hdec, -, haddr⟩ :=
    @target_survives none _ _ _ _ haccept 7 [] [] (by simp [Frame.Encodable])
  obtain ⟨-, rfl⟩ := Frame.encodeInto_ok he
  refine ⟨payload, henc, hread _ ?_ ?_, t', F.resolved, hdec, haddr⟩
  · simp [Frame.wire]
  · simp [Frame.wires]

end Socks5

end RoundRobin
