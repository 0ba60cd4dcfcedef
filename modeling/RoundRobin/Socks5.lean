import RoundRobin.Frame
import RoundRobin.Lib.IpText

/-!
# RoundRobin.Socks5 — the SOCKS5 handshake and its address fields

`src/socks5.rs`.  A handshake runs on a stream: the bytes the peer is going to send, the bytes written so
far, and whether writes still succeed.  An address field is read by `read_address` to a text, and written by `encode_address` from a text;
`AddrField` is what both agree on (`readAddress_spec`, `encodeAddress_text`).
-/

namespace RoundRobin.Socks5

open BigEndian IpText

/-! ## Constants -/

def socksVersion : UInt8 := 0x05
def authNone : UInt8 := 0x00
def cmdConnect : UInt8 := 0x01
def cmdUdpAssociate : UInt8 := 0x03
def atypIpv4 : UInt8 := 0x01
def atypDomain : UInt8 := 0x03
def atypIpv6 : UInt8 := 0x04
def repSuccess : UInt8 := 0x00
def repCmdNotSupported : UInt8 := 0x07

/-- The reply when a connection cannot be established. -/
def replyGeneralFailure : Bytes := [socksVersion, 0x01, 0x00, atypIpv4, 0, 0, 0, 0, 0, 0]

/-! ## Errors -/

inductive Socks5Error where
  /-- A read hit the end of the stream, or a write or a socket call failed. -/
  | io
  | notSocks5 (version : UInt8)
  | noMethods
  | requiresAuth
  | badRequestVersion
  | unsupportedCmd (cmd : UInt8)
  | unsupportedAddressType (atyp : UInt8)
  | utf8
  | proxyNotSocks5 (version : UInt8)
  | proxyRequiresAuth (method : UInt8)
  | badReplyVersion
  | connectFailed (target : String) (port : UInt16) (rep : UInt8)
  | domainTooLong (len : ℕ)
  | datagramTooShort
  | fragmented
  | truncatedIpv4
  | truncatedDomain
  | emptyDomain
  | truncatedDomainData
  | truncatedIpv6
  | unsupportedDatagramAtyp (atyp : UInt8)
  deriving DecidableEq, Repr

/-! ## Streams -/

structure Stream where
  input : Bytes
  output : Bytes
  /-- Writes succeed. -/
  writable : Bool
  deriving DecidableEq, Repr

/-- A computation that reads and writes a stream. -/
abbrev Socks := ExceptT Socks5Error (StateM Stream)

def readExact (n : ℕ) : Socks Bytes := fun s =>
  if s.input.length < n then (.error .io, { s with input := [] })
  else (.ok (s.input.take n), { s with input := s.input.drop n })

def writeAll (bs : Bytes) : Socks Unit := fun s =>
  if s.writable then (.ok (), { s with output := s.output ++ bs }) else (.error .io, s)

/-- `if c { bail!(..) }`. -/
def bailIf (c : Prop) [Decidable c] (e : Socks5Error) : Socks Unit := if c then throw e else pure ()

/-- Send a reply and fail. -/
def refuse {α : Type} (reply : Bytes) (e : Socks5Error) : Socks α := do
  writeAll reply
  throw e

/-! ## Addresses -/

structure TargetAddr where
  address : String
  port : UInt16
  deriving DecidableEq, Repr

inductive IpAddr where
  | v4 (ip : Ipv4Addr)
  | v6 (ip : Ipv6Addr)

structure SocketAddr where
  ip : IpAddr
  port : UInt16

/-- `IpAddr::from_str`. -/
def ipFromStr (s : String) : Option IpAddr :=
  parseWith (fun bs =>
    match readIpv4Addr bs with
    | some (ip, rest) => some (.v4 ip, rest)
    | none => (readIpv6Addr bs).map fun r => (.v6 r.1, r.2)) (bytesOf s)

def IpAddr.octets : IpAddr → Bytes
  | .v4 ip => ip.octets
  | .v6 ip => ip.octets

def IpAddr.isUnspecified (ip : IpAddr) : Bool := ip.octets.all (· == 0)

/-- `u16::from_be_bytes` of two bytes of a buffer. -/
def portAt (buf : Bytes) (i : ℕ) : UInt16 := be16 (buf.getD i 0) (buf.getD (i + 1) 0)

def fromUtf8 (bs : Bytes) : Except Socks5Error String :=
  match String.fromUTF8? ⟨bs.toArray⟩ with
  | none => .error .utf8
  | some s => .ok s

def readAddress (atyp : UInt8) : Socks TargetAddr :=
  if atyp = atypIpv4 then do
    let buf ← readExact 6
    return ⟨dottedQuad ⟨buf.getD 0 0, buf.getD 1 0, buf.getD 2 0, buf.getD 3 0⟩, portAt buf 4⟩
  else if atyp = atypDomain then do
    let len ← readExact 1
    let addr ← readExact (len.getD 0 0).toNat
    let portBuf ← readExact 2
    let address ← fromUtf8 addr
    return ⟨address, portAt portBuf 0⟩
  else if atyp = atypIpv6 then do
    let buf ← readExact 18
    return ⟨colonGroups (buf.take 16), portAt buf 16⟩
  else throw (.unsupportedAddressType atyp)

def drainAddress (atyp : UInt8) : Socks Unit :=
  if atyp = atypIpv4 then do
    let _ ← readExact 6
  else if atyp = atypDomain then do
    let len ← readExact 1
    let _ ← readExact ((len.getD 0 0).toNat + 2)
  else if atyp = atypIpv6 then do
    let _ ← readExact 18
  else throw (.unsupportedAddressType atyp)

def encodeAddress (host : String) (port : UInt16) : Except Socks5Error Bytes :=
  match ipv4FromStr host with
  | some ip => .ok ([atypIpv4] ++ ip.octets ++ beBytes 2 port.toNat)
  | none =>
    match ipv6FromStr host with
    | some ip => .ok ([atypIpv6] ++ ip.octets ++ beBytes 2 port.toNat)
    | none =>
      let name := bytesOf host
      if name.length > 255 then .error (.domainTooLong name.length)
      else .ok ([atypDomain, UInt8.ofNat name.length] ++ name ++ beBytes 2 port.toNat)

/-! ## The handshakes -/

inductive Socks5Result where
  | connect (target : TargetAddr)
  /-- `clientAddr` is the address the client's datagrams are pinned to, if it named a concrete one. -/
  | udpAssociate (relay : SocketAddr) (clientAddr : Option SocketAddr)

def udpAssociateClientAddr (addr : TargetAddr) : Option SocketAddr :=
  if addr.port = 0 then none
  else
    match ipFromStr addr.address with
    | some ip => if !ip.isUnspecified then some ⟨ip, addr.port⟩ else none
    | none => none

def encodeReply (rep : UInt8) (addr : SocketAddr) : Bytes :=
  [socksVersion, rep, 0x00] ++
    (match addr.ip with
    | .v4 ip => atypIpv4 :: ip.octets
    | .v6 ip => atypIpv6 :: ip.octets) ++ beBytes 2 addr.port.toNat

/-- The server side; `relay` is the address of the UDP relay, if binding it succeeds.  The reply is
returned, the caller writes it later. -/
def socks5ServerAccept (relay : Option SocketAddr) : Socks (Socks5Result × Bytes) := do
  let hdr ← readExact 2
  bailIf (hdr.getD 0 0 ≠ socksVersion) (.notSocks5 (hdr.getD 0 0))
  let nmethods := (hdr.getD 1 0).toNat
  bailIf (nmethods = 0) .noMethods
  let methods ← readExact nmethods
  if authNone ∉ methods then refuse [socksVersion, 0xFF] .requiresAuth
  else
    writeAll [socksVersion, authNone]
    let req ← readExact 4
    bailIf (req.getD 0 0 ≠ socksVersion) .badRequestVersion
    if req.getD 1 0 = cmdConnect then
      let target ← readAddress (req.getD 3 0)
      return (.connect target, [socksVersion, repSuccess, 0x00, atypIpv4, 0, 0, 0, 0, 0, 0])
    else if req.getD 1 0 = cmdUdpAssociate then
      let clientAddr ← readAddress (req.getD 3 0)
      match relay with
      | none => throw .io
      | some relayAddr =>
        return (.udpAssociate relayAddr (udpAssociateClientAddr clientAddr),
          encodeReply repSuccess relayAddr)
    else
      refuse [socksVersion, repCmdNotSupported, 0x00, atypIpv4, 0, 0, 0, 0, 0, 0]
        (.unsupportedCmd (req.getD 1 0))

/-- The client side, through a proxy that was reached. -/
def socks5ClientConnect (target : String) (port : UInt16) : Socks Unit := do
  writeAll [socksVersion, 0x01, authNone]
  let resp ← readExact 2
  bailIf (resp.getD 0 0 ≠ socksVersion) (.proxyNotSocks5 (resp.getD 0 0))
  bailIf (resp.getD 1 0 ≠ authNone) (.proxyRequiresAuth (resp.getD 1 0))
  let addrBytes ← encodeAddress target port
  writeAll ([socksVersion, cmdConnect, 0x00] ++ addrBytes)
  let head ← readExact 4
  bailIf (head.getD 0 0 ≠ socksVersion) .badReplyVersion
  bailIf (head.getD 1 0 ≠ repSuccess) (.connectFailed target port (head.getD 1 0))
  drainAddress (head.getD 3 0)

/-! ## Running a computation -/

theorem bind_ok {α β : Type} {x : Socks α} {f : α → Socks β} {s s₂ : Stream} {b : β}
    (h : (x >>= f) s = (.ok b, s₂)) : ∃ a s₁, x s = (.ok a, s₁) ∧ f a s₁ = (.ok b, s₂) := by
  have hrun : (x >>= f) s = ExceptT.bindCont f (x s).1 (x s).2 := rfl
  rw [hrun] at h
  cases hx : x s with
  | mk r s₁ =>
    rw [hx] at h
    cases r with
    | ok a => exact ⟨a, s₁, rfl, h⟩
    | error e => cases h

theorem pure_ok {α : Type} {a b : α} {s s' : Stream} (h : (pure a : Socks α) s = (.ok b, s')) :
    a = b ∧ s = s' := by
  cases h
  exact ⟨rfl, rfl⟩

theorem bailIf_ok {c : Prop} [Decidable c] {e : Socks5Error} {u : Unit} {s s' : Stream}
    (h : bailIf c e s = (.ok u, s')) : ¬ c ∧ s = s' := by
  unfold bailIf at h
  split_ifs at h with hc
  · cases h
  · exact ⟨hc, (pure_ok h).2⟩

theorem refuse_not_ok {α : Type} {reply : Bytes} {e : Socks5Error} {a : α} {s s' : Stream}
    (h : refuse reply e s = (.ok a, s')) : False := by
  obtain ⟨u, s₁, -, h⟩ := bind_ok h
  cases h

theorem fromUtf8_ok {bs : Bytes} {t : String} {s s' : Stream}
    (h : (liftM (fromUtf8 bs) : Socks String) s = (.ok t, s')) : bytesOf t = bs ∧ s = s' := by
  unfold fromUtf8 at h
  split at h
  · cases h
  · rename_i t' ht
    cases h
    exact ⟨bytesOf_fromUTF8? ht, rfl⟩

theorem readExact_ok {n : ℕ} {bs : Bytes} {s s' : Stream} (h : readExact n s = (.ok bs, s')) :
    bs.length = n ∧ s.input = bs ++ s'.input ∧ s'.output = s.output := by
  unfold readExact at h
  split_ifs at h
  · cases h
  · cases h
    refine ⟨?_, (List.take_append_drop n s.input).symm, rfl⟩
    rw [List.length_take]
    omega

/-! ## Address fields -/

/-- An address field of a request, as the peer sent it. -/
inductive AddrField where
  | ipv4 (ip : Ipv4Addr)
  | domain (name : String) (short : (bytesOf name).length ≤ 255)
  | ipv6 (octets : Bytes) (length_eq : octets.length = 16)

namespace AddrField

def atyp : AddrField → UInt8
  | ipv4 _ => atypIpv4
  | domain _ _ => atypDomain
  | ipv6 _ _ => atypIpv6

/-- The bytes between the type and the port. -/
def body : AddrField → Bytes
  | ipv4 ip => ip.octets
  | domain name _ => UInt8.ofNat (bytesOf name).length :: bytesOf name
  | ipv6 octets _ => octets

/-- The text the readers make of the field. -/
def text : AddrField → String
  | ipv4 ip => dottedQuad ip
  | domain name _ => name
  | ipv6 octets _ => colonGroups octets

/-- A domain that is the text of an IP address stands for that address. -/
def resolved : AddrField → AddrField
  | domain name short =>
    match ipv4FromStr name with
    | some ip => ipv4 ip
    | none =>
      match ipv6FromStr name with
      | some ip => ipv6 ip.octets ip.length_octets
      | none => domain name short
  | F => F

/-- The field and the port behind it. -/
def wire (F : AddrField) (port : UInt16) : Bytes := F.atyp :: F.body ++ beBytes 2 port.toNat

end AddrField

/-- **What is read from a field is written as that field.** -/
theorem encodeAddress_text (F : AddrField) (port : UInt16) :
    encodeAddress F.text port = .ok (F.resolved.wire port) := by
  cases F with
  | ipv4 ip =>
    rw [AddrField.text, encodeAddress, ipv4FromStr_dottedQuad]
    rfl
  | domain name short =>
    have htext : (AddrField.domain name short).text = name := rfl
    rw [htext, encodeAddress, AddrField.resolved]
    cases h4 : ipv4FromStr name with
    | some ip => rfl
    | none =>
      cases h6 : ipv6FromStr name with
      | some ip => rfl
      | none =>
        simp only
        rw [if_neg (by omega)]
        rfl
  | ipv6 octets hlen =>
    obtain ⟨h4, ip, h6, ho⟩ := ipv6FromStr_colonGroups hlen
    rw [AddrField.text, encodeAddress, h4]
    simp only [h6, ho]
    rfl

theorem beBytes_be16 (hi lo : UInt8) : beBytes 2 (be16 hi lo).toNat = [hi, lo] := by
  have hpair : beBytes 2 (be16 hi lo).toNat = Ipv6Addr.pair (be16 hi lo) := by simp [beBytes, Ipv6Addr.pair]
  rw [hpair, pair_be16]

theorem beBytes_portAt {buf : Bytes} {i : ℕ} (h : buf.length = i + 2) :
    beBytes 2 (portAt buf i).toNat = buf.drop i := by
  rw [portAt, beBytes_be16, List.drop_eq_getElem_cons (show i < buf.length by omega),
    List.drop_eq_getElem_cons (show i + 1 < buf.length by omega), List.drop_eq_nil_of_le (by omega),
    List.getD_eq_getElem?_getD, List.getD_eq_getElem?_getD,
    List.getElem?_eq_getElem (by omega), List.getElem?_eq_getElem (by omega)]
  rfl

/-- A successful read found a field and a port at the head of the stream, and consumed just that. -/
theorem readAddress_spec {atyp : UInt8} {t : TargetAddr} {s s' : Stream}
    (h : readAddress atyp s = (.ok t, s')) :
    ∃ F : AddrField, F.atyp = atyp ∧ t.address = F.text ∧
      s.input = F.body ++ beBytes 2 t.port.toNat ++ s'.input ∧ s'.output = s.output := by
  unfold readAddress at h
  split_ifs at h with h1 h3 h4
  · obtain ⟨buf, s₁, hbuf, h⟩ := bind_ok h
    obtain ⟨rfl, rfl⟩ := pure_ok h
    obtain ⟨hlen, hin, hout⟩ := readExact_ok hbuf
    refine ⟨.ipv4 ⟨buf.getD 0 0, buf.getD 1 0, buf.getD 2 0, buf.getD 3 0⟩, h1.symm, rfl, ?_, hout⟩
    rw [beBytes_portAt hlen, hin]
    congr 1
    match buf, hlen with
    | [a, b, c, d, p, q], _ => rfl
  · obtain ⟨len, s₁, hl, h⟩ := bind_ok h
    obtain ⟨addr, s₂, ha, h⟩ := bind_ok h
    obtain ⟨portBuf, s₃, hp, h⟩ := bind_ok h
    obtain ⟨address, s₄, hu, h⟩ := bind_ok h
    obtain ⟨rfl, rfl⟩ := pure_ok h
    obtain ⟨hllen, hlin, hlout⟩ := readExact_ok hl
    obtain ⟨halen, hain, haout⟩ := readExact_ok ha
    obtain ⟨hplen, hpin, hpout⟩ := readExact_ok hp
    obtain ⟨hname, rfl⟩ := fromUtf8_ok hu
    have hshort : (bytesOf address).length ≤ 255 := by
      have := (len.getD 0 0).toNat_lt
      rw [hname]
      omega
    refine ⟨.domain address hshort, h3.symm, rfl, ?_, hpout.trans (haout.trans hlout)⟩
    obtain ⟨l, rfl⟩ := List.length_eq_one_iff.mp hllen
    have hl8 : UInt8.ofNat addr.length = l := by
      rw [halen]
      exact UInt8.ofNat_toNat
    rw [beBytes_portAt hplen, hlin, hain, hpin, AddrField.body, hname, hl8]
    simp
  · obtain ⟨buf, s₁, hbuf, h⟩ := bind_ok h
    obtain ⟨rfl, rfl⟩ := pure_ok h
    obtain ⟨hlen, hin, hout⟩ := readExact_ok hbuf
    refine ⟨.ipv6 (buf.take 16) (by rw [List.length_take]; omega), h4.symm, rfl, ?_, hout⟩
    rw [beBytes_portAt hlen, hin, AddrField.body, List.take_append_drop]
  · cases h

/-! ## An accepted request -/

theorem writeAll_ok {bs : Bytes} {u : Unit} {s s' : Stream} (h : writeAll bs s = (.ok u, s')) :
    s'.input = s.input ∧ s'.output = s.output ++ bs := by
  unfold writeAll at h
  split_ifs at h
  · cases h
    exact ⟨rfl, rfl⟩
  · cases h

/-- What a client sent whose CONNECT was accepted. -/
theorem socks5ServerAccept_connect {relay : Option SocketAddr} {t : TargetAddr} {rep : Bytes}
    {s s' : Stream} (h : socks5ServerAccept relay s = (.ok (.connect t, rep), s')) :
    ∃ (methods : Bytes) (rsv : UInt8) (F : AddrField), methods.length ≤ 255 ∧ authNone ∈ methods ∧
      t.address = F.text ∧
      s.input = [socksVersion, UInt8.ofNat methods.length] ++ methods ++
        ([socksVersion, cmdConnect, rsv] ++ F.wire t.port) ++ s'.input ∧
      s'.output = s.output ++ [socksVersion, authNone] := by
  obtain ⟨hdr, s₁, hhdr, h₁⟩ := bind_ok h
  obtain ⟨_, _, hb, h₂⟩ := bind_ok h₁
  obtain ⟨hv, rfl⟩ := bailIf_ok hb
  obtain ⟨_, _, hb, h₃⟩ := bind_ok h₂
  obtain ⟨-, rfl⟩ := bailIf_ok hb
  obtain ⟨methods, s₂, hm, h₄⟩ := bind_ok h₃
  by_cases hauth : authNone ∈ methods
  · rw [if_neg (not_not.mpr hauth)] at h₄
    obtain ⟨_, s₃, hw, h₅⟩ := bind_ok h₄
    obtain ⟨req, s₄, hreq, h₆⟩ := bind_ok h₅
    obtain ⟨_, _, hb, h₇⟩ := bind_ok h₆
    obtain ⟨hrv, rfl⟩ := bailIf_ok hb
    split_ifs at h₇ with hcmd hudp
    · obtain ⟨t', s₅, ha, h₈⟩ := bind_ok h₇
      obtain ⟨heq, rfl⟩ := pure_ok h₈
      obtain ⟨ht, -⟩ := Prod.mk.inj heq
      obtain rfl : t' = t := Socks5Result.connect.inj ht
      obtain ⟨F, hatyp, htext, hain, haout⟩ := readAddress_spec ha
      obtain ⟨hhlen, hhin, hhout⟩ := readExact_ok hhdr
      obtain ⟨hmlen, hmin, hmout⟩ := readExact_ok hm
      obtain ⟨hwin, hwout⟩ := writeAll_ok hw
      obtain ⟨hrlen, hrin, hrout⟩ := readExact_ok hreq
      have hml := (hdr.getD 1 0).toNat_lt
      refine ⟨methods, req.getD 2 0, F, by omega, hauth, htext, ?_, ?_⟩
      · match hdr, hhlen, req, hrlen with
        | [v, n], _, [rv, cmd, rsv, atyp], _ =>
          obtain rfl : v = socksVersion := not_not.mp hv
          obtain rfl : rv = socksVersion := not_not.mp hrv
          obtain rfl : cmd = cmdConnect := hcmd
          obtain rfl : F.atyp = atyp := hatyp
          have hn : UInt8.ofNat methods.length = n := by
            rw [hmlen]
            exact UInt8.ofNat_toNat
          rw [hhin, hmin, ← hwin, hrin, hain, hn]
          simp [AddrField.wire]
      · rw [haout, hrout, hwout, hmout, hhout]
    · obtain ⟨c, s₅, -, h₈⟩ := bind_ok h₇
      cases relay with
      | none => cases h₈
      | some r =>
        obtain ⟨heq, -⟩ := pure_ok h₈
        cases heq
    · exact (refuse_not_ok h₇).elim
  · rw [if_pos hauth] at h₄
    exact (refuse_not_ok h₄).elim

end RoundRobin.Socks5
