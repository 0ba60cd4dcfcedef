import RoundRobin.Lib.Ipv6Text
import RoundRobin.Socks5.Readers

/-!
# RoundRobin.Socks5.Handshake — what the server accepts, and what both sides write

`socks5_server_accept` and `socks5_client_connect` of `src/socks5.rs`.  `Request.wire` is a greeting and a request.
The server accepts just these, and from the bytes it wrote its peer can tell how it ended (`Reported`); the
success reply is not among them, that one is written by the caller.  `exchange` runs a client and a server on what
the other has written so far.  Writes succeed throughout a handshake or fail throughout.
-/

namespace RoundRobin.Socks5

open BigEndian IpText

/-! ## The address a text names -/

/-- The field of an address. -/
def IpAddr.field : IpAddr → AddrField
  | v4 ip => .ipv4 ip
  | v6 ip => .ipv6 ip.octets ip.length_octets

/-- `IpAddr::from_str` reads what either of the two readers reads. -/
theorem ipFromStr_eq (s : String) :
    ipFromStr s = ((ipv4FromStr s).map IpAddr.v4).orElse fun _ => (ipv6FromStr s).map IpAddr.v6 := by
  unfold ipFromStr ipv4FromStr ipv6FromStr parseWith
  cases h4 : readIpv4Addr (bytesOf s) with
  | none =>
    cases h6 : readIpv6Addr (bytesOf s) with
    | none => simp [h4, h6]
    | some r =>
      obtain ⟨ip, rest⟩ := r
      cases rest <;> simp [h4, h6]
  | some r =>
    obtain ⟨ip, rest⟩ := r
    rw [readIpv6Addr_of_ipv4 h4]
    cases rest with
    | nil =>
      have hshort : ¬ 15 < (bytesOf s).length := by
        rw [readIpv4Addr_eq h4, List.append_nil]
        exact not_lt.mpr (length_quadBytes_le ip)
      simp [h4, hshort]
    | cons b rest => simp [h4]

theorem octets_injective {ip ip' : Ipv6Addr} (h : ip.octets = ip'.octets) : ip = ip' := by
  have hread (ip : Ipv6Addr) : (pairs ip.octets).map (fun p => be16 p.1 p.2) = List.ofFn ip.segments := by
    rw [Ipv6Addr.octets, pairs_flatMap_pair]
  rw [← ofSegments_segments ip, ← hread ip, h, hread ip', ofSegments_segments]

theorem field_injective {ip ip' : IpAddr} (h : ip.field = ip'.field) : ip = ip' := by
  cases ip with
  | v4 ip =>
    cases ip' with
    | v4 ip' => rw [AddrField.ipv4.inj h]
    | v6 ip' => cases h
  | v6 ip =>
    cases ip' with
    | v4 ip' => cases h
    | v6 ip' => rw [octets_injective (AddrField.ipv6.inj h)]

/-- The text of a field names the address the field stands for. -/
theorem ipFromStr_text (F : AddrField) (ip : IpAddr) : ipFromStr F.text = some ip ↔ F.resolved = ip.field := by
  have hnamed (ip' : IpAddr) (hF : F.resolved = ip'.field) (htext : ipFromStr F.text = some ip') :
      ipFromStr F.text = some ip ↔ F.resolved = ip.field := by
    rw [htext, hF, Option.some.injEq]
    exact ⟨congrArg IpAddr.field, field_injective⟩
  cases F with
  | ipv4 ip4 =>
    refine hnamed (.v4 ip4) rfl ?_
    rw [ipFromStr_eq, AddrField.text, ipv4FromStr_dottedQuad]
    rfl
  | ipv6 octets hlen =>
    obtain ⟨h4, ip6, h6, ho⟩ := ipv6FromStr_colonGroups hlen
    subst ho
    refine hnamed (.v6 ip6) rfl ?_
    rw [ipFromStr_eq, AddrField.text, h4, h6]
    rfl
  | domain name short =>
    have htext : ipFromStr (AddrField.domain name short).text =
        ((ipv4FromStr name).map IpAddr.v4).orElse fun _ => (ipv6FromStr name).map IpAddr.v6 := ipFromStr_eq name
    cases h4 : ipv4FromStr name with
    | some ip4 =>
      rw [h4] at htext
      exact hnamed (.v4 ip4) (by rw [AddrField.resolved, h4]; rfl) htext
    | none =>
      rw [h4] at htext
      cases h6 : ipv6FromStr name with
      | some ip6 =>
        rw [h6] at htext
        exact hnamed (.v6 ip6) (by rw [AddrField.resolved, h4]; simp only [h6]; rfl) htext
      | none =>
        rw [h6] at htext
        have hself : (AddrField.domain name short).resolved = .domain name short := by
          rw [AddrField.resolved, h4]
          simp only [h6]
        rw [htext, hself]
        constructor
        · intro h
          cases h
        · intro h
          cases ip with
          | v4 ip => cases h
          | v6 ip => cases h

/-- A client is pinned to the concrete address and port its field stands for. -/
theorem udpAssociateClientAddr_text (F : AddrField) (port : UInt16) (a : SocketAddr) :
    udpAssociateClientAddr ⟨F.text, port⟩ = some a ↔
      a.port = port ∧ port ≠ 0 ∧ a.ip.isUnspecified = false ∧ F.resolved = a.ip.field := by
  rw [udpAssociateClientAddr]
  by_cases hport : port = 0
  · simp [hport]
  rw [if_neg hport, ← ipFromStr_text]
  obtain ⟨ip, p⟩ := a
  cases hip : ipFromStr F.text with
  | none => simp
  | some ip' =>
    simp only [Option.some.injEq, Option.ite_none_right_eq_some, SocketAddr.mk.injEq]
    constructor
    · rintro ⟨hspec, rfl, rfl⟩
      exact ⟨rfl, hport, by simpa using hspec, rfl⟩
    · rintro ⟨rfl, -, hspec, rfl⟩
      exact ⟨by simpa using hspec, rfl, rfl⟩

/-! ## Requests -/

/-- A greeting and a request. -/
structure Request where
  methods : Bytes
  cmd : UInt8
  rsv : UInt8
  field : AddrField
  port : UInt16

namespace Request

def wire (q : Request) : Bytes :=
  [socksVersion, UInt8.ofNat q.methods.length] ++ q.methods ++
    ([socksVersion, q.cmd, q.rsv] ++ q.field.wire q.port)

/-- The greeting counts its methods right, and offers the one the server knows. -/
structure Acceptable (q : Request) : Prop where
  short : q.methods.length ≤ 255
  auth : authNone ∈ q.methods

/-- What a request is granted, and the reply for it. -/
def grant (q : Request) (relay : Option SocketAddr) : Option (Socks5Result × Bytes) :=
  if q.cmd = cmdConnect then
    some (.connect ⟨q.field.text, q.port⟩, encodeReply repSuccess ⟨.v4 ⟨0, 0, 0, 0⟩, 0⟩)
  else if q.cmd = cmdUdpAssociate then
    relay.map fun bound =>
      (.udpAssociate bound (udpAssociateClientAddr ⟨q.field.text, q.port⟩), encodeReply repSuccess bound)
  else none

end Request

theorem readExact_eq {n : ℕ} {bs : Bytes} {s s' : Stream} (h : readExact n s = (.ok bs, s')) :
    bs.length = n ∧ s = ⟨bs ++ s'.input, s'.output, s'.writable⟩ := by
  unfold readExact at h
  split_ifs at h with hshort
  · cases h
  · cases h
    refine ⟨List.length_take_of_le (not_lt.mp hshort), ?_⟩
    rw [List.take_append_drop]

theorem writeAll_eq {bs : Bytes} {u : Unit} {s s' : Stream} (h : writeAll bs s = (.ok u, s')) :
    s.writable = true ∧ s' = ⟨s.input, s.output ++ bs, true⟩ := by
  unfold writeAll at h
  split_ifs at h with hw
  · cases h
    rw [hw]
    exact ⟨rfl, rfl⟩
  · cases h

theorem readAddress_eq {atyp : UInt8} {t : TargetAddr} {s s' : Stream} (h : readAddress atyp s = (.ok t, s')) :
    ∃ F : AddrField, F.atyp = atyp ∧ t = ⟨F.text, t.port⟩ ∧
      s = ⟨F.body ++ beBytes 2 t.port.toNat ++ s'.input, s'.output, s'.writable⟩ := by
  obtain ⟨F, rfl, htext, hin, -⟩ := readAddress_spec h
  obtain ⟨input, output, writable⟩ := s
  obtain rfl : input = F.body ++ beBytes 2 t.port.toNat ++ s'.input := hin
  rw [readAddress_body] at h
  obtain ⟨-, hs'⟩ := Prod.mk.inj h
  refine ⟨F, rfl, ?_, ?_⟩
  · rw [← htext]
  · rw [← hs']

/-- What is accepted is a request. -/
theorem socks5ServerAccept_ok {relay : Option SocketAddr} {r : Socks5Result × Bytes} {s s' : Stream}
    (h : socks5ServerAccept relay s = (.ok r, s')) :
    ∃ q : Request, q.Acceptable ∧ q.grant relay = some r ∧ s = ⟨q.wire ++ s'.input, s.output, true⟩ ∧
      s' = ⟨s'.input, s.output ++ [socksVersion, authNone], true⟩ := by
  obtain ⟨hdr, s₁, hhdr, h₁⟩ := bind_ok h
  obtain ⟨_, _, hb, h₂⟩ := bind_ok h₁
  obtain ⟨hv, rfl⟩ := bailIf_ok hb
  obtain ⟨_, _, hb, h₃⟩ := bind_ok h₂
  obtain ⟨-, rfl⟩ := bailIf_ok hb
  obtain ⟨methods, s₂, hm, h₄⟩ := bind_ok h₃
  by_cases hauth : authNone ∈ methods
  swap
  · rw [if_pos hauth] at h₄
    exact (refuse_not_ok h₄).elim
  rw [if_neg (not_not.mpr hauth)] at h₄
  obtain ⟨_, s₃, hw, h₅⟩ := bind_ok h₄
  obtain ⟨req, s₄, hreq, h₆⟩ := bind_ok h₅
  obtain ⟨_, _, hb, h₇⟩ := bind_ok h₆
  obtain ⟨hrv, rfl⟩ := bailIf_ok hb
  -- both commands read an address, and only their results differ
  have hread : ∃ t s₅, readAddress (req.getD 3 0) s₄ = (.ok t, s₅) ∧ s₅ = s' ∧
      ∀ F : AddrField, t = ⟨F.text, t.port⟩ →
        Request.grant ⟨methods, req.getD 1 0, req.getD 2 0, F, t.port⟩ relay = some r := by
    split_ifs at h₇ with hcmd hudp
    · obtain ⟨t, s₅, ha, h₈⟩ := bind_ok h₇
      obtain ⟨rfl, rfl⟩ := pure_ok h₈
      refine ⟨t, s₅, ha, rfl, fun F ht => ?_⟩
      rw [Request.grant, if_pos hcmd, ← ht]
      rfl
    · obtain ⟨t, s₅, ha, h₈⟩ := bind_ok h₇
      cases relay with
      | none => cases h₈
      | some bound =>
        obtain ⟨rfl, rfl⟩ := pure_ok h₈
        refine ⟨t, s₅, ha, rfl, fun F ht => ?_⟩
        rw [Request.grant, if_neg hcmd, if_pos hudp, ← ht]
        rfl
    · exact (refuse_not_ok h₇).elim
  obtain ⟨t, s₅, ha, rfl, hgrant⟩ := hread
  obtain ⟨F, hatyp, ht, hs₄⟩ := readAddress_eq ha
  obtain ⟨hhlen, hs⟩ := readExact_eq hhdr
  obtain ⟨hmlen, hs₁⟩ := readExact_eq hm
  obtain ⟨hwritable, hs₃⟩ := writeAll_eq hw
  obtain ⟨hrlen, hs₃'⟩ := readExact_eq hreq
  have hshort : methods.length ≤ 255 := by
    have := (hdr.getD 1 0).toNat_lt
    omega
  subst hs hs₁ hs₃ hs₄
  obtain ⟨hin, hout, hopen⟩ := Stream.mk.inj hs₃'
  refine ⟨⟨methods, req.getD 1 0, req.getD 2 0, F, t.port⟩, ⟨hshort, hauth⟩, hgrant F ht, ?_, ?_⟩
  · match hdr, hhlen, req, hrlen with
    | [v, n], _, [rv, cmd, rsv, atyp], _ =>
      obtain rfl : v = socksVersion := not_not.mp hv
      obtain rfl : rv = socksVersion := not_not.mp hrv
      obtain rfl : F.atyp = atyp := hatyp
      have hn : UInt8.ofNat methods.length = n := by
        rw [hmlen]
        exact UInt8.ofNat_toNat
      rw [hwritable, hin]
      simp [Request.wire, AddrField.wire, hn]
  · rw [hout, hopen]

/-- A request is accepted, whatever follows it. -/
theorem socks5ServerAccept_run {q : Request} (hq : q.Acceptable) {relay : Option SocketAddr}
    {r : Socks5Result × Bytes} (h : q.grant relay = some r) (rest out : Bytes) :
    socks5ServerAccept relay ⟨q.wire ++ rest, out, true⟩ =
      (.ok r, ⟨rest, out ++ [socksVersion, authNone], true⟩) := by
  obtain ⟨methods, cmd, rsv, F, port⟩ := q
  have hn : (UInt8.ofNat methods.length).toNat = methods.length := by
    rw [UInt8.toNat_ofNat', Nat.mod_eq_of_lt (Nat.lt_of_le_of_lt hq.short (by decide))]
  have hne : methods.length ≠ 0 := (List.length_pos_of_mem hq.auth).ne'
  have hsplit : (Request.mk methods cmd rsv F port).wire ++ rest =
      [socksVersion, UInt8.ofNat methods.length] ++ (methods ++
        ([socksVersion, cmd, rsv, F.atyp] ++ (F.body ++ beBytes 2 port.toNat ++ rest))) := by
    simp [Request.wire, AddrField.wire]
  rw [hsplit]
  unfold socks5ServerAccept
  refine (bind_run (readExact_append rfl _ _ _)).trans ?_
  refine (bind_run (bailIf_run (not_not.mpr rfl) _ _)).trans ?_
  refine (bind_run (bailIf_run (hn.trans_ne hne) _ _)).trans ?_
  refine (bind_run (readExact_append hn.symm _ _ _)).trans ?_
  rw [if_neg (not_not.mpr hq.auth)]
  refine (bind_run (writeAll_run _ _ _)).trans ?_
  refine (bind_run (readExact_append rfl _ _ _)).trans ?_
  refine (bind_run (bailIf_run (not_not.mpr rfl) _ _)).trans ?_
  have haddr := readAddress_body F port rest (out ++ [socksVersion, authNone]) true
  rw [Request.grant] at h
  split_ifs at h with hcmd hudp
  · obtain rfl := Option.some.inj h
    refine (congrFun (if_pos hcmd) _).trans ?_
    exact bind_run haddr
  · obtain ⟨bound, rfl, rfl⟩ := Option.map_eq_some_iff.mp h
    refine (congrFun ((if_neg hcmd).trans (if_pos hudp)) _).trans ?_
    exact bind_run haddr

/-! ## What a side writes -/

/-- Whatever is on the stream, what `x` writes and its result satisfy `P`. -/
def Says {α : Type} (x : Socks α) (P : Except Socks5Error α → Bytes → Prop) : Prop :=
  ∀ s, ∃ said, (x s).2.output = s.output ++ said ∧ P (x s).1 said

/-- Nothing is written, and a failure is one of `E`. -/
def Quiet {α : Type} (x : Socks α) (E : Socks5Error → Prop) : Prop :=
  Says x fun r said => said = [] ∧ ∀ e, r = .error e → E e

section Says

variable {α β : Type} {x : Socks α} {f : α → Socks β} {E : Socks5Error → Prop}

theorem says_bind {P : Except Socks5Error α → Bytes → Prop} {Q : Except Socks5Error β → Bytes → Prop}
    (hx : Says x P) (hok : ∀ a said, P (.ok a) said → Says (f a) fun r more => Q r (said ++ more))
    (herr : ∀ e said, P (.error e) said → Q (.error e) said) : Says (x >>= f) Q := by
  intro s
  have hrun : (x >>= f) s = ExceptT.bindCont f (x s).1 (x s).2 := rfl
  obtain ⟨said, hout, hP⟩ := hx s
  rw [hrun]
  cases hr : (x s).1 with
  | ok a =>
    rw [hr] at hP
    obtain ⟨more, hmore, hQ⟩ := hok a said hP (x s).2
    refine ⟨said ++ more, ?_, hQ⟩
    rw [← List.append_assoc, ← hout]
    exact hmore
  | error e =>
    rw [hr] at hP
    exact ⟨said, hout, herr e said hP⟩

theorem says_pure {P : Except Socks5Error α → Bytes → Prop} {a : α} (h : P (.ok a) []) : Says (pure a) P :=
  fun _ => ⟨[], (List.append_nil _).symm, h⟩

theorem says_throw {P : Except Socks5Error α → Bytes → Prop} {e : Socks5Error} (h : P (.error e) []) :
    Says (throw e) P :=
  fun _ => ⟨[], (List.append_nil _).symm, h⟩

theorem says_writeAll {f : Unit → Socks β} {Q : Except Socks5Error β → Bytes → Prop} {bs : Bytes}
    (hf : Says (f ()) fun r more => Q r (bs ++ more)) (herr : Q (.error .io) []) :
    Says (writeAll bs >>= f) Q := by
  refine says_bind (P := fun r said => r = .ok () ∧ said = bs ∨ r = .error .io ∧ said = []) ?_ ?_ ?_
  · intro s
    unfold writeAll
    split_ifs
    · exact ⟨bs, rfl, .inl ⟨rfl, rfl⟩⟩
    · exact ⟨[], (List.append_nil _).symm, .inr ⟨rfl, rfl⟩⟩
  · rintro a said (⟨-, rfl⟩ | ⟨h, -⟩)
    · exact hf
    · cases h
  · rintro e said (⟨h, -⟩ | ⟨h, rfl⟩)
    · cases h
    · cases h
      exact herr

/-- A reply and a failure behind it; the reply itself may fail. -/
theorem says_refuse {P : Except Socks5Error α → Bytes → Prop} {reply : Bytes} {e : Socks5Error}
    (h : P (.error e) reply) (herr : P (.error .io) []) : Says (refuse reply e) P := by
  refine says_writeAll (says_throw ?_) herr
  rwa [List.append_nil]

theorem says_quiet {Q : Except Socks5Error β → Bytes → Prop} (hx : Quiet x E) (hok : ∀ a, Says (f a) Q)
    (herr : ∀ e, E e → Q (.error e) []) : Says (x >>= f) Q := by
  refine says_bind hx ?_ ?_
  · rintro a said ⟨rfl, -⟩
    exact hok a
  · rintro e said ⟨rfl, he⟩
    exact herr e (he e rfl)

theorem quiet_bind (hx : Quiet x E) (hf : ∀ a, Quiet (f a) E) : Quiet (x >>= f) E :=
  says_quiet hx hf fun e he => ⟨rfl, fun e' h => by cases h; exact he⟩

theorem quiet_pure (a : α) : Quiet (pure a) E := says_pure ⟨rfl, nofun⟩

theorem quiet_throw {e : Socks5Error} (h : E e) : Quiet (throw e : Socks α) E :=
  says_throw ⟨rfl, fun e' h' => by cases h'; exact h⟩

theorem quiet_readExact (n : ℕ) (h : E .io) : Quiet (readExact n) E := by
  intro s
  unfold readExact
  split_ifs
  · exact ⟨[], (List.append_nil _).symm, rfl, fun e he => by cases he; exact h⟩
  · exact ⟨[], (List.append_nil _).symm, rfl, nofun⟩

theorem quiet_bailIf {c : Prop} [Decidable c] {e : Socks5Error} (h : E e) : Quiet (bailIf c e) E := by
  unfold bailIf
  split_ifs
  · exact quiet_throw h
  · exact quiet_pure ()

theorem quiet_fromUtf8 (bs : Bytes) (h : E .utf8) : Quiet (liftM (fromUtf8 bs) : Socks String) E := by
  unfold fromUtf8
  split
  · exact quiet_throw h
  · exact quiet_pure _

theorem quiet_readAddress (atyp : UInt8) (hio : E .io) (hutf8 : E .utf8)
    (htype : E (.unsupportedAddressType atyp)) : Quiet (readAddress atyp) E := by
  unfold readAddress
  split_ifs
  · exact quiet_bind (quiet_readExact _ hio) fun _ => quiet_pure _
  · refine quiet_bind (quiet_readExact _ hio) fun len => ?_
    refine quiet_bind (quiet_readExact _ hio) fun addr => ?_
    refine quiet_bind (quiet_readExact _ hio) fun portBuf => ?_
    exact quiet_bind (quiet_fromUtf8 addr hutf8) fun address => quiet_pure _
  · exact quiet_bind (quiet_readExact _ hio) fun _ => quiet_pure _
  · exact quiet_throw htype

end Says

/-- What the server has written when it ends with a result. -/
def Reported : Except Socks5Error (Socks5Result × Bytes) → Bytes → Prop
  | .ok _, said => said = [socksVersion, authNone]
  | .error (.notSocks5 _), said | .error .noMethods, said => said = []
  | .error .requiresAuth, said => said = [socksVersion, 0xFF]
  | .error (.unsupportedCmd _), said =>
    said = [socksVersion, authNone] ++ [socksVersion, repCmdNotSupported, 0x00, atypIpv4, 0, 0, 0, 0, 0, 0]
  | .error .badRequestVersion, said | .error .utf8, said | .error (.unsupportedAddressType _), said =>
    said = [socksVersion, authNone]
  -- a read, a write or the bind of the relay failed
  | .error .io, said => said = [] ∨ said = [socksVersion, authNone]
  | .error _, _ => False

/-- The errors of a request that get no answer. -/
def Unanswered : Socks5Error → Prop
  | .io | .badRequestVersion | .utf8 | .unsupportedAddressType _ => True
  | _ => False

theorem reported_unanswered (e : Socks5Error) (h : Unanswered e) :
    Reported (.error e) ([socksVersion, authNone] ++ []) := by
  cases e with
  | io => exact .inr rfl
  | badRequestVersion | utf8 | unsupportedAddressType => rfl
  | _ => exact h.elim

/-- From what the server wrote its peer can tell how it ended. -/
theorem socks5ServerAccept_says (relay : Option SocketAddr) : Says (socks5ServerAccept relay) Reported := by
  unfold socks5ServerAccept
  refine says_quiet (E := (· = .io)) (quiet_readExact 2 rfl) (fun hdr => ?_) ?_
  swap
  · rintro e rfl
    exact .inl rfl
  refine says_quiet (E := (· = .notSocks5 (hdr.getD 0 0))) (quiet_bailIf rfl) (fun _ => ?_) ?_
  swap
  · rintro e rfl
    rfl
  refine says_quiet (E := (· = .noMethods)) (quiet_bailIf rfl) (fun _ => ?_) ?_
  swap
  · rintro e rfl
    rfl
  refine says_quiet (E := (· = .io)) (quiet_readExact _ rfl) (fun methods => ?_) ?_
  swap
  · rintro e rfl
    exact .inl rfl
  by_cases hauth : authNone ∈ methods
  swap
  · rw [if_pos hauth]
    exact says_refuse rfl (.inl rfl)
  rw [if_neg (not_not.mpr hauth)]
  refine says_writeAll ?_ (.inl rfl)
  -- from here on the method is chosen, and only an unsupported command is answered
  refine says_quiet (quiet_readExact 4 (E := Unanswered) trivial) (fun req => ?_) reported_unanswered
  refine says_quiet (quiet_bailIf (E := Unanswered) trivial) (fun _ => ?_) reported_unanswered
  have haddr := quiet_readAddress (E := Unanswered) (req.getD 3 0) trivial trivial trivial
  split_ifs
  · exact says_quiet haddr (fun target => says_pure rfl) reported_unanswered
  · refine says_quiet haddr (fun clientAddr => ?_) reported_unanswered
    cases relay with
    | none => exact says_throw (.inr rfl)
    | some bound => exact says_pure rfl
  · exact says_refuse rfl (.inr rfl)

/-- A client that sends its datagrams from port 80 of 127.0.0.1. -/
def associate : Request := ⟨[0], cmdUdpAssociate, 0, .ipv4 ⟨127, 0, 0, 1⟩, 80⟩

/-- What a side has written once `bs` has arrived: it waits where it would read more. -/
def saidAfter {α : Type} (x : Socks α) (bs : Bytes) : Bytes := (x ⟨bs, [], true⟩).2.output

/-- What client and server have written when each has read, `n` times, all the other had written. -/
def exchange {α β : Type} (client : Socks α) (server : Socks β) : ℕ → Bytes × Bytes
  | 0 => ([], [])
  | n + 1 =>
    let r := exchange client server n
    (saidAfter client r.2, saidAfter server r.1)

/-- What a client writes before it hears of the method. -/
def greeting : Bytes := [socksVersion, 0x01, authNone]

/-- What a client writes once it has. -/
def connectRequest (addr : Bytes) : Bytes := greeting ++ ([socksVersion, cmdConnect, 0x00] ++ addr)

/-- What is left of `socks5ClientConnect` behind the request. -/
def awaitReply (target : String) (port : UInt16) : Socks Unit := do
  let head ← readExact 4
  bailIf (head.getD 0 0 ≠ socksVersion) .badReplyVersion
  bailIf (head.getD 1 0 ≠ repSuccess) (.connectFailed target port (head.getD 1 0))
  drainAddress (head.getD 3 0)

theorem socks5ClientConnect_request {target : String} {port : UInt16} {addr : Bytes}
    (h : encodeAddress target port = .ok addr) (rest : Bytes) :
    socks5ClientConnect target port ⟨[socksVersion, authNone] ++ rest, [], true⟩ =
      awaitReply target port ⟨rest, connectRequest addr, true⟩ := by
  have hencode (s : Stream) : (liftM (encodeAddress target port) : Socks Bytes) s = (.ok addr, s) := by
    rw [h]
    rfl
  unfold socks5ClientConnect
  refine (bind_run (writeAll_run _ _ _)).trans ?_
  refine (bind_run (readExact_append rfl _ _ _)).trans ?_
  refine (bind_run (bailIf_run (by decide) _ _)).trans ?_
  refine (bind_run (bailIf_run (by decide) _ _)).trans ?_
  refine (bind_run (hencode _)).trans ?_
  exact bind_run (writeAll_run _ _ _)

/-- The request a client makes of a server. -/
theorem connectRequest_wire {target : String} {port : UInt16} {addr : Bytes}
    (h : encodeAddress target port = .ok addr) :
    ∃ q : Request, q.Acceptable ∧ q.wire = connectRequest addr ∧ q.cmd = cmdConnect ∧ q.port = port ∧
      encodeAddress q.field.text port = .ok addr := by
  obtain ⟨F, rfl, hF, -⟩ := encodeAddress_field h
  refine ⟨⟨[authNone], cmdConnect, 0, F, port⟩, ⟨(by decide : 1 ≤ 255), List.mem_singleton_self _⟩,
    rfl, rfl, rfl, ?_⟩
  rw [encodeAddress_text, hF]

/-- **A client and a server of this program meet.**  Each reads what the other has written so far: the third time
both have written all they will, and the server has accepted a target that is written as the client's is.  What the
client sends behind its request and what the server's side sends behind its reply is left on the streams;
and a client that is sent the failure reply ends with its code. -/
theorem socks5_exchange {target : String} {port : UInt16} {addr : Bytes}
    (h : encodeAddress target port = .ok addr) (relay : Option SocketAddr) :
    (∀ n, exchange (socks5ClientConnect target port) (socks5ServerAccept relay) (n + 3) =
      (connectRequest addr, [socksVersion, authNone])) ∧
    ∃ (t : TargetAddr) (rep : Bytes), encodeAddress t.address t.port = .ok addr ∧
      (∀ early, socks5ServerAccept relay ⟨connectRequest addr ++ early, [], true⟩ =
        (.ok (.connect t, rep), ⟨early, [socksVersion, authNone], true⟩)) ∧
      (∀ rest, socks5ClientConnect target port ⟨[socksVersion, authNone] ++ (rep ++ rest), [], true⟩ =
        (.ok (), ⟨rest, connectRequest addr, true⟩)) ∧
      ∀ rest, (socks5ClientConnect target port
        ⟨[socksVersion, authNone] ++ (replyGeneralFailure ++ rest), [], true⟩).1 =
          .error (.connectFailed target port 0x01) := by
  obtain ⟨q, hq, hwire, hcmd, hport, haddr⟩ := connectRequest_wire h
  have hgrant : q.grant relay =
      some (.connect ⟨q.field.text, q.port⟩, encodeReply repSuccess ⟨.v4 ⟨0, 0, 0, 0⟩, 0⟩) := by
    rw [Request.grant, if_pos hcmd]
  have hserver (early : Bytes) := socks5ServerAccept_run hq hgrant early []
  rw [hwire] at hserver
  -- what each side says to what it may have heard
  have hmethod : saidAfter (socks5ClientConnect target port) [socksVersion, authNone] = connectRequest addr := by
    have hrun := socks5ClientConnect_request h []
    rw [List.append_nil] at hrun
    rw [saidAfter, hrun]
    rfl
  have hchosen : saidAfter (socks5ServerAccept relay) (connectRequest addr) = [socksVersion, authNone] := by
    have hrun := hserver []
    rw [List.append_nil] at hrun
    rw [saidAfter, hrun]
    rfl
  refine ⟨fun n => ?_, ⟨q.field.text, q.port⟩, _, ?_, hserver, fun rest => ?_, fun rest => ?_⟩
  · induction n with
    | zero =>
      show (saidAfter (socks5ClientConnect target port) [socksVersion, authNone], [socksVersion, authNone]) = _
      rw [hmethod]
    | succ n ih => rw [exchange, ih, hmethod, hchosen]
  · rw [hport, haddr]
  · exact socks5ClientConnect_reply h ⟨.v4 ⟨0, 0, 0, 0⟩, 0⟩ rest []
  · rw [socks5ClientConnect_request h]
    rfl

/-- Port 443 of a name of one letter. -/
theorem socks5_exchange_name :
    exchange (socks5ClientConnect "a" 443) (socks5ServerAccept none) 3 =
        ([5, 1, 0, 5, 1, 0, 3, 1, 97, 1, 187], [5, 0]) ∧
      ∃ t rep, socks5ServerAccept none ⟨[5, 1, 0, 5, 1, 0, 3, 1, 97, 1, 187], [], true⟩ =
        (.ok (.connect t, rep), ⟨[], [5, 0], true⟩) := by
  have haddr : encodeAddress "a" 443 = .ok [3, 1, 97, 1, 187] := rfl
  obtain ⟨hboth, t, rep, -, hserver, -⟩ := socks5_exchange haddr none
  exact ⟨hboth 0, t, rep, hserver []⟩

end RoundRobin.Socks5
