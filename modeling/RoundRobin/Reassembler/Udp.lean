import RoundRobin.Lib.Machine
import RoundRobin.Socks5.Handshake

/-!
# RoundRobin.Reassembler.Udp — the sockets of a UDP association

`src/reassembler.rs`: `normalize_ip`, `UdpPair::send_to` with `resolve_target`, `forward_udp_datagram`, and the task
the SYN handler spawns for an association, which wraps what the sockets receive and sends it to the splitter.

Each socket has a buffer of its own that keeps what earlier datagrams left in it.  `UdpResponder.run_wrapped` says
that none of it gets out: the tunnels hold the datagrams as they came, each behind the address it came from, in
order.
-/

namespace RoundRobin.Socks5

open IpText

/-- `normalize_ip`. -/
def normalizeIp : IpAddr → String
  | .v6 ip =>
    match ip.toIpv4Mapped with
    | some ip4 => dottedQuad ip4
    | none => ip.display
  | .v4 ip => dottedQuad ip

namespace IpAddr

/-- The address a peer of a dual-stack socket really has. -/
def canonical : IpAddr → IpAddr
  | v6 ip =>
    match ip.toIpv4Mapped with
    | some ip4 => v4 ip4
    | none => v6 ip
  | v4 ip => v4 ip

theorem nonempty_field (ip : IpAddr) : ip.field.Nonempty := by
  cases ip with
  | v4 ip => trivial
  | v6 ip => trivial

theorem length_field (ip : IpAddr) : ip.field.body.length ≤ 16 := by
  cases ip with
  | v4 ip => exact (by decide : 4 ≤ 16)
  | v6 ip => exact ip.length_octets.le

end IpAddr

/-- **The text of a socket's peer is encoded as the peer's address.** -/
theorem encodeAddress_normalizeIp (ip : IpAddr) (port : UInt16) :
    encodeAddress (normalizeIp ip) port = .ok (ip.canonical.field.wire port) := by
  have h4 : ∀ ip4, encodeAddress (dottedQuad ip4) port = .ok ((AddrField.ipv4 ip4).wire port) :=
    fun ip4 => encodeAddress_text (.ipv4 ip4) port
  cases ip with
  | v4 ip => exact h4 ip
  | v6 ip =>
    rw [normalizeIp, IpAddr.canonical]
    cases hm : ip.toIpv4Mapped with
    | some ip4 => exact h4 ip4
    | none =>
      obtain ⟨h6, hno⟩ := ipv6FromStr_display ip
      simp only [encodeAddress, hno, h6]
      rfl

/-- A datagram from `src`, as the splitter's client gets it. -/
def wrapped (src : SocketAddr) (data : Bytes) : Bytes :=
  [0, 0, 0] ++ (src.ip.canonical.field.wire src.port ++ data)

theorem encodeUdpDatagram_normalizeIp (src : SocketAddr) (data : Bytes) :
    encodeUdpDatagram ⟨normalizeIp src.ip, src.port⟩ data = .ok (wrapped src data) := by
  simp only [encodeUdpDatagram, encodeAddress_normalizeIp, List.append_assoc, wrapped]

theorem decodeUdpDatagram_wrapped (src : SocketAddr) (data : Bytes) :
    decodeUdpDatagram (wrapped src data) = pure (⟨src.ip.canonical.field.text, src.port⟩, data) :=
  decodeUdpDatagram_wire src.ip.canonical.nonempty_field src.port 0 0 data

theorem length_wrapped (src : SocketAddr) (data : Bytes) : (wrapped src data).length ≤ 22 + data.length := by
  have := src.ip.canonical.length_field
  have hw := length_wire src.ip.canonical.field src.port
  simp only [wrapped, List.length_append, List.length_cons, List.length_nil]
  omega

end RoundRobin.Socks5

namespace RoundRobin.Reassembler

open Socks5 IpText

/-! ## To the targets -/

/-- Whether an association has a socket for IPv6. -/
structure UdpPair where
  v6 : Bool

/-- The socket a datagram leaves through. -/
inductive Family where
  | v4
  | v6
  deriving DecidableEq, Repr

/-- `UdpPair::send_to`, up to the socket: which one sends, and to which address.  `resolve` is the first address
`resolve_target` gets in time. -/
def UdpPair.sendTo (pair : UdpPair) (resolve : String → UInt16 → Option IpAddr) (host : String) (port : UInt16) :
    Option (Family × SocketAddr) :=
  match (ipFromStr host).orElse fun _ => resolve host port with
  | none => none
  | some (.v4 ip) => some (.v4, ⟨.v4 ip, port⟩)
  | some (.v6 ip) => if pair.v6 then some (.v6, ⟨.v6 ip, port⟩) else none

/-- What `forward_udp_datagram` gives to a socket. -/
def forwardUdpDatagram (pair : UdpPair) (resolve : String → UInt16 → Option IpAddr) (payload : Bytes) :
    Option (Family × SocketAddr × Bytes) :=
  match (decodeUdpDatagram payload).run with
  | some (.ok (target, data)) => (pair.sendTo resolve target.address target.port).map fun r => (r.1, r.2, data)
  | _ => none

/-! ## From the targets -/

/-- The task that reads both sockets.  `heard` and `sent` are history variables. -/
structure UdpResponder where
  connId : ConnId
  pair : UdpPair
  /-- Stored permit of the teardown signal. -/
  cancel : Bool
  buf4 : Bytes
  buf6 : Bytes
  seq : UInt64
  done : Bool
  heard : List (SocketAddr × Bytes)
  sent : List Frame

namespace UdpResponder

/-- The size of both buffers. -/
def bufLen : ℕ := 65535

inductive Event where
  /-- The IPv4 socket receives `data`; `taken` says whether a link takes the frame. -/
  | recvV4 (ip : Ipv4Addr) (port : UInt16) (data : Bytes) (taken : Bool)
  | recvV6 (ip : Ipv6Addr) (port : UInt16) (data : Bytes) (taken : Bool)
  | recvError
  /-- `signal_teardown`. -/
  | teardown
  | cancelArm

def new (c : ConnId) (pair : UdpPair) : UdpResponder where
  connId := c
  pair := pair
  cancel := false
  buf4 := List.replicate bufLen 0
  buf6 := List.replicate bufLen 0
  seq := 1
  done := false
  heard := []
  sent := []

/-- A receive of `data` into a buffer. -/
def fill (buf data : Bytes) : Bytes := data ++ buf.drop data.length

/-- What follows a receive of `n` bytes from `src`. -/
def respond (s : UdpResponder) (n : ℕ) (src : SocketAddr) (taken : Bool) : UdpResponder :=
  let payload := match src.ip with
    | .v4 _ => s.buf4.take n
    | .v6 _ => s.buf6.take n
  match encodeUdpDatagram ⟨normalizeIp src.ip, src.port⟩ payload with
  | .error _ => s
  | .ok dgram =>
    if dgram.length > maxPayload then s
    else if taken then { s with sent := s.sent ++ [.data s.connId s.seq dgram], seq := s.seq + 1 }
    else s

/-- One event, if it can happen. -/
def step (s : UdpResponder) : Event → Option UdpResponder
  | .recvV4 ip port data taken =>
    if s.done = false ∧ data.length ≤ bufLen then
      let src : SocketAddr := ⟨.v4 ip, port⟩
      some (({ s with buf4 := fill s.buf4 data, heard := s.heard ++ [(src, data)] } : UdpResponder).respond
        data.length src taken)
    else none
  | .recvV6 ip port data taken =>
    if s.done = false ∧ s.pair.v6 = true ∧ data.length ≤ bufLen then
      let src : SocketAddr := ⟨.v6 ip, port⟩
      some (({ s with buf6 := fill s.buf6 data, heard := s.heard ++ [(src, data)] } : UdpResponder).respond
        data.length src taken)
    else none
  | .recvError => if s.done = false then some { s with done := true } else none
  | .teardown => some { s with cancel := true }
  | .cancelArm => if s.done = false ∧ s.cancel = true then some { s with cancel := false, done := true } else none

def run (s : UdpResponder) (es : List Event) : Option UdpResponder := Machine.run step s es

variable {s s' : UdpResponder} {e : Event}

theorem take_fill (buf data : Bytes) : (fill buf data).take data.length = data := List.take_left

/-- The frame is the datagram in the socket's own buffer, unless it does not fit. -/
theorem respond_eq {n : ℕ} {src : SocketAddr} {taken : Bool} {data : Bytes}
    (h : (match src.ip with | .v4 _ => s.buf4.take n | .v6 _ => s.buf6.take n) = data) :
    s.respond n src taken =
      if taken = true ∧ (wrapped src data).length ≤ maxPayload then
        { s with sent := s.sent ++ [.data s.connId s.seq (wrapped src data)], seq := s.seq + 1 }
      else s := by
  simp only [respond, h, encodeUdpDatagram_normalizeIp]
  by_cases hlen : (wrapped src data).length ≤ maxPayload
  · rw [if_neg (by omega)]
    cases taken with
    | true => rw [if_pos rfl, if_pos ⟨rfl, hlen⟩]
    | false => rw [if_neg Bool.false_ne_true, if_neg (fun h => Bool.false_ne_true h.1)]
  · rw [if_pos (by omega), if_neg (fun h => hlen h.2)]

/-- The source and the bytes of a datagram, and whether a link takes its frame. -/
def Event.received : Event → Option (SocketAddr × Bytes × Bool)
  | .recvV4 ip port data taken => some (⟨.v4 ip, port⟩, data, taken)
  | .recvV6 ip port data taken => some (⟨.v6 ip, port⟩, data, taken)
  | _ => none

/-- What an event does to what was heard and sent. -/
def Trans (s : UdpResponder) (e : Event) (s' : UdpResponder) : Prop :=
  s'.connId = s.connId ∧
    match e.received with
    | some (src, data, taken) => s'.heard = s.heard ++ [(src, data)] ∧
      ((taken = true ∧ (wrapped src data).length ≤ maxPayload ∧
        s'.sent = s.sent ++ [.data s.connId s.seq (wrapped src data)] ∧ s'.seq = s.seq + 1) ∨
      (¬ (taken = true ∧ (wrapped src data).length ≤ maxPayload) ∧ s'.sent = s.sent ∧ s'.seq = s.seq))
    | none => s'.heard = s.heard ∧ s'.sent = s.sent ∧ s'.seq = s.seq

theorem respond_trans {b : UdpResponder} {n : ℕ} {src : SocketAddr} {taken : Bool} {data : Bytes}
    (he : e.received = some (src, data, taken)) (hc : b.connId = s.connId) (hh : b.heard = s.heard ++ [(src, data)])
    (hs : b.sent = s.sent) (hq : b.seq = s.seq)
    (hbuf : (match src.ip with | .v4 _ => b.buf4.take n | .v6 _ => b.buf6.take n) = data) :
    s.Trans e (b.respond n src taken) := by
  rw [respond_eq hbuf, Trans, he]
  by_cases hsend : taken = true ∧ (wrapped src data).length ≤ maxPayload
  · rw [if_pos hsend]
    exact ⟨hc, hh, .inl ⟨hsend.1, hsend.2, by rw [hs, hc, hq], by rw [hq]⟩⟩
  · rw [if_neg hsend]
    exact ⟨hc, hh, .inr ⟨hsend, hs, hq⟩⟩

theorem step_trans (h : s.step e = some s') : s.Trans e s' := by
  cases e with
  | recvV4 ip port data taken =>
    obtain ⟨-, h⟩ := Option.ite_none_right_eq_some.mp h
    obtain rfl := Option.some.inj h
    exact respond_trans rfl rfl rfl rfl rfl (take_fill s.buf4 data)
  | recvV6 ip port data taken =>
    obtain ⟨-, h⟩ := Option.ite_none_right_eq_some.mp h
    obtain rfl := Option.some.inj h
    exact respond_trans rfl rfl rfl rfl rfl (take_fill s.buf6 data)
  | recvError =>
    obtain ⟨-, h⟩ := Option.ite_none_right_eq_some.mp h
    obtain rfl := Option.some.inj h
    exact ⟨rfl, rfl, rfl, rfl⟩
  | teardown =>
    obtain rfl := Option.some.inj h
    exact ⟨rfl, rfl, rfl, rfl⟩
  | cancelArm =>
    obtain ⟨-, h⟩ := Option.ite_none_right_eq_some.mp h
    obtain rfl := Option.some.inj h
    exact ⟨rfl, rfl, rfl, rfl⟩

/-- The tunnels hold some of the datagrams, in order and numbered from 1. -/
def Wrapped (s : UdpResponder) (out : List (SocketAddr × Bytes)) : Prop :=
  s.sent = Frame.dataFrames s.connId (out.map fun x => wrapped x.1 x.2) ∧ s.seq = UInt64.ofNat (out.length + 1) ∧
    out.Sublist s.heard ∧ ∀ x ∈ out, (wrapped x.1 x.2).length ≤ maxPayload

theorem Wrapped.trans {out : List (SocketAddr × Bytes)} (hi : s.Wrapped out) (h : s.Trans e s') :
    ∃ out', s'.Wrapped out' := by
  obtain ⟨hsent, hseq, hsub, hfit⟩ := hi
  obtain ⟨hc, h⟩ := h
  cases he : e.received with
  | none =>
    rw [he] at h
    obtain ⟨hh, hs, hq⟩ := h
    exact ⟨out, by rw [hs, hc, hsent], by rw [hq, hseq], by rw [hh]; exact hsub, hfit⟩
  | some x =>
    obtain ⟨src, data, taken⟩ := x
    rw [he] at h
    obtain ⟨hh, ⟨-, hlen, hs, hq⟩ | ⟨-, hs, hq⟩⟩ := h
    · refine ⟨out ++ [(src, data)], ?_, ?_, ?_, fun x hx => ?_⟩
      · rw [List.map_append, List.map_singleton, Frame.dataFrames_concat, List.length_map, hs, hc, hsent, hseq]
      · rw [hq, hseq, List.length_append, List.length_singleton, UInt64.ofNat_add (out.length + 1) 1]
        rfl
      · rw [hh]
        exact hsub.append (List.Sublist.refl _)
      · rcases List.mem_append.mp hx with hx | hx
        · exact hfit x hx
        · rw [List.mem_singleton.mp hx]
          exact hlen
    · refine ⟨out, by rw [hs, hc, hsent], by rw [hq, hseq], ?_, hfit⟩
      rw [hh]
      exact hsub.trans (List.sublist_append_left _ _)

theorem run_wrapped {c : ConnId} {pair : UdpPair} {es : List Event} (h : (new c pair).run es = some s) :
    s.connId = c ∧ ∃ out, s.Wrapped out := by
  refine Machine.run_inv (fun x : UdpResponder => x.connId = c ∧ ∃ out, x.Wrapped out) h ⟨rfl, [], rfl, rfl,
    List.Sublist.refl _, fun x hx => (List.not_mem_nil hx).elim⟩ ?_
  rintro x y e ⟨hc, out, hx⟩ hxy
  have htr := step_trans hxy
  exact ⟨htr.1.trans hc, hx.trans htr⟩

/-- **The responses of an association.**  In every run the tunnels hold some of the datagrams that reached its
sockets, in order, numbered from 1, and none over the frame limit: each behind the field of the address it came
from, that of the IPv4 address if it was mapped, so that it is decoded to that address, its port and exactly its
bytes.  Of those within the limit, only what no link took is missing. -/
theorem udp_responder {c : ConnId} {pair : UdpPair} {es : List Event} (h : (new c pair).run es = some s) :
    (∃ out : List (SocketAddr × Bytes), s.sent = Frame.dataFrames c (out.map fun x => wrapped x.1 x.2) ∧
      out.Sublist s.heard ∧
      ∀ x ∈ out, (wrapped x.1 x.2).length ≤ maxPayload ∧ (decodeUdpDatagram (wrapped x.1 x.2)).run =
        some (.ok (⟨x.1.ip.canonical.field.text, x.1.port⟩, x.2))) ∧
    ∀ e s' src data, s.step e = some s' → e.received = some (src, data, true) → data.length + 22 ≤ maxPayload →
      s'.sent = s.sent ++ [.data c s.seq (wrapped src data)] := by
  obtain ⟨hc, out, hsent, -, hsub, hfit⟩ := run_wrapped h
  refine ⟨⟨out, hc ▸ hsent, hsub, fun x hx => ⟨hfit x hx, ?_⟩⟩, fun e s' src data hstep he hlen => ?_⟩
  · rw [decodeUdpDatagram_wrapped]
    rfl
  · obtain ⟨-, htr⟩ := step_trans hstep
    rw [he] at htr
    obtain ⟨-, ⟨-, -, hs, -⟩ | ⟨hno, -⟩⟩ := htr
    · rw [hs, hc]
    · have := length_wrapped src data
      exact absurd ⟨rfl, by omega⟩ hno

/-- An answer of a name server on the IPv6 socket, from its mapped address. -/
def mappedAnswer : Event := .recvV6 (.ofSegments [0, 0, 0, 0, 0, 0xffff, 0x0808, 0x0808]) 53 [0xAB] true

theorem udp_responder_mapped :
    ∃ s, (new 7 ⟨true⟩).run [mappedAnswer] = some s ∧ s.sent = [.data 7 1 [0, 0, 0, 1, 8, 8, 8, 8, 0, 53, 0xAB]] := by
  have hrun : ∃ s, (new 7 ⟨true⟩).step mappedAnswer = some s := ⟨_, rfl⟩
  obtain ⟨s, hs⟩ := hrun
  have hnew : (new 7 ⟨true⟩).run [] = some (new 7 ⟨true⟩) := rfl
  have hsent := (udp_responder hnew).2 mappedAnswer s _ _ hs rfl (by decide)
  refine ⟨s, ?_, hsent⟩
  rw [run, Machine.run, hs]
  rfl

end UdpResponder

end RoundRobin.Reassembler
