import RoundRobin.Reassembler.Udp
import RoundRobin.Splitter.Udp

/-!
# RoundRobin.Association — a UDP association from end to end

The relay at the splitter and the sockets at the reassembler, with tunnels between them that may lose and reorder
frames but make none up.  Datagrams are not numbered for the client, so that is all they are asked for.
-/

namespace RoundRobin.Association

open Socks5 Splitter Reassembler IpText

/-- Where a datagram leaves to: the address it names, or what the name resolves to. -/
theorem sendTo_spec {pair : UdpPair} {resolve : String → UInt16 → Option IpAddr} {host : String} {port : UInt16}
    {family : Family} {dst : SocketAddr} (h : pair.sendTo resolve host port = some (family, dst)) :
    dst.port = port ∧ (family = .v6 ↔ ∃ ip, dst.ip = .v6 ip) ∧ (family = .v6 → pair.v6 = true) ∧
      (ipFromStr host).orElse (fun _ => resolve host port) = some dst.ip := by
  unfold UdpPair.sendTo at h
  cases hip : (ipFromStr host).orElse (fun _ => resolve host port) with
  | none =>
    rw [hip] at h
    cases h
  | some ip =>
    rw [hip] at h
    cases ip with
    | v4 ip =>
      obtain ⟨rfl, rfl⟩ := Prod.mk.inj (Option.some.inj h)
      exact ⟨rfl, ⟨nofun, fun ⟨_, h⟩ => by cases h⟩, nofun, rfl⟩
    | v6 ip =>
      obtain ⟨hv6, h⟩ := Option.ite_none_right_eq_some.mp h
      obtain ⟨rfl, rfl⟩ := Prod.mk.inj (Option.some.inj h)
      exact ⟨rfl, ⟨fun _ => ⟨ip, rfl⟩, fun _ => rfl⟩, fun _ => hv6, rfl⟩

variable {A : Type} [DecidableEq A]

/-- **A UDP association.**  Whatever the tunnels lose or reorder: each datagram the relay gives to a client goes
to the pinned address, and is one that came to a socket of the association, behind the address it came from; and
each datagram that leaves a socket is the data of one that came from the pinned address, to the target that one
names. -/
theorem udp_association {c : ConnId} {w : ℕ} {ca : Option A} {es : List (UdpRelay.Event A)} {s : UdpRelay A}
    (h : (UdpRelay.new c w ca).run es = some s) {pair : UdpPair} {rs : List UdpResponder.Event} {r : UdpResponder}
    (hr : (UdpResponder.new c pair).run rs = some r) (htunnels : ∀ f, .frame f ∈ es → f.has flagData = true → f ∈ r.sent)
    (resolve : String → UInt16 → Option IpAddr) :
    (∀ x ∈ s.answers, s.clientAddr = some x.1 ∧ ∃ src data, (src, data) ∈ r.heard ∧ x.2 = wrapped src data ∧
      (decodeUdpDatagram x.2).run = some (.ok (⟨src.ip.canonical.field.text, src.port⟩, data))) ∧
    ∀ f ∈ s.sent, ∀ family dst data, forwardUdpDatagram pair resolve f.payload = some (family, dst, data) →
      ∃ src target, s.clientAddr = some src ∧ (src, f.payload) ∈ s.heard ∧
        (decodeUdpDatagram f.payload).run = some (.ok (target, data)) ∧ dst.port = target.port ∧
        (ipFromStr target.address).orElse (fun _ => resolve target.address target.port) = some dst.ip ∧
        (family = .v6 ↔ ∃ ip, dst.ip = .v6 ip) ∧ (family = .v6 → pair.v6 = true) := by
  obtain ⟨hs, -, -⟩ := UdpRelay.run_safe h (UdpRelay.safe_new c w ca)
  constructor
  · intro x hx
    obtain ⟨-, out, hsent, -, hsub, -⟩ := UdpResponder.run_wrapped hr
    have hlog := UdpRelay.run_log (Q := fun p => p ∈ out.map fun x => wrapped x.1 x.2) h fun f hf hd =>
      Frame.payload_mem (hsent ▸ htunnels f hf hd)
    have hmem : x.2 ∈ s.vc.toClientTx.log :=
      hs.answered.queued.subset (List.mem_append_left _ (List.mem_map_of_mem hx))
    obtain ⟨⟨src, data⟩, hout, hx2⟩ := List.mem_map.mp (hlog x.2 hmem)
    refine ⟨hs.answered.pinned x hx, src, data, hsub.subset hout, hx2.symm, ?_⟩
    rw [← hx2, decodeUdpDatagram_wrapped]
    rfl
  · intro f hf family dst data hfwd
    obtain ⟨out, hsent, -, hsub⟩ := hs.relayed.out
    have hfrom : f.payload ∈ s.fromClient :=
      hsub.subset (List.mem_append_left _ (Frame.payload_mem (hsent ▸ hf)))
    obtain ⟨⟨src, p⟩, hsrc, rfl⟩ := List.mem_map.mp hfrom
    obtain ⟨hheard, hpinned⟩ := List.mem_filter.mp hsrc
    unfold forwardUdpDatagram at hfwd
    split at hfwd
    · rename_i target data' hdec
      obtain ⟨⟨family', dst'⟩, hsend, heq⟩ := Option.map_eq_some_iff.mp hfwd
      obtain ⟨rfl, rfl, rfl⟩ : family' = family ∧ dst' = dst ∧ data' = data := by simpa using heq
      obtain ⟨hport, hfam, hv6, hip⟩ := sendTo_spec hsend
      exact ⟨src, target, of_decide_eq_true hpinned, hheard, hdec, hport, hip, hfam, hv6⟩
    · cases hfwd

/-- A client asks a name server and gets its answer. -/
def dnsClient : List (UdpRelay.Event ℕ) :=
  [.datagram 1 [0, 0, 0, 1, 8, 8, 8, 8, 0, 53, 0xCD], .trySend true,
    .frame (.data 7 1 [0, 0, 0, 1, 8, 8, 8, 8, 0, 53, 0xAB]), .answerRecv, .answerSent true]

/-- The sockets of that client. -/
def dnsServer : List UdpResponder.Event := [.recvV4 ⟨8, 8, 8, 8⟩ 53 [0xAB] true, .teardown, .cancelArm]

theorem udp_association_dns :
    ∃ s r, (UdpRelay.new 7 1024 none).run dnsClient = some s ∧ (UdpResponder.new 7 ⟨false⟩).run dnsServer = some r ∧
      s.answers = [(1, [0, 0, 0, 1, 8, 8, 8, 8, 0, 53, 0xAB])] ∧ ∃ src, (src, [0xAB]) ∈ r.heard ∧ src.port = 53 := by
  have hruns : ∃ s r, (UdpRelay.new 7 1024 (none : Option ℕ)).run dnsClient = some s ∧
      (UdpResponder.new 7 ⟨false⟩).run dnsServer = some r ∧
      s.answers = [(1, [0, 0, 0, 1, 8, 8, 8, 8, 0, 53, 0xAB])] ∧
      r.sent = [.data 7 1 [0, 0, 0, 1, 8, 8, 8, 8, 0, 53, 0xAB]] := ⟨_, _, rfl, rfl, rfl, rfl⟩
  obtain ⟨s, r, hs, hr, hans, hsent⟩ := hruns
  have htunnels : ∀ f, .frame f ∈ dnsClient → f.has flagData = true → f ∈ r.sent := by
    intro f hf _
    obtain rfl : f = .data 7 1 [0, 0, 0, 1, 8, 8, 8, 8, 0, 53, 0xAB] := by simpa [dnsClient] using hf
    rw [hsent]
    exact List.mem_singleton.mpr rfl
  obtain ⟨hback, -⟩ := udp_association hs hr htunnels fun _ _ => none
  obtain ⟨-, src, data, hheard, -, hdec⟩ := hback _ (hans ▸ List.mem_singleton.mpr rfl)
  have hdec' : (decodeUdpDatagram [0, 0, 0, 1, 8, 8, 8, 8, 0, 53, 0xAB]).run = some (.ok (⟨"8.8.8.8", 53⟩, [0xAB])) := rfl
  rw [hdec'] at hdec
  obtain ⟨⟨-, hport⟩, rfl⟩ : ("8.8.8.8" = src.ip.canonical.field.text ∧ 53 = src.port) ∧ [0xAB] = data := by
    simpa using hdec
  exact ⟨s, r, hs, hr, hans, src, hheard, hport.symm⟩

end RoundRobin.Association
