import RoundRobin.Reorder
import RoundRobin.Tunnel.Pool

/-!
# RoundRobin.Splitter.State — the splitter's connections and maps

`src/splitter.rs`: the virtual connections with the channel to their client, the maps all tunnel
readers share, and the dispatch of an inbound frame.  Here a handler is one step; the connection's
atomic flags are taken apart in `RoundRobin.Splitter.Client`.

Times are milliseconds.  Byte and frame counters, the activity stamp and the texts of warnings are
left out.
-/

namespace RoundRobin.Splitter

open Tunnel

/-- Client-facing channel capacity. -/
def clientChannelCap : ℕ := 512
/-- UDP relay channel capacity. -/
def udpChannelCap : ℕ := 1024

/-! ## Virtual connections -/

/-- A virtual connection.  `delivered` is a history variable: the seqs of the chunks the client channel
accepted. -/
structure VirtConn where
  toClientTx : Chan Bytes
  reorder : ReorderBuf
  /-- Stored permit of the signal the client loop waits for. -/
  notify : Bool
  closed : Bool
  finReceived : Bool
  finSeq : ℕ
  graceWaiting : Bool
  rst : Bool
  isUdp : Bool
  delivered : List ℕ

namespace VirtConn

/-- A connection as `handle_tcp_client` and `handle_udp_client` build it. -/
def new (window : ℕ) (isUdp : Bool) : VirtConn where
  toClientTx := Chan.new (if isUdp then udpChannelCap else clientChannelCap)
  reorder := ReorderBuf.withLimit window
  notify := false
  closed := false
  finReceived := false
  finSeq := 0
  graceWaiting := false
  rst := false
  isUdp := isUdp
  delivered := []

/-- The seqs from `seq` on whose flag is set. -/
def acceptedSeqs (seq : ℕ) : List Bool → List ℕ
  | [] => []
  | b :: bs => (if b then [seq] else []) ++ acceptedSeqs (seq + 1) bs

/-- Push a frame and send what became ready to the client, `con` being what the client's writer does
meanwhile.  The flag asks for a reset: the window overflowed, or a chunk was refused. -/
def onFrame (vc : VirtConn) (con : Consumer) (seq : ℕ) (payload : Bytes) : VirtConn × Bool :=
  let p := vc.reorder.push seq payload
  if !p.2.accepted then ({ vc with reorder := p.1 }, p.2.overflow)
  else
    -- the loop goes on after a refused chunk
    let r := vc.toClientTx.sendAll con 0 p.2.ready
    ({ vc with
        reorder := p.1
        toClientTx := r.2
        delivered := vc.delivered ++ acceptedSeqs vc.reorder.expected r.1 }, !r.1.all id)

/-- What a reset does to the connection it removed. -/
def markReset (vc : VirtConn) : VirtConn := { vc with rst := true, closed := true, notify := true }

end VirtConn

/-! ## The maps -/

/-- What every task shares; `heap` holds the connections, which the client's tasks keep using after
they left `conns`. -/
structure State where
  now : ℕ
  conns : ConnId → Option ℕ
  heap : ℕ → VirtConn
  timeWait : ConnId → Option ℕ
  pool : TunnelPool
  resets : ℕ

namespace State

/-- The state `run_splitter` starts with. -/
def init : State where
  now := 0
  conns := fun _ => none
  heap := fun _ => VirtConn.new 0 true
  timeWait := fun _ => none
  pool := TunnelPool.new
  resets := 0

/-- `conns.insert` of a connection built at handle `v`. -/
def register (s : State) (c : ConnId) (v : ℕ) (vc : VirtConn) : State :=
  { s with
    conns := Function.update s.conns c (some v)
    heap := Function.update s.heap v vc }

/-- Change the connection at handle `v`. -/
def setConn (s : State) (v : ℕ) (vc : VirtConn) : State :=
  { s with heap := Function.update s.heap v vc }

/-- `pool.send`, its result ignored. -/
def send (s : State) (f : Frame) : State := { s with pool := (s.pool.send f).2 }

/-- Tear down a connection and tell the peer to do the same. -/
def resetConn (s : State) (c : ConnId) : State :=
  let s₁ := { s with timeWait := Function.update s.timeWait c (some s.now) }
  let s₂ :=
    match s₁.conns c with
    | some v =>
      { s₁ with conns := Function.update s₁.conns c none }.setConn v (s₁.heap v).markReset
    | none => s₁
  { s₂.send (.rst c) with resets := s.resets + 1 }

/-- Removed and tombstoned. -/
def Gone (s : State) (c : ConnId) : Prop := s.conns c = none ∧ (s.timeWait c).isSome

theorem resetConn_conns (s : State) (c c' : ConnId) :
    (s.resetConn c).conns c' = if c' = c then none else s.conns c' := by
  unfold resetConn
  cases hc : s.conns c with
  | some v => simp [send, setConn, hc, Function.update_apply]
  | none =>
    by_cases h : c' = c
    · simp [send, h, hc]
    · simp [send, h, hc]

theorem resetConn_timeWait (s : State) (c c' : ConnId) :
    (s.resetConn c).timeWait c' = if c' = c then some s.now else s.timeWait c' := by
  unfold resetConn
  cases hc : s.conns c with
  | some v => simp [send, setConn, hc, Function.update_apply]
  | none => simp [send, hc, Function.update_apply]

theorem resetConn_gone (s : State) (c : ConnId) : (s.resetConn c).Gone c := by
  simp [Gone, resetConn_conns, resetConn_timeWait]

/-- A frame read from a tunnel. -/
def handleInboundFrame (s : State) (con : Consumer) (f : Frame) : State :=
  let c := f.connId
  if f.has flagData then
    match s.conns c with
    | some v =>
      let vc := s.heap v
      if vc.isUdp then
        s.setConn v { vc with toClientTx := ((con.act 0 vc.toClientTx).trySend f.payload).2 }
      else
        let r := vc.onFrame con f.seq.toNat f.payload
        if r.2 then (s.setConn v r.1).resetConn c else s.setConn v r.1
    -- tombstoned or unknown, the peer is told to stop
    | none => s.send (.rst c)
  else if f.has flagFin then
    match s.conns c with
    | some v =>
      let vc := s.heap v
      if vc.isUdp then s
      else s.setConn v { vc with finReceived := true, finSeq := f.seq.toNat, notify := true }
    | none => s
  else if f.has flagRst then s.resetConn c
  else s

end State

end RoundRobin.Splitter
