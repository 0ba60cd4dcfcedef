import RoundRobin.Lib.Chan
import RoundRobin.Reorder

/-!
# RoundRobin.Reassembler.State — the reassembler's shared state

`src/reassembler.rs`: the virtual connections with their egress write channel and half-close state,
the frames buffered before a SYN, and the maps all tunnel readers share.  `closeWriteHalf`,
`startHalfClose` and `deliver` are the connection's own operations, here as single steps; their
atomic operations are taken apart in `RoundRobin.Reassembler.HalfClose`.

Times are milliseconds.  What only the egress reader counts and the creation time are left out; the
activity stamp decides when the idle sweep runs, which may be at any time here.
-/

namespace RoundRobin.Reassembler

/-- Egress write queue capacity. -/
def egressChannelCap : ℕ := 512
/-- Max frames buffered per conn id before the SYN handshake completes. -/
def maxPendingFramesPerCid : ℕ := 256
/-- Drop stale pending entries that never received a SYN. -/
def pendingTtlSecs : ℕ := 30

/-! ## Virtual connections -/

/-- A virtual connection.  `connId` is the id its tasks were started with; `forced` and `pushed` are
history variables: the write half was closed by the fallback timer, and the DATA frames pushed into
the reorder buffer. -/
structure VirtConnDe where
  connId : ConnId
  egress : Option (Chan Bytes)
  reorder : ReorderBuf
  /-- Stored permit of the reader's teardown signal. -/
  cancel : Bool
  /-- Stored permit of the writer's teardown signal. -/
  cancelWriter : Bool
  /-- Stored permit of the half-close signal. -/
  halfClose : Bool
  finReceived : Bool
  finSeq : ℕ
  /-- 0 = open, 1 = closing, 2 = closed. -/
  halfCloseState : ℕ
  isUdp : Bool
  egressEof : Bool
  lastActive : ℕ
  bytesRecv : UInt64
  framesRecv : UInt64
  forced : Bool
  pushed : List Frame

namespace VirtConnDe

/-- A connection as the SYN handler builds it at time `now`. -/
def new (connId : ConnId) (window : ℕ) (isUdp : Bool) (now : ℕ) : VirtConnDe where
  connId := connId
  egress := if isUdp then none else some (Chan.new egressChannelCap)
  reorder := ReorderBuf.withLimit window
  cancel := false
  cancelWriter := false
  halfClose := false
  finReceived := false
  finSeq := 0
  halfCloseState := 0
  isUdp := isUdp
  egressEof := false
  lastActive := now
  bytesRecv := 0
  framesRecv := 0
  forced := false
  pushed := []

/-- Wake both egress tasks. -/
def signalTeardown (vc : VirtConnDe) : VirtConnDe := { vc with cancel := true, cancelWriter := true }

/-- Close the egress write half: when all frames below `finSeq` are delivered, or unconditionally
when the fallback timer fires. -/
def closeWriteHalf (vc : VirtConnDe) (force : Bool) : VirtConnDe :=
  if force then
    if vc.halfCloseState = 2 then vc
    else { vc with halfCloseState := 2, halfClose := true, forced := true }
  else if vc.halfCloseState ≠ 0 then vc
  else if vc.reorder.isCompleteThrough vc.finSeq then
    { vc with halfCloseState := 2, halfClose := true }
  else vc

/-- Begin a half-close after the splitter's FIN; a duplicate FIN does nothing. -/
def startHalfClose (vc : VirtConnDe) (finSeq : ℕ) : VirtConnDe :=
  if vc.finReceived then vc
  else { vc with finReceived := true, finSeq := finSeq }.closeWriteHalf false

/-- `EgressConn::write` of each chunk in turn, up to the first that is refused. -/
def writeAll : List Bytes → Chan Bytes → Bool × Chan Bytes
  | [], ch => (true, ch)
  | chunk :: rest, ch =>
    match ch.trySend chunk with
    | (.ok, ch') => writeAll rest ch'
    | (_, ch') => (false, ch')

/-- What happened to a DATA frame under the reorder lock. -/
inductive Delivery where
  | duplicate
  | overflow
  | writeFailed
  | delivered
  deriving DecidableEq, Repr

/-- The critical section of a DATA frame: push, then write the ready chunks to the egress channel. -/
def deliver (vc : VirtConnDe) (f : Frame) : VirtConnDe × Delivery :=
  let p := vc.reorder.push f.seq.toNat f.payload
  let vc' := { vc with reorder := p.1, pushed := vc.pushed ++ [f] }
  if !p.2.accepted then (vc', if p.2.overflow then .overflow else .duplicate)
  else
    match vc.egress with
    | none => (vc', .delivered)
    | some ch =>
      let w := writeAll p.2.ready ch
      ({ vc' with egress := some w.2 }, if w.1 then .delivered else .writeFailed)

/-- Count a frame that was taken. -/
def received (vc : VirtConnDe) (plen now : ℕ) : VirtConnDe :=
  { vc with
    bytesRecv := vc.bytesRecv + UInt64.ofNat plen
    framesRecv := vc.framesRecv + 1
    lastActive := now }

/-- Both directions are finished. -/
def isDone (vc : VirtConnDe) : Bool :=
  vc.finReceived && vc.egressEof && decide (2 ≤ vc.halfCloseState)

end VirtConnDe

/-! ## Pending entries -/

/-- Frames that arrived before the SYN handler finished.  `cancel` is the handshake's cancel signal. -/
structure PendingEntry where
  frames : List Frame
  since : ℕ
  bytes : ℕ
  cancelled : Bool
  cancel : Option ℕ
  deriving DecidableEq

def PendingEntry.new (now : ℕ) : PendingEntry := ⟨[], now, 0, false, none⟩

/-! ## The maps -/

/-- What every task shares.  `heap` holds the connections (a task keeps its handle after the
connection left `conns`), `notified` the stored permits of the handshake cancel signals, `offered`
every frame given to `TunnelPool::send` and `arrived` every frame handed to `handle_frame`. -/
structure Shared where
  window : ℕ
  now : ℕ
  conns : ConnId → Option ℕ
  heap : ℕ → VirtConnDe
  nextConn : ℕ
  pending : Table ConnId PendingEntry
  closed : ConnId → Option ℕ
  handshaking : ConnId → Option ℕ
  pendingBytes : ℕ
  notified : ℕ → Bool
  nextNotify : ℕ
  offered : List Frame
  resets : ℕ
  arrived : List Frame

namespace Shared

/-- The state `run_reassembler` starts with. -/
def init (window : ℕ) : Shared where
  window := window
  now := 0
  conns := fun _ => none
  heap := fun _ => VirtConnDe.new 0 window true 0
  nextConn := 0
  pending := ∅
  closed := fun _ => none
  handshaking := fun _ => none
  pendingBytes := 0
  notified := fun _ => false
  nextNotify := 0
  offered := []
  resets := 0
  arrived := []

/-- Change the connection at handle `v`. -/
def setConn (s : Shared) (v : ℕ) (vc : VirtConnDe) : Shared :=
  { s with heap := Function.update s.heap v vc }

/-- `notify_one` on a handshake cancel signal, if there is one. -/
def notify (s : Shared) : Option ℕ → Shared
  | none => s
  | some n => { s with notified := Function.update s.notified n true }

/-- `fetch_sub` on the `usize` counter. -/
def fetchSub (s : Shared) (b : ℕ) : Shared :=
  { s with pendingBytes := (s.pendingBytes + (2 ^ 64 - b % 2 ^ 64)) % 2 ^ 64 }

end Shared

end RoundRobin.Reassembler
