import RoundRobin.Lib.Tasks
import RoundRobin.Splitter.State

/-!
# RoundRobin.Splitter.Client — one TCP connection of the splitter, atomic by atomic

`handle_tcp_client`, `handle_inbound_frame`, `reset_conn` and the heartbeat sweep of `src/splitter.rs`
as they meet on one connection: every map operation, every load or store of a flag and every
reorder-lock section is one instruction.  The client task is the loop that reads the client, the FIN it
sends, the grace wait and the teardown; the writer task is the consumer of the client channel and acts
at any time.  Timers may expire at any time.  `handleFrame_solo`: a handler that runs alone does what
`State.handleInboundFrame` does.
-/

namespace RoundRobin.Splitter

/-- Idle limit of a TCP connection, in seconds. -/
def tcpIdleTimeoutSecs : ℕ := 300
/-- Quiet time after a complete response. -/
def finCompleteIdleSecs : ℕ := 30

/-- The sweep of a connection that received a FIN. -/
def finSweepDecision (complete : Bool) (finIdleSecs : ℕ) (handlerAlive : Bool) : Bool :=
  let limit := if handlerAlive then tcpIdleTimeoutSecs else 30
  if finIdleSecs > limit then true else complete && decide (finIdleSecs > finCompleteIdleSecs)

/-- The connection and what the shared maps say about it.  `fins` is a history variable: the `next_seq`
of every FIN the connection received. -/
structure Conn where
  connId : ConnId
  vc : VirtConn
  /-- `conns` holds it. -/
  registered : Bool
  /-- `time_wait` holds its id. -/
  timeWait : Bool
  /-- The client task still has its handle. -/
  handle : Bool
  /-- Every frame given to the pool. -/
  offered : List Frame
  fins : List ℕ

namespace Conn

/-- Built and inserted into `conns`, the SYN not yet sent. -/
def new (c : ConnId) (window : ℕ) : Conn := ⟨c, VirtConn.new window false, true, false, true, [], []⟩

/-- A FIN was received and the client channel accepted every chunk below its `next_seq`. -/
def Complete (s : Conn) : Prop := ∃ f ∈ s.fins, ∀ k < f, 1 ≤ k → k ∈ s.vc.delivered

instance (s : Conn) : Decidable s.Complete :=
  inferInstanceAs (Decidable (∃ f ∈ s.fins, ∀ k < f, 1 ≤ k → k ∈ s.vc.delivered))

/-- The client-facing write half was told to close: every sender of its channel is gone, or its
receiver has left. -/
def ToldToClose (s : Conn) : Prop :=
  (s.registered = false ∧ s.handle = false) ∨ s.vc.toClientTx.isOpen = false

instance (s : Conn) : Decidable s.ToldToClose :=
  inferInstanceAs (Decidable (_ ∨ _))

end Conn

inductive CloseReason where
  | eof
  | noTunnel
  | readError
  | rst
  | timeout
  deriving DecidableEq, Repr

/-- What the code does not determine. -/
inductive Choice where
  | go
  /-- A send found a tunnel in time. -/
  | sent
  /-- It did not. -/
  | unsent
  /-- The client sent bytes, and a tunnel took them or not. -/
  | read (payload : Bytes) (taken : Bool)
  | eof
  | readError
  /-- The close notification wins the race against the read. -/
  | notified
  /-- What the client's writer does during an `on_frame`. -/
  | consumer (con : Consumer)
  /-- A timer of the grace wait has expired. -/
  | expired
  /-- Seconds since the last activity. -/
  | idle (secs : ℕ)

inductive Instr where
  -- `handle_inbound_frame`
  | handleFrame (f : Frame)
  | onFrame (f : Frame)
  | storeFinReceived
  | storeFinSeq (seq : ℕ)
  | notifyOne
  -- `reset_conn`
  | timeWaitInsert
  | connsRemove
  | storeRst
  | storeClosed
  | sendRst
  -- `handle_tcp_client`
  | clientSyn
  | clientSelect (seq : ℕ)
  | clientWoken (seq : ℕ)
  | clientLoadRst (seq : ℕ)
  | clientFin (seq : ℕ) (reason : CloseReason)
  | graceStart
  | graceClosed
  | graceFin
  | graceSeq
  | graceComplete (finSeq : ℕ)
  | graceQuiet
  | removeIf
  | dropVconn
  -- the heartbeat's sweep of one entry
  | sweepLook
  | sweepFin
  | sweepGrace
  | sweepSeq
  | sweepComplete (finSeq : ℕ)
  | sweepIdle
  | connsForget
  deriving DecidableEq

open Instr TaskSystem

/-- `reset_conn`. -/
def resetConn : List Instr := [timeWaitInsert, connsRemove, sendRst]

/-- What the client task does after its loop, whatever ended it. -/
def teardown : List Instr := [timeWaitInsert, removeIf, dropVconn]

/-- A sweep that reclaims a connection its handler still uses. -/
def sweepClose : List Instr :=
  [storeClosed, storeRst, notifyOne, sendRst, timeWaitInsert, connsForget]

/-- A sweep of a connection that only `conns` still holds. -/
def sweepOrphan : List Instr := [storeRst, sendRst, timeWaitInsert, connsForget]

/-- The lookup of `handle_inbound_frame`. -/
def execHandle (s : Conn) (f : Frame) : Conn × List Instr :=
  if f.has flagData then (s, if s.registered then [onFrame f] else [sendRst])
  else if f.has flagFin then
    if s.registered then
      ({ s with fins := s.fins ++ [f.seq.toNat] },
        [storeFinReceived, storeFinSeq f.seq.toNat, notifyOne])
    else (s, [])
  else if f.has flagRst then (s, resetConn)
  else (s, [])

/-- The `select!` of the client loop. -/
def execSelect (s : Conn) (seq : ℕ) : Choice → Option (Conn × List Instr)
  | .read payload true =>
    some ({ s with offered := s.offered ++ [.data s.connId (UInt64.ofNat seq) payload] },
      [clientSelect (ReorderBuf.wrapSucc seq)])
  | .read _ false => some (s, [clientFin seq .noTunnel])
  | .eof => some (s, [clientFin seq .eof])
  | .readError => some (s, [clientFin seq .readError])
  | .notified =>
    if s.vc.notify then some ({ s with vc := { s.vc with notify := false } }, [clientWoken seq])
    else none
  | _ => none

/-- After the loop: the FIN, or an RST when it cannot be sent; nothing if the peer reset. -/
def execFin (s : Conn) (seq : ℕ) (reason : CloseReason) : Choice → Option (Conn × List Instr)
  | .sent =>
    if reason = .rst ∨ reason = .noTunnel then none
    else
      some ({ s with offered := s.offered ++ [.fin s.connId (UInt64.ofNat seq)] },
        if reason = .eof then [graceStart] else [])
  | .unsent => if reason = .rst ∨ reason = .noTunnel then none else some (s, [sendRst])
  | .go =>
    if reason = .rst then some (s, []) else if reason = .noTunnel then some (s, [sendRst]) else none
  | _ => none

/-- A wait of the grace loop: the loop ends when the timer expired, else it starts over. -/
def execWait (s : Conn) : Choice → Option (Conn × List Instr)
  | .expired => some (s, [])
  | .go => some (s, [graceClosed])
  | _ => none

def exec (s : Conn) (i : Instr) (ch : Choice) : Option (Conn × List Instr) :=
  match i with
  | handleFrame f => some (execHandle s f)
  | onFrame f =>
    match ch with
    | .consumer con =>
      let r := s.vc.onFrame con f.seq.toNat f.payload
      some ({ s with vc := r.1 }, if r.2 then resetConn else [])
    | _ => none
  | storeFinReceived => some ({ s with vc := { s.vc with finReceived := true } }, [])
  | storeFinSeq seq => some ({ s with vc := { s.vc with finSeq := seq } }, [])
  | notifyOne => some ({ s with vc := { s.vc with notify := true } }, [])
  | timeWaitInsert => some ({ s with timeWait := true }, [])
  | connsRemove =>
    if s.registered then some ({ s with registered := false }, [storeRst, storeClosed, notifyOne])
    else some (s, [])
  | storeRst => some ({ s with vc := { s.vc with rst := true } }, [])
  | storeClosed => some ({ s with vc := { s.vc with closed := true } }, [])
  | sendRst => some ({ s with offered := s.offered ++ [.rst s.connId] }, [])
  | clientSyn =>
    match ch with
    | .sent => some (s, clientSelect 1 :: teardown)
    | .unsent => some (s, [removeIf, dropVconn])
    | _ => none
  | clientSelect seq => execSelect s seq ch
  | clientWoken seq => some (s, if s.vc.closed then [clientLoadRst seq] else [clientSelect seq])
  | clientLoadRst seq => some (s, [clientFin seq (if s.vc.rst then .rst else .timeout)])
  | clientFin seq reason => execFin s seq reason ch
  | graceStart => some ({ s with vc := { s.vc with graceWaiting := true } }, [graceClosed])
  | graceClosed => some (s, if s.vc.closed then [] else [graceFin])
  | graceFin => some (s, if s.vc.finReceived then [graceSeq] else [graceQuiet])
  | graceSeq => some (s, [graceComplete s.vc.finSeq])
  | graceComplete finSeq =>
    if s.vc.reorder.isCompleteThrough finSeq then some (s, []) else execWait s ch
  | graceQuiet => execWait s ch
  | removeIf => some ({ s with registered := false }, [])
  | dropVconn => some ({ s with handle := false }, [])
  | sweepLook =>
    some (s, if s.registered then if s.handle then [sweepFin] else sweepOrphan else [])
  | sweepFin => some (s, if s.vc.finReceived then [sweepGrace] else [sweepIdle])
  | sweepGrace => some (s, if s.vc.graceWaiting then [] else [sweepSeq])
  | sweepSeq => some (s, [sweepComplete s.vc.finSeq])
  | sweepComplete finSeq =>
    match ch with
    | .idle secs =>
      some (s, if finSweepDecision (s.vc.reorder.isCompleteThrough finSeq) secs s.handle then
        sweepClose else [])
    | _ => none
  | sweepIdle =>
    match ch with
    | .idle secs => some (s, if secs > tcpIdleTimeoutSecs then sweepClose else [])
    | _ => none
  | connsForget => some ({ s with registered := false }, [])

/-- The tasks that may start: a frame read from a tunnel, the heartbeat's sweep, and the reset of a
connection that lost DATA with a tunnel. -/
inductive Spawn (s : Conn) : List Instr → Prop where
  | frame (f : Frame) : Spawn s [handleFrame f]
  | sweep : Spawn s [sweepLook]
  | lost : s.registered = true → Spawn s resetConn

/-- The writer task takes a chunk, or ends because a write failed or stalled. -/
inductive Env (s : Conn) : Conn → Prop where
  | writerRecv (ch : Chan Bytes) (a : Bytes) : s.vc.toClientTx.recv = some (a, ch) →
      Env s { s with vc := { s.vc with toClientTx := ch } }
  | writerFailed : Env s { s with vc := { s.vc with toClientTx := s.vc.toClientTx.close } }

def system : TaskSystem Conn Instr Choice := ⟨exec, Spawn, Env⟩

/-- The connection when its client task is about to send the SYN. -/
def start (c : ConnId) (window : ℕ) : Config Conn Instr := ⟨Conn.new c window, [[clientSyn]]⟩

/-! ## One handler on its own -/

/-- The shared maps show the connection, at handle `v`. -/
structure Shows (s : Conn) (S : State) (v : ℕ) : Prop where
  conns : S.conns s.connId = if s.registered then some v else none
  heap : S.heap v = s.vc
  timeWait : (S.timeWait s.connId).isSome = s.timeWait

theorem resetConn_solo {s : Conn} {S : State} {v : ℕ} (h : Shows s S v) :
    ∃ s', system.Solo (s, resetConn) (s', []) ∧ Shows s' (S.resetConn s.connId) v := by
  cases hr : s.registered with
  | true =>
    have hv : S.conns s.connId = some v := by rw [h.conns, hr, if_pos rfl]
    have hrun : system.soloRun [.go, .go, .go, .go, .go, .go] (s, resetConn) =
        some ({ s with
          timeWait := true, registered := false, vc := s.vc.markReset
          offered := s.offered ++ [.rst s.connId] }, []) := by
      simp [soloRun, system, resetConn, exec, hr, VirtConn.markReset]
    refine ⟨_, soloRun_solo hrun, ?_, ?_, ?_⟩
    · simp [State.resetConn_conns]
    · simp [State.resetConn, State.send, State.setConn, hv, h.heap]
    · simp [State.resetConn_timeWait]
  | false =>
    have hv : S.conns s.connId = none := by rw [h.conns, hr]; rfl
    have hrun : system.soloRun [.go, .go, .go] (s, resetConn) =
        some ({ s with timeWait := true, offered := s.offered ++ [.rst s.connId] }, []) := by
      simp [soloRun, system, resetConn, exec, hr]
    refine ⟨_, soloRun_solo hrun, ?_, ?_, ?_⟩
    · simp [State.resetConn_conns, hr]
    · simp [State.resetConn, State.send, hv, h.heap]
    · simp [State.resetConn_timeWait]

section Handler

variable {s : Conn} {S : State} {v : ℕ} {f : Frame}

theorem dataFrame_solo (h : Shows s S v) (hu : s.vc.isUdp = false) (hf : f.connId = s.connId)
    (con : Consumer) (hd : f.has flagData = true) :
    ∃ s', system.Solo (s, [handleFrame f]) (s', []) ∧ Shows s' (S.handleInboundFrame con f) v := by
  have hconns := h.conns
  cases hr : s.registered with
  | false =>
    have hS : S.handleInboundFrame con f = S.send (.rst s.connId) := by
      simp [State.handleInboundFrame, hf, hconns, hd, hr]
    have hrun : system.soloRun [.go, .go] (s, [handleFrame f]) =
        some ({ s with offered := s.offered ++ [.rst s.connId] }, []) := by
      simp [soloRun, system, exec, execHandle, hd, hr]
    rw [hS]
    exact ⟨_, soloRun_solo hrun, ⟨hconns, h.heap, h.timeWait⟩⟩
  | true =>
    have hv : S.conns s.connId = some v := by rw [hconns, hr, if_pos rfl]
    have hS : S.handleInboundFrame con f =
        if (s.vc.onFrame con f.seq.toNat f.payload).2 then
          (S.setConn v (s.vc.onFrame con f.seq.toNat f.payload).1).resetConn s.connId
        else S.setConn v (s.vc.onFrame con f.seq.toNat f.payload).1 := by
      simp [State.handleInboundFrame, hf, hv, hd, h.heap, hu]
    have hshow : Shows { s with vc := (s.vc.onFrame con f.seq.toNat f.payload).1 }
        (S.setConn v (s.vc.onFrame con f.seq.toNat f.payload).1) v :=
      ⟨hconns, by simp [State.setConn], h.timeWait⟩
    have h1 : system.exec s (handleFrame f) .go = some (s, [onFrame f]) := by
      simp [system, exec, execHandle, hd, hr]
    have h2 : system.exec s (onFrame f) (.consumer con) =
        some ({ s with vc := (s.vc.onFrame con f.seq.toNat f.payload).1 },
          if (s.vc.onFrame con f.seq.toNat f.payload).2 then resetConn else []) := rfl
    rw [hS]
    cases ho : (s.vc.onFrame con f.seq.toNat f.payload).2 with
    | false =>
      rw [ho] at h2
      exact ⟨_, Solo.head h1 (Solo.head h2 .refl), hshow⟩
    | true =>
      rw [ho] at h2
      obtain ⟨s', hs', hsh⟩ := resetConn_solo hshow
      exact ⟨s', Solo.head h1 (Solo.head h2 hs'), hsh⟩

theorem finFrame_solo (h : Shows s S v) (hu : s.vc.isUdp = false) (hf : f.connId = s.connId)
    (con : Consumer) (hd : f.has flagData = false) (hfin : f.has flagFin = true) :
    ∃ s', system.Solo (s, [handleFrame f]) (s', []) ∧ Shows s' (S.handleInboundFrame con f) v := by
  cases hr : s.registered with
  | false =>
    have hS : S.handleInboundFrame con f = S := by
      simp [State.handleInboundFrame, hf, h.conns, hd, hfin, hr]
    have hrun : system.soloRun [.go] (s, [handleFrame f]) = some (s, []) := by
      simp [soloRun, system, exec, execHandle, hd, hfin, hr]
    rw [hS]
    exact ⟨_, soloRun_solo hrun, h⟩
  | true =>
    have hv : S.conns s.connId = some v := by rw [h.conns, hr, if_pos rfl]
    have hS : S.handleInboundFrame con f =
        S.setConn v { s.vc with finReceived := true, finSeq := f.seq.toNat, notify := true } := by
      simp [State.handleInboundFrame, hf, hv, hd, hfin, h.heap, hu]
    have hrun : system.soloRun [.go, .go, .go, .go] (s, [handleFrame f]) =
        some ({ s with
          fins := s.fins ++ [f.seq.toNat]
          vc := { s.vc with finReceived := true, finSeq := f.seq.toNat, notify := true } }, []) := by
      simp [soloRun, system, exec, execHandle, hd, hfin, hr]
    rw [hS]
    refine ⟨_, soloRun_solo hrun, ⟨?_, by simp [State.setConn], h.timeWait⟩⟩
    simpa [State.setConn, hr] using hv

/-- **A handler that nobody interferes with does what `State.handleInboundFrame` does in one step.** -/
theorem handleFrame_solo (h : Shows s S v) (hu : s.vc.isUdp = false) (hf : f.connId = s.connId)
    (con : Consumer) :
    ∃ s', system.Solo (s, [handleFrame f]) (s', []) ∧ Shows s' (S.handleInboundFrame con f) v := by
  cases hd : f.has flagData with
  | true => exact dataFrame_solo h hu hf con hd
  | false =>
    cases hfin : f.has flagFin with
    | true => exact finFrame_solo h hu hf con hd hfin
    | false =>
      cases hrst : f.has flagRst with
      | true =>
        have hS : S.handleInboundFrame con f = S.resetConn s.connId := by
          simp [State.handleInboundFrame, hf, hd, hfin, hrst]
        have h1 : system.exec s (handleFrame f) .go = some (s, resetConn) := by
          simp [system, exec, execHandle, hd, hfin, hrst]
        rw [hS]
        obtain ⟨s', hs', hsh⟩ := resetConn_solo h
        exact ⟨s', Solo.head h1 hs', hsh⟩
      | false =>
        have hS : S.handleInboundFrame con f = S := by
          simp [State.handleInboundFrame, hd, hfin, hrst]
        have hrun : system.soloRun [.go] (s, [handleFrame f]) = some (s, []) := by
          simp [soloRun, system, exec, execHandle, hd, hfin, hrst]
        rw [hS]
        exact ⟨_, soloRun_solo hrun, h⟩

end Handler

end RoundRobin.Splitter
