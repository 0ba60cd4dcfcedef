import RoundRobin.Lib.Tasks
import RoundRobin.Reassembler.State

/-!
# RoundRobin.Reassembler.Handlers — `handle_frame` as tasks over the shared maps

Every DashMap operation, every operation on the `pending_bytes` counter and every reorder-lock
critical section of `handle_frame` and its helpers is one instruction; `exec` says what the
instruction does and which ones follow.  Local computation between two of them belongs to the first.
The cleanup lists of the SYN handler's exits are written out as they stand in the source.

`synConnect`, `synBindUdp`, `synForward` and `udpForward` are the places where a handler is suspended;
what `forward_udp_datagram` hands to the socket there is left out.
-/

namespace RoundRobin.Reassembler

/-- What the code does not determine. -/
inductive Choice where
  | go
  /-- A weak compare-exchange fails although the value matches. -/
  | spurious
  /-- The entry the eviction scan settles on, among those of equal age. -/
  | victim (key : ConnId)
  /-- The egress connect (or the UDP bind) succeeds. -/
  | connected
  /-- It fails or times out. -/
  | failed
  /-- The handshake's cancel signal wins the race. -/
  | cancelled
  deriving DecidableEq, Repr

inductive Instr where
  | dispatch (f : Frame)
  | handle (f : Frame)
  -- SYN
  | synRegister (f : Frame)
  | synReserve (f : Frame)
  | synCheckClosed (f : Frame) (n : ℕ)
  | synBindUdp (c : ConnId)
  | synConnect (c : ConnId) (n : ℕ)
  | synRecheckClosed (c : ConnId)
  | synInsert (c : ConnId) (isUdp : Bool)
  | synDrain (c : ConnId) (v : ℕ)
  | synReplay (c : ConnId) (v : ℕ) (frames : List Frame) (fin : Option ℕ)
  | replayClose (v : ℕ)
  /-- The buffered datagram `f` is being forwarded. -/
  | synForward (c : ConnId) (v : ℕ) (f : Frame) (frames : List Frame)
  -- DATA
  | udpForward (v : ℕ) (f : Frame)
  | dataDeliver (v : ℕ) (f : Frame)
  | dataClose (v : ℕ) (c : ConnId)
  | finishIfDone (v : ℕ) (c : ConnId)
  | dataCheckClosed (f : Frame)
  | dataContains (f : Frame)
  | dataLen (f : Frame)
  | reserveLoad (fresh : Bool) (f : Frame)
  | reserveCas (fresh : Bool) (f : Frame) (current : ℕ)
  | evictEmpty (fresh : Bool) (f : Frame)
  | evictPick (fresh : Bool) (f : Frame)
  | evictRemove (fresh : Bool) (f : Frame) (key : ConnId) (bytes : ℕ) (cancel : Option ℕ)
  | dataPush (f : Frame)
  | dataInsert (f : Frame)
  | dataVanished (f : Frame)
  -- FIN
  | startHalfClose (v : ℕ) (c : ConnId) (finSeq : ℕ)
  | finCheckClosed (f : Frame)
  | finContains (f : Frame)
  | finPush (f : Frame)
  | finLen (f : Frame)
  | finInsert (f : Frame)
  -- RST
  | rstMark (c : ConnId)
  -- shared helpers
  | removePending (c : ConnId)
  /-- Subtract `b` from `pending_bytes`; `removed` records the bytes the refund stands for. -/
  | refund (b removed : ℕ)
  | notifyCancel (n : Option ℕ)
  | handshakingRemove (c : ConnId)
  | closedInsert (c : ConnId)
  | connsRemove (c : ConnId)
  | connsForget (c : ConnId)
  | signalTeardown (v : ℕ)
  | sendRst (c : ConnId)
  | countReset
  | failMark (c : ConnId)
  -- heartbeat and egress tasks
  | sweepRetain (ttlSecs : ℕ)
  | forceClose (v : ℕ)
  | egressEof (v : ℕ) (c : ConnId)
  deriving DecidableEq

open Instr

/-! ## Cleanup lists -/

/-- A SYN that cannot be served: malformed, unknown protocol, bind or connect failure. -/
def synFail (c : ConnId) : List Instr :=
  [removePending c, handshakingRemove c, closedInsert c, sendRst c]

/-- The handshake was cancelled while connecting. -/
def synCancelled (c : ConnId) : List Instr :=
  [removePending c, handshakingRemove c, closedInsert c]

/-- The conn id was tombstoned before the connection was built. -/
def synClosed (c : ConnId) : List Instr := [removePending c, handshakingRemove c]

/-- The entry was marked cancelled while the connection was being registered. -/
def drainCancelled (c : ConnId) : List Instr := [connsRemove c, closedInsert c, handshakingRemove c]

/-- The replay broke the stream. -/
def drainReset (c : ConnId) : List Instr :=
  [connsRemove c, closedInsert c, sendRst c, countReset, handshakingRemove c]

/-- A DATA frame broke the stream of an established connection. -/
def dataReset (c : ConnId) : List Instr := [closedInsert c, connsRemove c, sendRst c, countReset]

/-- `fail_pending_conn`. -/
def failPendingConn (c : ConnId) : List Instr := [failMark c, closedInsert c, sendRst c]

/-- The entry `try_reserve_pending` must not evict. -/
def exclude (fresh : Bool) (f : Frame) : Option ConnId := if fresh then none else some f.connId

/-- `e` at `key` is an oldest entry other than the excluded one. -/
def isOldest (m : Table ConnId PendingEntry) (ex : Option ConnId) (key : ConnId) (e : PendingEntry) :
    Bool :=
  some key ≠ ex && m.entries.all fun x => some x.1 = ex || decide (e.since ≤ x.2.since)

/-- The sweep keeps an entry younger than the TTL. -/
def isFresh (now ttlSecs : ℕ) (e : PendingEntry) : Bool := decide ((now - e.since) / 1000 < ttlSecs)

/-- What the sweep does for each entry it removed. -/
def sweepTail (m : Table ConnId PendingEntry) : List Instr :=
  m.entries.flatMap fun x => [notifyCancel x.2.cancel, closedInsert x.1, sendRst x.1]

/-- Mark an entry cancelled and wake its handshake, as the RST handler and `fail_pending_conn` do. -/
def markCancelled (s : Shared) (c : ConnId) : Shared :=
  match s.pending.get c with
  | none => s
  | some e => { s with pending := s.pending.put c { e with cancelled := true } }.notify e.cancel

/-- Handled as DATA. -/
def isData (f : Frame) : Bool := !f.has flagSyn && f.has flagData

/-- Handled as FIN. -/
def isFin (f : Frame) : Bool := !f.has flagSyn && !f.has flagData && f.has flagFin

/-- A SYN that does not ask for a UDP association. -/
def StreamSyn (f : Frame) : Prop :=
  f.has flagSyn = true ∧ ∀ t, SynTarget.decode f.payload = .ok t → t.proto ≠ protoUdp

theorem isData_iff {f : Frame} : isData f = true ↔ f.has flagSyn = false ∧ f.has flagData = true := by
  simp [isData]

theorem isFin_iff {f : Frame} : isFin f = true ↔
    f.has flagSyn = false ∧ f.has flagData = false ∧ f.has flagFin = true := by
  simp [isFin, and_assoc]

theorem flagSyn_of_kind {f : Frame} (h : isData f = true ∨ isFin f = true) : f.has flagSyn = false := by
  rcases h with hd | hf
  · exact (isData_iff.mp hd).1
  · exact (isFin_iff.mp hf).1

theorem isData_of_isFin {f : Frame} (h : isFin f = true) : isData f = false := by
  simp [isData, (isFin_iff.mp h).2.1]

/-! ## The instructions -/

/-- The first map operation of `handle_frame`. -/
def execHandle (s : Shared) (f : Frame) : Shared × List Instr :=
  let c := f.connId
  if f.has flagSyn then
    if (s.conns c).isSome then (s, []) else (s, [synRegister f])
  else if f.has flagData then
    match s.conns c with
    | some v => if (s.heap v).isUdp then (s, [udpForward v f]) else (s, [dataDeliver v f])
    | none => (s, [dataCheckClosed f])
  else if f.has flagFin then
    match s.conns c with
    | some v => if (s.heap v).isUdp then (s, []) else (s, [startHalfClose v c f.seq.toNat])
    | none => (s, [finCheckClosed f])
  else if f.has flagRst then
    match s.conns c with
    | some v =>
      ({ s with conns := Function.update s.conns c none },
        [closedInsert c, signalTeardown v, countReset])
    | none => (s, [rstMark c])
  else (s, [])

/-- After the first look at `closed`: decode the SYN payload and pick the protocol. -/
def execSynCheckClosed (s : Shared) (f : Frame) (n : ℕ) : List Instr :=
  let c := f.connId
  if (s.closed c).isSome then synClosed c
  else
    match SynTarget.decode f.payload with
    | .error _ => synFail c
    | .ok t =>
      if t.proto ≠ protoTcp ∧ t.proto ≠ protoUdp then synFail c
      else if t.proto = protoUdp then [synBindUdp c]
      else [synConnect c n]

/-- Forward the datagrams among the frames of the pending entry. -/
def forwardFrames (c : ConnId) (v : ℕ) : List Frame → List Instr
  | [] => [handshakingRemove c]
  | f :: fs => if f.has flagData then [synForward c v f fs] else forwardFrames c v fs

theorem forwardFrames_cases (c : ConnId) (v : ℕ) (fs : List Frame) :
    forwardFrames c v fs = [handshakingRemove c] ∨
      ∃ f fs', forwardFrames c v fs = [synForward c v f fs'] := by
  induction fs with
  | nil => exact .inl rfl
  | cons f fs ih =>
    simp only [forwardFrames]
    split
    · exact .inr ⟨f, fs, rfl⟩
    · exact ih

theorem forall_forwardFrames {p : Instr → Prop} {c : ConnId} {v : ℕ} (hrem : p (handshakingRemove c))
    (hfwd : ∀ f fs, p (synForward c v f fs)) (frames : List Frame) : ∀ j ∈ forwardFrames c v frames, p j := by
  rcases forwardFrames_cases c v frames with h | ⟨f, fs, h⟩
  · rw [h]
    simpa using hrem
  · rw [h]
    simpa using hfwd f fs

/-- What follows the removal of the pending entry at the end of the handshake. -/
def afterDrain (s : Shared) (c : ConnId) (v : ℕ) (e : PendingEntry) : List Instr :=
  refund e.bytes e.bytes ::
    (if e.cancelled then drainCancelled c
    else if (s.heap v).isUdp then forwardFrames c v e.frames
    else [synReplay c v e.frames none])

/-- Replay one buffered frame into the fresh connection. -/
def execReplay (s : Shared) (c : ConnId) (v : ℕ) (fin : Option ℕ) : List Frame → Shared × List Instr
  | [] =>
    match fin with
    | none => (s, [handshakingRemove c])
    | some seq => (s, [startHalfClose v c seq, handshakingRemove c])
  | f :: fs =>
    if f.has flagData then
      let d := (s.heap v).deliver f
      let s' := s.setConn v d.1
      match d.2 with
      | .duplicate => (s', [synReplay c v fs fin])
      | .delivered => (s', [replayClose v, synReplay c v fs fin])
      | _ => (s', drainReset c)
    else if f.has flagFin then (s, [synReplay c v fs (some f.seq.toNat)])
    else (s, [synReplay c v fs fin])

/-- A DATA frame of an established connection. -/
def execDeliver (s : Shared) (v : ℕ) (f : Frame) : Shared × List Instr :=
  let d := (s.heap v).deliver f
  match d.2 with
  | .duplicate => (s.setConn v d.1, [])
  | .delivered => (s.setConn v (d.1.received f.payload.length s.now), [dataClose v f.connId])
  | _ => (s.setConn v d.1, dataReset f.connId)

/-- `compare_exchange_weak` of the budget reservation. -/
def execCas (s : Shared) (fresh : Bool) (f : Frame) (current : ℕ) (spurious : Bool) :
    Shared × List Instr :=
  if current + f.payload.length ≤ maxPendingBytes then
    if s.pendingBytes = current ∧ spurious = false then
      ({ s with pendingBytes := current + f.payload.length },
        [if fresh then dataInsert f else dataPush f])
    else (s, [reserveCas fresh f s.pendingBytes])
  else (s, [evictEmpty fresh f])

/-- Queue a frame in its entry (`get_mut`), counting `bytes` of it in the budget; `full` and `gone`
are what follows when the entry has no room or is no longer there. -/
def execPush (s : Shared) (f : Frame) (bytes : ℕ) (full gone : List Instr) : Shared × List Instr :=
  match s.pending.get f.connId with
  | some e =>
    if e.frames.length < maxPendingFramesPerCid then
      ({ s with
          pending := s.pending.put f.connId
            { e with frames := e.frames ++ [f], bytes := e.bytes + bytes } }, [])
    else (s, full)
  | none => (s, gone)

/-- A new pending entry that holds one frame. -/
def insertEntry (s : Shared) (f : Frame) (bytes : ℕ) : Shared :=
  { s with
    pending := s.pending.put f.connId
      { PendingEntry.new s.now with frames := [f], bytes := bytes } }

/-- One instruction. -/
def exec (s : Shared) (i : Instr) (ch : Choice) : Option (Shared × List Instr) :=
  match i with
  | dispatch f => some ({ s with arrived := s.arrived ++ [f] }, [handle f])
  | handle f => some (execHandle s f)
  | synRegister f =>
    some ({ s with handshaking := Function.update s.handshaking f.connId (some s.now) },
      if (s.handshaking f.connId).isSome then [] else [synReserve f])
  | synReserve f =>
    let e := (s.pending.get f.connId).getD (PendingEntry.new s.now)
    some ({ s with
        pending := s.pending.put f.connId { e with cancel := some s.nextNotify }
        nextNotify := s.nextNotify + 1 }, [synCheckClosed f s.nextNotify])
  | synCheckClosed f n => some (s, execSynCheckClosed s f n)
  | synBindUdp c =>
    match ch with
    | .connected => some (s, [synInsert c true])
    | .failed => some (s, synFail c)
    | _ => none
  | synConnect c n =>
    match ch with
    | .connected => some (s, [synRecheckClosed c])
    | .failed => some (s, synFail c)
    | .cancelled =>
      if s.notified n then
        some ({ s with notified := Function.update s.notified n false }, synCancelled c)
      else none
    | _ => none
  | synRecheckClosed c => some (s, if (s.closed c).isSome then synClosed c else [synInsert c false])
  | synInsert c isUdp =>
    some ({ s with
        heap := Function.update s.heap s.nextConn (VirtConnDe.new c s.window isUdp s.now)
        conns := Function.update s.conns c (some s.nextConn)
        nextConn := s.nextConn + 1 }, [synDrain c s.nextConn])
  | synDrain c v =>
    match s.pending.get c with
    | none => some (s, [handshakingRemove c])
    | some e => some ({ s with pending := s.pending.del c }, afterDrain s c v e)
  | synReplay c v frames fin => some (execReplay s c v fin frames)
  | replayClose v =>
    some (if (s.heap v).finReceived then s.setConn v ((s.heap v).closeWriteHalf false) else s, [])
  | synForward c v _ frames => some (s, forwardFrames c v frames)
  | udpForward v f => some (s.setConn v ((s.heap v).received f.payload.length s.now), [])
  | dataDeliver v f => some (execDeliver s v f)
  | dataClose v c =>
    if (s.heap v).finReceived then
      some (s.setConn v ((s.heap v).closeWriteHalf false), [finishIfDone v c])
    else some (s, [])
  | finishIfDone v c => some (s, if (s.heap v).isDone then [closedInsert c, connsForget c] else [])
  | dataCheckClosed f =>
    some (s, if (s.closed f.connId).isSome then [sendRst f.connId] else [dataContains f])
  | dataContains f =>
    some (s, if (s.pending.get f.connId).isSome then [reserveLoad false f] else [dataLen f])
  | dataLen f =>
    some (s, if s.pending.size < maxPendingCids then [reserveLoad true f]
      else failPendingConn f.connId)
  | reserveLoad fresh f => some (s, [reserveCas fresh f s.pendingBytes])
  | reserveCas fresh f current => some (execCas s fresh f current (ch = .spurious))
  | evictEmpty fresh f =>
    some (s, if s.pending.size = 0 then failPendingConn f.connId else [evictPick fresh f])
  | evictPick fresh f =>
    if s.pending.entries.all fun x => some x.1 = exclude fresh f then
      some (s, failPendingConn f.connId)
    else
      match ch with
      | .victim key =>
        match s.pending.get key with
        | some e =>
          if isOldest s.pending (exclude fresh f) key e then
            some (s, [evictRemove fresh f key e.bytes e.cancel])
          else none
        | none => none
      | _ => none
  | evictRemove fresh f key bytes cancel =>
    match s.pending.get key with
    | none => some (s, [reserveLoad fresh f])
    | some e =>
      some ({ s with pending := s.pending.del key },
        [refund bytes e.bytes, notifyCancel cancel, closedInsert key, sendRst key,
          reserveLoad fresh f])
  | dataPush f =>
    let plen := f.payload.length
    some (execPush s f plen (refund plen plen :: failPendingConn f.connId)
      [refund plen plen, dataVanished f])
  | dataInsert f => some (insertEntry s f f.payload.length, [])
  | dataVanished f => some (s, if (s.conns f.connId).isSome then [handle f] else [])
  | startHalfClose v c finSeq =>
    some (s.setConn v ((s.heap v).startHalfClose finSeq), [finishIfDone v c])
  | finCheckClosed f => some (s, if (s.closed f.connId).isSome then [] else [finContains f])
  | finContains f =>
    some (s, if (s.pending.get f.connId).isSome then [finPush f] else [finLen f])
  | finPush f => some (execPush s f 0 (failPendingConn f.connId) [])
  | finLen f =>
    some (s, if s.pending.size < maxPendingCids then [finInsert f] else failPendingConn f.connId)
  | finInsert f => some (insertEntry s f 0, [])
  | rstMark c => some (markCancelled s c, [closedInsert c])
  | removePending c =>
    match s.pending.get c with
    | none => some (s, [])
    | some e => some ({ s with pending := s.pending.del c }, [refund e.bytes e.bytes])
  | refund b _ => some (s.fetchSub b, [])
  | notifyCancel n => some (s.notify n, [])
  | handshakingRemove c =>
    some ({ s with handshaking := Function.update s.handshaking c none }, [])
  | closedInsert c => some ({ s with closed := Function.update s.closed c (some s.now) }, [])
  | connsRemove c =>
    match s.conns c with
    | none => some (s, [])
    | some v =>
      some ({ s with conns := Function.update s.conns c none }.setConn v (s.heap v).signalTeardown, [])
  | connsForget c => some ({ s with conns := Function.update s.conns c none }, [])
  | signalTeardown v => some (s.setConn v (s.heap v).signalTeardown, [])
  | sendRst c => some ({ s with offered := s.offered ++ [Frame.rst c] }, [])
  | countReset => some ({ s with resets := s.resets + 1 }, [])
  | failMark c => some (markCancelled s c, [])
  | sweepRetain ttlSecs =>
    let swept := s.pending.retain fun _ e => !isFresh s.now ttlSecs e
    let freed := swept.total fun _ e => e.bytes
    some ({ s with pending := s.pending.retain fun _ e => isFresh s.now ttlSecs e },
      refund freed freed :: sweepTail swept)
  | forceClose v => some (s.setConn v ((s.heap v).closeWriteHalf true), [])
  | egressEof v c => some (s.setConn v { s.heap v with egressEof := true }, [finishIfDone v c])

/-! ## What the loops leave to do -/

section Loops

variable {p : Instr → Prop} {s s' : Shared} {ch : Choice} {is : List Instr} {c : ConnId} {v : ℕ}

theorem forall_sweepTail (hn : ∀ n, p (notifyCancel n)) (hc : ∀ d, p (closedInsert d)) (hr : ∀ d, p (sendRst d))
    (m : Table ConnId PendingEntry) : ∀ j ∈ sweepTail m, p j := by
  intro j hj
  obtain ⟨x, -, hx⟩ := List.mem_flatMap.mp hj
  simp only [List.mem_cons, List.not_mem_nil, or_false] at hx
  rcases hx with rfl | rfl | rfl
  · exact hn _
  · exact hc _
  · exact hr _

theorem forall_sweep {ttl : ℕ} (h : exec s (sweepRetain ttl) ch = some (s', is)) (hb : ∀ b, p (refund b b))
    (hn : ∀ n, p (notifyCancel n)) (hc : ∀ d, p (closedInsert d)) (hr : ∀ d, p (sendRst d)) : ∀ j ∈ is, p j := by
  cases h
  exact List.forall_mem_cons.mpr ⟨hb _, forall_sweepTail hn hc hr _⟩

/-- After the entry of a SYN: its refund, then a cancellation, the datagrams or the replay. -/
theorem forall_drain (h : exec s (synDrain c v) ch = some (s', is)) (hrem : p (handshakingRemove c))
    (hb : ∀ b, p (refund b b)) (hcancel : ∀ j ∈ drainCancelled c, p j) (hfwd : ∀ f fs, p (synForward c v f fs))
    (hreplay : ∀ fs, p (synReplay c v fs none)) : ∀ j ∈ is, p j := by
  simp only [exec, afterDrain] at h
  (repeat' split at h) <;> cases h
  · exact List.forall_mem_singleton.mpr hrem
  · exact List.forall_mem_cons.mpr ⟨hb _, hcancel⟩
  · exact List.forall_mem_cons.mpr ⟨hb _, forall_forwardFrames hrem hfwd _⟩
  · exact List.forall_mem_cons.mpr ⟨hb _, List.forall_mem_singleton.mpr (hreplay _)⟩

/-- After one buffered frame: the rest of the replay, or the reset of the stream it broke. -/
theorem forall_replay {fs : List Frame} {fin : Option ℕ} (h : exec s (synReplay c v fs fin) ch = some (s', is))
    (hrem : p (handshakingRemove c)) (hhalf : ∀ q, p (startHalfClose v c q)) (hclose : p (replayClose v))
    (hreplay : ∀ fs fin, p (synReplay c v fs fin)) (hreset : ∀ j ∈ drainReset c, p j) : ∀ j ∈ is, p j := by
  cases fs with
  | nil =>
    cases fin with
    | none =>
      cases h
      exact List.forall_mem_singleton.mpr hrem
    | some q =>
      cases h
      exact List.forall_mem_cons.mpr ⟨hhalf q, List.forall_mem_singleton.mpr hrem⟩
  | cons f fs =>
    simp only [exec, execReplay] at h
    (repeat' split at h) <;> cases h
    · exact List.forall_mem_singleton.mpr (hreplay _ _)
    · exact List.forall_mem_cons.mpr ⟨hclose, List.forall_mem_singleton.mpr (hreplay _ _)⟩
    · exact hreset
    · exact List.forall_mem_singleton.mpr (hreplay _ _)
    · exact List.forall_mem_singleton.mpr (hreplay _ _)

end Loops

/-! ## The system -/

/-- The tasks that may start: a frame read from any tunnel, the pending sweep, the force-close timer
of a connection that received a FIN, the end of an egress reader (EOF with its FIN sent or not, or a
response that no tunnel took), and the idle sweep of a connection. -/
inductive Spawn (s : Shared) : List Instr → Prop where
  | frame (f : Frame) : Spawn s [dispatch f]
  | sweep : Spawn s [sweepRetain pendingTtlSecs]
  | timer (v : ℕ) : v < s.nextConn → (s.heap v).finReceived = true → Spawn s [forceClose v]
  | eof (v : ℕ) : v < s.nextConn → Spawn s [egressEof v (s.heap v).connId]
  | eofUnsent (v : ℕ) : v < s.nextConn →
      Spawn s [sendRst (s.heap v).connId, egressEof v (s.heap v).connId]
  | unsent (v : ℕ) : v < s.nextConn →
      Spawn s [closedInsert (s.heap v).connId, connsRemove (s.heap v).connId,
        sendRst (s.heap v).connId]
  | idle (c : ConnId) (v : ℕ) : s.conns c = some v →
      Spawn s [closedInsert c, sendRst c, connsRemove c]

/-- What happens outside the tasks: time passes, egress writers receive or go away, and the heartbeat
expires tombstones and handshake flags. -/
inductive Env (s : Shared) : Shared → Prop where
  | tick (d : ℕ) : Env s { s with now := s.now + d }
  | egressRecv (v : ℕ) (ch ch' : Chan Bytes) (a : Bytes) : (s.heap v).egress = some ch →
      ch.recv = some (a, ch') → Env s (s.setConn v { s.heap v with egress := some ch' })
  | egressClose (v : ℕ) (ch : Chan Bytes) : (s.heap v).egress = some ch →
      Env s (s.setConn v { s.heap v with egress := some ch.close })
  | closedExpire (c : ConnId) : Env s { s with closed := Function.update s.closed c none }
  | handshakingExpire (c : ConnId) :
      Env s { s with handshaking := Function.update s.handshaking c none }

/-- The reassembler. -/
def system : TaskSystem Shared Instr Choice := ⟨exec, Spawn, Env⟩

/-- A SYN for `a:80` over TCP. -/
def synTcp (c : ConnId) : Frame := .syn c [protoTcp, 0, 1, 97, 0, 80]

/-- A move that steps a task or starts the handler of a frame. -/
def isFrameMove : TaskSystem.Move Shared Instr Choice → Bool
  | .step _ _ => true
  | .start [dispatch _] => true
  | _ => false

theorem allowed_of_isFrameMove {ms : List (TaskSystem.Move Shared Instr Choice)}
    (h : ms.all isFrameMove = true) : ∀ m ∈ ms, system.Allowed m := by
  intro m hm
  have hf := List.all_eq_true.mp h m hm
  unfold isFrameMove at hf
  split at hf
  · trivial
  · exact fun s => Spawn.frame _
  · cases hf

end RoundRobin.Reassembler
