import RoundRobin.Reassembler.Handlers

/-!
# RoundRobin.Reassembler.Effects — which instruction changes which part of the state

For each shared component the instructions that write it (`writesConns`, `writesClosed`,
`writesPending`, `writesBytes`); all others leave it as it is.  The invariants look at the writers
only.
-/

namespace RoundRobin.Reassembler

open Instr

namespace Instr

def writesConns : Instr → Bool
  | handle _ | synInsert _ _ | connsRemove _ | connsForget _ => true
  | _ => false

def writesClosed : Instr → Bool
  | closedInsert _ => true
  | _ => false

def writesPending : Instr → Bool
  | synReserve _ | synDrain _ _ | evictRemove _ _ _ _ _ | dataPush _ | dataInsert _ | finPush _
  | finInsert _ | rstMark _ | removePending _ | failMark _ | sweepRetain _ => true
  | _ => false

def writesBytes : Instr → Bool
  | reserveCas _ _ _ | refund _ _ => true
  | _ => false

def writesHandshaking : Instr → Bool
  | synRegister _ | handshakingRemove _ => true
  | _ => false

/-- The connection an instruction changes or builds. -/
def touches (s : Shared) : Instr → Option ℕ
  | synReplay _ v _ _ | replayClose v | udpForward v _ | dataDeliver v _ | dataClose v _
  | startHalfClose v _ _ | signalTeardown v | forceClose v | egressEof v _ => some v
  | connsRemove c => s.conns c
  | synInsert _ _ => some s.nextConn
  | _ => none

end Instr

/-- The instruction unregisters `c`. -/
def removes (c : ConnId) : Instr → Bool
  | connsRemove c' | connsForget c' => c' = c
  | _ => false

/-! ## Parts of the state an update does not touch -/

section Updates

variable (s : Shared) (v : ℕ) (vc : VirtConnDe) (n : Option ℕ) (c : ConnId)

@[simp] theorem setConn_conns : (s.setConn v vc).conns = s.conns := rfl
@[simp] theorem setConn_closed : (s.setConn v vc).closed = s.closed := rfl
@[simp] theorem setConn_pending : (s.setConn v vc).pending = s.pending := rfl
@[simp] theorem setConn_pendingBytes : (s.setConn v vc).pendingBytes = s.pendingBytes := rfl
@[simp] theorem setConn_offered : (s.setConn v vc).offered = s.offered := rfl
@[simp] theorem setConn_nextConn : (s.setConn v vc).nextConn = s.nextConn := rfl
@[simp] theorem setConn_window : (s.setConn v vc).window = s.window := rfl
@[simp] theorem setConn_handshaking : (s.setConn v vc).handshaking = s.handshaking := rfl

@[simp] theorem setConn_heap_self : (s.setConn v vc).heap v = vc := by
  simp [Shared.setConn]

theorem setConn_heap_ne {w : ℕ} (h : w ≠ v) : (s.setConn v vc).heap w = s.heap w := by
  simp [Shared.setConn, h]

@[simp] theorem notify_conns : (s.notify n).conns = s.conns := by cases n <;> rfl
@[simp] theorem notify_closed : (s.notify n).closed = s.closed := by cases n <;> rfl
@[simp] theorem notify_pending : (s.notify n).pending = s.pending := by cases n <;> rfl
@[simp] theorem notify_pendingBytes : (s.notify n).pendingBytes = s.pendingBytes := by cases n <;> rfl
@[simp] theorem notify_offered : (s.notify n).offered = s.offered := by cases n <;> rfl
@[simp] theorem notify_heap : (s.notify n).heap = s.heap := by cases n <;> rfl
@[simp] theorem notify_nextConn : (s.notify n).nextConn = s.nextConn := by cases n <;> rfl
@[simp] theorem notify_window : (s.notify n).window = s.window := by cases n <;> rfl
@[simp] theorem notify_handshaking : (s.notify n).handshaking = s.handshaking := by cases n <;> rfl
@[simp] theorem notify_now : (s.notify n).now = s.now := by cases n <;> rfl

@[simp] theorem markCancelled_conns : (markCancelled s c).conns = s.conns := by
  unfold markCancelled; split <;> simp
@[simp] theorem markCancelled_closed : (markCancelled s c).closed = s.closed := by
  unfold markCancelled; split <;> simp
@[simp] theorem markCancelled_pendingBytes : (markCancelled s c).pendingBytes = s.pendingBytes := by
  unfold markCancelled; split <;> simp
@[simp] theorem markCancelled_offered : (markCancelled s c).offered = s.offered := by
  unfold markCancelled; split <;> simp
@[simp] theorem markCancelled_heap : (markCancelled s c).heap = s.heap := by
  unfold markCancelled; split <;> simp
@[simp] theorem markCancelled_nextConn : (markCancelled s c).nextConn = s.nextConn := by
  unfold markCancelled; split <;> simp
@[simp] theorem markCancelled_window : (markCancelled s c).window = s.window := by
  unfold markCancelled; split <;> simp

@[simp] theorem markCancelled_handshaking : (markCancelled s c).handshaking = s.handshaking := by
  unfold markCancelled; split <;> simp

@[simp] theorem markCancelled_now : (markCancelled s c).now = s.now := by
  unfold markCancelled; split <;> simp

theorem markCancelled_pending : (markCancelled s c).pending =
    match s.pending.get c with
    | none => s.pending
    | some e => s.pending.put c { e with cancelled := true } := by
  unfold markCancelled; split <;> simp_all

end Updates

section Conn

variable (vc : VirtConnDe) (force : Bool) (q : ℕ) (f : Frame)

@[simp] theorem closeWriteHalf_isUdp : (vc.closeWriteHalf force).isUdp = vc.isUdp := by
  unfold VirtConnDe.closeWriteHalf; (repeat' split) <;> rfl
@[simp] theorem closeWriteHalf_egressEof : (vc.closeWriteHalf force).egressEof = vc.egressEof := by
  unfold VirtConnDe.closeWriteHalf; (repeat' split) <;> rfl
@[simp] theorem closeWriteHalf_pushed : (vc.closeWriteHalf force).pushed = vc.pushed := by
  unfold VirtConnDe.closeWriteHalf; (repeat' split) <;> rfl
@[simp] theorem closeWriteHalf_finReceived :
    (vc.closeWriteHalf force).finReceived = vc.finReceived := by
  unfold VirtConnDe.closeWriteHalf; (repeat' split) <;> rfl

@[simp] theorem startHalfClose_isUdp : (vc.startHalfClose q).isUdp = vc.isUdp := by
  unfold VirtConnDe.startHalfClose; split <;> simp
@[simp] theorem startHalfClose_egressEof : (vc.startHalfClose q).egressEof = vc.egressEof := by
  unfold VirtConnDe.startHalfClose; split <;> simp
@[simp] theorem startHalfClose_pushed : (vc.startHalfClose q).pushed = vc.pushed := by
  unfold VirtConnDe.startHalfClose; split <;> simp
@[simp] theorem startHalfClose_finReceived : (vc.startHalfClose q).finReceived = true := by
  unfold VirtConnDe.startHalfClose; split <;> simp_all

theorem deliver_fst : ∃ r e, (vc.deliver f).1 =
    { vc with reorder := r, egress := e, pushed := vc.pushed ++ [f] } := by
  simp only [VirtConnDe.deliver]
  by_cases ha : (vc.reorder.push f.seq.toNat f.payload).2.accepted = true
  · simp only [ha, Bool.not_true, Bool.false_eq_true, if_false]
    split <;> exact ⟨_, _, rfl⟩
  · simp only [ha, Bool.not_false, if_true]
    exact ⟨_, _, rfl⟩

@[simp] theorem deliver_isUdp : (vc.deliver f).1.isUdp = vc.isUdp := by
  obtain ⟨r, e, h⟩ := deliver_fst vc f
  rw [h]
@[simp] theorem deliver_egressEof : (vc.deliver f).1.egressEof = vc.egressEof := by
  obtain ⟨r, e, h⟩ := deliver_fst vc f
  rw [h]
@[simp] theorem deliver_pushed : (vc.deliver f).1.pushed = vc.pushed ++ [f] := by
  obtain ⟨r, e, h⟩ := deliver_fst vc f
  rw [h]
@[simp] theorem deliver_finReceived : (vc.deliver f).1.finReceived = vc.finReceived := by
  obtain ⟨r, e, h⟩ := deliver_fst vc f
  rw [h]

@[simp] theorem closeWriteHalf_connId : (vc.closeWriteHalf force).connId = vc.connId := by
  unfold VirtConnDe.closeWriteHalf; (repeat' split) <;> rfl
@[simp] theorem startHalfClose_connId : (vc.startHalfClose q).connId = vc.connId := by
  unfold VirtConnDe.startHalfClose; split <;> simp
@[simp] theorem deliver_connId : (vc.deliver f).1.connId = vc.connId := by
  obtain ⟨r, e, h⟩ := deliver_fst vc f
  rw [h]
@[simp] theorem signalTeardown_connId : vc.signalTeardown.connId = vc.connId := rfl

variable (plen now : ℕ)

@[simp] theorem received_isUdp : (vc.received plen now).isUdp = vc.isUdp := rfl
@[simp] theorem received_egressEof : (vc.received plen now).egressEof = vc.egressEof := rfl
@[simp] theorem received_pushed : (vc.received plen now).pushed = vc.pushed := rfl
@[simp] theorem received_finReceived : (vc.received plen now).finReceived = vc.finReceived := rfl
@[simp] theorem received_connId : (vc.received plen now).connId = vc.connId := rfl
@[simp] theorem received_egress : (vc.received plen now).egress = vc.egress := rfl

end Conn

/-! ## Footprints -/

section Footprints

variable {s s' : Shared} {i : Instr} {ch : Choice} {is : List Instr}

attribute [local simp] exec execHandle execReplay execDeliver execCas execPush

theorem exec_conns (h : exec s i ch = some (s', is)) (hi : i.writesConns = false) :
    s'.conns = s.conns := by
  cases i with
  | synReplay c v fs fin =>
    cases fs <;> simp only [exec, execReplay] at h <;> (repeat' split at h) <;> cases h <;> rfl
  | handle f => cases hi
  | synInsert c u => cases hi
  | connsRemove c => cases hi
  | connsForget c => cases hi
  | _ =>
    simp only [exec, execDeliver, execCas, execPush] at h
    (repeat' split at h) <;> cases h <;> first | rfl | simp

theorem exec_closed (h : exec s i ch = some (s', is)) (hi : i.writesClosed = false) :
    s'.closed = s.closed := by
  cases i with
  | synReplay c v fs fin =>
    cases fs <;> simp only [exec, execReplay] at h <;> (repeat' split at h) <;> cases h <;> rfl
  | closedInsert c => cases hi
  | _ =>
    simp only [exec, execHandle, execDeliver, execCas, execPush] at h
    (repeat' split at h) <;> cases h <;> first | rfl | simp

theorem exec_pending (h : exec s i ch = some (s', is)) (hi : i.writesPending = false) :
    s'.pending = s.pending := by
  cases i with
  | synReplay c v fs fin =>
    cases fs <;> simp only [exec, execReplay] at h <;> (repeat' split at h) <;> cases h <;> rfl
  | synReserve f => cases hi
  | synDrain c v => cases hi
  | evictRemove a b c d e => cases hi
  | dataPush f => cases hi
  | dataInsert f => cases hi
  | finPush f => cases hi
  | finInsert f => cases hi
  | rstMark c => cases hi
  | removePending c => cases hi
  | failMark c => cases hi
  | sweepRetain t => cases hi
  | _ =>
    simp only [exec, execHandle, execDeliver, execCas] at h
    (repeat' split at h) <;> cases h <;> first | rfl | simp

theorem exec_pendingBytes (h : exec s i ch = some (s', is)) (hi : i.writesBytes = false) :
    s'.pendingBytes = s.pendingBytes := by
  cases i with
  | synReplay c v fs fin =>
    cases fs <;> simp only [exec, execReplay] at h <;> (repeat' split at h) <;> cases h <;> rfl
  | reserveCas a b c => cases hi
  | refund a b => cases hi
  | _ =>
    simp only [exec, execHandle, execDeliver, execPush] at h
    (repeat' split at h) <;> cases h <;> first | rfl | simp

theorem exec_handshaking (h : exec s i ch = some (s', is)) (hi : i.writesHandshaking = false) :
    s'.handshaking = s.handshaking := by
  cases i with
  | synReplay c v fs fin =>
    cases fs <;> simp only [exec, execReplay] at h <;> (repeat' split at h) <;> cases h <;> rfl
  | synRegister f => cases hi
  | handshakingRemove c => cases hi
  | _ =>
    simp only [exec, execHandle, execDeliver, execCas, execPush] at h
    (repeat' split at h) <;> cases h <;> first | rfl | simp

/-- An instruction changes the connection it touches, if any. -/
theorem exec_heap_cases (h : exec s i ch = some (s', is)) : s'.heap = s.heap ∨
    ∃ v vc, i.touches s = some v ∧ s'.heap = Function.update s.heap v vc ∧
      ((∀ c u, i ≠ synInsert c u) → vc.connId = (s.heap v).connId) := by
  cases i with
  | synReplay c v fs fin =>
    cases fs <;> simp only [exec, execReplay] at h <;> (repeat' split at h) <;> cases h <;>
      first | exact .inl rfl | exact .inr ⟨v, _, rfl, rfl, fun _ => by simp⟩
  | connsRemove c =>
    simp only [exec] at h
    split at h <;> cases h
    · exact .inl rfl
    · rename_i v hv
      exact .inr ⟨v, _, hv, rfl, fun _ => rfl⟩
  | synInsert c u =>
    cases h
    exact .inr ⟨_, _, rfl, rfl, fun hne => absurd rfl (hne c u)⟩
  | replayClose v =>
    cases h
    split
    · exact .inr ⟨v, _, rfl, rfl, fun _ => by simp⟩
    · exact .inl rfl
  | udpForward v f =>
    cases h
    exact .inr ⟨v, _, rfl, rfl, fun _ => rfl⟩
  | dataDeliver v f =>
    simp only [exec, execDeliver] at h
    split at h <;> cases h <;> exact .inr ⟨v, _, rfl, rfl, fun _ => by simp⟩
  | dataClose v c =>
    simp only [exec] at h
    split at h <;> cases h
    · exact .inr ⟨v, _, rfl, rfl, fun _ => by simp⟩
    · exact .inl rfl
  | startHalfClose v c q =>
    cases h
    exact .inr ⟨v, _, rfl, rfl, fun _ => by simp⟩
  | signalTeardown v =>
    cases h
    exact .inr ⟨v, _, rfl, rfl, fun _ => rfl⟩
  | forceClose v =>
    cases h
    exact .inr ⟨v, _, rfl, rfl, fun _ => by simp⟩
  | egressEof v c =>
    cases h
    exact .inr ⟨v, _, rfl, rfl, fun _ => rfl⟩
  | _ =>
    left
    simp only [exec, execHandle, execCas, execPush] at h
    (repeat' split at h) <;> cases h <;> first | rfl | simp

/-- Only the connection an instruction touches changes. -/
theorem exec_heap_of (h : exec s i ch = some (s', is)) {w : ℕ} (hw : i.touches s ≠ some w) :
    s'.heap w = s.heap w := by
  rcases exec_heap_cases h with he | ⟨v, vc, hv, he, -⟩
  · rw [he]
  · rw [he, Function.update_of_ne]
    rintro rfl
    exact hw hv

theorem exec_connId (h : exec s i ch = some (s', is)) (hins : ∀ c u, i ≠ synInsert c u) (w : ℕ) :
    (s'.heap w).connId = (s.heap w).connId := by
  rcases exec_heap_cases h with he | ⟨v, vc, -, he, hid⟩
  · rw [he]
  · rw [he]
    by_cases hw : w = v
    · subst hw
      rw [Function.update_self, hid hins]
    · rw [Function.update_of_ne hw]

theorem exec_offered (h : exec s i ch = some (s', is)) : s'.offered = s.offered ∨
    ∃ c, i = sendRst c ∧ s'.offered = s.offered ++ [Frame.rst c] := by
  cases i with
  | sendRst c =>
    cases h
    exact .inr ⟨c, rfl, rfl⟩
  | synReplay c v fs fin =>
    left
    cases fs <;> simp only [exec, execReplay] at h <;> (repeat' split at h) <;> cases h <;> rfl
  | _ =>
    left
    simp only [exec, execHandle, execDeliver, execCas, execPush] at h
    (repeat' split at h) <;> cases h <;> first | rfl | simp

theorem exec_closed_some {c : ConnId} (h : exec s i ch = some (s', is)) (hc : (s.closed c).isSome) :
    (s'.closed c).isSome := by
  by_cases hw : i.writesClosed = true
  · cases i with
    | closedInsert c' =>
      cases h
      by_cases hcc : c = c'
      · simp [hcc]
      · simpa [hcc] using hc
    | _ => cases hw
  · rwa [exec_closed h (by simpa using hw)]

theorem exec_nextConn (h : exec s i ch = some (s', is)) (hins : ∀ c' u, i ≠ synInsert c' u) :
    s'.nextConn = s.nextConn := by
  cases i with
  | synInsert c' u => exact absurd rfl (hins c' u)
  | synReplay c v fs fin =>
    cases fs <;> simp only [exec, execReplay] at h <;> (repeat' split at h) <;> cases h <;> rfl
  | _ =>
    simp only [exec, execHandle, execDeliver, execCas, execPush] at h
    (repeat' split at h) <;> cases h <;> first | rfl | simp

/-- Nobody but a SYN handler registers a connection. -/
theorem exec_conns_sub (h : exec s i ch = some (s', is)) (hins : ∀ c' u, i ≠ synInsert c' u)
    {c' : ConnId} {v : ℕ} (hv : s'.conns c' = some v) : s.conns c' = some v := by
  by_cases hw : i.writesConns = true
  · cases i with
    | handle f =>
      simp only [exec, execHandle] at h
      (repeat' split at h) <;> cases h <;> first | exact hv | skip
      by_cases hf : c' = f.connId
      · simp [hf] at hv
      · simpa [hf] using hv
    | synInsert c' u => exact absurd rfl (hins c' u)
    | connsRemove c0 =>
      simp only [exec] at h
      split at h <;> cases h
      · exact hv
      · by_cases hcc : c' = c0
        · simp [hcc] at hv
        · simpa [hcc] using hv
    | connsForget c0 =>
      cases h
      by_cases hcc : c' = c0
      · simp [hcc] at hv
      · simpa [hcc] using hv
    | _ => cases hw
  · rwa [exec_conns h (by simpa using hw)] at hv

/-- Whoever registers a connection that was not registered is a SYN handler. -/
theorem exec_registers {c : ConnId} (h : exec s i ch = some (s', is)) (hc : (s'.conns c).isSome) :
    (s.conns c).isSome ∨ ∃ u, i = synInsert c u := by
  by_cases hw : i.writesConns = true
  · cases i with
    | handle f =>
      left
      simp only [exec, execHandle] at h
      (repeat' split at h) <;> cases h <;> first | exact hc | skip
      by_cases hf : c = f.connId
      · simp [hf] at hc
      · simpa [hf] using hc
    | synInsert c' u =>
      cases h
      by_cases hcc : c = c'
      · exact .inr ⟨u, by rw [hcc]⟩
      · exact .inl (by simpa [hcc] using hc)
    | connsRemove c' =>
      left
      simp only [exec] at h
      split at h
      · cases h
        exact hc
      · cases h
        by_cases hcc : c = c'
        · simp [hcc] at hc
        · simpa [hcc] using hc
    | connsForget c' =>
      left
      cases h
      by_cases hcc : c = c'
      · simp [hcc] at hc
      · simpa [hcc] using hc
    | _ => cases hw
  · rw [exec_conns h (by simpa using hw)] at hc
    exact .inl hc

/-- Whoever tombstones a conn id runs `closedInsert`. -/
theorem exec_tombstones {c : ConnId} (h : exec s i ch = some (s', is)) (hc : (s'.closed c).isSome) :
    (s.closed c).isSome ∨ i = closedInsert c := by
  by_cases hw : i.writesClosed = true
  · cases i with
    | closedInsert c' =>
      cases h
      by_cases hcc : c = c'
      · exact .inr (by rw [hcc])
      · exact .inl (by simpa [hcc] using hc)
    | _ => cases hw
  · rw [exec_closed h (by simpa using hw)] at hc
    exact .inl hc

end Footprints

end RoundRobin.Reassembler
