import RoundRobin.Reassembler.Upload.System

/-!
# RoundRobin.Reassembler.Upload.Conns — connections inside a call

What the running handler relies on at each instruction, and what one instruction does to the connection
objects: ours stays intact, or a write was refused and only the teardown is left.
-/

namespace RoundRobin.Reassembler

open Instr TaskSystem

/-! ## The invariant inside a call -/

def IsGood (src : Source) (vc : VirtConnDe) : Prop := ∃ ch, Good src vc ch

def IsClean (src : Source) (vc : VirtConnDe) : Prop := ∃ ch, Clean src vc ch

theorem IsClean.good {src : Source} {vc : VirtConnDe} (h : IsClean src vc) : IsGood src vc :=
  ⟨h.choose, h.choose_spec.toGood⟩

/-- Buffered frames are frames of the stream. -/
def EntryOk (src : Source) (e : PendingEntry) : Prop :=
  ∀ f ∈ e.frames, Authentic src f ∧ (isData f = true ∨ isFin f = true)

/-- The maps and connections, whatever a handler is doing. -/
structure Base (c : ConnId) (src : Source) (s : Shared) : Prop where
  owner : ∀ c' v, s.conns c' = some v → v < s.nextConn ∧ (s.heap v).connId = c'
  entries : ∀ e, s.pending.get c = some e → EntryOk src e
  good : ∀ v, v < s.nextConn → (s.heap v).connId = c → IsGood src (s.heap v)

/-- A registered connection is intact. -/
def Intact (c : ConnId) (src : Source) (s : Shared) : Prop :=
  ∀ v, s.conns c = some v → IsClean src (s.heap v)

/-- The handle `v` belongs to `c'`, and is intact if that is our connection. -/
def Handle (c : ConnId) (src : Source) (s : Shared) (v : ℕ) (c' : ConnId) : Prop :=
  v < s.nextConn ∧ (s.heap v).connId = c' ∧ (c' = c → IsClean src (s.heap v))

/-- What the running handler relies on at an instruction. -/
def Fit (c : ConnId) (src : Source) (s : Shared) : Instr → Prop
  | dispatch f | handle f => f.connId = c → Authentic src f
  | synRegister f | synReserve f | synCheckClosed f _ => f.connId = c → StreamSyn f
  | dataCheckClosed f | dataContains f | dataLen f | reserveLoad _ f | reserveCas _ f _
  | evictEmpty _ f | evictPick _ f | evictRemove _ f _ _ _ | dataPush f | dataInsert f
  | dataVanished f => f.connId = c → Authentic src f ∧ isData f = true
  | finCheckClosed f | finContains f | finPush f | finLen f | finInsert f =>
    f.connId = c → Authentic src f ∧ isFin f = true
  | dataDeliver v f => (f.connId = c → Authentic src f ∧ isData f = true) ∧ Handle c src s v f.connId
  | synDrain c' v => Handle c src s v c'
  | synReplay c' v fs fin => Handle c src s v c' ∧
      (c' = c → (∀ f ∈ fs, Authentic src f ∧ (isData f = true ∨ isFin f = true)) ∧
        ∀ q, fin = some q → src.finSent = true ∧ q = src.sent.length + 1)
  | replayClose v | dataClose v _ => Handle c src s v (s.heap v).connId
  | startHalfClose v c' q => Handle c src s v c' ∧
      (c' = c → src.finSent = true ∧ q = src.sent.length + 1)
  | synInsert c' isUdp => c' = c → isUdp = false
  | synBindUdp c' => c' ≠ c
  | _ => True

/-- What the handler relies on later survives a step. -/
structure Stays (c : ConnId) (src : Source) (s s' : Shared) : Prop where
  next : s.nextConn ≤ s'.nextConn
  connId : ∀ v, v < s.nextConn → (s'.heap v).connId = (s.heap v).connId
  clean : ∀ v, v < s.nextConn → (s.heap v).connId = c → IsClean src (s.heap v) →
    IsClean src (s'.heap v)

theorem Stays.handle {c : ConnId} {src : Source} {s s' : Shared} (h : Stays c src s s') {v : ℕ}
    {c' : ConnId} (hv : Handle c src s v c') : Handle c src s' v c' := by
  obtain ⟨hlt, hid, hcl⟩ := hv
  refine ⟨lt_of_lt_of_le hlt h.next, (h.connId v hlt).trans hid, fun hc => ?_⟩
  exact h.clean v hlt (hid.trans hc) (hcl hc)

theorem Stays.fit {c : ConnId} {src : Source} {s s' : Shared} (h : Stays c src s s') {i : Instr}
    (hi : Fit c src s i) : Fit c src s' i := by
  cases i with
  | dataDeliver v f => exact ⟨hi.1, h.handle hi.2⟩
  | synDrain c' v => exact h.handle hi
  | synReplay c' v fs fin => exact ⟨h.handle hi.1, hi.2⟩
  | replayClose v =>
    have hh := h.handle hi
    rwa [← h.connId v hi.1] at hh
  | dataClose v c' =>
    have hh := h.handle hi
    rwa [← h.connId v hi.1] at hh
  | startHalfClose v c' q => exact ⟨h.handle hi.1, hi.2⟩
  | _ => exact hi

/-! ## Connections during one instruction -/

/-- The handler can still lead to a refused write, or is suspended: only a teardown may follow. -/
def risky : Instr → Bool
  | dispatch _ | handle _ | synRegister _ | synReserve _ | synCheckClosed _ _ | synBindUdp _
  | synConnect _ _ | synRecheckClosed _ | synInsert _ _ | synDrain _ _ | synReplay _ _ _ _
  | dataDeliver _ _ | dataCheckClosed _ | dataContains _ | dataLen _ | reserveLoad _ _
  | reserveCas _ _ _ | evictEmpty _ _ | evictPick _ _ | evictRemove _ _ _ _ _ | dataPush _
  | dataInsert _ | dataVanished _ | synForward _ _ _ _ | udpForward _ _ => true
  | _ => false

/-- The rest of a handler after a refused write. -/
def inert : Instr → Bool
  | closedInsert _ | connsRemove _ | sendRst _ | countReset | handshakingRemove _ => true
  | _ => false

/-- After a refused write only the teardown is left. -/
def Failing (c : ConnId) (i : Instr) (is : List Instr) : Prop :=
  risky i = true ∧ (∀ j ∈ is, inert j = true) ∧ connsRemove c ∈ is

section Exec

variable {c : ConnId} {src : Source} {s s' : Shared} {i : Instr} {ch : Choice} {is : List Instr}

/-- The connection at a handle after a step, compared with before. -/
structure Kin (c : ConnId) (src : Source) (vc vc' : VirtConnDe) : Prop where
  connId : vc'.connId = vc.connId
  good : vc.connId = c → IsGood src vc → IsGood src vc'

theorem Kin.refl (c : ConnId) (src : Source) (vc : VirtConnDe) : Kin c src vc vc :=
  ⟨rfl, fun _ h => h⟩

theorem setConn_kin {v : ℕ} {vc : VirtConnDe} (h : Kin c src (s.heap v) vc) (w : ℕ) :
    Kin c src (s.heap w) ((s.setConn v vc).heap w) := by
  by_cases hw : w = v
  · subst hw
    simpa using h
  · rw [setConn_heap_ne s v vc hw]
    exact .refl c src _

theorem setConn_clean {v : ℕ} {vc : VirtConnDe}
    (h : (s.heap v).connId = c → IsClean src (s.heap v) → IsClean src vc) (w : ℕ)
    (hid : (s.heap w).connId = c) (hw : IsClean src (s.heap w)) :
    IsClean src ((s.setConn v vc).heap w) := by
  by_cases hwv : w = v
  · subst hwv
    simpa using h hid hw
  · rwa [setConn_heap_ne s v vc hwv]

theorem signalTeardown_clean {vc : VirtConnDe} (h : IsClean src vc) :
    IsClean src vc.signalTeardown := by
  obtain ⟨ch, h⟩ := h
  exact ⟨ch, ⟨h.egress, h.stream, h.closed⟩, h.reorder, h.pos, h.bound, h.log, h.chunks, h.fin⟩

theorem signalTeardown_kin (vc : VirtConnDe) : Kin c src vc vc.signalTeardown := by
  refine ⟨rfl, fun _ hg => ?_⟩
  obtain ⟨ch, h⟩ := hg
  exact ⟨ch, h.egress, h.stream, h.closed⟩

theorem isClean_received {vc : VirtConnDe} (h : IsClean src vc) (plen now : ℕ) :
    IsClean src (vc.received plen now) := by
  obtain ⟨ch, h⟩ := h
  exact ⟨ch, received_clean h plen now⟩

theorem Kin.received {vc vc' : VirtConnDe} (h : Kin c src vc vc') (plen now : ℕ) :
    Kin c src vc (vc'.received plen now) := by
  refine ⟨h.connId, fun hc hg => ?_⟩
  obtain ⟨ch, hg⟩ := h.good hc hg
  exact ⟨ch, received_good hg plen now⟩

theorem egressEof_clean {vc : VirtConnDe} (h : IsClean src vc) :
    IsClean src { vc with egressEof := true } := by
  obtain ⟨ch, h⟩ := h
  exact ⟨ch, ⟨h.egress, h.stream, h.closed⟩, h.reorder, h.pos, h.bound, h.log, h.chunks, h.fin⟩

theorem egressEof_kin (vc : VirtConnDe) : Kin c src vc { vc with egressEof := true } := by
  refine ⟨rfl, fun _ hg => ?_⟩
  obtain ⟨ch, h⟩ := hg
  exact ⟨ch, h.egress, h.stream, h.closed⟩

theorem forceClose_kin (vc : VirtConnDe) : Kin c src vc (vc.closeWriteHalf true) := by
  refine ⟨closeWriteHalf_connId vc true, fun _ hg => ?_⟩
  obtain ⟨ch, h⟩ := hg
  exact ⟨ch, forceClose_good h⟩

/-- A step that keeps one connection's record for `c` clean keeps it kin. -/
theorem kin_of_clean {vc vc' : VirtConnDe} (hid : vc'.connId = vc.connId)
    (h : vc.connId = c → IsClean src vc') : Kin c src vc vc' :=
  ⟨hid, fun hc _ => (h hc).good⟩

/-- Delivering a frame at a handle. -/
theorem deliver_handle {v : ℕ} {f : Frame} (hv : Handle c src s v (s.heap v).connId)
    (hf : (s.heap v).connId = c → src.chunkAt f.seq.toNat = some f.payload) :
    Kin c src (s.heap v) ((s.heap v).deliver f).1 ∧
      (((s.heap v).connId = c → IsClean src ((s.heap v).deliver f).1) ∨
        ((s.heap v).connId = c ∧ ((s.heap v).deliver f).2 = .writeFailed)) := by
  by_cases hc : (s.heap v).connId = c
  · obtain ⟨ch, hcl⟩ := hv.2.2 hc
    obtain ⟨ch', hcl' | ⟨hg, hw⟩⟩ := deliver_clean hcl (hf hc)
    · exact ⟨kin_of_clean (deliver_connId _ _) fun _ => ⟨ch', hcl'⟩, .inl fun _ => ⟨ch', hcl'⟩⟩
    · exact ⟨⟨deliver_connId _ _, fun _ _ => ⟨ch', hg⟩⟩, .inr ⟨hc, hw⟩⟩
  · exact ⟨⟨deliver_connId _ _, fun h => absurd h hc⟩, .inl fun h => absurd h hc⟩

/-- What a step may do to the connections: our own stays as good as it was, and intact unless a write
was refused. -/
def HeapOk (c : ConnId) (src : Source) (s : Shared) (i : Instr) (s' : Shared) (is : List Instr) : Prop :=
  (∀ v, Kin c src (s.heap v) (s'.heap v)) ∧
    ((∀ v, (s.heap v).connId = c → IsClean src (s.heap v) → IsClean src (s'.heap v)) ∨ Failing c i is)

theorem heapOk_of_eq (h : s'.heap = s.heap) : HeapOk c src s i s' is := by
  refine ⟨fun v => ?_, .inl fun v _ hv => ?_⟩
  · rw [h]
    exact .refl c src _
  · rwa [h]

theorem heapOk_setConn {v : ℕ} {vc : VirtConnDe} (hs : s'.heap = (s.setConn v vc).heap)
    (hk : Kin c src (s.heap v) vc) (hcl : (s.heap v).connId = c → IsClean src (s.heap v) → IsClean src vc) :
    HeapOk c src s i s' is := by
  refine ⟨fun w => ?_, .inl fun w => ?_⟩
  · rw [hs]
    exact setConn_kin hk w
  · rw [hs]
    exact setConn_clean hcl w

theorem close_heapOk {v : ℕ} (hv : Handle c src s v (s.heap v).connId)
    (hf : (s.heap v).finReceived = true)
    (hs : s'.heap = (s.setConn v ((s.heap v).closeWriteHalf false)).heap) :
    HeapOk c src s i s' is := by
  have hcl : (s.heap v).connId = c → IsClean src ((s.heap v).closeWriteHalf false) := by
    intro hc
    obtain ⟨ch, h⟩ := hv.2.2 hc
    exact ⟨ch, closeWriteHalf_clean h hf⟩
  exact heapOk_setConn hs (kin_of_clean (closeWriteHalf_connId _ _) hcl) fun hc _ => hcl hc

theorem isData_of_has {f : Frame} (h : isData f = true ∨ isFin f = true) (hd : f.has flagData = true) :
    isData f = true := by
  rcases h with h | h
  · exact h
  · rw [isFin_iff, hd] at h
    cases h.2.1

theorem exec_heap (h : exec s i ch = some (s', is)) (hi : Fit c src s i)
    (hins : ∀ c' u, i ≠ synInsert c' u) : HeapOk c src s i s' is := by
  cases i with
  | synInsert c' u => exact absurd rfl (hins c' u)
  | synReplay c' v fs fin =>
    obtain ⟨hv, hfs⟩ := hi
    obtain rfl : (s.heap v).connId = c' := hv.2.1
    cases fs with
    | nil => cases fin <;> cases h <;> exact heapOk_of_eq rfl
    | cons f fs =>
      simp only [exec, execReplay] at h
      split at h
      · rename_i hd
        have hf : (s.heap v).connId = c → src.chunkAt f.seq.toNat = some f.payload := by
          intro hc
          obtain ⟨ha, hk⟩ := (hfs hc).1 f (by simp)
          exact ha.data (isData_of_has hk hd)
        obtain ⟨hkin, hcl | ⟨hc, hw⟩⟩ := deliver_handle hv hf
        · split at h <;> cases h <;> exact heapOk_setConn rfl hkin fun hc _ => hcl hc
        · simp only [hw] at h
          cases h
          refine ⟨setConn_kin hkin, .inr ⟨rfl, ?_, ?_⟩⟩
          · exact List.all_eq_true.mp rfl
          · simp [drainReset, hc]
      · split at h <;> cases h <;> exact heapOk_of_eq rfl
  | dataDeliver v f =>
    obtain ⟨ha, hv⟩ := hi
    have hid : (s.heap v).connId = f.connId := hv.2.1
    rw [← hid] at hv
    have hf : (s.heap v).connId = c → src.chunkAt f.seq.toNat = some f.payload := by
      intro hc
      obtain ⟨hau, hd⟩ := ha (hid.symm.trans hc)
      exact hau.data hd
    simp only [exec, execDeliver] at h
    obtain ⟨hkin, hcl | ⟨hc, hw⟩⟩ := deliver_handle hv hf
    · split at h <;> cases h
      · exact heapOk_setConn rfl hkin fun hc _ => hcl hc
      · exact heapOk_setConn rfl (hkin.received _ _) fun hc _ => isClean_received (hcl hc) _ _
      · exact heapOk_setConn rfl hkin fun hc _ => hcl hc
    · simp only [hw] at h
      cases h
      refine ⟨setConn_kin hkin, .inr ⟨rfl, ?_, ?_⟩⟩
      · exact List.all_eq_true.mp rfl
      · simp [dataReset, ← hc, hid]
  | udpForward v f =>
    cases h
    exact heapOk_setConn rfl ((Kin.refl c src _).received _ _) fun _ h => isClean_received h _ _
  | replayClose v =>
    cases h
    split
    · rename_i hf
      exact close_heapOk hi hf rfl
    · exact heapOk_of_eq rfl
  | dataClose v c' =>
    simp only [exec] at h
    split at h <;> cases h
    · rename_i hf
      exact close_heapOk hi hf rfl
    · exact heapOk_of_eq rfl
  | startHalfClose v c' q =>
    cases h
    obtain ⟨hv, hq⟩ := hi
    obtain rfl : (s.heap v).connId = c' := hv.2.1
    have hcl : (s.heap v).connId = c → IsClean src ((s.heap v).startHalfClose q) := by
      intro hc
      obtain ⟨ch', hcl⟩ := hv.2.2 hc
      obtain ⟨hfs, rfl⟩ := hq hc
      exact ⟨ch', startHalfClose_clean hcl hfs⟩
    exact heapOk_setConn rfl (kin_of_clean (startHalfClose_connId _ _) hcl) fun hc _ => hcl hc
  | connsRemove c' =>
    simp only [exec] at h
    split at h <;> cases h
    · exact heapOk_of_eq rfl
    · rename_i v _
      exact @heapOk_setConn _ _ s _ _ _ v _ rfl (signalTeardown_kin _) fun _ => signalTeardown_clean
  | signalTeardown v =>
    cases h
    exact heapOk_setConn rfl (signalTeardown_kin _) fun _ => signalTeardown_clean
  | forceClose v =>
    cases h
    refine heapOk_setConn rfl (forceClose_kin _) fun _ hcl => ?_
    obtain ⟨ch', hcl⟩ := hcl
    exact ⟨ch', forceClose_clean hcl⟩
  | egressEof v c' =>
    cases h
    exact heapOk_setConn rfl (egressEof_kin _) fun _ => egressEof_clean
  | _ =>
    refine heapOk_of_eq ?_
    simp only [exec, execHandle, execCas, execPush] at h
    (repeat' split at h) <;> cases h <;> first | rfl | simp

end Exec

end RoundRobin.Reassembler
