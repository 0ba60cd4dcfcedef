import RoundRobin.Config
import RoundRobin.Reassembler.Handlers
import RoundRobin.Reorder.Sizing
import RoundRobin.Splitter.State

/-!
# RoundRobin.Window — the reorder window against the channel behind it

The window holds out-of-order chunks up to its caps; when the gap fills, one call sends the whole run
behind it into a channel of fixed capacity.  `deliverable_iff` says which frames can be handled without
a refused chunk whatever the consumer takes meanwhile; `window_deliverable` reads it off for the
splitter's `on_frame` and for the reassembler's DATA branch and SYN replay.  The window holds as many
chunks as the channel has slots, so a full window does not fit behind the frame that releases it.
-/

namespace RoundRobin

namespace ReorderBuf

/-- One of the `n` seqs behind the next expected one is not buffered. -/
def Gap (b : ReorderBuf) (n : ℕ) : Prop :=
  ∃ j, 1 ≤ j ∧ j ≤ n ∧ b.pending.get (b.expected + j) = none

theorem Drained.gap_iff {b b' : ReorderBuf} {r : ℕ} (h : b.Drained r b') (n : ℕ) :
    b.Gap n ↔ r + 1 ≤ n := by
  constructor
  · rintro ⟨j, h1, hn, hj⟩
    by_contra hlt
    have := h.run (b.expected + j) (by omega) (by omega)
    rw [hj] at this
    cases this
  · intro hn
    exact ⟨r + 1, by omega, hn, h.stop⟩

/-- The next expected frame finds a gap before the free slots of the channel are used up, and before
the consumer goes away. -/
def Deliverable (b : ReorderBuf) (seq free : ℕ) (dropAt : Option ℕ) : Prop :=
  seq = b.expected → b.Gap free ∧ ∀ k, dropAt = some k → b.Gap k

/-- **When everything that becomes ready is accepted**, whatever the consumer takes meanwhile. -/
theorem deliverable_iff {b : ReorderBuf} (h : b.Inv) {seq : ℕ} {payload : Bytes}
    (hp : (b.push seq payload).2.overflow = false) {c : Chan Bytes} (ho : c.isOpen = true)
    (d : Option ℕ) :
    (∀ takes, (c.sendAll ⟨takes, d⟩ 0 (b.push seq payload).2.ready).1.all id = true) ↔
      b.Deliverable seq (c.cap - c.queue.length) d := by
  rcases push_cases h seq payload with
    ⟨hseq, hpush⟩ | ⟨rfl, r, b', hd, hpush⟩ | ⟨hseq, -, -, hpush⟩ | ⟨-, -, -, hpush⟩
  · rw [hpush]
    exact ⟨fun _ he => by omega, fun _ _ => rfl⟩
  · rw [hpush, Chan.sendAll_accepts_iff ho (by simp [readyRun])]
    simp only [length_readyRun, Deliverable, forall_const, hd.gap_iff]
    constructor
    · rintro ⟨hlen, hdrop⟩
      exact ⟨by omega, hdrop⟩
    · rintro ⟨hlen, hdrop⟩
      exact ⟨by omega, hdrop⟩
  · rw [hpush]
    exact ⟨fun _ he => by omega, fun _ _ => rfl⟩
  · rw [hpush] at hp
    cases hp

end ReorderBuf

/-! ## The splitter -/

namespace Splitter

theorem VirtConn.onFrame_snd {vc : VirtConn} (h : vc.reorder.Inv) (con : Consumer) {seq : ℕ}
    {payload : Bytes} (hp : (vc.reorder.push seq payload).2.overflow = false) :
    (vc.onFrame con seq payload).2 = false ↔
      (vc.toClientTx.sendAll con 0 (vc.reorder.push seq payload).2.ready).1.all id = true := by
  unfold onFrame
  rcases ReorderBuf.push_cases h seq payload with
    ⟨-, hpush⟩ | ⟨-, r, b', -, hpush⟩ | ⟨-, -, -, hpush⟩ | ⟨-, -, -, hpush⟩
  · simp [hpush, Chan.sendAll]
  · simp [hpush]
  · simp [hpush]
  · rw [hpush] at hp
    cases hp

/-- A DATA frame of a registered connection leaves it registered iff `on_frame` returns false. -/
theorem State.handleInboundFrame_conns {s : State} {f : Frame} {v : ℕ} (con : Consumer)
    (hf : f.has flagData = true) (hv : s.conns f.connId = some v) (hu : (s.heap v).isUdp = false) :
    (s.handleInboundFrame con f).conns f.connId = some v ↔
      ((s.heap v).onFrame con f.seq.toNat f.payload).2 = false := by
  have hh : s.handleInboundFrame con f =
      if ((s.heap v).onFrame con f.seq.toNat f.payload).2 then
        (s.setConn v ((s.heap v).onFrame con f.seq.toNat f.payload).1).resetConn f.connId
      else s.setConn v ((s.heap v).onFrame con f.seq.toNat f.payload).1 := by
    simp [handleInboundFrame, hf, hv, hu]
  rw [hh]
  cases hr : ((s.heap v).onFrame con f.seq.toNat f.payload).2 with
  | true => simp [resetConn_conns]
  | false => simpa [setConn] using hv

end Splitter

/-! ## The reassembler -/

namespace Reassembler

open Instr

/-- `deliver` with a consumer that acts during the call. -/
def VirtConnDe.deliverWith (con : Consumer) (vc : VirtConnDe) (f : Frame) : VirtConnDe × Delivery :=
  let p := vc.reorder.push f.seq.toNat f.payload
  let vc' := { vc with reorder := p.1, pushed := vc.pushed ++ [f] }
  if !p.2.accepted then (vc', if p.2.overflow then .overflow else .duplicate)
  else
    match vc.egress with
    | none => (vc', .delivered)
    | some ch =>
      let w := ch.sendWhile con 0 p.2.ready
      ({ vc' with egress := some w.2 }, if w.1 then .delivered else .writeFailed)

theorem VirtConnDe.writeAll_eq (chunks : List Bytes) (i : ℕ) (ch : Chan Bytes) :
    ch.sendWhile .idle i chunks = writeAll chunks ch := by
  induction chunks generalizing i ch with
  | nil => rfl
  | cons chunk chunks ih =>
    simp only [Chan.sendWhile, writeAll, show Consumer.idle.act i ch = ch from rfl]
    split
    · rename_i hs
      rw [hs, ih]
    · rename_i r ch' hne hs
      rw [hs]
      cases r with
      | ok => exact absurd rfl hne
      | full => rfl
      | closed => rfl

theorem VirtConnDe.deliverWith_idle (vc : VirtConnDe) (f : Frame) :
    vc.deliverWith .idle f = vc.deliver f := by
  unfold deliverWith deliver
  cases he : vc.egress with
  | none => simp only
  | some ch => simp only [writeAll_eq]

/-- The DATA branch of `handle_frame` for an established connection. -/
def dataBranch (con : Consumer) (s : Shared) (v : ℕ) (f : Frame) : Shared × List Instr :=
  let d := (s.heap v).deliverWith con f
  match d.2 with
  | .duplicate => (s.setConn v d.1, [])
  | .delivered => (s.setConn v (d.1.received f.payload.length s.now), [dataClose v f.connId])
  | _ => (s.setConn v d.1, dataReset f.connId)

/-- One DATA frame of the SYN replay, `fs` being the frames after it. -/
def replayBranch (con : Consumer) (s : Shared) (c : ConnId) (v : ℕ) (fin : Option ℕ) (f : Frame)
    (fs : List Frame) : Shared × List Instr :=
  let d := (s.heap v).deliverWith con f
  let s' := s.setConn v d.1
  match d.2 with
  | .duplicate => (s', [synReplay c v fs fin])
  | .delivered => (s', [replayClose v, synReplay c v fs fin])
  | _ => (s', drainReset c)

/-- The two branches are those of the handlers. -/
theorem dataBranch_idle (s : Shared) (v : ℕ) (f : Frame) : dataBranch .idle s v f = execDeliver s v f := by
  have h := VirtConnDe.deliverWith_idle (s.heap v) f
  cases hd : ((s.heap v).deliver f).2 <;> simp [dataBranch, execDeliver, h, hd]

theorem replayBranch_idle (s : Shared) (c : ConnId) (v : ℕ) (fin : Option ℕ) {f : Frame}
    (fs : List Frame) (hf : f.has flagData = true) :
    replayBranch .idle s c v fin f fs = execReplay s c v fin (f :: fs) := by
  have h := VirtConnDe.deliverWith_idle (s.heap v) f
  cases hd : ((s.heap v).deliver f).2 <;> simp [replayBranch, execReplay, hf, h, hd]

theorem VirtConnDe.deliverWith_snd {vc : VirtConnDe} (h : vc.reorder.Inv) (con : Consumer) {f : Frame}
    (hp : (vc.reorder.push f.seq.toNat f.payload).2.overflow = false) {ch : Chan Bytes}
    (hch : vc.egress = some ch) :
    ((vc.deliverWith con f).2 = .duplicate ∨ (vc.deliverWith con f).2 = .delivered) ∧
        (ch.sendAll con 0 (vc.reorder.push f.seq.toNat f.payload).2.ready).1.all id = true ∨
      (vc.deliverWith con f).2 = .writeFailed ∧
        (ch.sendAll con 0 (vc.reorder.push f.seq.toNat f.payload).2.ready).1.all id = false := by
  unfold deliverWith
  rcases ReorderBuf.push_cases h f.seq.toNat f.payload with
    ⟨-, hpush⟩ | ⟨-, r, b', -, hpush⟩ | ⟨-, -, -, hpush⟩ | ⟨-, -, -, hpush⟩
  · simp [hpush, Chan.sendAll]
  · simp only [hpush, hch, Chan.sendWhile_fst]
    cases (ch.sendAll con 0 (vc.reorder.readyRun f.payload r)).1.all id <;> simp
  · simp [hpush, hch, Chan.sendAll, Chan.sendWhile]
  · rw [hpush] at hp
    cases hp

theorem dataBranch_keeps {s : Shared} {v : ℕ} {f : Frame} (h : (s.heap v).reorder.Inv) (con : Consumer)
    (hp : ((s.heap v).reorder.push f.seq.toNat f.payload).2.overflow = false) {ch : Chan Bytes}
    (hch : (s.heap v).egress = some ch) :
    (dataBranch con s v f).2 ≠ dataReset f.connId ↔
      (ch.sendAll con 0 ((s.heap v).reorder.push f.seq.toNat f.payload).2.ready).1.all id = true := by
  unfold dataBranch
  rcases VirtConnDe.deliverWith_snd h con hp hch with ⟨hd | hd, hs⟩ | ⟨hd, hs⟩
  all_goals simp [hd, hs, dataReset]

theorem replayBranch_keeps {s : Shared} {v : ℕ} {f : Frame} (h : (s.heap v).reorder.Inv)
    (con : Consumer) (hp : ((s.heap v).reorder.push f.seq.toNat f.payload).2.overflow = false)
    {ch : Chan Bytes} (hch : (s.heap v).egress = some ch) (c : ConnId) (fin : Option ℕ)
    (fs : List Frame) :
    (replayBranch con s c v fin f fs).2 ≠ drainReset c ↔
      (ch.sendAll con 0 ((s.heap v).reorder.push f.seq.toNat f.payload).2.ready).1.all id = true := by
  unfold replayBranch
  rcases VirtConnDe.deliverWith_snd h con hp hch with ⟨hd | hd, hs⟩ | ⟨hd, hs⟩
  all_goals simp [hd, hs, drainReset]

end Reassembler

/-! ## Both sides -/

open Splitter (clientChannelCap)
open Reassembler (egressChannelCap dataBranch replayBranch dataReset drainReset)

/-- **Which skew can be delivered.**  Whatever frames arrived in whatever order, as long as the window
did not overflow: with its channel open, a side handles the next frame without a reset, whatever its
consumer takes during the call, iff the frame is not the expected one, or there is a gap among the seqs
behind it before the free slots of the channel are used up (512 of them when it is empty) and before
the consumer drops its receiver. -/
theorem window_deliverable {window : ℕ} {arrivals : List (UInt64 × Bytes)} {b : ReorderBuf}
    {f : Frame} (hb : (ReorderBuf.withLimit window).pushAll arrivals = some b)
    (hp : (b.push f.seq.toNat f.payload).2.overflow = false) (hf : f.has flagData = true)
    (d : Option ℕ) :
    (∀ (s : Splitter.State) (v : ℕ), s.conns f.connId = some v → (s.heap v).isUdp = false →
      (s.heap v).reorder = b → (s.heap v).toClientTx.isOpen = true →
      (s.heap v).toClientTx.cap = clientChannelCap →
      ((∀ takes, ((s.heap v).onFrame ⟨takes, d⟩ f.seq.toNat f.payload).2 = false ∧
          (s.handleInboundFrame ⟨takes, d⟩ f).conns f.connId = some v) ↔
        b.Deliverable f.seq.toNat (clientChannelCap - (s.heap v).toClientTx.queue.length) d)) ∧
    ∀ (s : Reassembler.Shared) (v : ℕ) (ch : Chan Bytes), (s.heap v).reorder = b →
      (s.heap v).egress = some ch → ch.isOpen = true → ch.cap = egressChannelCap →
      ((∀ takes, (dataBranch ⟨takes, d⟩ s v f).2 ≠ dataReset f.connId) ↔
        b.Deliverable f.seq.toNat (egressChannelCap - ch.queue.length) d) ∧
      ∀ (c : ConnId) (fin : Option ℕ) (fs : List Frame),
        (∀ takes, (replayBranch ⟨takes, d⟩ s c v fin f fs).2 ≠ drainReset c) ↔
          b.Deliverable f.seq.toNat (egressChannelCap - ch.queue.length) d := by
  have hinv : b.Inv := ReorderBuf.pushAll_inv (ReorderBuf.withLimit_inv window) hb
  refine ⟨fun s v hv hu hr ho hcap => ?_, fun s v ch hr hch ho hcap => ⟨?_, fun c fin fs => ?_⟩⟩
  · subst hr
    rw [← hcap, ← ReorderBuf.deliverable_iff hinv hp ho]
    refine forall_congr' fun takes => ?_
    rw [Splitter.State.handleInboundFrame_conns _ hf hv hu, and_self]
    exact Splitter.VirtConn.onFrame_snd hinv _ hp
  · subst hr
    rw [← hcap, ← ReorderBuf.deliverable_iff hinv hp ho]
    exact forall_congr' fun takes => Reassembler.dataBranch_keeps hinv _ hp hch
  · subst hr
    rw [← hcap, ← ReorderBuf.deliverable_iff hinv hp ho]
    exact forall_congr' fun takes => Reassembler.replayBranch_keeps hinv _ hp hch c fin fs

/-- Each side with conn id 7 at handle 0, its channel fresh and `b` in its reorder buffer. -/
def splitterHolding (b : ReorderBuf) : Splitter.State :=
  Splitter.State.init.register 7 0
    { Splitter.VirtConn.new defaultReorderWindow false with reorder := b }

def reassemblerHolding (b : ReorderBuf) : Reassembler.Shared :=
  { Reassembler.Shared.init defaultReorderWindow with
    conns := Function.update (fun _ => none) 7 (some 0)
    heap := fun _ => { Reassembler.VirtConnDe.new 7 defaultReorderWindow false 0 with reorder := b } }

/-- Seq 2 is buffered, seq 1 arrives: two chunks go into the empty channel of either side. -/
theorem window_deliverable_two_chunks :
    ∃ b, (ReorderBuf.withLimit defaultReorderWindow).pushAll [(2, [66])] = some b ∧
      (∀ takes, ((splitterHolding b).handleInboundFrame ⟨takes, none⟩ (.data 7 1 [65])).conns 7 =
        some 0) ∧
      ∀ takes, (dataBranch ⟨takes, none⟩ (reassemblerHolding b) 0 (.data 7 1 [65])).2 ≠ dataReset 7 := by
  refine ⟨_, rfl, ?_⟩
  have h := @window_deliverable defaultReorderWindow [(2, [66])] _ (.data 7 1 [65]) rfl rfl rfl none
  have hsplitter := h.1 (splitterHolding _) 0 rfl rfl rfl rfl rfl
  have hreassembler := (h.2 (reassemblerHolding _) 0 _ rfl rfl rfl rfl).1
  exact ⟨fun takes => (hsplitter.mpr (fun _ => ⟨⟨2, by decide, by decide, rfl⟩, by simp⟩) takes).2,
    hreassembler.mpr fun _ => ⟨⟨2, by decide, by decide, rfl⟩, by simp⟩⟩

/-! ## A full window -/

namespace ReorderBuf

/-- Once the window holds 512 chunks behind seq 1, seq 1 makes more ready than the channel holds. -/
theorem full_window_ready {window : ℕ} (hw : maxReorderWindow ≤ window) :
    ∃ b, (withLimit window).pushAll (behindFirst maxReorderWindow) = some b ∧
      (b.push 1 [0]).2.overflow = false ∧
      maxReorderWindow < (b.push 1 [0]).2.ready.length := by
  obtain ⟨b, hb, hexp, hget, -, -, -, -⟩ := pushAll_behindFirst (le_max_right _ _) hw (by decide)
  have hinv : b.Inv := pushAll_inv (withLimit_inv window) hb
  obtain ⟨r, b', hpush, hd⟩ := push_expected hinv [0]
  rw [hexp] at hpush
  have hr : maxReorderWindow ≤ r := by
    by_contra hlt
    have hstop := hd.stop
    rw [hexp, ← Option.not_isSome_iff_eq_none, hget] at hstop
    omega
  refine ⟨b, hb, by rw [hpush], ?_⟩
  rw [hpush]
  simp only [length_readyRun]
  omega

end ReorderBuf

/-- No accepted configuration has a smaller window than the one that overfills the channel. -/
theorem Checked.full_window_ready {chunkSize timeout heartbeat window : ℕ}
    (h : Checked chunkSize timeout heartbeat window) :
    ∃ b, (ReorderBuf.withLimit window).pushAll (ReorderBuf.behindFirst maxReorderWindow) = some b ∧
      (b.push 1 [0]).2.overflow = false ∧ maxReorderWindow < (b.push 1 [0]).2.ready.length :=
  ReorderBuf.full_window_ready (h.chunk_ge.trans h.window_ge)

/-- **A full window does not fit its channel.**  With the default configuration of either side, which
`validate` accepts: seqs 2 to 513 have arrived, one byte each, and no push overflowed.  Seq 1 arrives,
the channel is open and empty, and the connection is reset. -/
theorem full_window_refused :
    (SplitterConfig.withDefaults [⟨1, 1⟩]).validate = .ok () ∧
    ReassemblerConfig.withDefaults.validate = .ok () ∧
    ∃ b, (ReorderBuf.withLimit defaultReorderWindow).pushAll (ReorderBuf.behindFirst 512) = some b ∧
      (b.push 1 [0]).2.overflow = false ∧
      (((splitterHolding b).heap 0).onFrame .idle 1 [0]).2 = true ∧
      (dataBranch .idle (reassemblerHolding b) 0 (.data 7 1 [0])).2 = dataReset 7 := by
  obtain ⟨b, hb, hno, hlong⟩ :=
    (ReassemblerConfig.checked ReassemblerConfig.validate_withDefaults).full_window_ready
  have hinv : b.Inv := ReorderBuf.pushAll_inv (ReorderBuf.withLimit_inv _) hb
  have hrefused : ((Chan.new 512).sendAll .idle 0 (b.push 1 [0]).2.ready).1.all id = false := by
    refine Chan.sendAll_full (fun h => ?_) ?_
    · rw [h] at hlong
      cases hlong
    · show 512 < 0 + (b.push 1 [0]).2.ready.length
      rw [Nat.zero_add]
      exact hlong
  refine ⟨SplitterConfig.validate_withDefaults (by simp), rfl, b, hb, hno, ?_, ?_⟩
  · rw [← Bool.not_eq_false]
    intro h
    have hall := (Splitter.VirtConn.onFrame_snd hinv .idle hno).mp h
    exact Bool.false_ne_true (hrefused.symm.trans hall)
  · by_contra hne
    have hall := (Reassembler.dataBranch_keeps hinv .idle hno rfl).mp hne
    exact Bool.false_ne_true (hrefused.symm.trans hall)

end RoundRobin
