import RoundRobin.Lib.Tally
import RoundRobin.Reassembler.Resets
import RoundRobin.Splitter.State

/-!
# RoundRobin.ResetTraffic — the RSTs two sides send each other

One splitter, one reassembler and the frames in flight between them.  Both sides answer frames of
connections they do not know with an RST, and the splitter answers every RST with another one.  The
reassembler answers no RST, so the traffic dies out: a frame for the splitter causes one RST at most, a
frame for the reassembler or a pending entry one and the splitter's answer to it.
-/

namespace RoundRobin

open Tunnel

/-- The frames `handle_inbound_frame` gives to the pool. -/
def Splitter.State.answers (s : Splitter.State) (con : Consumer) (f : Frame) : List Frame :=
  let c := f.connId
  if f.has flagData then
    match s.conns c with
    | some v =>
      let vc := s.heap v
      if !vc.isUdp && (vc.onFrame con f.seq.toNat f.payload).2 then [.rst c] else []
    | none => [.rst c]
  else if f.has flagFin then []
  else if f.has flagRst then [.rst c]
  else []

theorem Splitter.State.resetConn_pool (s : Splitter.State) (c : ConnId) :
    (s.resetConn c).pool = s.pool.sendEach [.rst c] := by
  unfold resetConn
  cases hc : s.conns c <;> simp [send, setConn, hc, TunnelPool.sendEach]

theorem Splitter.State.handleInboundFrame_pool (s : Splitter.State) (con : Consumer) (f : Frame) :
    (s.handleInboundFrame con f).pool = s.pool.sendEach (s.answers con f) := by
  simp only [handleInboundFrame, answers]
  split
  · cases hv : s.conns f.connId with
    | none => rfl
    | some v =>
      simp only
      cases hu : (s.heap v).isUdp with
      | true => rfl
      | false =>
        cases hr : ((s.heap v).onFrame con f.seq.toNat f.payload).2 with
        | true => exact resetConn_pool _ _
        | false => rfl
  · split
    · cases hv : s.conns f.connId with
      | none => rfl
      | some v =>
        simp only
        split <;> rfl
    · split
      · exact resetConn_pool s f.connId
      · rfl

theorem Splitter.State.answers_le (s : Splitter.State) (con : Consumer) (f : Frame) :
    (s.answers con f).length ≤ 1 ∧ ∀ g ∈ s.answers con f, ∃ c, g = Frame.rst c := by
  simp only [answers]
  (repeat' split) <;> simp

/-- The two registries, and the frames on their way to either. -/
structure Net where
  splitter : Splitter.State
  reassembler : Reassembler.Shared
  toSplitter : List Frame
  toReassembler : List Frame

namespace Net

/-- How many frames are in flight. -/
def inFlight (x : Net) : ℕ := x.toSplitter.length + x.toReassembler.length

/-- How many pending entries there are. -/
def entries (x : Net) : ℕ := x.reassembler.pending.size

/-- One side handles one frame, any of those in flight, and generates `k` RSTs; each of them gets onto a
tunnel or is dropped. -/
inductive Step (x : Net) : ℕ → Net → Prop where
  | splitter (con : Consumer) (f : Frame) (l r sent : List Frame) : x.toSplitter = l ++ f :: r →
      sent.Sublist (x.splitter.answers con f) →
      Step x (x.splitter.answers con f).length { x with
        splitter := x.splitter.handleInboundFrame con f
        toSplitter := l ++ r
        toReassembler := x.toReassembler ++ sent }
  | reassembler (f : Frame) (l r generated sent : List Frame) (s' : Reassembler.Shared)
      (t' : List Reassembler.Instr) : x.toReassembler = l ++ f :: r →
      Reassembler.Call x.reassembler [.dispatch f] s' t' →
      s'.offered = x.reassembler.offered ++ generated → sent.Sublist generated →
      Step x generated.length { x with
        reassembler := s'
        toReassembler := l ++ r
        toSplitter := x.toSplitter ++ sent }

/-- What the frames in flight and the pending entries can still cause. -/
def potential (x : Net) : ℕ :=
  x.toSplitter.length + 2 * (x.toReassembler.map Reassembler.cost).sum + 2 * x.entries

theorem cost_rst (c : ConnId) : Reassembler.cost (.rst c) = 0 := by
  have hsyn : (flagRst &&& flagSyn != 0) = false := by decide
  have hdata : (flagRst &&& flagData != 0) = false := by decide
  have hfin : (flagRst &&& flagFin != 0) = false := by decide
  simp [Reassembler.cost, Frame.has, Frame.rst, hsyn, hdata, hfin]

/-- Answers on their way to the reassembler cause nothing. -/
theorem cost_answers {l : List Frame} (h : ∀ g ∈ l, ∃ c, g = Frame.rst c) :
    (l.map Reassembler.cost).sum = 0 := by
  refine List.sum_eq_zero fun n hn => ?_
  obtain ⟨g, hg, rfl⟩ := List.mem_map.mp hn
  obtain ⟨c, rfl⟩ := h g hg
  exact cost_rst c

/-- Every RST is paid for. -/
theorem step_potential {x y : Net} {k : ℕ} (h : Step x k y) : y.potential + k ≤ x.potential := by
  cases h with
  | splitter con f l r sent hl hsent =>
    obtain ⟨hone, hrst⟩ := x.splitter.answers_le con f
    have hzero : (sent.map Reassembler.cost).sum = 0 := cost_answers fun g hg => hrst g (hsent.subset hg)
    simp only [potential, entries, hl, List.length_append, List.length_cons, List.map_append,
      List.sum_append, hzero]
    omega
  | reassembler f l r generated sent s' t' hl hcall hoff hsent =>
    obtain ⟨new, hnew, -, hpaid⟩ := Reassembler.call_resets hcall
    obtain rfl : generated = new := List.append_cancel_left (hoff.symm.trans hnew)
    have hlen := hsent.length_le
    simp only [potential, entries, hl, List.length_append, List.map_append, List.map_cons,
      List.sum_append, List.sum_cons]
    omega

/-- Every step takes a frame out of flight, and only RSTs get there. -/
theorem step_inFlight {x y : Net} {k : ℕ} (h : Step x k y) : y.inFlight + 1 ≤ x.inFlight + k := by
  cases h with
  | splitter con f l r sent hl hsent =>
    have hlen := hsent.length_le
    simp only [inFlight, hl, List.length_append, List.length_cons]
    omega
  | reassembler f l r generated sent s' t' hl hcall hoff hsent =>
    have hlen := hsent.length_le
    simp only [inFlight, hl, List.length_append, List.length_cons]
    omega

theorem potential_le (x : Net) : x.potential ≤ 2 * (x.inFlight + x.entries) := by
  have hsum : (x.toReassembler.map Reassembler.cost).sum ≤ x.toReassembler.length := by
    have hle : ∀ n ∈ x.toReassembler.map Reassembler.cost, n ≤ 1 := by
      intro n hn
      obtain ⟨f, -, rfl⟩ := List.mem_map.mp hn
      exact Reassembler.cost_le f
    simpa using List.sum_le_card_nsmul _ _ hle
  simp only [potential, inFlight]
  omega

/-- **Reset traffic dies out.**  From any two registries and frames in flight, if frames are handled and
nothing else happens, every sequence of steps generates at most twice as many RSTs as there were frames
in flight and pending entries, and none goes on forever. -/
theorem resets_die_out (x : Net) :
    (∀ n r y, Tally Step x n r y →
      r ≤ 2 * (x.inFlight + x.entries) ∧ n ≤ 3 * x.inFlight + 2 * x.entries) ∧
    ¬ ∃ g : ℕ → Net, g 0 = x ∧ ∀ n, ∃ k, Step (g n) k (g (n + 1)) := by
  have hbound : ∀ n r y, Tally Step x n r y →
      r ≤ 2 * (x.inFlight + x.entries) ∧ n ≤ 3 * x.inFlight + 2 * x.entries := by
    intro n r y h
    have hr := h.produced (p := potential) fun _ _ _ => step_potential
    have hn := h.length (p := inFlight) fun _ _ _ => step_inFlight
    have hx := x.potential_le
    constructor <;> omega
  exact ⟨hbound, Tally.not_endless fun n r y h => (hbound n r y h).2⟩

/-- Two fresh registries, and a DATA frame for the splitter. -/
def stray : Net := ⟨.init, .init maxReorderBytes, [.data 7 1 [65]], []⟩

/-- The splitter answers it, and the reassembler handles the answer. -/
theorem resets_die_out_stray : ∃ y, Tally Step stray 2 1 y ∧
    1 ≤ 2 * (stray.inFlight + stray.entries) ∧ 2 ≤ 3 * stray.inFlight + 2 * stray.entries := by
  have hsplitter : Step stray 1 _ := .splitter .idle (.data 7 1 [65]) [] [] [.rst 7] rfl (.refl _)
  have hrun : (Reassembler.system.soloRun [.go, .go, .go, .go]
      (Reassembler.Shared.init maxReorderBytes, [.dispatch (.rst 7)])).any
      (fun r => decide (r.2 = [] ∧ r.1.offered = [])) = true := by decide
  obtain ⟨⟨s', t'⟩, hs, hp⟩ := (Option.any_eq_true _ _).mp hrun
  obtain ⟨rfl, hoff⟩ : t' = [] ∧ s'.offered = [] := of_decide_eq_true hp
  have hcall : Reassembler.Call (.init maxReorderBytes) [.dispatch (.rst 7)] s' [] :=
    ⟨TaskSystem.soloRun_solo hs, rfl⟩
  have htally : Tally Step stray 2 1 _ := (Tally.refl.tail hsplitter).tail
    (.reassembler (.rst 7) [] [] [] [] s' [] rfl hcall hoff (.refl _))
  exact ⟨_, htally, (resets_die_out stray).1 _ _ _ htally⟩

end Net

end RoundRobin
