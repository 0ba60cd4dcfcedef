import RoundRobin.Reassembler.State
import RoundRobin.Splitter.State

/-!
# RoundRobin.Recovery — what the sides do with the frames of a dead tunnel

When a link's writer task has ended, the owner of the link goes through its `lost_frames`.  Both sides
send control frames again over the rest of the pool.  For a lost DATA frame the splitter resets the
connection (`reset_conn`); the reassembler only offers an RST to the pool.
-/

namespace RoundRobin

open Tunnel

/-- SYN, FIN or RST. -/
def isControl (f : Frame) : Bool := f.has (flagSyn ||| flagFin ||| flagRst)

theorem isControl_data (c : ConnId) (seq : UInt64) (payload : Bytes) :
    isControl (.data c seq payload) = false := by
  show (flagData &&& (flagSyn ||| flagFin ||| flagRst) != 0) = false
  decide

namespace Splitter.State

/-- One round of the recovery loop of `run_splitter`. -/
def recoverOne (s : State) (f : Frame) : State :=
  if isControl f then s.send f
  else if (s.conns f.connId).isSome then s.resetConn f.connId
  else s

def recover (s : State) (lost : List Frame) : State := lost.foldl recoverOne s

theorem recoverOne_gone {s : State} {c : ConnId} (h : s.Gone c) (f : Frame) :
    (s.recoverOne f).Gone c := by
  unfold recoverOne
  split_ifs
  · exact h
  · by_cases hc : c = f.connId
    · rw [hc]
      exact resetConn_gone s f.connId
    · simpa [Gone, resetConn_conns, resetConn_timeWait, hc] using h
  · exact h

theorem recoverOne_conns {s : State} {c : ConnId} (f : Frame) :
    (s.recoverOne f).Gone c ∨ (s.recoverOne f).conns c = s.conns c := by
  unfold recoverOne
  split_ifs
  · exact .inr rfl
  · by_cases hc : c = f.connId
    · rw [hc]
      exact .inl (resetConn_gone s f.connId)
    · exact .inr (by rw [resetConn_conns, if_neg hc])
  · exact .inr rfl

theorem recover_gone {s : State} {c : ConnId} (h : s.Gone c) (lost : List Frame) :
    (s.recover lost).Gone c := by
  induction lost generalizing s with
  | nil => exact h
  | cons f lost ih => exact ih (recoverOne_gone h f)

/-- A lost DATA frame takes its connection down. -/
theorem recover_data {s : State} {lost : List Frame} {f : Frame} (hf : f ∈ lost)
    (hd : isControl f = false) (hc : (s.conns f.connId).isSome) : (s.recover lost).Gone f.connId := by
  induction lost generalizing s with
  | nil => cases hf
  | cons g lost ih =>
    have hcons : s.recover (g :: lost) = (s.recoverOne g).recover lost := rfl
    rw [hcons]
    rcases List.mem_cons.mp hf with rfl | hf
    · have hone : s.recoverOne f = s.resetConn f.connId := by simp [recoverOne, hd, hc]
      rw [hone]
      exact recover_gone (resetConn_gone s f.connId) lost
    · rcases recoverOne_conns (s := s) (c := f.connId) g with hg | hg
      · exact recover_gone hg lost
      · exact ih hf (by rwa [hg])

end Splitter.State

namespace Reassembler

/-- The frame the recovery task of `run_tunnel_listener` offers to the pool. -/
def answer (f : Frame) : Frame := if isControl f then f else .rst f.connId

/-- The recovery task: it does not touch the maps. -/
def recover (s : Shared) (p : TunnelPool) (lost : List Frame) : Shared × TunnelPool :=
  (s, lost.foldl (fun p f => (p.send (answer f)).2) p)

theorem recover_pool (s : Shared) (p : TunnelPool) (lost : List Frame) :
    (recover s p lost).2 = p.sendEach (lost.map answer) := by
  simp [recover, TunnelPool.sendEach, List.foldl_map]

end Reassembler

/-- The connection was removed and tombstoned, or an RST for it waits on a live link. -/
def ResetSeen (conns tombstones : ConnId → Option ℕ) (p : TunnelPool) (c : ConnId) : Prop :=
  (conns c = none ∧ (tombstones c).isSome) ∨ TunnelPool.Queued p.links (.rst c)

def Splitter.State.ResetSeen (s : Splitter.State) (c : ConnId) : Prop :=
  RoundRobin.ResetSeen s.conns s.timeWait s.pool c

def Reassembler.ResetSeen (r : Reassembler.Shared × TunnelPool) (c : ConnId) : Prop :=
  RoundRobin.ResetSeen r.1.conns r.1.closed r.2 c

/-- **What becomes of a connection that lost DATA with its tunnel.**  The splitter always resets it.
The reassembler leaves it registered, and its RST is queued exactly if one was queued before or one of
its answers finds a free slot: the answers take the free slots of the live links in order. -/
theorem lost_data_reset {lost : List Frame} {c : ConnId} {seq : UInt64} {payload : Bytes}
    (hf : Frame.data c seq payload ∈ lost) :
    (∀ s : Splitter.State, (s.conns c).isSome → (s.recover lost).ResetSeen c) ∧
    ∀ (s : Reassembler.Shared) (p : TunnelPool), (s.conns c).isSome →
      (Reassembler.ResetSeen (Reassembler.recover s p lost) c ↔
        TunnelPool.Queued p.links (.rst c) ∨
          Frame.rst c ∈ (lost.take (TunnelPool.slots p.links)).map Reassembler.answer) := by
  refine ⟨fun s hc => .inl ?_, fun s p hc => ?_⟩
  · exact Splitter.State.recover_data hf (isControl_data c seq payload) hc
  · have hreg : (Reassembler.recover s p lost).1.conns c ≠ none := Option.isSome_iff_ne_none.mp hc
    rw [Reassembler.ResetSeen, ResetSeen, Reassembler.recover_pool, TunnelPool.queued_sendEach,
      List.map_take]
    exact ⟨fun h => h.resolve_left fun hn => hreg hn.1, .inr⟩

/-- Each side with one connection registered, at handle 0. -/
def splitterWith (c : ConnId) : Splitter.State :=
  Splitter.State.init.register c 0 (.new maxReorderBytes false)

def reassemblerWith (c : ConnId) : Reassembler.Shared :=
  { Reassembler.Shared.init maxReorderBytes with
    conns := Function.update (fun _ => none) c (some 0)
    heap := fun _ => .new c maxReorderBytes false 0 }

/-- With one live link the reassembler's RST is queued. -/
theorem lost_data_reset_one_link :
    ((splitterWith 7).recover [.data 7 1 [65]]).ResetSeen 7 ∧
    Reassembler.ResetSeen (Reassembler.recover (reassemblerWith 7)
      (TunnelPool.new.add ⟨Chan.new tunnelChannelCap, true⟩) [.data 7 1 [65]]) 7 := by
  have h := lost_data_reset (List.mem_singleton.mpr (rfl : Frame.data 7 1 [65] = .data 7 1 [65]))
  exact ⟨h.1 _ (by decide), (h.2 _ _ (by decide)).mpr (by decide)⟩

/-- **The reassembler's RST is lost with its last tunnel.**  Conn id 7 is registered, a DATA frame of
it was queued on the only link, and that link died: 7 stays registered and no RST is queued. -/
theorem lost_data_unreset :
    (reassemblerWith 7).conns 7 = some 0 ∧
    ¬ Reassembler.ResetSeen (Reassembler.recover (reassemblerWith 7)
      (TunnelPool.new.add ⟨(Chan.new tunnelChannelCap).close, false⟩) [.data 7 1 [65]]) 7 := by
  refine ⟨rfl, ?_⟩
  rintro (⟨h, -⟩ | h)
  · exact absurd h (by decide)
  · exact absurd h (by decide)

end RoundRobin
