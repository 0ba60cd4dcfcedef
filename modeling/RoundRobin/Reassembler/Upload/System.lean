import RoundRobin.Reassembler.Calls
import RoundRobin.Reassembler.Stream

/-!
# RoundRobin.Reassembler.Upload.System — one TCP upload end to end

The upload direction of one TCP connection end to end: the splitter's client loop emits SYN, DATA and
FIN frames on tunnels of its choice, the tunnels are FIFO queues, and the reassembler handles the
frames as they come off the tunnels.  A call of `handle_frame` runs alone, except that a SYN handler is
suspended while it connects, and any handler while it forwards a datagram.  Frames of other connections, resets, sweeps, timers and the egress tasks
come in between at any time.
-/

namespace RoundRobin.Reassembler

open Instr TaskSystem

/-! ## The system -/

/-- The splitter's client loop. -/
inductive Phase where
  | idle
  | reading
  | done
  deriving DecidableEq

structure Client where
  phase : Phase
  /-- The seq of the next frame. -/
  seq : UInt64
  source : Source

/-- The reassembler's state, its suspended SYN handlers, the tunnels and the client loop. -/
structure Upload where
  shared : Shared
  suspended : List (List Instr)
  tunnels : ℕ → List Frame
  client : Client

namespace Upload

/-- Put a frame on a tunnel. -/
def emit (u : Upload) (i : ℕ) (f : Frame) : ℕ → List Frame :=
  Function.update u.tunnels i (u.tunnels i ++ [f])

def init (window : ℕ) : Upload where
  shared := .init window
  suspended := []
  tunnels := fun _ => []
  client := ⟨.idle, 1, ⟨[], false, by simp⟩⟩

/-- One step of the system for connection `c`. -/
inductive Step (c : ConnId) (u : Upload) : Upload → Prop where
  /-- The client is accepted: the SYN goes out. -/
  | syn (i : ℕ) (t : SynTarget) (payload : Bytes) : u.client.phase = .idle → t.proto = protoTcp →
      t.encode = .ok payload →
      Step c u { u with
        tunnels := u.emit i (.syn c payload)
        client := { u.client with phase := .reading } }
  /-- The client sent a chunk. -/
  | read (i : ℕ) (p : Bytes) (h : (u.client.source.sent ++ [p]).length + 1 < 2 ^ 64) :
      u.client.phase = .reading →
      Step c u { u with
        tunnels := u.emit i (.data c u.client.seq p)
        client := ⟨.reading, u.client.seq + 1, u.client.source.push p h⟩ }
  /-- The client closed its side. -/
  | eof (i : ℕ) : u.client.phase = .reading →
      Step c u { u with
        tunnels := u.emit i (.fin c u.client.seq)
        client := ⟨.done, u.client.seq, u.client.source.finish⟩ }
  /-- The loop ends without a FIN. -/
  | abort : u.client.phase = .reading → Step c u { u with client := { u.client with phase := .done } }
  /-- The next frame of a tunnel is handled. -/
  | arrive (i : ℕ) (f : Frame) (rest : List Frame) (s' : Shared) (t' : List Instr) :
      u.tunnels i = f :: rest → Call u.shared [dispatch f] s' t' →
      Step c u { u with
        shared := s', suspended := u.suspended ++ [t'], tunnels := Function.update u.tunnels i rest }
  /-- A connect attempt ends. -/
  | resume (l r : List (List Instr)) (t : List Instr) (s' : Shared) (t' : List Instr) :
      u.suspended = l ++ t :: r → Call u.shared t s' t' →
      Step c u { u with shared := s', suspended := l ++ t' :: r }
  /-- Anything else: frames of other connections, a reset, sweeps, timers, egress readers. -/
  | other (t : List Instr) (s' : Shared) (t' : List Instr) : Spawn u.shared t →
      (∀ f, t = [dispatch f] → f.connId = c → f = .rst c) → Call u.shared t s' t' →
      Step c u { u with shared := s', suspended := u.suspended ++ [t'] }
  | env (s' : Shared) : Env u.shared s' → Step c u { u with shared := s' }

/-- Reached from an idle client and an empty reassembler. -/
def Reachable (c : ConnId) (window : ℕ) (u : Upload) : Prop :=
  Relation.ReflTransGen (Step c) (init window) u

end Upload

/-! ## Frames of the stream -/

/-- A frame of the connection as the client loop emits it, or a reset. -/
structure Authentic (src : Source) (f : Frame) : Prop where
  syn : f.has flagSyn = true → StreamSyn f
  data : isData f = true → src.chunkAt f.seq.toNat = some f.payload
  fin : isFin f = true → src.finSent = true ∧ f.seq.toNat = src.sent.length + 1

theorem Authentic.push {src : Source} {f : Frame} (h : Authentic src f) (hf : src.finSent = false)
    {p : Bytes} {hp} : Authentic (src.push p hp) f where
  syn := h.syn
  data := fun hd => chunkAt_push (h.data hd)
  fin := by
    intro hfi
    have := (h.fin hfi).1
    rw [hf] at this
    cases this

theorem Authentic.finish {src : Source} {f : Frame} (h : Authentic src f) :
    Authentic src.finish f where
  syn := h.syn
  data := h.data
  fin := fun hfi => ⟨rfl, (h.fin hfi).2⟩

end RoundRobin.Reassembler
