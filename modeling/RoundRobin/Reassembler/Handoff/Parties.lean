import RoundRobin.Reassembler.Effects

/-!
# RoundRobin.Reassembler.Handoff.Parties — frames between the pending map and the connection map

One SYN handler moves a connection from `pending` to `conns` while handlers of its DATA and FIN frames
look in both.  A frame that has arrived is carried by a handler, buffered in the entry, waiting in the
replay, or pushed into the connection's reorder buffer; or the conn id is doomed: it gets a tombstone
and an RST.

The handlers' looks and updates are separate steps, and three of them can lose a frame: an insert over
an entry that another handler filled, an insert after the SYN handler has drained, and a FIN that finds
the entry gone (a DATA frame is dispatched again there).  `handover` excludes them.
-/

namespace RoundRobin.Reassembler

open Instr TaskSystem

/-! ## The parties -/

/-- Handlers of DATA and FIN frames of `c` may start at any time. -/
inductive HandoffSpawn (c : ConnId) : List Instr → Prop where
  | frame (f : Frame) : f.connId = c → isData f = true ∨ isFin f = true → HandoffSpawn c [dispatch f]

/-- Time passes and the egress writers receive or go away. -/
inductive HandoffEnv (s : Shared) : Shared → Prop where
  | tick (d : ℕ) : HandoffEnv s { s with now := s.now + d }
  | egressRecv (v : ℕ) (ch ch' : Chan Bytes) (a : Bytes) : (s.heap v).egress = some ch →
      ch.recv = some (a, ch') → HandoffEnv s (s.setConn v { s.heap v with egress := some ch' })
  | egressClose (v : ℕ) (ch : Chan Bytes) : (s.heap v).egress = some ch →
      HandoffEnv s (s.setConn v { s.heap v with egress := some ch.close })

def handoff (c : ConnId) : TaskSystem Shared Instr Choice := ⟨exec, fun _ => HandoffSpawn c, HandoffEnv⟩

/-- Nothing is known about `c`; whatever else the maps hold, its cancel signals are old ones. -/
structure Unknown (c : ConnId) (s : Shared) : Prop where
  conns : s.conns c = none
  closed : s.closed c = none
  pending : s.pending.get c = none
  arrived : ∀ f ∈ s.arrived, f.connId ≠ c
  cancels : ∀ c' e n, s.pending.get c' = some e → e.cancel = some n → n < s.nextNotify
  notified : ∀ n, s.nextNotify ≤ n → s.notified n = false

/-- The SYN handler of `c` has yet to drain. -/
def willDrain (c : ConnId) (t : List Instr) : Bool :=
  t.any fun i => match i with
    | synDrain c' _ => c' = c
    | _ => false

/-- No insert overwrites buffered frames or comes after the drain, and no FIN finds its entry gone
because the connection was established meanwhile. -/
def handover : Guard Shared Instr Choice := fun s others t _ =>
  match t with
  | dataInsert f :: _ | finInsert f :: _ =>
    (s.closed f.connId).isSome || ((s.pending.get f.connId).all fun e => e.frames = []) &&
      ((s.conns f.connId).isNone || others.any (willDrain f.connId))
  | finPush f :: _ =>
    (s.closed f.connId).isSome || (s.pending.get f.connId).isSome || (s.conns f.connId).isNone
  | _ => true

/-- What became of a frame: the conn id is tombstoned and an RST was offered, the connection has it, or
it is still buffered for a connection that is not established. -/
def Settled (s : Shared) (f : Frame) : Prop :=
  ((s.closed f.connId).isSome ∧ Frame.rst f.connId ∈ s.offered) ∨
  (∃ v, s.conns f.connId = some v ∧
    (isData f = true → s.arrived.count f ≤ (s.heap v).pushed.count f) ∧
    (isFin f = true → (s.heap v).finReceived = true)) ∨
  (s.conns f.connId = none ∧
    ∃ e, s.pending.get f.connId = some e ∧ s.arrived.count f ≤ e.frames.count f)

/-! ## Doomed conn ids -/

/-- A tombstone is set or ahead, and so is an RST. -/
def Doomed (c : ConnId) (x : Config Shared Instr) : Prop :=
  ((x.shared.closed c).isSome ∨ Ahead x (closedInsert c)) ∧
  (Frame.rst c ∈ x.shared.offered ∨ Ahead x (sendRst c))

theorem doomed_task {c : ConnId} {s s' : Shared} {l r : List (List Instr)} {i : Instr}
    {k is : List Instr} {ch : Choice} (hd : Doomed c ⟨s, l ++ (i :: k) :: r⟩)
    (he : exec s i ch = some (s', is)) : Doomed c ⟨s', l ++ (is ++ k) :: r⟩ := by
  obtain ⟨hcl, hof⟩ := hd
  refine ⟨?_, ?_⟩
  · rcases hcl with hcl | ha
    · exact .inl (exec_closed_some he hcl)
    · rcases ahead_task (u := s') (n := is) ha with rfl | ha
      · cases he
        exact .inl (by simp)
      · exact .inr ha
  · rcases exec_offered he with ho | ⟨c', rfl, ho⟩
    · rcases hof with hof | ha
      · exact .inl (by simpa [ho] using hof)
      · rcases ahead_task (u := s') (n := is) ha with rfl | ha
        · cases he
          exact .inl (by simp)
        · exact .inr ha
    · rcases hof with hof | ha
      · exact .inl (by simp only [ho]; simp [hof])
      · rcases ahead_task (u := s') (n := is) ha with h | ha
        · obtain rfl : c' = c := by simpa using h
          exact .inl (by simp only [ho]; simp)
        · exact .inr ha

end RoundRobin.Reassembler
