import RoundRobin.Reassembler.HalfClose

/-!
# RoundRobin.Reassembler.ForceClose — a forced half-close is not lost

Any number of normal and forced closes of one connection, on top of `RoundRobin.Reassembler.HalfClose`.  Once
the state is closed nothing opens it again: the compare-exchanges of a normal close only leave `open` and
`closing`.  Whoever closes it notifies `half_close` next (`exec_state`); the writer's side of that signal is
not part of the system, so a notification stays stored.
-/

namespace RoundRobin.Reassembler.HalfClose

open TaskSystem Op

/-- Normal and forced closes, and the handlers of FIN and DATA frames. -/
inductive CloserSpawn : List Op → Prop where
  | close : CloserSpawn [closeCas]
  | force : CloserSpawn [forceSwap]
  | fin (seq : ℕ) : CloserSpawn [finSwap seq]
  | data (f : Frame) : CloserSpawn [deliver f]

def closers : TaskSystem Cell Op Unit := ⟨exec, fun _ => CloserSpawn, Env⟩

/-- The half-close state: 0 = open, 1 = closing, 2 = closed. -/
def Cell.state (s : Cell) : ℕ := s.conn.halfCloseState

section Exec

variable {s s' : Cell} {i : Op} {is : List Op}

theorem deliver_state (vc : VirtConnDe) (f : Frame) :
    (vc.deliver f).1.halfCloseState = vc.halfCloseState ∧ (vc.deliver f).1.halfClose = vc.halfClose := by
  obtain ⟨r, e, h⟩ := deliver_fst vc f
  rw [h]
  exact ⟨rfl, rfl⟩

/-- What a step does to the state: a normal close moves between open and closing, and a close that
succeeds or is forced has the notification ahead. -/
theorem exec_state (h : exec s i () = some (s', is)) :
    s'.state = s.state ∨ (s.state = 0 ∧ s'.state = 1) ∨ (s.state = 1 ∧ s'.state = 0) ∨
      (s'.state = 2 ∧ notifyHalfClose ∈ is) := by
  cases i with
  | deliver f =>
    cases h
    exact .inl (deliver_state s.conn f).1
  | closeCas =>
    simp only [exec] at h
    split at h <;> cases h
    · rename_i h0
      exact .inr (.inl ⟨h0, rfl⟩)
    · exact .inl rfl
  | closeRollback =>
    cases h
    split
    · rename_i h1
      exact .inr (.inr (.inl ⟨h1, rfl⟩))
    · exact .inl rfl
  | closeStore =>
    cases h
    exact .inr (.inr (.inr ⟨rfl, by simp⟩))
  | forceSwap =>
    simp only [exec] at h
    split at h <;> cases h
    · exact .inl rfl
    · exact .inr (.inr (.inr ⟨rfl, by simp⟩))
  | _ =>
    cases h
    exact .inl rfl

theorem exec_closed_state (h : exec s i () = some (s', is)) (hs : s.state = 2) : s'.state = 2 := by
  rcases exec_state h with he | ⟨h0, -⟩ | ⟨h1, -⟩ | ⟨h2, -⟩ <;> omega

theorem forceSwap_state (h : exec s forceSwap () = some (s', is)) : s'.state = 2 := by
  simp only [exec] at h
  split at h <;> cases h
  · rename_i h2
    exact h2
  · rfl

theorem exec_halfClose (h : exec s i () = some (s', is))
    (hs : s.conn.halfClose = true ∨ i = notifyHalfClose) : s'.conn.halfClose = true := by
  cases i with
  | deliver f =>
    cases h
    rw [(deliver_state s.conn f).2]
    exact hs.resolve_right (by simp)
  | notifyHalfClose =>
    cases h
    rfl
  | _ =>
    simp only [exec] at h
    (repeat' split at h) <;> cases h <;> exact hs.resolve_right (by simp)

theorem env_state (h : Env s s') : s'.state = s.state ∧ s'.conn.halfClose = s.conn.halfClose := by
  cases h <;> exact ⟨rfl, rfl⟩

end Exec

/-- The state is one of the three, and a close that happened was notified or has it ahead. -/
structure Notified (x : Config Cell Op) : Prop where
  state : x.shared.state ≤ 2
  notified : x.shared.state = 2 → x.shared.conn.halfClose = true ∨ Ahead x notifyHalfClose

theorem notified_step {x y : Config Cell Op} (hx : Notified x) (h : closers.Step free x y) : Notified y := by
  cases h with
  | @task s s' l r i k is _ he _ =>
    have he : exec s i () = some (s', is) := he
    have hstate : s.state ≤ 2 := hx.state
    refine ⟨?_, fun h2 => ?_⟩
    · show s'.state ≤ 2
      rcases exec_state he with h | ⟨-, h⟩ | ⟨-, h⟩ | ⟨h, -⟩ <;> omega
    · have hs' : s'.state = 2 := h2
      rcases exec_state he with h | ⟨-, h⟩ | ⟨-, h⟩ | ⟨-, hnew⟩
      · rcases hx.notified (h.symm.trans hs') with hn | ha
        · exact .inl (exec_halfClose he (.inl hn))
        · rcases ahead_task (u := s') (n := is) ha with rfl | ha
          · exact .inl (exec_halfClose he (.inr rfl))
          · exact .inr ha
      · omega
      · omega
      · exact .inr (ahead_new hnew)
  | spawn h => exact ⟨hx.state, fun h2 => (hx.notified h2).imp_right ahead_spawn⟩
  | env h =>
    obtain ⟨hst, hn⟩ := env_state h
    refine ⟨?_, fun h2 => ?_⟩
    · rw [hst]
      exact hx.state
    · rw [hn]
      exact hx.notified (hst.symm.trans h2)

theorem notified_reachable {connId : ConnId} {window : ℕ} {x : Config Cell Op}
    (h : closers.Reachable free (.new connId window) x) : Notified x := by
  refine Runs.inv (P := Notified) h ⟨Nat.zero_le _, ?_⟩ fun _ _ => notified_step
  intro h2
  cases h2

/-- Closed stays closed. -/
theorem closed_runs {x y : Config Cell Op} (h : closers.Runs free x y) (hx : x.shared.state = 2) :
    y.shared.state = 2 := by
  refine Runs.inv (P := fun x => x.shared.state = 2) h hx ?_
  intro y z hy hst
  cases hst with
  | task he _ => exact exec_closed_state he hy
  | spawn _ => exact hy
  | env he => exact (env_state he).1.trans hy

/-- **A forced close is never lost.**  In any interleaving of normal and forced closes the state is open, closing
or closed; once closed it stays closed; it is closed from the swap of any forced call on; and when no call is
mid-step and it is closed, `half_close` was notified. -/
theorem force_close_kept {connId : ConnId} {window : ℕ} {x : Config Cell Op}
    (h : closers.Reachable free (.new connId window) x) :
    (x.shared.state = 0 ∨ x.shared.state = 1 ∨ x.shared.state = 2) ∧
    (x.shared.state = 2 → ∀ y, closers.Runs free x y → y.shared.state = 2) ∧
    (∀ s' l r k is, x.tasks = l ++ (forceSwap :: k) :: r → exec x.shared forceSwap () = some (s', is) →
      ∀ y, closers.Runs free ⟨s', l ++ (is ++ k) :: r⟩ y → y.shared.state = 2) ∧
    (x.shared.state = 2 → Quiet x → x.shared.conn.halfClose = true) := by
  have hx := notified_reachable h
  refine ⟨?_, fun h2 y hy => closed_runs hy h2, ?_, fun h2 hq => ?_⟩
  · have := hx.state
    omega
  · intro s' l r k is _ he y hy
    exact closed_runs hy (forceSwap_state he)
  · exact (hx.notified h2).resolve_right (hq.not_ahead _)

/-- A move that steps a call, or starts a close. -/
def isCloserMove : Move Cell Op Unit → Bool
  | .step _ _ => true
  | .start [closeCas] => true
  | .start [forceSwap] => true
  | .start [finSwap _] => true
  | _ => false

theorem allowed_of_isCloserMove {ms : List (Move Cell Op Unit)} (h : ms.all isCloserMove = true) :
    ∀ m ∈ ms, closers.Allowed m := by
  intro m hm
  have hf := List.all_eq_true.mp h m hm
  unfold isCloserMove at hf
  split at hf
  · trivial
  · exact fun _ => .close
  · exact fun _ => .force
  · exact fun _ => .fin _
  · cases hf

/-- A FIN whose stream has a gap is suspended before its rollback, and the close is forced. -/
def forcedInWindow : List (Move Cell Op Unit) :=
  [Move.start [finSwap 3]] ++ List.replicate 5 (Move.step 0 ()) ++
    [Move.start [forceSwap], .step 1 (), .step 1 (), .step 0 ()]

theorem force_close_kept_window : ∃ x, closers.Reachable free (.new 7 maxReorderBytes) x ∧ Quiet x ∧
    x.shared.conn.reorder.isCompleteThrough 3 = false ∧ x.shared.state = 2 ∧
    (∀ y, closers.Runs free x y → y.shared.state = 2) ∧ x.shared.conn.halfClose = true := by
  obtain ⟨x, hx, hp⟩ := moves_exists (M := closers) (g := free) (x := ⟨.new 7 maxReorderBytes, []⟩)
    (p := fun x => decide (Quiet x ∧ x.shared.conn.reorder.isCompleteThrough 3 = false ∧ x.shared.state = 2))
    (m := forcedInWindow) (allowed_of_isCloserMove rfl) (by decide)
  obtain ⟨hq, hgap, h2⟩ := of_decide_eq_true hp
  obtain ⟨-, hstays, -, hnotified⟩ := force_close_kept hx
  exact ⟨x, hx, hq, hgap, h2, hstays h2, hnotified h2 hq⟩

end RoundRobin.Reassembler.HalfClose
