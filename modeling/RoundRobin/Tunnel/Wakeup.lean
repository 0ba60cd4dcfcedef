import RoundRobin.Tunnel.SendAsync

/-!
# RoundRobin.Tunnel.Wakeup — `send_async` does not sleep through a reconnect

`notify_waiters` stores no permit: a call that creates its `Notified` future too late would wait beside a
live link.  The future is created before the pick and the second look at the links, so whoever pushes a
link that this look missed has its `notify_waiters` still ahead (`Awake`).
-/

namespace RoundRobin.Tunnel

namespace AsyncSend

variable {F : Type}

/-- No link of the pool is alive. -/
def Outage (s : AsyncSend F) : Prop := ∀ k ∈ s.links, (s.heap k).link.alive = false

/-- A call that waits and was not woken will be, or there is nothing to wake it for. -/
def Awake (s : AsyncSend F) : Prop := s.pc = .added → s.notified = false → 0 < s.adding ∨ s.Outage

section Links

variable {s : AsyncSend F} {j k : ℕ}

theorem alive_setTx (tx : Chan Frame) : ((s.setTx k tx).heap j).link.alive = (s.heap j).link.alive := by
  by_cases h : j = k
  · subst h
    simp [setTx, setLink]
  · simp [setTx, setLink, h]

theorem dead_setDead (h : (s.heap j).link.alive = false) : ((s.setDead k).heap j).link.alive = false := by
  by_cases hj : j = k
  · subst hj
    simp [setDead, setLink]
  · simpa [setDead, setLink, hj] using h

theorem Outage.setTx (h : s.Outage) (tx : Chan Frame) : (s.setTx k tx).Outage := by
  intro j hj
  rw [alive_setTx]
  exact h j hj

theorem Outage.setDead (h : s.Outage) : (s.setDead k).Outage := by
  intro j hj
  exact dead_setDead (h j hj)

end Links

section Step

variable [NatCast F] [Add F] [Mul F] [Div F] [Max F] [LT F] [DecidableLT F]
variable {f : Frame} {s s' : AsyncSend F} {e : Event F} {es : List (Event F)}

/-- The call begins to wait when its look at the links found none alive. -/
theorem next_awake (h : s.next f = some s') : s'.Awake := by
  intro hpc hn
  unfold next at h
  split at h
  case h_5 =>
    split at h
    · cases h
      cases hpc
    · rename_i hnone
      cases h
      refine .inr fun k hk => ?_
      by_contra halive
      exact hnone (List.any_eq_true.mpr ⟨k, hk, by simpa using halive⟩)
  all_goals
    (repeat' split at h) <;> cases h <;> cases hpc

theorem step_awake (hs : s.Awake) (h : s.step f e = some s') : s'.Awake := by
  cases e with
  | next => exact next_awake h
  | cancel =>
    simp only [step] at h
    split at h <;> cases h <;> exact fun hpc => by cases hpc
  | push k =>
    cases h
    exact fun _ _ => .inl (Nat.succ_pos _)
  | notifyWaiters =>
    simp only [step] at h
    split at h <;> cases h
    exact fun _ hn => by cases hn
  | die k =>
    cases h
    exact fun hpc hn => (hs hpc hn).imp_right Outage.setDead
  | close k =>
    cases h
    exact fun hpc hn => (hs hpc hn).imp_right fun ho => ho.setTx _
  | drain k =>
    obtain ⟨r, -, rfl⟩ := Option.map_eq_some_iff.mp h
    exact fun hpc hn => (hs hpc hn).imp_right fun ho => ho.setTx _
  | enqueue k g =>
    simp only [step] at h
    split at h <;> cases h
    exact fun hpc hn => (hs hpc hn).imp_right fun ho => ho.setTx _
  | measure k rate =>
    cases h
    refine fun hpc hn => (hs hpc hn).imp_right fun ho j hj => ?_
    by_cases hjk : j = k
    · subst hjk
      simpa using ho j hj
    · simpa [hjk] using ho j hj
  | compact =>
    cases h
    exact fun hpc hn => (hs hpc hn).imp_right fun ho j hj => ho j (List.mem_filter.mp hj).1
  | advance =>
    cases h
    exact hs

theorem run_awake (hs : s.Awake) (h : s.run f es = some s') : s'.Awake := by
  induction es generalizing s with
  | nil =>
    obtain rfl := Option.some.inj h
    exact hs
  | cons e es ih =>
    obtain ⟨s₁, h1, h2⟩ := Option.bind_eq_some_iff.mp h
    exact ih (step_awake hs h1) h2

/-- **No lost wakeup.**  However a call interleaves with calls of `add` and with links that die: while it waits
for a link and was not woken, some `add` has pushed its link and not yet called `notify_waiters`, or no link
of the pool is alive. -/
theorem no_lost_wakeup (h : s.call.run f es = some s') (hpc : s'.pc = .added) (hn : s'.notified = false) :
    0 < s'.adding ∨ ∀ k ∈ s'.links, (s'.heap k).link.alive = false :=
  run_awake (fun hpc => by cases hpc) h hpc hn

end Step

end AsyncSend

/-- The only link dies, the call finds none alive, and a link is pushed behind its back. -/
def reconnect : List (AsyncSend.Event ℕ) := [.die 0, .next, .next, .next, .push 1]

theorem no_lost_wakeup_reconnect : ∃ s', fullLink.call.run (.data 7 1 [65]) reconnect = some s' ∧
    s'.pc = .added ∧ s'.notified = false ∧ (s'.heap 1).link.alive = true ∧ 1 ∈ s'.links ∧
    (0 < s'.adding ∨ ∀ k ∈ s'.links, (s'.heap k).link.alive = false) := by
  have hrun : (fullLink.call.run (.data 7 1 [65]) reconnect).any (fun s => decide (s.pc = .added ∧
      s.notified = false ∧ (s.heap 1).link.alive = true ∧ 1 ∈ s.links)) = true := by decide
  obtain ⟨s', hs, hp⟩ := (Option.any_eq_true _ _).mp hrun
  obtain ⟨hpc, hn, halive, hmem⟩ := of_decide_eq_true hp
  exact ⟨s', hs, hpc, hn, halive, hmem, AsyncSend.no_lost_wakeup hs hpc hn⟩

end RoundRobin.Tunnel
