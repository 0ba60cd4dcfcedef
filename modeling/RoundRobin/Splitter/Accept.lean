import RoundRobin.Lib.Machine

/-!
# RoundRobin.Splitter.Accept — the accept loop and its connection limit

The accept loop of `run_splitter` and `handle_client` around it, as far as they count connections.  A handler is in
one of six places; the loop reads the length of `conns` and `half_open` one after the other, and waits for
`conn_slot` when their sum is at the limit.  `notify_one` stores a permit when nobody waits, `notify_waiters` does
not.

`Awake` says why the loop cannot sleep for good: whoever it counted is still there and will notify it, or has left
by the one exit that does not.  Handlers that panic are left out.
-/

namespace RoundRobin.Splitter

/-- `MAX_CONCURRENT_CONNS`. -/
def maxConcurrentConns : ℕ := 4096

/-- Where the accept loop is. -/
inductive AcceptPc where
  | top
  /-- It has read `conns.len()`, and goes on to `half_open`. -/
  | counted (conns : ℕ)
  /-- At the limit, before `notified()` is polled. -/
  | limited
  /-- Waiting for `conn_slot`. -/
  | waiting
  /-- In `listener.accept()`. -/
  | accepting
  | stopped
  deriving DecidableEq, Repr

/-- The numbers of handlers in each place, and of those that left without a notification. -/
structure AcceptLoop where
  pc : AcceptPc
  /-- Stored permit of `conn_slot`. -/
  permit : Bool
  shutdown : Bool
  /-- Not yet in `half_open`. -/
  spawned : ℕ
  halfOpen : ℕ
  /-- Between `half_open` and `conns`. -/
  allocating : ℕ
  /-- With an entry in `conns`. -/
  registered : ℕ
  /-- With no entry any more, and `notify_one` ahead. -/
  finishing : ℕ
  exhausted : ℕ
  deriving DecidableEq, Repr

namespace AcceptLoop

inductive Event where
  /-- The loop's next step; `accept` succeeds. -/
  | loop
  | acceptRetry
  | handlerStarts
  /-- The handshake ends. -/
  | handshake (ok : Bool)
  /-- `alloc_conn_id` finds no id. -/
  | noConnId
  /-- The handler fails before its entry is there. -/
  | unregistered
  /-- `conns.insert`; `overwrites` if it replaces the entry of a handler that drew the same id. -/
  | insert (overwrites : Bool)
  /-- An entry goes: its handler ends, or a reset or a sweep takes it. -/
  | remove
  /-- A handler ends with `notify_one`. -/
  | notifyOne
  /-- The heartbeat's `notify_waiters`. -/
  | heartbeat
  | shutdownSignal
  deriving DecidableEq, Repr

def new : AcceptLoop := ⟨.top, false, false, 0, 0, 0, 0, 0, 0⟩

/-- The next step of the loop. -/
def advance (s : AcceptLoop) : Option AcceptLoop :=
  match s.pc with
  | .top => some { s with pc := if s.shutdown then .stopped else .counted s.registered }
  | .counted n => some { s with pc := if n + s.halfOpen ≥ maxConcurrentConns then .limited else .accepting }
  | .limited => some (if s.permit then { s with permit := false, pc := .top } else { s with pc := .waiting })
  | .waiting => none
  | .accepting => some { s with spawned := s.spawned + 1, pc := .top }
  | .stopped => none

/-- One event, if it can happen. -/
def step (s : AcceptLoop) : Event → Option AcceptLoop
  | .loop => s.advance
  | .acceptRetry => if s.pc = .accepting then some s else none
  | .handlerStarts =>
    if 0 < s.spawned then some { s with spawned := s.spawned - 1, halfOpen := s.halfOpen + 1 } else none
  | .handshake ok =>
    if 0 < s.halfOpen then
      some (if ok then { s with halfOpen := s.halfOpen - 1, allocating := s.allocating + 1 }
        else { s with halfOpen := s.halfOpen - 1, finishing := s.finishing + 1 })
    else none
  | .noConnId =>
    if 0 < s.allocating then some { s with allocating := s.allocating - 1, exhausted := s.exhausted + 1 } else none
  | .unregistered =>
    if 0 < s.allocating then some { s with allocating := s.allocating - 1, finishing := s.finishing + 1 } else none
  | .insert overwrites =>
    if overwrites then
      -- the other handler is left without its entry
      if 0 < s.allocating ∧ 0 < s.registered then
        some { s with allocating := s.allocating - 1, finishing := s.finishing + 1 }
      else none
    else if 0 < s.allocating then
      some { s with allocating := s.allocating - 1, registered := s.registered + 1 }
    else none
  | .remove =>
    if 0 < s.registered then some { s with registered := s.registered - 1, finishing := s.finishing + 1 } else none
  | .notifyOne =>
    if 0 < s.finishing then
      let s := { s with finishing := s.finishing - 1 }
      some (if s.pc = .waiting then { s with pc := .top } else { s with permit := true })
    else none
  | .heartbeat => some (if s.pc = .waiting then { s with pc := .top } else s)
  | .shutdownSignal => some { s with shutdown := true }

def run (s : AcceptLoop) (es : List Event) : Option AcceptLoop := Machine.run step s es

/-- The handlers that hold a slot, or have held one and not yet said so. -/
def holding (s : AcceptLoop) : ℕ := s.halfOpen + s.allocating + s.registered + s.finishing

/-- What the loop has counted is there, or a permit is. -/
structure Awake (s : AcceptLoop) : Prop where
  counted : ∀ n, s.pc = .counted n → s.permit = true ∨ n ≤ s.registered + s.finishing
  limited : s.pc = .limited → s.permit = true ∨ maxConcurrentConns ≤ s.holding + s.exhausted
  waiting : s.pc = .waiting → s.permit = false ∧ maxConcurrentConns ≤ s.holding + s.exhausted

variable {s s' : AcceptLoop} {e : Event}

theorem awake_new : new.Awake := ⟨nofun, nofun, nofun⟩

theorem advance_awake (hs : s.Awake) (h : s.advance = some s') : s'.Awake := by
  unfold advance at h
  split at h
  · obtain rfl := Option.some.inj h
    split_ifs
    · exact ⟨nofun, nofun, nofun⟩
    · refine ⟨fun n hn => .inr ?_, nofun, nofun⟩
      obtain rfl : s.registered = n := AcceptPc.counted.inj hn
      exact Nat.le_add_right _ _
  · rename_i n hpc
    obtain rfl := Option.some.inj h
    split_ifs with hlim
    · refine ⟨nofun, fun _ => ?_, nofun⟩
      rcases hs.counted n hpc with hp | hn
      · exact .inl hp
      · refine .inr ?_
        show maxConcurrentConns ≤ s.halfOpen + s.allocating + s.registered + s.finishing + s.exhausted
        omega
    · exact ⟨nofun, nofun, nofun⟩
  · rename_i hpc
    obtain rfl := Option.some.inj h
    split_ifs with hp
    · exact ⟨nofun, nofun, nofun⟩
    · refine ⟨nofun, nofun, fun _ => ⟨by simpa using hp, ?_⟩⟩
      exact (hs.limited hpc).resolve_left hp
  · cases h
  · obtain rfl := Option.some.inj h
    exact ⟨nofun, nofun, nofun⟩
  · cases h

/-- Handlers move on, and none of them is lost. -/
theorem Awake.move (hs : s.Awake) (hpc : s'.pc = s.pc) (hp : s'.permit = s.permit)
    (hreg : s.registered + s.finishing ≤ s'.registered + s'.finishing)
    (hhold : s.holding + s.exhausted ≤ s'.holding + s'.exhausted) : s'.Awake := by
  refine ⟨fun n hn => ?_, fun hl => ?_, fun hw => ?_⟩
  · rw [hp]
    exact (hs.counted n (hpc ▸ hn)).imp_right fun h => h.trans hreg
  · rw [hp]
    exact (hs.limited (hpc ▸ hl)).imp_right fun h => h.trans hhold
  · rw [hp]
    obtain ⟨hf, h⟩ := hs.waiting (hpc ▸ hw)
    exact ⟨hf, h.trans hhold⟩

theorem step_awake (hs : s.Awake) (h : s.step e = some s') : s'.Awake := by
  cases e with
  | loop => exact advance_awake hs h
  | acceptRetry =>
    obtain ⟨-, h⟩ := Option.ite_none_right_eq_some.mp h
    obtain rfl := Option.some.inj h
    exact hs
  | handlerStarts =>
    obtain ⟨hpos, h⟩ := Option.ite_none_right_eq_some.mp h
    obtain rfl := Option.some.inj h
    exact hs.move rfl rfl le_rfl (by simp only [holding]; omega)
  | handshake ok =>
    obtain ⟨hpos, h⟩ := Option.ite_none_right_eq_some.mp h
    obtain rfl := Option.some.inj h
    cases ok with
    | true => exact hs.move rfl rfl le_rfl (by simp only [holding, if_true]; omega)
    | false =>
      exact hs.move rfl rfl (by simp) (by simp only [holding, Bool.false_eq_true, if_false]; omega)
  | noConnId =>
    obtain ⟨hpos, h⟩ := Option.ite_none_right_eq_some.mp h
    obtain rfl := Option.some.inj h
    exact hs.move rfl rfl le_rfl (by simp only [holding]; omega)
  | unregistered =>
    obtain ⟨hpos, h⟩ := Option.ite_none_right_eq_some.mp h
    obtain rfl := Option.some.inj h
    exact hs.move rfl rfl (by simp) (by simp only [holding]; omega)
  | insert overwrites =>
    cases overwrites with
    | true =>
      obtain ⟨⟨hpos, hreg⟩, h⟩ := Option.ite_none_right_eq_some.mp h
      obtain rfl := Option.some.inj h
      exact hs.move rfl rfl (by simp) (by simp only [holding]; omega)
    | false =>
      obtain ⟨hpos, h⟩ := Option.ite_none_right_eq_some.mp h
      obtain rfl := Option.some.inj h
      exact hs.move rfl rfl (by simp only; omega) (by simp only [holding]; omega)
  | remove =>
    obtain ⟨hpos, h⟩ := Option.ite_none_right_eq_some.mp h
    obtain rfl := Option.some.inj h
    exact hs.move rfl rfl (by simp only; omega) (by simp only [holding]; omega)
  | notifyOne =>
    obtain ⟨hpos, h⟩ := Option.ite_none_right_eq_some.mp h
    obtain rfl := Option.some.inj h
    simp only
    split_ifs with hw
    · exact ⟨nofun, nofun, nofun⟩
    · exact ⟨fun _ _ => .inl rfl, fun _ => .inl rfl, fun h => absurd h hw⟩
  | heartbeat =>
    obtain rfl := Option.some.inj h
    split_ifs
    · exact ⟨nofun, nofun, nofun⟩
    · exact hs
  | shutdownSignal =>
    obtain rfl := Option.some.inj h
    exact hs.move rfl rfl le_rfl le_rfl

/-- **The accept loop is not forgotten.**  In every run, when the loop sleeps at the limit, 4096 handlers are still
there, but for those that left because no connection id was free; the next handler that ends, and every heartbeat,
wakes it. -/
theorem accept_loop {es : List Event} (h : new.run es = some s) (hw : s.pc = .waiting) :
    maxConcurrentConns ≤ s.holding + s.exhausted ∧
    ∀ e s', e = .notifyOne ∨ e = .heartbeat → s.step e = some s' → s'.pc = .top := by
  have hs : s.Awake := Machine.run_inv Awake h awake_new fun _ _ _ hx hxy => step_awake hx hxy
  refine ⟨(hs.waiting hw).2, ?_⟩
  rintro e s' (rfl | rfl) hstep
  · obtain ⟨-, hstep⟩ := Option.ite_none_right_eq_some.mp hstep
    obtain rfl := Option.some.inj hstep
    simp [hw]
  · obtain rfl := Option.some.inj hstep
    simp [hw]

/-- Clients that connect and stay in their handshake. -/
theorem fill (k : ℕ) (h : k ≤ maxConcurrentConns) :
    ∃ es, new.run es = some ⟨.top, false, false, 0, k, 0, 0, 0, 0⟩ := by
  induction k with
  | zero => exact ⟨[], rfl⟩
  | succ k ih =>
    obtain ⟨es, hes⟩ := ih (by omega)
    have hlim : ¬ maxConcurrentConns ≤ k := by omega
    refine ⟨es ++ [.loop, .loop, .loop, .handlerStarts], Machine.run_trans hes ?_⟩
    simp [Machine.run, step, advance, hlim]

theorem accept_loop_full :
    ∃ es s, new.run es = some s ∧ s.pc = .waiting ∧ maxConcurrentConns ≤ s.holding + s.exhausted := by
  obtain ⟨es, hes⟩ := fill maxConcurrentConns le_rfl
  have hwait : (⟨.top, false, false, 0, maxConcurrentConns, 0, 0, 0, 0⟩ : AcceptLoop).run [.loop, .loop, .loop] =
      some ⟨.waiting, false, false, 0, maxConcurrentConns, 0, 0, 0, 0⟩ := rfl
  have hrun := Machine.run_trans hes hwait
  exact ⟨_, _, hrun, rfl, (accept_loop hrun rfl).1⟩

end AcceptLoop

end RoundRobin.Splitter
