import RoundRobin.Reassembler.State

/-!
# RoundRobin.Reassembler.EgressWriter — the egress writer task

`write_to_egress` of `src/reassembler.rs`: one poll of a `select!`, one `try_recv` and the `shutdown` are the
steps of the task; between two of them chunks are queued and the half-close and cancel signals come, in any
order.  Every `select!` is biased, and `notify_one` stores a permit that stays until an arm takes it.

* `Trans` says what a step can do.
* `Given`: what the socket was given and what is still queued make up what was queued.
* `stop_step`: once the cancel permit is there, the task writes nothing more.

When the write timeout fires is left open.
-/

namespace RoundRobin.Reassembler

/-- What one poll of the timed `write_all` does with the rest of its chunk. -/
inductive WritePoll where
  /-- The socket takes all of it. -/
  | done
  /-- It takes `n` bytes, and the write waits. -/
  | pending (n : ℕ)
  /-- It takes `n` bytes and fails. -/
  | error (n : ℕ)
  /-- It takes `n` bytes, and the timeout fires. -/
  | elapsed (n : ℕ)
  deriving DecidableEq, Repr

/-- Why the task ends. -/
inductive Exit where
  | cancelled
  /-- `recv` yields `None`: the connection was dropped. -/
  | hungUp
  /-- A write failed or stalled. -/
  | failed
  /-- The half-close arm found the channel empty. -/
  | drained
  deriving DecidableEq, Repr

/-- Where the task is. -/
inductive EgressPc where
  /-- At the outer `select!`. -/
  | select
  /-- At the `select!` around the write of `chunk`, of which the socket has the first `sent` bytes; `draining`
  in the half-close arm, `begun` when the write was polled before. -/
  | write (chunk : Bytes) (sent : ℕ) (begun draining : Bool)
  /-- At the `try_recv` of the half-close arm. -/
  | tryRecv
  /-- `wr.shutdown().await`. -/
  | shutdown (why : Exit)
  /-- Returned, the receiver is dropped. -/
  | done (why : Exit)
  deriving DecidableEq, Repr

/-- Why the task leaves or has left its loops. -/
def EgressPc.exit : EgressPc → Option Exit
  | .shutdown why | .done why => some why
  | _ => none

/-- The task is in the half-close arm, or ended there. -/
def EgressPc.inDrain : EgressPc → Bool
  | .tryRecv | .shutdown .drained | .done .drained => true
  | .write _ _ _ draining => draining
  | _ => false

structure EgressWriter where
  rx : Chan Bytes
  /-- The connection still holds the sender. -/
  connected : Bool
  /-- Stored permit of `half_close`. -/
  halfClose : Bool
  /-- Stored permit of `cancel_writer`. -/
  cancelWriter : Bool
  pc : EgressPc
  /-- What the socket was given. -/
  socket : Bytes
  /-- The chunks whose write was begun, and those whose write was completed. -/
  begun : List Bytes
  written : List Bytes
  deriving DecidableEq, Repr

namespace EgressWriter

inductive Event where
  /-- `to_egress.try_send` succeeds. -/
  | queue (chunk : Bytes)
  /-- The last sender is dropped. -/
  | hangUp
  | notifyHalfClose
  | notifyCancel
  /-- The task's next step; if it polls a write, the write does `w`. -/
  | poll (w : WritePoll)
  deriving DecidableEq, Repr

def new : EgressWriter := ⟨Chan.new egressChannelCap, true, false, false, .select, [], [], []⟩

/-- The poll of the `select!` around a write. -/
def pollWrite (s : EgressWriter) (chunk : Bytes) (sent : ℕ) (begun draining : Bool) (w : WritePoll) :
    Option EgressWriter :=
  if s.cancelWriter then
    -- the drain loop returns at once, the main loop breaks to the shutdown
    some { s with
      cancelWriter := false
      pc := if draining then .done .cancelled else .shutdown .cancelled
      rx := if draining then s.rx.close else s.rx }
  else
    let rest := chunk.drop sent
    let s := { s with begun := if begun then s.begun else s.begun ++ [chunk] }
    match w with
    | .done => some { s with
        socket := s.socket ++ rest
        written := s.written ++ [chunk]
        pc := if draining then .tryRecv else .select }
    | .pending n =>
      if n < rest.length then
        some { s with socket := s.socket ++ rest.take n, pc := .write chunk (sent + n) true draining }
      else none
    | .error n | .elapsed n =>
      if n < rest.length then some { s with socket := s.socket ++ rest.take n, pc := .shutdown .failed }
      else none

/-- One step of the task. -/
def pollTask (s : EgressWriter) (w : WritePoll) : Option EgressWriter :=
  match s.pc with
  | .select =>
    if s.cancelWriter then some { s with cancelWriter := false, pc := .shutdown .cancelled }
    else
      match s.rx.recv with
      | some (chunk, rx) => some { s with rx := rx, pc := .write chunk 0 false false }
      | none =>
        if !s.connected then some { s with pc := .shutdown .hungUp }
        else if s.halfClose then some { s with halfClose := false, pc := .tryRecv }
        else some s
  | .write chunk sent begun draining => s.pollWrite chunk sent begun draining w
  | .tryRecv =>
    match s.rx.recv with
    | some (chunk, rx) => some { s with rx := rx, pc := .write chunk 0 false true }
    | none => some { s with pc := .shutdown .drained }
  | .shutdown why => some { s with pc := .done why, rx := s.rx.close }
  | .done _ => none

def step (s : EgressWriter) : Event → Option EgressWriter
  | .queue chunk =>
    if s.connected then
      match s.rx.trySend chunk with
      | (.ok, rx) => some { s with rx := rx }
      | _ => none
    else none
  | .hangUp => some { s with connected := false }
  | .notifyHalfClose => some { s with halfClose := true }
  | .notifyCancel => some { s with cancelWriter := true }
  | .poll w => s.pollTask w

def run (s : EgressWriter) : List Event → Option EgressWriter
  | [] => some s
  | e :: es => (s.step e).bind fun s' => s'.run es

/-! ## What a step can do -/

/-- What a step does, event by event. -/
inductive Trans (s : EgressWriter) : Event → EgressWriter → Prop where
  | queue (chunk : Bytes) : s.rx.hasRoom = true → Trans s (.queue chunk)
      { s with rx := { s.rx with queue := s.rx.queue ++ [chunk], log := s.rx.log ++ [chunk] } }
  | hangUp : Trans s .hangUp { s with connected := false }
  | notifyHalfClose : Trans s .notifyHalfClose { s with halfClose := true }
  | notifyCancel : Trans s .notifyCancel { s with cancelWriter := true }
  | cancelled {w : WritePoll} : s.pc = .select → s.cancelWriter = true → Trans s (.poll w)
      { s with cancelWriter := false, pc := .shutdown .cancelled }
  | recv {w : WritePoll} (chunk : Bytes) (q : List Bytes) : s.pc = .select → s.cancelWriter = false →
      s.rx.queue = chunk :: q → Trans s (.poll w)
      { s with rx := { s.rx with queue := q }, pc := .write chunk 0 false false }
  | recvNone {w : WritePoll} : s.pc = .select → s.cancelWriter = false → Trans s (.poll w)
      { s with pc := .shutdown .hungUp }
  | halfClosed {w : WritePoll} : s.pc = .select → s.cancelWriter = false → s.halfClose = true →
      Trans s (.poll w) { s with halfClose := false, pc := .tryRecv }
  | waits {w : WritePoll} : s.pc = .select → s.cancelWriter = false → Trans s (.poll w) s
  | writeCancelled {w : WritePoll} (chunk : Bytes) (sent : ℕ) (begun draining : Bool) (rx : Chan Bytes)
      (pc : EgressPc) : s.pc = .write chunk sent begun draining → s.cancelWriter = true →
      pc.exit = some .cancelled → rx.log = s.rx.log →
      Trans s (.poll w) { s with cancelWriter := false, pc := pc, rx := rx }
  | wrote (chunk : Bytes) (sent : ℕ) (begun draining : Bool) (bs : List Bytes) :
      s.pc = .write chunk sent begun draining → s.cancelWriter = false → Trans s (.poll .done)
      { s with
        begun := bs
        socket := s.socket ++ chunk.drop sent
        written := s.written ++ [chunk]
        pc := if draining then .tryRecv else .select }
  | wrotePart (chunk : Bytes) (sent n : ℕ) (begun draining : Bool) (bs : List Bytes) :
      s.pc = .write chunk sent begun draining → s.cancelWriter = false →
      Trans s (.poll (.pending n))
      { s with
        begun := bs
        socket := s.socket ++ (chunk.drop sent).take n
        pc := .write chunk (sent + n) true draining }
  | writeFailed {w : WritePoll} (chunk : Bytes) (sent n : ℕ) (begun draining : Bool) (bs : List Bytes) :
      s.pc = .write chunk sent begun draining → s.cancelWriter = false → Trans s (.poll w)
      { s with
        begun := bs
        socket := s.socket ++ (chunk.drop sent).take n
        pc := .shutdown .failed }
  | tryRecv {w : WritePoll} (chunk : Bytes) (q : List Bytes) : s.pc = .tryRecv →
      s.rx.queue = chunk :: q → Trans s (.poll w)
      { s with rx := { s.rx with queue := q }, pc := .write chunk 0 false true }
  | tryRecvEmpty {w : WritePoll} : s.pc = .tryRecv → s.rx.queue = [] → Trans s (.poll w)
      { s with pc := .shutdown .drained }
  | shutdownDone {w : WritePoll} (why : Exit) : s.pc = .shutdown why → Trans s (.poll w)
      { s with pc := .done why, rx := s.rx.close }

variable {s s' : EgressWriter} {e : Event} {es : List Event}

theorem pollWrite_trans {chunk : Bytes} {sent : ℕ} {begun draining : Bool} {w : WritePoll}
    (hpc : s.pc = .write chunk sent begun draining) (h : s.pollWrite chunk sent begun draining w = some s') :
    s.Trans (.poll w) s' := by
  unfold pollWrite at h
  by_cases hc : s.cancelWriter = true
  · rw [if_pos hc] at h
    obtain rfl := Option.some.inj h
    cases draining with
    | true => exact .writeCancelled chunk sent begun true _ _ hpc hc rfl rfl
    | false => exact .writeCancelled chunk sent begun false _ _ hpc hc rfl rfl
  · rw [if_neg hc] at h
    have hc : s.cancelWriter = false := Bool.eq_false_iff.mpr hc
    cases w with
    | done =>
      obtain rfl := Option.some.inj h
      exact .wrote chunk sent begun draining _ hpc hc
    | pending n =>
      simp only at h
      by_cases hn : n < (chunk.drop sent).length
      · rw [if_pos hn] at h
        obtain rfl := Option.some.inj h
        exact .wrotePart chunk sent n begun draining _ hpc hc
      · rw [if_neg hn] at h
        cases h
    | error n | elapsed n =>
      simp only at h
      by_cases hn : n < (chunk.drop sent).length
      · rw [if_pos hn] at h
        obtain rfl := Option.some.inj h
        exact .writeFailed chunk sent n begun draining _ hpc hc
      · rw [if_neg hn] at h
        cases h

theorem pollTask_trans {w : WritePoll} (h : s.pollTask w = some s') : s.Trans (.poll w) s' := by
  unfold pollTask at h
  split at h
  · rename_i hpc
    by_cases hc : s.cancelWriter = true
    · rw [if_pos hc] at h
      obtain rfl := Option.some.inj h
      exact .cancelled hpc hc
    · rw [if_neg hc] at h
      have hc : s.cancelWriter = false := Bool.eq_false_iff.mpr hc
      split at h
      · rename_i chunk rx hr
        obtain ⟨q, hq, rfl⟩ := Chan.recv_some hr
        obtain rfl := Option.some.inj h
        exact .recv chunk q hpc hc hq
      · split_ifs at h with _ hh
        · obtain rfl := Option.some.inj h
          exact .recvNone hpc hc
        · obtain rfl := Option.some.inj h
          exact .halfClosed hpc hc hh
        · obtain rfl := Option.some.inj h
          exact .waits hpc hc
  · exact pollWrite_trans ‹_› h
  · rename_i hpc
    split at h
    · rename_i chunk rx hr
      obtain ⟨q, hq, rfl⟩ := Chan.recv_some hr
      obtain rfl := Option.some.inj h
      exact .tryRecv chunk q hpc hq
    · rename_i hr
      obtain rfl := Option.some.inj h
      exact .tryRecvEmpty hpc (Chan.recv_none hr)
  · obtain rfl := Option.some.inj h
    exact .shutdownDone _ ‹_›
  · cases h

theorem step_trans (h : s.step e = some s') : s.Trans e s' := by
  cases e with
  | queue chunk =>
    simp only [step] at h
    split_ifs at h
    split at h
    · rename_i rx hs
      obtain ⟨hr, hrx⟩ := Chan.trySend_ok (by rw [hs] : (s.rx.trySend chunk).1 = .ok)
      obtain rfl := Option.some.inj h
      rw [hs] at hrx
      subst hrx
      exact .queue chunk hr
    · cases h
  | hangUp =>
    obtain rfl := Option.some.inj h
    exact .hangUp
  | notifyHalfClose =>
    obtain rfl := Option.some.inj h
    exact .notifyHalfClose
  | notifyCancel =>
    obtain rfl := Option.some.inj h
    exact .notifyCancel
  | poll w => exact pollTask_trans h

theorem run_inv {P : EgressWriter → Prop} (h : s.run es = some s') (hs : P s)
    (hstep : ∀ x y e, e ∈ es → P x → x.step e = some y → P y) : P s' := by
  induction es generalizing s with
  | nil =>
    obtain rfl := Option.some.inj h
    exact hs
  | cons e es ih =>
    obtain ⟨x, hx, hr⟩ := Option.bind_eq_some_iff.mp h
    refine ih hr (hstep s x e List.mem_cons_self hs hx) fun y z d hd => ?_
    exact hstep y z d (List.mem_cons_of_mem _ hd)

/-! ## The socket -/

/-- The socket was given the chunks written and `part` of what follows; `rest` was queued and is not written. -/
structure Given (s : EgressWriter) (part : Bytes) (rest : List Bytes) : Prop where
  log : s.rx.log = s.written ++ rest
  socket : s.socket = s.written.flatten ++ part
  fits : part <+: rest.flatten
  reading : s.pc = .select ∨ s.pc = .tryRecv → part = [] ∧ rest = s.rx.queue
  writing : ∀ chunk sent b d, s.pc = .write chunk sent b d →
    part = chunk.take sent ∧ rest = chunk :: s.rx.queue
  drained : s.pc.exit = some .drained → part = []

def Inv (s : EgressWriter) : Prop := ∃ part rest, s.Given part rest

theorem new_inv : new.Inv :=
  ⟨[], [], rfl, rfl, List.prefix_refl _, fun _ => ⟨rfl, rfl⟩, fun _ _ _ _ h => (by cases h), fun _ => rfl⟩

/-- A chunk is taken from the channel. -/
theorem Given.take {part : Bytes} {rest : List Bytes} (hs : s.Given part rest)
    (hpc : s.pc = .select ∨ s.pc = .tryRecv) {chunk : Bytes} {q : List Bytes} (hq : s.rx.queue = chunk :: q)
    (d : Bool) : { s with rx := { s.rx with queue := q }, pc := .write chunk 0 false d }.Given [] (chunk :: q) := by
  obtain ⟨rfl, rfl⟩ := hs.reading hpc
  rw [hq] at hs
  refine ⟨hs.log, hs.socket, hs.fits, ?_, ?_, fun _ => rfl⟩
  · rintro (h | h) <;> cases h
  · intro chunk' sent b d' h
    cases h
    exact ⟨List.take_zero.symm, rfl⟩

/-- The task leaves its loops. -/
theorem Given.leave {part : Bytes} {rest : List Bytes} (hs : s.Given part rest) {why : Exit} {pc : EgressPc}
    {rx : Chan Bytes} {c : Bool} (hpc : pc.exit = some why) (hrx : rx.log = s.rx.log)
    (hwhy : why = .drained → part = []) :
    { s with rx := rx, cancelWriter := c, pc := pc }.Given part rest := by
  refine ⟨hrx.trans hs.log, hs.socket, hs.fits, ?_, ?_, ?_⟩
  · rintro (h | h) <;> rw [show pc = _ from h] at hpc <;> cases hpc
  · intro chunk sent b d h
    rw [show pc = _ from h] at hpc
    cases hpc
  · intro h
    exact hwhy (Option.some.inj (hpc.symm.trans h))

theorem step_inv (hs : s.Inv) (h : s.step e = some s') : s'.Inv := by
  obtain ⟨part, rest, hs⟩ := hs
  have ⟨hlog, hsock, hpart, hrd, hwr, hdr⟩ := hs
  cases step_trans h with
  | queue chunk hroom =>
    refine ⟨part, rest ++ [chunk], ?_, hsock, ?_, ?_, ?_, hdr⟩
    · rw [hlog, List.append_assoc]
    · rw [List.flatten_append]
      exact hpart.trans (List.prefix_append _ _)
    · intro hpc
      obtain ⟨hp, hr⟩ := hrd hpc
      exact ⟨hp, by rw [hr]⟩
    · intro chunk' sent b d hpc
      obtain ⟨hp, hr⟩ := hwr chunk' sent b d hpc
      exact ⟨hp, by rw [hr]; rfl⟩
  | hangUp => exact ⟨part, rest, hlog, hsock, hpart, hrd, hwr, hdr⟩
  | notifyHalfClose => exact ⟨part, rest, hlog, hsock, hpart, hrd, hwr, hdr⟩
  | notifyCancel => exact ⟨part, rest, hlog, hsock, hpart, hrd, hwr, hdr⟩
  | cancelled hpc hc => exact ⟨part, rest, hs.leave rfl rfl fun h => by cases h⟩
  | recv chunk q hpc hc hq => exact ⟨[], chunk :: q, hs.take (.inl hpc) hq false⟩
  | recvNone hpc hc => exact ⟨part, rest, hs.leave rfl rfl fun h => by cases h⟩
  | halfClosed hpc hc hh =>
    exact ⟨part, rest, hlog, hsock, hpart, fun _ => hrd (.inl hpc), fun _ _ _ _ h => (by cases h),
      fun h => (by cases h)⟩
  | waits hpc hc => exact ⟨part, rest, hs⟩
  | writeCancelled chunk sent b d rx pc hpc hc hexit hrx =>
    exact ⟨part, rest, hs.leave hexit hrx fun h => by cases h⟩
  | wrote chunk sent b d bs hpc hc =>
    obtain ⟨rfl, rfl⟩ := hwr chunk sent b d hpc
    refine ⟨[], s.rx.queue, ?_, ?_, List.nil_prefix, fun _ => ⟨rfl, rfl⟩, ?_, fun _ => rfl⟩
    · rw [hlog, List.append_assoc]
      rfl
    · simp [hsock]
    · intro chunk' sent' b' d' h
      cases d <;> cases h
  | wrotePart chunk sent n b d bs hpc hc =>
    obtain ⟨rfl, rfl⟩ := hwr chunk sent b d hpc
    refine ⟨chunk.take (sent + n), chunk :: s.rx.queue, hlog, ?_, ?_, ?_, ?_, fun h => by cases h⟩
    · simp only [hsock, List.take_add, List.append_assoc]
    · rw [List.flatten_cons]
      exact (List.take_prefix _ _).trans (List.prefix_append _ _)
    · rintro (h | h) <;> cases h
    · intro chunk' sent' b' d' h
      cases h
      exact ⟨rfl, rfl⟩
  | writeFailed chunk sent n b d bs hpc hc =>
    obtain ⟨rfl, rfl⟩ := hwr chunk sent b d hpc
    refine ⟨chunk.take (sent + n), chunk :: s.rx.queue, hlog, ?_, ?_, ?_, ?_, fun h => (by cases h)⟩
    · simp only [hsock, List.take_add, List.append_assoc]
    · rw [List.flatten_cons]
      exact (List.take_prefix _ _).trans (List.prefix_append _ _)
    · rintro (h | h) <;> cases h
    · intro chunk' sent' b' d' h
      cases h
  | tryRecv chunk q hpc hq => exact ⟨[], chunk :: q, hs.take (.inr hpc) hq true⟩
  | tryRecvEmpty hpc hq => exact ⟨part, rest, hs.leave rfl rfl fun _ => (hrd (.inr hpc)).1⟩
  | shutdownDone why hpc =>
    refine ⟨part, rest, hs.leave rfl rfl fun h => hdr ?_⟩
    rw [hpc, h]
    rfl

theorem run_new_inv (h : new.run es = some s) : s.Inv :=
  run_inv h new_inv fun _ _ _ _ => step_inv

/-! ## The half-close arm -/

/-- No permit of the half-close signal, and none was taken. -/
def Unsignalled (s : EgressWriter) : Prop := s.halfClose = false ∧ s.pc.inDrain = false

theorem inDrain_of_exit {pc : EgressPc} (h : pc.exit = some .drained) : pc.inDrain = true := by
  cases pc with
  | shutdown why | done why =>
    obtain rfl := Option.some.inj h
    rfl
  | _ => cases h

theorem inDrain_cancelled {pc : EgressPc} (h : pc.exit = some .cancelled) : pc.inDrain = false := by
  cases pc with
  | shutdown why | done why =>
    obtain rfl := Option.some.inj h
    rfl
  | _ => cases h

/-- Only the signal opens the half-close arm. -/
theorem step_unsignalled (hs : s.Unsignalled) (hne : e ≠ .notifyHalfClose) (h : s.step e = some s') :
    s'.Unsignalled := by
  obtain ⟨hh, hd⟩ := hs
  cases step_trans h with
  | queue | hangUp | notifyCancel | waits => exact ⟨hh, hd⟩
  | notifyHalfClose => exact absurd rfl hne
  | cancelled | recv | recvNone | writeFailed => exact ⟨hh, rfl⟩
  | halfClosed hpc hc hsig => cases hh.symm.trans hsig
  | writeCancelled chunk sent b d rx pc hpc hc hexit => exact ⟨hh, inDrain_cancelled hexit⟩
  | wrote chunk sent b d bs hpc =>
    rw [hpc] at hd
    obtain rfl : d = false := hd
    exact ⟨hh, rfl⟩
  | wrotePart chunk sent n b d bs hpc =>
    rw [hpc] at hd
    exact ⟨hh, hd⟩
  | tryRecv chunk q hpc | tryRecvEmpty hpc =>
    rw [hpc] at hd
    cases hd
  | shutdownDone why hpc =>
    rw [hpc] at hd
    exact ⟨hh, by cases why <;> first | rfl | cases hd⟩

/-- Once the half-close arm has found the channel empty, what was queued before is written. -/
def Drains (log : List Bytes) (s : EgressWriter) : Prop :=
  s.Inv ∧ log <+: s.rx.log ∧ (s.pc.exit = some .drained → log <+: s.written)

theorem step_drains {log : List Bytes} (hs : s.Drains log) (h : s.step e = some s') : s'.Drains log := by
  obtain ⟨hinv, hlog, hw⟩ := hs
  refine ⟨step_inv hinv h, ?_, ?_⟩
  · cases step_trans h with
    | queue chunk => exact hlog.trans (List.prefix_append _ _)
    | writeCancelled chunk sent b d rx pc _ _ _ hrx => exact hrx ▸ hlog
    | _ => exact hlog
  · intro hexit
    cases step_trans h with
    | queue | hangUp | notifyHalfClose | notifyCancel | waits => exact hw hexit
    | cancelled | recv | recvNone | halfClosed | wrotePart | writeFailed | tryRecv => cases hexit
    | writeCancelled chunk sent b d rx pc _ _ hc => cases hc.symm.trans hexit
    | wrote chunk sent b d => cases d <;> cases hexit
    | tryRecvEmpty hpc hq =>
      obtain ⟨part, rest, hg⟩ := hinv
      have hrest := (hg.reading (.inr hpc)).2
      have hall := hg.log
      rw [hrest, hq, List.append_nil] at hall
      exact hall ▸ hlog
    | shutdownDone why hpc =>
      apply hw
      rw [hpc]
      exact hexit

/-! ## The cancel signal -/

/-- The permit of the cancel signal is there, or the task has left its loops. -/
def Stopping (s : EgressWriter) : Prop := s.cancelWriter = true ∨ s.pc.exit.isSome = true

/-- The polls until the task that finds the permit leaves its loops. -/
def pollsLeft : EgressPc → ℕ
  | .select | .write _ _ _ _ => 1
  | .tryRecv => 2
  | .shutdown _ | .done _ => 0

def Event.isPoll : Event → Bool
  | .poll _ => true
  | _ => false

/-- Nothing of the account of the writes changed. -/
def SameWrites (s s' : EgressWriter) : Prop :=
  s'.begun = s.begun ∧ s'.socket = s.socket ∧ s'.written = s.written

theorem Stopping.exit_of_free (hs : s.Stopping) (hc : s.cancelWriter = false) : s.pc.exit.isSome = true := by
  rcases hs with h | h
  · cases hc.symm.trans h
  · exact h

/-- **A cancelled writer writes nothing more.**  Every `select!` looks at the permit first. -/
theorem stop_step (hs : s.Stopping) (h : s.step e = some s') :
    s'.Stopping ∧ s.SameWrites s' ∧ pollsLeft s'.pc ≤ pollsLeft s.pc - if e.isPoll then 1 else 0 := by
  cases step_trans h with
  | queue | hangUp | notifyHalfClose => exact ⟨hs, ⟨rfl, rfl, rfl⟩, le_rfl⟩
  | notifyCancel => exact ⟨.inl rfl, ⟨rfl, rfl, rfl⟩, le_rfl⟩
  | cancelled hpc => exact ⟨.inr rfl, ⟨rfl, rfl, rfl⟩, Nat.zero_le _⟩
  | recv chunk q hpc hc | halfClosed hpc hc | waits hpc hc | recvNone hpc hc =>
    have := hs.exit_of_free hc
    rw [hpc] at this
    cases this
  | writeCancelled chunk sent b d rx pc hpc hc hexit =>
    refine ⟨.inr ?_, ⟨rfl, rfl, rfl⟩, ?_⟩
    · show pc.exit.isSome = true
      rw [hexit]
      rfl
    · cases pc with
      | shutdown | done => exact Nat.zero_le _
      | _ => cases hexit
  | wrote chunk sent b d bs hpc hc | wrotePart chunk sent n b d bs hpc hc | writeFailed chunk sent n b d bs hpc hc =>
    have := hs.exit_of_free hc
    rw [hpc] at this
    cases this
  | tryRecv chunk q hpc =>
    refine ⟨?_, ⟨rfl, rfl, rfl⟩, by rw [hpc]; exact le_rfl⟩
    rcases hs with h | h
    · exact .inl h
    · rw [hpc] at h
      cases h
  | tryRecvEmpty hpc => exact ⟨.inr rfl, ⟨rfl, rfl, rfl⟩, Nat.zero_le _⟩
  | shutdownDone why hpc => exact ⟨.inr rfl, ⟨rfl, rfl, rfl⟩, Nat.zero_le _⟩

theorem stop_run (hs : s.Stopping) (h : s.run es = some s') :
    s.SameWrites s' ∧ pollsLeft s'.pc ≤ pollsLeft s.pc - es.countP Event.isPoll := by
  induction es generalizing s with
  | nil =>
    obtain rfl := Option.some.inj h
    exact ⟨⟨rfl, rfl, rfl⟩, le_rfl⟩
  | cons e es ih =>
    obtain ⟨x, hx, hr⟩ := Option.bind_eq_some_iff.mp h
    obtain ⟨hst, ⟨hb, hso, hw⟩, hle⟩ := stop_step hs hx
    obtain ⟨⟨hb', hso', hw'⟩, hle'⟩ := ih hst hr
    refine ⟨⟨hb'.trans hb, hso'.trans hso, hw'.trans hw⟩, ?_⟩
    rw [List.countP_cons]
    omega

theorem exit_of_pollsLeft {pc : EgressPc} (h : pollsLeft pc = 0) : pc.exit.isSome = true := by
  cases pc with
  | shutdown | done => rfl
  | _ => cases h

/-- **Complete drain, prefix only, prompt cancel.**  In every run of the writer the socket was given a prefix of
what was queued.  A task that ends in the half-close arm has written every chunk queued before the signal.
After the cancel signal no write is begun, no byte is written, and two polls later the task has left its loops. -/
theorem egress_writer :
    (∀ es s, new.run es = some s → s.socket <+: s.rx.log.flatten) ∧
      (∀ es₁ es₂ s₁ s₂, new.run es₁ = some s₁ → s₁.run (.notifyHalfClose :: es₂) = some s₂ →
        .notifyHalfClose ∉ es₁ ∨ s₁.pc.exit = none → s₂.pc.exit = some .drained →
          s₁.rx.log <+: s₂.written ∧ s₂.socket = s₂.written.flatten) ∧
      ∀ es₁ es₂ s₁ s₂, new.run es₁ = some s₁ → s₁.run (.notifyCancel :: es₂) = some s₂ →
        s₂.begun = s₁.begun ∧ s₂.socket = s₁.socket ∧
          (2 ≤ es₂.countP Event.isPoll → s₂.pc.exit.isSome = true) := by
  refine ⟨fun es s h => ?_, fun es₁ es₂ s₁ s₂ h₁ h₂ hsig hexit => ?_, fun es₁ es₂ s₁ s₂ h₁ h₂ => ?_⟩
  · obtain ⟨part, rest, hg⟩ := run_new_inv h
    rw [hg.socket, hg.log, List.flatten_append, List.prefix_append_right_inj]
    exact hg.fits
  · have hinv := run_new_inv h₁
    have hopen : s₁.pc.exit ≠ some .drained := by
      intro hd
      rcases hsig with hno | hnone
      · have hun : s₁.Unsignalled := run_inv h₁ ⟨rfl, rfl⟩ fun x y e he hx hs =>
          step_unsignalled hx (fun heq => hno (heq ▸ he)) hs
        exact absurd (inDrain_of_exit hd) (by rw [hun.2]; exact Bool.false_ne_true)
      · cases hnone.symm.trans hd
    have hdr : s₂.Drains s₁.rx.log := run_inv h₂ ⟨hinv, List.prefix_refl _, fun hd => absurd hd hopen⟩
      fun _ _ _ _ => step_drains
    obtain ⟨⟨part, rest, hg⟩, -, hw⟩ := hdr
    refine ⟨hw hexit, ?_⟩
    rw [hg.socket, hg.drained hexit, List.append_nil]
  · obtain ⟨x, hx, hr⟩ := Option.bind_eq_some_iff.mp h₂
    obtain rfl := Option.some.inj hx
    obtain ⟨⟨hb, hso, -⟩, hle⟩ := stop_run (.inl rfl) hr
    refine ⟨hb, hso, fun htwo => exit_of_pollsLeft ?_⟩
    have hmost : ∀ pc, pollsLeft pc ≤ 2 := by
      intro pc
      cases pc <;> simp [pollsLeft]
    have := hmost s₁.pc
    exact Nat.le_zero.mp (hle.trans (by show pollsLeft s₁.pc - _ ≤ 0; omega))

/-- The signal comes while the first chunk is written and the second is queued. -/
def queuedTwo : List Event := [.queue [1, 2], .poll .done, .queue [3, 4]]

def drainedTwo : List Event := [.poll .done, .poll .done, .poll .done, .poll .done, .poll .done]

/-- The socket has taken one byte of the second chunk. -/
def halfWritten : List Event :=
  [.queue [1, 2], .queue [3, 4], .poll .done, .poll .done, .poll .done, .poll (.pending 1)]

theorem egress_writer_two_chunks :
    (∃ s₁ s₂, new.run queuedTwo = some s₁ ∧ s₁.run (.notifyHalfClose :: drainedTwo) = some s₂ ∧
      s₁.rx.log = [[1, 2], [3, 4]] ∧ s₁.rx.log <+: s₂.written ∧ s₂.socket = s₂.written.flatten) ∧
    ∃ s₁ s₂, new.run halfWritten = some s₁ ∧ s₁.run [.notifyCancel, .poll .done, .poll .done] = some s₂ ∧
      s₁.socket = [1, 2, 3] ∧ s₂.socket = s₁.socket ∧ s₂.pc.exit.isSome = true := by
  obtain ⟨-, hdrain, hcancel⟩ := egress_writer
  constructor
  · have hruns : ∃ s₁ s₂, new.run queuedTwo = some s₁ ∧ s₁.run (.notifyHalfClose :: drainedTwo) = some s₂ ∧
        s₁.rx.log = [[1, 2], [3, 4]] ∧ s₂.pc.exit = some .drained := ⟨_, _, rfl, rfl, rfl, rfl⟩
    obtain ⟨s₁, s₂, h₁, h₂, hlog, hexit⟩ := hruns
    exact ⟨s₁, s₂, h₁, h₂, hlog, hdrain _ _ s₁ s₂ h₁ h₂ (.inl (by decide)) hexit⟩
  · have hruns : ∃ s₁ s₂, new.run halfWritten = some s₁ ∧
        s₁.run [.notifyCancel, .poll .done, .poll .done] = some s₂ ∧ s₁.socket = [1, 2, 3] :=
      ⟨_, _, rfl, rfl, rfl⟩
    obtain ⟨s₁, s₂, h₁, h₂, hsocket⟩ := hruns
    obtain ⟨-, hsame, hexit⟩ := hcancel _ _ s₁ s₂ h₁ h₂
    exact ⟨s₁, s₂, h₁, h₂, hsocket, hsame, hexit (by decide)⟩

end EgressWriter

end RoundRobin.Reassembler
