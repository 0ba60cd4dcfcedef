import RoundRobin.Frame
import RoundRobin.Lib.Chan

/-!
# RoundRobin.Tunnel.Drain — the tunnel writer task

`drain_frames` of `src/tunnel.rs`, one event at a time: what the senders do to the link's queue, which
branch of a `select!` wins, how a write ends.  The two groups of frames it leaves behind are `written`
(completely, to the socket) and `lostFrames` (for the recovery of the link's owner).  Rates, byte
counters and activity stamps are left out.
-/

namespace RoundRobin.Tunnel

/-- Per-tunnel send queue capacity. -/
def tunnelChannelCap : ℕ := 128

/-- Where the task is. -/
inductive Pc where
  /-- At the outer `select!`, `dead` is false. -/
  | select
  /-- At the inner `select!`: the frame is dequeued and encoded, its write is under way. -/
  | writing (f : Frame)
  /-- `dead` is true: emptying the queue with `try_recv`. -/
  | draining
  /-- `wr.shutdown().await`; the receiver is still there. -/
  | shutdown
  /-- The task has ended and its receiver is dropped. -/
  | done
  deriving DecidableEq, Repr

structure Writer where
  chan : Chan Frame
  /-- Stored permit of the link's `stop` signal. -/
  stop : Bool
  pc : Pc
  written : List Frame
  lostFrames : List Frame
  /-- Stored permit of the link's `writer_died` signal. -/
  writerDied : Bool
  deriving DecidableEq, Repr

inductive Event where
  /-- A sender's `try_send` succeeds. -/
  | enqueue (f : Frame)
  /-- `link.stop.notify_one()`. -/
  | notifyStop
  /-- The `stop` branch of the current `select!` wins. -/
  | stopped
  /-- `rx.recv()` yields the oldest frame, which is then encoded. -/
  | recv
  /-- `rx.recv()` yields `None`. -/
  | recvNone
  /-- `write_all` completes. -/
  | wrote
  /-- `write_all` fails, or stalls until the timeout. -/
  | writeFailed
  | tryRecv
  | shutdownDone
  deriving DecidableEq, Repr

namespace Writer

def new : Writer := ⟨Chan.new tunnelChannelCap, false, .select, [], [], false⟩

/-- One event, if it can happen. -/
def step (w : Writer) : Event → Option Writer
  | .enqueue f =>
    match w.chan.trySend f with
    | (.ok, ch) => some { w with chan := ch }
    | _ => none
  | .notifyStop => some { w with stop := true }
  | .stopped =>
    if w.stop then
      match w.pc with
      | .select => some { w with stop := false, pc := .draining }
      | .writing f => some { w with stop := false, pc := .draining, lostFrames := w.lostFrames ++ [f] }
      | _ => none
    else none
  | .recv =>
    match w.pc, w.chan.recv with
    | .select, some (f, ch) =>
      match f.encodeInto [] with
      | .error _ => some { w with chan := ch, pc := .draining, lostFrames := w.lostFrames ++ [f] }
      | .ok _ => some { w with chan := ch, pc := .writing f }
    | _, _ => none
  | .recvNone =>
    match w.pc, w.chan.recv with
    | .select, none => some { w with pc := .draining }
    | _, _ => none
  | .wrote =>
    match w.pc with
    | .writing f => some { w with pc := .select, written := w.written ++ [f] }
    | _ => none
  | .writeFailed =>
    match w.pc with
    | .writing _ => some { w with pc := .draining }
    | _ => none
  | .tryRecv =>
    match w.pc, w.chan.recv with
    | .draining, some (f, ch) => some { w with chan := ch, lostFrames := w.lostFrames ++ [f] }
    | .draining, none => some { w with pc := .shutdown, writerDied := true }
    | _, _ => none
  | .shutdownDone =>
    match w.pc with
    | .shutdown => some { w with pc := .done, chan := w.chan.close }
    | _ => none

def run (w : Writer) : List Event → Option Writer
  | [] => some w
  | e :: es => (w.step e).bind fun w' => w'.run es

/-- The steps that lose a frame: a write that fails, and a frame that is queued behind the last
`try_recv`. -/
def leaks (w : Writer) : Event → Bool
  | .writeFailed => true
  | .enqueue _ => decide (w.pc = .shutdown)
  | _ => false

/-- No step of the run loses a frame. -/
def leakless (w : Writer) : List Event → Bool
  | [] => true
  | e :: es => !w.leaks e && (w.step e).all fun w' => w'.leakless es

/-- The frames the task still answers for. -/
def held (w : Writer) : List Frame :=
  match w.pc with
  | .select | .draining => w.chan.queue
  | .writing f => f :: w.chan.queue
  | .shutdown | .done => []

/-- What a step does, event by event. -/
inductive Trans (w : Writer) : Event → Writer → Prop where
  | enqueue (f : Frame) : w.chan.hasRoom = true → Trans w (.enqueue f)
      { w with chan := { w.chan with queue := w.chan.queue ++ [f], log := w.chan.log ++ [f] } }
  | notifyStop : Trans w .notifyStop { w with stop := true }
  | stopIdle : w.pc = .select → Trans w .stopped { w with stop := false, pc := .draining }
  | stopWriting (f : Frame) : w.pc = .writing f → Trans w .stopped
      { w with stop := false, pc := .draining, lostFrames := w.lostFrames ++ [f] }
  | encodeFailed (f : Frame) (q : List Frame) : w.pc = .select → w.chan.queue = f :: q → Trans w .recv
      { w with
        chan := { w.chan with queue := q }, pc := .draining, lostFrames := w.lostFrames ++ [f] }
  | recv (f : Frame) (q : List Frame) : w.pc = .select → w.chan.queue = f :: q →
      Trans w .recv { w with chan := { w.chan with queue := q }, pc := .writing f }
  | recvNone : w.pc = .select → Trans w .recvNone { w with pc := .draining }
  | wrote (f : Frame) : w.pc = .writing f →
      Trans w .wrote { w with pc := .select, written := w.written ++ [f] }
  | writeFailed (f : Frame) : w.pc = .writing f → Trans w .writeFailed { w with pc := .draining }
  | tryRecv (f : Frame) (q : List Frame) : w.pc = .draining → w.chan.queue = f :: q →
      Trans w .tryRecv
        { w with chan := { w.chan with queue := q }, lostFrames := w.lostFrames ++ [f] }
  | tryRecvEmpty : w.pc = .draining → w.chan.queue = [] →
      Trans w .tryRecv { w with pc := .shutdown, writerDied := true }
  | shutdownDone : w.pc = .shutdown →
      Trans w .shutdownDone { w with pc := .done, chan := w.chan.close }

theorem step_trans {w w' : Writer} {e : Event} (h : w.step e = some w') : w.Trans e w' := by
  cases e with
  | enqueue f =>
    simp only [step] at h
    split at h
    · rename_i ch hs
      obtain ⟨hr, hc⟩ := Chan.trySend_ok (by rw [hs] : (w.chan.trySend f).1 = .ok)
      obtain rfl := Option.some.inj h
      rw [hs] at hc
      subst hc
      exact .enqueue f hr
    · cases h
  | notifyStop =>
    obtain rfl := Option.some.inj h
    exact .notifyStop
  | stopped =>
    simp only [step] at h
    split_ifs at h
    split at h
    all_goals cases h
    · exact .stopIdle ‹_›
    · exact .stopWriting _ ‹_›
  | recv =>
    simp only [step] at h
    split at h
    · rename_i f ch hpc hr
      obtain ⟨q, hq, rfl⟩ := Chan.recv_some hr
      split at h
      all_goals cases h
      · exact .encodeFailed f q hpc hq
      · exact .recv f q hpc hq
    · cases h
  | recvNone =>
    simp only [step] at h
    split at h
    all_goals cases h
    exact .recvNone ‹_›
  | wrote =>
    simp only [step] at h
    split at h
    all_goals cases h
    exact .wrote _ ‹_›
  | writeFailed =>
    simp only [step] at h
    split at h
    all_goals cases h
    exact .writeFailed _ ‹_›
  | tryRecv =>
    simp only [step] at h
    split at h
    · rename_i f ch hpc hr
      obtain ⟨q, hq, rfl⟩ := Chan.recv_some hr
      cases h
      exact .tryRecv f q hpc hq
    · rename_i hpc hr
      cases h
      exact .tryRecvEmpty hpc (Chan.recv_none hr)
    · cases h
  | shutdownDone =>
    simp only [step] at h
    split at h
    all_goals cases h
    exact .shutdownDone ‹_›

/-! ## The accounts -/

/-- The facts about control flow the accounts need: nothing is queued once the receiver is gone, and
nothing is lost before the task winds down. -/
structure Ordered (w : Writer) : Prop where
  closed : w.pc = .done → w.chan.isOpen = false
  clean : w.pc = .select ∨ (∃ f, w.pc = .writing f) → w.lostFrames = []

theorem new_ordered : new.Ordered where
  closed := by simp [new]
  clean := fun _ => rfl

theorem Ordered.not_done {w : Writer} (hw : w.Ordered) (hr : w.chan.hasRoom = true) : w.pc ≠ .done := by
  intro hpc
  simp [Chan.hasRoom, hw.closed hpc] at hr

theorem step_ordered {w w' : Writer} {e : Event} (hw : w.Ordered) (h : w.step e = some w') :
    w'.Ordered := by
  obtain ⟨hcl, hlo⟩ := hw
  cases step_trans h with
  | enqueue f _ => exact ⟨hcl, hlo⟩
  | notifyStop => exact ⟨hcl, hlo⟩
  | stopIdle _ => exact ⟨by simp, by simp⟩
  | stopWriting f _ => exact ⟨by simp, by simp⟩
  | encodeFailed f q _ _ => exact ⟨by simp, by simp⟩
  | recv f q hpc _ => exact ⟨by simp, fun _ => hlo (.inl hpc)⟩
  | recvNone _ => exact ⟨by simp, by simp⟩
  | wrote f hpc => exact ⟨by simp, fun _ => hlo (.inr ⟨f, hpc⟩)⟩
  | writeFailed f _ => exact ⟨by simp, by simp⟩
  | tryRecv f q hpc _ => exact ⟨by simp [hpc], by simp [hpc]⟩
  | tryRecvEmpty _ _ => exact ⟨by simp, by simp⟩
  | shutdownDone _ => exact ⟨fun _ => rfl, by simp⟩

/-- The frames in one of the groups, and those the task still answers for. -/
def accounted (w : Writer) : List Frame := w.written ++ w.lostFrames ++ w.held

/-- A step that loses nothing keeps the accounts: a frame that is accepted is held, and a frame that
is no longer held joins a group, in queue order. -/
theorem step_accounted {w w' : Writer} {e : Event} (hw : w.Ordered) (h : w.step e = some w')
    (hl : w.leaks e = false) (ha : w.chan.log = w.accounted) : w'.chan.log = w'.accounted := by
  cases step_trans h with
  | enqueue f hr =>
    cases hpc : w.pc with
    | shutdown => simp [leaks, hpc] at hl
    | done => exact absurd hpc (hw.not_done hr)
    | _ => simp_all [accounted, held]
  | notifyStop => exact ha
  | stopIdle hpc => simpa [accounted, held, hpc] using ha
  | stopWriting f hpc => simpa [accounted, held, hpc] using ha
  | encodeFailed f q hpc hq => simpa [accounted, held, hpc, hq] using ha
  | recv f q hpc hq => simpa [accounted, held, hpc, hq] using ha
  | recvNone hpc => simpa [accounted, held, hpc] using ha
  | wrote f hpc =>
    have hlost := hw.clean (.inr ⟨f, hpc⟩)
    simpa [accounted, held, hpc, hlost] using ha
  | writeFailed f hpc => cases hl
  | tryRecv f q hpc hq => simpa [accounted, held, hpc, hq] using ha
  | tryRecvEmpty hpc hq => simpa [accounted, held, hpc, hq] using ha
  | shutdownDone hpc => simpa [accounted, held, hpc, Chan.close] using ha

/-- The accounts never gain on the log, and a step that loses a frame sets them back. -/
theorem step_deficit {w w' : Writer} {e : Event} (hw : w.Ordered) (h : w.step e = some w') :
    w.chan.log.length + w'.accounted.length + (w.leaks e).toNat =
      w'.chan.log.length + w.accounted.length := by
  cases step_trans h with
  | enqueue f hr =>
    cases hpc : w.pc with
    | done => exact absurd hpc (hw.not_done hr)
    | _ =>
      simp [accounted, held, leaks, hpc]
      omega
  | notifyStop => simp [accounted, held, leaks]
  | stopIdle hpc => simp [accounted, held, leaks, hpc]
  | stopWriting f hpc => simp [accounted, held, leaks, hpc]
  | encodeFailed f q hpc hq => simp [accounted, held, leaks, hpc, hq]
  | recv f q hpc hq => simp [accounted, held, leaks, hpc, hq]
  | recvNone hpc => simp [accounted, held, leaks, hpc]
  | wrote f hpc =>
    simp [accounted, held, leaks, hpc]
    omega
  | writeFailed f hpc =>
    simp [accounted, held, leaks, hpc]
    omega
  | tryRecv f q hpc hq => simp [accounted, held, leaks, hpc, hq]
  | tryRecvEmpty hpc hq => simp [accounted, held, leaks, hpc, hq]
  | shutdownDone hpc => simp [accounted, held, leaks, hpc, Chan.close]

/-! ## Whole runs -/

theorem run_accounted {w w' : Writer} {es : List Event} (hw : w.Ordered) (h : w.run es = some w')
    (hl : w.leakless es = true) (ha : w.chan.log = w.accounted) : w'.chan.log = w'.accounted := by
  induction es generalizing w with
  | nil =>
    obtain rfl := Option.some.inj h
    exact ha
  | cons e es ih =>
    simp only [run, Option.bind_eq_some_iff] at h
    obtain ⟨v, hv, hr⟩ := h
    simp only [leakless, hv, Option.all_some, Bool.and_eq_true, Bool.not_eq_true'] at hl
    exact ih (step_ordered hw hv) hr hl.2 (step_accounted hw hv hl.1 ha)

theorem run_deficit {w w' : Writer} {es : List Event} (hw : w.Ordered) (h : w.run es = some w') :
    w.chan.log.length + w'.accounted.length + (!w.leakless es).toNat ≤
      w'.chan.log.length + w.accounted.length := by
  induction es generalizing w with
  | nil =>
    obtain rfl := Option.some.inj h
    simp [leakless]
  | cons e es ih =>
    simp only [run, Option.bind_eq_some_iff] at h
    obtain ⟨v, hv, hr⟩ := h
    have hstep := step_deficit hw hv
    have hrest := ih (step_ordered hw hv) hr
    simp only [leakless, hv, Option.all_some]
    cases hle : w.leaks e <;> cases hls : v.leakless es <;> simp_all <;> omega

/-- **A frame vanishes exactly through one of the two leaks.**  When the task has ended, every frame
the queue ever accepted is in exactly one of the two groups, each in queue order, iff no write failed
and no frame was queued behind the last `try_recv`. -/
theorem frames_accounted {es : List Event} {w : Writer} (h : new.run es = some w)
    (hd : w.pc = .done) :
    Interleaved w.written w.lostFrames w.chan.log ↔ new.leakless es = true := by
  have hheld : w.accounted = w.written ++ w.lostFrames := by simp [accounted, held, hd]
  constructor
  · intro hi
    have hdef := run_deficit new_ordered h
    have hlen := hi.length_eq
    rw [hheld] at hdef
    have hnew : new.chan.log.length = 0 ∧ new.accounted.length = 0 := ⟨rfl, rfl⟩
    cases hls : new.leakless es with
    | true => rfl
    | false =>
      simp only [hls, List.length_append, Bool.not_false, Bool.toNat_true] at hdef
      omega
  · intro hl
    rw [run_accounted new_ordered h hl rfl, hheld]
    exact Interleaved.append _ _

/-- A frame written, a stop signal while the next is being written, one more in the queue. -/
theorem frames_accounted_stop :
    ∃ w, new.run [.enqueue (.rst 1), .enqueue (.rst 2), .enqueue (.rst 3), .recv, .wrote, .recv,
        .notifyStop, .stopped, .tryRecv, .tryRecv, .shutdownDone] = some w ∧ w.pc = .done ∧
      w.written = [.rst 1] ∧ w.lostFrames = [.rst 2, .rst 3] ∧
      Interleaved w.written w.lostFrames w.chan.log := by
  refine ⟨_, rfl, rfl, rfl, rfl, ?_⟩
  refine (@frames_accounted [.enqueue (.rst 1), .enqueue (.rst 2), .enqueue (.rst 3), .recv, .wrote,
    .recv, .notifyStop, .stopped, .tryRecv, .tryRecv, .shutdownDone] _ rfl rfl).mpr ?_
  decide

/-- **A failed write loses its frame.**  One DATA frame is dequeued, its write fails, the task ends:
the frame is in neither group. -/
theorem failed_write_vanishes :
    ∃ w, new.run [.enqueue (.data 7 1 [65]), .recv, .writeFailed, .tryRecv, .shutdownDone] = some w ∧
      w.pc = .done ∧ w.chan.log = [.data 7 1 [65]] ∧ w.written = [] ∧ w.lostFrames = [] ∧
      ¬ Interleaved w.written w.lostFrames w.chan.log := by
  refine ⟨_, rfl, rfl, rfl, rfl, rfl, fun h => ?_⟩
  cases h

end Writer

end RoundRobin.Tunnel
