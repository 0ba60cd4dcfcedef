import RoundRobin.Lib.Machine
import RoundRobin.Tunnel.Drain

/-!
# RoundRobin.Tunnel.Lifecycle — a tunnel link from its first frame to its last

The tasks of one link: the read loop with the lines behind it (`run_splitter` and `run_tunnel_listener`), the writer
task `drain_frames`, the heartbeat's `sweep_idle`, and the senders, which mark a link dead when its queue is closed.
They meet in three signals: the `alive` flag and the permits of `stop` and `writer_died`.

* `Signalled`: whoever leaves the link has told the others, or is about to.
* `progress`: a link that is dying can always go on without its peer.
* `fuel_step`: and it does so only finitely often, apart from the frames that still join its queue.

The splitter takes the lost frames when the writer task is joined, the reassembler behind the writer task.
-/

namespace RoundRobin.Tunnel

/-- Who owns the link. -/
inductive Side where
  | splitter
  | reassembler
  deriving DecidableEq, Repr

/-- Where the task of the read loop is. -/
inductive OwnerPc where
  /-- In the `select!` of the read loop, or handling a frame. -/
  | reading
  /-- The loop has ended. -/
  | ended
  /-- `alive` is false, `stop` is not yet signalled. -/
  | notifying
  /-- `wr_task.await`. -/
  | joining
  | finished
  deriving DecidableEq, Repr

/-- Where the owner is once it has signalled `stop`. -/
def Side.behindStop : Side → OwnerPc
  | .splitter => .joining
  | .reassembler => .finished

/-- Where the owner is once the lost frames were taken. -/
def Side.behindRecover : Side → OwnerPc → OwnerPc
  | .splitter, _ => .finished
  | .reassembler, owner => owner

structure Link where
  side : Side
  writer : Writer
  alive : Bool
  owner : OwnerPc
  /-- `sweep_idle` stored `alive` and has still to signal `stop`. -/
  sweeping : Bool
  /-- What `mem::take` found in `lost_frames`, which keeps its content here. -/
  recovered : Option (List Frame)
  deriving DecidableEq, Repr

namespace Link

inductive Event where
  /-- A step of the writer task or of a sender. -/
  | writer (e : Tunnel.Event)
  /-- A frame is read and handled. -/
  | readFrame
  /-- EOF, an error, or bytes that are no frame. -/
  | readEnds
  /-- The `writer_died` arm wins. -/
  | writerDied
  | storeDead
  | notifyStop
  /-- The lost frames are taken. -/
  | recover
  | sweepStore
  | sweepNotify
  /-- A sender finds the queue closed. -/
  | markClosed
  deriving DecidableEq, Repr

/-- `pool.add` of a new link. -/
def new (side : Side) : Link := ⟨side, Writer.new, true, .reading, false, none⟩

/-- The lost frames can be taken: the splitter's owner has joined the writer, the reassembler's writer task is
behind `drain_frames`. -/
def joined (s : Link) : Bool :=
  decide (s.writer.pc = .done) && s.recovered.isNone &&
    (s.side == .reassembler || decide (s.owner = .joining))

/-- One event, if it can happen. -/
def step (s : Link) : Event → Option Link
  | .writer e =>
    if e = .notifyStop then none else (s.writer.step e).map fun w => { s with writer := w }
  | .readFrame => if s.owner = .reading then some s else none
  | .readEnds => if s.owner = .reading then some { s with owner := .ended } else none
  | .writerDied =>
    if s.owner = .reading ∧ s.writer.writerDied = true then
      some { s with owner := .ended, writer := { s.writer with writerDied := false } }
    else none
  | .storeDead => if s.owner = .ended then some { s with alive := false, owner := .notifying } else none
  | .notifyStop =>
    if s.owner = .notifying then
      some { s with
        writer := { s.writer with stop := true }
        owner := s.side.behindStop }
    else none
  | .recover =>
    if s.joined then
      some { s with
        recovered := some s.writer.lostFrames
        owner := s.side.behindRecover s.owner }
    else none
  | .sweepStore =>
    if s.alive = true ∧ s.sweeping = false then some { s with alive := false, sweeping := true } else none
  | .sweepNotify =>
    if s.sweeping then some { s with writer := { s.writer with stop := true }, sweeping := false } else none
  | .markClosed =>
    if s.alive = true ∧ s.writer.chan.isOpen = false then some { s with alive := false } else none

def run (s : Link) (es : List Event) : Option Link := Machine.run step s es

/-- The steps the tasks of a link can make whatever the peer does. -/
def Event.own : Event → Bool
  | .writer .stopped | .writer .tryRecv | .writer .shutdownDone => true
  | .writerDied | .storeDead | .notifyStop | .recover | .sweepNotify => true
  | _ => false

/-- A frame joins the queue. -/
def Event.joins : Event → Bool
  | .writer (.enqueue _) => true
  | _ => false

/-- The writer is in its loop. -/
def busy (s : Link) : Bool :=
  match s.writer.pc with
  | .select | .writing _ => true
  | _ => false

/-- Someone has left the link or marked it dead. -/
def Dying (s : Link) : Prop := s.alive = false ∨ s.owner ≠ .reading ∨ s.busy = false

/-- All tasks of the link have ended and the lost frames are taken. -/
def Over (s : Link) : Prop :=
  s.owner = .finished ∧ s.writer.pc = .done ∧ s.recovered = some s.writer.lostFrames

instance (s : Link) : Decidable s.Dying := inferInstanceAs (Decidable (_ ∨ _))

instance (s : Link) : Decidable s.Over := inferInstanceAs (Decidable (_ ∧ _))

/-! ## The signals -/

/-- Whoever left has told the others, or is about to. -/
structure Signalled (s : Link) : Prop where
  /-- A dead link has its writer stopped. -/
  stop : s.alive = false → s.busy = true → s.writer.stop = true ∨ s.sweeping = true ∨ s.owner = .notifying
  /-- A writer that has ended has told the reader. -/
  died : s.writer.pc = .shutdown ∨ s.writer.pc = .done → s.owner = .reading → s.writer.writerDied = true
  /-- A reader that is behind its loop has marked the link. -/
  dead : s.owner = .notifying ∨ s.owner = .joining ∨ s.owner = .finished → s.alive = false
  swept : s.sweeping = true → s.alive = false
  opened : s.writer.chan.isOpen = false → s.writer.pc = .done
  /-- The splitter's owner goes on when the lost frames are taken. -/
  splitter : s.side = .splitter → (s.recovered.isSome = true ↔ s.owner = .finished)
  reassembler : s.side = .reassembler → s.owner ≠ .joining
  taken : ∀ l, s.recovered = some l → s.writer.pc = .done ∧ l = s.writer.lostFrames

theorem new_signalled (side : Side) : (new side).Signalled where
  stop := fun h => by cases h
  died := fun h => by rcases h with h | h <;> cases h
  dead := fun h => by rcases h with h | h | h <;> cases h
  swept := fun h => by cases h
  opened := fun h => by cases h
  splitter := fun _ => by simp [new]
  reassembler := fun _ => by simp [new]
  taken := fun _ h => by cases h

variable {s s' : Link} {e : Event} {es : List Event}

/-- A step of the writer or of a sender. -/
theorem writer_signalled {w : Writer} {ev : Tunnel.Event} (hs : s.Signalled) (hne : ev ≠ .notifyStop)
    (h : s.writer.step ev = some w) : Signalled { s with writer := w } := by
  -- the task goes on, and neither its signals nor the queue's receiver change
  have hsame : ∀ v : Writer, (v.stop = s.writer.stop) → (v.writerDied = s.writer.writerDied) →
      (v.chan.isOpen = s.writer.chan.isOpen) → (busy { s with writer := v } = true → s.busy = true) →
      (v.pc = .shutdown ∨ v.pc = .done → v.pc = s.writer.pc) → (s.writer.pc = .done → v.pc = .done) →
      (s.writer.pc = .done → v.lostFrames = s.writer.lostFrames) → Signalled { s with writer := v } := by
    intro v hstop hdied hopen hbusy hend hdone hlost
    refine ⟨fun ha hb => ?_, fun hp ho => ?_, hs.dead, hs.swept, fun hc => ?_, hs.splitter, hs.reassembler,
      fun l hl => ?_⟩
    · rw [show ({ s with writer := v } : Link).writer.stop = s.writer.stop from hstop]
      exact hs.stop ha (hbusy hb)
    · exact hdied.trans (hs.died (by rw [← hend hp]; exact hp) ho)
    · exact hdone (hs.opened (hopen ▸ hc))
    · obtain ⟨hd, rfl⟩ := hs.taken l hl
      exact ⟨hdone hd, (hlost hd).symm⟩
  cases Writer.step_trans h with
  | enqueue f hr => exact hsame _ rfl rfl rfl id (fun _ => rfl) id fun _ => rfl
  | notifyStop => exact absurd rfl hne
  | stopIdle hpc | stopWriting f hpc =>
    refine ⟨fun _ hb => (by cases hb), fun hp => ?_, hs.dead, hs.swept, fun hc => ?_, hs.splitter,
      hs.reassembler, fun l hl => ?_⟩
    · rcases hp with hp | hp <;> cases hp
    · cases hpc.symm.trans (hs.opened hc)
    · cases hpc.symm.trans (hs.taken l hl).1
  | recv f q hpc hq | wrote f hpc =>
    refine hsame _ rfl rfl rfl (fun _ => by simp [busy, hpc]) ?_ ?_ ?_
    · rintro (hp | hp) <;> cases hp
    · intro hd
      cases hpc.symm.trans hd
    · intro hd
      cases hpc.symm.trans hd
  | encodeFailed f q hpc hq | recvNone hpc | writeFailed f hpc =>
    refine hsame _ rfl rfl rfl (fun hb => by cases hb) ?_ ?_ ?_
    · rintro (hp | hp) <;> cases hp
    · intro hd
      cases hpc.symm.trans hd
    · intro hd
      cases hpc.symm.trans hd
  | tryRecv f q hpc hq =>
    refine hsame _ rfl rfl rfl id (fun _ => rfl) id fun hd => ?_
    cases hpc.symm.trans hd
  | tryRecvEmpty hpc hq =>
    refine ⟨fun _ hb => (by cases hb), fun _ _ => rfl, hs.dead, hs.swept, fun hc => ?_, hs.splitter,
      hs.reassembler, fun l hl => ?_⟩
    · cases hpc.symm.trans (hs.opened hc)
    · cases hpc.symm.trans (hs.taken l hl).1
  | shutdownDone hpc =>
    refine ⟨fun _ hb => (by cases hb), fun _ ho => hs.died (.inl hpc) ho, hs.dead, hs.swept, fun _ => rfl,
      hs.splitter, hs.reassembler, fun l hl => ?_⟩
    cases hpc.symm.trans (hs.taken l hl).1

/-- The read loop ends; it may have taken the permit of the writer. -/
theorem ended_signalled (hs : s.Signalled) (ho : s.owner = .reading) (died : Bool) :
    Signalled { s with owner := .ended, writer := { s.writer with writerDied := died } } := by
  refine ⟨fun ha hb => ?_, fun _ hc => (by cases hc), fun hc => ?_, hs.swept, hs.opened, fun hsd => ?_,
    fun _ => (by simp), hs.taken⟩
  · exact (hs.stop ha hb).imp_right fun hc => hc.imp_right fun hn => by cases ho.symm.trans hn
  · rcases hc with hc | hc | hc <;> cases hc
  · have := hs.splitter hsd
    simp_all

/-- The writer is told to stop. -/
theorem stopped_signalled (hs : s.Signalled) (ho : s.owner = .notifying) :
    Signalled { s with writer := { s.writer with stop := true }, owner := s.side.behindStop } := by
  have hdead := hs.dead (.inl ho)
  refine ⟨fun _ _ => .inl rfl, fun _ hc => ?_, fun _ => hdead, hs.swept, hs.opened, fun hsd => ?_,
    fun hsd => ?_, hs.taken⟩
  · have hc : s.side.behindStop = .reading := hc
    cases hsd : s.side <;> rw [hsd] at hc <;> cases hc
  · have hsd : s.side = .splitter := hsd
    have hnot := hs.splitter hsd
    rw [ho] at hnot
    show s.recovered.isSome = true ↔ s.side.behindStop = .finished
    rw [hsd]
    simpa [Side.behindStop] using hnot
  · have hsd : s.side = .reassembler := hsd
    show s.side.behindStop ≠ .joining
    rw [hsd]
    simp [Side.behindStop]

/-- The lost frames are taken. -/
theorem recovered_signalled (hs : s.Signalled) (hj : s.joined = true) :
    Signalled { s with recovered := some s.writer.lostFrames, owner := s.side.behindRecover s.owner } := by
  simp only [joined, Bool.and_eq_true, decide_eq_true_eq] at hj
  obtain ⟨⟨hd, hnone⟩, hside⟩ := hj
  have hbehind : s.side.behindRecover s.owner = s.owner ∨ s.owner = .joining ∧ s.side = .splitter ∧
      s.side.behindRecover s.owner = .finished := by
    cases hsd : s.side with
    | splitter => exact .inr ⟨by simpa [hsd] using hside, rfl, rfl⟩
    | reassembler => exact .inl rfl
  refine ⟨fun _ hb => ?_, fun hp hc => ?_, fun hc => ?_, hs.swept, hs.opened, fun hsd => ?_, fun hsd => ?_, ?_⟩
  · simp [busy, hd] at hb
  · have hc : s.side.behindRecover s.owner = .reading := hc
    rcases hbehind with hb | ⟨-, -, hb⟩
    · exact hs.died (.inr hd) (hb ▸ hc)
    · cases hb.symm.trans hc
  · rcases hbehind with hb | ⟨ho, -, -⟩
    · exact hs.dead (hb ▸ hc)
    · exact hs.dead (.inr (.inl ho))
  · have hsd : s.side = .splitter := hsd
    show _ ↔ s.side.behindRecover s.owner = .finished
    rw [hsd]
    simp [Side.behindRecover]
  · have hsd : s.side = .reassembler := hsd
    show s.side.behindRecover s.owner ≠ .joining
    rw [hsd]
    exact hs.reassembler hsd
  · intro l hl
    obtain rfl := Option.some.inj hl
    exact ⟨hd, rfl⟩

theorem step_signalled (hs : s.Signalled) (h : s.step e = some s') : s'.Signalled := by
  cases e with
  | writer ev =>
    simp only [step] at h
    split_ifs at h with hne
    obtain ⟨w, hw, rfl⟩ := Option.map_eq_some_iff.mp h
    exact writer_signalled hs hne hw
  | readFrame =>
    simp only [step] at h
    split_ifs at h
    obtain rfl := Option.some.inj h
    exact hs
  | readEnds =>
    simp only [step] at h
    split_ifs at h with ho
    obtain rfl := Option.some.inj h
    exact ended_signalled hs ho s.writer.writerDied
  | writerDied =>
    simp only [step] at h
    split_ifs at h with ho
    obtain rfl := Option.some.inj h
    exact ended_signalled hs ho.1 false
  | storeDead =>
    simp only [step] at h
    split_ifs at h with ho
    obtain rfl := Option.some.inj h
    refine ⟨fun _ _ => .inr (.inr rfl), fun _ hc => (by cases hc), fun _ => rfl, fun _ => rfl, hs.opened,
      fun hsd => ?_, fun _ => (by simp), hs.taken⟩
    have := hs.splitter hsd
    simp_all
  | notifyStop =>
    obtain ⟨ho, h⟩ := Option.ite_none_right_eq_some.mp h
    obtain rfl := Option.some.inj h
    exact stopped_signalled hs ho
  | recover =>
    obtain ⟨hj, h⟩ := Option.ite_none_right_eq_some.mp h
    obtain rfl := Option.some.inj h
    exact recovered_signalled hs hj
  | sweepStore =>
    simp only [step] at h
    split_ifs at h with ha
    obtain rfl := Option.some.inj h
    exact ⟨fun _ _ => .inr (.inl rfl), hs.died, fun _ => rfl, fun _ => rfl, hs.opened, hs.splitter,
      hs.reassembler, hs.taken⟩
  | sweepNotify =>
    simp only [step] at h
    split_ifs at h with hsw
    obtain rfl := Option.some.inj h
    exact ⟨fun _ _ => .inl rfl, hs.died, hs.dead, fun hc => (by cases hc), hs.opened, hs.splitter,
      hs.reassembler, hs.taken⟩
  | markClosed =>
    simp only [step] at h
    split_ifs at h with hc
    obtain rfl := Option.some.inj h
    have hd := hs.opened hc.2
    exact ⟨fun _ hb => (by simp [busy, hd] at hb), hs.died, fun _ => rfl, fun _ => rfl, hs.opened, hs.splitter,
      hs.reassembler, hs.taken⟩

/-! ## A dying link goes on -/

theorem progress_busy (hs : s.Signalled) (hb : s.busy = true) (hd : s.Dying) :
    ∃ e, Event.own e = true ∧ (s.step e).isSome = true := by
  have hstop : s.writer.stop = true → (s.step (.writer .stopped)).isSome = true := by
    intro hst
    cases hpc : s.writer.pc with
    | select | writing f => simp [step, Writer.step, hst, hpc]
    | draining | shutdown | done =>
      rw [busy, hpc] at hb
      cases hb
  have hnotify : s.owner = .notifying → (s.step .notifyStop).isSome = true := by
    intro ho
    rw [step, if_pos ho]
    rfl
  by_cases ha : s.alive = false
  · rcases hs.stop ha hb with hst | hsw | ho
    · exact ⟨.writer .stopped, rfl, hstop hst⟩
    · refine ⟨.sweepNotify, rfl, ?_⟩
      rw [step, if_pos hsw]
      rfl
    · exact ⟨.notifyStop, rfl, hnotify ho⟩
  · have ho : s.owner ≠ .reading := by
      rcases hd with h | h | h
      · exact absurd h ha
      · exact h
      · cases hb.symm.trans h
    cases hpc : s.owner with
    | reading => exact absurd hpc ho
    | ended =>
      refine ⟨.storeDead, rfl, ?_⟩
      rw [step, if_pos hpc]
      rfl
    | notifying => exact ⟨.notifyStop, rfl, hnotify hpc⟩
    | joining => exact absurd (hs.dead (.inr (.inl hpc))) ha
    | finished => exact absurd (hs.dead (.inr (.inr hpc))) ha

theorem progress_done (hs : s.Signalled) (hpc : s.writer.pc = .done) :
    s.Over ∨ ∃ e, Event.own e = true ∧ (s.step e).isSome = true := by
  have hrecover : s.recovered = none → (s.side = .reassembler ∨ s.owner = .joining) →
      (s.step .recover).isSome = true := by
    intro hn hside
    have hj : s.joined = true := by simpa [joined, hpc, hn] using hside
    rw [step, if_pos hj]
    rfl
  cases ho : s.owner with
  | reading =>
    refine .inr ⟨.writerDied, rfl, ?_⟩
    rw [step, if_pos ⟨ho, hs.died (.inr hpc) ho⟩]
    rfl
  | ended =>
    refine .inr ⟨.storeDead, rfl, ?_⟩
    rw [step, if_pos ho]
    rfl
  | notifying =>
    refine .inr ⟨.notifyStop, rfl, ?_⟩
    rw [step, if_pos ho]
    rfl
  | joining =>
    refine .inr ⟨.recover, rfl, hrecover ?_ (.inr ho)⟩
    cases hsd : s.side with
    | splitter =>
      have := hs.splitter hsd
      rw [ho] at this
      simpa using this
    | reassembler => exact absurd ho (hs.reassembler hsd)
  | finished =>
    cases hr : s.recovered with
    | some l =>
      obtain ⟨-, rfl⟩ := hs.taken l hr
      exact .inl ⟨ho, hpc, hr⟩
    | none =>
      refine .inr ⟨.recover, rfl, hrecover hr ?_⟩
      cases hsd : s.side with
      | splitter =>
        have := hs.splitter hsd
        rw [ho, hr] at this
        simp at this
      | reassembler => exact .inl rfl

/-- Whatever the peer does, a dying link is over or one of its tasks can make a step. -/
theorem progress (hs : s.Signalled) (hd : s.Dying) :
    s.Over ∨ ∃ e, Event.own e = true ∧ (s.step e).isSome = true := by
  cases hpc : s.writer.pc with
  | select | writing f => exact .inr (progress_busy hs (by simp [busy, hpc]) hd)
  | draining =>
    refine .inr ⟨.writer .tryRecv, rfl, ?_⟩
    simp only [step, Writer.step, hpc, reduceCtorEq, if_false, Option.isSome_map]
    cases s.writer.chan.recv <;> rfl
  | shutdown =>
    refine .inr ⟨.writer .shutdownDone, rfl, ?_⟩
    simp [step, Writer.step, hpc]
  | done => exact progress_done hs hpc

/-! ## And comes to its end -/

def pcFuel : Pc → ℕ
  | .select => 3
  | .writing _ => 5
  | .draining => 2
  | .shutdown => 1
  | .done => 0

def ownerFuel : OwnerPc → ℕ
  | .reading => 4
  | .ended => 3
  | .notifying => 2
  | .joining => 1
  | .finished => 0

/-- The steps the tasks of the link have still before them. -/
def fuel (s : Link) : ℕ :=
  3 * s.writer.chan.queue.length + pcFuel s.writer.pc + ownerFuel s.owner + (if s.recovered.isNone then 1 else 0) +
    (if s.sweeping then 1 else 0) + if s.alive then 1 else 0

theorem fuel_le (s : Link) : s.fuel ≤ 3 * s.writer.chan.queue.length + 12 := by
  have hpc : pcFuel s.writer.pc ≤ 5 := by cases s.writer.pc <;> simp [pcFuel]
  have ho : ownerFuel s.owner ≤ 4 := by cases s.owner <;> simp [ownerFuel]
  unfold fuel
  split_ifs <;> omega

/-- A step of the writer or of a sender uses up fuel, but for a frame that joins the queue. -/
theorem writer_fuel {w w' : Writer} {ev : Tunnel.Event} (hne : ev ≠ .notifyStop) (h : w.step ev = some w') :
    3 * w'.chan.queue.length + pcFuel w'.pc + (if Event.own (.writer ev) then 1 else 0) ≤
      3 * w.chan.queue.length + pcFuel w.pc + if Event.joins (.writer ev) then 3 else 0 := by
  cases Writer.step_trans h with
  | enqueue f _ =>
    simp [Event.own, Event.joins]
    omega
  | notifyStop => exact absurd rfl hne
  | stopIdle hpc | stopWriting f hpc | recvNone hpc | wrote f hpc | writeFailed f hpc =>
    simp [Event.own, Event.joins, hpc, pcFuel]
  | encodeFailed f q hpc hq | recv f q hpc hq | tryRecv f q hpc hq =>
    simp only [Event.own, Event.joins, hpc, hq, pcFuel, List.length_cons, Bool.false_eq_true, if_true, if_false]
    omega
  | tryRecvEmpty hpc hq => simp [Event.own, Event.joins, hpc, hq, pcFuel]
  | shutdownDone hpc => simp [Event.own, Event.joins, hpc, pcFuel, Chan.close]

theorem fuel_step (h : s.step e = some s') :
    s'.fuel + (if e.own then 1 else 0) ≤ s.fuel + if e.joins then 3 else 0 := by
  cases e with
  | writer ev =>
    simp only [step] at h
    split_ifs at h with hne
    obtain ⟨w, hw, rfl⟩ := Option.map_eq_some_iff.mp h
    have hle := writer_fuel hne hw
    simp only [fuel]
    omega
  | readFrame =>
    obtain ⟨-, h⟩ := Option.ite_none_right_eq_some.mp h
    obtain rfl := Option.some.inj h
    exact le_rfl
  | readEnds | writerDied =>
    obtain ⟨ho, h⟩ := Option.ite_none_right_eq_some.mp h
    obtain rfl := Option.some.inj h
    simp [fuel, ho, ownerFuel, Event.own, Event.joins] <;> omega
  | storeDead =>
    obtain ⟨ho, h⟩ := Option.ite_none_right_eq_some.mp h
    obtain rfl := Option.some.inj h
    simp [fuel, ho, ownerFuel, Event.own, Event.joins]
    omega
  | notifyStop =>
    obtain ⟨ho, h⟩ := Option.ite_none_right_eq_some.mp h
    obtain rfl := Option.some.inj h
    have hold : ownerFuel s.owner = 2 := by rw [ho]; rfl
    have hnew : ownerFuel s.side.behindStop ≤ 1 := by cases s.side <;> simp [Side.behindStop, ownerFuel]
    simp only [fuel, hold, Event.own, Event.joins, if_true, Bool.false_eq_true, if_false]
    omega
  | recover =>
    obtain ⟨hj, h⟩ := Option.ite_none_right_eq_some.mp h
    obtain rfl := Option.some.inj h
    simp only [joined, Bool.and_eq_true] at hj
    have hb : ownerFuel (s.side.behindRecover s.owner) ≤ ownerFuel s.owner := by
      cases s.side <;> simp [Side.behindRecover, ownerFuel]
    simp only [fuel, hj.1.2, Event.own, Event.joins, Option.isNone_some, if_true, Bool.false_eq_true, if_false]
    omega
  | sweepStore =>
    obtain ⟨ha, h⟩ := Option.ite_none_right_eq_some.mp h
    obtain rfl := Option.some.inj h
    simp [fuel, ha, Event.own, Event.joins]
  | sweepNotify =>
    obtain ⟨hsw, h⟩ := Option.ite_none_right_eq_some.mp h
    obtain rfl := Option.some.inj h
    simp only [fuel, hsw, Event.own, Event.joins, Bool.false_eq_true, if_true, if_false]
    omega
  | markClosed =>
    obtain ⟨ha, h⟩ := Option.ite_none_right_eq_some.mp h
    obtain rfl := Option.some.inj h
    simp [fuel, ha, Event.own, Event.joins]

/-- Nobody comes back to a dying link. -/
theorem step_dying (hd : s.Dying) (h : s.step e = some s') : s'.Dying := by
  cases e with
  | writer ev =>
    simp only [step] at h
    split_ifs at h with hne
    obtain ⟨w, hw, rfl⟩ := Option.map_eq_some_iff.mp h
    refine hd.imp_right fun hd => hd.imp_right fun hb => ?_
    have hfree : ∀ {pc : Pc} {P : Prop}, s.writer.pc = pc → (pc = .select ∨ ∃ f, pc = .writing f) → P := by
      rintro pc P hpc (rfl | ⟨f, rfl⟩)
      · rw [busy, hpc] at hb
        cases hb
      · rw [busy, hpc] at hb
        cases hb
    cases Writer.step_trans hw with
    | enqueue | notifyStop => exact hb
    | stopIdle | stopWriting | encodeFailed | recvNone | writeFailed | tryRecvEmpty | shutdownDone => rfl
    | tryRecv f q hpc _ => exact hb
    | recv f q hpc _ => exact hfree hpc (.inl rfl)
    | wrote f hpc => exact hfree hpc (.inr ⟨f, rfl⟩)
  | readFrame =>
    obtain ⟨-, h⟩ := Option.ite_none_right_eq_some.mp h
    obtain rfl := Option.some.inj h
    exact hd
  | readEnds | writerDied =>
    obtain ⟨-, h⟩ := Option.ite_none_right_eq_some.mp h
    obtain rfl := Option.some.inj h
    exact .inr (.inl (by simp))
  | storeDead | sweepStore | markClosed =>
    obtain ⟨-, h⟩ := Option.ite_none_right_eq_some.mp h
    obtain rfl := Option.some.inj h
    exact .inl rfl
  | notifyStop =>
    obtain ⟨-, h⟩ := Option.ite_none_right_eq_some.mp h
    obtain rfl := Option.some.inj h
    refine .inr (.inl ?_)
    show s.side.behindStop ≠ .reading
    cases s.side <;> simp [Side.behindStop]
  | recover =>
    obtain ⟨hj, h⟩ := Option.ite_none_right_eq_some.mp h
    obtain rfl := Option.some.inj h
    refine .inr (.inr ?_)
    simp only [joined, Bool.and_eq_true, decide_eq_true_eq] at hj
    simp [busy, hj.1.1]
  | sweepNotify =>
    obtain ⟨-, h⟩ := Option.ite_none_right_eq_some.mp h
    obtain rfl := Option.some.inj h
    exact hd

/-! ## The accounts -/

/-- The steps that lose a frame. -/
def leaks (s : Link) : Event → Bool
  | .writer e => s.writer.leaks e
  | _ => false

/-- No step of the run loses a frame. -/
def leakless (s : Link) : List Event → Bool
  | [] => true
  | e :: es => !s.leaks e && (s.step e).all fun s' => s'.leakless es

/-- Every frame the queue accepted was written, is reported as lost, or is still held by the writer. -/
structure Accounted (s : Link) : Prop where
  ordered : s.writer.Ordered
  frames : s.writer.chan.log = s.writer.accounted

theorem step_accounted (hs : s.Accounted) (hl : s.leaks e = false) (h : s.step e = some s') : s'.Accounted := by
  have hsame : ∀ v : Link, v.writer.chan = s.writer.chan → v.writer.pc = s.writer.pc →
      v.writer.written = s.writer.written → v.writer.lostFrames = s.writer.lostFrames → v.Accounted := by
    intro v hch hpc hwr hlo
    refine ⟨⟨?_, ?_⟩, ?_⟩
    · rw [hpc, hch]
      exact hs.ordered.closed
    · rw [hpc, hlo]
      exact hs.ordered.clean
    · have hheld : v.writer.held = s.writer.held := by simp only [Writer.held, hpc, hch]
      rw [Writer.accounted, hch, hwr, hlo, hheld]
      exact hs.frames
  cases e with
  | writer ev =>
    simp only [step] at h
    split_ifs at h with hne
    obtain ⟨w, hw, rfl⟩ := Option.map_eq_some_iff.mp h
    exact ⟨Writer.step_ordered hs.ordered hw, Writer.step_accounted hs.ordered hw hl hs.frames⟩
  | readFrame =>
    obtain ⟨-, h⟩ := Option.ite_none_right_eq_some.mp h
    obtain rfl := Option.some.inj h
    exact hs
  | readEnds | writerDied | storeDead | notifyStop | recover | sweepStore | sweepNotify | markClosed =>
    obtain ⟨-, h⟩ := Option.ite_none_right_eq_some.mp h
    obtain rfl := Option.some.inj h
    exact hsame _ rfl rfl rfl rfl

theorem run_accounted (hs : s.Accounted) (hl : s.leakless es = true) (h : s.run es = some s') : s'.Accounted := by
  induction es generalizing s with
  | nil =>
    obtain rfl := Option.some.inj h
    exact hs
  | cons e es ih =>
    obtain ⟨x, hx, hr⟩ := Machine.run_cons h
    obtain ⟨hle, hrest⟩ := Bool.and_eq_true_iff.mp hl
    rw [hx] at hrest
    exact ih (step_accounted hs ((Bool.not_eq_true' _).mp hle) hx) hrest hr

/-! ## Whole lives -/

/-- **A dying link ends, and hands over what it could not write.**  Once a task has left a link or marked it dead,
whatever the order of the steps so far: unless it is over, one of its tasks can make a step without the peer; in any
further run they make at most `3 n + 12` such steps for the `n` frames queued, and three for each frame that still
joins the queue; and it stays dying.  When it is over it is marked dead, and if no step lost a frame, those it
accepted were written or are handed over for recovery, each exactly once. -/
theorem link_ends {side : Side} {es : List Event} {s : Link} (h : (new side).run es = some s) (hd : s.Dying) :
    (s.Over ∨ ∃ e, Event.own e = true ∧ (s.step e).isSome = true) ∧
    (∀ es' s', s.run es' = some s' → s'.Dying ∧
      es'.countP Event.own ≤ 3 * s.writer.chan.queue.length + 12 + 3 * es'.countP Event.joins) ∧
    (s.Over → s.alive = false ∧ ((new side).leakless es = true →
      ∃ lost, s.recovered = some lost ∧ Interleaved s.writer.written lost s.writer.chan.log)) := by
  have hs : s.Signalled := Machine.run_inv Signalled h (new_signalled side) fun _ _ _ => step_signalled
  refine ⟨progress hs hd, fun es' s' h' => ?_, fun ho => ⟨hs.dead (.inr (.inr ho.1)), fun hl => ?_⟩⟩
  · obtain ⟨hd', hle⟩ := Machine.run_cost Dying fuel (fun e => if Event.own e then 1 else 0)
      (fun e => if Event.joins e then 3 else 0) h' hd
      fun x y e hx hxy => ⟨step_dying hx hxy, fuel_step hxy⟩
    rw [Machine.sum_ite, Machine.sum_ite, one_mul] at hle
    have := fuel_le s
    exact ⟨hd', by omega⟩
  · obtain ⟨-, hdone, hrec⟩ := ho
    have hacc := run_accounted ⟨Writer.new_ordered, rfl⟩ hl h
    refine ⟨_, hrec, ?_⟩
    have hheld : s.writer.accounted = s.writer.written ++ s.writer.lostFrames := by
      simp [Writer.accounted, Writer.held, hdone]
    rw [hacc.frames, hheld]
    exact Interleaved.append _ _

/-- The heartbeat recycles a silent link with a frame in its queue. -/
def sweptRun : List Event :=
  [.writer (.enqueue (.rst 1)), .sweepStore, .sweepNotify, .writer .stopped, .writer .tryRecv, .writer .tryRecv,
    .writerDied, .storeDead, .writer .shutdownDone, .notifyStop, .recover]

theorem link_ends_swept :
    ∃ s, (new .splitter).run sweptRun = some s ∧ s.Over ∧ s.alive = false ∧
      ∃ lost, s.recovered = some lost ∧ Interleaved s.writer.written lost s.writer.chan.log ∧ lost = [.rst 1] := by
  have hrun : ∃ s, (new .splitter).run sweptRun = some s ∧ s.Over ∧ s.recovered = some [.rst 1] :=
    ⟨_, rfl, by decide, rfl⟩
  obtain ⟨s, hs, ho, hr⟩ := hrun
  obtain ⟨-, -, hover⟩ := link_ends hs (.inr (.inl (by rw [ho.1]; decide)))
  obtain ⟨ha, hacc⟩ := hover ho
  obtain ⟨lost, hlost, hi⟩ := hacc (by decide)
  exact ⟨s, hs, ho, ha, lost, hlost, hi, Option.some.inj (hlost.symm.trans hr)⟩

end Link

end RoundRobin.Tunnel
