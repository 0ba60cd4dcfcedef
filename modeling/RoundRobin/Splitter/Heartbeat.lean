import Mathlib.Logic.Relation
import RoundRobin.Lib.Sweep
import RoundRobin.Splitter.Client
import RoundRobin.Splitter.ConnIds

/-!
# RoundRobin.Splitter.Heartbeat — the splitter with its clock

The heartbeat of `run_splitter` next to the handlers: it sleeps, then goes through `time_wait` and `conns`, one entry
after the other, while frames, client handlers and resets go on.  A handler is one step here, as in
`RoundRobin.Splitter.State`; so is a visit, for which the source holds the lock of the entry.

What a whole sweep left behind is `Spared` at the time it began, and what it takes was silent or had lost its
handler (`splitter_rounds`).
-/

namespace RoundRobin.Splitter

open Relation

/-- `UDP_IDLE_TIMEOUT`. -/
def udpIdleTimeoutSecs : ℕ := 60

/-- What the heartbeat reads beside the flags.  `lostAt` and `finAt` are history variables: when the handler went,
and when the last FIN came. -/
structure Stamp where
  /-- `last_active`. -/
  active : ℕ
  /-- The handler still has the connection. -/
  handled : Bool
  lostAt : ℕ
  finAt : ℕ

/-- The seconds a connection was silent. -/
def Stamp.idleSecs (st : Stamp) (now : ℕ) : ℕ := (now - st.active) / 1000

/-- What the closure of `conns.retain` decides. -/
inductive Verdict where
  | keep
  /-- Only `conns` holds the connection. -/
  | orphan
  | close
  deriving DecidableEq

def verdict (now : ℕ) (vc : VirtConn) (st : Stamp) : Verdict :=
  if !st.handled then .orphan
  else if vc.finReceived then
    if vc.graceWaiting then .keep
    else if finSweepDecision (vc.reorder.isCompleteThrough vc.finSeq) (st.idleSecs now) st.handled then .close
    else .keep
  else if st.idleSecs now > (if vc.isUdp then udpIdleTimeoutSecs else tcpIdleTimeoutSecs) then .close
  else .keep

/-- What the closure does to a connection it takes. -/
def State.sweep (s : State) (c : ConnId) (v : ℕ) (vc : VirtConn) : State :=
  { (s.setConn v vc).send (.rst c) with
    timeWait := Function.update s.timeWait c (some s.now)
    conns := Function.update s.conns c none }

/-! ## The heartbeat -/

/-- What the round has to do; a list holds the keys it has to look at. -/
inductive BeatPc where
  | asleep
  | timeWait (todo : List ConnId)
  | conns (todo : List ConnId)
  deriving DecidableEq

/-- `began` is the `now` of the sweep that runs, the other two are history variables: the `now` of the last whole
sweep of each map. -/
structure Beat where
  pc : BeatPc
  wake : ℕ
  began : ℕ
  lastTimeWait : ℕ
  lastConns : ℕ

inductive BeatStep (interval : ℕ) (s : State) (stamps : ℕ → Stamp) (b : Beat) : State → Beat → Prop where
  | begin (todo : List ConnId) : b.pc = .asleep → b.wake ≤ s.now → (∀ c, (s.timeWait c).isSome → c ∈ todo) →
      BeatStep interval s stamps b s { b with pc := .timeWait todo, began := s.now }
  | young (c : ConnId) (todo : List ConnId) : b.pc = .timeWait (c :: todo) →
      (∀ since, s.timeWait c = some since → b.began - since < timeWaitTtl) →
      BeatStep interval s stamps b s { b with pc := .timeWait todo }
  | expired (c : ConnId) (since : ℕ) (todo : List ConnId) : b.pc = .timeWait (c :: todo) →
      s.timeWait c = some since → ¬ b.began - since < timeWaitTtl →
      BeatStep interval s stamps b { s with timeWait := Function.update s.timeWait c none }
        { b with pc := .timeWait todo }
  | turn (todo : List ConnId) : b.pc = .timeWait [] → (∀ c, (s.conns c).isSome → c ∈ todo) →
      BeatStep interval s stamps b s { b with pc := .conns todo, lastTimeWait := b.began, began := s.now }
  | keep (c : ConnId) (todo : List ConnId) : b.pc = .conns (c :: todo) →
      (∀ v, s.conns c = some v → verdict b.began (s.heap v) (stamps v) = .keep) →
      BeatStep interval s stamps b s { b with pc := .conns todo }
  | orphan (c : ConnId) (v : ℕ) (todo : List ConnId) : b.pc = .conns (c :: todo) → s.conns c = some v →
      verdict b.began (s.heap v) (stamps v) = .orphan →
      BeatStep interval s stamps b (s.sweep c v { s.heap v with rst := true }) { b with pc := .conns todo }
  | close (c : ConnId) (v : ℕ) (todo : List ConnId) : b.pc = .conns (c :: todo) → s.conns c = some v →
      verdict b.began (s.heap v) (stamps v) = .close →
      BeatStep interval s stamps b (s.sweep c v (s.heap v).markReset) { b with pc := .conns todo }
  | finish : b.pc = .conns [] →
      BeatStep interval s stamps b s { b with pc := .asleep, lastConns := b.began, wake := s.now + interval }

/-! ## The system -/

/-- The stamps after a frame from a tunnel: DATA that is taken counts as activity, on UDP also when it is dropped. -/
def stampFrame (s : State) (stamps : ℕ → Stamp) (f : Frame) : ℕ → Stamp :=
  match s.conns f.connId with
  | none => stamps
  | some v =>
    if f.has flagData then
      if (s.heap v).isUdp || ((s.heap v).reorder.push f.seq.toNat f.payload).2.accepted then
        Function.update stamps v { stamps v with active := s.now }
      else stamps
    else if f.has flagFin && !(s.heap v).isUdp then
      Function.update stamps v { stamps v with finAt := s.now }
    else stamps

/-- The handler of the connection at `v` is gone. -/
def dropHandle (now : ℕ) (stamps : ℕ → Stamp) (v : ℕ) : ℕ → Stamp :=
  Function.update stamps v { stamps v with handled := false, lostAt := now }

/-- What the others do; `n` is the next handle. -/
inductive Other (s : State) (stamps : ℕ → Stamp) (n : ℕ) : State → (ℕ → Stamp) → ℕ → Prop where
  | tick (d : ℕ) : Other s stamps n { s with now := s.now + d } stamps n
  | frame (con : Consumer) (f : Frame) : Other s stamps n (s.handleInboundFrame con f) (stampFrame s stamps f) n
  | insert (c : ConnId) (window : ℕ) (isUdp : Bool) :
      Other s stamps n (s.register c n (VirtConn.new window isUdp))
        (Function.update stamps n ⟨s.now, true, 0, 0⟩) (n + 1)
  /-- A tunnel took a chunk or a datagram of the client. -/
  | sent (v : ℕ) : Other s stamps n s (Function.update stamps v { stamps v with active := s.now }) n
  /-- The client's writer or the relay takes from the channel. -/
  | consume (v : ℕ) (chan : Chan Bytes) :
      Other s stamps n (s.setConn v { s.heap v with toClientTx := chan }) stamps n
  /-- The handler takes the permit of `notify`. -/
  | woken (v : ℕ) : Other s stamps n (s.setConn v { s.heap v with notify := false }) stamps n
  | graceStart (v : ℕ) : Other s stamps n (s.setConn v { s.heap v with graceWaiting := true }) stamps n
  /-- The handler ends behind `time_wait.insert` and `remove_if`. -/
  | leave (c : ConnId) (v : ℕ) :
      Other s stamps n { s with
        timeWait := Function.update s.timeWait c (some s.now)
        conns := if s.conns c = some v then Function.update s.conns c none else s.conns }
        (dropHandle s.now stamps v) n
  /-- No tunnel took the SYN; the UDP handler does not look whose entry it removes. -/
  | refuse (c : ConnId) (v : ℕ) : s.conns c = some v ∨ (s.heap v).isUdp = true →
      Other s stamps n { s with conns := Function.update s.conns c none } (dropHandle s.now stamps v) n
  /-- The handler ends without its teardown. -/
  | abandon (v : ℕ) : Other s stamps n s (dropHandle s.now stamps v) n
  /-- A tunnel died with DATA of the connection. -/
  | lost (c : ConnId) : (s.conns c).isSome → Other s stamps n (s.resetConn c) stamps n

structure Clocked where
  state : State
  stamps : ℕ → Stamp
  nextHandle : ℕ
  beat : Beat

def Clocked.init (interval : ℕ) : Clocked := ⟨.init, fun _ => ⟨0, false, 0, 0⟩, 0, ⟨.asleep, interval, 0, 0, 0⟩⟩

inductive ClockStep (interval : ℕ) : Clocked → Clocked → Prop where
  | other {s s' : State} {stamps stamps' : ℕ → Stamp} {n n' : ℕ} {b : Beat} : Other s stamps n s' stamps' n' →
      ClockStep interval ⟨s, stamps, n, b⟩ ⟨s', stamps', n', b⟩
  | beat {s s' : State} {stamps : ℕ → Stamp} {n : ℕ} {b b' : Beat} : BeatStep interval s stamps b s' b' →
      ClockStep interval ⟨s, stamps, n, b⟩ ⟨s', stamps, n, b'⟩

def ClockRuns (interval : ℕ) (x y : Clocked) : Prop := ReflTransGen (ClockStep interval) x y

/-! ## What is spared -/

/-- What a sweep at `t` leaves: the handler was there; unless it waits for the end of the response, the connection
was not silent for longer than its limit, nor for 30 seconds behind a complete response. -/
structure Spared (t : ℕ) (vc : VirtConn) (st : Stamp) : Prop where
  handler : st.handled = true ∨ t ≤ st.lostAt
  idle : (vc.finReceived = true ∧ vc.graceWaiting = true) ∨
    st.idleSecs t ≤ (if vc.isUdp && !vc.finReceived then udpIdleTimeoutSecs else tcpIdleTimeoutSecs)
  complete : vc.finReceived = true → vc.graceWaiting = false →
    vc.reorder.isCompleteThrough vc.finSeq = true → t ≤ st.finAt ∨ st.idleSecs t ≤ finCompleteIdleSecs

theorem finSweepDecision_alive {complete : Bool} {secs : ℕ} :
    finSweepDecision complete secs true = false ↔
      secs ≤ tcpIdleTimeoutSecs ∧ (complete = true → secs ≤ finCompleteIdleSecs) := by
  simp only [finSweepDecision, if_true]
  split_ifs with h
  · exact ⟨nofun, fun hle => absurd h (not_lt.mpr hle.1)⟩
  · cases complete with
    | true => simpa using fun _ => not_lt.mp h
    | false => simpa using not_lt.mp h

section Spared

variable {now t : ℕ} {vc vc' : VirtConn} {st : Stamp}

/-- What is kept is spared. -/
theorem spared_of_keep (h : verdict t vc st = .keep) : Spared t vc st := by
  unfold verdict at h
  split_ifs at h with h1 h2 h3 h4 hu hidle hidle
  · exact ⟨.inl (by simpa using h1), .inl ⟨h2, h3⟩, fun _ hg => absurd h3 (by simp [hg])⟩
  · have hhandled : st.handled = true := by simpa using h1
    rw [hhandled] at h4
    obtain ⟨hidle, hquiet⟩ := finSweepDecision_alive.mp (by simpa using h4)
    refine ⟨.inl hhandled, .inr ?_, fun _ _ hc => .inr (hquiet hc)⟩
    rw [h2, Bool.not_true, Bool.and_false]
    exact hidle
  · refine ⟨.inl (by simpa using h1), .inr ?_, fun hfin => absurd hfin h2⟩
    rw [Bool.eq_false_iff.mpr h2, Bool.not_false, Bool.and_true, if_pos hu]
    exact not_lt.mp hidle
  · refine ⟨.inl (by simpa using h1), .inr ?_, fun hfin => absurd hfin h2⟩
    rw [Bool.eq_false_iff.mpr h2, Bool.not_false, Bool.and_true, if_neg hu]
    exact not_lt.mp hidle

theorem idleSecs_active (st : Stamp) (ht : t ≤ now) : ({ st with active := now } : Stamp).idleSecs t = 0 := by
  rw [Stamp.idleSecs, Nat.sub_eq_zero_of_le ht, Nat.zero_div]

/-- Activity spares a connection, whatever else it does to it. -/
theorem Spared.active (h : Spared t vc st) (ht : t ≤ now) (vc' : VirtConn) :
    Spared t vc' { st with active := now } := by
  refine ⟨h.handler, .inr ?_, fun _ _ _ => .inr ?_⟩
  · rw [idleSecs_active st ht]
    exact Nat.zero_le _
  · rw [idleSecs_active st ht]
    exact Nat.zero_le _

/-- The fields the heartbeat reads. -/
theorem Spared.congr (h : Spared t vc st) (hu : vc'.isUdp = vc.isUdp) (hf : vc'.finReceived = vc.finReceived)
    (hg : vc'.graceWaiting = vc.graceWaiting) (hr : vc'.reorder = vc.reorder) (hs : vc'.finSeq = vc.finSeq) :
    Spared t vc' st := by
  refine ⟨h.handler, ?_, ?_⟩
  · rw [hu, hf, hg]
    exact h.idle
  · rw [hf, hg, hr, hs]
    exact h.complete

theorem Spared.fin (h : Spared t vc st) (ht : t ≤ now) (hu : vc.isUdp = false) (seq : ℕ) :
    Spared t { vc with finReceived := true, finSeq := seq, notify := true } { st with finAt := now } := by
  refine ⟨h.handler, ?_, fun _ _ _ => .inl ht⟩
  rcases h.idle with ⟨-, hg⟩ | hidle
  · exact .inl ⟨rfl, hg⟩
  · rw [hu, Bool.false_and] at hidle
    refine .inr ?_
    rw [Bool.not_true, Bool.and_false]
    exact hidle

theorem Spared.grace (h : Spared t vc st) : Spared t { vc with graceWaiting := true } st := by
  refine ⟨h.handler, ?_, fun _ hg => by cases hg⟩
  rcases h.idle with ⟨hf, -⟩ | hidle
  · exact .inl ⟨hf, rfl⟩
  · exact .inr hidle

theorem Spared.drop (h : Spared t vc st) (ht : t ≤ now) : Spared t vc { st with handled := false, lostAt := now } :=
  ⟨.inr ht, h.idle, h.complete⟩

theorem spared_new (ht : t ≤ now) (vc : VirtConn) : Spared t vc ⟨now, true, 0, 0⟩ := by
  have hgrace : Spared t { vc with finReceived := true, graceWaiting := true } ⟨now, true, 0, 0⟩ :=
    ⟨.inl rfl, .inl ⟨rfl, rfl⟩, fun _ hg => by cases hg⟩
  exact hgrace.active ht vc

end Spared

/-! ## What the others write -/

/-- What the heartbeat sees of a step of the others. -/
structure Later (s : State) (stamps : ℕ → Stamp) (s' : State) (stamps' : ℕ → Stamp) : Prop where
  now : s.now ≤ s'.now
  timeWait : ∀ c, s'.timeWait c = s.timeWait c ∨ s'.timeWait c = some s.now
  conns : ∀ c v, s'.conns c = some v → s.conns c = some v ∨ ∀ t ≤ s.now, Spared t (s'.heap v) (stamps' v)
  aged : ∀ v, ∀ t ≤ s.now, Spared t (s.heap v) (stamps v) → Spared t (s'.heap v) (stamps' v)

section Later

variable {s s' : State} {stamps stamps' : ℕ → Stamp} {n n' : ℕ}

theorem later_rfl : Later s stamps s stamps := ⟨le_rfl, fun _ => .inl rfl, fun _ _ h => .inl h, fun _ _ _ h => h⟩

/-- One connection changes. -/
theorem later_at {v : ℕ} {vc : VirtConn} {st : Stamp}
    (h : ∀ t ≤ s.now, Spared t (s.heap v) (stamps v) → Spared t vc st) :
    Later s stamps (s.setConn v vc) (Function.update stamps v st) := by
  refine ⟨le_rfl, fun _ => .inl rfl, fun _ _ h => .inl h, fun w t ht hw => ?_⟩
  by_cases hwv : w = v
  · subst hwv
    show Spared t (Function.update s.heap w vc w) (Function.update stamps w st w)
    rw [Function.update_self, Function.update_self]
    exact h t ht hw
  · show Spared t (Function.update s.heap v vc w) (Function.update stamps v st w)
    rwa [Function.update_of_ne hwv, Function.update_of_ne hwv]

theorem later_setConn {v : ℕ} {vc : VirtConn}
    (h : ∀ t ≤ s.now, Spared t (s.heap v) (stamps v) → Spared t vc (stamps v)) :
    Later s stamps (s.setConn v vc) stamps := by
  have hl := @later_at s stamps v vc (stamps v) h
  rwa [Function.update_eq_self] at hl

theorem later_stamp {v : ℕ} {st : Stamp}
    (h : ∀ t ≤ s.now, Spared t (s.heap v) (stamps v) → Spared t (s.heap v) st) :
    Later s stamps s (Function.update stamps v st) := by
  have hl := @later_at s stamps v (s.heap v) st h
  rwa [State.setConn, Function.update_eq_self] at hl

theorem later_resetConn (s : State) (stamps : ℕ → Stamp) (c : ConnId) :
    Later s stamps (s.resetConn c) stamps := by
  refine ⟨?_, fun c' => ?_, fun c' v hv => ?_, fun v t _ hv => ?_⟩
  · unfold State.resetConn
    cases hc : s.conns c <;> simp [State.send, State.setConn, hc]
  · rw [State.resetConn_timeWait]
    split_ifs
    · exact .inr rfl
    · exact .inl rfl
  · rw [State.resetConn_conns] at hv
    split_ifs at hv
    exact .inl hv
  · unfold State.resetConn
    cases hc : s.conns c with
    | none => simpa [State.send, hc] using hv
    | some w =>
      by_cases hwv : v = w
      · subst hwv
        have hmark : Spared t (s.heap v).markReset (stamps v) := hv.congr rfl rfl rfl rfl rfl
        simpa [State.send, State.setConn, hc] using hmark
      · simpa [State.send, State.setConn, hc, Function.update_of_ne hwv] using hv

theorem Later.trans {s'' : State} {stamps'' : ℕ → Stamp} (h : Later s stamps s' stamps')
    (h' : Later s' stamps' s'' stamps'') (hnow : s'.now = s.now) : Later s stamps s'' stamps'' := by
  obtain ⟨hn, htw, hc, ha⟩ := h'
  rw [hnow] at hn htw hc ha
  refine ⟨hn, fun c => ?_, fun c v hv => ?_, fun v t ht hv => ha v t ht (h.aged v t ht hv)⟩
  · rcases htw c with hc | hc
    · rcases h.timeWait c with hc' | hc'
      · exact .inl (hc.trans hc')
      · exact .inr (hc.trans hc')
    · exact .inr hc
  · rcases hc c v hv with hv | hv
    · exact (h.conns c v hv).imp_right fun hsp t ht => ha v t ht (hsp t ht)
    · exact .inr hv

theorem later_frame (con : Consumer) (f : Frame) :
    Later s stamps (s.handleInboundFrame con f) (stampFrame s stamps f) := by
  unfold State.handleInboundFrame stampFrame
  by_cases hd : f.has flagData = true
  · simp only [hd, if_true]
    cases hc : s.conns f.connId with
    | none => exact ⟨le_rfl, fun _ => .inl rfl, fun _ _ h => .inl h, fun _ _ _ h => h⟩
    | some v =>
      by_cases hu : (s.heap v).isUdp = true
      · simp only [hu, if_true, Bool.true_or]
        exact later_at fun t ht h => h.active ht _
      · simp only [hu, Bool.false_eq_true, if_false, Bool.false_or]
        have htake : Later s stamps (s.setConn v ((s.heap v).onFrame con f.seq.toNat f.payload).1)
            (if ((s.heap v).reorder.push f.seq.toNat f.payload).2.accepted then
              Function.update stamps v { stamps v with active := s.now } else stamps) := by
          split_ifs with hacc
          · exact later_at fun t ht h => h.active ht _
          · have hsame : ((s.heap v).onFrame con f.seq.toNat f.payload).1 = s.heap v := by
              have hf := Bool.eq_false_iff.mpr hacc
              simp only [VirtConn.onFrame, hf, Bool.not_false, if_true, ReorderBuf.push_refused hf]
            rw [hsame]
            exact later_setConn fun _ _ h => h
        by_cases hreset : ((s.heap v).onFrame con f.seq.toNat f.payload).2 = true
        · rw [if_pos hreset]
          exact htake.trans (later_resetConn _ _ _) rfl
        · rw [if_neg hreset]
          exact htake
  · simp only [hd, Bool.false_eq_true, if_false]
    by_cases hf : f.has flagFin = true
    · simp only [hf, if_true, Bool.true_and]
      cases hc : s.conns f.connId with
      | none => exact later_rfl
      | some v =>
        by_cases hu : (s.heap v).isUdp = true
        · simp only [hu, if_true, Bool.not_true, Bool.false_eq_true, if_false]
          exact later_rfl
        · have hu' := Bool.eq_false_iff.mpr hu
          simp only [hu', Bool.false_eq_true, if_false, Bool.not_false, if_true]
          refine later_at fun t ht h => ?_
          have hfin := h.fin ht hu' f.seq.toNat
          rwa [hu'] at hfin
    · simp only [hf, Bool.false_eq_true, if_false, Bool.false_and]
      have hstamps : (match s.conns f.connId with | none => stamps | some v => stamps) = stamps := by
        cases s.conns f.connId <;> rfl
      rw [hstamps]
      split_ifs
      · exact later_resetConn s stamps f.connId
      · exact later_rfl

theorem later_drop (v : ℕ) : Later s stamps s (dropHandle s.now stamps v) :=
  later_stamp fun _ ht h => h.drop ht

theorem other_later (h : Other s stamps n s' stamps' n') : Later s stamps s' stamps' := by
  cases h with
  | tick d => exact ⟨Nat.le_add_right _ _, fun _ => .inl rfl, fun _ _ h => .inl h, fun _ _ _ h => h⟩
  | frame con f => exact later_frame con f
  | insert c window isUdp =>
    have hnew : ∀ t ≤ s.now, Spared t (VirtConn.new window isUdp) ⟨s.now, true, 0, 0⟩ := fun t ht => spared_new ht _
    have hl := @later_at s stamps n (VirtConn.new window isUdp) ⟨s.now, true, 0, 0⟩ fun t ht _ => hnew t ht
    refine ⟨le_rfl, fun _ => .inl rfl, fun c' v hv => ?_, hl.aged⟩
    by_cases hc : c' = c
    · subst hc
      obtain rfl : n = v := by simpa [State.register] using hv
      refine .inr fun t ht => ?_
      show Spared t (Function.update s.heap n (VirtConn.new window isUdp) n) (Function.update stamps n _ n)
      rw [Function.update_self, Function.update_self]
      exact hnew t ht
    · exact .inl (by simpa [State.register, hc] using hv)
  | sent v => exact later_stamp fun t ht h => h.active ht _
  | consume v chan => exact later_setConn fun t _ h => h.congr rfl rfl rfl rfl rfl
  | woken v => exact later_setConn fun t _ h => h.congr rfl rfl rfl rfl rfl
  | graceStart v => exact later_setConn fun t _ h => h.grace
  | leave c v =>
    obtain ⟨-, -, -, haged⟩ := @later_drop s stamps v
    refine ⟨le_rfl, fun c' => ?_, fun c' w hw => .inl ?_, haged⟩
    · by_cases hc : c' = c
      · exact .inr (by simp [hc])
      · exact .inl (by simp [hc])
    · simp only at hw
      split_ifs at hw
      · by_cases hc : c' = c
        · simp [hc] at hw
        · simpa [hc] using hw
      · exact hw
  | refuse c v hv =>
    obtain ⟨-, -, -, haged⟩ := @later_drop s stamps v
    refine ⟨le_rfl, fun c' => .inl rfl, fun c' w hw => .inl ?_, haged⟩
    by_cases hc : c' = c
    · simp [hc] at hw
    · simpa [hc] using hw
  | abandon v => exact later_drop v
  | lost c hc => exact later_resetConn s stamps c

end Later

/-! ## Rounds -/

namespace BeatPc

/-- The keys the sweep of `time_wait` has behind it. -/
def timeWaitDone : BeatPc → ConnId → Prop
  | timeWait todo, c => c ∉ todo
  | _, _ => False

def connsDone : BeatPc → ConnId → Prop
  | conns todo, c => c ∉ todo
  | _, _ => False

end BeatPc

/-- The entries of `conns` with what the heartbeat reads of them. -/
def State.entries (s : State) (stamps : ℕ → Stamp) (c : ConnId) : Option (VirtConn × Stamp) :=
  (s.conns c).map fun v => (s.heap v, stamps v)

/-- A TIME_WAIT entry is within its time. -/
def Fresh (now since : ℕ) : Prop := now - since < timeWaitTtl

/-- An entry of `conns` is spared. -/
def Served (t : ℕ) (x : VirtConn × Stamp) : Prop := Spared t x.1 x.2

/-- Where the round is, and what it has left. -/
structure Rounds (s : State) (stamps : ℕ → Stamp) (b : Beat) : Prop where
  order : b.lastTimeWait ≤ s.now ∧ b.lastConns ≤ s.now ∧ b.began ≤ s.now
  timeWait : Swept Fresh s.timeWait b.lastTimeWait b.began b.pc.timeWaitDone
  conns : Swept Served (s.entries stamps) b.lastConns b.began b.pc.connsDone

section Rounds

variable {s s' : State} {stamps stamps' : ℕ → Stamp} {b b' : Beat} {interval last began : ℕ}
  {done done' : ConnId → Prop}

theorem fresh_now {now t : ℕ} (ht : t ≤ now) : Fresh t now := by
  rw [Fresh, Nat.sub_eq_zero_of_le ht]
  decide

theorem Later.timeWait_swept (h : Later s stamps s' stamps') (hs : Swept Fresh s.timeWait last began done)
    (hle : last ≤ s.now ∧ began ≤ s.now) : Swept Fresh s'.timeWait last began done := by
  refine hs.others hle fun c t ht => ?_
  rcases h.timeWait c with hc | hc
  · exact .inl ⟨t, hc ▸ ht, fun _ _ => id⟩
  · obtain rfl : s.now = t := Option.some.inj (hc.symm.trans ht)
    exact .inr fun t' ht' => fresh_now ht'

theorem Later.conns_swept (h : Later s stamps s' stamps') (hs : Swept Served (s.entries stamps) last began done)
    (hle : last ≤ s.now ∧ began ≤ s.now) : Swept Served (s'.entries stamps') last began done := by
  refine hs.others hle fun c x hx => ?_
  obtain ⟨v, hv, rfl⟩ := Option.map_eq_some_iff.mp hx
  rcases h.conns c v hv with hc | hnew
  · exact .inl ⟨(s.heap v, stamps v), Option.map_eq_some_iff.mpr ⟨v, hc, rfl⟩, h.aged v⟩
  · exact .inr hnew

/-- The entry a visit takes. -/
theorem entries_sweep (s : State) (stamps : ℕ → Stamp) (c : ConnId) (v : ℕ) (vc : VirtConn) :
    (s.sweep c v vc).entries stamps = Function.update ((s.setConn v vc).entries stamps) c none := by
  funext c'
  by_cases hc : c' = c
  · simp [State.entries, State.sweep, hc]
  · simp [State.entries, State.sweep, State.send, State.setConn, hc]

theorem timeWait_sweep (hs : Swept Fresh s.timeWait last began done) (hle : last ≤ s.now ∧ began ≤ s.now)
    (c : ConnId) (v : ℕ) (vc : VirtConn) : Swept Fresh (s.sweep c v vc).timeWait last began done := by
  refine hs.others hle fun c' t ht => ?_
  by_cases hc : c' = c
  · obtain rfl : s.now = t := by simpa [State.sweep, hc] using ht
    exact .inr fun t' ht' => fresh_now ht'
  · exact .inl ⟨t, by simpa [State.sweep, hc] using ht, fun _ _ => id⟩

theorem not_mem_cons_or {c x : ConnId} {todo : List ConnId} (h : c ∉ todo) : c ∉ x :: todo ∨ c = x := by
  by_cases hc : c = x
  · exact .inr hc
  · exact .inl fun hmem => (List.mem_cons.mp hmem).elim hc h

theorem Rounds.later (hr : Rounds s stamps b) (h : Later s stamps s' stamps') : Rounds s' stamps' b := by
  obtain ⟨⟨ht, hc, hb⟩, htw, hconns⟩ := hr
  exact ⟨⟨ht.trans h.now, hc.trans h.now, hb.trans h.now⟩, h.timeWait_swept htw ⟨ht, hb⟩,
    h.conns_swept hconns ⟨hc, hb⟩⟩

/-- A visit takes the connection of `c`. -/
theorem Rounds.take (hr : Rounds s stamps b) {c : ConnId} {v : ℕ} {todo : List ConnId} {vc : VirtConn}
    (hpc : b.pc = .conns (c :: todo))
    (hvc : ∀ t ≤ s.now, Spared t (s.heap v) (stamps v) → Spared t vc (stamps v)) :
    Rounds (s.sweep c v vc) stamps { b with pc := .conns todo } := by
  obtain ⟨⟨ht, hc, hb⟩, htw, hconns⟩ := hr
  rw [hpc] at htw hconns
  refine ⟨⟨ht, hc, hb⟩, timeWait_sweep htw ⟨ht, hb⟩ c v vc, ?_⟩
  rw [entries_sweep]
  exact ((later_setConn hvc).conns_swept hconns ⟨hc, hb⟩).remove fun k hk => not_mem_cons_or hk

theorem Rounds.beat (hr : Rounds s stamps b) (h : BeatStep interval s stamps b s' b') : Rounds s' stamps b' := by
  obtain ⟨⟨ht, hc, hb⟩, htw, hconns⟩ := hr
  cases h with
  | begin todo hpc hwake hall =>
    rw [hpc] at htw hconns
    refine ⟨⟨ht, hc, le_rfl⟩, htw.start s.now fun c since hsince hno => ?_, hconns.start s.now fun _ _ _ h => h⟩
    exact hno (hall c (Option.isSome_iff_exists.mpr ⟨since, hsince⟩))
  | young c todo hpc hyoung =>
    rw [hpc] at htw hconns
    exact ⟨⟨ht, hc, hb⟩, htw.keep (c := c) hyoung fun k hk => not_mem_cons_or hk, hconns⟩
  | expired c since todo hpc hsince hold =>
    rw [hpc] at htw hconns
    exact ⟨⟨ht, hc, hb⟩, htw.remove fun k hk => not_mem_cons_or hk, hconns⟩
  | turn todo hpc hall =>
    rw [hpc] at htw hconns
    refine ⟨⟨hb, hc, le_rfl⟩, (htw.finish (fun _ _ _ => List.not_mem_nil)
      (fun _ h => h : ∀ _, ¬ False)).start s.now fun _ _ _ h => h, hconns.start s.now fun c x hx hno => ?_⟩
    obtain ⟨v, hv, -⟩ := Option.map_eq_some_iff.mp hx
    exact hno (hall c (Option.isSome_iff_exists.mpr ⟨v, hv⟩))
  | keep c todo hpc hkeep =>
    rw [hpc] at htw hconns
    refine ⟨⟨ht, hc, hb⟩, htw, hconns.keep (c := c) (fun x hx => ?_) fun k hk => not_mem_cons_or hk⟩
    obtain ⟨v, hv, rfl⟩ := Option.map_eq_some_iff.mp hx
    exact spared_of_keep (hkeep v hv)
  | orphan c v todo hpc hv horphan =>
    exact Rounds.take ⟨⟨ht, hc, hb⟩, htw, hconns⟩ hpc fun t _ h => h.congr rfl rfl rfl rfl rfl
  | close c v todo hpc hv hclose =>
    exact Rounds.take ⟨⟨ht, hc, hb⟩, htw, hconns⟩ hpc fun t _ h => h.congr rfl rfl rfl rfl rfl
  | finish hpc =>
    rw [hpc] at htw hconns
    exact ⟨⟨ht, hb, hb⟩, htw, hconns.finish (fun _ _ _ => List.not_mem_nil) fun _ h => h⟩

theorem rounds_init (interval : ℕ) :
    Rounds (Clocked.init interval).state (Clocked.init interval).stamps (Clocked.init interval).beat :=
  ⟨⟨le_rfl, le_rfl, le_rfl⟩, .empty, .empty⟩

theorem ClockRuns.rounds {x y : Clocked} (h : ClockRuns interval x y) (hr : Rounds x.state x.stamps x.beat) :
    Rounds y.state y.stamps y.beat := by
  induction h with
  | refl => exact hr
  | tail _ hstep ih =>
    cases hstep with
    | other h => exact ih.later (other_later h)
    | beat h => exact ih.beat h

end Rounds

/-- What is closed was silent, and nobody waited for the end of its response. -/
theorem silent_of_close {t : ℕ} {vc : VirtConn} {st : Stamp} (h : verdict t vc st = .close) :
    finCompleteIdleSecs < st.idleSecs t ∧ ¬ (vc.finReceived = true ∧ vc.graceWaiting = true) := by
  unfold verdict at h
  split_ifs at h with h1 h2 h3 h4 hu hidle hidle
  · have hhandled : st.handled = true := by simpa using h1
    refine ⟨?_, fun hwait => h3 hwait.2⟩
    by_contra hle
    have hquiet := not_lt.mp hle
    have hkeep := finSweepDecision_alive.mpr ⟨hquiet.trans (by decide : 30 ≤ 300),
      fun _ : vc.reorder.isCompleteThrough vc.finSeq = true => hquiet⟩
    rw [hhandled, hkeep] at h4
    cases h4
  · exact ⟨lt_of_lt_of_le (by decide : 30 < 60) hidle.le, fun hwait => h2 hwait.1⟩
  · exact ⟨lt_of_lt_of_le (by decide : 30 < 300) hidle.le, fun hwait => h2 hwait.1⟩

theorem silent_of_orphan {t : ℕ} {vc : VirtConn} {st : Stamp} (h : verdict t vc st = .orphan) :
    st.handled = false := by
  unfold verdict at h
  split_ifs at h with h1
  simpa using h1

/-- **The rounds of the splitter.**  Whatever frames, handlers and resets do meanwhile: a TIME_WAIT entry that the
last whole sweep left was younger than 60 seconds when that sweep began, and a connection it left had a
handler and was not silent for longer than its limit.  What a visit takes is tombstoned; it had lost its handler, or
was silent for over 30 seconds and not waiting for the end of its response. -/
theorem splitter_rounds {interval : ℕ} {x : Clocked} (h : ClockRuns interval (.init interval) x) :
    (∀ c since, x.state.timeWait c = some since → x.beat.lastTimeWait - since < timeWaitTtl) ∧
    (∀ c v, x.state.conns c = some v → Spared x.beat.lastConns (x.state.heap v) (x.stamps v)) ∧
    ∀ s' b' c v, BeatStep interval x.state x.stamps x.beat s' b' → x.state.conns c = some v → s'.conns c = none →
      s'.timeWait c = some x.state.now ∧ ((x.stamps v).handled = false ∨
        finCompleteIdleSecs < (x.stamps v).idleSecs x.beat.began ∧
          ¬ ((x.state.heap v).finReceived = true ∧ (x.state.heap v).graceWaiting = true)) := by
  have hr := h.rounds (rounds_init interval)
  refine ⟨hr.timeWait.whole, fun c v hv => ?_, fun s' b' c v hbeat hv hnone => ?_⟩
  · exact hr.conns.whole c (x.state.heap v, x.stamps v) (Option.map_eq_some_iff.mpr ⟨v, hv, rfl⟩)
  · have hown {c' : ConnId} {v' : ℕ} {vc : VirtConn} (hv' : x.state.conns c' = some v')
        (hn : (x.state.sweep c' v' vc).conns c = none) :
        v' = v ∧ (x.state.sweep c' v' vc).timeWait c = some x.state.now := by
      by_cases hc : c = c'
      · subst hc
        exact ⟨Option.some.inj (hv'.symm.trans hv), by simp [State.sweep]⟩
      · simp [State.sweep, hc, hv] at hn
    cases hbeat with
    | orphan c' v' todo hpc hv' horphan =>
      obtain ⟨rfl, htw⟩ := hown hv' hnone
      exact ⟨htw, .inl (silent_of_orphan horphan)⟩
    | close c' v' todo hpc hv' hclose =>
      obtain ⟨rfl, htw⟩ := hown hv' hnone
      exact ⟨htw, .inr (silent_of_close hclose)⟩
    | _ => rw [hv] at hnone; cases hnone

/-- A connection that was silent for 301 seconds is visited. -/
theorem splitter_rounds_silent :
    ∃ x s' b', ClockRuns 60000 (.init 60000) x ∧ BeatStep 60000 x.state x.stamps x.beat s' b' ∧
      (x.state.conns 7).isSome ∧ s'.timeWait 7 = some 301000 := by
  have h0 : ClockRuns 60000 (.init 60000) (.init 60000) := .refl
  have h1 := h0.tail (.other (.insert 7 1024 false))
  have h2 := h1.tail (.other (.tick 301000))
  have h3 := h2.tail (.beat (.begin [] rfl (by decide) fun c hc => by cases hc))
  have hkeys : ∀ c, (Function.update (fun _ : ConnId => (none : Option ℕ)) 7 (some 0) c).isSome →
      c ∈ [(7 : ConnId)] := by
    intro c hc
    by_contra hne
    rw [Function.update_of_ne fun h => hne (List.mem_singleton.mpr h)] at hc
    cases hc
  have h4 := h3.tail (.beat (.turn [7] rfl hkeys))
  have hverdict : verdict 301000 (VirtConn.new 1024 false) ⟨0, true, 0, 0⟩ = .close := by decide
  refine ⟨_, _, _, h4, .close 7 0 [] rfl rfl hverdict, rfl, ?_⟩
  exact ((splitter_rounds h4).2.2 _ _ 7 0 (.close 7 0 [] rfl rfl hverdict) rfl rfl).1

end RoundRobin.Splitter
