import RoundRobin.Lib.Sweep
import RoundRobin.Reassembler.Effects

/-!
# RoundRobin.Reassembler.Heartbeat — the reassembler with its clock

The heartbeat of `run_reassembler` next to the tasks of `RoundRobin.Reassembler.Handlers`: it sleeps, then goes
through `conns`, `closed`, `handshaking` and `pending`, one entry after the other, while handlers, timers and egress
tasks go on.  There the sweeps may happen at any time and to any entry; here they happen when the source's do.

Both sides of the time limits are proved: what a whole round left behind is younger than its limit
(`heartbeat_rounds`), and a tombstone stays for all of its 60 seconds (`tombstone_lasts`).  The pool's own part of
the heartbeat is in `RoundRobin.Tunnel.Maintenance`.
-/

namespace RoundRobin.Reassembler

open Instr Relation

/-- `TCP_IDLE_TIMEOUT` and `UDP_IDLE_TIMEOUT`. -/
def tcpIdleTimeoutSecs : ℕ := 300
def udpIdleTimeoutSecs : ℕ := 60
/-- `CLOSED_TTL`. -/
def closedTtl : ℕ := 60 * 1000
/-- `HANDSHAKING_TTL`. -/
def handshakingTtl : ℕ := 120 * 1000

/-- `idle > timeout` at the time `now` of the round. -/
def VirtConnDe.isIdle (vc : VirtConnDe) (now : ℕ) : Bool :=
  decide ((now - vc.lastActive) / 1000 > if vc.isUdp then udpIdleTimeoutSecs else tcpIdleTimeoutSecs)

/-! ## The heartbeat -/

/-- What the round has to do; a list holds the keys it has to look at. -/
inductive BeatPc where
  | asleep
  | conns (todo : List ConnId)
  /-- The closure of `retain` tears `c` down, behind which the entry goes. -/
  | removing (c : ConnId) (v : ℕ) (todo : List ConnId)
  | closed (todo : List ConnId)
  | handshaking (todo : List ConnId)
  | pending
  deriving DecidableEq, Repr

/-- `began` is the `now` of the round, `last` a history variable: the `began` of the last whole round. -/
structure Beat where
  pc : BeatPc
  wake : ℕ
  began : ℕ
  last : ℕ
  deriving DecidableEq, Repr

/-- One step of the heartbeat, with the tasks it leaves to run. -/
inductive BeatStep (interval : ℕ) (s : Shared) (b : Beat) : Shared → List (List Instr) → Beat → Prop where
  | begin (todo : List ConnId) : b.pc = .asleep → b.wake ≤ s.now → (∀ c, (s.conns c).isSome → c ∈ todo) →
      BeatStep interval s b s [] { b with pc := .conns todo, began := s.now }
  | connKept (c : ConnId) (todo : List ConnId) : b.pc = .conns (c :: todo) →
      (∀ v, s.conns c = some v → (s.heap v).isIdle b.began = false) →
      BeatStep interval s b s [] { b with pc := .conns todo }
  | connIdle (c : ConnId) (v : ℕ) (todo : List ConnId) : b.pc = .conns (c :: todo) → s.conns c = some v →
      (s.heap v).isIdle b.began = true →
      BeatStep interval s b s [[closedInsert c, sendRst c, connsRemove c]] { b with pc := .removing c v todo }
  -- whatever took the place of the entry since is fresh
  | connRemoved (c : ConnId) (v : ℕ) (todo : List ConnId) : b.pc = .removing c v todo → s.conns c ≠ some v →
      BeatStep interval s b s [] { b with pc := .conns (c :: todo) }
  | connsDone (todo : List ConnId) : b.pc = .conns [] → (∀ c, (s.closed c).isSome → c ∈ todo) →
      BeatStep interval s b s [] { b with pc := .closed todo }
  | closedKept (c : ConnId) (todo : List ConnId) : b.pc = .closed (c :: todo) →
      (∀ since, s.closed c = some since → b.began - since < closedTtl) →
      BeatStep interval s b s [] { b with pc := .closed todo }
  | closedExpired (c : ConnId) (since : ℕ) (todo : List ConnId) : b.pc = .closed (c :: todo) →
      s.closed c = some since → ¬ b.began - since < closedTtl →
      BeatStep interval s b { s with closed := Function.update s.closed c none } [] { b with pc := .closed todo }
  | closedDone (todo : List ConnId) : b.pc = .closed [] → (∀ c, (s.handshaking c).isSome → c ∈ todo) →
      BeatStep interval s b s [] { b with pc := .handshaking todo }
  | handshakingKept (c : ConnId) (todo : List ConnId) : b.pc = .handshaking (c :: todo) →
      (∀ since, s.handshaking c = some since → b.began - since < handshakingTtl) →
      BeatStep interval s b s [] { b with pc := .handshaking todo }
  | handshakingExpired (c : ConnId) (since : ℕ) (todo : List ConnId) : b.pc = .handshaking (c :: todo) →
      s.handshaking c = some since → ¬ b.began - since < handshakingTtl →
      BeatStep interval s b { s with handshaking := Function.update s.handshaking c none } []
        { b with pc := .handshaking todo }
  | handshakingDone : b.pc = .handshaking [] → BeatStep interval s b s [] { b with pc := .pending }
  | swept (s' : Shared) (is : List Instr) : b.pc = .pending →
      exec s (sweepRetain pendingTtlSecs) .go = some (s', is) →
      BeatStep interval s b s' [is] { b with pc := .asleep, last := b.began, wake := s'.now + interval }

/-! ## The system -/

/-- The tasks that others start: the heartbeat starts its own. -/
def SpawnOther (s : Shared) (t : List Instr) : Prop :=
  Spawn s t ∧ t ≠ [sweepRetain pendingTtlSecs] ∧ ∀ c, t ≠ [closedInsert c, sendRst c, connsRemove c]

/-- What happens outside the tasks: nothing expires by itself, and egress readers and response readers count the
frames they sent as activity. -/
inductive EnvOther (s : Shared) : Shared → Prop where
  | env {s' : Shared} : Env s s' → s'.closed = s.closed → s'.handshaking = s.handshaking → EnvOther s s'
  | active (v : ℕ) : EnvOther s (s.setConn v { s.heap v with lastActive := s.now })

structure Timed where
  shared : Shared
  tasks : List (List Instr)
  beat : Beat

def Timed.init (window interval : ℕ) : Timed := ⟨.init window, [], ⟨.asleep, interval, 0, 0⟩⟩

inductive TimedStep (interval : ℕ) : Timed → Timed → Prop where
  | task {s s' : Shared} {l r : List (List Instr)} {i : Instr} {k is : List Instr} {ch : Choice} {b : Beat} :
      exec s i ch = some (s', is) → TimedStep interval ⟨s, l ++ (i :: k) :: r, b⟩ ⟨s', l ++ (is ++ k) :: r, b⟩
  | spawn {s : Shared} {ts : List (List Instr)} {t : List Instr} {b : Beat} :
      SpawnOther s t → TimedStep interval ⟨s, ts, b⟩ ⟨s, ts ++ [t], b⟩
  | env {s s' : Shared} {ts : List (List Instr)} {b : Beat} :
      EnvOther s s' → TimedStep interval ⟨s, ts, b⟩ ⟨s', ts, b⟩
  | beat {s s' : Shared} {ts new : List (List Instr)} {b b' : Beat} :
      BeatStep interval s b s' new b' → TimedStep interval ⟨s, ts, b⟩ ⟨s', ts ++ new, b'⟩

def TimedRuns (interval : ℕ) (x y : Timed) : Prop := ReflTransGen (TimedStep interval) x y

/-! ## What the others write -/

section Writes

variable {s s' : Shared} {i : Instr} {ch : Choice} {is : List Instr}

theorem exec_now (h : exec s i ch = some (s', is)) : s'.now = s.now := by
  cases i with
  | synReplay c v fs fin =>
    cases fs <;> simp only [exec, execReplay] at h <;> (repeat' split at h) <;> cases h <;> rfl
  | _ =>
    simp only [exec, execHandle, execDeliver, execCas, execPush] at h
    (repeat' split at h) <;> cases h <;> first | rfl | simp

theorem exec_closed_stamp (h : exec s i ch = some (s', is)) (c : ConnId) :
    s'.closed c = s.closed c ∨ s'.closed c = some s.now := by
  by_cases hw : i.writesClosed = true
  · cases i with
    | closedInsert c' =>
      cases h
      by_cases hc : c = c'
      · exact .inr (by simp [hc])
      · exact .inl (by simp [hc])
    | _ => cases hw
  · exact .inl (by rw [exec_closed h (by simpa using hw)])

theorem exec_handshaking_stamp (h : exec s i ch = some (s', is)) (c : ConnId) :
    s'.handshaking c = s.handshaking c ∨ s'.handshaking c = none ∨ s'.handshaking c = some s.now := by
  by_cases hw : i.writesHandshaking = true
  · cases i with
    | synRegister f =>
      cases h
      by_cases hc : c = f.connId
      · exact .inr (.inr (by simp [hc]))
      · exact .inl (by simp [hc])
    | handshakingRemove c' =>
      cases h
      by_cases hc : c = c'
      · exact .inr (.inl (by simp [hc]))
      · exact .inl (by simp [hc])
    | _ => cases hw
  · exact .inl (by rw [exec_handshaking h (by simpa using hw)])

/-- An entry that is there after an update of one key was there before, or it is the new one. -/
theorem get_put_cases {m : Table ConnId PendingEntry} {c c' : ConnId} {e e' : PendingEntry}
    (h : (m.put c' e').get c = some e) : m.get c = some e ∨ e = e' ∧ c = c' := by
  rw [Table.get_put] at h
  by_cases hc : c = c'
  · rw [if_pos hc] at h
    exact .inr ⟨(Option.some.inj h).symm, hc⟩
  · rw [if_neg hc] at h
    exact .inl h

theorem get_del_of {m : Table ConnId PendingEntry} {c c' : ConnId} {e : PendingEntry} (h : (m.del c').get c = some e) :
    m.get c = some e := by
  by_cases hc : c = c'
  · rw [hc, Table.get_del_self] at h
    cases h
  · rwa [Table.get_del_ne _ hc] at h

theorem markCancelled_since {c c' : ConnId} {e : PendingEntry} (h : (markCancelled s c').pending.get c = some e) :
    ∃ e₀, s.pending.get c = some e₀ ∧ e.since = e₀.since := by
  rw [markCancelled_pending] at h
  split at h
  · exact ⟨e, h, rfl⟩
  · rename_i e₀ he₀
    rcases get_put_cases h with h | ⟨rfl, rfl⟩
    · exact ⟨e, h, rfl⟩
    · exact ⟨e₀, he₀, rfl⟩

theorem execPush_since {f : Frame} {bytes : ℕ} {full gone : List Instr} {c : ConnId} {e : PendingEntry}
    (h : execPush s f bytes full gone = (s', is)) (he : s'.pending.get c = some e) :
    ∃ e₀, s.pending.get c = some e₀ ∧ e.since = e₀.since := by
  unfold execPush at h
  (repeat' split at h) <;> cases h
  · rename_i e₀ he₀ _
    rcases get_put_cases he with he | ⟨rfl, rfl⟩
    · exact ⟨e, he, rfl⟩
    · exact ⟨e₀, he₀, rfl⟩
  · exact ⟨e, he, rfl⟩
  · exact ⟨e, he, rfl⟩

theorem insertEntry_since {f : Frame} {bytes : ℕ} {c : ConnId} {e : PendingEntry}
    (h : (insertEntry s f bytes).pending.get c = some e) : s.pending.get c = some e ∨ e.since = s.now := by
  rcases get_put_cases h with h | ⟨rfl, rfl⟩
  · exact .inl h
  · exact .inr rfl

/-- An entry keeps the time it was made at. -/
theorem exec_since (h : exec s i ch = some (s', is)) {c : ConnId} {e : PendingEntry}
    (he : s'.pending.get c = some e) :
    (∃ e₀, s.pending.get c = some e₀ ∧ e.since = e₀.since) ∨ e.since = s.now := by
  have hinsert : ∀ {f : Frame} {b : ℕ}, (insertEntry s f b).pending.get c = some e →
      (∃ e₀, s.pending.get c = some e₀ ∧ e.since = e₀.since) ∨ e.since = s.now := by
    intro f b h
    rcases insertEntry_since h with h | h
    · exact .inl ⟨e, h, rfl⟩
    · exact .inr h
  by_cases hw : i.writesPending = true
  · cases i with
    | synReserve f =>
      cases h
      rcases get_put_cases he with he | ⟨rfl, rfl⟩
      · exact .inl ⟨e, he, rfl⟩
      · cases hg : s.pending.get f.connId with
        | none => exact .inr rfl
        | some e₀ => exact .inl ⟨e₀, rfl, rfl⟩
    | synDrain c' v =>
      simp only [exec] at h
      split at h <;> cases h
      · exact .inl ⟨e, he, rfl⟩
      · exact .inl ⟨e, get_del_of he, rfl⟩
    | evictRemove fresh f key bytes cancel =>
      simp only [exec] at h
      split at h <;> cases h
      · exact .inl ⟨e, he, rfl⟩
      · exact .inl ⟨e, get_del_of he, rfl⟩
    | dataPush f => exact .inl (execPush_since (Option.some.inj h) he)
    | finPush f => exact .inl (execPush_since (Option.some.inj h) he)
    | dataInsert f =>
      cases h
      exact hinsert he
    | finInsert f =>
      cases h
      exact hinsert he
    | rstMark c' =>
      cases h
      exact .inl (markCancelled_since he)
    | failMark c' =>
      cases h
      exact .inl (markCancelled_since he)
    | removePending c' =>
      simp only [exec] at h
      split at h <;> cases h
      · exact .inl ⟨e, he, rfl⟩
      · exact .inl ⟨e, get_del_of he, rfl⟩
    | sweepRetain ttl =>
      cases h
      exact .inl ⟨e, Table.get_of_retain he, rfl⟩
    | _ => cases hw
  · rw [exec_pending h (by simpa using hw)] at he
    exact .inl ⟨e, he, rfl⟩

/-- The stamp of a connection is the one it had, or new. -/
def Refreshed (now : ℕ) (vc vc' : VirtConnDe) : Prop :=
  vc'.lastActive = vc.lastActive ∧ vc'.isUdp = vc.isUdp ∨ vc'.lastActive = now

theorem refreshed_rfl (now : ℕ) (vc : VirtConnDe) : Refreshed now vc vc := .inl ⟨rfl, rfl⟩

theorem refreshed_closeWriteHalf (now : ℕ) (vc : VirtConnDe) (force : Bool) :
    Refreshed now vc (vc.closeWriteHalf force) := by
  refine .inl ⟨?_, by simp⟩
  unfold VirtConnDe.closeWriteHalf
  (repeat' split) <;> rfl

theorem refreshed_startHalfClose (now : ℕ) (vc : VirtConnDe) (q : ℕ) : Refreshed now vc (vc.startHalfClose q) := by
  unfold VirtConnDe.startHalfClose
  split
  · exact refreshed_rfl now vc
  · exact refreshed_closeWriteHalf now { vc with finReceived := true, finSeq := q } false

theorem refreshed_deliver (now : ℕ) (vc : VirtConnDe) (f : Frame) : Refreshed now vc (vc.deliver f).1 := by
  obtain ⟨r, e, h⟩ := deliver_fst vc f
  rw [h]
  exact .inl ⟨rfl, rfl⟩

theorem refreshed_setConn {v : ℕ} {vc : VirtConnDe} (h : Refreshed s.now (s.heap v) vc) (w : ℕ) :
    Refreshed s.now (s.heap w) ((s.setConn v vc).heap w) := by
  by_cases hw : w = v
  · rw [hw, setConn_heap_self]
    exact h
  · rw [setConn_heap_ne s v vc hw]
    exact refreshed_rfl _ _

theorem exec_active (h : exec s i ch = some (s', is)) (w : ℕ) : Refreshed s.now (s.heap w) (s'.heap w) := by
  cases i with
  | synReplay c v fs fin =>
    cases fs <;> simp only [exec, execReplay] at h <;> (repeat' split at h) <;> cases h <;>
      first | exact refreshed_rfl _ _ | exact refreshed_setConn (refreshed_deliver _ _ _) w
  | connsRemove c =>
    simp only [exec] at h
    split at h <;> cases h
    · exact refreshed_rfl _ _
    · rename_i v hv
      have hr : Refreshed s.now (s.heap v) (s.heap v).signalTeardown := .inl ⟨rfl, rfl⟩
      exact @refreshed_setConn { s with conns := Function.update s.conns c none } v _ hr w
  | synInsert c u =>
    cases h
    by_cases hw : w = s.nextConn
    · exact .inr (by simp [hw, VirtConnDe.new])
    · exact .inl (by simp [hw])
  | replayClose v =>
    cases h
    split
    · exact refreshed_setConn (refreshed_closeWriteHalf _ _ _) w
    · exact refreshed_rfl _ _
  | udpForward v f =>
    cases h
    exact refreshed_setConn (.inr rfl) w
  | dataDeliver v f =>
    simp only [exec, execDeliver] at h
    split at h <;> cases h
    · exact refreshed_setConn (refreshed_deliver _ _ _) w
    · exact refreshed_setConn (.inr rfl) w
    · exact refreshed_setConn (refreshed_deliver _ _ _) w
  | dataClose v c =>
    simp only [exec] at h
    split at h <;> cases h
    · exact refreshed_setConn (refreshed_closeWriteHalf _ _ _) w
    · exact refreshed_rfl _ _
  | startHalfClose v c q =>
    cases h
    exact refreshed_setConn (refreshed_startHalfClose _ _ _) w
  | signalTeardown v =>
    cases h
    have hr : Refreshed s.now (s.heap v) (s.heap v).signalTeardown := .inl ⟨rfl, rfl⟩
    exact refreshed_setConn hr w
  | forceClose v =>
    cases h
    exact refreshed_setConn (refreshed_closeWriteHalf _ _ _) w
  | egressEof v c =>
    cases h
    have hr : Refreshed s.now (s.heap v) { s.heap v with egressEof := true } := .inl ⟨rfl, rfl⟩
    exact refreshed_setConn hr w
  | _ =>
    refine .inl ?_
    simp only [exec, execHandle, execCas, execPush] at h
    (repeat' split at h) <;> cases h <;> first | exact ⟨rfl, rfl⟩ | simp

theorem exec_conns_active (h : exec s i ch = some (s', is)) {c : ConnId} {v : ℕ} (hv : s'.conns c = some v) :
    s.conns c = some v ∨ (s'.heap v).lastActive = s.now := by
  by_cases hins : ∀ c' u, i ≠ synInsert c' u
  · exact .inl (exec_conns_sub h hins hv)
  · simp only [not_forall, not_not] at hins
    obtain ⟨c', u, rfl⟩ := hins
    cases h
    by_cases hc : c = c'
    · obtain rfl : s.nextConn = v := by simpa [hc] using hv
      exact .inr (by simp [VirtConnDe.new])
    · exact .inl (by simpa [hc] using hv)

/-- What everything but the heartbeat does to the stamps: they stay, they go, or they are new. -/
structure Later (s s' : Shared) : Prop where
  now : s.now ≤ s'.now
  closed : ∀ c, s'.closed c = s.closed c ∨ s'.closed c = some s.now
  handshaking : ∀ c, s'.handshaking c = s.handshaking c ∨ s'.handshaking c = none ∨ s'.handshaking c = some s.now
  pending : ∀ c e, s'.pending.get c = some e →
    (∃ e₀, s.pending.get c = some e₀ ∧ e.since = e₀.since) ∨ e.since = s.now
  conns : ∀ c v, s'.conns c = some v → s.conns c = some v ∨ (s'.heap v).lastActive = s.now
  active : ∀ w, Refreshed s.now (s.heap w) (s'.heap w)

theorem exec_later (h : exec s i ch = some (s', is)) : Later s s' :=
  ⟨(exec_now h).ge, exec_closed_stamp h, exec_handshaking_stamp h, fun _ _ => exec_since h,
    fun _ _ => exec_conns_active h, exec_active h⟩

theorem setConn_later {v : ℕ} {vc : VirtConnDe} (h : Refreshed s.now (s.heap v) vc) : Later s (s.setConn v vc) :=
  ⟨le_rfl, fun _ => .inl rfl, fun _ => .inl rfl, fun _ e he => .inl ⟨e, he, rfl⟩, fun _ _ hv => .inl hv,
    refreshed_setConn h⟩

theorem envOther_later (h : EnvOther s s') : Later s s' := by
  cases h with
  | active v => exact setConn_later (.inr rfl)
  | env h hc hh =>
    cases h with
    | tick d =>
      exact ⟨Nat.le_add_right _ _, fun _ => .inl rfl, fun _ => .inl rfl, fun _ e he => .inl ⟨e, he, rfl⟩,
        fun _ _ hv => .inl hv, fun w => refreshed_rfl _ _⟩
    | egressRecv v chan chan' a hchan hrecv => exact setConn_later (.inl ⟨rfl, rfl⟩)
    | egressClose v chan hchan => exact setConn_later (.inl ⟨rfl, rfl⟩)
    | closedExpire c =>
      exact ⟨le_rfl, fun c => .inl (congrFun hc c), fun _ => .inl rfl, fun _ e he => .inl ⟨e, he, rfl⟩,
        fun _ _ hv => .inl hv, fun w => refreshed_rfl _ _⟩
    | handshakingExpire c =>
      exact ⟨le_rfl, fun _ => .inl rfl, fun c => .inl (congrFun hh c), fun _ e he => .inl ⟨e, he, rfl⟩,
        fun _ _ hv => .inl hv, fun w => refreshed_rfl _ _⟩

end Writes

/-! ## Rounds -/

/-- An entry stamped `since` is within its limit at `now`. -/
def Young (ttl now since : ℕ) : Prop := now - since < ttl

/-- A pending entry is within its limit. -/
def InTime (now : ℕ) (e : PendingEntry) : Prop := (now - e.since) / 1000 < pendingTtlSecs

/-- A connection is within its limit. -/
def Busy (now : ℕ) (vc : VirtConnDe) : Prop := vc.isIdle now = false

namespace BeatPc

/-- The keys of `conns` the round has behind it. -/
def connsDone : BeatPc → ConnId → Prop
  | asleep, _ => False
  | conns todo, c => c ∉ todo
  | removing c' _ todo, c => c ∉ c' :: todo
  | _, _ => True

def closedDone : BeatPc → ConnId → Prop
  | closed todo, c => c ∉ todo
  | handshaking _, _ | pending, _ => True
  | _, _ => False

def handshakingDone : BeatPc → ConnId → Prop
  | handshaking todo, c => c ∉ todo
  | pending, _ => True
  | _, _ => False

end BeatPc

/-- The registered connections. -/
def Shared.registered (s : Shared) (c : ConnId) : Option VirtConnDe := (s.conns c).map s.heap

/-- Where the round is, and what is within its limit. -/
structure Rounds (s : Shared) (b : Beat) : Prop where
  order : b.last ≤ b.began ∧ b.began ≤ s.now
  conns : Swept Busy s.registered b.last b.began b.pc.connsDone
  closed : Swept (Young closedTtl) s.closed b.last b.began b.pc.closedDone
  handshaking : Swept (Young handshakingTtl) s.handshaking b.last b.began b.pc.handshakingDone
  pending : Swept InTime s.pending.get b.last b.began fun _ => False
  past : ∀ c since, s.closed c = some since → since ≤ s.now

theorem young_now {ttl now t : ℕ} (h : 0 < ttl) (ht : t ≤ now) : Young ttl t now := by
  unfold Young
  omega

theorem busy_of_active {vc : VirtConnDe} {now t : ℕ} (h : vc.lastActive = now) (ht : t ≤ now) : Busy t vc := by
  have h0 : t - now = 0 := by omega
  simp [Busy, VirtConnDe.isIdle, h, h0]

theorem busy_congr {vc vc' : VirtConnDe} (h : vc'.lastActive = vc.lastActive ∧ vc'.isUdp = vc.isUdp) (t : ℕ)
    (hb : Busy t vc) : Busy t vc' := by
  unfold Busy VirtConnDe.isIdle at hb ⊢
  rw [h.1, h.2]
  exact hb

theorem rounds_init (window interval : ℕ) : Rounds (.init window) ⟨.asleep, interval, 0, 0⟩ :=
  ⟨⟨le_rfl, le_rfl⟩, .empty, .empty, .empty, .empty, nofun⟩

theorem Rounds.later {s s' : Shared} {b : Beat} (hr : Rounds s b) (h : Later s s') : Rounds s' b := by
  have hle : b.last ≤ s.now ∧ b.began ≤ s.now := ⟨hr.order.1.trans hr.order.2, hr.order.2⟩
  have hold : ∀ {ttl : ℕ} {m : ConnId → Option ℕ} {c : ConnId} {t : ℕ}, m c = some t →
      (∃ v, m c = some v ∧ ∀ t' ≤ s.now, Young ttl t' v → Young ttl t' t) ∨ ∀ t' ≤ s.now, Young ttl t' t :=
    fun h => .inl ⟨_, h, fun _ _ => id⟩
  refine ⟨⟨hr.order.1, hr.order.2.trans h.now⟩, hr.conns.others hle ?_, hr.closed.others hle ?_,
    hr.handshaking.others hle ?_, hr.pending.others hle ?_, ?_⟩
  · intro c vc' hvc'
    obtain ⟨v, hv, rfl⟩ := Option.map_eq_some_iff.mp hvc'
    rcases h.conns c v hv with hv₀ | hnow
    · rcases h.active v with hsame | hnow
      · exact .inl ⟨s.heap v, Option.map_eq_some_iff.mpr ⟨v, hv₀, rfl⟩, fun t _ => busy_congr hsame t⟩
      · exact .inr fun t ht => busy_of_active hnow ht
    · exact .inr fun t ht => busy_of_active hnow ht
  · intro c t ht
    rcases h.closed c with hc | hc
    · exact hold (hc ▸ ht)
    · obtain rfl : s.now = t := Option.some.inj (hc.symm.trans ht)
      exact .inr fun t' ht' => young_now (by decide) ht'
  · intro c t ht
    rcases h.handshaking c with hc | hc | hc
    · exact hold (hc ▸ ht)
    · rw [hc] at ht
      cases ht
    · obtain rfl : s.now = t := Option.some.inj (hc.symm.trans ht)
      exact .inr fun t' ht' => young_now (by decide) ht'
  · intro c e he
    rcases h.pending c e he with ⟨e₀, he₀, hs⟩ | hs
    · refine .inl ⟨e₀, he₀, fun t _ ht => ?_⟩
      unfold InTime at ht ⊢
      rwa [hs]
    · refine .inr fun t ht => ?_
      have h0 : t - s.now = 0 := by omega
      rw [InTime, hs, h0]
      decide
  · intro c t ht
    rcases h.closed c with hc | hc
    · exact (hr.past c t (hc ▸ ht)).trans h.now
    · obtain rfl : s.now = t := Option.some.inj (hc.symm.trans ht)
      exact h.now

theorem not_mem_or {c x : ConnId} {todo : List ConnId} (h : c ∉ todo) : c ∉ x :: todo ∨ c = x := by
  by_cases hc : c = x
  · exact .inr hc
  · exact .inl fun hmem => (List.mem_cons.mp hmem).elim hc h

theorem Rounds.beat {interval : ℕ} {s s' : Shared} {b b' : Beat} {new : List (List Instr)} (hr : Rounds s b)
    (h : BeatStep interval s b s' new b') : Rounds s' b' := by
  obtain ⟨⟨hlb, hbn⟩, hconns, hclosed, hhand, hpend, hpast⟩ := hr
  obtain ⟨pc, wake, began, last⟩ := b
  simp only at hlb hbn
  cases h with
  | begin todo hpc hwake hall =>
    obtain rfl : pc = .asleep := hpc
    refine ⟨⟨hlb.trans hbn, le_rfl⟩, hconns.start s.now ?_, hclosed.start s.now fun _ _ _ h => h,
      hhand.start s.now fun _ _ _ h => h, hpend.start s.now fun _ _ _ h => h, hpast⟩
    intro c vc hvc hno
    obtain ⟨v, hv, -⟩ := Option.map_eq_some_iff.mp hvc
    exact hno (hall c (Option.isSome_iff_exists.mpr ⟨v, hv⟩))
  | connKept c todo hpc hkept =>
    obtain rfl : pc = .conns (c :: todo) := hpc
    refine ⟨⟨hlb, hbn⟩, hconns.keep (c := c) ?_ fun k hk => not_mem_or hk, hclosed, hhand, hpend, hpast⟩
    intro vc hvc
    obtain ⟨v, hv, rfl⟩ := Option.map_eq_some_iff.mp hvc
    exact hkept v hv
  | connIdle c v todo hpc hv hidle =>
    obtain rfl : pc = .conns (c :: todo) := hpc
    exact ⟨⟨hlb, hbn⟩, hconns, hclosed, hhand, hpend, hpast⟩
  | connRemoved c v todo hpc hv =>
    obtain rfl : pc = .removing c v todo := hpc
    exact ⟨⟨hlb, hbn⟩, hconns, hclosed, hhand, hpend, hpast⟩
  | connsDone todo hpc hall =>
    obtain rfl : pc = .conns [] := hpc
    refine ⟨⟨hlb, hbn⟩, ⟨hconns.whole, fun c vc hvc _ => hconns.part c vc hvc List.not_mem_nil⟩,
      hclosed.start began ?_, hhand, hpend, hpast⟩
    exact fun c t ht hno => hno (hall c (Option.isSome_iff_exists.mpr ⟨t, ht⟩))
  | closedKept c todo hpc hkept =>
    obtain rfl : pc = .closed (c :: todo) := hpc
    exact ⟨⟨hlb, hbn⟩, hconns, hclosed.keep (c := c) hkept fun k hk => not_mem_or hk, hhand, hpend, hpast⟩
  | closedExpired c since todo hpc hc hold =>
    obtain rfl : pc = .closed (c :: todo) := hpc
    refine ⟨⟨hlb, hbn⟩, hconns, hclosed.remove fun k hk => not_mem_or hk, hhand, hpend, fun k t ht => ?_⟩
    by_cases hk : k = c
    · simp [hk] at ht
    · exact hpast k t (by simpa [hk] using ht)
  | closedDone todo hpc hall =>
    obtain rfl : pc = .closed [] := hpc
    refine ⟨⟨hlb, hbn⟩, hconns, ⟨hclosed.whole, fun c t ht _ => hclosed.part c t ht List.not_mem_nil⟩,
      hhand.start began ?_, hpend, hpast⟩
    exact fun c t ht hno => hno (hall c (Option.isSome_iff_exists.mpr ⟨t, ht⟩))
  | handshakingKept c todo hpc hkept =>
    obtain rfl : pc = .handshaking (c :: todo) := hpc
    exact ⟨⟨hlb, hbn⟩, hconns, hclosed, hhand.keep (c := c) hkept fun k hk => not_mem_or hk, hpend, hpast⟩
  | handshakingExpired c since todo hpc hc hold =>
    obtain rfl : pc = .handshaking (c :: todo) := hpc
    exact ⟨⟨hlb, hbn⟩, hconns, hclosed, hhand.remove fun k hk => not_mem_or hk, hpend, hpast⟩
  | handshakingDone hpc =>
    obtain rfl : pc = .handshaking [] := hpc
    exact ⟨⟨hlb, hbn⟩, hconns, hclosed,
      ⟨hhand.whole, fun c t ht _ => hhand.part c t ht List.not_mem_nil⟩, hpend, hpast⟩
  | swept s' is hpc hexec =>
    obtain rfl : pc = .pending := hpc
    have hnow := exec_now hexec
    cases hexec
    refine ⟨⟨le_rfl, hbn⟩, hconns.finish (fun _ _ _ => trivial) fun _ h => h,
      hclosed.finish (fun _ _ _ => trivial) fun _ h => h, hhand.finish (fun _ _ _ => trivial) fun _ h => h,
      ⟨fun c e he => ?_, fun _ _ _ h => h.elim⟩, hpast⟩
    have hret := @Table.retained _ _ _ s.pending (fun _ e => isFresh s.now pendingTtlSecs e) c e he
    have hfresh : (s.now - e.since) / 1000 < pendingTtlSecs := of_decide_eq_true hret
    calc (began - e.since) / 1000 ≤ (s.now - e.since) / 1000 := Nat.div_le_div_right (Nat.sub_le_sub_right hbn _)
      _ < pendingTtlSecs := hfresh

theorem Rounds.step {interval : ℕ} {x y : Timed} (hr : Rounds x.shared x.beat) (h : TimedStep interval x y) :
    Rounds y.shared y.beat := by
  cases h with
  | task h => exact hr.later (exec_later h)
  | spawn h => exact hr
  | env h => exact hr.later (envOther_later h)
  | beat h => exact hr.beat h

theorem TimedRuns.rounds {interval : ℕ} {x y : Timed} (h : TimedRuns interval x y) (hr : Rounds x.shared x.beat) :
    Rounds y.shared y.beat := by
  induction h with
  | refl => exact hr
  | tail _ hstep ih => exact ih.step hstep

/-- **Nothing outlives its round.**  Whenever the heartbeat looks back on a whole round, what is in the maps was
within its limit when that round began, whatever the handlers did since: a connection was not idle for more than its
timeout, a tombstone was younger than 60 seconds, a handshake flag than 120 seconds and the frames of a connection
without a SYN than 30 seconds. -/
theorem heartbeat_rounds {window interval : ℕ} {x : Timed} (h : TimedRuns interval (.init window interval) x) :
    (∀ c v, x.shared.conns c = some v → (x.shared.heap v).isIdle x.beat.last = false) ∧
    (∀ c since, x.shared.closed c = some since → x.beat.last - since < closedTtl) ∧
    (∀ c since, x.shared.handshaking c = some since → x.beat.last - since < handshakingTtl) ∧
    ∀ c e, x.shared.pending.get c = some e → (x.beat.last - e.since) / 1000 < pendingTtlSecs := by
  have hr := h.rounds (rounds_init window interval)
  refine ⟨fun c v hv => hr.conns.whole c _ ?_, hr.closed.whole, hr.handshaking.whole, hr.pending.whole⟩
  exact Option.map_eq_some_iff.mpr ⟨v, hv, rfl⟩

/-- The handler of an RST at time 0 is through. -/
def afterReset : Timed :=
  ⟨{ Shared.init 1024 with arrived := [.rst 7], closed := Function.update (fun _ => none) 7 (some 0) }, [[]],
    ⟨.asleep, 60000, 0, 0⟩⟩

theorem afterReset_runs : TimedRuns 60000 (.init 1024 60000) afterReset := by
  have h0 : TimedRuns 60000 (.init 1024 60000) (.init 1024 60000) := .refl
  have h1 := h0.tail (.spawn ⟨.frame (.rst 7), by decide, fun c => by simp⟩)
  have h2 := h1.tail (@TimedStep.task 60000 _ _ [] [] _ _ _ .go _ rfl)
  have h3 := h2.tail (@TimedStep.task 60000 _ _ [] [] _ _ _ .go _ rfl)
  have h4 := h3.tail (@TimedStep.task 60000 _ _ [] [] _ _ _ .go _ rfl)
  have h5 := h4.tail (@TimedStep.task 60000 _ _ [] [] _ _ _ .go _ rfl)
  exact h5

/-- A round 61 seconds after a reset. -/
theorem heartbeat_rounds_reset :
    ∃ x, TimedRuns 60000 (.init 1024 60000) x ∧ x.beat.last = 61000 ∧ x.shared.closed 7 ≠ some 0 := by
  have hrun : ∃ x, TimedRuns 60000 (.init 1024 60000) x ∧ x.beat.last = 61000 := by
    have h0 := afterReset_runs.tail (.env (.env (.tick 61000) rfl rfl))
    have h1 := h0.tail (.beat (.begin [] rfl (by decide) fun c h => by cases h))
    have hkeys : ∀ c, (Function.update (fun _ : ConnId => (none : Option ℕ)) 7 (some 0) c).isSome →
        c ∈ [(7 : ConnId)] := by
      intro c hc
      by_contra hne
      rw [Function.update_of_ne fun h => hne (List.mem_singleton.mpr h)] at hc
      cases hc
    have h2 := h1.tail (.beat (.connsDone [7] rfl hkeys))
    have h3 := h2.tail (.beat (.closedExpired 7 0 [] rfl rfl (by decide)))
    have h4 := h3.tail (.beat (.closedDone [] rfl fun c h => by cases h))
    have h5 := h4.tail (.beat (.handshakingDone rfl))
    exact ⟨_, h5.tail (.beat (.swept _ _ rfl rfl)), rfl⟩
  obtain ⟨x, hx, hlast⟩ := hrun
  refine ⟨x, hx, hlast, fun h0 => ?_⟩
  have := (heartbeat_rounds hx).2.1 7 0 h0
  rw [hlast] at this
  exact absurd this (by decide)

/-! ## Tombstones -/

/-- The tombstone set at `since` is there, or a later one, or its time is over. -/
def Lasting (c : ConnId) (since : ℕ) (s : Shared) : Prop :=
  (∃ t, s.closed c = some t ∧ since ≤ t) ∨ since + closedTtl ≤ s.now

theorem Lasting.later {s s' : Shared} {c : ConnId} {since : ℕ} (hl : Lasting c since s) (hs : since ≤ s.now)
    (h : Later s s') : Lasting c since s' := by
  rcases hl with ⟨t, ht, hle⟩ | hover
  · rcases h.closed c with hc | hc
    · exact .inl ⟨t, hc.trans ht, hle⟩
    · exact .inl ⟨s.now, hc, hs⟩
  · exact .inr (hover.trans h.now)

theorem Lasting.beat {interval : ℕ} {s s' : Shared} {b b' : Beat} {new : List (List Instr)} {c : ConnId} {since : ℕ}
    (hl : Lasting c since s) (hr : Rounds s b) (h : BeatStep interval s b s' new b') : Lasting c since s' := by
  cases h with
  | closedExpired c' t todo hpc hc hold =>
    rcases hl with ⟨t', ht', hle⟩ | hover
    · by_cases hcc : c = c'
      · -- the round that removes it began 60 seconds later
        subst hcc
        obtain rfl : t = t' := Option.some.inj (hc.symm.trans ht')
        have hbn := hr.order.2
        refine .inr ?_
        show since + closedTtl ≤ s.now
        unfold closedTtl at hold ⊢
        omega
      · exact .inl ⟨t', by simpa [hcc] using ht', hle⟩
    · exact .inr hover
  | swept s' is hpc hexec =>
    rcases hl with ⟨t, ht, hle⟩ | hover
    · exact .inl ⟨t, (exec_closed hexec rfl).symm ▸ ht, hle⟩
    · exact .inr ((exec_now hexec).symm ▸ hover)
  | _ => exact hl

/-- **A tombstone stays for its 60 seconds**, whatever the handlers do and however the rounds of the heartbeat fall:
late DATA is answered by an RST all that time, and does not open a pending entry. -/
theorem tombstone_lasts {window interval : ℕ} {x y : Timed} (hx : TimedRuns interval (.init window interval) x)
    (hy : TimedRuns interval x y) {c : ConnId} {since : ℕ} (hc : x.shared.closed c = some since)
    (hlt : y.shared.now < since + closedTtl) :
    (∃ t, y.shared.closed c = some t ∧ since ≤ t) ∧
      ∀ f, f.connId = c → exec y.shared (dataCheckClosed f) .go = some (y.shared, [sendRst c]) := by
  have hrx := hx.rounds (rounds_init window interval)
  have hrun : Rounds y.shared y.beat ∧ since ≤ y.shared.now ∧ Lasting c since y.shared := by
    clear hlt
    induction hy with
    | refl => exact ⟨hrx, hrx.past c since hc, .inl ⟨since, hc, le_rfl⟩⟩
    | tail _ hstep ih =>
      obtain ⟨hr, hs, hl⟩ := ih
      have hr' := hr.step hstep
      cases hstep with
      | task h => exact ⟨hr', hs.trans (exec_later h).now, hl.later hs (exec_later h)⟩
      | spawn h => exact ⟨hr', hs, hl⟩
      | env h => exact ⟨hr', hs.trans (envOther_later h).now, hl.later hs (envOther_later h)⟩
      | beat h =>
        refine ⟨hr', ?_, hl.beat hr h⟩
        cases h with
        | swept s' is hpc hexec => exact (exec_now hexec).symm ▸ hs
        | _ => exact hs
  obtain ⟨t, ht, hle⟩ := hrun.2.2.resolve_right (by omega)
  refine ⟨⟨t, ht, hle⟩, ?_⟩
  rintro f rfl
  simp [exec, ht]

theorem tombstone_lasts_minute :
    ∃ y, TimedRuns 60000 afterReset y ∧ y.shared.now = 59999 ∧ ∃ t, y.shared.closed 7 = some t := by
  have hy := (Relation.ReflTransGen.refl (r := TimedStep 60000) (a := afterReset)).tail (.env (.env (.tick 59999) rfl rfl))
  have hc : afterReset.shared.closed 7 = some 0 := rfl
  obtain ⟨⟨t, ht, -⟩, -⟩ := tombstone_lasts afterReset_runs hy hc (by decide)
  exact ⟨_, hy, rfl, t, ht⟩

end RoundRobin.Reassembler
