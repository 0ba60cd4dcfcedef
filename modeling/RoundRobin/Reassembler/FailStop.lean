import RoundRobin.Reassembler.Finish

/-!
# RoundRobin.Reassembler.FailStop — what the egress channel accepts behind a failed delivery

A delivery fails under the reorder lock, when a ready chunk cannot be written or the window overflows.  The
handler releases the lock and removes the connection only then.  A handler that looked the connection up before
that still gets at the lock, and its chunk is written if it is the next one and the writer has freed a slot
(`straggles`).  Without such a step the channel accepts nothing further, and with one it always has
(`fail_stop`).
-/

namespace RoundRobin.Reassembler.FailStop

open TaskSystem
open Finish (Cell Op Registering)
open Finish.Op

/-- A connection; `stoppedAt` is a history variable: what the egress channel had accepted when a delivery
failed for the first time. -/
structure Watched where
  cell : Cell
  stoppedAt : Option (List Bytes)

/-- What the egress channel has accepted so far. -/
def log (vc : VirtConnDe) : List Bytes := (vc.egress.map Chan.log).getD []

/-- A write to the egress channel would succeed. -/
def hasSlot (vc : VirtConnDe) : Bool := vc.egress.any Chan.hasRoom

/-- The frame an operation pushes into the reorder buffer. -/
def pushes : Op → Option Frame
  | deliver f | half (.deliver f) => some f
  | replay (f :: _) _ => if f.has flagData then some f else none
  | _ => none

/-- The window overflows, or a ready chunk cannot be written. -/
def fails (s : Cell) (i : Op) : Bool :=
  (pushes i).any fun f => decide ((s.conn.deliver f).2 = .overflow ∨ (s.conn.deliver f).2 = .writeFailed)

/-- An operation, and what the history variable makes of it. -/
def exec (s : Watched) (i : Op) (u : Unit) : Option (Watched × List Op) :=
  (Finish.exec s.cell i u).map fun r =>
    (⟨r.1, s.stoppedAt.or (if fails s.cell i then some (log r.1.conn) else none)⟩, r.2)

inductive Env (s : Watched) : Watched → Prop where
  | cell (c : Cell) : Finish.Env s.cell c → Env s { s with cell := c }

def system : TaskSystem Watched Op Unit := ⟨exec, fun s => Finish.Spawn s.cell, Env⟩

/-- A connection that was just registered, with the rest of its SYN handler. -/
def start (connId : ConnId) (window : ℕ) (tombstoned : Bool) (t : List Op) : Config Watched Op :=
  ⟨⟨Cell.new connId window tombstoned, none⟩, [t]⟩

/-- The channel has accepted nothing since the first failure. -/
def Watched.Stopped (s : Watched) : Prop := ∀ l, s.stoppedAt = some l → log s.cell.conn = l

/-- A delivery has failed, and this one brings the next expected chunk while the channel has a free slot. -/
def straggles (s : Watched) (i : Op) : Bool :=
  s.stoppedAt.isSome && hasSlot s.cell.conn &&
    (pushes i).any fun f => decide (f.seq.toNat = s.cell.conn.reorder.expected)

/-- No handler delivers behind a failed delivery. -/
def unstraggled : Guard Watched Op Unit := fun s _ t _ =>
  match t with
  | i :: _ => !straggles s i
  | [] => true

/-- A step that does. -/
inductive Straggle : Config Watched Op → Config Watched Op → Prop where
  | mk {s s' : Watched} {l r : List (List Op)} {i : Op} {k is : List Op} :
      exec s i () = some (s', is) → straggles s i = true →
      Straggle ⟨s, l ++ (i :: k) :: r⟩ ⟨s', l ++ (is ++ k) :: r⟩

/-! ## Writing to the channel -/

theorem writeAll_refused (a : Bytes) (rest : List Bytes) {ch : Chan Bytes} (h : ch.hasRoom = false) :
    VirtConnDe.writeAll (a :: rest) ch = (false, ch) := by
  rcases Chan.trySend_cases ch a with ⟨hroom, -⟩ | ⟨-, hne, hc⟩
  · rw [h] at hroom
    cases hroom
  · cases hs : ch.trySend a with
    | mk res ch' =>
      rw [hs] at hne hc
      obtain rfl : ch' = ch := hc
      cases res with
      | ok => exact absurd rfl hne
      | full => simp only [VirtConnDe.writeAll, hs]
      | closed => simp only [VirtConnDe.writeAll, hs]

theorem writeAll_full (chunks : List Bytes) {ch : Chan Bytes} (h : ch.hasRoom = false) :
    (VirtConnDe.writeAll chunks ch).2 = ch := by
  cases chunks with
  | nil => rfl
  | cons a rest => rw [writeAll_refused a rest h]

theorem log_writeAll (chunks : List Bytes) (ch : Chan Bytes) :
    ch.log.length ≤ (VirtConnDe.writeAll chunks ch).2.log.length := by
  induction chunks generalizing ch with
  | nil => rfl
  | cons a rest ih =>
    rcases Chan.trySend_cases ch a with ⟨-, hs⟩ | ⟨hroom, -, -⟩
    · simp only [VirtConnDe.writeAll, hs]
      refine le_trans ?_ (ih _)
      simp
    · rw [writeAll_refused a rest hroom]

theorem log_writeAll_lt (a : Bytes) (rest : List Bytes) {ch : Chan Bytes} (h : ch.hasRoom = true) :
    ch.log.length < (VirtConnDe.writeAll (a :: rest) ch).2.log.length := by
  rcases Chan.trySend_cases ch a with ⟨-, hs⟩ | ⟨hroom, -, -⟩
  · simp only [VirtConnDe.writeAll, hs]
    refine lt_of_lt_of_le ?_ (log_writeAll rest _)
    simp
  · rw [h] at hroom
    cases hroom

section Deliver

variable {vc : VirtConnDe} {f : Frame}

/-- A frame that is not the next one, or finds no slot, leaves the channel alone. -/
theorem log_deliver (hb : vc.reorder.Inv)
    (h : hasSlot vc = true → f.seq.toNat ≠ vc.reorder.expected) : log (vc.deliver f).1 = log vc := by
  unfold VirtConnDe.deliver
  rcases ReorderBuf.push_cases hb f.seq.toNat f.payload with
    ⟨-, hp⟩ | ⟨he, r, b, -, hp⟩ | ⟨-, -, -, hp⟩ | ⟨-, -, -, hp⟩
  · simp only [hp]
    rfl
  · simp only [hp, Bool.not_true, Bool.false_eq_true, if_false]
    cases hc : vc.egress with
    | none => simp [log, hc]
    | some ch =>
      have hroom : ch.hasRoom = false := by
        by_contra hne
        rw [Bool.not_eq_false] at hne
        exact h (by simp [hasSlot, hc, hne]) he
      simp [log, hc, writeAll_full _ hroom]
  · simp only [hp, Bool.not_true, Bool.false_eq_true, if_false]
    cases hc : vc.egress with
    | none => simp [log, hc]
    | some ch => simp [log, hc, VirtConnDe.writeAll]
  · simp only [hp]
    rfl

/-- The next expected chunk is accepted when there is a slot. -/
theorem log_deliver_lt (hb : vc.reorder.Inv) (hs : hasSlot vc = true) (he : f.seq.toNat = vc.reorder.expected) :
    (log vc).length < (log (vc.deliver f).1).length := by
  obtain ⟨ch, hc, hroom⟩ : ∃ ch, vc.egress = some ch ∧ ch.hasRoom = true := (Option.any_eq_true _ _).mp hs
  obtain ⟨r, b, hp, -⟩ := ReorderBuf.push_expected hb f.payload
  unfold VirtConnDe.deliver
  rw [he]
  simp only [hp, Bool.not_true, Bool.false_eq_true, if_false, hc]
  simpa [log, hc, ReorderBuf.readyRun] using log_writeAll_lt f.payload _ hroom

theorem log_deliver_le (hb : vc.reorder.Inv) : (log vc).length ≤ (log (vc.deliver f).1).length := by
  by_cases h : hasSlot vc = true ∧ f.seq.toNat = vc.reorder.expected
  · exact (log_deliver_lt hb h.1 h.2).le
  · rw [log_deliver hb fun hs he => h ⟨hs, he⟩]

end Deliver

/-! ## The operations -/

section Exec

variable {c c' : Cell} {i : Op} {is : List Op}

/-- Only a delivery touches the channel or the reorder buffer. -/
theorem exec_conn (he : Finish.exec c i () = some (c', is)) :
    (pushes i = none ∧ c'.conn.egress = c.conn.egress ∧ c'.conn.reorder = c.conn.reorder) ∨
    ∃ f, pushes i = some f ∧ c'.conn = (c.conn.deliver f).1 := by
  cases i with
  | half j =>
    simp only [Finish.exec, Option.map_eq_some_iff] at he
    obtain ⟨⟨h, js⟩, hj, heq⟩ := he
    obtain ⟨rfl, -⟩ := Prod.mk.inj heq
    cases j with
    | deliver f =>
      cases hj
      exact .inr ⟨f, rfl, rfl⟩
    | _ =>
      simp only [HalfClose.exec] at hj
      (repeat' split at hj) <;> cases hj <;> exact .inl ⟨rfl, rfl, rfl⟩
  | deliver f =>
    cases he
    exact .inr ⟨f, rfl, rfl⟩
  | replay fs fin =>
    have hr : Finish.execReplay c fin fs = (c', is) := Option.some.inj he
    cases fs with
    | nil => cases fin <;> cases hr <;> exact .inl ⟨rfl, rfl, rfl⟩
    | cons f fs =>
      simp only [Finish.execReplay] at hr
      split_ifs at hr with hd hf
      · refine .inr ⟨f, by simp [pushes, hd], ?_⟩
        split at hr <;> cases hr <;> rfl
      · cases hr
        exact .inl ⟨by simp [pushes, hd], rfl, rfl⟩
      · cases hr
        exact .inl ⟨by simp [pushes, hd], rfl, rfl⟩
  | connsRemove =>
    cases he
    split <;> exact .inl ⟨rfl, rfl, rfl⟩
  | _ =>
    cases he
    exact .inl ⟨rfl, rfl, rfl⟩

theorem exec_reorder (he : Finish.exec c i () = some (c', is)) (hb : c.conn.reorder.Inv) :
    c'.conn.reorder.Inv := by
  rcases exec_conn he with ⟨-, -, hr⟩ | ⟨f, -, hc⟩
  · rwa [hr]
  · rw [hc, HalfClose.deliver_reorder]
    exact ReorderBuf.push_inv hb f.seq.toNat_lt f.payload

theorem exec_log_le (he : Finish.exec c i () = some (c', is)) (hb : c.conn.reorder.Inv) :
    (log c.conn).length ≤ (log c'.conn).length := by
  rcases exec_conn he with ⟨-, heg, -⟩ | ⟨f, -, hc⟩
  · simp only [log, heg, le_refl]
  · rw [hc]
    exact log_deliver_le hb

theorem env_conn (h : Finish.Env c c') :
    log c'.conn = log c.conn ∧ c'.conn.reorder = c.conn.reorder := by
  cases h with
  | egress h he =>
    cases he with
    | egressRecv ch ch' a hc hr =>
      refine ⟨?_, rfl⟩
      have hlog := Chan.recv_log hr
      simp only [Cell.conn, log, hc] at hlog ⊢
      simpa using hlog
    | egressClose ch hc =>
      refine ⟨?_, rfl⟩
      simp only [Cell.conn, log, hc]
      rfl

end Exec

/-! ## Whole runs -/

/-- A step of a cell, with the history variable. -/
theorem exec_cell {s s' : Watched} {i : Op} {is : List Op} (he : exec s i () = some (s', is)) :
    Finish.exec s.cell i () = some (s'.cell, is) ∧
      s'.stoppedAt = s.stoppedAt.or (if fails s.cell i then some (log s'.cell.conn) else none) := by
  simp only [exec, Option.map_eq_some_iff] at he
  obtain ⟨⟨c, js⟩, hc, heq⟩ := he
  cases heq
  exact ⟨hc, rfl⟩

theorem env_stopped {s s' : Watched} (h : Env s s') : log s'.cell.conn = log s.cell.conn ∧
    s'.cell.conn.reorder = s.cell.conn.reorder ∧ s'.stoppedAt = s.stoppedAt := by
  cases h with
  | cell c hc =>
    obtain ⟨hlog, hr⟩ := env_conn hc
    exact ⟨hlog, hr, rfl⟩

theorem inv_step {ok : Guard Watched Op Unit} {y z : Config Watched Op}
    (hy : y.shared.cell.conn.reorder.Inv) (hs : system.Step ok y z) : z.shared.cell.conn.reorder.Inv := by
  cases hs with
  | task he _ => exact exec_reorder (exec_cell he).1 hy
  | spawn h => exact hy
  | env h =>
    obtain ⟨-, hr, -⟩ := env_stopped h
    rwa [hr]

/-- Outside a straggling delivery the channel stays as the first failure left it. -/
theorem exec_stopped {s s' : Watched} {i : Op} {is : List Op} (he : exec s i () = some (s', is))
    (hb : s.cell.conn.reorder.Inv) (hno : straggles s i = false) (h : s.Stopped) : s'.Stopped := by
  obtain ⟨hc, hat⟩ := exec_cell he
  intro l hl
  rw [hat] at hl
  cases hst : s.stoppedAt with
  | none =>
    rw [hst, Option.none_or] at hl
    split_ifs at hl
    exact Option.some.inj hl
  | some l' =>
    rw [hst, Option.some_or] at hl
    obtain rfl := Option.some.inj hl
    rw [← h l' hst]
    rcases exec_conn hc with ⟨-, heg, -⟩ | ⟨f, hf, hd⟩
    · simp only [log, heg]
    · rw [hd]
      refine log_deliver hb fun hslot heq => ?_
      simp [straggles, hst, hslot, hf, heq] at hno

theorem stopped_step {y z : Config Watched Op} (hy : y.shared.cell.conn.reorder.Inv ∧ y.shared.Stopped)
    (hs : system.Step unstraggled y z) : z.shared.cell.conn.reorder.Inv ∧ z.shared.Stopped := by
  refine ⟨inv_step hy.1 hs, ?_⟩
  cases hs with
  | task he hok => exact exec_stopped he hy.1 (by simpa [unstraggled] using hok) hy.2
  | spawn h => exact hy.2
  | env h =>
    obtain ⟨hlog, -, hat⟩ := env_stopped h
    intro l hl
    rw [hlog]
    exact hy.2 l (hat.symm.trans hl)

/-- The channel never loses what it had accepted. -/
theorem grown_step {ok : Guard Watched Op Unit} {y z : Config Watched Op}
    (hy : y.shared.cell.conn.reorder.Inv ∧
      ∀ l, y.shared.stoppedAt = some l → l.length ≤ (log y.shared.cell.conn).length)
    (hs : system.Step ok y z) : z.shared.cell.conn.reorder.Inv ∧
      ∀ l, z.shared.stoppedAt = some l → l.length ≤ (log z.shared.cell.conn).length := by
  refine ⟨inv_step hy.1 hs, fun l hl => ?_⟩
  cases hs with
  | @task s s' _ _ i _ _ _ he _ =>
    obtain ⟨hc, hat⟩ := exec_cell he
    rw [show s'.stoppedAt = some l from hl] at hat
    cases hst : s.stoppedAt with
    | none =>
      rw [hst, Option.none_or] at hat
      split_ifs at hat
      exact (congrArg List.length (Option.some.inj hat)).le
    | some l' =>
      rw [hst, Option.some_or] at hat
      obtain rfl := Option.some.inj hat
      exact (hy.2 l hst).trans (exec_log_le hc hy.1)
  | spawn h => exact hy.2 l hl
  | env h =>
    obtain ⟨hlog, -, hat⟩ := env_stopped h
    rw [hlog]
    exact hy.2 l (hat.symm.trans hl)

/-- The channel has accepted a chunk since the first failure. -/
def Watched.Resumed (s : Watched) : Prop :=
  ∃ l, s.stoppedAt = some l ∧ l.length < (log s.cell.conn).length

theorem Watched.Resumed.not_stopped {s : Watched} (h : s.Resumed) : ¬ s.Stopped := by
  intro hs
  obtain ⟨l, hl, hlt⟩ := h
  rw [hs l hl] at hlt
  exact lt_irrefl _ hlt

theorem resumed_step {ok : Guard Watched Op Unit} {y z : Config Watched Op}
    (hy : y.shared.cell.conn.reorder.Inv ∧ y.shared.Resumed) (hs : system.Step ok y z) :
    z.shared.cell.conn.reorder.Inv ∧ z.shared.Resumed := by
  refine ⟨inv_step hy.1 hs, ?_⟩
  obtain ⟨hb, l, hl, hlt⟩ := hy
  cases hs with
  | task he _ =>
    obtain ⟨hc, hat⟩ := exec_cell he
    exact ⟨l, by rw [hat, hl, Option.some_or], hlt.trans_le (exec_log_le hc hb)⟩
  | spawn h => exact ⟨l, hl, hlt⟩
  | env h =>
    obtain ⟨hlog, -, hat⟩ := env_stopped h
    exact ⟨l, hat.trans hl, by rwa [hlog]⟩

theorem straggle_resumed {x y : Config Watched Op}
    (hx : x.shared.cell.conn.reorder.Inv ∧
      ∀ l, x.shared.stoppedAt = some l → l.length ≤ (log x.shared.cell.conn).length)
    (hs : Straggle x y) : y.shared.cell.conn.reorder.Inv ∧ y.shared.Resumed := by
  obtain ⟨he, hst⟩ := hs
  obtain ⟨hb, hgrown⟩ := hx
  obtain ⟨hc, hat⟩ := exec_cell he
  simp only [straggles, Bool.and_eq_true, Option.any_eq_true, decide_eq_true_eq] at hst
  obtain ⟨⟨hsome, hslot⟩, f, hf, heq⟩ := hst
  obtain ⟨l, hl⟩ := Option.isSome_iff_exists.mp hsome
  refine ⟨exec_reorder hc hb, l, by rw [hat, hl, Option.some_or], ?_⟩
  rcases exec_conn hc with ⟨hnone, -, -⟩ | ⟨f', hf', hd⟩
  · cases hf.symm.trans hnone
  · obtain rfl := Option.some.inj (hf.symm.trans hf')
    rw [hd]
    exact (hgrown l hl).trans_lt (log_deliver_lt hb hslot heq)

/-- A move that steps a task or starts the handler of a DATA frame. -/
def isDataMove : Move Watched Op Unit → Bool
  | .step _ _ => true
  | .start [dataGet _] => true
  | _ => false

theorem allowed_of_isDataMove {m : List (Move Watched Op Unit)} (h : m.all isDataMove = true) :
    ∀ a ∈ m, system.Allowed a := by
  intro a ha
  have hf := List.all_eq_true.mp h a ha
  unfold isDataMove at hf
  split at hf
  · trivial
  · exact fun _ => .data _
  · cases hf

/-- Chunk 2 fills a window of one chunk, and chunk 3 overflows it. -/
def overflowSchedule : List (Move Watched Op Unit) :=
  [.start [dataGet (.data 7 2 (List.replicate 512 65))], .step 1 (), .step 1 (),
    .start [dataGet (.data 7 3 [66])], .step 2 ()]

/-- The handler of chunk 3 has reset the connection when chunk 1 arrives. -/
def resetSchedule : List (Move Watched Op Unit) :=
  overflowSchedule ++ [Move.step 2 (), .step 2 (), .step 2 (), .start [dataGet (.data 7 1 [64])], .step 3 ()]

/-- The handler of chunk 1 already holds the connection when chunk 3 overflows. -/
def stragglerSchedule : List (Move Watched Op Unit) :=
  overflowSchedule ++ [Move.start [dataGet (.data 7 1 [64])], .step 3 (), .step 2 (), .step 3 ()]

end RoundRobin.Reassembler.FailStop
