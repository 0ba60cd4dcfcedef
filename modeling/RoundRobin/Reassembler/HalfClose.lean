import RoundRobin.Lib.Tasks
import RoundRobin.Reassembler.Effects

/-!
# RoundRobin.Reassembler.HalfClose — half-close, one atomic operation at a time

`start_half_close` and `close_write_half` taken apart: every atomic load, store, swap and
compare-exchange of a connection's half-close cells and every critical section of the reorder lock is
one step.  The FIN handler publishes `fin_received` before it stores `fin_seq`; a DATA handler in
between reads the initial `0`, finds the stream complete and closes the write half early.  `published`
says that this does not happen, and then a close that is not forced always finds everything below the
FIN delivered (`no_premature_close`).

Run without interference the operations do what `VirtConnDe.startHalfClose` and
`VirtConnDe.closeWriteHalf` do in one step (`startHalfClose_solo`, `closeWriteHalf_solo`).
-/

namespace RoundRobin.Reassembler.HalfClose

open TaskSystem

/-- A connection; `closedAt` is a history variable, `expected` at each close that was not forced. -/
structure Cell where
  conn : VirtConnDe
  closedAt : List ℕ

inductive Op where
  -- `start_half_close`
  | finSwap (seq : ℕ)
  | finStore (seq : ℕ)
  -- `close_write_half(force = false)`
  | closeCas
  | closeLoadSeq
  | closeCheck (seq : ℕ)
  | closeRollback
  | closeStore
  | notifyHalfClose
  -- a DATA handler
  | deliver (f : Frame)
  | loadFinReceived
  -- the force timer
  | forceSwap
  deriving DecidableEq

open Op

/-- One operation. -/
def exec (s : Cell) (i : Op) (_ : Unit) : Option (Cell × List Op) :=
  let vc := s.conn
  match i with
  | finSwap q =>
    some ({ s with conn := { vc with finReceived := true } },
      if vc.finReceived then [] else [finStore q, closeCas])
  | finStore q => some ({ s with conn := { vc with finSeq := q } }, [])
  | closeCas =>
    if vc.halfCloseState = 0 then
      some ({ s with conn := { vc with halfCloseState := 1 } }, [closeLoadSeq])
    else some (s, [])
  | closeLoadSeq => some (s, [closeCheck vc.finSeq])
  | closeCheck q =>
    some (s, if vc.reorder.isCompleteThrough q then [closeStore] else [closeRollback])
  | closeRollback =>
    some (if vc.halfCloseState = 1 then { s with conn := { vc with halfCloseState := 0 } } else s, [])
  | closeStore =>
    some ({ conn := { vc with halfCloseState := 2 }, closedAt := s.closedAt ++ [vc.reorder.expected] },
      [notifyHalfClose])
  | notifyHalfClose => some ({ s with conn := { vc with halfClose := true } }, [])
  | deliver f =>
    let d := vc.deliver f
    some ({ s with conn := d.1 }, if d.2 = .delivered then [loadFinReceived] else [])
  | loadFinReceived => some (s, if vc.finReceived then [closeCas] else [])
  | forceSwap =>
    if vc.halfCloseState = 2 then some (s, [])
    else some ({ s with conn := { vc with halfCloseState := 2, forced := true } }, [notifyHalfClose])

/-- DATA handlers and the force timer may start at any time. -/
inductive Spawn : List Op → Prop where
  | data (f : Frame) : Spawn [deliver f]
  | timer : Spawn [forceSwap]

/-- The egress writer receives or goes away. -/
inductive Env (s : Cell) : Cell → Prop where
  | egressRecv (ch ch' : Chan Bytes) (a : Bytes) : s.conn.egress = some ch →
      ch.recv = some (a, ch') → Env s { s with conn := { s.conn with egress := some ch' } }
  | egressClose (ch : Chan Bytes) : s.conn.egress = some ch →
      Env s { s with conn := { s.conn with egress := some ch.close } }

def system : TaskSystem Cell Op Unit := ⟨exec, fun _ => Spawn, Env⟩

/-- A fresh connection. -/
def Cell.new (connId : ConnId) (window : ℕ) : Cell := ⟨VirtConnDe.new connId window false 0, []⟩

/-- The store of a FIN seq that is still out of reach is ahead. -/
def unstored (s : Cell) (t : List Op) : Bool :=
  t.any fun i => match i with
    | finStore q => s.conn.reorder.expected < q
    | _ => false

/-- No close loads `fin_seq` while the FIN handler is between its swap and its store and frames below
the FIN are missing; and no DATA frame has the last seq of the `u64` range, which would wrap the
reorder buffer around. -/
def published : Guard Cell Op Unit := fun s others t _ =>
  match t with
  | closeLoadSeq :: k => !(k :: others).any (unstored s)
  | deliver f :: _ => decide (f.seq.toNat + 1 < 2 ^ 64)
  | _ => true

/-! ## The operations without interference -/

theorem closeWriteHalf_solo (vc : VirtConnDe) (l : List ℕ) (k : List Op) :
    ∃ l', system.Solo (⟨vc, l⟩, closeCas :: k) (⟨vc.closeWriteHalf false, l'⟩, k) := by
  by_cases h0 : vc.halfCloseState = 0
  · by_cases hc : vc.reorder.isCompleteThrough vc.finSeq = true
    · refine ⟨l ++ [vc.reorder.expected], ?_⟩
      refine .head (c := ()) (by simp only [system, exec, h0]; rfl) ?_
      refine .head (c := ()) rfl (.head (c := ()) (by simp only [system, exec, hc]; rfl) ?_)
      refine .head (c := ()) rfl (.head (c := ()) rfl ?_)
      simp only [VirtConnDe.closeWriteHalf, h0, hc]
      exact .refl
    · refine ⟨l, ?_⟩
      refine .head (c := ()) (by simp only [system, exec, h0]; rfl) ?_
      refine .head (c := ()) rfl (.head (c := ()) (by simp only [system, exec, hc]; rfl) ?_)
      refine .head (c := ()) rfl ?_
      simp only [VirtConnDe.closeWriteHalf, h0, hc]
      obtain ⟨_, _, _, _, _, _, _, _, state, _, _, _, _⟩ := vc
      obtain rfl : state = 0 := h0
      exact .refl
  · refine ⟨l, .head (c := ()) (by simp only [system, exec, h0]; rfl) ?_⟩
    have hvc : vc.closeWriteHalf false = vc := by simp [VirtConnDe.closeWriteHalf, h0]
    rw [hvc]
    exact .refl

theorem startHalfClose_solo (vc : VirtConnDe) (l : List ℕ) (q : ℕ) :
    ∃ l', system.Solo (⟨vc, l⟩, [finSwap q]) (⟨vc.startHalfClose q, l'⟩, []) := by
  by_cases hf : vc.finReceived = true
  · refine ⟨l, .head (c := ()) rfl ?_⟩
    simp only [VirtConnDe.startHalfClose, hf]
    obtain ⟨_, _, _, _, _, _, fin, _, _, _, _, _, _⟩ := vc
    obtain rfl : fin = true := hf
    exact .refl
  · obtain ⟨l', hl⟩ := closeWriteHalf_solo { vc with finReceived := true, finSeq := q } l []
    refine ⟨l', .head (c := ()) rfl ?_⟩
    simp only [hf, VirtConnDe.startHalfClose]
    exact .head (c := ()) rfl hl

/-! ## The invariant -/

/-- What a handler relies on at an operation, for a FIN with seq `q`. -/
def Local (q : ℕ) (s : Cell) : Op → Prop
  | finSwap q' | finStore q' => q' = q
  | closeCas | closeLoadSeq => s.conn.finReceived = true
  | closeCheck q' => q' = q ∨ q ≤ s.conn.reorder.expected
  | closeStore => q ≤ s.conn.reorder.expected
  | _ => True

structure Ordered (q : ℕ) (x : Config Cell Op) : Prop where
  reorder : x.shared.conn.reorder.Unwrapped
  locals : ∀ t ∈ x.tasks, ∀ i ∈ t, Local q x.shared i
  stored : x.shared.conn.finReceived = true → Ahead x (finStore q) ∨ x.shared.conn.finSeq = q
  closed : ∀ e ∈ x.shared.closedAt, q ≤ e

section Exec

variable {q : ℕ} {s s' : Cell} {i j : Op} {is : List Op}

theorem deliver_reorder (vc : VirtConnDe) (f : Frame) :
    (vc.deliver f).1.reorder = (vc.reorder.push f.seq.toNat f.payload).1 := by
  simp only [VirtConnDe.deliver]
  split
  · rfl
  · split <;> rfl

theorem deliver_finSeq (vc : VirtConnDe) (f : Frame) : (vc.deliver f).1.finSeq = vc.finSeq := by
  obtain ⟨r, e, h⟩ := deliver_fst vc f
  rw [h]

/-- Only a delivery changes the reorder buffer, and it moves `expected` forward. -/
theorem exec_reorder (h : exec s i () = some (s', is)) (hr : s.conn.reorder.Unwrapped)
    (hseq : ∀ f, i = deliver f → f.seq.toNat + 1 < 2 ^ 64) :
    s'.conn.reorder.Unwrapped ∧ s.conn.reorder.expected ≤ s'.conn.reorder.expected := by
  cases i with
  | deliver f =>
    cases h
    simp only [deliver_reorder]
    exact ReorderBuf.push_unwrapped hr (hseq f rfl) _
  | _ =>
    simp only [exec] at h
    (repeat' split at h) <;> cases h <;> exact ⟨hr, le_rfl⟩

theorem exec_finReceived (h : exec s i () = some (s', is)) (hf : s.conn.finReceived = true) :
    s'.conn.finReceived = true := by
  cases i with
  | deliver f =>
    cases h
    simpa using hf
  | _ =>
    simp only [exec] at h
    (repeat' split at h) <;> cases h <;> first | exact hf | rfl

/-- What one handler relies on survives the steps of the others. -/
theorem Local.mono (hle : s.conn.reorder.expected ≤ s'.conn.reorder.expected)
    (hfin : s.conn.finReceived = true → s'.conn.finReceived = true) (hj : Local q s j) :
    Local q s' j := by
  cases j with
  | closeCas => exact hfin hj
  | closeLoadSeq => exact hfin hj
  | closeCheck q' => exact hj.imp_right fun h => le_trans h hle
  | closeStore => exact le_trans hj hle
  | _ => exact hj

/-- The operations a step leaves behind. -/
theorem exec_locals (h : exec s i () = some (s', is)) (hi : Local q s i)
    (hload : i = closeLoadSeq → s.conn.finSeq = q ∨ q ≤ s.conn.reorder.expected) :
    ∀ j ∈ is, Local q s' j := by
  cases i with
  | finSwap q' =>
    cases h
    split <;> simp [Local]
    exact hi
  | closeCas =>
    simp only [exec] at h
    split at h <;> cases h
    · simpa [Local] using hi
    · simp
  | closeLoadSeq =>
    cases h
    simpa [Local] using hload rfl
  | closeCheck q' =>
    cases h
    split
    · rename_i hc
      have hle : q' ≤ s.conn.reorder.expected := by simpa [ReorderBuf.isCompleteThrough] using hc
      rcases hi with rfl | hq
      · simpa [Local] using hle
      · simpa [Local] using hq
    · simp [Local]
  | loadFinReceived =>
    cases h
    split
    · rename_i hf
      simpa [Local] using hf
    · simp
  | _ =>
    simp only [exec] at h
    (repeat' split at h) <;> cases h <;> simp [Local]

theorem exec_finSeq (h : exec s i () = some (s', is)) (hi : Local q s i)
    (hs : s.conn.finSeq = q) : s'.conn.finSeq = q := by
  cases i with
  | deliver f =>
    cases h
    simpa [deliver_finSeq] using hs
  | finStore q' =>
    cases h
    exact hi
  | _ =>
    simp only [exec] at h
    (repeat' split at h) <;> cases h <;> exact hs

/-- `fin_received` is set by the FIN handler's swap, and then its store is ahead. -/
theorem exec_received (h : exec s i () = some (s', is)) (hi : Local q s i)
    (hf : s'.conn.finReceived = true) : s.conn.finReceived = true ∨ finStore q ∈ is := by
  cases i with
  | finSwap q' =>
    cases h
    obtain rfl : q' = q := hi
    by_cases hr : s.conn.finReceived = true
    · exact .inl hr
    · exact .inr (by simp [hr])
  | deliver f =>
    cases h
    exact .inl (by simpa using hf)
  | _ =>
    left
    simp only [exec] at h
    (repeat' split at h) <;> cases h <;> exact hf

theorem exec_closedAt (h : exec s i () = some (s', is)) (hi : Local q s i)
    (hc : ∀ e ∈ s.closedAt, q ≤ e) : ∀ e ∈ s'.closedAt, q ≤ e := by
  cases i with
  | closeStore =>
    cases h
    intro e he
    rcases List.mem_append.mp he with he | he
    · exact hc e he
    · obtain rfl := List.mem_singleton.mp he
      exact hi
  | _ =>
    simp only [exec] at h
    (repeat' split at h) <;> cases h <;> exact hc

end Exec

/-! ## Whole runs -/

theorem unstored_of_ahead {q : ℕ} {s : Cell} {l r : List (List Op)} {k : List Op}
    (h : Ahead ⟨s, l ++ (closeLoadSeq :: k) :: r⟩ (finStore q))
    (hq : s.conn.reorder.expected < q) : (k :: (l ++ r)).any (unstored s) = true := by
  have hun : ∀ t, finStore q ∈ t → unstored s t = true := by
    intro t ht
    exact List.any_eq_true.mpr ⟨_, ht, by simpa using hq⟩
  obtain ⟨t, ht, hj⟩ := h
  refine List.any_eq_true.mpr ?_
  rcases List.mem_append.mp ht with hl | hcons
  · exact ⟨t, by simp [hl], hun t hj⟩
  · rcases List.mem_cons.mp hcons with rfl | hr
    · exact ⟨k, by simp, hun k (by simpa using hj)⟩
    · exact ⟨t, by simp [hr], hun t hj⟩

theorem ordered_task {q : ℕ} {s s' : Cell} {l r : List (List Op)} {i : Op} {k is : List Op}
    (hy : Ordered q ⟨s, l ++ (i :: k) :: r⟩) (he : exec s i () = some (s', is))
    (hok : published s (l ++ r) (i :: k) () = true) : Ordered q ⟨s', l ++ (is ++ k) :: r⟩ := by
  have hi : Local q s i := hy.locals (i :: k) (by simp) i (by simp)
  have hseq : ∀ f, i = deliver f → f.seq.toNat + 1 < 2 ^ 64 := by
    rintro f rfl
    exact of_decide_eq_true hok
  have hload : i = closeLoadSeq → s.conn.finSeq = q ∨ q ≤ s.conn.reorder.expected := by
    rintro rfl
    rcases hy.stored hi with ha | hs
    · refine .inr (Nat.le_of_not_lt fun hlt => ?_)
      simp only [published, unstored_of_ahead ha hlt] at hok
      cases hok
    · exact .inl hs
  obtain ⟨hr', hle⟩ := exec_reorder he hy.reorder hseq
  have hmono : ∀ j, Local q s j → Local q s' j := fun j => Local.mono hle (exec_finReceived he)
  refine ⟨hr', ?_, ?_, exec_closedAt he hi hy.closed⟩
  · intro t ht j hj
    rcases List.mem_append.mp ht with hl | hcons
    · exact hmono j (hy.locals t (by simp [hl]) j hj)
    · rcases List.mem_cons.mp hcons with rfl | hr
      · rcases List.mem_append.mp hj with hj | hj
        · exact exec_locals he hi hload j hj
        · exact hmono j (hy.locals (i :: k) (by simp) j (by simp [hj]))
      · exact hmono j (hy.locals t (by simp [hr]) j hj)
  · intro hf
    rcases exec_received he hi hf with hf0 | hnew
    · rcases hy.stored hf0 with ha | hs
      · rcases ahead_task (u := s') (n := is) ha with rfl | ha
        · cases he
          exact .inr rfl
        · exact .inl ha
      · exact .inr (exec_finSeq he hi hs)
    · exact .inl (ahead_new hnew)

theorem ordered_step {q : ℕ} {y z : Config Cell Op} (hy : Ordered q y)
    (hs : system.Step published y z) : Ordered q z := by
  cases hs with
  | task he hok => exact ordered_task hy he hok
  | spawn h =>
    refine ⟨hy.reorder, ?_, fun hf => (hy.stored hf).imp_left ahead_spawn, hy.closed⟩
    intro t ht j hj
    rcases List.mem_append.mp ht with ht | ht
    · exact hy.locals t ht j hj
    · obtain rfl := List.mem_singleton.mp ht
      cases h with
      | data f =>
        obtain rfl := List.mem_singleton.mp hj
        trivial
      | timer =>
        obtain rfl := List.mem_singleton.mp hj
        trivial
  | @env s s' ts h =>
    have hsame : ∀ e, Ordered q ⟨{ s with conn := { s.conn with egress := e } }, ts⟩ := fun e =>
      ⟨hy.reorder, fun t ht j hj => Local.mono le_rfl id (hy.locals t ht j hj), hy.stored, hy.closed⟩
    cases h with
    | egressRecv ch ch' a _ _ => exact hsame _
    | egressClose ch _ => exact hsame _

/-- **No premature half-close.**  A FIN handler with seq `q`, any number of DATA handlers and the force
timer on a fresh connection: in every run within `published`, whenever a close that is not forced moves
the state to closed, everything below `q` has been delivered. -/
theorem no_premature_close {connId : ConnId} {window q : ℕ} {x : Config Cell Op}
    (h : system.Runs published ⟨.new connId window, [[finSwap q]]⟩ x) :
    ∀ e ∈ x.shared.closedAt, q ≤ e := by
  have hinit : Ordered q ⟨.new connId window, [[finSwap q]]⟩ := by
    refine ⟨⟨ReorderBuf.withLimit_inv window, ?_⟩, ?_, ?_, ?_⟩
    · simp [Cell.new, VirtConnDe.new, ReorderBuf.withLimit]
    · simp [Local]
    · simp [Cell.new, VirtConnDe.new]
    · simp [Cell.new]
  exact (Runs.inv (P := Ordered q) h hinit fun y z => ordered_step).closed

/-- A move that steps a handler or starts one for a DATA frame. -/
def isDataMove : Move Cell Op Unit → Bool
  | .step _ _ => true
  | .start [deliver _] => true
  | _ => false

theorem allowed_of_isDataMove {ms : List (Move Cell Op Unit)} (h : ms.all isDataMove = true) :
    ∀ m ∈ ms, system.Allowed m := by
  intro m hm
  have hf := List.all_eq_true.mp h m hm
  unfold isDataMove at hf
  split at hf
  · trivial
  · exact fun _ => .data _
  · cases hf

/-- The FIN with seq 2 comes first, rolls back, and the DATA frame that fills the gap closes. -/
def gapSchedule : List (Move Cell Op Unit) :=
  List.replicate 6 (Move.step 0 ()) ++ [Move.start [deliver (.data 7 1 [1])]] ++ List.replicate 7 (Move.step 1 ())

theorem no_premature_close_gap : ∃ x,
    system.Runs published ⟨.new 7 maxReorderBytes, [[finSwap 2]]⟩ x ∧ Quiet x ∧
    x.shared.closedAt = [2] ∧ ∀ e ∈ x.shared.closedAt, 2 ≤ e := by
  obtain ⟨x, hx, hp⟩ := moves_exists (M := system) (g := published)
    (x := ⟨.new 7 maxReorderBytes, [[finSwap 2]]⟩)
    (p := fun x => decide (Quiet x ∧ x.shared.closedAt = [2]))
    (m := gapSchedule) (allowed_of_isDataMove rfl) (by decide)
  obtain ⟨hq, hc⟩ := of_decide_eq_true hp
  exact ⟨x, hx, hq, hc, no_premature_close hx⟩

/-- A DATA handler runs between the FIN handler's swap and its store. -/
def prematureSchedule : List (Move Cell Op Unit) :=
  [Move.step 0 (), Move.start [deliver (.data 7 1 [1])]] ++ List.replicate 6 (Move.step 1 ())

/-- With the FIN at seq 3 and only seq 1 delivered, the write half is closed. -/
theorem premature_close : ∃ x,
    system.Runs free ⟨.new 7 maxReorderBytes, [[finSwap 3]]⟩ x ∧ x.shared.conn.halfCloseState = 2 ∧
    x.shared.conn.forced = false ∧ ∃ e ∈ x.shared.closedAt, e < 3 := by
  obtain ⟨x, hx, hp⟩ := moves_exists (M := system) (g := free)
    (x := ⟨.new 7 maxReorderBytes, [[finSwap 3]]⟩)
    (p := fun x => decide (x.shared.conn.halfCloseState = 2 ∧ x.shared.conn.forced = false ∧
      ∃ e ∈ x.shared.closedAt, e < 3))
    (m := prematureSchedule) (allowed_of_isDataMove rfl) (by decide)
  exact ⟨x, hx, of_decide_eq_true hp⟩

end RoundRobin.Reassembler.HalfClose
