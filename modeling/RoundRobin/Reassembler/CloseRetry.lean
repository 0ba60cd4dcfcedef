import RoundRobin.Reassembler.Finish
import RoundRobin.Reassembler.ForceClose

/-!
# RoundRobin.Reassembler.CloseRetry — who closes the write half of a complete stream

A normal close that finds frames missing rolls back to open, so that the DATA handler that fills the gap tries
again.  But check and rollback are two steps: a DATA handler in between finds the close in progress, gives up,
and then nobody tries again (`closing_exec`, the branch at `closeCas`).  `retried` says that this does not
happen, and then a complete stream is closed without the force timer (`close_retried`).
-/

namespace RoundRobin.Reassembler.Finish

open TaskSystem Op

/-- The handlers of DATA frames and of FINs with seq `f`, an RST, and the ends of the egress reader; the force
timer is left out. -/
inductive HandlerSpawn (f : ℕ) : List Op → Prop where
  | data (g : Frame) : HandlerSpawn f [dataGet g]
  | fin : HandlerSpawn f [finGet f]
  | rst : HandlerSpawn f [connsRemove, closedInsert]
  | eof : HandlerSpawn f [eofStore, finishLoadFin]
  | unsent : HandlerSpawn f [closedInsert, connsRemove]

def handlers (f : ℕ) : TaskSystem Cell Op Unit := ⟨exec, fun _ => HandlerSpawn f, Env⟩

/-- The frame is replayed as a FIN. -/
def replayedFin (g : Frame) : Bool := !g.has flagData && g.has flagFin

/-- The SYN handler right after `conns.insert`; a FIN among the frames it replays has seq `f`. -/
inductive Established (f : ℕ) : List Op → Prop where
  | plain : Established f []
  | replay (fs : List Frame) : (∀ g ∈ fs, replayedFin g = true → g.seq.toNat = f) →
      Established f [replay fs none]

def rollsBack : Op → Bool
  | half .closeRollback => true
  | _ => false

/-- No close gives up because of one that is about to roll back, unless frames below the FIN are missing. -/
def retried (f : ℕ) : Guard Cell Op Unit := fun s others t _ =>
  match t with
  | half .closeCas :: k =>
    !(k :: others).any (fun t => t.any rollsBack) || !s.conn.reorder.isCompleteThrough f
  | _ => true

/-! ## What an operation is for -/

/-- It leads to the compare-exchange of a normal close. -/
def tries : Op → Bool
  | half .closeCas | dataLoadFin | replayLoadFin => true
  | _ => false

/-- It belongs to a normal close that is in progress. -/
def holds : Op → Bool
  | half .closeLoadSeq | half (.closeCheck _) | half .closeRollback | half .closeStore => true
  | _ => false

/-- The write half will be closed or tried to, or the connection removed. -/
def closing (i : Op) : Bool := removes i || tries i || (holds i && !rollsBack i)

/-- What the operations carry, for FINs with seq `f`. -/
def Sane (f : ℕ) : Op → Prop
  | half (.finSwap q) | half (.finStore q) | finGet q => q = f
  | half (.closeCheck q) => q = 0 ∨ q = f
  | half .forceSwap | half (.deliver _) | half .loadFinReceived => False
  | replay fs fin => (∀ g ∈ fs, replayedFin g = true → g.seq.toNat = f) ∧ ∀ q, fin = some q → q = f
  | _ => True

/-- The stream is complete and its write half still to be closed. -/
structure Owed (f : ℕ) (s : Cell) : Prop where
  fin : s.conn.finReceived = true
  complete : s.conn.reorder.isCompleteThrough f = true
  state : s.conn.halfCloseState ≠ 2
  inConns : s.inConns = true

section Exec

variable {f : ℕ} {s s' : Cell} {i : Op} {is k : List Op}

theorem sane_exec (he : exec s i () = some (s', is)) (hi : Sane f i)
    (hs : s.conn.finSeq = 0 ∨ s.conn.finSeq = f) : ∀ j ∈ is, Sane f j := by
  cases i with
  | half j =>
    simp only [exec, Option.map_eq_some_iff] at he
    obtain ⟨⟨h, js⟩, hj, heq⟩ := he
    obtain ⟨-, rfl⟩ := Prod.mk.inj heq
    cases j with
    | closeLoadSeq =>
      cases hj
      simpa [Sane, Cell.conn] using hs
    | finSwap q =>
      cases hj
      have hq : q = f := hi
      split <;> simp [Sane, hq]
    | forceSwap => cases hi
    | deliver g => cases hi
    | loadFinReceived => cases hi
    | _ =>
      simp only [HalfClose.exec] at hj
      (repeat' split at hj) <;> cases hj <;> simp [Sane]
  | finGet q =>
    have hq : q = f := hi
    cases he
    split <;> simp [Sane, finTail, hq]
  | replay fs fin =>
    obtain ⟨hfs, hfin⟩ := hi
    have hr : execReplay s fin fs = (s', is) := Option.some.inj he
    cases fs with
    | nil =>
      cases fin with
      | none =>
        cases hr
        simp
      | some q =>
        cases hr
        simp [Sane, finTail, hfin q rfl]
    | cons g fs =>
      have htail : ∀ g ∈ fs, replayedFin g = true → g.seq.toNat = f := fun g hg => hfs g (by simp [hg])
      simp only [execReplay] at hr
      split_ifs at hr with hd hf
      · split at hr <;> cases hr
        · simpa [Sane] using And.intro htail hfin
        · simpa [Sane] using And.intro htail hfin
        · simp [Sane]
      · cases hr
        have hg : g.seq.toNat = f := hfs g (by simp) (by simp [replayedFin, hd, hf])
        simpa [Sane, hg] using htail
      · cases hr
        simpa [Sane] using And.intro htail hfin
  | _ =>
    cases he
    (repeat' split) <;> simp [Sane]

/-- The half-close cells under an operation of a handler. -/
theorem exec_cells (he : exec s i () = some (s', is)) (hi : Sane f i)
    (hs : s.conn.finSeq = 0 ∨ s.conn.finSeq = f) :
    (s'.conn.finSeq = 0 ∨ s'.conn.finSeq = f) ∧ s'.conn.forced = s.conn.forced := by
  have hdel : ∀ g, ((s.setConn (s.conn.deliver g).1).conn.finSeq = 0 ∨
      (s.setConn (s.conn.deliver g).1).conn.finSeq = f) ∧
      (s.setConn (s.conn.deliver g).1).conn.forced = s.conn.forced := by
    intro g
    obtain ⟨r, e, h⟩ := deliver_fst s.conn g
    rw [h]
    exact ⟨hs, rfl⟩
  cases i with
  | half j =>
    simp only [exec, Option.map_eq_some_iff] at he
    obtain ⟨⟨h, js⟩, hj, heq⟩ := he
    obtain ⟨rfl, -⟩ := Prod.mk.inj heq
    cases j with
    | finStore q =>
      cases hj
      exact ⟨.inr hi, rfl⟩
    | forceSwap => cases hi
    | deliver g => cases hi
    | loadFinReceived => cases hi
    | _ =>
      simp only [HalfClose.exec] at hj
      (repeat' split at hj) <;> cases hj <;> exact ⟨hs, rfl⟩
  | deliver g =>
    cases he
    exact hdel g
  | replay fs fin =>
    have hr : execReplay s fin fs = (s', is) := Option.some.inj he
    rcases execReplay_cases s fin fs with
      ⟨h, -⟩ | ⟨seq, h⟩ | ⟨g, h⟩ | ⟨g, fs', fin', is', -, -, h | h⟩
    all_goals
      rw [hr] at h
      obtain ⟨rfl, -⟩ := Prod.mk.inj h
      first | exact ⟨hs, rfl⟩ | exact hdel g
  | connsRemove =>
    simp only [exec] at he
    cases he
    split <;> exact ⟨hs, rfl⟩
  | _ =>
    cases he
    exact ⟨hs, rfl⟩

theorem cell_state (he : exec s i () = some (s', is)) :
    (s'.conn.halfCloseState = s.conn.halfCloseState ∧ ∀ j, i ≠ half j) ∨
    ∃ j js, i = half j ∧ is = js.map half ∧ HalfClose.exec s.half j () = some (s'.half, js) := by
  have hdel : ∀ g, (s.setConn (s.conn.deliver g).1).conn.halfCloseState = s.conn.halfCloseState :=
    fun g => (HalfClose.deliver_state s.conn g).1
  cases i with
  | half j =>
    simp only [exec, Option.map_eq_some_iff] at he
    obtain ⟨⟨h, js⟩, hj, heq⟩ := he
    obtain ⟨rfl, rfl⟩ := Prod.mk.inj heq
    exact .inr ⟨j, js, rfl, rfl, hj⟩
  | deliver g =>
    cases he
    exact .inl ⟨hdel g, by simp⟩
  | replay fs fin =>
    refine .inl ⟨?_, by simp⟩
    have hr : execReplay s fin fs = (s', is) := Option.some.inj he
    rcases execReplay_cases s fin fs with
      ⟨h, -⟩ | ⟨seq, h⟩ | ⟨g, h⟩ | ⟨g, fs', fin', is', -, -, h | h⟩
    all_goals
      rw [hr] at h
      obtain ⟨rfl, -⟩ := Prod.mk.inj h
      first | rfl | exact hdel g
  | connsRemove =>
    simp only [exec] at he
    cases he
    split <;> exact .inl ⟨rfl, by simp⟩
  | _ =>
    cases he
    exact .inl ⟨rfl, by simp⟩

/-- Where a close is in progress, one of its operations is ahead. -/
theorem half_holder {j : HalfClose.Op} {h h' : HalfClose.Cell} {js : List HalfClose.Op}
    (he : HalfClose.exec h j () = some (h', js)) (h1 : h'.state = 1) :
    (js.map half).any holds = true ∨ h.state = 1 ∧ holds (half j) = false := by
  cases j with
  | closeCas =>
    simp only [HalfClose.exec] at he
    split at he <;> cases he
    · exact .inl rfl
    · exact .inr ⟨h1, rfl⟩
  | closeLoadSeq =>
    cases he
    exact .inl rfl
  | closeCheck q =>
    cases he
    split <;> exact .inl rfl
  | closeRollback =>
    simp only [HalfClose.exec] at he
    split at he <;> cases he
    · cases h1
    · contradiction
  | closeStore =>
    cases he
    cases h1
  | deliver g =>
    cases he
    exact .inr ⟨(HalfClose.deliver_state h.conn g).1.symm.trans h1, rfl⟩
  | forceSwap =>
    simp only [HalfClose.exec] at he
    split at he <;> cases he
    · exact .inr ⟨h1, rfl⟩
    · cases h1
  | _ =>
    cases he
    exact .inr ⟨h1, rfl⟩

theorem exec_holder (he : exec s i () = some (s', is)) (h1 : s'.conn.halfCloseState = 1) :
    is.any holds = true ∨ s.conn.halfCloseState = 1 ∧ holds i = false := by
  rcases cell_state he with ⟨hst, hi⟩ | ⟨j, js, rfl, rfl, hj⟩
  · refine .inr ⟨hst.symm.trans h1, ?_⟩
    cases i with
    | half j => exact absurd rfl (hi j)
    | _ => rfl
  · exact half_holder hj h1

theorem deliver_refused {vc : VirtConnDe} {g : Frame} (h : (vc.deliver g).2 = .duplicate) :
    (vc.deliver g).1.reorder = vc.reorder := by
  have hacc : (vc.reorder.push g.seq.toNat g.payload).2.accepted = false := by
    by_contra ha
    have ha : (vc.reorder.push g.seq.toNat g.payload).2.accepted = true := by simpa using ha
    simp only [VirtConnDe.deliver, ha, Bool.not_true, Bool.false_eq_true, if_false] at h
    (repeat' split at h) <;> cases h
  rw [HalfClose.deliver_reorder]
  exact ReorderBuf.push_refused hacc

theorem half_owed {j : HalfClose.Op} {h h' : HalfClose.Cell} {js : List HalfClose.Op}
    (he : HalfClose.exec h j () = some (h', js)) (hi : Sane f (half j)) (hfin : h'.conn.finReceived = true)
    (hst : h'.conn.halfCloseState ≠ 2) :
    (h.conn.finReceived = true ∨ (js.map half).any closing = true) ∧
      h'.conn.reorder = h.conn.reorder ∧ h.conn.halfCloseState ≠ 2 := by
  have hstate : h.conn.halfCloseState ≠ 2 := fun h2 => hst (HalfClose.exec_closed_state he h2)
  cases j with
  | deliver g => cases hi
  | finSwap q =>
    cases he
    refine ⟨?_, rfl, hstate⟩
    cases hf : h.conn.finReceived with
    | true => exact .inl rfl
    | false => exact .inr rfl
  | _ =>
    simp only [HalfClose.exec] at he
    (repeat' split at he) <;> cases he <;> exact ⟨.inl hfin, rfl, hstate⟩

theorem owed_setConn {g : Frame} (hs : Owed f (s.setConn (s.conn.deliver g).1))
    (hc : s.conn.reorder.isCompleteThrough f = true) : Owed f s := by
  obtain ⟨r, e, h⟩ := deliver_fst s.conn g
  obtain ⟨h1, -, h3, h4⟩ := hs
  rw [h] at h1 h3
  exact ⟨h1, hc, h3, h4⟩

/-- What completes the stream leaves a close, or the removal of the connection, ahead. -/
theorem exec_owed (he : exec s i () = some (s', is)) (hi : Sane f i) (hs : Owed f s') :
    Owed f s ∨ is.any closing = true := by
  have hdel : ∀ g, (s.conn.deliver g).2 = .duplicate → Owed f (s.setConn (s.conn.deliver g).1) → Owed f s := by
    intro g hdup ho
    refine owed_setConn ho ?_
    rw [← deliver_refused hdup]
    exact ho.complete
  cases i with
  | half j =>
    simp only [exec, Option.map_eq_some_iff] at he
    obtain ⟨⟨h, js⟩, hj, heq⟩ := he
    obtain ⟨rfl, rfl⟩ := Prod.mk.inj heq
    obtain ⟨hfin, hreorder, hst⟩ := half_owed hj hi hs.fin hs.state
    refine hfin.imp_left fun hfin => ⟨hfin, ?_, hst, hs.inConns⟩
    rw [Cell.conn, ← hreorder]
    exact hs.complete
  | deliver g =>
    cases hd : (s.conn.deliver g).2 with
    | duplicate =>
      simp only [exec, hd] at he
      cases he
      exact .inl (hdel g hd hs)
    | _ =>
      simp only [exec, hd] at he
      cases he
      exact .inr rfl
  | replay fs fin =>
    have hr : execReplay s fin fs = (s', is) := Option.some.inj he
    cases fs with
    | nil =>
      cases fin <;> cases hr <;> exact .inl hs
    | cons g fs =>
      simp only [execReplay] at hr
      split_ifs at hr
      · cases hd : (s.conn.deliver g).2 with
        | duplicate =>
          simp only [hd] at hr
          cases hr
          exact .inl (hdel g hd hs)
        | _ =>
          simp only [hd] at hr
          cases hr
          exact .inr rfl
      · cases hr
        exact .inl hs
      · cases hr
        exact .inl hs
  | connsForget =>
    cases he
    cases hs.inConns
  | connsRemove =>
    simp only [exec] at he
    split at he
    · cases he
      cases hs.inConns
    · cases he
      exact .inl hs
  | _ =>
    cases he
    exact .inl ⟨hs.fin, hs.complete, hs.state, hs.inConns⟩

/-- Where a close is ahead one stays ahead, until the write half is closed; unless it finds another one in
progress. -/
theorem exec_closing (he : exec s i () = some (s', is)) (hi : Sane f i) (hc : closing i = true)
    (hs : Owed f s') : is.any closing = true ∨ (i = half .closeCas ∧ s.conn.halfCloseState ≠ 0) := by
  cases i with
  | half j =>
    simp only [exec, Option.map_eq_some_iff] at he
    obtain ⟨⟨h, js⟩, hj, heq⟩ := he
    obtain ⟨rfl, rfl⟩ := Prod.mk.inj heq
    cases j with
    | closeCas =>
      simp only [HalfClose.exec] at hj
      split at hj <;> cases hj
      · exact .inl rfl
      · rename_i h0
        exact .inr ⟨rfl, h0⟩
    | closeLoadSeq =>
      cases hj
      exact .inl rfl
    | closeCheck q =>
      cases hj
      have hle : f ≤ s.half.conn.reorder.expected := of_decide_eq_true hs.complete
      have hq : s.half.conn.reorder.isCompleteThrough q = true := by
        rcases hi with rfl | rfl
        · simp [ReorderBuf.isCompleteThrough]
        · simpa [ReorderBuf.isCompleteThrough] using hle
      rw [if_pos hq]
      exact .inl rfl
    | closeStore =>
      cases hj
      exact absurd rfl hs.state
    | _ => cases hc
  | dataLoadFin =>
    cases he
    rw [if_pos hs.fin]
    exact .inl rfl
  | replayLoadFin =>
    cases he
    rw [if_pos hs.fin]
    exact .inl rfl
  | connsForget =>
    cases he
    cases hs.inConns
  | connsRemove =>
    have hno := exec_inConns he (.inr rfl)
    rw [hs.inConns] at hno
    cases hno
  | _ => cases hc

end Exec

/-! ## Whole runs -/

theorem any_closing_of_holds {t : List Op} (hh : t.any holds = true) (hr : ∀ j ∈ t, rollsBack j = false) :
    t.any closing = true := by
  obtain ⟨j, hj, hhj⟩ := List.any_eq_true.mp hh
  exact List.any_eq_true.mpr ⟨j, hj, by simp [closing, hhj, hr j hj]⟩

/-- A complete stream is closed, or somebody is about to close it. -/
structure Retried (f : ℕ) (x : Config Cell Op) : Prop where
  sane : ∀ t ∈ x.tasks, ∀ i ∈ t, Sane f i
  finSeq : x.shared.conn.finSeq = 0 ∨ x.shared.conn.finSeq = f
  forced : x.shared.conn.forced = false
  state : x.shared.conn.halfCloseState ≤ 2
  holder : x.shared.conn.halfCloseState = 1 → Has holds x
  owed : Owed f x.shared → Has closing x

theorem retried_task {f : ℕ} {s s' : Cell} {l r : List (List Op)} {i : Op} {k is : List Op}
    (hy : Retried f ⟨s, l ++ (i :: k) :: r⟩) (he : exec s i () = some (s', is))
    (hok : retried f s (l ++ r) (i :: k) () = true) : Retried f ⟨s', l ++ (is ++ k) :: r⟩ := by
  have hi : Sane f i := hy.sane (i :: k) (by simp) i (by simp)
  have hstate : s.conn.halfCloseState ≤ 2 := hy.state
  obtain ⟨hseq, hforced⟩ := exec_cells he hi hy.finSeq
  refine ⟨?_, hseq, hforced.trans hy.forced, ?_, fun h1 => ?_, fun ho => ?_⟩
  · intro t ht j hj
    rcases List.mem_append.mp ht with hl | hcons
    · exact hy.sane t (by simp [hl]) j hj
    · rcases List.mem_cons.mp hcons with rfl | hr
      · rcases List.mem_append.mp hj with hj | hj
        · exact sane_exec he hi hy.finSeq j hj
        · exact hy.sane (i :: k) (by simp) j (by simp [hj])
      · exact hy.sane t (by simp [hr]) j hj
  · show s'.half.state ≤ 2
    rcases cell_state he with ⟨hst, -⟩ | ⟨j, js, rfl, rfl, hj⟩
    · exact hst.trans_le hstate
    · have hle : s.half.state ≤ 2 := hstate
      rcases HalfClose.exec_state hj with h | ⟨-, h⟩ | ⟨-, h⟩ | ⟨h, -⟩ <;> omega
  · rcases exec_holder he h1 with hnew | ⟨hs1, hno⟩
    · exact has_new hnew
    · rcases has_task (u := s') (n := is) (hy.holder hs1) with hi | hh
      · cases hno.symm.trans hi
      · exact hh
  · rcases exec_owed he hi ho with hs | hnew
    · rcases has_task (u := s') (n := is) (hy.owed hs) with hc | hc
      · rcases exec_closing he hi hc ho with hnew | ⟨rfl, h0⟩
        · exact has_new hnew
        · -- it gave up, so another close is in progress, and that one does not roll back
          have h1 : s.conn.halfCloseState = 1 := by
            have := hs.state
            omega
          have hnone : is = [] := by
            simp only [exec, HalfClose.exec, if_neg (show s.half.conn.halfCloseState ≠ 0 from h0)] at he
            cases he
            rfl
          subst hnone
          simp only [retried, hs.complete, Bool.not_true, Bool.or_false, Bool.not_eq_true',
            List.any_eq_false, Bool.not_eq_true] at hok
          rcases has_task (u := s') (n := []) (hy.holder h1) with hi | ⟨t, ht, hh⟩
          · cases hi
          · refine ⟨t, ht, any_closing_of_holds hh (hok t ?_)⟩
            simp only [List.nil_append, List.mem_append, List.mem_cons] at ht ⊢
            rcases ht with ht | ht | ht
            · exact .inr (.inl ht)
            · exact .inl ht
            · exact .inr (.inr ht)
      · exact hc
    · exact has_new hnew

theorem env_cell {s s' : Cell} (h : Env s s') : s'.conn.finReceived = s.conn.finReceived ∧
    s'.conn.finSeq = s.conn.finSeq ∧ s'.conn.forced = s.conn.forced ∧
    s'.conn.halfCloseState = s.conn.halfCloseState ∧ s'.conn.reorder = s.conn.reorder ∧
    s'.inConns = s.inConns := by
  cases h with
  | egress h' he => cases he <;> exact ⟨rfl, rfl, rfl, rfl, rfl, rfl⟩

theorem retried_step {f : ℕ} {y z : Config Cell Op} (hy : Retried f y)
    (hs : (handlers f).Step (retried f) y z) : Retried f z := by
  cases hs with
  | task he hok => exact retried_task hy he hok
  | spawn h =>
    refine ⟨fun t ht j hj => ?_, hy.finSeq, hy.forced, hy.state, fun h1 => has_spawn (hy.holder h1),
      fun ho => has_spawn (hy.owed ho)⟩
    rcases List.mem_append.mp ht with ht | ht
    · exact hy.sane t ht j hj
    · obtain rfl := List.mem_singleton.mp ht
      cases h with
      | data g =>
        obtain rfl := List.mem_singleton.mp hj
        trivial
      | fin =>
        obtain rfl := List.mem_singleton.mp hj
        exact rfl
      | _ =>
        simp only [List.mem_cons, List.not_mem_nil, or_false] at hj
        rcases hj with rfl | rfl <;> trivial
  | env h =>
    obtain ⟨h1, h2, h3, h4, h5, h6⟩ := env_cell h
    refine ⟨hy.sane, by rw [h2]; exact hy.finSeq, h3.trans hy.forced, h4.trans_le hy.state,
      fun hst => hy.holder (h4.symm.trans hst), fun ho => hy.owed ?_⟩
    obtain ⟨o1, o2, o3, o4⟩ := ho
    exact ⟨h1.symm.trans o1, by rw [← h5]; exact o2, by rw [← h4]; exact o3, h6.symm.trans o4⟩

/-- **A normal close is not left to the force timer.**  Handlers of DATA frames and of FINs with seq `f`, from
the moment the SYN handler registered the connection: in every run within `retried`, whenever no task is
mid-step, the connection is registered, the FIN was received and the stream is complete through `f`, the write
half is closed, and not by the timer. -/
theorem close_retried {f : ℕ} {connId : ConnId} {window : ℕ} {tombstoned : Bool} {t : List Op}
    {x : Config Cell Op} (ht : Established f t)
    (h : (handlers f).Runs (retried f) ⟨.new connId window tombstoned, [t]⟩ x) (hq : Quiet x)
    (hreg : x.shared.inConns = true) (hfin : x.shared.conn.finReceived = true)
    (hc : x.shared.conn.reorder.isCompleteThrough f = true) :
    x.shared.conn.halfCloseState = 2 ∧ x.shared.conn.forced = false := by
  have hinit : Retried f ⟨.new connId window tombstoned, [t]⟩ := by
    refine ⟨fun u hu j hj => ?_, .inl rfl, rfl, Nat.zero_le _, fun h1 => ?_, fun ho => ?_⟩
    · obtain rfl := List.mem_singleton.mp hu
      cases ht with
      | plain => cases hj
      | replay fs hfs =>
        obtain rfl := List.mem_singleton.mp hj
        exact ⟨hfs, by simp⟩
    · cases h1
    · cases ho.fin
  have hx := Runs.inv (P := Retried f) h hinit fun y z => retried_step
  refine ⟨?_, hx.forced⟩
  by_contra hst
  exact hq.not_has closing (hx.owed ⟨hfin, hc, hst, hreg⟩)

/-- A move that steps a task or starts a handler. -/
def isHandlerMove (f : ℕ) : Move Cell Op Unit → Bool
  | .step _ _ => true
  | .start [dataGet _] => true
  | .start [finGet q] => decide (q = f)
  | _ => false

theorem allowed_of_isHandlerMove {f : ℕ} {ms : List (Move Cell Op Unit)}
    (h : ms.all (isHandlerMove f) = true) : ∀ m ∈ ms, (handlers f).Allowed m := by
  intro m hm
  have hf := List.all_eq_true.mp h m hm
  unfold isHandlerMove at hf
  split at hf
  · trivial
  · exact fun _ => .data _
  · obtain rfl := of_decide_eq_true hf
    exact fun _ => .fin
  · cases hf

/-- The FIN handler rolls back, and then the frame that fills the gap arrives. -/
def retrySchedule : List (Move Cell Op Unit) :=
  [Move.start [finGet 2]] ++ List.replicate 9 (Move.step 1 ()) ++
  [Move.start [dataGet (.data 7 1 [1])]] ++ List.replicate 10 (Move.step 2 ())

theorem close_retried_gap : ∃ x,
    (handlers 2).Runs (retried 2) ⟨.new 7 maxReorderBytes false, [[]]⟩ x ∧ Quiet x ∧
    x.shared.inConns = true ∧ x.shared.conn.halfCloseState = 2 ∧ x.shared.conn.forced = false := by
  obtain ⟨x, hx, hp⟩ := moves_exists (M := handlers 2) (g := retried 2)
    (x := ⟨.new 7 maxReorderBytes false, [[]]⟩)
    (p := fun x => decide (Quiet x ∧ x.shared.inConns = true ∧ x.shared.conn.finReceived = true ∧
      x.shared.conn.reorder.isCompleteThrough 2 = true))
    (m := retrySchedule) (allowed_of_isHandlerMove rfl) (by decide)
  obtain ⟨hq, hreg, hfin, hc⟩ := of_decide_eq_true hp
  exact ⟨x, hx, hq, hreg, close_retried .plain hx hq hreg hfin hc⟩

/-- The frame that fills the gap is delivered between the FIN handler's check and its rollback. -/
def gaveUpSchedule : List (Move Cell Op Unit) :=
  [Move.start [finGet 2]] ++ List.replicate 6 (Move.step 1 ()) ++
  [Move.start [dataGet (.data 7 1 [1])]] ++ List.replicate 6 (Move.step 2 ()) ++ List.replicate 3 (Move.step 1 ())

/-- The stream is complete, nobody is left to close the write half, and it is open. -/
theorem close_given_up : ∃ x,
    (handlers 2).Runs free ⟨.new 7 maxReorderBytes false, [[]]⟩ x ∧ Quiet x ∧ x.shared.inConns = true ∧
    x.shared.conn.finReceived = true ∧ x.shared.conn.reorder.isCompleteThrough 2 = true ∧
    x.shared.conn.halfCloseState = 0 := by
  obtain ⟨x, hx, hp⟩ := moves_exists (M := handlers 2) (g := free)
    (x := ⟨.new 7 maxReorderBytes false, [[]]⟩)
    (p := fun x => decide (Quiet x ∧ x.shared.inConns = true ∧ x.shared.conn.finReceived = true ∧
      x.shared.conn.reorder.isCompleteThrough 2 = true ∧ x.shared.conn.halfCloseState = 0))
    (m := gaveUpSchedule) (allowed_of_isHandlerMove rfl) (by decide)
  exact ⟨x, hx, of_decide_eq_true hp⟩

end RoundRobin.Reassembler.Finish
