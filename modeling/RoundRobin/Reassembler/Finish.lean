import RoundRobin.Reassembler.HalfClose

/-!
# RoundRobin.Reassembler.Finish — the removal of a finished connection

`finish_if_done` and everybody who calls it, or does not: the handlers of one TCP connection, its egress
reader and its force timer, one atomic operation at a time on top of `RoundRobin.Reassembler.HalfClose`.

A connection is finished when the FIN was received, the target's EOF was seen and the write half is closed.
Whoever makes the last of the three true has to look again.  The FIN and DATA handlers and the reader do;
the force timer and the replay of frames buffered before the SYN close the write half without looking.
`watched` says that they do not do so behind the EOF, and then a finished connection is always removed
(`finished_removed`).
-/

namespace RoundRobin.Reassembler.Finish

open TaskSystem

/-- A connection and what the two maps say about its id. -/
structure Cell where
  half : HalfClose.Cell
  inConns : Bool
  tombstoned : Bool

inductive Op where
  /-- An operation of `start_half_close` or `close_write_half`. -/
  | half (i : HalfClose.Op)
  -- `finish_if_done`
  | finishLoadFin
  | finishLoadEof
  | finishLoadState
  | closedInsert
  /-- `conns.remove`, in `finish_if_done`. -/
  | connsForget
  /-- `conns.remove` and `signal_teardown` of what it returned. -/
  | connsRemove
  -- a DATA handler
  | dataGet (f : Frame)
  | deliver (f : Frame)
  | dataLoadFin
  -- a FIN handler
  | finGet (seq : ℕ)
  -- the egress reader
  | eofStore
  -- the SYN handler, after the drain of the pending entry
  | replay (fs : List Frame) (fin : Option ℕ)
  | replayLoadFin
  deriving DecidableEq

open Op

namespace Cell

def conn (s : Cell) : VirtConnDe := s.half.conn

def setConn (s : Cell) (vc : VirtConnDe) : Cell := { s with half := { s.half with conn := vc } }

/-- A connection that was just registered. -/
def new (connId : ConnId) (window : ℕ) (tombstoned : Bool) : Cell :=
  ⟨HalfClose.Cell.new connId window, true, tombstoned⟩

/-- Both directions are finished. -/
def Finished (s : Cell) : Prop :=
  s.conn.finReceived = true ∧ s.conn.egressEof = true ∧ s.conn.halfCloseState = 2

/-- Removed and tombstoned. -/
def Gone (s : Cell) : Prop := s.inConns = false ∧ s.tombstoned = true

end Cell

/-- `start_half_close`, then `finish_if_done`. -/
def finTail (seq : ℕ) : List Op := [half (.finSwap seq), finishLoadFin]

/-- Replay the frames of the pending entry; `fin` is the seq of the last FIN among those before. -/
def execReplay (s : Cell) (fin : Option ℕ) : List Frame → Cell × List Op
  | [] =>
    match fin with
    | none => (s, [])
    | some seq => (s, finTail seq)
  | f :: fs =>
    if f.has flagData then
      let d := s.conn.deliver f
      match d.2 with
      | .duplicate => (s.setConn d.1, [replay fs fin])
      | .delivered => (s.setConn d.1, [replayLoadFin, replay fs fin])
      | _ => (s.setConn d.1, [connsRemove, closedInsert])
    else if f.has flagFin then (s, [replay fs (some f.seq.toNat)])
    else (s, [replay fs fin])

/-- One operation. -/
def exec (s : Cell) (i : Op) (_ : Unit) : Option (Cell × List Op) :=
  match i with
  | half j => (HalfClose.exec s.half j ()).map fun r => ({ s with half := r.1 }, r.2.map half)
  | finishLoadFin => some (s, if s.conn.finReceived then [finishLoadEof] else [])
  | finishLoadEof => some (s, if s.conn.egressEof then [finishLoadState] else [])
  | finishLoadState =>
    some (s, if s.conn.halfCloseState < 2 then [] else [closedInsert, connsForget])
  | closedInsert => some ({ s with tombstoned := true }, [])
  | connsForget => some ({ s with inConns := false }, [])
  | connsRemove =>
    some (if s.inConns then { s.setConn s.conn.signalTeardown with inConns := false } else s, [])
  | dataGet f => some (s, if s.inConns then [deliver f] else [])
  | deliver f =>
    let d := s.conn.deliver f
    some (s.setConn d.1,
      match d.2 with
      | .duplicate => []
      | .delivered => [dataLoadFin]
      | _ => [closedInsert, connsRemove])
  | dataLoadFin => some (s, if s.conn.finReceived then [half .closeCas, finishLoadFin] else [])
  | finGet seq => some (s, if s.inConns then finTail seq else [])
  | eofStore => some (s.setConn { s.conn with egressEof := true }, [])
  | replay fs fin => some (execReplay s fin fs)
  | replayLoadFin => some (s, if s.conn.finReceived then [half .closeCas] else [])

/-- Handlers of frames that find the connection, the force timer once the FIN handler started it, and the end of
the egress reader: the target's EOF, or a response that no tunnel took. -/
inductive Spawn (s : Cell) : List Op → Prop where
  | data (f : Frame) : Spawn s [dataGet f]
  | fin (seq : ℕ) : Spawn s [finGet seq]
  | rst : Spawn s [connsRemove, closedInsert]
  | timer : s.conn.finReceived = true → Spawn s [half .forceSwap]
  | eof : Spawn s [eofStore, finishLoadFin]
  | unsent : Spawn s [closedInsert, connsRemove]

/-- The egress writer receives or goes away. -/
inductive Env (s : Cell) : Cell → Prop where
  | egress (h : HalfClose.Cell) : HalfClose.Env s.half h → Env s { s with half := h }

def system : TaskSystem Cell Op Unit := ⟨exec, Spawn, Env⟩

/-- The SYN handler right after `conns.insert`: no entry was pending, an RST had cancelled it, or its frames are
replayed. -/
inductive Registering : List Op → Prop where
  | plain : Registering []
  | cancelled : Registering [connsRemove, closedInsert]
  | replay (fs : List Frame) : Registering [.replay fs none]

/-- The task is going to look whether the connection is finished. -/
def looks : Op → Bool
  | finishLoadFin => true
  | replay fs fin => fin.isSome || fs.any fun f => !f.has flagData && f.has flagFin
  | _ => false

/-- Nobody closes the write half behind the EOF without looking afterwards. -/
def watched : Guard Cell Op Unit := fun s _ t _ =>
  match t with
  | half .forceSwap :: k | half .closeStore :: k =>
    !s.conn.egressEof || decide (s.conn.halfCloseState = 2) || k.any looks
  | _ => true

/-! ## What an operation changes -/

/-- The task is looking, or is going to. -/
def looking : Op → Bool
  | finishLoadEof | finishLoadState => true
  | i => looks i

def removes : Op → Bool
  | connsForget | connsRemove => true
  | _ => false

def tombs : Op → Bool
  | closedInsert => true
  | _ => false

/-- Behind the swap of `fin_received` and the store of `egress_eof`, the task looks. -/
def Covered : List Op → Prop
  | [] => True
  | half (.finSwap _) :: k | eofStore :: k => finishLoadFin ∈ k ∧ Covered k
  | _ :: k => Covered k

section Exec

variable {s s' : Cell} {i : Op} {is k : List Op}

theorem covered_tail (h : Covered (i :: k)) : Covered k := by
  cases i with
  | half j => cases j <;> first | exact h | exact h.2
  | eofStore => exact h.2
  | _ => exact h

/-- No operation of the half-close sends a task on to something that has to be covered. -/
theorem covered_half {j : HalfClose.Op} {h h' : HalfClose.Cell} {js : List HalfClose.Op}
    (he : HalfClose.exec h j () = some (h', js)) (hk : Covered k) : Covered (js.map half ++ k) := by
  cases j with
  | _ =>
    simp only [HalfClose.exec] at he
    (repeat' split at he) <;> cases he <;> exact hk

/-- What a step of the replay does: the frames are done, one of them broke the stream, or it goes on. -/
theorem execReplay_cases (s : Cell) (fin : Option ℕ) (fs : List Frame) :
    (execReplay s fin fs = (s, []) ∧ looks (replay fs fin) = false) ∨
    (∃ seq, execReplay s fin fs = (s, finTail seq)) ∨
    (∃ f, execReplay s fin fs = (s.setConn (s.conn.deliver f).1, [connsRemove, closedInsert])) ∨
    ∃ f fs' fin' is, (is = [] ∨ is = [replayLoadFin]) ∧
      (looks (replay fs fin) = true → looks (replay fs' fin') = true) ∧
      (execReplay s fin fs = (s, is ++ [replay fs' fin']) ∨
        execReplay s fin fs = (s.setConn (s.conn.deliver f).1, is ++ [replay fs' fin'])) := by
  cases fs with
  | nil =>
    cases fin with
    | none => exact .inl ⟨rfl, rfl⟩
    | some seq => exact .inr (.inl ⟨seq, rfl⟩)
  | cons f fs =>
    simp only [execReplay]
    split_ifs with hd hf
    · cases hdel : (s.conn.deliver f).2 with
      | duplicate =>
        exact .inr (.inr (.inr ⟨f, fs, fin, [], .inl rfl, by simp [looks, hd], .inr rfl⟩))
      | delivered =>
        exact .inr (.inr (.inr ⟨f, fs, fin, [replayLoadFin], .inr rfl, by simp [looks, hd], .inr rfl⟩))
      | overflow => exact .inr (.inr (.inl ⟨f, rfl⟩))
      | writeFailed => exact .inr (.inr (.inl ⟨f, rfl⟩))
    · exact .inr (.inr (.inr ⟨f, fs, some f.seq.toNat, [], .inl rfl, by simp [looks], .inl rfl⟩))
    · exact .inr (.inr (.inr ⟨f, fs, fin, [], .inl rfl, by simp [looks, hf], .inl rfl⟩))

theorem covered_exec (he : exec s i () = some (s', is)) (h : Covered (i :: k)) : Covered (is ++ k) := by
  have hk := covered_tail h
  cases i with
  | half j =>
    simp only [exec, Option.map_eq_some_iff] at he
    obtain ⟨r, hr, heq⟩ := he
    obtain ⟨-, rfl⟩ := Prod.mk.inj heq
    exact covered_half hr hk
  | replay fs fin =>
    have hr : execReplay s fin fs = (s', is) := Option.some.inj he
    rcases execReplay_cases s fin fs with
      ⟨h, -⟩ | ⟨seq, h⟩ | ⟨f, h⟩ | ⟨f, fs', fin', is', rfl | rfl, -, h | h⟩
    all_goals
      rw [hr] at h
      obtain ⟨-, rfl⟩ := Prod.mk.inj h
      simp [Covered, finTail, hk]
  | _ =>
    simp only [exec, finTail] at he
    cases he
    (repeat' split) <;> simp [Covered, hk]

/-- Only the FIN handler's swap, the reader's store and the two ways to close the write half make one of the three
flags true. -/
theorem half_finished {j : HalfClose.Op} {h h' : HalfClose.Cell} {js : List HalfClose.Op}
    (he : HalfClose.exec h j () = some (h', js)) :
    h'.conn.egressEof = h.conn.egressEof ∧
      (h'.conn.finReceived = true → h.conn.finReceived = true ∨ ∃ q, j = .finSwap q) ∧
      (h'.conn.halfCloseState = 2 → h.conn.halfCloseState = 2 ∨ j = .forceSwap ∨ j = .closeStore) := by
  cases j with
  | deliver f =>
    cases he
    obtain ⟨r, e, hd⟩ := deliver_fst h.conn f
    simp only [hd]
    exact ⟨trivial, .inl, .inl⟩
  | _ =>
    simp only [HalfClose.exec] at he
    (repeat' split at he) <;> cases he <;> simp_all

theorem setConn_deliver_finished {f : Frame} (h : (s.setConn (s.conn.deliver f).1).Finished) : s.Finished := by
  obtain ⟨r, e, hd⟩ := deliver_fst s.conn f
  simp only [Cell.Finished, Cell.setConn, Cell.conn] at hd h ⊢
  rw [hd] at h
  exact h

theorem looking_of_looks (h : k.any looks = true) : k.any looking = true := by
  obtain ⟨j, hj, hl⟩ := List.any_eq_true.mp h
  refine List.any_eq_true.mpr ⟨j, hj, ?_⟩
  cases j <;> first | exact hl | rfl

/-- Who finishes a connection looks afterwards. -/
theorem exec_finished (he : exec s i () = some (s', is)) (hc : Covered (i :: k)) {others : List (List Op)}
    (hok : watched s others (i :: k) () = true) (hf : s'.Finished) :
    s.Finished ∨ k.any looking = true := by
  have hlook : finishLoadFin ∈ k → k.any looking = true :=
    fun h => List.any_eq_true.mpr ⟨_, h, rfl⟩
  cases i with
  | half j =>
    simp only [exec, Option.map_eq_some_iff] at he
    obtain ⟨r, hr, heq⟩ := he
    obtain ⟨rfl, -⟩ := Prod.mk.inj heq
    obtain ⟨heof, hfin, hstate⟩ := half_finished hr
    obtain ⟨h1, h2, h3⟩ := hf
    have heof' : s.conn.egressEof = true := heof.symm.trans h2
    rcases hfin h1 with hfin₁ | ⟨q, rfl⟩
    · rcases hstate h3 with hstate₁ | rfl | rfl
      · exact .inl ⟨hfin₁, heof', hstate₁⟩
      · simp only [watched, heof', Bool.not_true, Bool.false_or, Bool.or_eq_true, decide_eq_true_eq] at hok
        rcases hok with hok | hok
        · exact .inl ⟨hfin₁, heof', hok⟩
        · exact .inr (looking_of_looks hok)
      · simp only [watched, heof', Bool.not_true, Bool.false_or, Bool.or_eq_true, decide_eq_true_eq] at hok
        rcases hok with hok | hok
        · exact .inl ⟨hfin₁, heof', hok⟩
        · exact .inr (looking_of_looks hok)
    · exact .inr (hlook hc.1)
  | eofStore => exact .inr (hlook hc.1)
  | deliver f =>
    cases he
    exact .inl (setConn_deliver_finished hf)
  | replay fs fin =>
    have hr : execReplay s fin fs = (s', is) := Option.some.inj he
    left
    rcases execReplay_cases s fin fs with
      ⟨h, -⟩ | ⟨seq, h⟩ | ⟨f, h⟩ | ⟨f, fs', fin', is', -, -, h | h⟩
    all_goals
      rw [hr] at h
      obtain ⟨rfl, -⟩ := Prod.mk.inj h
      first | exact hf | exact setConn_deliver_finished hf
  | connsRemove =>
    left
    simp only [exec] at he
    cases he
    split at hf <;> exact hf
  | _ =>
    cases he
    exact .inl hf

/-- Who looks at a finished connection goes on looking, or removes it. -/
theorem exec_looking (he : exec s i () = some (s', is)) (hi : looking i = true) (hf : s'.Finished) :
    is.any looking = true ∨ (is.any removes = true ∧ is.any tombs = true) := by
  cases i with
  | finishLoadFin =>
    cases he
    obtain ⟨h1, -, -⟩ := hf
    exact .inl (by simp [h1, looking])
  | finishLoadEof =>
    cases he
    obtain ⟨-, h2, -⟩ := hf
    exact .inl (by simp [h2, looking])
  | finishLoadState =>
    cases he
    obtain ⟨-, -, h3⟩ := hf
    exact .inr (by simp [h3, removes, tombs])
  | replay fs fin =>
    have hr : execReplay s fin fs = (s', is) := Option.some.inj he
    rcases execReplay_cases s fin fs with
      ⟨-, hno⟩ | ⟨seq, h⟩ | ⟨f, h⟩ | ⟨f, fs', fin', is', -, hkeep, h⟩
    · have : looks (replay fs fin) = true := hi
      rw [hno] at this
      cases this
    · rw [hr] at h
      obtain ⟨-, rfl⟩ := Prod.mk.inj h
      exact .inl rfl
    · rw [hr] at h
      obtain ⟨-, rfl⟩ := Prod.mk.inj h
      exact .inr ⟨rfl, rfl⟩
    · have hnew : looking (replay fs' fin') = true := hkeep hi
      left
      rcases h with h | h
      all_goals
        rw [hr] at h
        obtain ⟨-, rfl⟩ := Prod.mk.inj h
        rw [List.any_append, List.any_cons, hnew, Bool.true_or, Bool.or_true]
  | _ => cases hi

/-- The connection leaves `conns` for good. -/
theorem exec_inConns (he : exec s i () = some (s', is)) (h : s.inConns = false ∨ removes i = true) :
    s'.inConns = false := by
  cases i with
  | half j =>
    simp only [exec, Option.map_eq_some_iff] at he
    obtain ⟨r, -, heq⟩ := he
    obtain ⟨rfl, -⟩ := Prod.mk.inj heq
    exact h.resolve_right nofun
  | replay fs fin =>
    have hr : execReplay s fin fs = (s', is) := Option.some.inj he
    have hs := h.resolve_right nofun
    rcases execReplay_cases s fin fs with
      ⟨h, -⟩ | ⟨seq, h⟩ | ⟨f, h⟩ | ⟨f, fs', fin', is', -, -, h | h⟩
    all_goals
      rw [hr] at h
      obtain ⟨rfl, -⟩ := Prod.mk.inj h
      exact hs
  | connsForget =>
    cases he
    rfl
  | connsRemove =>
    simp only [exec] at he
    cases he
    split
    · rfl
    · rename_i hn
      exact Bool.eq_false_iff.mpr hn
  | _ =>
    cases he
    exact h.resolve_right nofun

theorem exec_tombstoned (he : exec s i () = some (s', is)) (h : s.tombstoned = true ∨ tombs i = true) :
    s'.tombstoned = true := by
  cases i with
  | half j =>
    simp only [exec, Option.map_eq_some_iff] at he
    obtain ⟨r, -, heq⟩ := he
    obtain ⟨rfl, -⟩ := Prod.mk.inj heq
    exact h.resolve_right nofun
  | replay fs fin =>
    have hr : execReplay s fin fs = (s', is) := Option.some.inj he
    have hs := h.resolve_right nofun
    rcases execReplay_cases s fin fs with
      ⟨h, -⟩ | ⟨seq, h⟩ | ⟨f, h⟩ | ⟨f, fs', fin', is', -, -, h | h⟩
    all_goals
      rw [hr] at h
      obtain ⟨rfl, -⟩ := Prod.mk.inj h
      exact hs
  | closedInsert =>
    cases he
    rfl
  | connsRemove =>
    simp only [exec] at he
    cases he
    split <;> exact h.resolve_right nofun
  | _ =>
    cases he
    exact h.resolve_right nofun

end Exec

/-! ## Whole runs -/

/-- A finished connection is gone, or somebody is about to look or to remove it. -/
structure Inv (x : Config Cell Op) : Prop where
  covered : ∀ t ∈ x.tasks, Covered t
  removed : x.shared.Finished → Has looking x ∨
    ((x.shared.inConns = false ∨ Has removes x) ∧ (x.shared.tombstoned = true ∨ Has tombs x))

theorem inv_task {s s' : Cell} {l r : List (List Op)} {i : Op} {k is : List Op}
    (hy : Inv ⟨s, l ++ (i :: k) :: r⟩) (he : exec s i () = some (s', is))
    (hok : watched s (l ++ r) (i :: k) () = true) : Inv ⟨s', l ++ (is ++ k) :: r⟩ := by
  have hc : Covered (i :: k) := hy.covered _ (by simp)
  refine ⟨fun t ht => ?_, fun hf => ?_⟩
  · rcases List.mem_append.mp ht with hl | hcons
    · exact hy.covered t (by simp [hl])
    · rcases List.mem_cons.mp hcons with rfl | hr
      · exact covered_exec he hc
      · exact hy.covered t (by simp [hr])
  · rcases exec_finished he hc hok hf with hs | hk
    · rcases hy.removed hs with hlook | ⟨hconns, htomb⟩
      · rcases has_task (u := s') (n := is) hlook with hi | hlook
        · rcases exec_looking he hi hf with hnew | ⟨h1, h2⟩
          · exact .inl (has_new hnew)
          · exact .inr ⟨.inr (has_new h1), .inr (has_new h2)⟩
        · exact .inl hlook
      · refine .inr ⟨?_, ?_⟩
        · rcases hconns with h | h
          · exact .inl (exec_inConns he (.inl h))
          · rcases has_task (u := s') (n := is) h with h | h
            · exact .inl (exec_inConns he (.inr h))
            · exact .inr h
        · rcases htomb with h | h
          · exact .inl (exec_tombstoned he (.inl h))
          · rcases has_task (u := s') (n := is) h with h | h
            · exact .inl (exec_tombstoned he (.inr h))
            · exact .inr h
    · exact .inl (has_rest hk)

theorem inv_step {y z : Config Cell Op} (hy : Inv y) (hs : system.Step watched y z) : Inv z := by
  cases hs with
  | task he hok => exact inv_task hy he hok
  | @spawn s ts t h =>
    refine ⟨fun u hu => ?_, fun hf => ?_⟩
    · rcases List.mem_append.mp hu with hu | hu
      · exact hy.covered u hu
      · obtain rfl := List.mem_singleton.mp hu
        cases h <;> simp [Covered]
    · refine (hy.removed hf).imp has_spawn fun h => ⟨h.1.imp_right has_spawn, h.2.imp_right has_spawn⟩
  | env h =>
    cases h with
    | egress h' he =>
      refine ⟨hy.covered, fun hf => hy.removed ?_⟩
      cases he <;> exact hf

/-- **A finished connection is removed.**  From the moment the SYN handler registered it, in every run within
`watched`: whenever no task is mid-step and the connection is finished, it has left `conns` and is tombstoned. -/
theorem finished_removed {connId : ConnId} {window : ℕ} {tombstoned : Bool} {t : List Op}
    {x : Config Cell Op} (ht : Registering t)
    (h : system.Runs watched ⟨.new connId window tombstoned, [t]⟩ x) (hq : Quiet x)
    (hf : x.shared.Finished) : x.shared.Gone := by
  have hinit : Inv ⟨.new connId window tombstoned, [t]⟩ := by
    refine ⟨fun u hu => ?_, fun hf => ?_⟩
    · obtain rfl := List.mem_singleton.mp hu
      cases ht <;> simp [Covered]
    · obtain ⟨h1, -, -⟩ := hf
      simp [Cell.conn, Cell.new, HalfClose.Cell.new, VirtConnDe.new] at h1
  rcases (Runs.inv (P := Inv) h hinit fun y z => inv_step).removed hf with hl | ⟨h1, h2⟩
  · exact absurd hl (hq.not_has _)
  · exact ⟨h1.resolve_right (hq.not_has _), h2.resolve_right (hq.not_has _)⟩

/-- A move that steps a task or starts one that may start at any time. -/
def isPlainMove : Move Cell Op Unit → Bool
  | .step _ _ => true
  | .start [dataGet _] => true
  | .start [finGet _] => true
  | .start [eofStore, finishLoadFin] => true
  | _ => false

theorem allowed_of_isPlainMove {ms : List (Move Cell Op Unit)} (h : ms.all isPlainMove = true) :
    ∀ m ∈ ms, system.Allowed m := by
  intro m hm
  have hf := List.all_eq_true.mp h m hm
  unfold isPlainMove at hf
  split at hf
  · trivial
  · exact fun _ => .data _
  · exact fun _ => .fin _
  · exact fun _ => .eof
  · cases hf

/-- EOF from the target, a FIN with a gap, and the DATA frame that fills it. -/
def gapSchedule : List (Move Cell Op Unit) :=
  [Move.start [eofStore, finishLoadFin]] ++ List.replicate 2 (Move.step 1 ()) ++
  [Move.start [finGet 2]] ++ List.replicate 10 (Move.step 2 ()) ++
  [Move.start [dataGet (.data 7 1 [1])]] ++ List.replicate 13 (Move.step 3 ())

theorem finished_removed_gap : ∃ x,
    system.Runs watched ⟨.new 7 maxReorderBytes false, [[]]⟩ x ∧ x.shared.Finished ∧ x.shared.Gone := by
  obtain ⟨x, hx, hp⟩ := moves_exists (M := system) (g := watched)
    (x := ⟨.new 7 maxReorderBytes false, [[]]⟩)
    (p := fun x => decide (Quiet x ∧ x.shared.conn.finReceived = true ∧ x.shared.conn.egressEof = true ∧
      x.shared.conn.halfCloseState = 2))
    (m := gapSchedule) (allowed_of_isPlainMove rfl) (by decide)
  obtain ⟨hq, hf⟩ := of_decide_eq_true hp
  exact ⟨x, hx, hf, finished_removed .plain hx hq hf⟩

/-- EOF from the target, and a FIN with a gap that is never filled. -/
def stuckSchedule : List (Move Cell Op Unit) :=
  [Move.start [eofStore, finishLoadFin]] ++ List.replicate 2 (Move.step 1 ()) ++
  [Move.start [finGet 2]] ++ List.replicate 10 (Move.step 2 ())

/-- The force timer closes the write half, and the connection stays. -/
theorem finished_stays : ∃ x,
    system.Runs free ⟨.new 7 maxReorderBytes false, [[]]⟩ x ∧ Quiet x ∧ x.shared.Finished ∧
    x.shared.inConns = true ∧ x.shared.tombstoned = false := by
  obtain ⟨y, hy, hp⟩ := moves_exists (M := system) (g := free)
    (x := ⟨.new 7 maxReorderBytes false, [[]]⟩)
    (p := fun x => decide (Quiet x ∧ x.shared.conn.finReceived = true ∧ x.shared.conn.egressEof = true ∧
      x.shared.inConns = true ∧ x.shared.tombstoned = false ∧ x.shared.conn.halfCloseState = 0))
    (m := stuckSchedule) (allowed_of_isPlainMove rfl) (by decide)
  obtain ⟨hq, hfin, heof, hin, htomb, hstate⟩ := of_decide_eq_true hp
  obtain ⟨s, ts⟩ := y
  have hspawn : system.Step free ⟨s, ts⟩ ⟨s, ts ++ [[half .forceSwap]]⟩ := .spawn (.timer hfin)
  have hopen : s.half.conn.halfCloseState ≠ 2 := by
    rw [show s.half.conn.halfCloseState = 0 from hstate]
    decide
  have hforce : exec s (half .forceSwap) () = some
      (s.setConn { s.conn with halfCloseState := 2, forced := true }, [half .notifyHalfClose]) := by
    simp only [exec, HalfClose.exec, if_neg hopen]
    rfl
  have hstep₁ : system.Step free ⟨s, ts ++ [[half .forceSwap]]⟩ _ :=
    .task (r := []) (c := ()) hforce rfl
  refine ⟨_, ((hy.tail hspawn).tail hstep₁).tail (.task (r := []) (c := ()) rfl rfl), ?_, ?_, hin, htomb⟩
  · intro t ht
    rcases List.mem_append.mp ht with ht | ht
    · exact hq t ht
    · exact List.mem_singleton.mp ht
  · exact ⟨hfin, heof, rfl⟩

end RoundRobin.Reassembler.Finish
