import RoundRobin.Reassembler.Handoff.Locals

/-!
# RoundRobin.Reassembler.Handoff.Places — where an arrived frame is

Copies of a frame are counted at the four places it can be.  `exec_passed`: a step that `handover` allows
moves copies between the places and drops none.
-/

namespace RoundRobin.Reassembler

open Instr TaskSystem

/-- How often a handler carries `f` at an instruction. -/
def carries (f : Frame) : Instr → ℕ
  | handle g | dataDeliver _ g | dataCheckClosed g | dataContains g | dataLen g | reserveLoad _ g
  | reserveCas _ g _ | evictEmpty _ g | evictPick _ g | evictRemove _ g _ _ _ | dataPush g
  | dataInsert g | dataVanished g | finCheckClosed g | finContains g | finPush g | finLen g
  | finInsert g => if g = f then 1 else 0
  | synReplay _ _ frames _ => frames.count f
  | _ => 0

/-- A half-close is ahead. -/
def startsFin : Instr → Bool
  | startHalfClose _ _ _ | synReplay _ _ _ (some _) => true
  | _ => false

attribute [local simp] carries startsFin

/-- How often `f` is buffered. -/
def inEntry (c : ConnId) (f : Frame) (s : Shared) : ℕ :=
  (s.pending.get c).elim 0 fun e => e.frames.count f

/-- How often the connection got the DATA frame `f`. -/
def inConn (c : ConnId) (f : Frame) (s : Shared) : ℕ :=
  if isData f then (s.conns c).elim 0 fun v => (s.heap v).pushed.count f else 0

section Exec

variable {N : ℕ} {s s' : Shared} {i : Instr} {ch : Choice} {is k : List Instr} {c : ConnId} {f : Frame}

theorem inConn_setConn_of_pushed {v : ℕ} {vc : VirtConnDe} (h : vc.pushed = (s.heap v).pushed) :
    inConn c f (s.setConn v vc) = inConn c f s := by
  unfold inConn
  cases hc : s.conns c with
  | none => simp [hc]
  | some w =>
    by_cases hw : w = v
    · subst hw
      simp [hc, h]
    · simp [hc, setConn_heap_ne s v vc hw]

theorem inConn_received {v : ℕ} (vc : VirtConnDe) (plen now : ℕ) :
    inConn c f (s.setConn v (vc.received plen now)) = inConn c f (s.setConn v vc) := by
  unfold inConn
  cases hc : s.conns c with
  | none => simp [hc]
  | some w => by_cases hw : w = v <;> simp [Shared.setConn, hc, hw]

theorem inConn_deliver {v : ℕ} {g : Frame} (hv : s.conns c = some v) (hg : g.has flagData = true)
    (hkind : isData f = true ∨ isFin f = true) :
    inConn c f (s.setConn v ((s.heap v).deliver g).1) =
      inConn c f s + if g = f then 1 else 0 := by
  by_cases hd : isData f = true
  · simp [inConn, hd, hv, List.count_append, List.count_singleton]
  · have hne : g ≠ f := by
      rintro rfl
      simp [hd, isFin, hg] at hkind
    simp [inConn, hd, hne]

theorem execPush_tally {bytes : ℕ} {g : Frame} {full gone : List Instr} (hg : g.connId = c)
    (h : execPush s g bytes full gone = (s', is)) :
    (is = [] ∧ s'.arrived = s.arrived ∧ inConn c f s' = inConn c f s ∧
      inEntry c f s' = inEntry c f s + if g = f then 1 else 0) ∨
    (is = full ∧ s' = s) ∨ (is = gone ∧ s' = s ∧ s.pending.get c = none) := by
  subst hg
  unfold execPush at h
  split at h
  · rename_i e he
    split at h
    · obtain ⟨rfl, rfl⟩ := Prod.mk.inj h
      refine .inl ⟨rfl, rfl, rfl, ?_⟩
      simp [inEntry, he, List.count_append, List.count_singleton]
    · obtain ⟨rfl, rfl⟩ := Prod.mk.inj h
      exact .inr (.inl ⟨rfl, rfl⟩)
  · rename_i he
    obtain ⟨rfl, rfl⟩ := Prod.mk.inj h
    exact .inr (.inr ⟨rfl, rfl, he⟩)

theorem insertEntry_tally {g : Frame} {bytes : ℕ} (hg : g.connId = c)
    (he : (s.pending.get c).all fun e => e.frames = []) :
    inEntry c f (insertEntry s g bytes) = inEntry c f s + if g = f then 1 else 0 := by
  subst hg
  cases hp : s.pending.get g.connId with
  | none => simp [inEntry, insertEntry, hp, List.count_singleton]
  | some e =>
    have hnil : e.frames = [] := by simpa [hp] using he
    simp [inEntry, insertEntry, hp, hnil, List.count_singleton]

/-- No copy of `f` gets lost in the step. -/
def Passed (c : ConnId) (f : Frame) (s : Shared) (i : Instr) (s' : Shared) (is : List Instr) : Prop :=
  s'.arrived.count f + carries f i + (inEntry c f s + inConn c f s) ≤
    s.arrived.count f + (is.map (carries f)).sum + (inEntry c f s' + inConn c f s')

theorem insertEntry_passed {g : Frame} {bytes : ℕ} (hg : g.connId = c)
    (he : (s.pending.get c).all fun e => e.frames = [])
    (hcar : carries f i = if g = f then 1 else 0) : Passed c f s i (insertEntry s g bytes) [] := by
  simp only [Passed, hcar, insertEntry_tally hg he, List.map_nil, List.sum_nil]
  simp only [inConn, insertEntry]
  omega

theorem handle_passed {g : Frame} (h : exec s (handle g) ch = some (s', is)) (hs : Sound N c s)
    (hi : Local N c s (handle g)) (hkind : isData f = true ∨ isFin f = true) :
    (isFin f = true ∧ is.any startsFin = true) ∨ Passed c f s (handle g) s' is := by
  by_cases hgf : g = f
  · subst hgf
    obtain ⟨rfl, -⟩ := hi
    simp only [exec, execHandle, flagSyn_of_kind hkind, Bool.false_eq_true, if_false] at h
    rcases hkind with hd | hfi
    · rw [if_pos (isData_iff.mp hd).2] at h
      right
      split at h
      · rename_i v hv
        rw [if_neg (by simp [(hs.stream v hv).1])] at h
        cases h
        simp [Passed, carries]
      · cases h
        simp [Passed, carries]
    · obtain ⟨-, hdata, hfin⟩ := isFin_iff.mp hfi
      rw [if_neg (by simp [hdata]), if_pos hfin] at h
      split at h
      · rename_i v hv
        rw [if_neg (by simp [(hs.stream v hv).1])] at h
        cases h
        exact .inl ⟨hfi, by simp [startsFin]⟩
      · cases h
        exact .inr (by simp [Passed, carries])
  · right
    have hst := handle_state h hi
    subst hst
    simp [Passed, carries, hgf]

theorem replay_passed {v : ℕ} {g : Frame} {gs : List Frame} {fin : Option ℕ}
    (h : execReplay s c v fin (g :: gs) = (s', is)) (hv : s.conns c = some v)
    (hkind : isData f = true ∨ isFin f = true) :
    Dooms c is ∨ (isFin f = true ∧ is.any startsFin = true) ∨
      Passed c f s (synReplay c v (g :: gs) fin) s' is := by
  simp only [execReplay] at h
  split at h
  · rename_i hgd
    split at h <;> obtain ⟨rfl, rfl⟩ := Prod.mk.inj h
    · refine .inr (.inr ?_)
      simp only [Passed, carries, List.count_cons, List.map_cons, List.map_nil, List.sum_cons,
        List.sum_nil, inConn_deliver hv hgd hkind]
      simp only [inEntry, Shared.setConn]
      simp only [beq_iff_eq]
      omega
    · refine .inr (.inr ?_)
      simp only [Passed, carries, List.count_cons, List.map_cons, List.map_nil, List.sum_cons,
        List.sum_nil, inConn_deliver hv hgd hkind]
      simp only [inEntry, Shared.setConn]
      simp only [beq_iff_eq]
      omega
    · exact .inl (dooms_drainReset _)
  · rename_i hnd
    split at h
    · obtain ⟨rfl, rfl⟩ := Prod.mk.inj h
      rcases hkind with hd | hfi
      · have hne : g ≠ f := by
          rintro rfl
          simp [isData, hnd] at hd
        exact .inr (.inr (by simp [Passed, carries, hne]))
      · exact .inr (.inl ⟨hfi, by simp [startsFin]⟩)
    · rename_i hnf
      obtain ⟨rfl, rfl⟩ := Prod.mk.inj h
      have hne : g ≠ f := by
        rintro rfl
        simp [isData, isFin, hnd, hnf] at hkind
      exact .inr (.inr (by simp [Passed, carries, hne]))

theorem syn_passed (h : exec s i ch = some (s', is)) (hs : Sound N c s) (hi : Local N c s i)
    (hnew : ∀ u, i = synInsert c u → s.conns c = none) (hkind : isData f = true ∨ isFin f = true)
    (hg : inSyn i = true) :
    Dooms c is ∨ (isFin f = true ∧ is.any startsFin = true) ∨ Passed c f s i s' is := by
  cases i with
  | synReserve g =>
    obtain ⟨rfl, -⟩ := hi
    cases h
    refine .inr (.inr ?_)
    cases hp : s.pending.get g.connId <;> simp [Passed, carries, inEntry, inConn, hp, PendingEntry.new]
  | synConnect c' n =>
    simp only [exec] at h
    refine .inr (.inr ?_)
    split at h
    · cases h
      simp [Passed, carries]
    · cases h
      simp [Passed, carries]
    · simp [hi.2.2] at h
    · cases h
  | synInsert c' u =>
    obtain ⟨rfl, rfl⟩ := hi
    cases h
    refine .inr (.inr ?_)
    simp [Passed, carries, inEntry, inConn, hnew false rfl]
  | synDrain c' v =>
    obtain ⟨rfl, hv⟩ := hi
    simp only [exec] at h
    split at h
    · cases h
      exact .inr (.inr (by simp [Passed, carries]))
    · rename_i e he
      cases h
      refine .inr (.inr ?_)
      simp [Passed, afterDrain, hs.unmarked e he, (hs.stream v hv).1, carries, inEntry, inConn, he]
      omega
  | synReplay c' v fs fin =>
    obtain ⟨rfl, hv⟩ := hi
    cases fs with
    | nil => cases fin <;> cases h <;> exact .inr (.inr (by simp [Passed, carries]))
    | cons g gs => exact replay_passed (Option.some.inj h) hv hkind
  | replayClose v =>
    cases h
    refine .inr (.inr ?_)
    split
    · simp only [Passed, carries, inConn_setConn_of_pushed (closeWriteHalf_pushed _ _)]
      exact le_rfl
    · simp [Passed, carries]
  | _ =>
    first
    | (cases hg; done)
    | (cases h
       exact .inr (.inr (by simp [Passed, carries, inEntry, inConn])))

theorem reserve_passed (h : exec s i ch = some (s', is)) (hi : Local N c s i)
    (hg : inReserve i = true) : Dooms c is ∨ Passed c f s i s' is := by
  cases i with
  | reserveLoad fresh g =>
    cases h
    exact .inr (by simp [Passed, carries])
  | reserveCas fresh g cur =>
    simp only [exec, execCas] at h
    refine .inr ?_
    split at h
    · split at h
      · cases h
        cases fresh <;> simp [Passed, carries, inEntry, inConn]
      · cases h
        simp [Passed, carries]
    · cases h
      simp [Passed, carries]
  | evictEmpty fresh g =>
    obtain ⟨rfl, -⟩ := hi
    cases h
    split
    · exact .inl (dooms_failPendingConn [])
    · exact .inr (by simp [Passed, carries])
  | evictPick fresh g =>
    obtain ⟨rfl, -⟩ := hi
    simp only [exec] at h
    (repeat' split at h) <;> cases h
    · exact .inl (dooms_failPendingConn [])
    · exact .inr (by simp [Passed, carries])
  | evictRemove fresh g key bytes cancel =>
    simp only [exec] at h
    split at h
    · cases h
      exact .inr (by simp [Passed, carries])
    · cases h
      by_cases hkey : key = c
      · subst hkey
        exact .inl ⟨by simp, by simp⟩
      · have hget := Table.get_del_ne s.pending (Ne.symm hkey)
        exact .inr (by simp [Passed, carries, inEntry, inConn, hget])
  | _ => cases hg

theorem fin_passed {others : List (List Instr)} (h : exec s i ch = some (s', is)) (hs : Sound N c s)
    (hi : Local N c s i) (hok : handover s others (i :: k) ch = true) (hg : inFin i = true) :
    Dooms c is ∨ Passed c f s i s' is := by
  cases i with
  | finCheckClosed g =>
    obtain ⟨rfl, -⟩ := hi
    cases h
    simp [Passed, carries, hs.closed]
  | finContains g =>
    cases h
    exact .inr (by split <;> simp [Passed, carries])
  | finPush g =>
    obtain ⟨rfl, hd, hkn⟩ := hi
    rcases execPush_tally (f := f) rfl (Option.some.inj h) with ⟨rfl, ha, hc, he⟩ | ⟨rfl, rfl⟩ |
      ⟨rfl, rfl, hp⟩
    · refine .inr ?_
      simp only [Passed, carries, ha, hc, he, List.map_nil, List.sum_nil]
      omega
    · exact .inl (dooms_failPendingConn [])
    · exfalso
      have hc : s'.conns g.connId = none := by simpa [handover, hs.closed, hp] using hok
      simp [Known, hp, hc] at hkn
  | finLen g =>
    obtain ⟨rfl, -⟩ := hi
    cases h
    split
    · exact .inr (by simp [Passed, carries])
    · exact .inl (dooms_failPendingConn [])
  | finInsert g =>
    obtain ⟨rfl, -⟩ := hi
    cases h
    have hnil : (s.pending.get g.connId).all fun e => e.frames = [] := by
      simp only [handover, hs.closed, Option.isSome_none, Bool.false_or, Bool.and_eq_true] at hok
      exact hok.1
    exact .inr (insertEntry_passed rfl hnil rfl)
  | startHalfClose v c' q =>
    cases h
    refine .inr ?_
    simp only [Passed, carries, inConn_setConn_of_pushed (startHalfClose_pushed _ _)]
    exact le_rfl
  | finishIfDone v c' =>
    obtain ⟨rfl, hv⟩ := hi
    cases h
    simp [Passed, carries, VirtConnDe.isDone, (hs.stream v hv).2]
  | _ => cases hg

/-- **No step loses a frame** of a live conn id, unless it dooms it or the frame is a FIN and a
half-close is ahead. -/
theorem exec_passed {others : List (List Instr)} (h : exec s i ch = some (s', is)) (hs : Sound N c s)
    (hi : Local N c s i) (hok : handover s others (i :: k) ch = true)
    (hnew : ∀ u, i = synInsert c u → s.conns c = none) (hkind : isData f = true ∨ isFin f = true) :
    Dooms c is ∨ (isFin f = true ∧ is.any startsFin = true) ∨ Passed c f s i s' is := by
  by_cases hsyn : inSyn i = true
  · exact syn_passed h hs hi hnew hkind hsyn
  by_cases hres : inReserve i = true
  · exact (reserve_passed h hi hres).imp_right .inr
  by_cases hfin : inFin i = true
  · exact (fin_passed h hs hi hok hfin).imp_right .inr
  cases i with
  | dispatch g =>
    cases h
    refine .inr (.inr ?_)
    simp [Passed, carries, inEntry, inConn, List.count_append, List.count_singleton]
  | handle g => exact .inr (handle_passed h hs hi hkind)
  | dataDeliver v g =>
    obtain ⟨rfl, hd, hv⟩ := hi
    have hgd : g.has flagData = true := (isData_iff.mp hd).2
    simp only [exec, execDeliver] at h
    split at h <;> cases h
    · refine .inr (.inr ?_)
      simp only [Passed, carries, inConn_deliver hv hgd hkind]
      simp only [inEntry, Shared.setConn, List.map_nil, List.sum_nil]
      omega
    · refine .inr (.inr ?_)
      simp only [Passed, carries, inConn_received, inConn_deliver hv hgd hkind]
      simp only [inEntry, Shared.setConn, List.map_cons, List.map_nil, List.sum_cons, List.sum_nil,
        carries]
      omega
    · exact .inl (dooms_dataReset _)
  | dataClose v c' =>
    simp only [exec] at h
    split at h <;> cases h
    · refine .inr (.inr ?_)
      simp only [Passed, carries, inConn_setConn_of_pushed (closeWriteHalf_pushed _ _)]
      exact le_rfl
    · exact .inr (.inr (by simp [Passed, carries]))
  | dataCheckClosed g =>
    obtain ⟨rfl, -⟩ := hi
    cases h
    simp [Passed, carries, hs.closed]
  | dataContains g =>
    cases h
    exact .inr (.inr (by split <;> simp [Passed, carries]))
  | dataLen g =>
    obtain ⟨rfl, -⟩ := hi
    cases h
    split
    · exact .inr (.inr (by simp [Passed, carries]))
    · exact .inl (dooms_failPendingConn [])
  | dataPush g =>
    obtain ⟨rfl, hd, hkn⟩ := hi
    rcases execPush_tally (f := f) rfl (Option.some.inj h) with ⟨rfl, ha, hc, he⟩ | ⟨rfl, rfl⟩ |
      ⟨rfl, rfl, -⟩
    · refine .inr (.inr ?_)
      simp only [Passed, carries, ha, hc, he, List.map_nil, List.sum_nil]
      omega
    · exact .inl (dooms_failPendingConn [_])
    · exact .inr (.inr (by simp [Passed, carries]))
  | dataInsert g =>
    obtain ⟨rfl, -⟩ := hi
    cases h
    have hnil : (s.pending.get g.connId).all fun e => e.frames = [] := by
      simp only [handover, hs.closed, Option.isSome_none, Bool.false_or, Bool.and_eq_true] at hok
      exact hok.1
    exact .inr (.inr (insertEntry_passed rfl hnil rfl))
  | dataVanished g =>
    obtain ⟨rfl, -, hc⟩ := hi
    cases h
    rw [if_pos hc]
    exact .inr (.inr (by simp [Passed, carries]))
  | notifyCancel n =>
    cases h
    refine .inr (.inr ?_)
    cases n <;> simp [Passed, carries, inEntry, inConn, Shared.notify]
  | _ =>
    first
    | exact hi.elim
    | exact absurd rfl hsyn
    | exact absurd rfl hres
    | exact absurd rfl hfin
    | (cases h
       exact .inr (.inr (by simp [Passed, carries, inEntry, inConn, Shared.fetchSub])))

/-- The SYN handler has not registered the connection yet. -/
def opening : Instr → ℕ
  | dispatch f | handle f => if f.has flagSyn then 1 else 0
  | synRegister _ | synReserve _ | synCheckClosed _ _ | synConnect _ _ | synRecheckClosed _
  | synInsert _ _ => 1
  | _ => 0

/-- One opening makes at most one connection. -/
theorem exec_opening (h : exec s i ch = some (s', is)) (hi : Local N c s i) :
    (is.map opening).sum + (s'.conns c).isSome.toNat ≤ opening i + (s.conns c).isSome.toNat := by
  cases i with
  | handle f =>
    rw [handle_state h hi]
    simp only [exec, execHandle] at h
    (repeat' split at h) <;> cases h <;> simp_all [opening]
  | dataVanished f =>
    obtain ⟨-, hd, -⟩ := hi
    cases h
    split <;> simp [opening, (isData_iff.mp hd).1]
  | synInsert c' u =>
    obtain ⟨rfl, rfl⟩ := hi
    cases h
    simp [opening]
  | synReplay c' v fs fin =>
    cases fs <;> simp only [exec, execReplay] at h <;> (repeat' split at h) <;> cases h <;>
      simp [opening, drainReset]
  | synDrain c' v =>
    simp only [exec, afterDrain] at h
    (repeat' split at h) <;> cases h
    · simp [opening]
    · simp [opening, drainCancelled]
    · rcases forwardFrames_cases c' v _ with hf | ⟨g, fs, hf⟩ <;> rw [hf] <;> simp [opening]
    · simp [opening]
  | _ =>
    first
    | exact hi.elim
    | (simp only [exec, execSynCheckClosed, execDeliver, execCas, execPush] at h
       (repeat' split at h) <;> cases h <;>
         simp [opening, synFail, synClosed, synCancelled, dataReset, failPendingConn, insertEntry, Shared.fetchSub])

theorem willDrain_iff {t : List Instr} : willDrain c t = true ↔ ∃ v, synDrain c v ∈ t := by
  simp only [willDrain, List.any_eq_true]
  constructor
  · rintro ⟨j, hj, hd⟩
    split at hd
    · obtain rfl := of_decide_eq_true hd
      exact ⟨_, hj⟩
    · cases hd
  · rintro ⟨v, hv⟩
    exact ⟨_, hv, by simp⟩

theorem execPush_isSome {bytes : ℕ} {g : Frame} {full gone : List Instr} (hg : g.connId = c)
    (h : execPush s g bytes full gone = (s', is)) (hp : (s'.pending.get c).isSome) :
    (s.pending.get c).isSome := by
  subst hg
  unfold execPush at h
  split at h
  · rename_i e he
    simp [he]
  · obtain ⟨rfl, -⟩ := Prod.mk.inj h
    exact hp

/-- An entry of an established connection was there before, or its drain is ahead. -/
theorem exec_undrained {others : List (List Instr)} (h : exec s i ch = some (s', is))
    (hs : Sound N c s) (hi : Local N c s i) (hok : handover s others (i :: k) ch = true)
    (hnone : opening i = 1 → s.conns c = none) (hc : (s'.conns c).isSome)
    (hp : (s'.pending.get c).isSome) :
    ((s.conns c).isSome ∧ (s.pending.get c).isSome ∧ ∀ v, i ≠ synDrain c v) ∨
      (∃ v, synDrain c v ∈ is) ∨ ∃ t ∈ others, ∃ v, synDrain c v ∈ t := by
  have insert_ok {f : Frame} (hf : f.connId = c) (hc : (s.conns c).isSome)
      (hok : ((s.closed f.connId).isSome || ((s.pending.get f.connId).all fun e => e.frames = []) &&
        ((s.conns f.connId).isNone || others.any (willDrain f.connId))) = true) :
      ∃ t ∈ others, ∃ v, synDrain c v ∈ t := by
    subst hf
    obtain ⟨v, hv⟩ := Option.isSome_iff_exists.mp hc
    simp only [hs.closed, hv, Option.isSome_none, Option.isNone_some, Bool.false_or,
      Bool.and_eq_true, List.any_eq_true] at hok
    obtain ⟨t, ht, hd⟩ := hok.2
    exact ⟨t, ht, willDrain_iff.mp hd⟩
  rcases exec_registers h hc with hc0 | ⟨u, rfl⟩
  · by_cases hw : i.writesPending = true
    · cases i with
      | synReserve f =>
        rw [hnone rfl] at hc0
        cases hc0
      | synDrain c' v =>
        obtain ⟨rfl, -⟩ := hi
        simp only [exec] at h
        split at h
        · rename_i hn
          cases h
          simp [hn] at hp
        · cases h
          simp at hp
      | dataInsert f => exact .inr (.inr (insert_ok hi.1 hc0 hok))
      | finInsert f => exact .inr (.inr (insert_ok hi.1 hc0 hok))
      | evictRemove fresh f key bytes cancel =>
        refine .inl ⟨hc0, ?_, by simp⟩
        simp only [exec] at h
        split at h
        · cases h
          exact hp
        · cases h
          by_cases hk : c = key
          · simp [hk] at hp
          · simpa [Table.get_del_ne _ hk] using hp
      | dataPush f => exact .inl ⟨hc0, execPush_isSome hi.1 (Option.some.inj h) hp, by simp⟩
      | finPush f => exact .inl ⟨hc0, execPush_isSome hi.1 (Option.some.inj h) hp, by simp⟩
      | _ => first | exact hi.elim | cases hw
    · refine .inl ⟨hc0, ?_, ?_⟩
      · rwa [← exec_pending h (by simpa using hw)]
      · rintro v rfl
        exact hw rfl
  · cases h
    exact .inr (.inl ⟨s.nextConn, by simp⟩)

theorem setConn_finReceived {v w : ℕ} {vc : VirtConnDe}
    (h : (s.heap v).finReceived = true → vc.finReceived = true)
    (hw : (s.heap w).finReceived = true) : ((s.setConn v vc).heap w).finReceived = true := by
  by_cases hwv : w = v
  · subst hwv
    simpa using h hw
  · simpa [setConn_heap_ne s v vc hwv] using hw

/-- A half-close once started stays started. -/
theorem exec_finReceived {v : ℕ} (h : exec s i ch = some (s', is)) (hi : Local N c s i)
    (hins : ∀ c' u, i ≠ synInsert c' u) (hv : (s.heap v).finReceived = true) :
    (s'.heap v).finReceived = true := by
  cases i with
  | handle f => rwa [handle_state h hi]
  | synInsert c' u => exact absurd rfl (hins c' u)
  | synReplay c' w fs fin =>
    cases fs <;> simp only [exec, execReplay] at h <;> (repeat' split at h) <;> cases h <;>
      first | exact hv | exact setConn_finReceived (by simp) hv
  | _ =>
    first
    | exact hi.elim
    | (simp only [exec, execDeliver, execCas, execPush] at h
       (repeat' split at h) <;> cases h <;> first
         | exact hv
         | exact setConn_finReceived (by simp) hv
         | (simp only [notify_heap]; exact hv))

/-- A half-close that is ahead starts, or stays ahead. -/
theorem exec_startsFin (h : exec s i ch = some (s', is)) (hi : Local N c s i)
    (hst : startsFin i = true) :
    Dooms c is ∨ (∃ v, s'.conns c = some v ∧ (s'.heap v).finReceived = true) ∨
      ∃ j ∈ is, startsFin j = true := by
  cases i with
  | startHalfClose v c' q =>
    obtain ⟨rfl, hv⟩ := hi
    cases h
    exact .inr (.inl ⟨v, hv, by simp⟩)
  | synReplay c' v fs fin =>
    obtain ⟨rfl, hv⟩ := hi
    cases fin with
    | none => cases hst
    | some q =>
      cases fs with
      | nil =>
        cases h
        exact .inr (.inr ⟨_, List.mem_cons_self, rfl⟩)
      | cons g gs =>
        simp only [exec, execReplay] at h
        (repeat' split at h) <;> cases h <;> first
          | exact .inl (dooms_drainReset _)
          | exact .inr (.inr ⟨_, List.mem_cons_self, rfl⟩)
          | exact .inr (.inr ⟨_, List.mem_cons_of_mem _ List.mem_cons_self, rfl⟩)
  | _ => cases hst

end Exec

end RoundRobin.Reassembler
