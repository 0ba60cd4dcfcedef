import RoundRobin.Reassembler.Handoff.Parties

/-!
# RoundRobin.Reassembler.Handoff.Locals — what a handler relies on between its steps

Of a conn id that is not doomed, every instruction still to run has a fact about the maps that its
handler has seen (`Local`).  A step keeps the facts the other handlers rely on (`exec_effect`) and leaves
instructions whose own facts hold (`exec_locals`), or it dooms the conn id.
-/

namespace RoundRobin.Reassembler

open Instr TaskSystem

/-- `c` has an entry or a connection. -/
def Known (c : ConnId) (s : Shared) : Prop := (s.pending.get c).isSome ∨ (s.conns c).isSome

/-- What a handler relies on at an instruction while `c` is not doomed; `N` bounds the cancel signals
that are not those of `c`'s handshake. -/
def Local (N : ℕ) (c : ConnId) (s : Shared) : Instr → Prop
  | dispatch f | handle f => f.connId = c ∧ (StreamSyn f ∨ isData f = true ∨ isFin f = true)
  | synRegister f | synReserve f => f.connId = c ∧ StreamSyn f
  | synCheckClosed f n => f.connId = c ∧ StreamSyn f ∧ N ≤ n ∧ s.notified n = false
  | synConnect c' n => c' = c ∧ N ≤ n ∧ s.notified n = false
  | synRecheckClosed c' => c' = c
  | synInsert c' isUdp => c' = c ∧ isUdp = false
  | synDrain c' v | synReplay c' v _ _ => c' = c ∧ s.conns c = some v
  | startHalfClose v c' _ | dataClose v c' | finishIfDone v c' => c' = c ∧ s.conns c = some v
  | replayClose v => s.conns c = some v
  | dataDeliver v f => f.connId = c ∧ isData f = true ∧ s.conns c = some v
  | dataCheckClosed f | dataContains f | dataLen f | dataInsert f => f.connId = c ∧ isData f = true
  | reserveLoad fresh f | reserveCas fresh f _ | evictEmpty fresh f | evictPick fresh f =>
    f.connId = c ∧ isData f = true ∧ (fresh = false → Known c s)
  | evictRemove fresh f key _ cancel =>
    f.connId = c ∧ isData f = true ∧ (fresh = false → Known c s) ∧
      (key ≠ c → ∀ n, cancel = some n → n < N)
  | dataPush f => f.connId = c ∧ isData f = true ∧ Known c s
  | dataVanished f => f.connId = c ∧ isData f = true ∧ (s.conns c).isSome
  | finCheckClosed f | finContains f | finLen f | finInsert f => f.connId = c ∧ isFin f = true
  | finPush f => f.connId = c ∧ isFin f = true ∧ Known c s
  | notifyCancel n => ∀ m, n = some m → m < N
  | closedInsert c' | sendRst c' => c' ≠ c
  | refund _ _ | handshakingRemove _ => True
  | _ => False

/-- The maps' view of `c` while it is not doomed. -/
structure Sound (N : ℕ) (c : ConnId) (s : Shared) : Prop where
  closed : s.closed c = none
  unmarked : ∀ e, s.pending.get c = some e → e.cancelled = false
  foreign : ∀ c' e n, c' ≠ c → s.pending.get c' = some e → e.cancel = some n → n < N
  bound : N ≤ s.nextNotify
  unused : ∀ n, s.nextNotify ≤ n → s.notified n = false
  stream : ∀ v, s.conns c = some v → (s.heap v).isUdp = false ∧ (s.heap v).egressEof = false

/-- What other handlers rely on survives. -/
structure Keeps (N : ℕ) (c : ConnId) (s s' : Shared) : Prop where
  conns : ∀ v, s.conns c = some v → s'.conns c = some v
  known : Known c s → Known c s'
  notified : ∀ n, N ≤ n → s.notified n = false → s'.notified n = false

theorem Keeps.local {N : ℕ} {c : ConnId} {s s' : Shared} (h : Keeps N c s s') {i : Instr}
    (hi : Local N c s i) : Local N c s' i := by
  cases i with
  | synCheckClosed f n => exact ⟨hi.1, hi.2.1, hi.2.2.1, h.notified n hi.2.2.1 hi.2.2.2⟩
  | synConnect c' n => exact ⟨hi.1, hi.2.1, h.notified n hi.2.1 hi.2.2⟩
  | synDrain c' v => exact ⟨hi.1, h.conns v hi.2⟩
  | synReplay c' v fs fin => exact ⟨hi.1, h.conns v hi.2⟩
  | startHalfClose v c' q => exact ⟨hi.1, h.conns v hi.2⟩
  | dataClose v c' => exact ⟨hi.1, h.conns v hi.2⟩
  | finishIfDone v c' => exact ⟨hi.1, h.conns v hi.2⟩
  | replayClose v => exact h.conns v hi
  | dataDeliver v f => exact ⟨hi.1, hi.2.1, h.conns v hi.2.2⟩
  | reserveLoad fresh f => exact ⟨hi.1, hi.2.1, fun hf => h.known (hi.2.2 hf)⟩
  | reserveCas fresh f cur => exact ⟨hi.1, hi.2.1, fun hf => h.known (hi.2.2 hf)⟩
  | evictEmpty fresh f => exact ⟨hi.1, hi.2.1, fun hf => h.known (hi.2.2 hf)⟩
  | evictPick fresh f => exact ⟨hi.1, hi.2.1, fun hf => h.known (hi.2.2 hf)⟩
  | evictRemove fresh f key b cancel =>
    exact ⟨hi.1, hi.2.1, fun hf => h.known (hi.2.2.1 hf), hi.2.2.2⟩
  | dataPush f => exact ⟨hi.1, hi.2.1, h.known hi.2.2⟩
  | dataVanished f =>
    obtain ⟨v, hv⟩ := Option.isSome_iff_exists.mp hi.2.2
    exact ⟨hi.1, hi.2.1, by simp [h.conns v hv]⟩
  | finPush f => exact ⟨hi.1, hi.2.1, h.known hi.2.2⟩
  | _ => exact hi

/-- Nothing that `Sound` or `Local` speak about has changed. -/
structure Calm (s s' : Shared) : Prop where
  conns : s'.conns = s.conns
  closed : s'.closed = s.closed
  pending : s'.pending = s.pending
  notified : s'.notified = s.notified
  nextNotify : s'.nextNotify = s.nextNotify
  heap : ∀ v, (s'.heap v).isUdp = (s.heap v).isUdp ∧ (s'.heap v).egressEof = (s.heap v).egressEof

theorem Calm.refl (s : Shared) : Calm s s := ⟨rfl, rfl, rfl, rfl, rfl, fun _ => ⟨rfl, rfl⟩⟩

theorem Calm.setConn (s : Shared) (v : ℕ) {vc : VirtConnDe} (hu : vc.isUdp = (s.heap v).isUdp)
    (he : vc.egressEof = (s.heap v).egressEof) : Calm s (s.setConn v vc) := by
  refine ⟨rfl, rfl, rfl, rfl, rfl, fun w => ?_⟩
  by_cases hw : w = v
  · subst hw
    simp [hu, he]
  · simp [setConn_heap_ne s v vc hw]

theorem Calm.keeps {s s' : Shared} (h : Calm s s') (N : ℕ) (c : ConnId) : Keeps N c s s' where
  conns := by rw [h.conns]; exact fun _ hv => hv
  known := by rw [Known, Known, h.conns, h.pending]; exact id
  notified := by rw [h.notified]; exact fun _ _ hn => hn

theorem Calm.sound {s s' : Shared} (h : Calm s s') {N : ℕ} {c : ConnId} (hs : Sound N c s) :
    Sound N c s' where
  closed := by rw [h.closed]; exact hs.closed
  unmarked := by rw [h.pending]; exact hs.unmarked
  foreign := by rw [h.pending]; exact hs.foreign
  bound := by rw [h.nextNotify]; exact hs.bound
  unused := by rw [h.nextNotify, h.notified]; exact hs.unused
  stream := by
    intro v hv
    rw [h.conns] at hv
    rw [(h.heap v).1, (h.heap v).2]
    exact hs.stream v hv

/-- The instructions that change what `Sound` or `Local` speak about. -/
def stirs : Instr → Bool
  | handle _ | synReserve _ | synInsert _ _ | synDrain _ _ | evictRemove _ _ _ _ _ | dataPush _
  | dataInsert _ | finPush _ | finInsert _ | notifyCancel _ | closedInsert _ | synConnect _ _ => true
  | _ => false

/-- The SYN branch. -/
def inSyn : Instr → Bool
  | synRegister _ | synReserve _ | synCheckClosed _ _ | synConnect _ _ | synRecheckClosed _
  | synInsert _ _ | synDrain _ _ | synReplay _ _ _ _ | replayClose _ => true
  | _ => false

/-- `try_reserve_pending`. -/
def inReserve : Instr → Bool
  | reserveLoad _ _ | reserveCas _ _ _ | evictEmpty _ _ | evictPick _ _ | evictRemove _ _ _ _ _ => true
  | _ => false

/-- The FIN branch. -/
def inFin : Instr → Bool
  | finCheckClosed _ | finContains _ | finPush _ | finLen _ | finInsert _ | startHalfClose _ _ _
  | finishIfDone _ _ => true
  | _ => false

/-- The step leaves a tombstone and an RST ahead. -/
def Dooms (c : ConnId) (is : List Instr) : Prop := closedInsert c ∈ is ∧ sendRst c ∈ is

section Exec

variable {N : ℕ} {s s' : Shared} {i : Instr} {ch : Choice} {is : List Instr} {c : ConnId}

theorem exec_calm (h : exec s i ch = some (s', is)) (hi : Local N c s i) (hst : stirs i = false) :
    Calm s s' := by
  cases i with
  | synReplay c v fs fin =>
    cases fs <;> simp only [exec, execReplay] at h <;> (repeat' split at h) <;> cases h <;>
      first | exact .refl _ | exact .setConn _ _ (by simp) (by simp)
  | _ =>
    first
    | exact hi.elim
    | (cases hst; done)
    | (simp only [exec, execDeliver, execCas] at h
       (repeat' split at h) <;> cases h <;> first
         | exact .refl _
         | exact .setConn _ _ (by simp) (by simp)
         | exact ⟨rfl, rfl, rfl, rfl, rfl, fun _ => ⟨rfl, rfl⟩⟩)

theorem put_own (hs : Sound N c s) {e : PendingEntry} (he : e.cancelled = false) :
    Keeps N c s { s with pending := s.pending.put c e } ∧
      Sound N c { s with pending := s.pending.put c e } := by
  refine ⟨⟨fun v hv => hv, fun _ => .inl (by simp), fun n _ hn => hn⟩, hs.closed, ?_, ?_, hs.bound,
    hs.unused, hs.stream⟩
  · intro e' he'
    obtain rfl : e = e' := by simpa using he'
    exact he
  · intro c' e' n hc' he'
    exact hs.foreign c' e' n hc' (by rwa [← Table.get_put_ne s.pending e hc'])

theorem del_own (hs : Sound N c s) (hc : (s.conns c).isSome) :
    Keeps N c s { s with pending := s.pending.del c } ∧
      Sound N c { s with pending := s.pending.del c } := by
  refine ⟨⟨fun v hv => hv, fun _ => .inr hc, fun n _ hn => hn⟩, hs.closed, ?_, ?_, hs.bound,
    hs.unused, hs.stream⟩
  · intro e he
    simp at he
  · intro c' e' n hc' he'
    exact hs.foreign c' e' n hc' (by rwa [← Table.get_del_ne s.pending hc'])

theorem del_foreign (hs : Sound N c s) {key : ConnId} (hk : key ≠ c) :
    Keeps N c s { s with pending := s.pending.del key } ∧
      Sound N c { s with pending := s.pending.del key } := by
  have hget : ({ s with pending := s.pending.del key }).pending.get c = s.pending.get c :=
    Table.get_del_ne _ hk.symm
  refine ⟨⟨fun v hv => hv, ?_, fun n _ hn => hn⟩, hs.closed, ?_, ?_, hs.bound, hs.unused, hs.stream⟩
  · rw [Known, Known, hget]
    exact id
  · rw [hget]
    exact hs.unmarked
  · intro c' e' n hc' he'
    by_cases hck : c' = key
    · simp [hck] at he'
    · exact hs.foreign c' e' n hc' (by rwa [← Table.get_del_ne s.pending hck])

theorem execPush_effect {f : Frame} {bytes : ℕ} {full gone : List Instr} (hs : Sound N c s)
    (hf : f.connId = c) (h : execPush s f bytes full gone = (s', is)) :
    Keeps N c s s' ∧ Sound N c s' := by
  subst hf
  unfold execPush at h
  split at h
  · rename_i e he
    split at h
    · obtain ⟨rfl, -⟩ := Prod.mk.inj h
      exact put_own hs (hs.unmarked e he)
    · obtain ⟨rfl, -⟩ := Prod.mk.inj h
      exact ⟨(Calm.refl s).keeps N _, hs⟩
  · obtain ⟨rfl, -⟩ := Prod.mk.inj h
    exact ⟨(Calm.refl s).keeps N _, hs⟩

theorem handle_state {f : Frame} (h : exec s (handle f) ch = some (s', is))
    (hi : Local N c s (handle f)) : s' = s := by
  simp only [exec, execHandle] at h
  (repeat' split at h) <;> cases h <;> try rfl
  rename_i hsyn hdata hfin _ _ _ _
  rcases hi.2 with ⟨hsy, -⟩ | hd | hfi
  · exact absurd hsy hsyn
  · simp [isData, hdata] at hd
  · simp [isFin, hfin] at hfi

/-- **What one step does to a live conn id**: it dooms it, or what its handlers rely on stays. -/
theorem exec_effect (h : exec s i ch = some (s', is)) (hs : Sound N c s) (hi : Local N c s i)
    (hnew : ∀ u, i = synInsert c u → s.conns c = none) :
    Dooms c is ∨ (Keeps N c s s' ∧ Sound N c s') := by
  by_cases hst : stirs i = true
  · cases i with
    | handle f =>
      rw [handle_state h hi]
      exact .inr ⟨(Calm.refl s).keeps N c, hs⟩
    | synReserve f =>
      obtain ⟨rfl, -⟩ := hi
      cases h
      have he : ((s.pending.get f.connId).getD (PendingEntry.new s.now)).cancelled = false := by
        cases hp : s.pending.get f.connId with
        | none => rfl
        | some e => exact hs.unmarked e hp
      obtain ⟨hk, hs'⟩ := put_own (e := { (s.pending.get f.connId).getD (PendingEntry.new s.now) with
        cancel := some s.nextNotify }) hs he
      refine .inr ⟨⟨hk.conns, hk.known, hk.notified⟩, hs'.closed, hs'.unmarked, hs'.foreign, ?_, ?_,
        hs'.stream⟩
      · exact Nat.le_succ_of_le hs.bound
      · exact fun n hn => hs.unused n (Nat.le_of_succ_le hn)
    | synInsert c' u =>
      obtain ⟨rfl, rfl⟩ := hi
      cases h
      have hnone := hnew false rfl
      refine .inr ⟨⟨?_, fun _ => .inr (by simp), fun n _ hn => hn⟩, hs.closed, hs.unmarked, hs.foreign,
        hs.bound, hs.unused, ?_⟩
      · intro v hv
        rw [hnone] at hv
        cases hv
      · intro v hv
        obtain rfl : s.nextConn = v := by simpa using hv
        simp [VirtConnDe.new]
    | synDrain c' v =>
      obtain ⟨rfl, hv⟩ := hi
      simp only [exec] at h
      split at h
      · cases h
        exact .inr ⟨(Calm.refl s).keeps N c', hs⟩
      · cases h
        exact .inr (del_own hs (by simp [hv]))
    | evictRemove fresh f key bytes cancel =>
      simp only [exec] at h
      split at h
      · cases h
        exact .inr ⟨(Calm.refl s).keeps N c, hs⟩
      · cases h
        by_cases hk : key = c
        · subst hk
          exact .inl ⟨by simp, by simp⟩
        · exact .inr (del_foreign hs hk)
    | dataPush f => exact .inr (execPush_effect hs hi.1 (Option.some.inj h))
    | finPush f => exact .inr (execPush_effect hs hi.1 (Option.some.inj h))
    | dataInsert f =>
      obtain ⟨rfl, -⟩ := hi
      cases h
      exact .inr (put_own hs rfl)
    | finInsert f =>
      obtain ⟨rfl, -⟩ := hi
      cases h
      exact .inr (put_own hs rfl)
    | notifyCancel n =>
      cases h
      cases n with
      | none => exact .inr ⟨(Calm.refl s).keeps N c, hs⟩
      | some m =>
        have hm : m < N := hi m rfl
        have hne : ∀ n, N ≤ n → n ≠ m := by intro n hn; omega
        refine .inr ⟨⟨fun v hv => hv, fun hk => hk, ?_⟩, hs.closed, hs.unmarked, hs.foreign, hs.bound,
          ?_, hs.stream⟩
        · intro n hn hf
          simpa [Shared.notify, hne n hn] using hf
        · intro n hn
          have hf : s.notified n = false := hs.unused n hn
          simpa [Shared.notify, hne n (le_trans hs.bound hn)] using hf
    | closedInsert c' =>
      cases h
      have hne : c ≠ c' := fun hcc => hi hcc.symm
      refine .inr ⟨⟨fun v hv => hv, fun hk => hk, fun n _ hn => hn⟩, ?_, hs.unmarked, hs.foreign,
        hs.bound, hs.unused, hs.stream⟩
      simpa [hne] using hs.closed
    | synConnect c' n =>
      simp only [exec] at h
      split at h
      · cases h
        exact .inr ⟨(Calm.refl s).keeps N c, hs⟩
      · cases h
        exact .inr ⟨(Calm.refl s).keeps N c, hs⟩
      · simp [hi.2.2] at h
      · cases h
    | _ => cases hst
  · have hc := exec_calm h hi (by simpa using hst)
    exact .inr ⟨hc.keeps N c, hc.sound hs⟩

theorem dooms_synFail (c : ConnId) : Dooms c (synFail c) := by
  constructor <;> simp [synFail]

theorem dooms_drainReset (c : ConnId) : Dooms c (drainReset c) := by
  constructor <;> simp [drainReset]

theorem dooms_dataReset (c : ConnId) : Dooms c (dataReset c) := by
  constructor <;> simp [dataReset]

theorem dooms_failPendingConn (is : List Instr) : Dooms c (is ++ failPendingConn c) := by
  constructor <;> simp [failPendingConn]

theorem handle_locals {f : Frame} (h : exec s (handle f) ch = some (s', is)) (hs : Sound N c s)
    (hi : Local N c s (handle f)) : ∀ j ∈ is, Local N c s' j := by
  rw [handle_state h hi]
  obtain ⟨rfl, hkind⟩ := hi
  simp only [exec, execHandle] at h
  split at h
  · rename_i hsyn
    have hst : StreamSyn f := by
      rcases hkind with hst | hd | hfi
      · exact hst
      · simp [isData, hsyn] at hd
      · simp [isFin, hsyn] at hfi
    split at h <;> cases h
    · simp
    · simpa [Local] using hst
  · rename_i hsyn
    split at h
    · rename_i hdata
      have hd : isData f = true := isData_iff.mpr ⟨by simpa using hsyn, hdata⟩
      split at h
      · rename_i v hv
        rw [if_neg (by simp [(hs.stream v hv).1])] at h
        cases h
        simp [Local, hd, hv]
      · cases h
        simp [Local, hd]
    · rename_i hdata
      have hfi : isFin f = true := by
        rcases hkind with ⟨hsy, -⟩ | hd | hfi
        · exact absurd hsy hsyn
        · simp [isData, hdata] at hd
        · exact hfi
      rw [if_pos (isFin_iff.mp hfi).2.2] at h
      split at h
      · rename_i v hv
        rw [if_neg (by simp [(hs.stream v hv).1])] at h
        cases h
        simp [Local, hv]
      · cases h
        simp [Local, hfi]

theorem syn_locals (h : exec s i ch = some (s', is)) (hs : Sound N c s) (hi : Local N c s i)
    (hk : Keeps N c s s') (hg : inSyn i = true) : Dooms c is ∨ ∀ j ∈ is, Local N c s' j := by
  cases i with
  | synRegister f =>
    cases h
    right
    split <;> simp [Local]
    exact hi
  | synReserve f =>
    cases h
    right
    simpa [Local, hi.1, hi.2, hs.bound] using hs.unused s.nextNotify le_rfl
  | synCheckClosed f n =>
    obtain ⟨rfl, hsyn, hn, hnf⟩ := hi
    cases h
    simp only [execSynCheckClosed, hs.closed, Option.isSome_none, Bool.false_eq_true, if_false]
    split
    · exact .inl (dooms_synFail _)
    · rename_i t ht
      split
      · exact .inl (dooms_synFail _)
      · rw [if_neg (hsyn.2 t ht)]
        exact .inr (by simp [Local, hn, hnf])
  | synConnect c' n =>
    obtain ⟨rfl, hn, hnf⟩ := hi
    simp only [exec] at h
    split at h
    · cases h
      exact .inr (by simp [Local])
    · cases h
      exact .inl (dooms_synFail _)
    · simp [hnf] at h
    · cases h
  | synRecheckClosed c' =>
    obtain rfl : c' = c := hi
    cases h
    rw [hs.closed]
    exact .inr (by simp [Local])
  | synInsert c' u =>
    obtain ⟨rfl, rfl⟩ := hi
    cases h
    exact .inr (by simp [Local])
  | synDrain c' v =>
    obtain ⟨rfl, hv⟩ := hi
    simp only [exec] at h
    split at h
    · cases h
      exact .inr (by simp [Local])
    · rename_i e he
      cases h
      right
      simp [afterDrain, hs.unmarked e he, (hs.stream v hv).1, Local, hv]
  | synReplay c' v fs fin =>
    obtain ⟨rfl, hv⟩ := hi
    have hv' : s'.conns c' = some v := hk.conns v hv
    cases fs with
    | nil =>
      cases fin <;> cases h <;> exact .inr (by simp [Local, hv])
    | cons f fs =>
      simp only [exec, execReplay] at h
      (repeat' split at h) <;> cases h <;> first
        | exact .inr (by simpa [Local] using hv)
        | exact .inl (dooms_drainReset _)
  | replayClose v =>
    cases h
    exact .inr (by simp)
  | _ => cases hg

theorem reserve_locals (h : exec s i ch = some (s', is)) (hs : Sound N c s) (hi : Local N c s i)
    (hk : Keeps N c s s') (hg : inReserve i = true) : Dooms c is ∨ ∀ j ∈ is, Local N c s' j := by
  cases i with
  | reserveLoad fresh f =>
    cases h
    exact .inr (by simpa [Local] using hi)
  | reserveCas fresh f cur =>
    obtain ⟨rfl, hd, hkn⟩ := hi
    simp only [exec, execCas] at h
    split at h
    · split at h
      · cases h
        cases fresh
        · exact .inr (by simpa [Local, hd] using hk.known (hkn rfl))
        · exact .inr (by simp [Local, hd])
      · cases h
        exact .inr (by simpa [Local, hd] using hkn)
    · cases h
      exact .inr (by simpa [Local, hd] using hkn)
  | evictEmpty fresh f =>
    obtain ⟨rfl, hd, hkn⟩ := hi
    cases h
    split
    · exact .inl (dooms_failPendingConn [])
    · exact .inr (by simpa [Local, hd] using hkn)
  | evictPick fresh f =>
    obtain ⟨rfl, hd, hkn⟩ := hi
    simp only [exec] at h
    (repeat' split at h) <;> cases h
    · exact .inl (dooms_failPendingConn [])
    · rename_i key _ e he _
      right
      intro j hj
      obtain rfl := List.mem_singleton.mp hj
      exact ⟨rfl, hd, hkn, fun hne n hn => hs.foreign key e n hne he hn⟩
  | evictRemove fresh f key bytes cancel =>
    obtain ⟨hf, hd, hkn, hcan⟩ := hi
    simp only [exec] at h
    split at h
    · cases h
      exact .inr (by simpa [Local, hf, hd] using hkn)
    · cases h
      by_cases hkey : key = c
      · subst hkey
        exact .inl ⟨by simp, by simp⟩
      · right
        have hkn' : fresh = false → Known c _ := fun hfr => hk.known (hkn hfr)
        simpa [Local, hf, hd, hkey] using ⟨hcan hkey, hkn'⟩
  | _ => cases hg

theorem fin_locals (h : exec s i ch = some (s', is)) (hs : Sound N c s) (hi : Local N c s i)
    (hk : Keeps N c s s') (hg : inFin i = true) : Dooms c is ∨ ∀ j ∈ is, Local N c s' j := by
  cases i with
  | finCheckClosed f =>
    obtain ⟨rfl, hf⟩ := hi
    cases h
    rw [hs.closed]
    exact .inr (by simp [Local, hf])
  | finContains f =>
    obtain ⟨rfl, hf⟩ := hi
    cases h
    right
    split
    · rename_i hp
      simp [Local, hf, Known, hp]
    · simp [Local, hf]
  | finPush f =>
    obtain ⟨rfl, hf, hkn⟩ := hi
    have h := Option.some.inj h
    unfold execPush at h
    split at h
    · split at h <;> cases h
      · exact .inr (by simp)
      · exact .inl (dooms_failPendingConn [])
    · cases h
      exact .inr (by simp)
  | finLen f =>
    obtain ⟨rfl, hf⟩ := hi
    cases h
    split
    · exact .inr (by simp [Local, hf])
    · exact .inl (dooms_failPendingConn [])
  | finInsert f =>
    cases h
    exact .inr (by simp)
  | startHalfClose v c' q =>
    cases h
    exact .inr (by simpa [Local] using hi)
  | finishIfDone v c' =>
    obtain ⟨rfl, hv⟩ := hi
    cases h
    simp [VirtConnDe.isDone, (hs.stream v hv).2]
  | _ => cases hg

/-- The instructions a step leaves behind rely on what is there. -/
theorem exec_locals (h : exec s i ch = some (s', is)) (hs : Sound N c s) (hi : Local N c s i)
    (hk : Keeps N c s s') : Dooms c is ∨ ∀ j ∈ is, Local N c s' j := by
  by_cases hsyn : inSyn i = true
  · exact syn_locals h hs hi hk hsyn
  by_cases hres : inReserve i = true
  · exact reserve_locals h hs hi hk hres
  by_cases hfin : inFin i = true
  · exact fin_locals h hs hi hk hfin
  cases i with
  | dispatch f =>
    cases h
    exact .inr (by simpa [Local] using hi)
  | handle f => exact .inr (handle_locals h hs hi)
  | dataDeliver v f =>
    obtain ⟨rfl, hd, hv⟩ := hi
    simp only [exec, execDeliver] at h
    split at h <;> cases h
    · exact .inr (by simp)
    · exact .inr (by simpa [Local] using hv)
    · exact .inl (dooms_dataReset _)
  | dataClose v c' =>
    simp only [exec] at h
    split at h <;> cases h
    · exact .inr (by simpa [Local] using hi)
    · exact .inr (by simp)
  | dataCheckClosed f =>
    obtain ⟨rfl, hd⟩ := hi
    cases h
    rw [hs.closed]
    exact .inr (by simp [Local, hd])
  | dataContains f =>
    obtain ⟨rfl, hd⟩ := hi
    cases h
    right
    split
    · rename_i hp
      simp [Local, hd, Known, hp]
    · simp [Local, hd]
  | dataLen f =>
    obtain ⟨rfl, hd⟩ := hi
    cases h
    split
    · exact .inr (by simp [Local, hd])
    · exact .inl (dooms_failPendingConn [])
  | dataPush f =>
    obtain ⟨rfl, hd, hkn⟩ := hi
    have h := Option.some.inj h
    unfold execPush at h
    split at h
    · split at h <;> cases h
      · exact .inr (by simp)
      · exact .inl (dooms_failPendingConn [_])
    · rename_i hp
      cases h
      have hc : (s.conns f.connId).isSome := by simpa [Known, hp] using hkn
      exact .inr (by simp [Local, hd, hc])
  | dataInsert f =>
    cases h
    exact .inr (by simp)
  | dataVanished f =>
    obtain ⟨rfl, hd, -⟩ := hi
    cases h
    right
    split <;> simp [Local, hd]
  | refund b r =>
    cases h
    exact .inr (by simp)
  | notifyCancel n =>
    cases h
    exact .inr (by simp)
  | handshakingRemove c' =>
    cases h
    exact .inr (by simp)
  | closedInsert c' =>
    cases h
    exact .inr (by simp)
  | sendRst c' =>
    cases h
    exact .inr (by simp)
  | _ =>
    first
    | exact hi.elim
    | exact absurd rfl hsyn
    | exact absurd rfl hres
    | exact absurd rfl hfin

end Exec

end RoundRobin.Reassembler
