import RoundRobin.Reassembler.Calls

/-!
# RoundRobin.Reassembler.Handshake.System — SYN handshakes between atomic calls

Runs in which the code between two suspensions is atomic: a handler that starts or is resumed runs until
it ends or is suspended again.  Below the system, what one instruction does to a conn id: who enters its
handshake, who registers and unregisters it, who makes it pending.
-/

namespace RoundRobin.Reassembler

open Instr TaskSystem

/-! ## The system -/

/-- The instruction belongs to a SYN handler of `c` between `handshaking.insert` and `handshaking.remove`. -/
def inHandshake (c : ConnId) : Instr → Bool
  | synReserve f | synCheckClosed f _ => decide (f.connId = c)
  | synBindUdp c' | synConnect c' _ | synRecheckClosed c' | synInsert c' _ | synDrain c' _
  | synReplay c' _ _ _ | synForward c' _ _ _ | handshakingRemove c' => decide (c' = c)
  | _ => false

/-- The state between two calls, and the handlers suspended there. -/
structure Atomic where
  shared : Shared
  suspended : List (List Instr)

namespace Atomic

/-- A suspended SYN handler of `c`. -/
def Held (c : ConnId) (ts : List (List Instr)) : Prop := ∃ t ∈ ts, t.any (inHandshake c) = true

/-- `t` runs next, while `others` are suspended. -/
inductive Turn (x : Atomic) : List Instr → List (List Instr) → Prop where
  | start (t : List Instr) : Spawn x.shared t → Turn x t x.suspended
  | resume (l r : List (List Instr)) (t : List Instr) : x.suspended = l ++ t :: r → Turn x t (l ++ r)

/-- A whole call, or anything outside the handlers; the sweeps of `closed` and `handshaking` spare the conn
ids of suspended SYN handlers. -/
inductive Step (x : Atomic) : Atomic → Prop where
  | call (t : List Instr) (others : List (List Instr)) (s' : Shared) (t' : List Instr) :
      Turn x t others → Call x.shared t s' t' → Step x ⟨s', t' :: others⟩
  | env (s' : Shared) : Env x.shared s' →
      (∀ c, Held c x.suspended →
        s'.closed c = x.shared.closed c ∧ s'.handshaking c = x.shared.handshaking c) →
      Step x ⟨s', x.suspended⟩

/-- Reached from the empty registry. -/
def Reachable (window : ℕ) (x : Atomic) : Prop := Relation.ReflTransGen Step ⟨.init window, []⟩ x

end Atomic

/-- A SYN handler of `c` that gets past `handshaking.insert`: it starts in `s`, or was suspended. -/
def Shaking (c : ConnId) (s : Shared) (t : List Instr) : Prop :=
  (∃ f, t = [dispatch f] ∧ f.connId = c ∧ f.has flagSyn = true ∧ s.conns c = none ∧
    s.handshaking c = none) ∨ t.any (inHandshake c) = true

/-! ## One instruction and one conn id -/

/-- The instruction makes a pending entry of `c`. -/
def creates (c : ConnId) : Instr → Bool
  | synReserve f | dataInsert f | finInsert f => decide (f.connId = c)
  | _ => false

/-- Whoever unregisters `c` tombstones it. -/
def Tombed (c : ConnId) (s : Shared) (t : List Instr) : Prop :=
  t.any (removes c) = true → (s.closed c).isSome ∨ closedInsert c ∈ t

/-- `c` is registered, tombstoned or about to be. -/
def Shown (c : ConnId) (s : Shared) (t : List Instr) : Prop :=
  (s.conns c).isSome ∨ (s.closed c).isSome ∨ closedInsert c ∈ t

section Exec

variable {s s' : Shared} {i : Instr} {ch : Choice} {is k : List Instr} {c : ConnId}

theorem any_forwardFrames {p : Instr → Bool} {v : ℕ} (hrem : p (handshakingRemove c) = false)
    (hfwd : ∀ f fs, p (synForward c v f fs) = false) (fs : List Frame) :
    (forwardFrames c v fs).any p = false := by
  rw [List.any_eq_false]
  exact fun j hj => by simpa using forall_forwardFrames (p := fun j => p j = false) hrem hfwd fs j hj

theorem any_sweepTail {p : Instr → Bool} (hn : ∀ n, p (notifyCancel n) = false)
    (hc : ∀ c, p (closedInsert c) = false) (hr : ∀ c, p (sendRst c) = false)
    (m : Table ConnId PendingEntry) : (sweepTail m).any p = false := by
  simp [sweepTail, List.any_flatMap, hn, hc, hr]

/-- Only `handshaking.insert` leads into the handshake. -/
theorem exec_enters (h : exec s i ch = some (s', is)) (hi : inHandshake c i = false)
    (hreg : ∀ f, i = synRegister f → f.connId = c → (s.handshaking c).isSome) :
    is.any (inHandshake c) = false := by
  cases i with
  | synRegister f =>
    cases h
    split
    · rfl
    · rename_i hn
      have hne : f.connId ≠ c := by
        rintro rfl
        exact hn (hreg f rfl rfl)
      simp [inHandshake, hne]
  | synReserve f =>
    have hne : f.connId ≠ c := of_decide_eq_false hi
    cases h
    simp [inHandshake, hne]
  | synCheckClosed f n =>
    have hne : f.connId ≠ c := of_decide_eq_false hi
    simp only [exec, execSynCheckClosed] at h
    (repeat' split at h) <;> cases h <;> simp [inHandshake, synClosed, synFail, hne]
  | synBindUdp c' =>
    have hne : c' ≠ c := of_decide_eq_false hi
    simp only [exec] at h
    (repeat' split at h) <;> cases h <;> simp [inHandshake, synFail, hne]
  | synConnect c' n =>
    have hne : c' ≠ c := of_decide_eq_false hi
    simp only [exec] at h
    (repeat' split at h) <;> cases h <;> simp [inHandshake, synFail, synCancelled, hne]
  | synRecheckClosed c' =>
    have hne : c' ≠ c := of_decide_eq_false hi
    cases h
    split <;> simp [inHandshake, synClosed, hne]
  | synInsert c' u =>
    have hne : c' ≠ c := of_decide_eq_false hi
    cases h
    simp [inHandshake, hne]
  | synDrain c' v =>
    have hne : c' ≠ c := of_decide_eq_false hi
    simp only [exec, afterDrain] at h
    (repeat' split at h) <;> cases h
    · simp [inHandshake, hne]
    · simp [inHandshake, drainCancelled, hne]
    · exact any_forwardFrames hi (fun _ _ => hi) _
    · simp [inHandshake, hne]
  | synReplay c' v fs fin =>
    have hne : c' ≠ c := of_decide_eq_false hi
    cases fs <;> simp only [exec, execReplay] at h <;> (repeat' split at h) <;> cases h <;>
      simp [inHandshake, drainReset, hne]
  | synForward c' v f fs =>
    cases h
    exact any_forwardFrames hi (fun _ _ => hi) fs
  | sweepRetain ttl =>
    cases h
    exact any_sweepTail (fun _ => rfl) (fun _ => rfl) (fun _ => rfl) _
  | _ =>
    simp only [exec, execHandle, execDeliver, execCas, execPush] at h
    (repeat' split at h) <;> cases h <;> rfl

theorem exec_removes (h : exec s i ch = some (s', is)) (hr : is.any (removes c) = true) :
    closedInsert c ∈ is := by
  cases i with
  | synReplay c' v fs fin =>
    cases fs <;> simp only [exec, execReplay] at h <;> (repeat' split at h) <;> cases h <;>
      simp_all [removes, drainReset]
  | synForward c' v f fs =>
    cases h
    cases hr.symm.trans (any_forwardFrames rfl (fun _ _ => rfl) fs)
  | synDrain c' v =>
    simp only [exec, afterDrain] at h
    (repeat' split at h) <;> cases h
    · cases hr
    · simp_all [removes, drainCancelled]
    · cases hr.symm.trans (any_forwardFrames rfl (fun _ _ => rfl) _)
    · cases hr
  | sweepRetain ttl =>
    cases h
    cases hr.symm.trans (any_sweepTail (fun _ => rfl) (fun _ => rfl) (fun _ => rfl) _)
  | dataDeliver v f =>
    simp only [exec, execDeliver] at h
    split at h <;> cases h <;> simp_all [removes, dataReset]
  | finishIfDone v c' =>
    cases h
    split at hr
    · rename_i hdone
      simp_all [removes]
    · cases hr
  | _ =>
    simp only [exec, execHandle, execSynCheckClosed, execCas, execPush] at h
    (repeat' split at h) <;> cases h <;> cases hr

/-- Where a registered conn id goes, it is unregistered by a handler that tombstones it. -/
theorem exec_unregisters (h : exec s i ch = some (s', is)) (hc : (s.conns c).isSome) :
    (s'.conns c).isSome ∨ removes c i = true ∨ closedInsert c ∈ is := by
  by_cases hw : i.writesConns = true
  · cases i with
    | handle f =>
      simp only [exec, execHandle] at h
      (repeat' split at h) <;> cases h <;> first | exact .inl hc | skip
      by_cases hf : c = f.connId
      · exact .inr (.inr (by simp [hf]))
      · exact .inl (by simpa [hf] using hc)
    | synInsert c' u =>
      cases h
      left
      by_cases hcc : c = c'
      · simp [hcc]
      · simpa [hcc] using hc
    | connsRemove c' =>
      by_cases hcc : c' = c
      · exact .inr (.inl (decide_eq_true hcc))
      · left
        simp only [exec] at h
        split at h <;> cases h
        · exact hc
        · simpa [Ne.symm hcc] using hc
    | connsForget c' =>
      by_cases hcc : c' = c
      · exact .inr (.inl (decide_eq_true hcc))
      · left
        cases h
        simpa [Ne.symm hcc] using hc
    | _ => cases hw
  · left
    rwa [exec_conns h (by simpa using hw)]

/-- A tombstone that is set or due stays so. -/
theorem exec_due (h : exec s i ch = some (s', is))
    (hd : (s.closed c).isSome ∨ closedInsert c ∈ i :: k) :
    (s'.closed c).isSome ∨ closedInsert c ∈ is ++ k := by
  rcases hd with hd | hd
  · exact .inl (exec_closed_some h hd)
  · rcases List.mem_cons.mp hd with rfl | hd
    · cases h
      exact .inl (by simp)
    · exact .inr (by simp [hd])

theorem tombed_exec (ht : Tombed c s (i :: k)) (h : exec s i ch = some (s', is)) :
    Tombed c s' (is ++ k) := by
  intro hr
  rw [List.any_append, Bool.or_eq_true] at hr
  rcases hr with hr | hr
  · exact .inr (by simp [exec_removes h hr])
  · exact exec_due h (ht (by simp only [List.any_cons, hr, Bool.or_true]))

theorem shown_exec (ht : Tombed c s (i :: k)) (hs : Shown c s (i :: k))
    (h : exec s i ch = some (s', is)) : Shown c s' (is ++ k) := by
  rcases hs with hc | hd
  · rcases exec_unregisters h hc with hc | hr | hd
    · exact .inl hc
    · exact .inr (exec_due h (ht (by simp only [List.any_cons, hr, Bool.true_or])))
    · exact .inr (.inr (by simp [hd]))
  · exact .inr (exec_due h hd)

theorem exec_uncreated (h : exec s i ch = some (s', is)) (hn : s.pending.get c = none)
    (hi : creates c i = false) : s'.pending.get c = none := by
  have hdel : ∀ key, (s.pending.del key).get c = none := by
    intro key
    by_cases hk : c = key
    · simp [hk]
    · rw [Table.get_del_ne _ hk, hn]
  have hput : ∀ key e, c ≠ key → (s.pending.put key e).get c = none := by
    intro key e hk
    rw [Table.get_put_ne _ _ hk, hn]
  have hfound : ∀ key e e', s.pending.get key = some e → (s.pending.put key e').get c = none := by
    intro key e e' hk
    refine hput key e' ?_
    rintro rfl
    cases hn.symm.trans hk
  have hmark : ∀ key, (markCancelled s key).pending.get c = none := by
    intro key
    rw [markCancelled_pending]
    split
    · exact hn
    · rename_i e he
      exact hfound key e _ he
  by_cases hw : i.writesPending = true
  · cases i with
    | synReserve f =>
      have hne : f.connId ≠ c := of_decide_eq_false hi
      cases h
      exact hput _ _ hne.symm
    | dataInsert f =>
      have hne : f.connId ≠ c := of_decide_eq_false hi
      cases h
      exact hput _ _ hne.symm
    | finInsert f =>
      have hne : f.connId ≠ c := of_decide_eq_false hi
      cases h
      exact hput _ _ hne.symm
    | synDrain c' v =>
      simp only [exec] at h
      split at h <;> cases h
      · exact hn
      · exact hdel c'
    | evictRemove fresh f key bytes cancel =>
      simp only [exec] at h
      split at h <;> cases h
      · exact hn
      · exact hdel key
    | removePending c' =>
      simp only [exec] at h
      split at h <;> cases h
      · exact hn
      · exact hdel c'
    | dataPush f =>
      simp only [exec, execPush] at h
      (repeat' split at h) <;> cases h
      · rename_i e he hroom
        exact hfound _ e _ he
      · exact hn
      · exact hn
    | finPush f =>
      simp only [exec, execPush] at h
      (repeat' split at h) <;> cases h
      · rename_i e he hroom
        exact hfound _ e _ he
      · exact hn
      · exact hn
    | rstMark c' =>
      cases h
      exact hmark c'
    | failMark c' =>
      cases h
      exact hmark c'
    | sweepRetain ttl =>
      cases h
      cases hr : (s.pending.retain fun _ e => isFresh s.now ttl e).get c with
      | none => rfl
      | some e => cases hn.symm.trans (Table.get_of_retain hr)
    | _ => cases hw
  · rw [exec_pending h (by simpa using hw), hn]

/-- Nobody but the SYN handler ends the handshake. -/
theorem exec_stays (h : exec s i ch = some (s', is)) (hi : inHandshake c i = false)
    (hs : (s.handshaking c).isSome) : (s'.handshaking c).isSome := by
  by_cases hw : i.writesHandshaking = true
  · cases i with
    | synRegister f =>
      cases h
      by_cases hf : c = f.connId
      · simp [hf]
      · simpa [hf] using hs
    | handshakingRemove c' =>
      have hne : c ≠ c' := Ne.symm (of_decide_eq_false hi)
      cases h
      simpa [hne] using hs
    | _ => cases hw
  · rwa [exec_handshaking h (by simpa using hw)]

end Exec

end RoundRobin.Reassembler
