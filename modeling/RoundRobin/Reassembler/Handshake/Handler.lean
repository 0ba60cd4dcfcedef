import RoundRobin.Reassembler.Handshake.Suspended

/-!
# RoundRobin.Reassembler.Handshake.Handler — the SYN handler and what it owes

From `handshaking.insert` on the SYN handler owes three things: to end the handshake, to remove the pending
entry, and to register the connection or tombstone the conn id.  Every one of its exits pays them (`Shake`).
-/

namespace RoundRobin.Reassembler

open Instr TaskSystem

/-- The SYN handler of `c` has not registered the connection yet. -/
def opensConn (c : ConnId) : Instr → Bool
  | synReserve f | synCheckClosed f _ => decide (f.connId = c)
  | synBindUdp c' | synConnect c' _ | synRecheckClosed c' | synInsert c' _ => decide (c' = c)
  | _ => false

/-- It has not removed the pending entry yet. -/
def clears (c : ConnId) : Instr → Bool
  | synReserve f | synCheckClosed f _ => decide (f.connId = c)
  | synBindUdp c' | synConnect c' _ | synRecheckClosed c' | synInsert c' _ | synDrain c' _
  | removePending c' => decide (c' = c)
  | _ => false

/-- The SYN handler of `c` may run it behind `handshaking.insert`: it is no instruction of another frame's
handler. -/
def synSide (c : ConnId) : Instr → Bool
  | synReserve f | synCheckClosed f _ => decide (f.connId = c)
  | synBindUdp c' | synConnect c' _ | synRecheckClosed c' | synInsert c' _ | synDrain c' _
  | synReplay c' _ _ _ | synForward c' _ _ _ | removePending c' | handshakingRemove c' => decide (c' = c)
  | dispatch _ | handle _ | synRegister _ | udpForward _ _ | dataDeliver _ _ | dataCheckClosed _
  | dataContains _ | dataLen _ | reserveLoad _ _ | reserveCas _ _ _ | evictEmpty _ _ | evictPick _ _
  | evictRemove _ _ _ _ _ | dataPush _ | dataInsert _ | dataVanished _ | finCheckClosed _
  | finContains _ | finPush _ | finLen _ | finInsert _ | sweepRetain _ => false
  | _ => true

/-- What the SYN handler of `c` still owes: to end the handshake, to remove the entry, and to register the
connection or tombstone the conn id. -/
structure Shake (c : ConnId) (s : Shared) (t : List Instr) : Prop where
  last : Last t
  side : t.all (synSide c) = true
  handshaking : t.countP (inHandshake c) = (s.handshaking c).isSome.toNat
  pending : s.pending.get c = none ∨ t.any (clears c) = true
  shown : Shown c s t ∨ t.any (opensConn c) = true
  tombed : Tombed c s t
  conns : t.any (opensConn c) = true → s.conns c = none

section Exec

variable {s s' : Shared} {i : Instr} {ch : Choice} {is k : List Instr} {c : ConnId}

theorem all_forwardFrames {p : Instr → Bool} {v : ℕ} (hrem : p (handshakingRemove c) = true)
    (hfwd : ∀ f fs, p (synForward c v f fs) = true) (fs : List Frame) :
    (forwardFrames c v fs).all p = true :=
  List.all_eq_true.mpr (forall_forwardFrames hrem hfwd fs)

theorem exec_synSide (h : exec s i ch = some (s', is)) (hi : synSide c i = true) :
    is.all (synSide c) = true := by
  cases i with
  | synReserve f =>
    obtain rfl : f.connId = c := of_decide_eq_true hi
    cases h
    simp [synSide]
  | synCheckClosed f n =>
    obtain rfl : f.connId = c := of_decide_eq_true hi
    simp only [exec, execSynCheckClosed] at h
    (repeat' split at h) <;> cases h <;> simp [synSide, synClosed, synFail]
  | synBindUdp c' =>
    obtain rfl : c' = c := of_decide_eq_true hi
    simp only [exec] at h
    (repeat' split at h) <;> cases h <;> simp [synSide, synFail]
  | synConnect c' n =>
    obtain rfl : c' = c := of_decide_eq_true hi
    simp only [exec] at h
    (repeat' split at h) <;> cases h <;> simp [synSide, synFail, synCancelled]
  | synRecheckClosed c' =>
    obtain rfl : c' = c := of_decide_eq_true hi
    cases h
    split <;> simp [synSide, synClosed]
  | synInsert c' u =>
    obtain rfl : c' = c := of_decide_eq_true hi
    cases h
    simp [synSide]
  | synDrain c' v =>
    obtain rfl : c' = c := of_decide_eq_true hi
    simp only [exec, afterDrain] at h
    (repeat' split at h) <;> cases h
    · simp [synSide]
    · simp [synSide, drainCancelled]
    · exact all_forwardFrames hi (fun _ _ => hi) _
    · simp [synSide]
  | synReplay c' v fs fin =>
    obtain rfl : c' = c := of_decide_eq_true hi
    cases fs <;> simp only [exec, execReplay] at h <;> (repeat' split at h) <;> cases h <;>
      simp [synSide, drainReset]
  | synForward c' v f fs =>
    obtain rfl : c' = c := of_decide_eq_true hi
    cases h
    exact all_forwardFrames hi (fun _ _ => hi) fs
  | _ =>
    first
    | cases hi; done
    | (simp only [exec] at h
       (repeat' split at h) <;> cases h <;> rfl)

/-- An instruction of the handshake leaves one to do, until the last one ends it. -/
theorem exec_count (h : exec s i ch = some (s', is)) (hi : inHandshake c i = true) :
    is.countP (inHandshake c) = 1 ∧ s'.handshaking = s.handshaking ∨
      is = [] ∧ s'.handshaking c = none := by
  cases i with
  | handshakingRemove c' =>
    obtain rfl : c' = c := of_decide_eq_true hi
    cases h
    exact .inr ⟨rfl, by simp⟩
  | synReserve f =>
    obtain rfl : f.connId = c := of_decide_eq_true hi
    cases h
    exact .inl ⟨by simp [inHandshake], rfl⟩
  | synCheckClosed f n =>
    obtain rfl : f.connId = c := of_decide_eq_true hi
    simp only [exec, execSynCheckClosed] at h
    (repeat' split at h) <;> cases h <;> exact .inl ⟨by simp [inHandshake, synClosed, synFail], rfl⟩
  | synBindUdp c' =>
    obtain rfl : c' = c := of_decide_eq_true hi
    simp only [exec] at h
    (repeat' split at h) <;> cases h <;> exact .inl ⟨by simp [inHandshake, synFail], rfl⟩
  | synConnect c' n =>
    obtain rfl : c' = c := of_decide_eq_true hi
    simp only [exec] at h
    (repeat' split at h) <;> cases h <;> exact .inl ⟨by simp [inHandshake, synFail, synCancelled], rfl⟩
  | synRecheckClosed c' =>
    obtain rfl : c' = c := of_decide_eq_true hi
    cases h
    split <;> exact .inl ⟨by simp [inHandshake, synClosed], rfl⟩
  | synInsert c' u =>
    obtain rfl : c' = c := of_decide_eq_true hi
    cases h
    exact .inl ⟨by simp [inHandshake], rfl⟩
  | synDrain c' v =>
    obtain rfl : c' = c := of_decide_eq_true hi
    simp only [exec, afterDrain] at h
    (repeat' split at h) <;> cases h
    · exact .inl ⟨by simp [inHandshake], rfl⟩
    · exact .inl ⟨by simp [inHandshake, drainCancelled], rfl⟩
    · rename_i e he hc hu
      refine .inl ⟨?_, rfl⟩
      rcases forwardFrames_cases c' v e.frames with hf | ⟨f, fs, hf⟩ <;> rw [hf] <;> simp [inHandshake]
    · exact .inl ⟨by simp [inHandshake], rfl⟩
  | synReplay c' v fs fin =>
    obtain rfl : c' = c := of_decide_eq_true hi
    cases fs <;> simp only [exec, execReplay] at h <;> (repeat' split at h) <;> cases h <;>
      exact .inl ⟨by simp [inHandshake, drainReset], rfl⟩
  | synForward c' v f fs =>
    obtain rfl : c' = c := of_decide_eq_true hi
    cases h
    refine .inl ⟨?_, rfl⟩
    rcases forwardFrames_cases c' v fs with hf | ⟨g, fs', hf⟩ <;> rw [hf] <;> simp [inHandshake]
  | _ => cases hi

/-- The entry is gone, or still to be removed. -/
theorem exec_clears (h : exec s i ch = some (s', is)) (hi : clears c i = true) :
    s'.pending.get c = none ∨ is.any (clears c) = true := by
  cases i with
  | synReserve f =>
    cases h
    exact .inr (by simpa [clears] using hi)
  | synCheckClosed f n =>
    obtain rfl : f.connId = c := of_decide_eq_true hi
    simp only [exec, execSynCheckClosed] at h
    (repeat' split at h) <;> cases h <;> exact .inr (by simp [clears, synClosed, synFail])
  | synBindUdp c' =>
    obtain rfl : c' = c := of_decide_eq_true hi
    simp only [exec] at h
    (repeat' split at h) <;> cases h <;> exact .inr (by simp [clears, synFail])
  | synConnect c' n =>
    obtain rfl : c' = c := of_decide_eq_true hi
    simp only [exec] at h
    (repeat' split at h) <;> cases h <;> exact .inr (by simp [clears, synFail, synCancelled])
  | synRecheckClosed c' =>
    obtain rfl : c' = c := of_decide_eq_true hi
    cases h
    split <;> exact .inr (by simp [clears, synClosed])
  | synInsert c' u =>
    cases h
    exact .inr (by simpa [clears] using hi)
  | synDrain c' v =>
    obtain rfl : c' = c := of_decide_eq_true hi
    simp only [exec] at h
    split at h <;> cases h
    · rename_i hn
      exact .inl hn
    · exact .inl (by simp)
  | removePending c' =>
    obtain rfl : c' = c := of_decide_eq_true hi
    simp only [exec] at h
    split at h <;> cases h
    · rename_i hn
      exact .inl hn
    · exact .inl (by simp)
  | _ => cases hi

/-- The connection is registered, or it is to be, or the conn id is tombstoned. -/
theorem exec_opens (h : exec s i ch = some (s', is)) (hi : opensConn c i = true) :
    Shown c s' is ∨ is.any (opensConn c) = true := by
  cases i with
  | synReserve f =>
    cases h
    exact .inr (by simpa [opensConn] using hi)
  | synCheckClosed f n =>
    obtain rfl : f.connId = c := of_decide_eq_true hi
    simp only [exec, execSynCheckClosed] at h
    (repeat' split at h) <;> cases h
    · rename_i hc
      exact .inl (.inr (.inl hc))
    · exact .inl (.inr (.inr (by simp [synFail])))
    · exact .inl (.inr (.inr (by simp [synFail])))
    · exact .inr (by simp [opensConn])
    · exact .inr (by simp [opensConn])
  | synBindUdp c' =>
    obtain rfl : c' = c := of_decide_eq_true hi
    simp only [exec] at h
    (repeat' split at h) <;> cases h
    · exact .inr (by simp [opensConn])
    · exact .inl (.inr (.inr (by simp [synFail])))
  | synConnect c' n =>
    obtain rfl : c' = c := of_decide_eq_true hi
    simp only [exec] at h
    (repeat' split at h) <;> cases h
    · exact .inr (by simp [opensConn])
    · exact .inl (.inr (.inr (by simp [synFail])))
    · exact .inl (.inr (.inr (by simp [synCancelled])))
  | synRecheckClosed c' =>
    obtain rfl : c' = c := of_decide_eq_true hi
    cases h
    split
    · rename_i hc
      exact .inl (.inr (.inl hc))
    · exact .inr (by simp [opensConn])
  | synInsert c' u =>
    obtain rfl : c' = c := of_decide_eq_true hi
    cases h
    exact .inl (.inl (by simp))
  | _ => cases hi

end Exec

section Shake

variable {s s' : Shared} {i : Instr} {ch : Choice} {is k t : List Instr} {c : ConnId}

theorem inHandshake_of_opensConn {j : Instr} (h : opensConn c j = true) : inHandshake c j = true := by
  cases j <;> first | exact h | cases h

theorem any_inHandshake_of_opensConn (h : t.any (opensConn c) = true) : t.any (inHandshake c) = true := by
  obtain ⟨j, hj, ho⟩ := List.any_eq_true.mp h
  exact List.any_eq_true.mpr ⟨j, hj, inHandshake_of_opensConn ho⟩

theorem countP_eq_zero_iff_any {p : Instr → Bool} : t.countP p = 0 ↔ t.any p = false := by
  rw [List.countP_eq_zero, List.any_eq_false]

/-- An instruction that is not part of the handshake leaves the handshake flag. -/
theorem exec_flag (h : exec s i ch = some (s', is)) (hside : synSide c i = true)
    (hi : inHandshake c i = false) : s'.handshaking = s.handshaking := by
  refine exec_handshaking h ?_
  cases i with
  | synRegister f => cases hside
  | handshakingRemove c' => cases hside.symm.trans hi
  | _ => rfl

theorem shake_count (hs : Shake c s (i :: k)) (h : exec s i ch = some (s', is)) :
    (is ++ k).countP (inHandshake c) = (s'.handshaking c).isSome.toNat := by
  have hside : synSide c i = true := (Bool.and_eq_true_iff.mp hs.side).1
  have hcount := hs.handshaking
  have hle : (s.handshaking c).isSome.toNat ≤ 1 := Bool.toNat_le _
  rw [List.countP_append]
  by_cases hi : inHandshake c i = true
  · rw [List.countP_cons_of_pos hi] at hcount
    rcases exec_count h hi with ⟨hone, hflag⟩ | ⟨rfl, hflag⟩
    · rw [hone, hflag]
      omega
    · rw [hflag, List.countP_nil]
      show 0 + k.countP (inHandshake c) = 0
      omega
  · have hi : inHandshake c i = false := by simpa using hi
    have hzero : is.countP (inHandshake c) = 0 := by
      refine countP_eq_zero_iff_any.mpr (exec_enters h hi fun f hf _ => ?_)
      rw [hf] at hside
      cases hside
    rw [List.countP_cons_of_neg (by simp [hi])] at hcount
    rw [hzero, exec_flag h hside hi]
    omega

/-- Behind an instruction of the handshake there is no other. -/
theorem shake_once (hs : Shake c s (i :: k)) (hi : inHandshake c i = true) :
    k.any (inHandshake c) = false := by
  have hcount := hs.handshaking
  have hle : (s.handshaking c).isSome.toNat ≤ 1 := Bool.toNat_le _
  rw [List.countP_cons_of_pos hi] at hcount
  exact countP_eq_zero_iff_any.mp (by omega)

theorem creates_clears {j : Instr} (hs : synSide c j = true) (h : creates c j = true) :
    clears c j = true := by
  cases j <;> first | exact h | cases h | cases hs

/-- Once the connection is registered, the handler does not register it again. -/
theorem exec_registered (h : exec s i ch = some (s', is)) (hside : synSide c i = true)
    (hi : opensConn c i = false) : is.any (opensConn c) = false := by
  cases i with
  | synDrain c' v =>
    simp only [exec, afterDrain] at h
    (repeat' split at h) <;> cases h
    · rfl
    · rfl
    · exact any_forwardFrames rfl (fun _ _ => rfl) _
    · rfl
  | synReplay c' v fs fin =>
    cases fs <;> simp only [exec, execReplay] at h <;> (repeat' split at h) <;> cases h <;> rfl
  | synForward c' v f fs =>
    cases h
    exact any_forwardFrames rfl (fun _ _ => rfl) fs
  | _ =>
    first
    | cases hside; done
    | cases hside.symm.trans hi
    | (simp only [exec] at h
       (repeat' split at h) <;> cases h <;> rfl)

theorem shake_exec (hs : Shake c s (i :: k)) (h : exec s i ch = some (s', is)) : Shake c s' (is ++ k) := by
  obtain ⟨hside, hsides⟩ := Bool.and_eq_true_iff.mp hs.side
  refine ⟨last_exec hs.last h, ?_, shake_count hs h, ?_, ?_, tombed_exec hs.tombed h, ?_⟩
  · rw [List.all_append, exec_synSide h hside]
    exact hsides
  · rw [List.any_append, Bool.or_eq_true]
    by_cases hi : clears c i = true
    · exact (exec_clears h hi).imp_right .inl
    · rcases hs.pending with hn | hc
      · refine .inl (exec_uncreated h hn ?_)
        by_contra hcr
        exact hi (creates_clears hside (by simpa using hcr))
      · simp only [List.any_cons, Bool.or_eq_true] at hc
        exact .inr (.inr (hc.resolve_left hi))
  · rcases hs.shown with hsh | ho
    · exact .inl (shown_exec hs.tombed hsh h)
    · rw [List.any_append, Bool.or_eq_true]
      simp only [List.any_cons, Bool.or_eq_true] at ho
      rcases ho with ho | ho
      · rcases exec_opens h ho with (hc | hc | hc) | hc
        · exact .inl (.inl hc)
        · exact .inl (.inr (.inl hc))
        · exact .inl (.inr (.inr (by simp [hc])))
        · exact .inr (.inl hc)
      · exact .inr (.inr ho)
  · intro ho
    have hconns : s.conns c = none := by
      refine hs.conns ?_
      simp only [List.any_cons, Bool.or_eq_true]
      rw [List.any_append, Bool.or_eq_true] at ho
      refine ho.imp_left fun ho => ?_
      by_contra hi
      cases ho.symm.trans (exec_registered h hside (by simpa using hi))
    cases hc : s'.conns c with
    | none => rfl
    | some v =>
      exfalso
      rcases exec_registers (c := c) h (by rw [hc]; rfl) with hreg | ⟨u, rfl⟩
      · rw [hconns] at hreg
        cases hreg
      · cases h
        have hk := shake_once hs (decide_eq_true rfl)
        rw [List.any_append] at ho
        rcases Bool.or_eq_true_iff.mp ho with ho | ho
        · cases ho
        · cases hk.symm.trans (any_inHandshake_of_opensConn ho)

end Shake

end RoundRobin.Reassembler
