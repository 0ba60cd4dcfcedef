import RoundRobin.Reassembler.Handshake.System

/-!
# RoundRobin.Reassembler.Handshake.Suspended — while a SYN handler is suspended

Another handler that runs meanwhile cannot enter the handshake of the conn id, nor register it
(`Waiting`); and once the SYN handler has registered it and removed its entry, it cannot make it pending
again or take the connection away without a tombstone (`Fenced`).
-/

namespace RoundRobin.Reassembler

open Instr TaskSystem

/-- Suspended at the egress connect or the UDP bind. -/
structure Waiting (c : ConnId) (s : Shared) : Prop where
  handshaking : (s.handshaking c).isSome
  conns : s.conns c = none

/-- Suspended while it forwards the datagrams of its entry. -/
structure Forwarding (c : ConnId) (s : Shared) : Prop where
  handshaking : (s.handshaking c).isSome
  pending : s.pending.get c = none
  shown : (s.conns c).isSome ∨ (s.closed c).isSome

/-- The instruction does not lead to a pending entry of `c`. -/
def Barred (c : ConnId) (s : Shared) : Instr → Prop
  | dataCheckClosed f | finCheckClosed f => f.connId = c → (s.closed c).isSome
  | dataContains f | dataLen f | reserveLoad _ f | reserveCas _ f _ | evictEmpty _ f | evictPick _ f
  | evictRemove _ f _ _ _ | dataPush f | dataInsert f | dataVanished f | finContains f | finPush f
  | finLen f | finInsert f => f.connId ≠ c
  | _ => True

/-- A handler runs while the SYN handler of `c` forwards datagrams. -/
structure Fenced (c : ConnId) (s : Shared) (t : List Instr) : Prop where
  handshaking : (s.handshaking c).isSome
  pending : s.pending.get c = none
  shown : Shown c s t
  tombed : Tombed c s t
  last : Last t
  outside : t.any (inHandshake c) = false
  barred : ∀ j ∈ t, Barred c s j

section Exec

variable {s s' : Shared} {i : Instr} {ch : Choice} {is k : List Instr} {c : ConnId}

theorem any_append_false {p : Instr → Bool} (h : is.any p = false) (hk : (i :: k).any p = false) :
    (is ++ k).any p = false := by
  rw [List.any_append, h]
  exact (Bool.or_eq_false_iff.mp hk).2

theorem head_outside {p : Instr → Bool} (hk : (i :: k).any p = false) : p i = false :=
  (Bool.or_eq_false_iff.mp hk).1

theorem waiting_exec (hw : Waiting c s) (ho : (i :: k).any (inHandshake c) = false)
    (h : exec s i ch = some (s', is)) : Waiting c s' ∧ (is ++ k).any (inHandshake c) = false := by
  have hi := head_outside ho
  refine ⟨⟨exec_stays h hi hw.handshaking, ?_⟩,
    any_append_false (exec_enters h hi fun _ _ _ => hw.handshaking) ho⟩
  cases hc : s'.conns c with
  | none => rfl
  | some v =>
    rcases exec_registers (c := c) h (by rw [hc]; rfl) with hs | ⟨u, rfl⟩
    · rw [hw.conns] at hs
      cases hs
    · exact absurd rfl (of_decide_eq_false hi)

theorem barred_mono {j : Instr} (hb : Barred c s j) (hcl : (s.closed c).isSome → (s'.closed c).isSome) :
    Barred c s' j := by
  cases j <;> first | exact hb | exact fun hc => hcl (hb hc)

/-- What an instruction leaves to do does not lead to a pending entry of `c` either. -/
theorem exec_barred (h : exec s i ch = some (s', is)) (hi : Barred c s i)
    (hshown : leads i = true → s.conns c = none → (s.closed c).isSome) : ∀ j ∈ is, Barred c s' j := by
  cases i with
  | handle f =>
    have hclosed : s.conns f.connId = none → f.connId = c → (s.closed c).isSome := by
      rintro hn rfl
      exact hshown rfl hn
    simp only [exec, execHandle] at h
    (repeat' split at h) <;> cases h <;> simp [Barred]
    · rename_i hn
      exact hclosed hn
    · rename_i hn
      exact hclosed hn
  | dataCheckClosed f =>
    cases h
    split
    · simp [Barred]
    · rename_i hn
      suffices hne : f.connId ≠ c by simpa [Barred] using hne
      rintro rfl
      exact hn (hi rfl)
  | finCheckClosed f =>
    cases h
    split
    · simp
    · rename_i hn
      suffices hne : f.connId ≠ c by simpa [Barred] using hne
      rintro rfl
      exact hn (hi rfl)
  | synReplay c' v fs fin =>
    exact forall_replay h trivial (fun _ => trivial) trivial (fun _ _ => trivial) (by simp [Barred, drainReset])
  | synForward c' v f fs =>
    cases h
    exact forall_forwardFrames trivial (fun _ _ => trivial) fs
  | synDrain c' v =>
    exact forall_drain h trivial (fun _ => trivial) (by simp [Barred, drainCancelled]) (fun _ _ => trivial)
      fun _ => trivial
  | synCheckClosed f n =>
    simp only [exec, execSynCheckClosed] at h
    (repeat' split at h) <;> cases h <;> simp [Barred, synClosed, synFail]
  | sweepRetain ttl =>
    exact forall_sweep h (fun _ => trivial) (fun _ => trivial) (fun _ => trivial) fun _ => trivial
  | reserveCas fresh f cur =>
    have hne : f.connId ≠ c := hi
    simp only [exec, execCas] at h
    (repeat' split at h) <;> cases h <;> simpa [Barred] using hne
  | dataPush f =>
    have hne : f.connId ≠ c := hi
    simp only [exec, execPush] at h
    (repeat' split at h) <;> cases h <;> simp [Barred, failPendingConn, hne]
  | finPush f =>
    simp only [exec, execPush] at h
    (repeat' split at h) <;> cases h <;> simp [Barred, failPendingConn]
  | dataDeliver v f =>
    simp only [exec, execDeliver] at h
    split at h <;> cases h <;> simp [Barred, dataReset]
  | _ =>
    simp only [exec] at h
    (repeat' split at h) <;> cases h <;>
      simp only [synFail, synClosed, synCancelled, failPendingConn, List.forall_mem_cons, List.not_mem_nil,
        false_imp_iff, implies_true, and_true] <;>
      simp_all [Barred]

theorem fenced_exec (hf : Fenced c s (i :: k)) (h : exec s i ch = some (s', is)) : Fenced c s' (is ++ k) := by
  have hi := head_outside hf.outside
  have hbi : Barred c s i := hf.barred i (by simp)
  have hcreates : creates c i = false := by
    cases i with
    | synReserve f => exact hi
    | dataInsert f => exact decide_eq_false hbi
    | finInsert f => exact decide_eq_false hbi
    | _ => rfl
  have hclosed : (s.closed c).isSome → (s'.closed c).isSome := exec_closed_some h
  refine ⟨exec_stays h hi hf.handshaking, exec_uncreated h hf.pending hcreates,
    shown_exec hf.tombed hf.shown h, tombed_exec hf.tombed h, last_exec hf.last h,
    any_append_false (exec_enters h hi fun _ _ _ => hf.handshaking) hf.outside, fun j hj => ?_⟩
  rcases List.mem_append.mp hj with hj | hj
  · refine exec_barred h hbi (fun hl hn => ?_) j hj
    obtain rfl := hf.last.nil_of_leads hl
    rcases hf.shown with hc | hc | hc
    · rw [hn] at hc
      cases hc
    · exact hc
    · obtain rfl := List.mem_singleton.mp hc
      cases hl
  · exact barred_mono (hf.barred j (by simp [hj])) hclosed

end Exec

end RoundRobin.Reassembler
