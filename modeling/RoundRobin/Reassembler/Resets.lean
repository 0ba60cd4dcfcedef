import RoundRobin.Reassembler.Calls
import Mathlib.Algebra.BigOperators.Group.List.Lemmas

/-!
# RoundRobin.Reassembler.Resets — how many RSTs a frame can cause

A frame other than an RST has one credit: its handler spends it on an RST, or on a new pending entry.
Evicting an entry takes it back out of the map, which pays for its RST.  Each instruction has the credit
that its handler needs from there on (`credit`), negative where an entry is about to be removed.
-/

namespace RoundRobin.Reassembler

open Instr TaskSystem

/-- What a frame may cost: an RST or a pending entry, unless it is handled as an RST. -/
def cost (f : Frame) : ℕ := if f.has flagSyn || f.has flagData || f.has flagFin then 1 else 0

/-- One if an entry is pending. -/
def waiting (m : Table ConnId PendingEntry) (c : ConnId) : ℤ := if (m.get c).isSome then 1 else 0

def credit (m : Table ConnId PendingEntry) : Instr → ℤ
  | dispatch f | handle f => cost f
  | synRegister f | synReserve f | synCheckClosed f _ => 1 - waiting m f.connId
  | synBindUdp c | synConnect c _ | synRecheckClosed c | synInsert c _ | synDrain c _ => 1 - waiting m c
  | removePending c => - waiting m c
  | synReplay _ _ _ _ | dataDeliver _ _ | dataCheckClosed _ | dataContains _ | dataLen _
  | reserveLoad _ _ | reserveCas _ _ _ | evictEmpty _ _ | evictPick _ _ | evictRemove _ _ _ _ _
  | dataPush _ | dataInsert _ | dataVanished _ | finCheckClosed _ | finContains _ | finPush _
  | finLen _ | finInsert _ | sendRst _ => 1
  | _ => 0

/-- The credit does not depend on the entries. -/
def plain : Instr → Bool
  | synRegister _ | synReserve _ | synCheckClosed _ _ | synBindUdp _ | synConnect _ _
  | synRecheckClosed _ | synInsert _ _ | synDrain _ _ | removePending _ | sweepRetain _ => false
  | _ => true

/-- What the handler may still cost, and has cost so far. -/
def balance (s : Shared) (t : List Instr) : ℤ :=
  s.offered.length + s.pending.size + (t.map (credit s.pending)).sum

theorem waiting_of_some {m : Table ConnId PendingEntry} {c : ConnId} {e : PendingEntry}
    (h : m.get c = some e) : waiting m c = 1 := by
  simp [waiting, h]

theorem waiting_of_none {m : Table ConnId PendingEntry} {c : ConnId} (h : m.get c = none) :
    waiting m c = 0 := by
  simp [waiting, h]

theorem waiting_bound (m : Table ConnId PendingEntry) (c : ConnId) : 0 ≤ waiting m c ∧ waiting m c ≤ 1 := by
  unfold waiting
  split <;> omega

theorem cost_le (f : Frame) : cost f ≤ 1 := by
  unfold cost
  split <;> omega

theorem credit_plain {i : Instr} (h : plain i = true) (m m' : Table ConnId PendingEntry) :
    credit m i = credit m' i ∧ 0 ≤ credit m i := by
  cases i <;> first | cases h; done | exact ⟨rfl, by simp [credit]⟩

theorem credits_plain {t : List Instr} (h : t.all plain = true) (m m' : Table ConnId PendingEntry) :
    (t.map (credit m)).sum = (t.map (credit m')).sum ∧ 0 ≤ (t.map (credit m)).sum := by
  rw [List.all_eq_true] at h
  refine ⟨congrArg List.sum (List.map_congr_left fun j hj => (credit_plain (h j hj) m m').1), ?_⟩
  refine List.sum_nonneg fun x hx => ?_
  obtain ⟨j, hj, rfl⟩ := List.mem_map.mp hx
  exact (credit_plain (h j hj) m m').2

section Exec

variable {s s' : Shared} {i : Instr} {ch : Choice} {is k : List Instr}

theorem credit_forwardFrames (m : Table ConnId PendingEntry) (c : ConnId) (v : ℕ) (fs : List Frame) :
    ((forwardFrames c v fs).map (credit m)).sum = 0 := by
  rcases forwardFrames_cases c v fs with h | ⟨f, fs', h⟩ <;> rw [h] <;> rfl

/-- Only the head of what an instruction leaves to do depends on the entries. -/
theorem exec_plain (h : exec s i ch = some (s', is)) (hi : ∀ ttl, i ≠ sweepRetain ttl) :
    is.tail.all plain = true := by
  cases i with
  | sweepRetain ttl => exact absurd rfl (hi ttl)
  | synReplay c v fs fin =>
    cases fs <;> simp only [exec, execReplay] at h <;> (repeat' split at h) <;> cases h <;> rfl
  | synForward c v f fs =>
    cases h
    rcases forwardFrames_cases c v fs with hf | ⟨g, fs', hf⟩ <;> rw [hf] <;> rfl
  | synDrain c v =>
    simp only [exec, afterDrain] at h
    (repeat' split at h) <;> cases h
    · rfl
    · rfl
    · rcases forwardFrames_cases c v _ with hf | ⟨f, fs, hf⟩ <;> rw [List.tail_cons, hf] <;> rfl
    · rfl
  | _ =>
    simp only [exec, execHandle, execSynCheckClosed, execDeliver, execCas, execPush] at h
    (repeat' split at h) <;> cases h <;> rfl

/-- Passing the credit on, where the entries stay. -/
theorem exec_credit (h : exec s i ch = some (s', is)) (hw : i.writesPending = false)
    (hi : ∀ c, i ≠ sendRst c) : (is.map (credit s.pending)).sum ≤ credit s.pending i := by
  cases i with
  | sendRst c => exact absurd rfl (hi c)
  | handle f =>
    have hb := waiting_bound s.pending f.connId
    simp only [exec, execHandle] at h
    (repeat' split at h) <;> cases h <;> simp_all [credit, cost]
  | synReplay c v fs fin =>
    cases fs <;> simp only [exec, execReplay] at h <;> (repeat' split at h) <;> cases h <;>
      simp [credit, drainReset]
  | synForward c v f fs =>
    cases h
    exact (credit_forwardFrames s.pending c v fs).le
  | synRegister f =>
    have hb := waiting_bound s.pending f.connId
    cases h
    split <;> simp [credit, hb.2]
  | synCheckClosed f n =>
    have hb := waiting_bound s.pending f.connId
    simp only [exec, execSynCheckClosed] at h
    (repeat' split at h) <;> cases h <;> simp [credit, synClosed, synFail]
  | synBindUdp c =>
    simp only [exec] at h
    (repeat' split at h) <;> cases h <;> simp [credit, synFail]
  | synConnect c n =>
    have hb := waiting_bound s.pending c
    simp only [exec] at h
    (repeat' split at h) <;> cases h <;> simp [credit, synFail, synCancelled]
  | synRecheckClosed c =>
    have hb := waiting_bound s.pending c
    cases h
    split <;> simp [credit, synClosed]
  | dataVanished f =>
    have hb := cost_le f
    cases h
    split
    · simpa [credit] using hb
    · simp [credit]
  | _ =>
    first
    | cases hw; done
    | (simp only [exec, execDeliver, execCas] at h
       (repeat' split at h) <;> cases h <;> simp [credit, dataReset, failPendingConn])

theorem size_markCancelled (s : Shared) (c : ConnId) :
    (markCancelled s c).pending.size = s.pending.size := by
  rw [markCancelled_pending]
  split
  · rfl
  · rename_i e he
    exact Table.size_put_of_some he _

theorem size_insertEntry (s : Shared) (f : Frame) (bytes : ℕ) :
    (insertEntry s f bytes).pending.size ≤ s.pending.size + 1 := Table.size_put_le _ _ _

/-- An entry that is removed pays for what follows. -/
theorem size_del {c : ConnId} {e : PendingEntry} (h : s.pending.get c = some e) :
    ((s.pending.del c).size : ℤ) + waiting s.pending c = s.pending.size := by
  rw [waiting_of_some h]
  exact_mod_cast Table.size_del_of_some h

theorem paid_execPush {f : Frame} {bytes : ℕ} {full gone : List Instr}
    (h : execPush s f bytes full gone = (s', is)) (hfull : (full.map (credit s.pending)).sum ≤ 1)
    (hgone : (gone.map (credit s.pending)).sum ≤ 1) :
    (s'.pending.size : ℤ) + (is.map (credit s'.pending)).sum ≤ s.pending.size + 1 := by
  unfold execPush at h
  split at h
  · rename_i e he
    split at h <;> obtain ⟨rfl, rfl⟩ := Prod.mk.inj h
    · simp [Table.size_put_of_some he]
    · omega
  · obtain ⟨rfl, rfl⟩ := Prod.mk.inj h
    omega

/-- An instruction that changes the entries keeps within its credit. -/
theorem exec_paid (h : exec s i ch = some (s', is)) (hw : i.writesPending = true)
    (hi : ∀ ttl, i ≠ sweepRetain ttl) :
    (s'.pending.size : ℤ) + (is.map (credit s'.pending)).sum ≤ s.pending.size + credit s.pending i := by
  cases i with
  | sweepRetain ttl => exact absurd rfl (hi ttl)
  | synReserve f =>
    cases h
    cases hp : s.pending.get f.connId with
    | none => simp [credit, waiting, hp, Table.size_put_of_none hp]
    | some e => simp [credit, waiting, hp, Table.size_put_of_some hp]
  | synDrain c v =>
    simp only [exec] at h
    split at h <;> cases h
    · have hb := waiting_bound s.pending c
      simp only [List.map_cons, List.map_nil, List.sum_cons, List.sum_nil, credit]
      omega
    · rename_i e he
      have hsize := size_del he
      have hafter : ((afterDrain s c v e).map (credit (s.pending.del c))).sum ≤ 1 := by
        simp only [afterDrain]
        (repeat' split) <;> simp [credit, drainCancelled, credit_forwardFrames]
      simp only [credit]
      omega
  | evictRemove fresh f key bytes cancel =>
    simp only [exec] at h
    split at h <;> cases h
    · simp [credit]
    · rename_i e he
      have hsize := Table.size_del_of_some he
      simp only [List.map_cons, List.map_nil, List.sum_cons, List.sum_nil, credit]
      omega
  | dataPush f =>
    refine paid_execPush (Option.some.inj h) ?_ ?_
    · simp [credit, failPendingConn]
    · simp [credit]
  | finPush f =>
    refine paid_execPush (Option.some.inj h) ?_ ?_
    · simp [credit, failPendingConn]
    · simp
  | dataInsert f =>
    cases h
    have := size_insertEntry s f f.payload.length
    simp only [List.map_nil, List.sum_nil, credit]
    omega
  | finInsert f =>
    cases h
    have := size_insertEntry s f 0
    simp only [List.map_nil, List.sum_nil, credit]
    omega
  | rstMark c =>
    cases h
    simp [credit, size_markCancelled]
  | failMark c =>
    cases h
    simp [credit, size_markCancelled]
  | removePending c =>
    simp only [exec] at h
    split at h <;> cases h
    · rename_i hn
      simp [credit, waiting_of_none hn]
    · rename_i e he
      have hsize := size_del he
      simp only [List.map_cons, List.map_nil, List.sum_cons, List.sum_nil, credit]
      omega
  | _ => cases hw

theorem balance_exec (h : exec s i ch = some (s', is)) (hi : ∀ ttl, i ≠ sweepRetain ttl)
    (hk : k.all plain = true) : balance s' (is ++ k) ≤ balance s (i :: k) := by
  have hrest : (k.map (credit s'.pending)).sum = (k.map (credit s.pending)).sum := (credits_plain hk _ _).1
  simp only [balance, List.map_append, List.sum_append, List.map_cons, List.sum_cons, hrest]
  by_cases hw : i.writesPending = true
  · have hpaid := exec_paid h hw hi
    have hoff : s'.offered = s.offered := by
      rcases exec_offered h with ho | ⟨c, rfl, -⟩
      · exact ho
      · cases hw
    rw [hoff]
    omega
  · have hpend := exec_pending h (by simpa using hw)
    rcases exec_offered h with ho | ⟨c, rfl, ho⟩
    · by_cases hs : ∃ c, i = sendRst c
      · obtain ⟨c, rfl⟩ := hs
        cases h
        simp at ho
      · have hc := exec_credit h (by simpa using hw) fun c he => hs ⟨c, he⟩
        rw [ho, hpend]
        omega
    · cases h
      simp [credit]
      omega

end Exec

/-! ## Whole calls -/

/-- What holds inside the handler of a frame that started in `s₀`. -/
structure Spending (s₀ : Shared) (f : Frame) (s : Shared) (t : List Instr) : Prop where
  within : balance s t ≤ balance s₀ [dispatch f]
  plain : t.tail.all plain = true
  /-- No sweep runs inside. -/
  on : ∀ j ∈ t, On (fun _ => True) (fun _ => True) (fun _ => True) j
  offered : ∃ l, s.offered = s₀.offered ++ l ∧ ∀ g ∈ l, ∃ c, g = Frame.rst c

section Call

variable {s₀ s s' : Shared} {f : Frame} {i : Instr} {ch : Choice} {is k t t' : List Instr}

theorem spending_exec (hs : Spending s₀ f s (i :: k)) (h : exec s i ch = some (s', is)) :
    Spending s₀ f s' (is ++ k) := by
  have hk : k.all plain = true := hs.plain
  have hi : ∀ ttl, i ≠ sweepRetain ttl := by
    rintro ttl rfl
    exact hs.on _ List.mem_cons_self
  refine ⟨(balance_exec h hi hk).trans hs.within, ?_, fun j hj => ?_, ?_⟩
  · cases is with
    | nil =>
      rw [List.all_eq_true] at hk
      exact List.all_eq_true.mpr fun j hj => hk j (List.mem_of_mem_tail hj)
    | cons j is =>
      rw [List.cons_append, List.tail_cons, List.all_append, hk, Bool.and_true]
      exact exec_plain h hi
  · rcases List.mem_append.mp hj with hj | hj
    · exact exec_on h (hs.on i (by simp)) (fun _ _ => trivial) (fun _ _ => trivial)
        (fun _ _ _ _ => trivial) (fun _ _ _ _ => trivial) j hj
    · exact hs.on j (by simp [hj])
  · obtain ⟨l, hl, hrst⟩ := hs.offered
    rcases exec_offered h with ho | ⟨c, -, ho⟩
    · exact ⟨l, ho.trans hl, hrst⟩
    · refine ⟨l ++ [Frame.rst c], by rw [ho, hl, List.append_assoc], fun g hg => ?_⟩
      rcases List.mem_append.mp hg with hg | hg
      · exact hrst g hg
      · exact ⟨c, List.mem_singleton.mp hg⟩

/-- Where a handler ends or is suspended, nothing has to be paid back. -/
theorem credits_rest (hr : rests t = true) (hp : t.tail.all plain = true)
    (m : Table ConnId PendingEntry) : 0 ≤ (t.map (credit m)).sum := by
  cases t with
  | nil => exact le_rfl
  | cons i k =>
    have hk : 0 ≤ (k.map (credit m)).sum := (credits_plain hp m m).2
    have hi : 0 ≤ credit m i := by
      cases i with
      | synConnect c n => simpa [credit] using (waiting_bound m c).2
      | synBindUdp c => simpa [credit] using (waiting_bound m c).2
      | synForward c v g fs => exact le_rfl
      | udpForward v g => exact le_rfl
      | _ => cases hr
    simp only [List.map_cons, List.sum_cons]
    omega

/-- **What a frame costs.**  Its handler offers RSTs only, and these and the pending entries it leaves are
no more than the entries it found and the cost of the frame. -/
theorem call_resets (h : Call s [dispatch f] s' t') : ∃ l, s'.offered = s.offered ++ l ∧
    (∀ g ∈ l, ∃ c, g = Frame.rst c) ∧ l.length + s'.pending.size ≤ s.pending.size + cost f := by
  have hs : Spending s f s' t' := by
    refine h.1.inv ⟨le_rfl, rfl, by simp [On], [], by simp, by simp⟩ ?_
    exact fun _ _ _ _ _ _ => spending_exec
  obtain ⟨l, hl, hrst⟩ := hs.offered
  refine ⟨l, hl, hrst, ?_⟩
  have hw := hs.within
  have hrest := credits_rest h.2 hs.plain s'.pending
  simp only [balance, hl, List.length_append, List.map_cons, List.map_nil, List.sum_cons, List.sum_nil,
    credit] at hw
  omega

end Call

end RoundRobin.Reassembler
