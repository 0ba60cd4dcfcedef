import RoundRobin.Reassembler.Effects

/-!
# RoundRobin.Reassembler.Accounting — the pending byte budget

`pending_bytes` against what it stands for: the bytes of the pending entries, plus the bytes held by
handlers between a reservation and its insert or refund, plus those of removed entries whose refund
has not run.

The counter and the map are changed in separate steps.  Two of them lose bytes: an insert after a
separate existence check overwrites an entry that another handler put there meanwhile, and an
eviction refunds the size it read before the removal.  `steady` says that neither happens;
`pendingBytes_accounted` is the accounting in every run whose steps are steady.
-/

namespace RoundRobin.Reassembler

open Instr TaskSystem

/-- The bytes of the pending entries. -/
def buffered (s : Shared) : ℕ := s.pending.total fun _ e => e.bytes

/-- The bytes buffered for one conn id. -/
def bytesAt (s : Shared) (c : ConnId) : ℕ := s.pending.weightAt (fun _ e => e.bytes) c

/-- The bytes a handler holds at an instruction: reserved and not yet inserted, or removed and not yet
refunded. -/
def held : Instr → ℕ
  | dataPush f | dataInsert f => f.payload.length
  | refund _ removed => removed
  | _ => 0

/-- `pending_bytes` is what the entries and the handlers hold, no refund can underflow it, and it is
back to `0` when the map is empty and every handler has finished. -/
structure Accounted (x : Config Shared Instr) : Prop where
  balance : x.shared.pendingBytes = buffered x.shared + weight held x.tasks
  covered : ∀ t ∈ x.tasks, ∀ b r, refund b r ∈ t → b ≤ x.shared.pendingBytes
  drained : x.shared.pending.size = 0 → Quiet x → x.shared.pendingBytes = 0

/-- An insert overwrites no bytes, and an eviction removes the bytes it read. -/
def steadyAt (s : Shared) : Instr → Bool
  | dataInsert f | finInsert f => decide (bytesAt s f.connId = 0)
  | evictRemove _ _ key bytes _ => (s.pending.get key).all fun e => e.bytes = bytes
  | _ => true

def steady : Guard Shared Instr Choice := fun s _ t _ => t.head?.all (steadyAt s)

/-- A refund subtracts the bytes it stands for. -/
def Exact : Instr → Prop
  | refund b removed => b = removed
  | _ => True

/-! ## One instruction -/

section Exec

variable {s s' : Shared} {i : Instr} {ch : Choice} {is : List Instr}

theorem held_sweepTail (m : Table ConnId PendingEntry) : ((sweepTail m).map held).sum = 0 := by
  refine List.sum_eq_zero fun n hn => ?_
  obtain ⟨j, hj, rfl⟩ := List.mem_map.mp hn
  exact forall_sweepTail (p := fun j => held j = 0) (fun _ => rfl) (fun _ => rfl) (fun _ => rfl) m j hj

@[simp] theorem held_forwardFrames (c : ConnId) (v : ℕ) (fs : List Frame) :
    ((forwardFrames c v fs).map held).sum = 0 := by
  rcases forwardFrames_cases c v fs with h | ⟨f, fs', h⟩ <;> rw [h] <;> rfl

/-- An instruction that changes neither the counter nor the map passes on what it holds. -/
theorem exec_held (h : exec s i ch = some (s', is)) (hp : i.writesPending = false)
    (hb : i.writesBytes = false) : held i = (is.map held).sum := by
  cases i with
  | synReplay c v fs fin =>
    cases fs <;> simp only [exec, execReplay] at h <;> (repeat' split at h) <;> cases h <;> rfl
  | synForward c v f fs =>
    cases h
    exact (held_forwardFrames c v fs).symm
  | _ =>
    first
    | (cases hp; done)
    | (cases hb; done)
    | (simp only [exec, execHandle, execSynCheckClosed, execDeliver] at h
       (repeat' split at h) <;> cases h <;> rfl)

theorem bytesAt_of_some {c : ConnId} {e : PendingEntry} (h : s.pending.get c = some e) :
    bytesAt s c = e.bytes := Table.weightAt_of_some h

theorem bytesAt_of_none {c : ConnId} (h : s.pending.get c = none) : bytesAt s c = 0 :=
  Table.weightAt_of_none h

theorem buffered_put {c : ConnId} {e : PendingEntry} (h : s'.pending = s.pending.put c e) :
    buffered s' + bytesAt s c = buffered s + e.bytes := by
  rw [buffered, h]
  exact Table.total_put _ _ _ _

theorem buffered_del {c : ConnId} (h : s'.pending = s.pending.del c) :
    buffered s' + bytesAt s c = buffered s := by
  rw [buffered, h]
  exact Table.total_del _ _ _

theorem buffered_markCancelled (s : Shared) (c : ConnId) :
    buffered (markCancelled s c) = buffered s := by
  have hm := markCancelled_pending s c
  cases he : s.pending.get c with
  | none =>
    rw [he] at hm
    rw [buffered, hm, buffered]
  | some e =>
    rw [he] at hm
    have := buffered_put hm
    rw [bytesAt_of_some he] at this
    exact Nat.add_right_cancel this

theorem buffered_execPush {f : Frame} {bytes : ℕ} {full gone : List Instr}
    (h : execPush s f bytes full gone = (s', is)) (hfull : (full.map held).sum = bytes)
    (hgone : (gone.map held).sum = bytes) :
    buffered s + bytes = buffered s' + (is.map held).sum := by
  unfold execPush at h
  split at h
  · rename_i e he
    split at h
    · obtain ⟨hs, rfl⟩ := Prod.mk.inj h
      have hput := buffered_put (s := s) (c := f.connId) (congrArg Shared.pending hs.symm)
      rw [bytesAt_of_some he] at hput
      simp only [List.map_nil, List.sum_nil] at hput ⊢
      omega
    · obtain ⟨rfl, rfl⟩ := Prod.mk.inj h
      rw [hfull]
  · obtain ⟨rfl, rfl⟩ := Prod.mk.inj h
    rw [hgone]

theorem buffered_insertEntry {f : Frame} (h : bytesAt s f.connId = 0) (bytes : ℕ) :
    buffered (insertEntry s f bytes) = buffered s + bytes := by
  have hp : (insertEntry s f bytes).pending = s.pending.put f.connId
      { PendingEntry.new s.now with frames := [f], bytes := bytes } := rfl
  have hput := buffered_put hp
  rw [h] at hput
  exact hput

theorem held_afterDrain (s : Shared) (c : ConnId) (v : ℕ) (e : PendingEntry) :
    ((afterDrain s c v e).map held).sum = e.bytes := by
  unfold afterDrain
  (repeat' split) <;> simp [held, drainCancelled]

/-- The balance for the instructions that change the map: the counter stays. -/
theorem exec_buffered (h : exec s i ch = some (s', is)) (hok : steadyAt s i = true)
    (hp : i.writesPending = true) : buffered s + held i = buffered s' + (is.map held).sum := by
  cases i with
  | synReserve f =>
    obtain ⟨hs, rfl⟩ := Prod.mk.inj (Option.some.inj h)
    have hput := buffered_put (s := s) (c := f.connId) (congrArg Shared.pending hs.symm)
    cases he : s.pending.get f.connId with
    | none =>
      rw [bytesAt_of_none he] at hput
      simpa [he, held, PendingEntry.new] using hput.symm
    | some e =>
      rw [bytesAt_of_some he] at hput
      simpa [he, held] using hput.symm
  | synDrain c v =>
    simp only [exec] at h
    split at h
    · cases h
      rfl
    · rename_i e he
      obtain ⟨hs, rfl⟩ := Prod.mk.inj (Option.some.inj h)
      have hdel := buffered_del (s := s) (c := c) (congrArg Shared.pending hs.symm)
      rw [held_afterDrain, ← bytesAt_of_some he]
      exact hdel.symm
  | evictRemove fresh f key bytes cancel =>
    simp only [exec] at h
    split at h
    · cases h
      rfl
    · rename_i e he
      obtain ⟨hs, rfl⟩ := Prod.mk.inj (Option.some.inj h)
      have hdel := buffered_del (s := s) (c := key) (congrArg Shared.pending hs.symm)
      rw [bytesAt_of_some he] at hdel
      simpa [held] using hdel.symm
  | dataPush f =>
    exact buffered_execPush (Option.some.inj h) (by simp [held, failPendingConn]) (by simp [held])
  | dataInsert f =>
    cases h
    exact (buffered_insertEntry (by simpa [steadyAt] using hok) _).symm
  | finPush f => exact buffered_execPush (Option.some.inj h) rfl rfl
  | finInsert f =>
    cases h
    exact (buffered_insertEntry (by simpa [steadyAt] using hok) _).symm
  | rstMark c =>
    cases h
    rw [buffered_markCancelled]
    rfl
  | removePending c =>
    simp only [exec] at h
    split at h
    · cases h
      rfl
    · rename_i e he
      obtain ⟨hs, rfl⟩ := Prod.mk.inj (Option.some.inj h)
      have hdel := buffered_del (s := s) (c := c) (congrArg Shared.pending hs.symm)
      rw [bytesAt_of_some he] at hdel
      simpa [held] using hdel.symm
  | failMark c =>
    cases h
    rw [buffered_markCancelled]
    rfl
  | sweepRetain ttl =>
    cases h
    have hsplit := Table.total_retain (fun _ e => e.bytes) s.pending fun _ e => isFresh s.now ttl e
    rw [List.map_cons, List.sum_cons, held_sweepTail]
    exact hsplit.symm
  | _ => cases hp

/-- **Balance of one step.**  What the counter gains and what the map and the handler hold change
alike. -/
theorem exec_balance (h : exec s i ch = some (s', is)) (hok : steadyAt s i = true) (hx : Exact i)
    (hi : held i ≤ s.pendingBytes) (hm : s.pendingBytes < 2 ^ 64) :
    s'.pendingBytes + buffered s + held i = s.pendingBytes + buffered s' + (is.map held).sum := by
  by_cases hb : i.writesBytes = true
  · cases i with
    | reserveCas fresh f cur =>
      simp only [exec, execCas] at h
      split at h
      · split at h
        · rename_i hc
          cases h
          obtain ⟨rfl, -⟩ := hc
          cases fresh <;> simp [held, buffered] <;> omega
        · cases h
          simp [held]
      · cases h
        simp [held]
    | refund b r =>
      cases h
      obtain rfl : b = r := hx
      have hle : b ≤ s.pendingBytes := hi
      simp only [held, buffered, Shared.fetchSub, List.map_nil, List.sum_nil]
      have hmod : b % 2 ^ 64 = b := Nat.mod_eq_of_lt (by omega)
      rw [hmod]
      omega
    | _ => cases hb
  · have hbytes : s'.pendingBytes = s.pendingBytes := exec_pendingBytes h (by simpa using hb)
    by_cases hp : i.writesPending = true
    · rw [hbytes]
      have := exec_buffered h hok hp
      omega
    · have hpend : s'.pending = s.pending := exec_pending h (by simpa using hp)
      have := exec_held h (by simpa using hp) (by simpa using hb)
      rw [hbytes, buffered, buffered, hpend]
      omega

/-- Under `steadyAt` the refunds an instruction leaves behind are exact. -/
theorem exec_exact (h : exec s i ch = some (s', is)) (hok : steadyAt s i = true) :
    ∀ j ∈ is, Exact j := by
  cases i with
  | sweepRetain ttl =>
    exact forall_sweep h (fun _ => rfl) (fun _ => trivial) (fun _ => trivial) fun _ => trivial
  | synReplay c v fs fin =>
    exact forall_replay h trivial (fun _ => trivial) trivial (fun _ _ => trivial) (by simp [Exact, drainReset])
  | synForward c v f fs =>
    cases h
    exact forall_forwardFrames trivial (fun _ _ => trivial) fs
  | synDrain c v =>
    exact forall_drain h trivial (fun _ => rfl) (by simp [Exact, drainCancelled]) (fun _ _ => trivial)
      fun _ => trivial
  | evictRemove fresh f key bytes cancel =>
    simp only [exec] at h
    split at h
    · cases h
      simp [Exact]
    · rename_i e he
      cases h
      have hb : e.bytes = bytes := by simpa [steadyAt, he] using hok
      simp [Exact, hb]
  | _ =>
    simp only [exec, execHandle, execSynCheckClosed, execDeliver, execCas, execPush] at h
    (repeat' split at h) <;> cases h <;>
      simp only [synFail, synClosed, synCancelled, dataReset, failPendingConn, List.forall_mem_cons,
        List.not_mem_nil, false_imp_iff, implies_true, and_true] <;>
      simp [Exact]

/-- A reservation keeps the counter within the budget; nothing else raises it. -/
theorem exec_budget (h : exec s i ch = some (s', is)) (hx : Exact i) (hi : held i ≤ s.pendingBytes)
    (hm : s.pendingBytes ≤ maxPendingBytes) : s'.pendingBytes ≤ maxPendingBytes := by
  by_cases hb : i.writesBytes = true
  · cases i with
    | reserveCas fresh f cur =>
      simp only [exec, execCas] at h
      (repeat' split at h) <;> cases h <;> assumption
    | refund b r =>
      cases h
      obtain rfl : b = r := hx
      have hle : b ≤ s.pendingBytes := hi
      have hlt : maxPendingBytes < 2 ^ 64 := by decide
      simp only [Shared.fetchSub]
      omega
    | _ => cases hb
  · rw [exec_pendingBytes h (by simpa using hb)]
    exact hm

end Exec

/-! ## Whole runs -/

/-- The invariant behind `Accounted`. -/
structure Balanced (x : Config Shared Instr) : Prop where
  balance : x.shared.pendingBytes = buffered x.shared + weight held x.tasks
  exact : ∀ t ∈ x.tasks, ∀ j ∈ t, Exact j
  budget : x.shared.pendingBytes ≤ maxPendingBytes

theorem spawn_held {s : Shared} {t : List Instr} (h : Spawn s t) :
    (t.map held).sum = 0 ∧ ∀ j ∈ t, Exact j := by
  cases h <;> simp [held, Exact]

theorem env_pending {s s' : Shared} (h : Env s s') :
    s'.pending = s.pending ∧ s'.pendingBytes = s.pendingBytes := by
  cases h <;> simp

theorem balanced_step {y z : Config Shared Instr} (hy : Balanced y) (hs : system.Step steady y z) :
    Balanced z := by
  have hexact : ∀ t ∈ z.tasks, ∀ j ∈ t, Exact j :=
    forall_mem_task_step hy.exact hs (fun s t ht => (spawn_held ht).2)
      (fun s s' i c is rest k he hok _ => exec_exact he (by simpa [steady] using hok))
  cases hs with
  | @task s s' l r i k is c he hok =>
    have hi : steadyAt s i = true := by simpa [steady] using hok
    have hx : Exact i := hy.exact (i :: k) (by simp) i (by simp)
    have hbal := hy.balance
    have hbud := hy.budget
    simp only [weight_append, weight_cons, List.map_cons, List.sum_cons] at hbal
    have hle : held i ≤ s.pendingBytes := by omega
    have hlt : maxPendingBytes < 2 ^ 64 := by decide
    have hstep := exec_balance he hi hx hle (lt_of_le_of_lt hbud hlt)
    refine ⟨?_, hexact, exec_budget he hx hle hbud⟩
    simp only [weight_append, weight_cons, List.map_append, List.sum_append]
    omega
  | spawn h =>
    refine ⟨?_, hexact, hy.budget⟩
    have hbal := hy.balance
    simp only [weight_append, weight_cons, weight_nil, (spawn_held h).1]
    omega
  | env h =>
    obtain ⟨hp, hb⟩ := env_pending h
    refine ⟨?_, hexact, ?_⟩
    · rw [buffered, hp, hb]
      exact hy.balance
    · rw [hb]
      exact hy.budget

theorem Balanced.accounted {x : Config Shared Instr} (h : Balanced x) : Accounted x where
  balance := h.balance
  covered := by
    intro t ht b r hr
    obtain rfl : b = r := h.exact t ht _ hr
    obtain ⟨l, m, hlm⟩ := List.append_of_mem ht
    obtain ⟨l', m', hlm'⟩ := List.append_of_mem hr
    rw [h.balance, hlm, hlm']
    simp only [weight_append, weight_cons, List.map_append, List.map_cons, List.sum_append,
      List.sum_cons, held]
    omega
  drained := by
    intro hsize hq
    have hp : x.shared.pending.entries = [] := List.length_eq_zero_iff.mp hsize
    rw [h.balance, weight_quiet held hq]
    simp [buffered, Table.total, hp]

/-- **The pending byte budget is accounted for** in every state of every run in which no insert
overwrites bytes and no eviction removes an entry that grew or shrank since it was read. -/
theorem pendingBytes_accounted {window : ℕ} {x : Config Shared Instr}
    (h : system.Reachable steady (.init window) x) : Accounted x := by
  refine (Runs.inv (P := Balanced) h ?_ fun y z => balanced_step).accounted
  exact ⟨rfl, by simp, Nat.zero_le _⟩

/-- DATA before the SYN, DATA while connecting, and the drain up to its refund. -/
def drainSchedule : List (Move Shared Instr Choice) :=
  [Move.start [dispatch (.data 7 1 [1, 2])]] ++ List.replicate 8 (Move.step 0 Choice.go) ++
    [Move.start [dispatch (synTcp 7)]] ++ List.replicate 5 (Move.step 1 Choice.go) ++
    [Move.start [dispatch (.data 7 2 [3])]] ++ List.replicate 7 (Move.step 2 Choice.go) ++
    [Move.step 1 Choice.connected, .step 1 .go, .step 1 .go, .step 1 .go]

theorem pendingBytes_accounted_drain : ∃ x, system.Reachable steady (.init maxReorderBytes) x ∧
    Accounted x ∧ x.shared.pendingBytes = 3 ∧ weight held x.tasks = 3 := by
  obtain ⟨x, hx, hp⟩ := moves_exists (M := system) (g := steady) (x := ⟨.init maxReorderBytes, []⟩)
    (p := fun x => decide (x.shared.pendingBytes = 3 ∧ weight held x.tasks = 3))
    (m := drainSchedule) (allowed_of_isFrameMove rfl) (by decide)
  exact ⟨x, hx, pendingBytes_accounted hx, of_decide_eq_true hp⟩

/-- Two DATA frames of one connection arrive before its SYN, on different tunnels; both handlers find
no entry before either inserts one. -/
def overwriteSchedule : List (Move Shared Instr Choice) :=
  [Move.start [dispatch (.data 7 1 [1])], .start [dispatch (.data 7 2 [2])]] ++
    List.replicate 7 (Move.step 0 Choice.go) ++ List.replicate 8 (Move.step 1 Choice.go) ++ [Move.step 0 Choice.go]

/-- The second insert forgets the first frame's byte: the map holds one byte, the counter two. -/
theorem pendingBytes_drift : ∃ x, system.Reachable free (.init maxReorderBytes) x ∧ Quiet x ∧
    ¬ Accounted x := by
  obtain ⟨x, hx, hp⟩ := moves_exists (M := system) (g := free) (x := ⟨.init maxReorderBytes, []⟩)
    (p := fun x => decide (Quiet x ∧ x.shared.pendingBytes ≠ buffered x.shared + weight held x.tasks))
    (m := overwriteSchedule) (allowed_of_isFrameMove rfl) (by decide)
  have hd := of_decide_eq_true hp
  exact ⟨x, hx, hd.1, fun h => hd.2 h.balance⟩

end RoundRobin.Reassembler
