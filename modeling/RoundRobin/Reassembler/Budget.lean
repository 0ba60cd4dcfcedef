import RoundRobin.Reassembler.Accounting
import RoundRobin.Reassembler.Handshake.System

/-!
# RoundRobin.Reassembler.Budget — what waits for its SYN

Runs of whole calls, where nothing interferes with a handler between two suspensions.  There no insert
overwrites an entry and no eviction removes one that changed since it was picked, so `pending_bytes` is exact
whenever no handler runs, and every entry has counted its DATA frames and holds at most 256 frames (`Ledger`).

The payload of a FIN is not counted.  Where no FIN with a payload is queued, the frames of all entries fit in
the budget (`pending_bounded`).
-/

namespace RoundRobin.Reassembler

open Instr TaskSystem

/-- The entry of `c` takes a further frame, or a new entry may be made for it. -/
def roomFor (s : Shared) (c : ConnId) : Bool :=
  match s.pending.get c with
  | some e => decide (e.frames.length < maxPendingFramesPerCid)
  | none => decide (s.pending.size < maxPendingCids)

/-- A frame that is handled as FIN is going to be queued. -/
def queuesFin (s : Shared) (f : Frame) : Bool :=
  isFin f && (s.conns f.connId).isNone && (s.closed f.connId).isNone && roomFor s f.connId

/-- What an entry counts of a frame. -/
def counted (f : Frame) : ℕ := if isData f then f.payload.length else 0

/-- An entry that has counted its frames, all of them with `p`. -/
structure Queued (p : Frame → Prop) (e : PendingEntry) : Prop where
  bytes : e.bytes = (e.frames.map counted).sum
  frames : e.frames.length ≤ maxPendingFramesPerCid
  each : ∀ g ∈ e.frames, p g

/-- Every pending entry has. -/
def AllQueued (p : Frame → Prop) (s : Shared) : Prop := ∀ c e, s.pending.get c = some e → Queued p e

/-! ## A handler on its way to the entry -/

/-- The handler may still make or fill an entry. -/
def gates : Instr → Bool
  | dispatch _ | handle _ | synRegister _ | synReserve _ | dataCheckClosed _ | dataContains _ | dataLen _
  | reserveLoad _ _ | reserveCas _ _ _ | evictEmpty _ _ | evictPick _ _ | evictRemove _ _ _ _ _ | dataPush _
  | dataInsert _ | dataVanished _ | finCheckClosed _ | finContains _ | finPush _ | finLen _
  | finInsert _ => true
  | _ => false

/-- It may stand behind other instructions. -/
def late : Instr → Bool
  | reserveLoad _ _ | dataVanished _ => true
  | i => !gates i

/-- What a handler of frame `f` knows on its way, where frames that are queued have `p`. -/
def Fits (p : Frame → Prop) (s : Shared) : Instr → Prop
  | dispatch f | handle f => (isData f = true → p f) ∧ (queuesFin s f = true → p f)
  | dataCheckClosed f | dataContains f | dataPush f | dataVanished f => isData f = true ∧ p f
  | dataLen f | dataInsert f => (isData f = true ∧ p f) ∧ s.pending.get f.connId = none
  | reserveLoad fresh f | reserveCas fresh f _ | evictEmpty fresh f | evictPick fresh f =>
    (isData f = true ∧ p f) ∧ (fresh = true → s.pending.get f.connId = none)
  | evictRemove fresh f key bytes _ =>
    (isData f = true ∧ p f) ∧ (fresh = true → s.pending.get f.connId = none) ∧
      ∃ e, s.pending.get key = some e ∧ e.bytes = bytes
  | finCheckClosed f => isFin f = true ∧ (s.closed f.connId = none → roomFor s f.connId = true → p f)
  | finContains f | finPush f => isFin f = true ∧ (roomFor s f.connId = true → p f)
  | finLen f => isFin f = true ∧ s.pending.get f.connId = none ∧ (roomFor s f.connId = true → p f)
  | finInsert f => isFin f = true ∧ s.pending.get f.connId = none ∧ p f
  | _ => True

section Exec

variable {p : Frame → Prop} {s s' : Shared} {i : Instr} {ch : Choice} {is k : List Instr}

theorem fits_of_not_gates (h : gates i = false) : Fits p s i := by
  cases i with
  | _ => trivial

theorem creates_of_not_gates (h : gates i = false) (c : ConnId) : creates c i = false := by
  cases i with
  | _ => first | rfl | cases h

theorem countP_none {t : List Instr} (h : t.any gates = false) : t.countP gates = 0 := by
  rw [List.countP_eq_zero]
  exact List.any_eq_false.mp h

theorem forwardFrames_gates (c : ConnId) (v : ℕ) (fs : List Frame) :
    (forwardFrames c v fs).countP gates = 0 ∧ (forwardFrames c v fs).all late = true := by
  rcases forwardFrames_cases c v fs with h | ⟨f, fs', h⟩ <;> rw [h] <;> exact ⟨rfl, rfl⟩

theorem sweepTail_gates (m : Table ConnId PendingEntry) :
    (sweepTail m).countP gates = 0 ∧ (sweepTail m).all late = true := by
  refine ⟨countP_none (any_sweepTail (fun _ => rfl) (fun _ => rfl) (fun _ => rfl) m), ?_⟩
  simp [sweepTail, late, gates]

/-- A handler is on at most one such way, and what it does on the side stands before it. -/
theorem exec_gates (h : exec s i ch = some (s', is)) :
    is.countP gates ≤ (if gates i then 1 else 0) ∧ is.tail.all late = true := by
  cases i with
  | synReplay c v fs fin =>
    cases fs <;> simp only [exec, execReplay] at h <;> (repeat' split at h) <;> cases h <;> exact ⟨le_rfl, rfl⟩
  | synForward c v f fs =>
    cases h
    obtain ⟨hc, hl⟩ := forwardFrames_gates c v fs
    rw [List.all_eq_true] at hl ⊢
    exact ⟨hc.le, fun j hj => hl j (List.mem_of_mem_tail hj)⟩
  | synDrain c v =>
    simp only [exec, afterDrain] at h
    (repeat' split at h) <;> cases h
    · exact ⟨le_rfl, rfl⟩
    · exact ⟨le_rfl, rfl⟩
    · obtain ⟨hc, hl⟩ := forwardFrames_gates c v ‹PendingEntry›.frames
      exact ⟨by rw [List.countP_cons_of_neg (by simp [gates])]; exact hc.le, hl⟩
    · exact ⟨le_rfl, rfl⟩
  | sweepRetain ttl =>
    cases h
    obtain ⟨hc, hl⟩ := sweepTail_gates (s.pending.retain fun _ e => !isFresh s.now ttl e)
    exact ⟨by rw [List.countP_cons_of_neg (by simp [gates])]; exact hc.le, hl⟩
  | _ =>
    simp only [exec, execHandle, execSynCheckClosed, execDeliver, execCas, execPush] at h
    (repeat' split at h) <;> cases h <;> first | exact ⟨le_rfl, rfl⟩ | exact ⟨Nat.zero_le _, rfl⟩

theorem fits_of_left (hi : gates i = false) (h : exec s i ch = some (s', is)) : ∀ j ∈ is, Fits p s' j := by
  intro j hj
  have hnone := (exec_gates h).1
  rw [hi, if_neg (by simp), Nat.le_zero, List.countP_eq_zero] at hnone
  exact fits_of_not_gates (by simpa using hnone j hj)

theorem fits_dispatch {f : Frame} (hi : Fits p s (dispatch f)) (h : exec s (dispatch f) ch = some (s', is)) :
    ∀ j ∈ is, Fits p s' j := by
  cases h
  simpa [Fits, queuesFin, roomFor] using hi

theorem fits_handle {f : Frame} (hi : Fits p s (handle f)) (h : exec s (handle f) ch = some (s', is)) :
    ∀ j ∈ is, Fits p s' j := by
  obtain ⟨hdata, hfin⟩ := hi
  simp only [exec, execHandle] at h
  split_ifs at h with hsyn hreg hd hf hr
  · cases h
    simp
  · cases h
    simp [Fits]
  · have hk : isData f = true := by simp [isData, hsyn, hd]
    split at h
    · split at h <;> cases h <;> simp [Fits]
    · cases h
      simpa [Fits, hk] using hdata hk
  · have hk : isFin f = true := by simp [isFin, hsyn, hd, hf]
    split at h
    · split at h <;> cases h <;> simp [Fits]
    · rename_i hn
      cases h
      simp only [List.mem_singleton, forall_eq, Fits]
      refine ⟨hk, fun hc hroom => hfin ?_⟩
      simp [queuesFin, hk, hn, hc, hroom]
  · split at h <;> cases h <;> simp [Fits]
  · cases h
    simp

/-- The way of a DATA or FIN frame from one instruction to the next. -/
theorem exec_fits_new (hi : Fits p s i) (h : exec s i ch = some (s', is)) : ∀ j ∈ is, Fits p s' j := by
  cases i with
  | dispatch f => exact fits_dispatch hi h
  | handle f => exact fits_handle hi h
  | dataContains f =>
    cases h
    split
    · simpa [Fits] using hi
    · rename_i hn
      simpa [Fits] using And.intro hi (by simpa using hn)
  | dataLen f =>
    obtain ⟨hf, hn⟩ := hi
    cases h
    split
    · simpa [Fits, hn] using hf
    · simp [Fits, failPendingConn]
  | reserveCas fresh f cur =>
    obtain ⟨hf, hn⟩ := hi
    simp only [exec, execCas] at h
    split_ifs at h with hle hcas hfresh
    · cases h
      simpa [Fits] using And.intro hf (hn hfresh)
    · cases h
      simpa [Fits] using hf
    · cases h
      simpa [Fits] using And.intro hf hn
    · cases h
      simpa [Fits] using And.intro hf hn
  | evictPick fresh f =>
    obtain ⟨hf, hn⟩ := hi
    simp only [exec] at h
    split at h
    · cases h
      simp [Fits, failPendingConn]
    · (repeat' split at h) <;> cases h
      rename_i e he _
      simpa [Fits] using And.intro hf (And.intro hn ⟨e, he, rfl⟩)
  | evictRemove fresh f key bytes cancel =>
    obtain ⟨hf, hn, -⟩ := hi
    have hload : ∀ m : Table ConnId PendingEntry,
        (fresh = true → m.get f.connId = none) → Fits p { s with pending := m } (reserveLoad fresh f) :=
      fun m hm => ⟨hf, hm⟩
    simp only [exec] at h
    split at h <;> cases h
    · simpa using hload s.pending hn
    · simp only [List.mem_cons, List.not_mem_nil, or_false, forall_eq_or_imp, forall_eq]
      refine ⟨trivial, trivial, trivial, trivial, hload _ fun hfr => ?_⟩
      by_cases hk : f.connId = key
      · rw [hk, Table.get_del_self]
      · rw [Table.get_del_ne _ hk, hn hfr]
  | dataVanished f =>
    obtain ⟨hd, hp⟩ := hi
    cases h
    split
    · simp only [List.mem_singleton, forall_eq, Fits]
      refine ⟨fun _ => hp, fun hq => ?_⟩
      simp only [queuesFin, Bool.and_eq_true] at hq
      rw [isData_of_isFin hq.1.1.1] at hd
      cases hd
    · simp
  | finContains f =>
    obtain ⟨hf, hroom⟩ := hi
    cases h
    split
    · simpa [Fits] using And.intro hf hroom
    · rename_i hn
      simpa [Fits] using And.intro hf (And.intro (by simpa using hn) hroom)
  | finLen f =>
    obtain ⟨hf, hn, hroom⟩ := hi
    cases h
    split
    · rename_i hlt
      simpa [Fits] using And.intro hf (And.intro hn (hroom (by simp [roomFor, hn, hlt])))
    · simp [Fits, failPendingConn]
  | synRegister f | synReserve f | dataCheckClosed f | reserveLoad _ f | evictEmpty _ f | dataPush f
  | dataInsert f | finCheckClosed f | finPush f | finInsert f =>
    simp only [exec, execPush] at h
    (repeat' split at h) <;> cases h <;> simp_all [Fits, failPendingConn]
  | _ => exact fits_of_left rfl h

/-- What stands behind an instruction keeps what it knows. -/
theorem exec_fits_late (h : exec s i ch = some (s', is)) (hi : gates i = false) {j : Instr} (hj : late j = true)
    (hf : Fits p s j) : Fits p s' j := by
  cases j with
  | reserveLoad fresh f =>
    obtain ⟨hp, hn⟩ := hf
    exact ⟨hp, fun hfr => exec_uncreated h (hn hfr) (creates_of_not_gates hi _)⟩
  | dataVanished f => exact hf
  | _ => trivial

/-! ## What is queued -/

theorem allQueued_put {c : ConnId} {e : PendingEntry} (hs : AllQueued p s) (he : Queued p e)
    (h : s'.pending = s.pending.put c e) : AllQueued p s' := by
  intro c' e' hc
  rw [h, Table.get_put] at hc
  split_ifs at hc
  · obtain rfl := Option.some.inj hc
    exact he
  · exact hs c' e' hc

theorem allQueued_sub (hs : AllQueued p s)
    (h : ∀ c e, s'.pending.get c = some e → s.pending.get c = some e) : AllQueued p s' :=
  fun c e he => hs c e (h c e he)

theorem get_of_del {m : Table ConnId PendingEntry} {c c' : ConnId} {e : PendingEntry}
    (h : (m.del c).get c' = some e) : m.get c' = some e := by
  by_cases hc : c' = c
  · rw [hc, Table.get_del_self] at h
    cases h
  · rwa [Table.get_del_ne _ hc] at h

theorem allQueued_markCancelled {c : ConnId} (hs : AllQueued p s) : AllQueued p (markCancelled s c) := by
  have hm := markCancelled_pending s c
  cases hc : s.pending.get c with
  | none =>
    rw [hc] at hm
    exact allQueued_sub hs fun c' e he => by rwa [hm] at he
  | some e =>
    rw [hc] at hm
    obtain ⟨hb, hn, hp⟩ := hs c e hc
    exact allQueued_put hs (e := { e with cancelled := true }) ⟨hb, hn, hp⟩ hm

/-- A frame that an entry has room for is counted and queued. -/
theorem queued_push {e : PendingEntry} {f : Frame} (he : Queued p e)
    (hroom : e.frames.length < maxPendingFramesPerCid) (hf : p f) :
    Queued p { e with frames := e.frames ++ [f], bytes := e.bytes + counted f } := by
  refine ⟨?_, ?_, fun g hg => ?_⟩
  · simp [he.bytes]
  · simpa using Nat.succ_le_of_lt hroom
  · rcases List.mem_append.mp hg with hg | hg
    · exact he.each g hg
    · obtain rfl := List.mem_singleton.mp hg
      exact hf

theorem allQueued_execPush {f : Frame} {full gone : List Instr}
    (h : execPush s f (counted f) full gone = (s', is)) (hs : AllQueued p s)
    (hf : roomFor s f.connId = true → p f) : AllQueued p s' := by
  unfold execPush at h
  split at h
  · rename_i e he
    split at h
    · rename_i hroom
      obtain ⟨rfl, -⟩ := Prod.mk.inj h
      exact allQueued_put hs (queued_push (hs _ e he) hroom (hf (by simp [roomFor, he, hroom]))) rfl
    · obtain ⟨rfl, -⟩ := Prod.mk.inj h
      exact hs
  · obtain ⟨rfl, -⟩ := Prod.mk.inj h
    exact hs

theorem allQueued_insertEntry {f : Frame} (hs : AllQueued p s) (hf : p f) :
    AllQueued p (insertEntry s f (counted f)) := by
  refine allQueued_put hs (e := { PendingEntry.new s.now with frames := [f], bytes := counted f })
    ⟨?_, ?_, ?_⟩ rfl
  · simp
  · simp [maxPendingFramesPerCid]
  · simpa using hf

theorem counted_data {f : Frame} (h : isData f = true) : counted f = f.payload.length := if_pos h

theorem counted_fin {f : Frame} (h : isFin f = true) : counted f = 0 :=
  if_neg (by simp [isData_of_isFin h])

theorem exec_allQueued (h : exec s i ch = some (s', is)) (hs : AllQueued p s) (hi : Fits p s i) :
    AllQueued p s' := by
  by_cases hw : i.writesPending = true
  · cases i with
    | synReserve f =>
      cases h
      refine allQueued_put hs (e := { (s.pending.get f.connId).getD (PendingEntry.new s.now) with
        cancel := some s.nextNotify }) ?_ rfl
      cases hc : s.pending.get f.connId with
      | none => exact ⟨rfl, Nat.zero_le _, by simp [PendingEntry.new]⟩
      | some e =>
        obtain ⟨hb, hn, hp⟩ := hs _ e hc
        exact ⟨hb, hn, hp⟩
    | synDrain c v =>
      simp only [exec] at h
      split at h <;> cases h
      · exact hs
      · exact allQueued_sub hs fun c' e => get_of_del
    | evictRemove fresh f key bytes cancel =>
      simp only [exec] at h
      split at h <;> cases h
      · exact hs
      · exact allQueued_sub hs fun c' e => get_of_del
    | removePending c =>
      simp only [exec] at h
      split at h <;> cases h
      · exact hs
      · exact allQueued_sub hs fun c' e => get_of_del
    | dataPush f =>
      obtain ⟨hd, hp⟩ := hi
      have hpush := Option.some.inj h
      rw [← counted_data hd] at hpush
      exact allQueued_execPush hpush hs fun _ => hp
    | finPush f =>
      obtain ⟨hf, hp⟩ := hi
      have hpush := Option.some.inj h
      rw [← counted_fin hf] at hpush
      exact allQueued_execPush hpush hs hp
    | dataInsert f =>
      obtain ⟨⟨hd, hp⟩, -⟩ := hi
      simp only [exec, ← counted_data hd] at h
      cases h
      exact allQueued_insertEntry hs hp
    | finInsert f =>
      obtain ⟨hf, -, hp⟩ := hi
      simp only [exec, ← counted_fin hf] at h
      cases h
      exact allQueued_insertEntry hs hp
    | rstMark c =>
      cases h
      exact allQueued_markCancelled hs
    | failMark c =>
      cases h
      exact allQueued_markCancelled hs
    | sweepRetain ttl =>
      cases h
      exact allQueued_sub hs fun c' e => Table.get_of_retain
    | _ => cases hw
  · have hp := exec_pending h (by simpa using hw)
    exact allQueued_sub hs fun c e he => by rwa [hp] at he

/-- No insert overwrites an entry, and no eviction removes one that changed. -/
theorem steadyAt_of_fits (hi : Fits p s i) : steadyAt s i = true := by
  cases i with
  | dataInsert f => exact decide_eq_true (bytesAt_of_none hi.2)
  | finInsert f => exact decide_eq_true (bytesAt_of_none hi.2.1)
  | evictRemove fresh f key bytes cancel =>
    obtain ⟨-, -, e, he, hb⟩ := hi
    simp [steadyAt, he, hb]
  | _ => rfl

end Exec

/-! ## One call -/

/-- What holds inside a call. -/
structure Budgeted (p : Frame → Prop) (s : Shared) (t : List Instr) : Prop where
  balance : s.pendingBytes = buffered s + (t.map held).sum
  exact : ∀ j ∈ t, Exact j
  budget : s.pendingBytes ≤ maxPendingBytes
  queued : AllQueued p s
  last : Last t
  once : t.countP gates ≤ 1
  late : t.tail.all late = true
  fits : ∀ j ∈ t, Fits p s j

theorem budgeted_exec {p : Frame → Prop} {s s' : Shared} {i : Instr} {ch : Choice} {is k : List Instr}
    (hs : Budgeted p s (i :: k)) (h : exec s i ch = some (s', is)) : Budgeted p s' (is ++ k) := by
  have hi : Fits p s i := hs.fits i (by simp)
  have hx : Exact i := hs.exact i (by simp)
  have hbal := hs.balance
  have hbud := hs.budget
  simp only [List.map_cons, List.sum_cons] at hbal
  have hle : held i ≤ s.pendingBytes := by omega
  have hlt : maxPendingBytes < 2 ^ 64 := by decide
  have hstep := exec_balance h (steadyAt_of_fits hi) hx hle (lt_of_le_of_lt hbud hlt)
  obtain ⟨honce, hlate⟩ := exec_gates h
  have hk1 : k.countP gates + (if gates i then 1 else 0) ≤ 1 := by
    have := hs.once
    rwa [List.countP_cons] at this
  refine ⟨?_, fun j hj => ?_, exec_budget h hx hle hbud, exec_allQueued h hs.queued hi, last_exec hs.last h, ?_,
    ?_, fun j hj => ?_⟩
  · simp only [List.map_append, List.sum_append]
    omega
  · rcases List.mem_append.mp hj with hj | hj
    · exact exec_exact h (steadyAt_of_fits hi) j hj
    · exact hs.exact j (by simp [hj])
  · rw [List.countP_append]
    omega
  · cases is with
    | nil =>
      have hk : k.all Reassembler.late = true := hs.late
      rw [List.all_eq_true] at hk ⊢
      exact fun j hj => hk j (List.mem_of_mem_tail hj)
    | cons j js =>
      rw [List.cons_append, List.tail_cons, List.all_append, Bool.and_eq_true]
      exact ⟨hlate, hs.late⟩
  · rcases List.mem_append.mp hj with hj | hj
    · exact exec_fits_new hi h j hj
    · cases hg : gates i with
      | true =>
        -- the only one on its way is `i`
        rw [hg, if_pos rfl] at hk1
        have hnone : ∀ j ∈ k, ¬ gates j = true := List.countP_eq_zero.mp (by omega)
        exact fits_of_not_gates (by simpa using hnone j hj)
      | false => exact exec_fits_late h hg (List.all_eq_true.mp hs.late j hj) (hs.fits j (by simp [hj]))

theorem budgeted_solo {p : Frame → Prop} {s s' : Shared} {t t' : List Instr} (hs : Budgeted p s t)
    (h : system.Solo (s, t) (s', t')) : Budgeted p s' t' :=
  h.inv hs fun _ _ _ _ _ _ => budgeted_exec

/-! ## Runs of calls -/

namespace Budget

/-- A whole call that starts within `ok`, or anything outside the handlers. -/
inductive Step (ok : Shared → List Instr → Prop) (x : Atomic) : Atomic → Prop where
  | call (t : List Instr) (others : List (List Instr)) (s' : Shared) (t' : List Instr) :
      Atomic.Turn x t others → ok x.shared t → Call x.shared t s' t' → Step ok x ⟨s', t' :: others⟩
  | env (s' : Shared) : Env x.shared s' → Step ok x ⟨s', x.suspended⟩

/-- Reached from the empty registry. -/
def Reachable (ok : Shared → List Instr → Prop) (window : ℕ) (x : Atomic) : Prop :=
  Relation.ReflTransGen (Step ok) ⟨.init window, []⟩ x

end Budget

/-- Between two calls the counter is what the entries have counted, and within the budget. -/
structure Ledger (p : Frame → Prop) (x : Atomic) : Prop where
  balance : x.shared.pendingBytes = buffered x.shared
  budget : x.shared.pendingBytes ≤ maxPendingBytes
  queued : AllQueued p x.shared
  suspended : ∀ t ∈ x.suspended, t = [] ∨ ∃ i, rests [i] = true ∧ t = [i]

/-- Frames that are going to be queued have `p`. -/
def Admits (p : Frame → Prop) (s : Shared) (t : List Instr) : Prop :=
  ∀ f, t = [dispatch f] → (isData f = true → p f) ∧ (queuesFin s f = true → p f)

section Runs

variable {p : Frame → Prop} {ok : Shared → List Instr → Prop} {s s' : Shared} {t t' : List Instr}

theorem plain_of_rests {i : Instr} (h : rests [i] = true) : held i = 0 ∧ Exact i ∧ gates i = false := by
  cases i with
  | synConnect _ _ | synBindUdp _ | synForward _ _ _ _ | udpForward _ _ => exact ⟨rfl, trivial, rfl⟩
  | _ => cases h

theorem last_spawn (h : Spawn s t) : Last t ∧ t.countP gates ≤ 1 ∧ t.tail.all late = true ∧
    ((∃ f, t = [dispatch f]) ∨ t.any gates = false) := by
  cases h with
  | frame f => exact ⟨rfl, le_rfl, rfl, .inl ⟨f, rfl⟩⟩
  | _ => exact ⟨rfl, Nat.zero_le _, rfl, .inr rfl⟩

/-- A call starts with nothing held back. -/
theorem budgeted_start {x : Atomic} {others : List (List Instr)} (hx : Ledger p x)
    (ht : Atomic.Turn x t others) (hok : Admits p x.shared t) : Budgeted p x.shared t := by
  cases ht with
  | start t h =>
    obtain ⟨hheld, hexact⟩ := spawn_held h
    obtain ⟨hlast, honce, hlate, hkind⟩ := last_spawn h
    refine ⟨?_, hexact, hx.budget, hx.queued, hlast, honce, hlate, fun j hj => ?_⟩
    · rw [hheld]
      exact hx.balance
    · rcases hkind with ⟨f, rfl⟩ | hnone
      · obtain rfl := List.mem_singleton.mp hj
        exact hok f rfl
      · exact fits_of_not_gates (by simpa using List.any_eq_false.mp hnone j hj)
  | resume l r t h =>
    rcases hx.suspended t (by rw [h]; simp) with rfl | ⟨i, hi, rfl⟩
    · exact ⟨hx.balance, by simp, hx.budget, hx.queued, rfl, Nat.zero_le _, rfl, by simp⟩
    · obtain ⟨hheld, hexact, hgates⟩ := plain_of_rests hi
      refine ⟨by simpa [hheld] using hx.balance, by simpa using hexact, hx.budget, hx.queued, rfl, ?_, rfl, ?_⟩
      · simp [hgates]
      · simpa using fits_of_not_gates hgates

theorem kept_step {x y : Atomic} (hok : ∀ s t, ok s t → Admits p s t) (hx : Ledger p x)
    (hs : Budget.Step ok x y) : Ledger p y := by
  cases hs with
  | call t others s' t' ht hin hcall =>
    have hend := budgeted_solo (budgeted_start hx ht (hok _ _ hin)) hcall.1
    have hrest : t' = [] ∨ ∃ i, rests [i] = true ∧ t' = [i] := by
      rcases rests_singleton hcall.2 hend.last with h | ⟨i, -, rfl⟩
      · exact .inl h
      · exact .inr ⟨i, hcall.2, rfl⟩
    refine ⟨?_, hend.budget, hend.queued, fun u hu => ?_⟩
    · rw [hend.balance]
      rcases hrest with rfl | ⟨i, hi, rfl⟩
      · simp
      · simp [(plain_of_rests hi).1]
    · rcases List.mem_cons.mp hu with rfl | hu
      · exact hrest
      · cases ht with
        | start _ _ => exact hx.suspended u hu
        | resume l r t h =>
          refine hx.suspended u ?_
          rw [h]
          rcases List.mem_append.mp hu with hu | hu <;> simp [hu]
  | env s' h =>
    obtain ⟨hp, hb⟩ := env_pending h
    refine ⟨?_, hb.trans_le hx.budget, fun c e he => hx.queued c e (by rwa [← hp]), hx.suspended⟩
    show s'.pendingBytes = buffered s'
    rw [hb, buffered, hp]
    exact hx.balance

theorem kept_reachable {window : ℕ} {x : Atomic} (hok : ∀ s t, ok s t → Admits p s t)
    (h : Budget.Reachable ok window x) : Ledger p x := by
  induction h with
  | refl => exact ⟨rfl, Nat.zero_le _, by simp [AllQueued, Shared.init], by simp⟩
  | tail _ hs ih => exact kept_step hok ih hs

end Runs

/-! ## The memory behind the entries -/

/-- The payload of all frames held in pending entries. -/
def queuedPayload (s : Shared) : ℕ :=
  s.pending.total fun _ e => (e.frames.map fun g => g.payload.length).sum

/-- No FIN with a payload is queued. -/
def bareFins (s : Shared) (t : List Instr) : Prop :=
  ∀ f, t = [dispatch f] → queuesFin s f = true → f.payload = []

/-- **Memory before the SYN is bounded**, in every run of calls and sweeps that queues no FIN with a payload. -/
theorem pending_bounded {window : ℕ} {x : Atomic} (h : Budget.Reachable bareFins window x) :
    queuedPayload x.shared ≤ maxPendingBytes := by
  have hkept := kept_reachable (p := fun g => isData g = true ∨ g.payload = [])
    (fun s t hok f ht => ⟨fun hd => .inl hd, fun hq => .inr (hok f ht hq)⟩) h
  refine le_trans (le_of_eq ?_) (hkept.balance ▸ hkept.budget)
  refine Table.total_congr_weight fun c e he => ?_
  rw [(hkept.queued c e he).bytes]
  refine congrArg List.sum (List.map_congr_left fun g hg => ?_)
  rcases (hkept.queued c e he).each g hg with hd | hnil
  · rw [counted_data hd]
  · simp [counted, hnil]

theorem pending_bounded_one : ∃ x, Budget.Reachable bareFins maxReorderBytes x ∧
    queuedPayload x.shared = 2 ∧ queuedPayload x.shared ≤ maxPendingBytes := by
  have hrun : (system.soloRun (List.replicate 8 .go)
      (.init maxReorderBytes, [dispatch (.data 7 1 [1, 2])])).any
      fun b => decide (b.2 = [] ∧ queuedPayload b.1 = 2) := by decide
  obtain ⟨⟨s', t'⟩, hs, hb⟩ := (Option.any_eq_true _ _).mp hrun
  obtain ⟨rfl, hload⟩ := of_decide_eq_true hb
  have hreach : Budget.Reachable bareFins maxReorderBytes ⟨s', [[]]⟩ := by
    refine .tail .refl (.call _ _ _ _ (.start _ (.frame _)) ?_ ⟨soloRun_solo hs, rfl⟩)
    rintro f ⟨⟩ hq
    cases hq
  exact ⟨_, hreach, hload, pending_bounded hreach⟩

/-! ## FINs that carry a payload -/

/-- The frame comes from the decoder. -/
def decoded (_ : Shared) (t : List Instr) : Prop := ∀ f, t = [dispatch f] → f.payload.length ≤ maxPayload

/-- No conn id is registered or tombstoned. -/
def NoneOpen (s : Shared) : Prop := (∀ c, s.conns c = none) ∧ ∀ c, s.closed c = none

def framesAt (s : Shared) (c : ConnId) : ℕ := Table.weightAt (fun _ e => e.frames.length) s.pending c

theorem queuedPayload_put {s t : Shared} {c : ConnId} {e : PendingEntry} (h : t.pending = s.pending.put c e) :
    queuedPayload t + Table.weightAt (fun _ e => (e.frames.map fun g => g.payload.length).sum) s.pending c =
      queuedPayload s + (e.frames.map fun g => g.payload.length).sum := by
  rw [queuedPayload, h]
  exact Table.total_put _ _ _ _

/-- A FIN of an unknown conn id is queued, with its payload, if there is room. -/
theorem queue_fin {s : Shared} {f : Frame} (hf : isFin f = true) (hs : NoneOpen s)
    (hroom : roomFor s f.connId = true) : ∃ s' e, Call s [dispatch f] s' [] ∧ NoneOpen s' ∧
      s'.pending = s.pending.put f.connId e ∧ e.frames.length = framesAt s f.connId + 1 ∧
      queuedPayload s' = queuedPayload s + f.payload.length := by
  obtain ⟨hsyn, hdata, hfin⟩ := isFin_iff.mp hf
  have hconn := hs.1 f.connId
  have hclosed := hs.2 f.connId
  cases hc : s.pending.get f.connId with
  | none =>
    have hlt : s.pending.size < maxPendingCids := by simpa [roomFor, hc] using hroom
    have hrun : system.soloRun (List.replicate 6 .go) (s, [dispatch f]) =
        some (insertEntry { s with arrived := s.arrived ++ [f] } f 0, []) := by
      simp [soloRun, system, exec, execHandle, hsyn, hdata, hfin, hconn, hclosed, hc, hlt, insertEntry]
    refine ⟨_, { PendingEntry.new s.now with frames := [f], bytes := 0 }, ⟨soloRun_solo hrun, rfl⟩, hs, rfl, ?_,
      ?_⟩
    · simp [framesAt, Table.weightAt_of_none hc]
    · have hput := queuedPayload_put (s := s) (c := f.connId)
        (t := insertEntry { s with arrived := s.arrived ++ [f] } f 0) rfl
      rw [Table.weightAt_of_none hc] at hput
      simpa using hput
  | some e =>
    have hlt : e.frames.length < maxPendingFramesPerCid := by simpa [roomFor, hc] using hroom
    have hrun : system.soloRun (List.replicate 5 .go) (s, [dispatch f]) =
        some ({ s with
          arrived := s.arrived ++ [f]
          pending := s.pending.put f.connId { e with frames := e.frames ++ [f], bytes := e.bytes + 0 } }, []) := by
      simp [soloRun, system, exec, execHandle, execPush, hsyn, hdata, hfin, hconn, hclosed, hc, hlt]
    refine ⟨_, { e with frames := e.frames ++ [f], bytes := e.bytes + 0 }, ⟨soloRun_solo hrun, rfl⟩, hs, rfl, ?_,
      ?_⟩
    · simp [framesAt, Table.weightAt_of_some hc]
    · have hput := queuedPayload_put (s := s) (c := f.connId)
        (t := { s with
          arrived := s.arrived ++ [f]
          pending := s.pending.put f.connId { e with frames := e.frames ++ [f], bytes := e.bytes + 0 } }) rfl
      rw [Table.weightAt_of_some hc] at hput
      simp only [List.map_append, List.sum_append, List.map_cons, List.map_nil, List.sum_cons, List.sum_nil] at hput
      omega

/-- A FIN with the largest payload there is. -/
def largestFin (c : ConnId) : Frame := ⟨c, 1, flagFin, List.replicate maxPayload 0⟩

theorem largestFin_payload (c : ConnId) : (largestFin c).payload.length = maxPayload := List.length_replicate

theorem isFin_largestFin (c : ConnId) : isFin (largestFin c) = true := by
  simp only [isFin, largestFin, Frame.has]
  decide

theorem largestFin_call {window : ℕ} {c : ConnId} {x : Atomic} (hx : Budget.Reachable decoded window x)
    (hu : NoneOpen x.shared) (hroom : roomFor x.shared c = true) : ∃ y e, Budget.Reachable decoded window y ∧
      NoneOpen y.shared ∧ y.shared.pending = x.shared.pending.put c e ∧
      e.frames.length = framesAt x.shared c + 1 ∧
      queuedPayload y.shared = queuedPayload x.shared + maxPayload := by
  obtain ⟨s', e, hcall, hu', hput, hlen, hload⟩ := queue_fin (isFin_largestFin c) hu hroom
  refine ⟨⟨s', [] :: x.suspended⟩, e, .tail hx (.call _ _ _ _ (.start _ (.frame _)) ?_ hcall), hu', hput, hlen, ?_⟩
  · rintro f ⟨⟩
    exact (largestFin_payload c).le
  · rw [hload, largestFin_payload]

/-- `n + 1` of them, of one conn id. -/
theorem queue_fins {window : ℕ} {c : ConnId} {x : Atomic} (hx : Budget.Reachable decoded window x)
    (hu : NoneOpen x.shared) (hn : x.shared.pending.get c = none) (hsize : x.shared.pending.size < maxPendingCids)
    {n : ℕ} (hle : n < maxPendingFramesPerCid) : ∃ y e, Budget.Reachable decoded window y ∧ NoneOpen y.shared ∧
      queuedPayload y.shared = queuedPayload x.shared + (n + 1) * maxPayload ∧
      y.shared.pending.get c = some e ∧ e.frames.length = n + 1 ∧
      (∀ c', c' ≠ c → y.shared.pending.get c' = x.shared.pending.get c') ∧
      y.shared.pending.size = x.shared.pending.size + 1 := by
  induction n with
  | zero =>
    obtain ⟨y, e, hy, huy, hput, hlen, hload⟩ := largestFin_call hx hu (c := c) (by simp [roomFor, hn, hsize])
    refine ⟨y, e, hy, huy, by omega, by simp [hput], ?_, fun c' hc => ?_, ?_⟩
    · simpa [framesAt, Table.weightAt_of_none hn] using hlen
    · rw [hput, Table.get_put_ne _ _ hc]
    · rw [hput, Table.size_put_of_none hn]
  | succ n ih =>
    obtain ⟨y, e, hy, huy, hload, hget, hlen, hrest, hsz⟩ := ih (by omega)
    have hlt : e.frames.length < maxPendingFramesPerCid := by omega
    obtain ⟨z, e', hz, huz, hput, hlen', hload'⟩ := largestFin_call hy huy (c := c) (by simp [roomFor, hget, hlt])
    refine ⟨z, e', hz, huz, ?_, by simp [hput], ?_, fun c' hc => ?_, ?_⟩
    · rw [hload', hload, Nat.add_assoc, ← Nat.succ_mul]
    · rw [hlen', framesAt, Table.weightAt_of_some hget, hlen]
    · rw [hput, Table.get_put_ne _ _ hc, hrest c' hc]
    · rw [hput, Table.size_put_of_some hget, hsz]

/-- Full entries for `n` conn ids. -/
theorem queue_conns (window : ℕ) {n : ℕ} (hn : n ≤ maxPendingCids) : ∃ x, Budget.Reachable decoded window x ∧
    NoneOpen x.shared ∧ queuedPayload x.shared = n * (maxPendingFramesPerCid * maxPayload) ∧
    x.shared.pending.size = n ∧ ∀ c : ConnId, n ≤ c.toNat → x.shared.pending.get c = none := by
  induction n with
  | zero =>
    exact ⟨⟨.init window, []⟩, .refl, ⟨fun _ => rfl, fun _ => rfl⟩, by simp [queuedPayload, Shared.init], rfl,
      fun _ _ => rfl⟩
  | succ n ih =>
    obtain ⟨x, hx, hu, hload, hsize, hnone⟩ := ih (by omega)
    have hcids : maxPendingCids = 256 := rfl
    have hto : (UInt32.ofNat n).toNat = n := by
      rw [UInt32.toNat_ofNat']
      exact Nat.mod_eq_of_lt (by omega)
    obtain ⟨y, e, hy, huy, hload', -, -, hrest, hsize'⟩ := queue_fins (n := maxPendingFramesPerCid - 1) hx hu
      (hnone (UInt32.ofNat n) hto.ge) (by omega) (by decide)
    refine ⟨y, hy, huy, ?_, by omega, fun c hc => ?_⟩
    · have hfull : maxPendingFramesPerCid - 1 + 1 = maxPendingFramesPerCid := by decide
      rw [hload', hload, hfull, Nat.succ_mul]
    · have hne : c ≠ UInt32.ofNat n := by
        rintro rfl
        omega
      rw [hrest c hne, hnone c (by omega)]

/-- **FINs fill the memory.**  Five conn ids with 256 FINs of 65535 bytes each, and no byte of the budget used. -/
theorem pending_exceeded : ∃ x, Budget.Reachable decoded maxReorderBytes x ∧
    maxPendingBytes < queuedPayload x.shared := by
  obtain ⟨x, hx, -, hload, -, -⟩ := queue_conns maxReorderBytes (n := 5) (by decide)
  refine ⟨x, hx, ?_⟩
  rw [hload]
  decide

end RoundRobin.Reassembler
