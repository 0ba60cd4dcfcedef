import RoundRobin.Reassembler.Effects

/-!
# RoundRobin.Reassembler.Calls — what a handler does between two suspensions

A handler runs until it ends or is suspended, and nothing interferes meanwhile (`Call`).  Whatever may
still suspend it is the last instruction it has to run, and its instructions name its own conn id and
connections registered under it, apart from the pending entries it evicts.  So it comes to rest at a
single instruction about its own conn id (`call_segment`).
-/

namespace RoundRobin.Reassembler

open Instr TaskSystem

/-- The handler has finished or is suspended. -/
def rests : List Instr → Bool
  | [] | synConnect _ _ :: _ | synBindUdp _ :: _ | synForward _ _ _ _ :: _ | udpForward _ _ :: _ => true
  | _ => false

/-- One call: the task runs alone until it finishes or is suspended. -/
def Call (s : Shared) (t : List Instr) (s' : Shared) (t' : List Instr) : Prop :=
  system.Solo (s, t) (s', t') ∧ rests t' = true

/-! ## The last instruction -/

/-- The handler may still be suspended. -/
def leads : Instr → Bool
  | dispatch _ | handle _ | synRegister _ | synReserve _ | synCheckClosed _ _ | synBindUdp _
  | synConnect _ _ | synRecheckClosed _ | synInsert _ _ | synDrain _ _ | synForward _ _ _ _
  | udpForward _ _ | dataCheckClosed _ | dataContains _ | dataLen _ | reserveLoad _ _
  | reserveCas _ _ _ | evictEmpty _ _ | evictPick _ _ | evictRemove _ _ _ _ _ | dataPush _
  | dataVanished _ => true
  | _ => false

/-- Nothing follows an instruction that may lead to a suspension. -/
def Last (t : List Instr) : Prop := t.dropLast.any leads = false

theorem Last.nil_of_leads {i : Instr} {k : List Instr} (h : Last (i :: k)) (hi : leads i = true) : k = [] := by
  cases k with
  | nil => rfl
  | cons j k =>
    obtain ⟨hn, -⟩ := Bool.or_eq_false_iff.mp h
    cases hi.symm.trans hn

theorem rests_singleton {t : List Instr} (h : rests t = true) (hl : Last t) :
    t = [] ∨ ∃ i, leads i = true ∧ t = [i] := by
  cases t with
  | nil => exact .inl rfl
  | cons i k =>
    have hi : leads i = true := by
      cases i <;> first | rfl | cases h
    obtain rfl := hl.nil_of_leads hi
    exact .inr ⟨i, hi, rfl⟩

/-! ## What a handler names -/

/-- The instruction is about conn ids with `p` and connections with `q`, and tombstones conn ids with `r`. -/
def On (p : ConnId → Prop) (q : ℕ → Prop) (r : ConnId → Prop) : Instr → Prop
  | dispatch f | handle f | synRegister f | synReserve f | synCheckClosed f _ | dataCheckClosed f
  | dataContains f | dataLen f | reserveLoad _ f | reserveCas _ f _ | evictEmpty _ f | evictPick _ f
  | evictRemove _ f _ _ _ | dataPush f | dataInsert f | dataVanished f | finCheckClosed f
  | finContains f | finPush f | finLen f | finInsert f => p f.connId
  | synBindUdp c | synConnect c _ | synRecheckClosed c | synInsert c _ | rstMark c | removePending c
  | handshakingRemove c | connsRemove c | connsForget c | failMark c => p c
  | synDrain c v | synReplay c v _ _ | synForward c v _ _ | finishIfDone v c | dataClose v c
  | startHalfClose v c _ | egressEof v c => p c ∧ q v
  | dataDeliver v f | udpForward v f => p f.connId ∧ q v
  | replayClose v | signalTeardown v | forceClose v => q v
  | closedInsert c => r c
  | sweepRetain _ => False
  | refund _ _ | notifyCancel _ | sendRst _ | countReset => True

/-- The instruction evicts the entry of `d`. -/
def evicts (d : ConnId) : Instr → Bool
  | evictRemove _ _ key _ _ => decide (key = d)
  | _ => false

/-- `v` was registered under `c`. -/
def Mine (s : Shared) (c : ConnId) (v : ℕ) : Prop := v < s.nextConn ∧ (s.heap v).connId = c

/-- Every registered connection is registered under its own conn id. -/
def Owned (s : Shared) : Prop := ∀ c v, s.conns c = some v → Mine s c v

/-- A handler of `c` that is about to start, or is suspended. -/
inductive Segment (s : Shared) (c : ConnId) : List Instr → Prop where
  | frame (f : Frame) : f.connId = c → Segment s c [dispatch f]
  | connect (n : ℕ) : Segment s c [synConnect c n]
  | bindUdp : Segment s c [synBindUdp c]
  | forward (v : ℕ) (f : Frame) (frames : List Frame) : Mine s c v → Segment s c [synForward c v f frames]
  | datagram (v : ℕ) (f : Frame) : f.connId = c → Mine s c v → Segment s c [udpForward v f]

section Exec

variable {s s' : Shared} {i : Instr} {ch : Choice} {is k : List Instr} {p r : ConnId → Prop} {q : ℕ → Prop}

theorem execReplay_last (s : Shared) (c : ConnId) (v : ℕ) (fin : Option ℕ) (fs : List Frame) :
    (execReplay s c v fin fs).2.any leads = false := by
  cases fs <;> simp only [execReplay] <;> (repeat' split) <;> rfl

theorem sweepTail_last (m : Table ConnId PendingEntry) : (sweepTail m).any leads = false := by
  simp [sweepTail, List.any_flatMap, leads]

theorem last_of_none {t : List Instr} (h : t.any leads = false) : Last t := by
  rw [List.any_eq_false] at h
  exact List.any_eq_false.mpr fun j hj => h j (List.dropLast_subset _ hj)

/-- What an instruction leaves to do leads on at its end only, and not at all if it did not itself. -/
theorem exec_last (h : exec s i ch = some (s', is)) :
    Last is ∧ (leads i = false → is.any leads = false) := by
  cases i with
  | synReplay c v fs fin =>
    have hr := execReplay_last s c v fin fs
    rw [Option.some.inj h] at hr
    exact ⟨last_of_none hr, fun _ => hr⟩
  | sweepRetain ttl =>
    have hr : is.any leads = false := by
      cases h
      exact sweepTail_last _
    exact ⟨last_of_none hr, fun _ => hr⟩
  | synForward c v f fs =>
    cases h
    rcases forwardFrames_cases c v fs with hf | ⟨g, fs', hf⟩ <;> rw [hf] <;>
      exact ⟨rfl, fun hl => by cases hl⟩
  | synDrain c v =>
    refine ⟨?_, fun hl => by cases hl⟩
    simp only [exec, afterDrain] at h
    (repeat' split at h) <;> cases h
    · rfl
    · rfl
    · rcases forwardFrames_cases c v _ with hf | ⟨f, fs, hf⟩ <;> rw [hf] <;> rfl
    · rfl
  | _ =>
    simp only [exec, execHandle, execSynCheckClosed, execDeliver, execCas, execPush] at h
    (repeat' split at h) <;> cases h <;> first
      | exact ⟨rfl, fun _ => rfl⟩
      | exact ⟨rfl, fun hl => by cases hl⟩

theorem last_exec (hl : Last (i :: k)) (h : exec s i ch = some (s', is)) : Last (is ++ k) := by
  obtain ⟨his, hnone⟩ := exec_last h
  cases k with
  | nil => rwa [List.append_nil]
  | cons j k =>
    obtain ⟨hi, hk⟩ := Bool.or_eq_false_iff.mp hl
    rw [Last, List.dropLast_append_of_ne_nil (by simp), List.any_append, hnone hi]
    exact hk

/-- An instruction leaves to do what is about the same conn ids, and about connections found under them;
an eviction tombstones another one. -/
theorem exec_on (h : exec s i ch = some (s', is)) (hi : On p q r i) (hr : ∀ c, p c → r c)
    (hev : ∀ c, evicts c i = true → r c) (hfind : ∀ c v, p c → s.conns c = some v → q v)
    (hnew : ∀ c u, i = synInsert c u → p c → q s.nextConn) : ∀ j ∈ is, On p q r j := by
  cases i with
  | handle f =>
    have hc : p f.connId := hi
    have hf : ∀ v, s.conns f.connId = some v → q v := fun v => hfind _ v hc
    simp only [exec, execHandle] at h
    (repeat' split at h) <;> cases h <;> simp_all [On]
  | synReplay c v fs fin =>
    obtain ⟨hc, hv⟩ := hi
    exact forall_replay h hc (fun _ => ⟨hc, hv⟩) hv (fun _ _ => ⟨hc, hv⟩) (by simp [On, drainReset, hc, hr c hc])
  | synForward c v f fs =>
    cases h
    exact forall_forwardFrames hi.1 (fun _ _ => hi) fs
  | synDrain c v =>
    obtain ⟨hc, hv⟩ := hi
    exact forall_drain h hc (fun _ => trivial) (by simp [On, drainCancelled, hc, hr c hc]) (fun _ _ => ⟨hc, hv⟩)
      fun _ => ⟨hc, hv⟩
  | synCheckClosed f n =>
    have hc : p f.connId := hi
    simp only [exec, execSynCheckClosed] at h
    (repeat' split at h) <;> cases h <;> simp [On, synClosed, synFail, hc, hr _ hc]
  | synBindUdp c =>
    have hc : p c := hi
    simp only [exec] at h
    (repeat' split at h) <;> cases h <;> simp [On, synFail, hc, hr c hc]
  | synConnect c n =>
    have hc : p c := hi
    simp only [exec] at h
    (repeat' split at h) <;> cases h <;> simp [On, synFail, synCancelled, hc, hr c hc]
  | synInsert c u =>
    cases h
    simpa [On] using And.intro hi (hnew c u rfl hi)
  | sweepRetain ttl => cases hi
  | dataDeliver v f =>
    obtain ⟨hc, hv⟩ := hi
    simp only [exec, execDeliver] at h
    (repeat' split at h) <;> cases h <;> simp [On, dataReset, hc, hv, hr _ hc]
  | finishIfDone v c =>
    have hc : p c := hi.1
    cases h
    split <;> simp [On, hc, hr c hc]
  | reserveCas fresh f cur =>
    have hc : p f.connId := hi
    simp only [exec, execCas] at h
    (repeat' split at h) <;> cases h <;> simp [On, hc]
  | evictRemove fresh f key bytes cancel =>
    have hc : p f.connId := hi
    have hk : r key := hev key (decide_eq_true rfl)
    simp only [exec] at h
    split at h <;> cases h <;> simp [On, hc, hk]
  | dataPush f =>
    have hc : p f.connId := hi
    simp only [exec, execPush] at h
    (repeat' split at h) <;> cases h <;> simp [On, failPendingConn, hc, hr _ hc]
  | finPush f =>
    have hc : p f.connId := hi
    simp only [exec, execPush] at h
    (repeat' split at h) <;> cases h <;> simp [On, failPendingConn, hc, hr _ hc]
  | rstMark c =>
    cases h
    simpa [On] using hr c hi
  | _ =>
    simp only [exec] at h
    (repeat' split at h) <;> cases h <;>
      simp only [synClosed, failPendingConn, List.forall_mem_cons, List.not_mem_nil, false_imp_iff, implies_true,
        and_true] <;>
      simp_all [On]

/-- Connections keep the conn id they were registered under. -/
theorem exec_mine (h : exec s i ch = some (s', is)) {c : ConnId} {v : ℕ} (hv : Mine s c v) : Mine s' c v := by
  obtain ⟨hlt, hid⟩ := hv
  by_cases hins : ∃ c' u, i = synInsert c' u
  · obtain ⟨c', u, rfl⟩ := hins
    have hne : Instr.touches s (synInsert c' u) ≠ some v := by
      intro he
      cases he
      omega
    rw [Mine, exec_heap_of h hne]
    obtain ⟨rfl, -⟩ := Prod.mk.inj (Option.some.inj h)
    exact ⟨Nat.lt_succ_of_lt hlt, hid⟩
  · have hins : ∀ c' u, i ≠ synInsert c' u := fun c' u he => hins ⟨c', u, he⟩
    exact ⟨by rwa [exec_nextConn h hins], (exec_connId h hins v).trans hid⟩

theorem exec_owned (h : exec s i ch = some (s', is)) (hs : Owned s) : Owned s' := by
  intro c v hv
  by_cases hins : ∃ c' u, i = synInsert c' u
  · obtain ⟨c', u, rfl⟩ := hins
    by_cases hc : c = c'
    · subst hc
      cases h
      obtain rfl : s.nextConn = v := by simpa using hv
      exact ⟨Nat.lt_succ_self _, by simp [VirtConnDe.new]⟩
    · refine exec_mine h (hs c v ?_)
      cases h
      simpa [hc] using hv
  · have hins : ∀ c' u, i ≠ synInsert c' u := fun c' u he => hins ⟨c', u, he⟩
    exact exec_mine h (hs c v (exec_conns_sub h hins hv))

theorem env_owned (h : Env s s') (hs : Owned s) : Owned s' := by
  have hset : ∀ v vc, vc.connId = (s.heap v).connId → Owned (s.setConn v vc) := by
    intro v vc hid c w hw
    refine ⟨(hs c w hw).1, ?_⟩
    by_cases hwv : w = v
    · subst hwv
      rw [setConn_heap_self, hid]
      exact (hs c w hw).2
    · rw [setConn_heap_ne s v vc hwv]
      exact (hs c w hw).2
  cases h with
  | tick n => exact hs
  | egressRecv v ch ch' a _ _ => exact hset _ _ rfl
  | egressClose v ch _ => exact hset _ _ rfl
  | closedExpire c => exact hs
  | handshakingExpire c => exact hs

/-- It holds wherever the handlers lead, in any order of their steps. -/
theorem reachable_owned {window : ℕ} {x : Config Shared Instr}
    (h : system.Reachable free (.init window) x) : Owned x.shared := by
  refine Runs.inv (P := fun x => Owned x.shared) h (fun c v hv => by cases hv) ?_
  rintro y z hy hst
  cases hst with
  | task he _ => exact exec_owned he hy
  | spawn _ => exact hy
  | env he => exact env_owned he hy

end Exec

/-! ## Whole calls -/

/-- What holds inside a segment of a handler of `c`. -/
structure Inside (c : ConnId) (s : Shared) (t : List Instr) : Prop where
  owned : Owned s
  last : Last t
  on : ∀ j ∈ t, On (· = c) (Mine s c) (fun _ => True) j

theorem On.weaken {p p' r r' : ConnId → Prop} {q q' : ℕ → Prop} {i : Instr} (h : On p q r i)
    (hp : ∀ c, p c → p' c) (hq : ∀ v, q v → q' v) (hr : ∀ c, r c → r' c) : On p' q' r' i := by
  cases i <;> first | exact h | exact hp _ h | exact ⟨hp _ h.1, hq _ h.2⟩ | exact hq _ h | exact hr _ h

theorem inside_exec {c : ConnId} {s s' : Shared} {i : Instr} {ch : Choice} {is k : List Instr}
    (hi : Inside c s (i :: k)) (h : exec s i ch = some (s', is)) : Inside c s' (is ++ k) := by
  have hkeep : ∀ v, Mine s c v → Mine s' c v := fun v => exec_mine h
  refine ⟨exec_owned h hi.owned, last_exec hi.last h, fun j hj => ?_⟩
  rcases List.mem_append.mp hj with hj | hj
  · refine exec_on (q := Mine s' c) h ((hi.on i (by simp)).weaken (fun _ => id) hkeep fun _ => id)
      (fun _ _ => trivial) (fun _ _ => trivial) ?_ ?_ j hj
    · rintro c' v rfl hv
      exact hkeep v (hi.owned c' v hv)
    · rintro c' u rfl rfl
      cases h
      exact ⟨Nat.lt_succ_self _, by simp [VirtConnDe.new]⟩
  · exact (hi.on j (by simp [hj])).weaken (fun _ => id) hkeep fun _ => id

theorem Segment.inside {c : ConnId} {s : Shared} {t : List Instr} (h : Segment s c t) (hs : Owned s) :
    Inside c s t := by
  cases h with
  | frame f hf => exact ⟨hs, by simp [Last], by simpa [On] using hf⟩
  | connect n => exact ⟨hs, by simp [Last], by simp [On]⟩
  | bindUdp => exact ⟨hs, by simp [Last], by simp [On]⟩
  | forward v f fs hv => exact ⟨hs, by simp [Last], by simpa [On] using hv⟩
  | datagram v f hf hv => exact ⟨hs, by simp [Last], by simpa [On] using And.intro hf hv⟩

theorem inside_solo {c : ConnId} {s s' : Shared} {t t' : List Instr} (hi : Inside c s t)
    (h : system.Solo (s, t) (s', t')) : Inside c s' t' :=
  h.inv hi fun _ _ _ _ _ _ => inside_exec

/-- Where a segment ends, the handler has finished or the next one begins. -/
theorem Inside.segment {c : ConnId} {s : Shared} {t : List Instr} (h : Inside c s t) (hr : rests t = true) :
    t = [] ∨ Segment s c t := by
  rcases rests_singleton hr h.last with rfl | ⟨i, -, rfl⟩
  · exact .inl rfl
  · have hi := h.on i (by simp)
    right
    cases i with
    | synConnect c' n =>
      obtain rfl : c' = c := hi
      exact .connect n
    | synBindUdp c' =>
      obtain rfl : c' = c := hi
      exact .bindUdp
    | synForward c' v f fs =>
      obtain ⟨rfl, hv⟩ := hi
      exact .forward v f fs hv
    | udpForward v f => exact .datagram v f hi.1 hi.2
    | _ => cases hr

theorem call_segment {c : ConnId} {s s' : Shared} {t t' : List Instr} (hs : Owned s)
    (ht : Segment s c t) (h : Call s t s' t') : Owned s' ∧ (t' = [] ∨ Segment s' c t') := by
  have hi := inside_solo (ht.inside hs) h.1
  exact ⟨hi.owned, hi.segment h.2⟩

end RoundRobin.Reassembler
