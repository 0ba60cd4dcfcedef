import RoundRobin.Reassembler.Calls

/-!
# RoundRobin.Reassembler.Isolation — a frame leaves other connections alone

What the handler of one conn id changes of another, `d`.  The instructions of a handler name its own conn
id and connections found under it, so the connection of `d` and its handshake flag stay as they are
(`Apart`), and so do its pending and closed entries (`Spared`) until the handler decides to evict the entry
of `d`.  It does so for a DATA frame that would exceed the budget, and then it tombstones `d`, wakes its
handshake and offers an RST before it ends (`Evicted`).
-/

namespace RoundRobin.Reassembler

open Instr TaskSystem

/-- The connection of `d` and its handshake flag are unchanged. -/
structure Apart (d : ConnId) (s s' : Shared) : Prop where
  conns : s'.conns d = s.conns d
  conn : ∀ v, s.conns d = some v → s'.heap v = s.heap v
  handshaking : s'.handshaking d = s.handshaking d

/-- The pending and closed entries of `d` are unchanged. -/
structure Spared (d : ConnId) (s s' : Shared) : Prop where
  pending : s'.pending.get d = s.pending.get d
  closed : s'.closed d = s.closed d

/-- At a moment when the DATA frame `f` would exceed the budget, its handler evicts the entry `e` of `d`. -/
def Crowded (d : ConnId) (s : Shared) (f : Frame) (e : PendingEntry) : Prop :=
  isData f = true ∧ ∃ fresh s₁, system.Solo (s, [dispatch f]) (s₁, [evictRemove fresh f d e.bytes e.cancel]) ∧
    s₁.pending.get d = some e ∧ maxPendingBytes < s₁.pendingBytes + f.payload.length

/-- The handler of `f` evicted the entry of `d` and reset its connection. -/
def Evicted (d : ConnId) (s : Shared) (f : Frame) (s' : Shared) : Prop :=
  ∃ e, s.pending.get d = some e ∧ Crowded d s f e ∧
    s'.pending.get d = none ∧ (s'.closed d).isSome ∧
    (∀ n, e.cancel = some n → s'.notified n = true) ∧
    ∃ l, s'.offered = s.offered ++ l ∧ Frame.rst d ∈ l

/-! ## What one instruction changes of another conn id -/

section Exec

variable {s s' : Shared} {i : Instr} {ch : Choice} {is k : List Instr} {d : ConnId} {q : ℕ → Prop}
  {r : ConnId → Prop}

theorem exec_conns_ne (h : exec s i ch = some (s', is)) (hi : On (· ≠ d) q r i) :
    s'.conns d = s.conns d := by
  by_cases hw : i.writesConns = true
  · cases i with
    | handle f =>
      have hne : d ≠ f.connId := Ne.symm hi
      simp only [exec, execHandle] at h
      (repeat' split at h) <;> cases h <;> first | rfl | exact Function.update_of_ne hne _ _
    | synInsert c u =>
      have hne : d ≠ c := Ne.symm hi
      cases h
      exact Function.update_of_ne hne _ _
    | connsRemove c =>
      have hne : d ≠ c := Ne.symm hi
      simp only [exec] at h
      split at h <;> cases h
      · rfl
      · exact Function.update_of_ne hne _ _
    | connsForget c =>
      have hne : d ≠ c := Ne.symm hi
      cases h
      exact Function.update_of_ne hne _ _
    | _ => cases hw
  · rw [exec_conns h (by simpa using hw)]

theorem exec_handshaking_ne (h : exec s i ch = some (s', is)) (hi : On (· ≠ d) q r i) :
    s'.handshaking d = s.handshaking d := by
  by_cases hw : i.writesHandshaking = true
  · cases i with
    | synRegister f =>
      have hne : d ≠ f.connId := Ne.symm hi
      cases h
      exact Function.update_of_ne hne _ _
    | handshakingRemove c =>
      have hne : d ≠ c := Ne.symm hi
      cases h
      exact Function.update_of_ne hne _ _
    | _ => cases hw
  · rw [exec_handshaking h (by simpa using hw)]

theorem exec_closed_ne (h : exec s i ch = some (s', is)) (hi : i ≠ closedInsert d) :
    s'.closed d = s.closed d := by
  by_cases hw : i.writesClosed = true
  · cases i with
    | closedInsert c =>
      have hne : d ≠ c := by
        rintro rfl
        exact hi rfl
      cases h
      exact Function.update_of_ne hne _ _
    | _ => cases hw
  · rw [exec_closed h (by simpa using hw)]

theorem get_execPush_ne {f : Frame} {bytes : ℕ} {full gone : List Instr} (hne : d ≠ f.connId) :
    (execPush s f bytes full gone).1.pending.get d = s.pending.get d := by
  unfold execPush
  (repeat' split) <;> first | rfl | exact Table.get_put_ne _ _ hne

theorem get_markCancelled_ne {c : ConnId} (hne : d ≠ c) :
    (markCancelled s c).pending.get d = s.pending.get d := by
  rw [markCancelled_pending]
  split
  · rfl
  · exact Table.get_put_ne _ _ hne

theorem exec_pending_ne (h : exec s i ch = some (s', is)) (hi : On (· ≠ d) q r i)
    (he : evicts d i = false) : s'.pending.get d = s.pending.get d := by
  by_cases hw : i.writesPending = true
  · cases i with
    | synReserve f =>
      have hne : d ≠ f.connId := Ne.symm hi
      cases h
      exact Table.get_put_ne _ _ hne
    | synDrain c v =>
      have hne : d ≠ c := Ne.symm hi.1
      simp only [exec] at h
      split at h <;> cases h
      · rfl
      · exact Table.get_del_ne _ hne
    | evictRemove fresh f key bytes cancel =>
      have hne : d ≠ key := Ne.symm (of_decide_eq_false he)
      simp only [exec] at h
      split at h <;> cases h
      · rfl
      · exact Table.get_del_ne _ hne
    | dataPush f =>
      have hne : d ≠ f.connId := Ne.symm hi
      have hp := congrArg Prod.fst (Option.some.inj h)
      rw [← show _ = s' from hp]
      exact get_execPush_ne hne
    | finPush f =>
      have hne : d ≠ f.connId := Ne.symm hi
      have hp := congrArg Prod.fst (Option.some.inj h)
      rw [← show _ = s' from hp]
      exact get_execPush_ne hne
    | dataInsert f =>
      have hne : d ≠ f.connId := Ne.symm hi
      cases h
      exact Table.get_put_ne _ _ hne
    | finInsert f =>
      have hne : d ≠ f.connId := Ne.symm hi
      cases h
      exact Table.get_put_ne _ _ hne
    | rstMark c =>
      have hne : d ≠ c := Ne.symm hi
      cases h
      exact get_markCancelled_ne hne
    | failMark c =>
      have hne : d ≠ c := Ne.symm hi
      cases h
      exact get_markCancelled_ne hne
    | removePending c =>
      have hne : d ≠ c := Ne.symm hi
      simp only [exec] at h
      split at h <;> cases h
      · rfl
      · exact Table.get_del_ne _ hne
    | sweepRetain ttl => cases hi
    | _ => cases hw
  · rw [exec_pending h (by simpa using hw)]

theorem on_touches {p : ConnId → Prop} {v : ℕ} (hi : On p q r i)
    (hfind : ∀ c v, p c → s.conns c = some v → q v)
    (hnew : ∀ c u, i = synInsert c u → p c → q s.nextConn) (hv : i.touches s = some v) : q v := by
  cases i with
  | connsRemove c => exact hfind c v hi hv
  | synInsert c u =>
    cases hv
    exact hnew c u rfl hi
  | synReplay c w fs fin =>
    cases hv
    exact hi.2
  | replayClose w =>
    cases hv
    exact hi
  | udpForward w f =>
    cases hv
    exact hi.2
  | dataDeliver w f =>
    cases hv
    exact hi.2
  | dataClose w c =>
    cases hv
    exact hi.2
  | startHalfClose w c n =>
    cases hv
    exact hi.2
  | signalTeardown w =>
    cases hv
    exact hi
  | forceClose w =>
    cases hv
    exact hi
  | egressEof w c =>
    cases hv
    exact hi.2
  | _ => cases hv

end Exec

/-! ## The budget loop -/

/-- Instructions of the budget loop that rely on the state they were chosen in. -/
def relies : Instr → Bool
  | reserveCas _ _ _ | evictEmpty _ _ | evictPick _ _ | evictRemove _ _ _ _ _ => true
  | _ => false

def Grounded (s : Shared) : Instr → Prop
  | reserveCas _ _ current => current = s.pendingBytes
  | evictEmpty _ f | evictPick _ f => maxPendingBytes < s.pendingBytes + f.payload.length
  | evictRemove _ f key bytes cancel => maxPendingBytes < s.pendingBytes + f.payload.length ∧
      ∃ e, s.pending.get key = some e ∧ e.bytes = bytes ∧ e.cancel = cancel
  | _ => True

/-- Where in the handler that started as `t₀` an instruction stands. -/
def Traced (t₀ : List Instr) : Instr → Prop
  | dispatch f | handle f => t₀ = [dispatch f]
  | synRegister f | synReserve f | synCheckClosed f _ => f.has flagSyn = true ∧ t₀ = [dispatch f]
  | synConnect _ _ => ∀ f, t₀ = [dispatch f] → f.has flagSyn = true
  | dataCheckClosed f | dataContains f | dataLen f | reserveLoad _ f | reserveCas _ f _ | evictEmpty _ f
  | evictPick _ f | evictRemove _ f _ _ _ | dataPush f | dataInsert f | dataVanished f =>
    isData f = true ∧ t₀ = [dispatch f]
  | _ => True

section Loop

variable {s s' : Shared} {i : Instr} {ch : Choice} {is k t₀ : List Instr} {d : ConnId}

theorem leads_of_relies {j : Instr} (h : relies j = true) : leads j = true := by
  cases j <;> first | rfl | cases h

theorem any_relies_of_leads {t : List Instr} (h : t.any leads = false) : t.any relies = false := by
  rw [List.any_eq_false] at h ⊢
  exact fun j hj hr => h j hj (leads_of_relies hr)

theorem grounded_of_not_relies {j : Instr} (h : relies j = false) : Grounded s j := by
  cases j <;> first | cases h; done | trivial

/-- The steps of the loop that choose the next one by the state. -/
def loops : Instr → Bool
  | reserveLoad _ _ | reserveCas _ _ _ | evictEmpty _ _ | evictPick _ _ => true
  | _ => false

theorem exec_relies (h : exec s i ch = some (s', is)) (hi : loops i = false) : is.any relies = false := by
  cases i with
  | synReplay c v fs fin =>
    have hr := any_relies_of_leads (execReplay_last s c v fin fs)
    rwa [Option.some.inj h] at hr
  | sweepRetain ttl =>
    cases h
    exact any_relies_of_leads (sweepTail_last _)
  | synForward c v f fs =>
    cases h
    rcases forwardFrames_cases c v fs with hf | ⟨g, fs', hf⟩ <;> rw [hf] <;> rfl
  | synDrain c v =>
    simp only [exec, afterDrain] at h
    (repeat' split at h) <;> cases h
    · rfl
    · rfl
    · rcases forwardFrames_cases c v _ with hf | ⟨f, fs, hf⟩ <;> rw [hf] <;> rfl
    · rfl
  | reserveLoad fresh f => cases hi
  | reserveCas fresh f cur => cases hi
  | evictEmpty fresh f => cases hi
  | evictPick fresh f => cases hi
  | _ =>
    simp only [exec, execHandle, execSynCheckClosed, execDeliver, execPush] at h
    (repeat' split at h) <;> cases h <;> rfl

/-- What an instruction leaves to do fits the state it leaves, and relies on it at its head only. -/
theorem exec_grounded (h : exec s i ch = some (s', is)) (hi : Grounded s i) :
    is.tail.any relies = false ∧ ∀ j ∈ is, Grounded s' j := by
  by_cases hloop : loops i = true
  · cases i with
    | reserveLoad fresh f =>
      cases h
      exact ⟨rfl, by simp [Grounded]⟩
    | reserveCas fresh f cur =>
      obtain rfl : cur = s.pendingBytes := hi
      simp only [exec, execCas] at h
      (repeat' split at h) <;> cases h
      · exact ⟨rfl, by simp [Grounded]⟩
      · exact ⟨rfl, by simp [Grounded]⟩
      · exact ⟨rfl, by simp [Grounded]⟩
      · rename_i hover
        exact ⟨rfl, by simpa [Grounded] using hover⟩
    | evictEmpty fresh f =>
      cases h
      split
      · exact ⟨rfl, by simp [failPendingConn, Grounded]⟩
      · exact ⟨rfl, by simpa [Grounded] using hi⟩
    | evictPick fresh f =>
      have hover : maxPendingBytes < s.pendingBytes + f.payload.length := hi
      simp only [exec] at h
      (repeat' split at h) <;> cases h
      · exact ⟨rfl, by simp [failPendingConn, Grounded]⟩
      · rename_i key e he hold
        exact ⟨rfl, by simpa [Grounded, he] using hover⟩
    | _ => cases hloop
  · have hr := exec_relies h (by simpa using hloop)
    rw [List.any_eq_false] at hr
    refine ⟨List.any_eq_false.mpr fun j hj => hr j (List.mem_of_mem_tail hj), fun j hj => ?_⟩
    exact grounded_of_not_relies (by simpa using hr j hj)

/-- Only the head of the stack relies on the state, and rightly. -/
structure Alert (s : Shared) (t : List Instr) : Prop where
  tail : t.tail.any relies = false
  grounded : ∀ j ∈ t, Grounded s j

theorem alert_exec (ha : Alert s (i :: k)) (h : exec s i ch = some (s', is)) : Alert s' (is ++ k) := by
  have hk : k.any relies = false := ha.tail
  obtain ⟨htail, hground⟩ := exec_grounded h (ha.grounded i (by simp))
  refine ⟨?_, fun j hj => ?_⟩
  · cases is with
    | nil =>
      rw [List.any_eq_false] at hk
      exact List.any_eq_false.mpr fun j hj => hk j (List.mem_of_mem_tail hj)
    | cons j is =>
      rw [List.cons_append, List.tail_cons, List.any_append, hk, Bool.or_false]
      exact htail
  · rcases List.mem_append.mp hj with hj | hj
    · exact hground j hj
    · rw [List.any_eq_false] at hk
      exact grounded_of_not_relies (by simpa using hk j hj)

/-- Every instruction of the handler of `f` stands where `f` leads. -/
theorem exec_traced (h : exec s i ch = some (s', is)) (hi : Traced t₀ i) : ∀ j ∈ is, Traced t₀ j := by
  cases i with
  | handle f =>
    have ht : t₀ = [dispatch f] := hi
    simp only [exec, execHandle] at h
    (repeat' split at h) <;> cases h <;> simp_all [Traced, isData]
  | synReplay c v fs fin =>
    exact forall_replay h trivial (fun _ => trivial) trivial (fun _ _ => trivial) (by simp [Traced, drainReset])
  | synForward c v f fs =>
    cases h
    exact forall_forwardFrames trivial (fun _ _ => trivial) fs
  | synDrain c v =>
    exact forall_drain h trivial (fun _ => trivial) (by simp [Traced, drainCancelled]) (fun _ _ => trivial)
      fun _ => trivial
  | synCheckClosed f n =>
    obtain ⟨hsyn, rfl⟩ := hi
    simp only [exec, execSynCheckClosed] at h
    (repeat' split at h) <;> cases h <;> simp [Traced, synClosed, synFail, hsyn]
  | sweepRetain ttl =>
    exact forall_sweep h (fun _ => trivial) (fun _ => trivial) (fun _ => trivial) fun _ => trivial
  | reserveCas fresh f cur =>
    have ht : isData f = true ∧ t₀ = [dispatch f] := hi
    simp only [exec, execCas] at h
    (repeat' split at h) <;> cases h <;> simpa [Traced] using ht
  | dataPush f =>
    have ht : isData f = true ∧ t₀ = [dispatch f] := hi
    simp only [exec, execPush] at h
    (repeat' split at h) <;> cases h <;> simp [Traced, failPendingConn, ht]
  | finPush f =>
    simp only [exec, execPush] at h
    (repeat' split at h) <;> cases h <;> simp [Traced, failPendingConn]
  | dataDeliver v f =>
    simp only [exec, execDeliver] at h
    split at h <;> cases h <;> simp [Traced, dataReset]
  | _ =>
    simp only [exec] at h
    (repeat' split at h) <;> cases h <;>
      simp only [synFail, synClosed, synCancelled, failPendingConn, List.forall_mem_cons, List.not_mem_nil,
        false_imp_iff, implies_true, and_true] <;>
      simp_all [Traced]

end Loop

/-! ## Inside the handler -/

/-- The handler of `f` has evicted the entry of `d`, and resets its connection. -/
def Evicting (d : ConnId) (s₀ : Shared) (f : Frame) (s : Shared) (t : List Instr) : Prop :=
  ∃ e, s₀.pending.get d = some e ∧ Crowded d s₀ f e ∧
    s.pending.get d = none ∧ ((s.closed d).isSome ∨ closedInsert d ∈ t) ∧
    (∀ n, e.cancel = some n → s.notified n = true ∨ notifyCancel (some n) ∈ t) ∧
    ∃ l, s.offered = s₀.offered ++ l ∧ (Frame.rst d ∈ l ∨ sendRst d ∈ t)

/-- What holds of `d` inside a segment of the handler of another conn id that started as `t₀` in `s₀`. -/
structure Beside (d : ConnId) (s₀ : Shared) (t₀ : List Instr) (s : Shared) (t : List Instr) : Prop where
  solo : system.Solo (s₀, t₀) (s, t)
  owned : Owned s
  last : Last t
  alert : Alert s t
  on : ∀ j ∈ t, On (· ≠ d) (fun v => s₀.conns d ≠ some v) (fun _ => True) j
  traced : ∀ j ∈ t, Traced t₀ j
  apart : Apart d s₀ s
  offered : s₀.offered <+: s.offered
  phase : (Spared d s₀ s ∧ closedInsert d ∉ t) ∨ ∃ f, t₀ = [dispatch f] ∧ Evicting d s₀ f s t

section Beside

variable {s₀ s s' : Shared} {i : Instr} {ch : Choice} {is k t₀ : List Instr} {d : ConnId}

/-- Only a SYN handler takes a stored permit. -/
theorem exec_notified (h : exec s i ch = some (s', is)) (hi : ∀ c m, i ≠ synConnect c m) {n : ℕ}
    (hn : s.notified n = true) : s'.notified n = true := by
  have hnotify : ∀ (u : Shared) (m : Option ℕ), u.notified n = true → (u.notify m).notified n = true := by
    intro u m hu
    cases m with
    | none => exact hu
    | some m =>
      by_cases hm : n = m
      · simp [Shared.notify, hm]
      · simpa [Shared.notify, hm] using hu
  have hmark : ∀ c, (markCancelled s c).notified n = true := by
    intro c
    unfold markCancelled
    split
    · exact hn
    · exact hnotify _ _ hn
  cases i with
  | synConnect c m => exact absurd rfl (hi c m)
  | synReplay c v fs fin =>
    cases fs <;> simp only [exec, execReplay] at h <;> (repeat' split at h) <;> cases h <;> exact hn
  | rstMark c =>
    cases h
    exact hmark c
  | failMark c =>
    cases h
    exact hmark c
  | notifyCancel m =>
    cases h
    exact hnotify s m hn
  | _ =>
    simp only [exec, execHandle, execDeliver, execCas, execPush] at h
    (repeat' split at h) <;> cases h <;> exact hn

theorem on_spares {p : ConnId → Prop} {q : ℕ → Prop} (h : On p q (fun _ => True) i)
    (hi : i ≠ closedInsert d) : On p q (· ≠ d) i := by
  cases i with
  | closedInsert c => exact fun he => hi (by rw [he])
  | _ => exact h

/-- The connection of `d` is none that a handler of another conn id finds or builds. -/
theorem beside_on (hb : Beside d s₀ t₀ s (i :: k)) (h : exec s i ch = some (s', is)) {r : ConnId → Prop}
    (hi : On (· ≠ d) (fun v => s₀.conns d ≠ some v) r i) (hr : ∀ c, c ≠ d → r c)
    (hev : ∀ c, evicts c i = true → r c) :
    ∀ j ∈ is, On (· ≠ d) (fun v => s₀.conns d ≠ some v) r j := by
  have howner : ∀ v, s₀.conns d = some v → Mine s d v := by
    intro v hv
    exact hb.owned d v (hb.apart.conns.trans hv)
  refine exec_on h hi hr hev (fun c v hc hv he => ?_) (fun c u _ _ he => ?_)
  · exact hc ((hb.owned c v hv).2.symm.trans (howner v he).2)
  · exact Nat.lt_irrefl _ (howner _ he).1

theorem beside_apart (hb : Beside d s₀ t₀ s (i :: k)) (h : exec s i ch = some (s', is)) : Apart d s₀ s' := by
  have hon := hb.on i (by simp)
  refine ⟨(exec_conns_ne h hon).trans hb.apart.conns, fun v hv => ?_,
    (exec_handshaking_ne h hon).trans hb.apart.handshaking⟩
  have howner : Mine s d v := hb.owned d v (hb.apart.conns.trans hv)
  have hne : i.touches s ≠ some v := by
    intro ht
    refine on_touches hon (fun c w hc hw he => ?_) (fun c u _ _ he => ?_) ht hv
    · have hm : Mine s d w := hb.owned d w (hb.apart.conns.trans he)
      exact hc ((hb.owned c w hw).2.symm.trans hm.2)
    · exact Nat.lt_irrefl _ (hb.owned d _ (hb.apart.conns.trans he)).1
  rw [exec_heap_of h hne, hb.apart.conn v hv]

/-- The handler decides to evict `d`. -/
theorem spared_evict {fresh : Bool} {f : Frame} {bytes : ℕ} {cancel : Option ℕ}
    (hb : Beside d s₀ t₀ s (evictRemove fresh f d bytes cancel :: k)) (hspared : Spared d s₀ s)
    (h : exec s (evictRemove fresh f d bytes cancel) ch = some (s', is)) :
    t₀ = [dispatch f] ∧ Evicting d s₀ f s' (is ++ k) := by
  obtain ⟨hover, e, he, rfl, rfl⟩ := hb.alert.grounded _ List.mem_cons_self
  obtain ⟨hdata, rfl⟩ := hb.traced _ List.mem_cons_self
  obtain rfl := hb.last.nil_of_leads rfl
  obtain ⟨l, hl⟩ := hb.offered
  simp only [exec, he] at h
  cases h
  refine ⟨rfl, e, hspared.pending ▸ he, ⟨hdata, fresh, s, hb.solo, he, hover⟩, by simp, .inr (by simp),
    fun n hn => .inr (by simp [hn]), l, hl.symm, .inr (by simp)⟩

/-- The reset of the evicted connection goes on. -/
theorem evicting_exec {f : Frame} (hb : Beside d s₀ [dispatch f] s (i :: k))
    (hev : Evicting d s₀ f s (i :: k)) (h : exec s i ch = some (s', is)) :
    Evicting d s₀ f s' (is ++ k) := by
  obtain ⟨e, he, hcrowd, hgone, hclosed, hnotify, l, hl, hrst⟩ := hev
  have hmem : ∀ {j : Instr}, j ∈ i :: k → j = i ∨ j ∈ is ++ k := by
    intro j hj
    rcases List.mem_cons.mp hj with hj | hj
    · exact .inl hj
    · exact .inr (by simp [hj])
  have hsyn : ∀ c m, i ≠ synConnect c m := by
    rintro c m rfl
    have hf : f.has flagSyn = true := hb.traced (synConnect c m) (by simp) f rfl
    cases hf.symm.trans (isData_iff.mp hcrowd.1).1
  have hevicts : evicts d i = false := by
    cases i with
    | evictRemove fresh g key bytes cancel =>
      obtain ⟨-, e', he', -⟩ := hb.alert.grounded _ List.mem_cons_self
      refine decide_eq_false fun hk => ?_
      rw [hk, hgone] at he'
      cases he'
    | _ => rfl
  refine ⟨e, he, hcrowd, (exec_pending_ne h (hb.on i (by simp)) hevicts).trans hgone, ?_, ?_, ?_⟩
  · rcases hclosed with hc | hc
    · exact .inl (exec_closed_some h hc)
    · rcases hmem hc with rfl | hc
      · cases h
        exact .inl (by simp)
      · exact .inr hc
  · intro n hn
    rcases hnotify n hn with hc | hc
    · exact .inl (exec_notified h hsyn hc)
    · rcases hmem hc with rfl | hc
      · cases h
        exact .inl (by simp [Shared.notify])
      · exact .inr hc
  · rcases exec_offered h with ho | ⟨c, rfl, ho⟩
    · refine ⟨l, ho.trans hl, ?_⟩
      rcases hrst with hr | hr
      · exact .inl hr
      · rcases hmem hr with rfl | hr
        · cases h
          simp [hl] at ho
        · exact .inr hr
    · refine ⟨l ++ [Frame.rst c], by rw [ho, hl, List.append_assoc], ?_⟩
      rcases hrst with hr | hr
      · exact .inl (by simp [hr])
      · rcases hmem hr with hc | hr
        · obtain rfl : d = c := by injection hc
          exact .inl (by simp)
        · exact .inr hr

theorem beside_exec (hb : Beside d s₀ t₀ s (i :: k)) (h : exec s i ch = some (s', is)) :
    Beside d s₀ t₀ s' (is ++ k) := by
  have hon := hb.on i (by simp)
  refine ⟨hb.solo.tail ⟨i, k, ch, s', is, rfl, h, rfl⟩, exec_owned h hb.owned, last_exec hb.last h,
    alert_exec hb.alert h, fun j hj => ?_, fun j hj => ?_, beside_apart hb h, ?_, ?_⟩
  · rcases List.mem_append.mp hj with hj | hj
    · exact beside_on hb h hon (fun _ _ => trivial) (fun _ _ => trivial) j hj
    · exact hb.on j (by simp [hj])
  · rcases List.mem_append.mp hj with hj | hj
    · exact exec_traced h (hb.traced i (by simp)) j hj
    · exact hb.traced j (by simp [hj])
  · rcases exec_offered h with ho | ⟨c, -, ho⟩
    · rw [ho]
      exact hb.offered
    · rw [ho]
      exact hb.offered.trans (List.prefix_append _ _)
  · rcases hb.phase with ⟨hspared, hspare⟩ | ⟨f, rfl, hev⟩
    · have hi : i ≠ closedInsert d := fun he => hspare (by simp [he])
      by_cases hevicts : evicts d i = true
      · cases i with
        | evictRemove fresh f key bytes cancel =>
          obtain rfl : key = d := of_decide_eq_true hevicts
          exact .inr ⟨f, spared_evict hb hspared h⟩
        | _ => cases hevicts
      · left
        have hevicts : evicts d i = false := by simpa using hevicts
        refine ⟨⟨(exec_pending_ne h hon hevicts).trans hspared.pending,
          (exec_closed_ne h hi).trans hspared.closed⟩, fun hj => ?_⟩
        rcases List.mem_append.mp hj with hj | hj
        · refine beside_on hb h (r := (· ≠ d)) (on_spares hon hi) (fun _ hc => hc) ?_ _ hj rfl
          rintro c hc rfl
          cases hevicts.symm.trans hc
        · exact hspare (by simp [hj])
    · exact .inr ⟨f, rfl, evicting_exec hb hev h⟩

end Beside

/-- Where another segment starts. -/
theorem Segment.beside {s : Shared} {c d : ConnId} {t : List Instr} (ht : Segment s c t) (hs : Owned s)
    (hne : d ≠ c) : Beside d s t s t := by
  have hin := ht.inside hs
  have hmine : ∀ v, Mine s c v → s.conns d ≠ some v := by
    intro v hv hd
    exact hne ((hs d v hd).2.symm.trans hv.2)
  have hon : ∀ j ∈ t, On (· ≠ d) (fun v => s.conns d ≠ some v) (fun _ => True) j := by
    intro j hj
    refine (hin.on j hj).weaken ?_ hmine fun _ => id
    rintro c' rfl
    exact hne.symm
  refine ⟨.refl, hs, hin.last, ?_, hon, ?_, ⟨rfl, fun _ _ => rfl, rfl⟩, List.prefix_rfl,
    .inl ⟨⟨rfl, rfl⟩, ?_⟩⟩
  · cases ht <;> exact ⟨rfl, by simp [Grounded]⟩
  · cases ht <;> simp [Traced]
  · cases ht <;> simp

/-- **Connections are isolated from each other.**  Whatever a segment of a handler of `c` does, the
connection and the handshake flag of another conn id `d` are unchanged, and so are its pending and closed
entries, unless the segment is the handler of a DATA frame that would exceed the budget and evicted `d`. -/
theorem isolated {s s' : Shared} {c d : ConnId} {t t' : List Instr} (hs : Owned s) (ht : Segment s c t)
    (hne : d ≠ c) (h : Call s t s' t') :
    Apart d s s' ∧ (Spared d s s' ∨ ∃ f, t = [dispatch f] ∧ Evicted d s f s') := by
  have hb : Beside d s t s' t' := h.1.inv (ht.beside hs hne) fun _ _ _ _ _ _ => beside_exec
  refine ⟨hb.apart, hb.phase.imp And.left ?_⟩
  rintro ⟨f, hf, e, he, hcrowd, hgone, hclosed, hnotify, l, hl, hrst⟩
  -- nothing of the reset is left where the handler ends
  have hrest : ∀ j, leads j = false → j ∉ t' := by
    intro j hj hmem
    rcases rests_singleton h.2 hb.last with rfl | ⟨i, hi, rfl⟩
    · cases hmem
    · obtain rfl := List.mem_singleton.mp hmem
      cases hj.symm.trans hi
  exact ⟨f, hf, e, he, hcrowd, hgone, hclosed.resolve_right (hrest _ rfl),
    fun n hn => (hnotify n hn).resolve_right (hrest _ rfl), l, hl, hrst.resolve_right (hrest _ rfl)⟩

/-- Conn id 9 has buffered as many bytes as may be buffered. -/
def bufferFull : Shared :=
  { Shared.init maxReorderBytes with
    pending := (∅ : Table ConnId PendingEntry).put 9 ⟨[.data 9 1 [66]], 0, maxPendingBytes, false, some 3⟩
    pendingBytes := maxPendingBytes
    nextNotify := 4 }

/-- A DATA frame of conn id 7 evicts it. -/
theorem isolated_evicting : ∃ s', Call bufferFull [dispatch (.data 7 1 [65])] s' [] ∧
    Apart 9 bufferFull s' ∧ Evicted 9 bufferFull (.data 7 1 [65]) s' := by
  have hrun : (system.soloRun
      [.go, .go, .go, .go, .go, .go, .go, .go, .victim 9, .go, .go, .go, .go, .go, .go, .go, .go]
      (bufferFull, [dispatch (.data 7 1 [65])])).any
      (fun r => decide (r.2 = [] ∧ r.1.pending.get 9 = none)) = true := by decide
  obtain ⟨⟨s', t'⟩, hs, hp⟩ := (Option.any_eq_true _ _).mp hrun
  obtain ⟨rfl, hgone⟩ : t' = [] ∧ s'.pending.get 9 = none := of_decide_eq_true hp
  have hcall : Call bufferFull [dispatch (.data 7 1 [65])] s' [] := ⟨soloRun_solo hs, rfl⟩
  have howned : Owned bufferFull := fun c v hv => by cases hv
  obtain ⟨hapart, hspared | ⟨f, hf, hev⟩⟩ := isolated (d := 9) howned (.frame _ rfl) (by decide) hcall
  · cases hgone.symm.trans hspared.pending
  · cases hf
    exact ⟨s', hcall, hapart, hev⟩

end RoundRobin.Reassembler
