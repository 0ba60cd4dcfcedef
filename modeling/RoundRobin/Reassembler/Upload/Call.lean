import RoundRobin.Reassembler.Upload.Conns

/-!
# RoundRobin.Reassembler.Upload.Call — one call from start to end

The pending entries hold frames of the stream only, and what an instruction leaves to do relies on what
is there; so a call that starts on an intact connection ends on one.
-/

namespace RoundRobin.Reassembler

open Instr TaskSystem

section Exec

variable {c : ConnId} {src : Source} {s s' : Shared} {i : Instr} {ch : Choice} {is : List Instr}

/-! ## Entries during one instruction -/

theorem entries_put {k : ConnId} {e' : PendingEntry} (hb : ∀ e, s.pending.get c = some e → EntryOk src e)
    (hnew : k = c → EntryOk src e') :
    ∀ e, (s.pending.put k e').get c = some e → EntryOk src e := by
  intro e he
  by_cases hk : c = k
  · subst hk
    obtain rfl : e' = e := by simpa using he
    exact hnew rfl
  · exact hb e (by rwa [Table.get_put_ne _ _ hk] at he)

theorem entries_del {k : ConnId} (hb : ∀ e, s.pending.get c = some e → EntryOk src e) :
    ∀ e, (s.pending.del k).get c = some e → EntryOk src e := by
  intro e he
  by_cases hk : c = k
  · simp [hk] at he
  · exact hb e (by rwa [Table.get_del_ne _ hk] at he)

theorem entries_markCancelled {k : ConnId} (hb : ∀ e, s.pending.get c = some e → EntryOk src e) :
    ∀ e, (markCancelled s k).pending.get c = some e → EntryOk src e := by
  rw [markCancelled_pending]
  split
  · exact hb
  · rename_i e he
    refine entries_put hb ?_
    rintro rfl
    exact hb e he

theorem entries_execPush {f : Frame} {bytes : ℕ} {full gone : List Instr}
    (hb : ∀ e, s.pending.get c = some e → EntryOk src e)
    (hf : f.connId = c → Authentic src f ∧ (isData f = true ∨ isFin f = true))
    (h : execPush s f bytes full gone = (s', is)) :
    ∀ e, s'.pending.get c = some e → EntryOk src e := by
  unfold execPush at h
  split at h
  · rename_i e he
    split at h
    · obtain ⟨rfl, -⟩ := Prod.mk.inj h
      refine entries_put hb fun hc g hg => ?_
      rcases List.mem_append.mp hg with hg | hg
      · exact hb e (hc ▸ he) g hg
      · obtain rfl := List.mem_singleton.mp hg
        exact hf hc
    · obtain ⟨rfl, -⟩ := Prod.mk.inj h
      exact hb
  · obtain ⟨rfl, -⟩ := Prod.mk.inj h
    exact hb

theorem entries_insertEntry {f : Frame} {bytes : ℕ}
    (hb : ∀ e, s.pending.get c = some e → EntryOk src e)
    (hf : f.connId = c → Authentic src f ∧ (isData f = true ∨ isFin f = true)) :
    ∀ e, (insertEntry s f bytes).pending.get c = some e → EntryOk src e := by
  refine entries_put hb fun hc g hg => ?_
  obtain rfl := List.mem_singleton.mp hg
  exact hf hc

theorem exec_entries (h : exec s i ch = some (s', is)) (hi : Fit c src s i)
    (hb : ∀ e, s.pending.get c = some e → EntryOk src e) :
    ∀ e, s'.pending.get c = some e → EntryOk src e := by
  by_cases hw : i.writesPending = true
  · cases i with
    | synReserve f =>
      cases h
      refine entries_put hb fun hc => ?_
      cases hp : s.pending.get f.connId with
      | none => simp [EntryOk, PendingEntry.new]
      | some e => exact hb e (hc ▸ hp)
    | synDrain c' v =>
      simp only [exec] at h
      split at h <;> cases h
      · exact hb
      · exact entries_del hb
    | evictRemove fresh f key bytes cancel =>
      simp only [exec] at h
      split at h <;> cases h
      · exact hb
      · exact entries_del hb
    | dataPush f =>
      exact entries_execPush hb (fun hc => (hi hc).imp_right .inl) (Option.some.inj h)
    | dataInsert f =>
      cases h
      exact entries_insertEntry hb fun hc => (hi hc).imp_right .inl
    | finPush f =>
      exact entries_execPush hb (fun hc => (hi hc).imp_right .inr) (Option.some.inj h)
    | finInsert f =>
      cases h
      exact entries_insertEntry hb fun hc => (hi hc).imp_right .inr
    | rstMark c' =>
      cases h
      exact entries_markCancelled hb
    | removePending c' =>
      simp only [exec] at h
      split at h <;> cases h
      · exact hb
      · exact entries_del hb
    | failMark c' =>
      cases h
      exact entries_markCancelled hb
    | sweepRetain ttl =>
      cases h
      exact fun e he => hb e (Table.get_of_retain he)
    | _ => cases hw
  · rw [exec_pending h (by simpa using hw)]
    exact hb

/-! ## What a step leaves to do -/

theorem execSynCheckClosed_cases (s : Shared) (f : Frame) (n : ℕ) :
    execSynCheckClosed s f n = synClosed f.connId ∨ execSynCheckClosed s f n = synFail f.connId ∨
    (∃ t, SynTarget.decode f.payload = .ok t ∧ t.proto = protoUdp ∧
      execSynCheckClosed s f n = [synBindUdp f.connId]) ∨
    execSynCheckClosed s f n = [synConnect f.connId n] := by
  unfold execSynCheckClosed
  by_cases hcl : (s.closed f.connId).isSome = true
  · exact .inl (by simp only [hcl, if_true])
  · simp only [hcl]
    cases SynTarget.decode f.payload with
    | error e => exact .inr (.inl rfl)
    | ok t =>
      by_cases hp : t.proto ≠ protoTcp ∧ t.proto ≠ protoUdp
      · exact .inr (.inl (by simp [hp]))
      · by_cases hu : t.proto = protoUdp
        · exact .inr (.inr (.inl ⟨t, rfl, hu, by simp [hu]⟩))
        · have ht : t.proto = protoTcp := by
            by_contra ht
            exact hp ⟨ht, hu⟩
          exact .inr (.inr (.inr (by simp [ht, protoTcp, protoUdp])))

theorem handle_fit {f : Frame} (hb : Base c src s) (hin : Intact c src s)
    (h : exec s (handle f) ch = some (s', is)) (hi : Fit c src s (handle f)) :
    ∀ j ∈ is, Fit c src s' j := by
  simp only [exec, execHandle] at h
  split at h
  · rename_i hsyn
    split at h <;> cases h
    · simp
    · simpa [Fit] using fun hc => (hi hc).syn hsyn
  · rename_i hsyn
    split at h
    · rename_i hdata
      have hd : isData f = true := isData_iff.mpr ⟨by simpa using hsyn, hdata⟩
      split at h
      · rename_i v hv
        split at h <;> cases h
        · simp [Fit]
        · obtain ⟨hlt, hid⟩ := hb.owner _ v hv
          simp only [List.mem_singleton, forall_eq, Fit]
          refine ⟨fun hc => ⟨hi hc, hd⟩, hlt, hid, fun hc => ?_⟩
          exact hin v (hc ▸ hv)
      · cases h
        simpa [Fit] using fun hc => And.intro (hi hc) hd
    · rename_i hdata
      split at h
      · rename_i hfin
        have hf : isFin f = true := isFin_iff.mpr ⟨by simpa using hsyn, by simpa using hdata, hfin⟩
        split at h
        · rename_i v hv
          split at h <;> cases h
          · simp
          · obtain ⟨hlt, hid⟩ := hb.owner _ v hv
            simp only [List.mem_singleton, forall_eq, Fit]
            refine ⟨⟨hlt, hid, fun hc => hin v (hc ▸ hv)⟩, fun hc => (hi hc).fin hf⟩
        · cases h
          simpa [Fit] using fun hc => And.intro (hi hc) hf
      · (repeat' split at h) <;> cases h <;> simp [Fit]

theorem replay_fit {c' : ConnId} {v : ℕ} {fs : List Frame} {fin : Option ℕ}
    (h : exec s (synReplay c' v fs fin) ch = some (s', is)) (hi : Fit c src s (synReplay c' v fs fin))
    (hst : Stays c src s s') : ∀ j ∈ is, Fit c src s' j := by
  obtain ⟨hv, hfs⟩ := hi
  have hv' := hst.handle hv
  cases fs with
  | nil =>
    cases fin with
    | none =>
      cases h
      simp [Fit]
    | some q =>
      cases h
      simp only [List.mem_cons, List.not_mem_nil, or_false, forall_eq_or_imp, forall_eq, Fit]
      exact ⟨⟨hv', fun hc => (hfs hc).2 q rfl⟩, trivial⟩
  | cons f fs =>
    have htail : ∀ fin', (∀ q, fin' = some q → c' = c → src.finSent = true ∧ q = src.sent.length + 1) →
        Fit c src s' (synReplay c' v fs fin') := by
      intro fin' hfin'
      exact ⟨hv', fun hc => ⟨fun g hg => (hfs hc).1 g (by simp [hg]), fun q hq => hfin' q hq hc⟩⟩
    have hsame : ∀ q, fin = some q → c' = c → src.finSent = true ∧ q = src.sent.length + 1 :=
      fun q hq hc => (hfs hc).2 q hq
    simp only [exec, execReplay] at h
    split at h
    · split at h <;> cases h
      · simpa using htail fin hsame
      · simp only [List.mem_cons, List.not_mem_nil, or_false, forall_eq_or_imp, forall_eq]
        refine ⟨?_, htail fin hsame⟩
        rw [← hv'.2.1] at hv'
        exact hv'
      · simp [drainReset, Fit]
    · rename_i hnd
      split at h
      · rename_i hfi
        cases h
        simp only [List.mem_singleton, forall_eq]
        refine htail _ fun q hq hc => ?_
        obtain rfl := Option.some.inj hq
        obtain ⟨ha, hk⟩ := (hfs hc).1 f (by simp)
        refine ha.fin (hk.resolve_left fun hd => ?_)
        exact hnd (isData_iff.mp hd).2
      · cases h
        simpa using htail fin hsame

theorem exec_fit (hb : Base c src s) (hin : Intact c src s) (h : exec s i ch = some (s', is))
    (hi : Fit c src s i) (hst : Stays c src s s') : ∀ j ∈ is, Fit c src s' j := by
  cases i with
  | handle f => exact handle_fit hb hin h hi
  | synReplay c' v fs fin => exact replay_fit h hi hst
  | synCheckClosed f n =>
    cases h
    rcases execSynCheckClosed_cases s f n with hr | hr | ⟨t, ht, hudp, hr⟩ | hr
    · rw [hr]
      simp [synClosed, Fit]
    · rw [hr]
      simp [synFail, Fit]
    · rw [hr]
      simp only [List.mem_singleton, forall_eq, Fit]
      exact fun hc => (hi hc).2 t ht hudp
    · rw [hr]
      simp [Fit]
  | synBindUdp c' =>
    simp only [exec] at h
    split at h <;> cases h
    · simpa [Fit] using hi
    · simp [synFail, Fit]
  | synInsert c' u =>
    cases h
    simp only [List.mem_singleton, forall_eq, Fit]
    refine ⟨Nat.lt_succ_self _, by simp [VirtConnDe.new], fun hc => ?_⟩
    obtain rfl := hi hc
    refine ⟨Chan.new egressChannelCap, ?_⟩
    simp only [Function.update_self]
    exact new_clean src c' s.window s.now
  | synDrain c' v =>
    simp only [exec] at h
    split at h <;> cases h
    · simp [Fit]
    · rename_i e he
      unfold afterDrain
      split
      · simp [drainCancelled, Fit]
      · split
        · exact List.forall_mem_cons.mpr ⟨trivial, forall_forwardFrames trivial (fun _ _ => trivial) _⟩
        · simp only [List.mem_cons, List.not_mem_nil, or_false, forall_eq_or_imp, forall_eq]
          refine ⟨trivial, hst.handle hi, fun hc => ⟨hb.entries e (hc ▸ he), ?_⟩⟩
          intro q hq
          cases hq
  | dataDeliver v f =>
    have hv' := hst.handle hi.2
    simp only [exec, execDeliver] at h
    split at h <;> cases h
    · simp
    · simp only [List.mem_singleton, forall_eq, Fit]
      rw [← hv'.2.1] at hv'
      exact hv'
    · simp [dataReset, Fit]
  | synForward c' v f fs =>
    cases h
    exact forall_forwardFrames trivial (fun _ _ => trivial) fs
  | dataVanished f =>
    cases h
    split
    · simpa [Fit] using fun hc => (hi hc).1
    · simp
  | sweepRetain ttl =>
    exact forall_sweep h (fun _ => trivial) (fun _ => trivial) (fun _ => trivial) fun _ => trivial
  | dataPush f =>
    have h := Option.some.inj h
    unfold execPush at h
    (repeat' split at h) <;> cases h
    · simp
    · simp [failPendingConn, Fit]
    · simpa [Fit] using hi
  | finPush f =>
    have h := Option.some.inj h
    unfold execPush at h
    (repeat' split at h) <;> cases h <;> simp [failPendingConn, Fit]
  | reserveCas fresh f cur =>
    simp only [exec, execCas] at h
    split at h
    · split at h
      · cases h
        cases fresh <;> simpa [Fit] using hi
      · cases h
        simpa [Fit] using hi
    · cases h
      simpa [Fit] using hi
  | _ =>
    simp only [exec] at h
    (repeat' split at h) <;> cases h <;>
      simp only [synFail, synCancelled, synClosed, failPendingConn, List.forall_mem_cons, List.not_mem_nil,
        false_imp_iff, implies_true, and_true] <;>
      first
        | simp [Fit]; done
        | simpa [Fit] using hi

/-- Only the teardown follows an instruction that can lead to a refused write. -/
def Shaped (t : List Instr) : Prop := t.Pairwise fun i j => risky i = true → inert j = true

theorem shaped_of_calm {t : List Instr} (h : ∀ j ∈ t, risky j = false) : Shaped t :=
  List.Pairwise.imp_of_mem (fun hi _ _ hr => by rw [h _ hi] at hr; cases hr)
    (List.pairwise_of_forall (R := fun _ _ => True) fun _ _ => trivial)

theorem shaped_forwardFrames (c : ConnId) (v : ℕ) (fs : List Frame) : Shaped (forwardFrames c v fs) := by
  rcases forwardFrames_cases c v fs with h | ⟨f, fs', h⟩ <;> rw [h] <;> exact List.pairwise_singleton _ _

theorem exec_shaped (h : exec s i ch = some (s', is)) :
    Shaped is ∧ (risky i = false → ∀ j ∈ is, risky j = false) := by
  cases i with
  | sweepRetain ttl =>
    have hcalm : ∀ j ∈ is, risky j = false :=
      forall_sweep h (fun _ => rfl) (fun _ => rfl) (fun _ => rfl) fun _ => rfl
    exact ⟨shaped_of_calm hcalm, fun _ => hcalm⟩
  | synForward c v f fs =>
    cases h
    exact ⟨shaped_forwardFrames c v fs, fun hr => by cases hr⟩
  | synDrain c v =>
    refine ⟨?_, fun hr => by cases hr⟩
    simp only [exec, afterDrain] at h
    (repeat' split at h) <;> cases h
    · simp [Shaped]
    · simp [Shaped, drainCancelled, risky]
    · exact List.pairwise_cons.mpr ⟨fun _ _ hr => (by cases hr), shaped_forwardFrames c v _⟩
    · simp [Shaped, risky]
  | synReplay c v fs fin =>
    refine ⟨?_, fun hr => by cases hr⟩
    cases fs <;> simp only [exec, execReplay] at h <;> (repeat' split at h) <;> cases h <;>
      simp [Shaped, drainReset, risky]
  | synCheckClosed f n =>
    refine ⟨?_, fun hr => by cases hr⟩
    cases h
    rcases execSynCheckClosed_cases s f n with hr | hr | ⟨t, -, -, hr⟩ | hr <;> rw [hr] <;>
      simp [Shaped, synClosed, synFail, risky]
  | _ =>
    simp only [exec, execHandle, execDeliver, execCas, execPush] at h
    (repeat' split at h) <;> cases h <;>
      simp only [Shaped, synFail, synClosed, synCancelled, dataReset, failPendingConn, List.pairwise_cons,
        List.Pairwise.nil, List.forall_mem_cons] <;>
      simp [risky]

theorem exec_base (hb : Base c src s) (h : exec s i ch = some (s', is)) (hi : Fit c src s i)
    (hins : ∀ c' u, i ≠ synInsert c' u) : Base c src s' := by
  obtain ⟨hkin, -⟩ := exec_heap h hi hins
  have hnext := exec_nextConn h hins
  refine ⟨fun c' v hv => ?_, exec_entries h hi hb.entries, fun v hlt hid => ?_⟩
  · obtain ⟨hlt, hid⟩ := hb.owner c' v (exec_conns_sub h hins hv)
    exact ⟨hnext ▸ hlt, (hkin v).connId.trans hid⟩
  · rw [hnext] at hlt
    rw [(hkin v).connId] at hid
    exact (hkin v).good hid (hb.good v hlt hid)

/-- Registering a fresh connection. -/
theorem insert_base {c' : ConnId} {u : Bool} (hb : Base c src s) (hin : Intact c src s)
    (h : exec s (synInsert c' u) ch = some (s', is)) (hi : c' = c → u = false) :
    Base c src s' ∧ Intact c src s' ∧ Stays c src s s' := by
  obtain ⟨hs, -⟩ := Prod.mk.inj (Option.some.inj h)
  have hconns : s'.conns = Function.update s.conns c' (some s.nextConn) := by rw [← hs]
  have hnext : s'.nextConn = s.nextConn + 1 := by rw [← hs]
  have hpend : s'.pending = s.pending := by rw [← hs]
  have hself : s'.heap s.nextConn = VirtConnDe.new c' s.window u s.now := by rw [← hs]; simp
  have hold : ∀ v, v < s.nextConn → s'.heap v = s.heap v := by
    intro v hv
    rw [← hs]
    exact Function.update_of_ne (Nat.ne_of_lt hv) _ _
  have hnew : c' = c → IsClean src (VirtConnDe.new c' s.window u s.now) := by
    intro hc
    rw [hi hc]
    exact ⟨_, new_clean src c' s.window s.now⟩
  have hreg : ∀ c0 v, s'.conns c0 = some v → (c0 = c' ∧ v = s.nextConn) ∨ s.conns c0 = some v := by
    intro c0 v hv
    rw [hconns] at hv
    by_cases hc0 : c0 = c'
    · subst hc0
      exact .inl ⟨rfl, by simpa using hv.symm⟩
    · exact .inr (by simpa [hc0] using hv)
  refine ⟨⟨fun c0 v hv => ?_, by rw [hpend]; exact hb.entries, fun v hlt hid => ?_⟩, fun v hv => ?_,
    ⟨by omega, fun v hv => by rw [hold v hv], fun v hv _ hcl => by rwa [hold v hv]⟩⟩
  · rcases hreg c0 v hv with ⟨rfl, rfl⟩ | hv
    · exact ⟨by omega, by rw [hself]; rfl⟩
    · obtain ⟨hlt, hid⟩ := hb.owner c0 v hv
      exact ⟨by omega, by rw [hold v hlt]; exact hid⟩
  · by_cases hv : v = s.nextConn
    · subst hv
      rw [hself] at hid ⊢
      exact (hnew hid).good
    · have hlt' : v < s.nextConn := by omega
      rw [hold v hlt'] at hid ⊢
      exact hb.good v hlt' hid
  · rcases hreg c v hv with ⟨rfl, rfl⟩ | hv
    · rw [hself]
      exact hnew rfl
    · rw [hold v (hb.owner c v hv).1]
      exact hin v hv

/-! ## Whole calls -/

/-- The invariant while one handler runs: our connection is intact, or a write was refused and the
handler is about to unregister it. -/
structure Midway (c : ConnId) (src : Source) (s : Shared) (t : List Instr) : Prop where
  base : Base c src s
  shaped : Shaped t
  mode : (Intact c src s ∧ ∀ i ∈ t, Fit c src s i) ∨
    ((∀ i ∈ t, inert i = true) ∧ connsRemove c ∈ t)

theorem inert_fit {j : Instr} (h : inert j = true) : Fit c src s j := by
  cases j <;> trivial

theorem inert_not_insert (h : inert i = true) : ∀ c' u, i ≠ synInsert c' u := by
  rintro c' u rfl
  cases h

theorem inert_nil (h : exec s i ch = some (s', is)) (hi : inert i = true) : is = [] := by
  cases i with
  | connsRemove c' =>
    simp only [exec] at h
    split at h <;> cases h <;> rfl
  | closedInsert c' => cases h; rfl
  | sendRst c' => cases h; rfl
  | countReset => cases h; rfl
  | handshakingRemove c' => cases h; rfl
  | _ => cases hi

theorem shaped_append {k : List Instr} (hk : Shaped (i :: k)) (h : exec s i ch = some (s', is)) :
    Shaped (is ++ k) := by
  obtain ⟨hi, hk⟩ := List.pairwise_cons.mp hk
  obtain ⟨his, hcalm⟩ := exec_shaped h
  refine List.pairwise_append.mpr ⟨his, hk, fun a ha b hb hr => ?_⟩
  cases hri : risky i with
  | true => exact hi b hb hri
  | false =>
    rw [hcalm hri a ha] at hr
    cases hr

theorem midway_exec {k : List Instr} (hm : Midway c src s (i :: k))
    (h : exec s i ch = some (s', is)) : Midway c src s' (is ++ k) := by
  have hshape := shaped_append hm.shaped h
  rcases hm.mode with ⟨hin, hfit⟩ | ⟨hinert, hrem⟩
  · have hi : Fit c src s i := hfit i (by simp)
    by_cases hins : ∃ c' u, i = synInsert c' u
    · obtain ⟨c', u, rfl⟩ := hins
      obtain ⟨hb', hin', hst⟩ := insert_base hm.base hin h hi
      refine ⟨hb', hshape, .inl ⟨hin', fun j hj => ?_⟩⟩
      rcases List.mem_append.mp hj with hj | hj
      · exact exec_fit hm.base hin h hi hst j hj
      · exact hst.fit (hfit j (by simp [hj]))
    · have hins : ∀ c' u, i ≠ synInsert c' u := fun c' u he => hins ⟨c', u, he⟩
      have hb' := exec_base hm.base h hi hins
      obtain ⟨hkin, hcl | ⟨hr, hall, hrem⟩⟩ := exec_heap h hi hins
      · have hst : Stays c src s s' :=
          ⟨(exec_nextConn h hins).ge, fun v _ => (hkin v).connId, fun v _ => hcl v⟩
        refine ⟨hb', hshape, .inl ⟨fun v hv => ?_, fun j hj => ?_⟩⟩
        · have hv0 := exec_conns_sub h hins hv
          exact hcl v (hm.base.owner c v hv0).2 (hin v hv0)
        · rcases List.mem_append.mp hj with hj | hj
          · exact exec_fit hm.base hin h hi hst j hj
          · exact hst.fit (hfit j (by simp [hj]))
      · refine ⟨hb', hshape, .inr ⟨fun j hj => ?_, by simp [hrem]⟩⟩
        rcases List.mem_append.mp hj with hj | hj
        · exact hall j hj
        · exact (List.pairwise_cons.mp hm.shaped).1 j hj hr
  · have hii : inert i = true := hinert i (by simp)
    obtain rfl := inert_nil h hii
    have hb' := exec_base hm.base h (inert_fit hii) (inert_not_insert hii)
    have hk : ∀ j ∈ k, inert j = true := fun j hj => hinert j (by simp [hj])
    rcases List.mem_cons.mp hrem with rfl | hrem
    · refine ⟨hb', hshape, .inl ⟨fun v hv => ?_, fun j hj => inert_fit (hk j (by simpa using hj))⟩⟩
      simp only [exec] at h
      split at h <;> cases h
      · rename_i hn
        rw [hn] at hv
        cases hv
      · simp at hv
    · exact ⟨hb', hshape, .inr ⟨by simpa using hk, by simpa using hrem⟩⟩

end Exec

theorem midway_solo {c : ConnId} {src : Source} {s s' : Shared} {t t' : List Instr}
    (h : system.Solo (s, t) (s', t')) (hm : Midway c src s t) : Midway c src s' t' :=
  h.inv hm fun _ _ _ _ _ _ hm he => midway_exec hm he

end RoundRobin.Reassembler
