import RoundRobin.Reassembler.Upload.Call

/-!
# RoundRobin.Reassembler.Upload — the client's bytes reach the egress in order

Whatever the order, the egress channel of the connection accepts a prefix of the client's chunks, and
all of them if the write half is closed without force.
-/

namespace RoundRobin.Reassembler

open Instr TaskSystem

/-! ## Between calls -/

/-- The handler is forwarding a datagram. -/
def forwards : Instr → Bool
  | synForward _ _ _ _ | udpForward _ _ => true
  | _ => false

/-- A suspended handler: at its egress, with nothing but teardown behind. -/
def Waits (c : ConnId) (t : List Instr) : Prop :=
  Shaped t ∧ ∀ i ∈ t, inert i = true ∨ (∃ c' n, i = synConnect c' n) ∨
    (∃ c', c' ≠ c ∧ i = synBindUdp c') ∨ forwards i = true

theorem forwards_fit {c : ConnId} {src : Source} {s : Shared} {j : Instr} (h : forwards j = true) :
    Fit c src s j := by
  cases j with
  | synForward c' v f fs => trivial
  | udpForward v f => trivial
  | _ => cases h

theorem waits_midway {c : ConnId} {src : Source} {s : Shared} {t : List Instr} (h : Waits c t)
    (hb : Base c src s) (hin : Intact c src s) : Midway c src s t := by
  refine ⟨hb, h.1, .inl ⟨hin, fun i hi => ?_⟩⟩
  rcases h.2 i hi with hi | ⟨c', n, rfl⟩ | ⟨c', hne, rfl⟩ | hi
  · exact inert_fit hi
  · trivial
  · exact hne
  · exact forwards_fit hi

/-- A call ends with our connection intact again. -/
theorem call_ends {c : ConnId} {src : Source} {s s' : Shared} {t t' : List Instr}
    (h : Call s t s' t') (hm : Midway c src s t) :
    Base c src s' ∧ Intact c src s' ∧ Waits c t' := by
  obtain ⟨hsolo, hrest⟩ := h
  have hm' : Midway c src s' t' := midway_solo hsolo hm
  have htail : ∀ i k, t' = i :: k → risky i = true → ∀ j ∈ k, inert j = true := by
    rintro i k rfl hr j hj
    exact (List.pairwise_cons.mp hm'.shaped).1 j hj hr
  have hwait : ∀ i k, t' = i :: k → risky i = true → inert i = false →
      (Fit c src s' i → (∃ c' n, i = synConnect c' n) ∨ (∃ c', c' ≠ c ∧ i = synBindUdp c') ∨
        forwards i = true) → Intact c src s' ∧ Waits c t' := by
    rintro i k rfl hr hn hat
    rcases hm'.mode with ⟨hin, hfit⟩ | ⟨hall, -⟩
    · refine ⟨hin, hm'.shaped, fun j hj => ?_⟩
      rcases List.mem_cons.mp hj with rfl | hj
      · exact .inr (hat (hfit _ (by simp)))
      · exact .inl (htail _ _ rfl hr j hj)
    · cases hn.symm.trans (hall i (by simp))
  refine ⟨hm'.base, ?_⟩
  unfold rests at hrest
  split at hrest
  · rcases hm'.mode with ⟨hin, -⟩ | ⟨-, hr⟩
    · exact ⟨hin, hm'.shaped, by simp⟩
    · cases hr
  · exact hwait _ _ rfl rfl rfl fun _ => .inl ⟨_, _, rfl⟩
  · exact hwait _ _ rfl rfl rfl fun hfit => .inr (.inl ⟨_, hfit, rfl⟩)
  · exact hwait _ _ rfl rfl rfl fun _ => .inr (.inr rfl)
  · exact hwait _ _ rfl rfl rfl fun _ => .inr (.inr rfl)
  · cases hrest

/-- The invariant between calls. -/
structure Between (c : ConnId) (u : Upload) : Prop where
  base : Base c u.client.source u.shared
  intact : Intact c u.client.source u.shared
  waits : ∀ t ∈ u.suspended, Waits c t
  tunnels : ∀ i, ∀ f ∈ u.tunnels i, Authentic u.client.source f
  seq : u.client.seq.toNat = u.client.source.sent.length + 1
  unfinished : u.client.phase ≠ .done → u.client.source.finSent = false

section System

variable {c : ConnId} {u u' : Upload}

theorem rst_authentic (src : Source) (c : ConnId) : Authentic src (.rst c) := by
  have hsyn : (flagRst &&& flagSyn != 0) = false := by decide
  have hdata : (flagRst &&& flagData != 0) = false := by decide
  have hfin : (flagRst &&& flagFin != 0) = false := by decide
  refine ⟨fun h => ?_, fun h => ?_, fun h => ?_⟩
  · cases hsyn.symm.trans h
  · cases hdata.symm.trans (isData_iff.mp h).2
  · cases hfin.symm.trans (isFin_iff.mp h).2.2

theorem decode_proto {payload : Bytes} {t : SynTarget} (h : SynTarget.decode payload = .ok t) :
    t.proto = payload.getD 0 0 := by
  simp only [SynTarget.decode] at h
  (repeat' split at h) <;> cases h
  rfl

theorem encode_head {t : SynTarget} {payload : Bytes} (h : t.encode = .ok payload) :
    payload.getD 0 0 = t.proto := by
  simp only [SynTarget.encode] at h
  split at h <;> cases h
  simp

theorem syn_authentic (src : Source) (c : ConnId) {t : SynTarget} {payload : Bytes}
    (ht : t.proto = protoTcp) (he : t.encode = .ok payload) : Authentic src (.syn c payload) := by
  have hsyn : (flagSyn &&& flagSyn != 0) = true := by decide
  refine ⟨fun _ => ⟨hsyn, fun t' ht' => ?_⟩, fun h => ?_, fun h => ?_⟩
  · rw [decode_proto ht', show (Frame.syn c payload).payload = payload from rfl, encode_head he, ht]
    decide
  · cases hsyn.symm.trans (isData_iff.mp h).1
  · cases hsyn.symm.trans (isFin_iff.mp h).1

theorem data_authentic (src : Source) (c : ConnId) {seq : UInt64} (p : Bytes) (hp)
    (hseq : seq.toNat = src.sent.length + 1) : Authentic (src.push p hp) (.data c seq p) := by
  have hsyn : (flagData &&& flagSyn != 0) = false := by decide
  have hdata : (flagData &&& flagData != 0) = true := by decide
  refine ⟨fun h => ?_, fun _ => ?_, fun h => ?_⟩
  · cases hsyn.symm.trans h
  · show (src.push p hp).chunkAt seq.toNat = some p
    rw [hseq, Source.chunkAt, if_neg (by omega), Nat.add_sub_cancel]
    simp [Source.push]
  · cases hdata.symm.trans (isFin_iff.mp h).2.1

theorem fin_authentic (src : Source) (c : ConnId) {seq : UInt64}
    (hseq : seq.toNat = src.sent.length + 1) : Authentic src.finish (.fin c seq) := by
  have hsyn : (flagFin &&& flagSyn != 0) = false := by decide
  have hdata : (flagFin &&& flagData != 0) = false := by decide
  refine ⟨fun h => ?_, fun h => ?_, fun _ => ⟨rfl, hseq⟩⟩
  · cases hsyn.symm.trans h
  · cases hdata.symm.trans (isData_iff.mp h).2

theorem emit_authentic {src : Source} {i : ℕ} {f : Frame}
    (h : ∀ j, ∀ g ∈ u.tunnels j, Authentic src g) (hf : Authentic src f) :
    ∀ j, ∀ g ∈ u.emit i f j, Authentic src g := by
  intro j g hg
  by_cases hj : j = i
  · subst hj
    simp only [Upload.emit, Function.update_self, List.mem_append, List.mem_singleton] at hg
    rcases hg with hg | rfl
    · exact h j g hg
    · exact hf
  · simp only [Upload.emit, Function.update_of_ne hj] at hg
    exact h j g hg

/-- The tasks that start on their own. -/
theorem spawn_midway {src : Source} {s : Shared} {t : List Instr} (hb : Base c src s)
    (hin : Intact c src s) (h : Spawn s t)
    (hf : ∀ f, t = [dispatch f] → f.connId = c → Authentic src f) : Midway c src s t := by
  cases h with
  | frame f =>
    refine ⟨hb, List.pairwise_singleton _ _, .inl ⟨hin, ?_⟩⟩
    simpa [Fit] using hf f rfl
  | _ => exact ⟨hb, by simp [Shaped, risky], .inl ⟨hin, by simp [Fit]⟩⟩

theorem env_base {src : Source} {s s' : Shared} (hb : Base c src s) (hin : Intact c src s)
    (h : Env s s') : Base c src s' ∧ Intact c src s' := by
  have hset : ∀ v ch ch', (s.heap v).egress = some ch → ch'.log = ch.log →
      Base c src (s.setConn v { s.heap v with egress := some ch' }) ∧
        Intact c src (s.setConn v { s.heap v with egress := some ch' }) := by
    intro v ch ch' hv hlog
    have hgood : ∀ ch0, Good src (s.heap v) ch0 →
        Good src { s.heap v with egress := some ch' } ch' := by
      intro ch0 hg
      obtain rfl : ch = ch0 := Option.some.inj (hv.symm.trans hg.egress)
      exact ⟨rfl, by rw [hlog]; exact hg.stream, by rw [hlog]; exact hg.closed⟩
    have hkin : Kin c src (s.heap v) { s.heap v with egress := some ch' } :=
      ⟨rfl, fun _ hg => ⟨ch', hgood _ hg.choose_spec⟩⟩
    refine ⟨⟨fun c' w hw => ?_, hb.entries, fun w hlt hid => ?_⟩, fun w hw => ?_⟩
    · obtain ⟨hlt, hid⟩ := hb.owner c' w hw
      exact ⟨hlt, (setConn_kin hkin w).connId.trans hid⟩
    · rw [(setConn_kin hkin w).connId] at hid
      exact (setConn_kin hkin w).good hid (hb.good w hlt hid)
    · refine setConn_clean (fun _ hcl => ?_) w (hb.owner c w hw).2 (hin w hw)
      obtain ⟨ch0, hcl⟩ := hcl
      obtain rfl : ch = ch0 := Option.some.inj (hv.symm.trans hcl.egress)
      exact ⟨ch', hgood _ hcl.toGood, hcl.reorder, hcl.pos, hcl.bound, hlog.trans hcl.log,
        hcl.chunks, hcl.fin⟩
  cases h with
  | egressRecv v ch ch' a hv hr =>
    refine hset v ch ch' hv ?_
    unfold Chan.recv at hr
    split at hr <;> cases hr
    rfl
  | egressClose v ch hv => exact hset v ch ch.close hv rfl
  | tick d => exact ⟨⟨hb.owner, hb.entries, hb.good⟩, hin⟩
  | closedExpire c' => exact ⟨⟨hb.owner, hb.entries, hb.good⟩, hin⟩
  | handshakingExpire c' => exact ⟨⟨hb.owner, hb.entries, hb.good⟩, hin⟩

theorem between_step (hu : Between c u) (h : Upload.Step c u u') : Between c u' := by
  cases h with
  | syn i t payload hphase ht he =>
    have hf := hu.unfinished (by simp [hphase])
    exact ⟨hu.base, hu.intact, hu.waits, emit_authentic hu.tunnels (syn_authentic _ c ht he), hu.seq,
      fun _ => hf⟩
  | read i p hp hphase =>
    have hf := hu.unfinished (by simp [hphase])
    refine ⟨⟨hu.base.owner, ?_, ?_⟩, ?_, hu.waits, ?_, ?_, fun _ => hf⟩
    · exact fun e he f hfm => (hu.base.entries e he f hfm).imp_left fun ha => ha.push hf
    · intro v hlt hid
      obtain ⟨ch, hg⟩ := hu.base.good v hlt hid
      exact ⟨ch, hg.push hf⟩
    · intro v hv
      obtain ⟨ch, hcl⟩ := hu.intact v hv
      exact ⟨ch, hcl.push hf⟩
    · exact emit_authentic (fun j g hg => (hu.tunnels j g hg).push hf) (data_authentic _ c p hp hu.seq)
    · have hfits : u.client.source.sent.length + 1 + 1 < 2 ^ 64 := by simpa using hp
      have hone : (u.client.seq + 1).toNat = u.client.seq.toNat + 1 := by
        rw [UInt64.toNat_add, UInt64.toNat_one, Nat.mod_eq_of_lt (by rw [hu.seq]; exact hfits)]
      simp only [hone, hu.seq, Source.push, List.length_append, List.length_singleton]
  | eof i hphase =>
    refine ⟨⟨hu.base.owner, ?_, ?_⟩, ?_, hu.waits, ?_, hu.seq, fun h => absurd rfl h⟩
    · exact fun e he f hfm => (hu.base.entries e he f hfm).imp_left Authentic.finish
    · intro v hlt hid
      obtain ⟨ch, hg⟩ := hu.base.good v hlt hid
      exact ⟨ch, hg.finish⟩
    · intro v hv
      obtain ⟨ch, hcl⟩ := hu.intact v hv
      exact ⟨ch, hcl.finish⟩
    · exact emit_authentic (fun j g hg => (hu.tunnels j g hg).finish) (fin_authentic _ c hu.seq)
  | abort hphase =>
    exact ⟨hu.base, hu.intact, hu.waits, hu.tunnels, hu.seq, fun h => absurd rfl h⟩
  | arrive i f rest s' t' htun hcall =>
    have hf : Authentic u.client.source f := hu.tunnels i f (by simp [htun])
    obtain ⟨hb, hin, hw⟩ := call_ends hcall
      (spawn_midway hu.base hu.intact (.frame f) fun g hg _ => by
        obtain rfl : f = g := by simpa using hg
        exact hf)
    refine ⟨hb, hin, ?_, ?_, hu.seq, hu.unfinished⟩
    · intro t ht
      rcases List.mem_append.mp ht with ht | ht
      · exact hu.waits t ht
      · obtain rfl := List.mem_singleton.mp ht
        exact hw
    · intro j g hg
      by_cases hj : j = i
      · subst hj
        exact hu.tunnels j g (by
          rw [htun]
          exact List.mem_cons_of_mem _ (by simpa using hg))
      · exact hu.tunnels j g (by simpa [hj] using hg)
  | resume l r t s' t' hsus hcall =>
    have ht : Waits c t := hu.waits t (by simp [hsus])
    obtain ⟨hb, hin, hw⟩ := call_ends hcall (waits_midway ht hu.base hu.intact)
    refine ⟨hb, hin, ?_, hu.tunnels, hu.seq, hu.unfinished⟩
    intro w hwm
    rcases List.mem_append.mp hwm with hwm | hwm
    · exact hu.waits w (by simp [hsus, hwm])
    · rcases List.mem_cons.mp hwm with rfl | hwm
      · exact hw
      · exact hu.waits w (by simp [hsus, hwm])
  | other t s' t' hspawn hrst hcall =>
    obtain ⟨hb, hin, hw⟩ := call_ends hcall (spawn_midway hu.base hu.intact hspawn fun f hf hc => by
      rw [hrst f hf hc]
      exact rst_authentic _ c)
    refine ⟨hb, hin, ?_, hu.tunnels, hu.seq, hu.unfinished⟩
    intro w hwm
    rcases List.mem_append.mp hwm with hwm | hwm
    · exact hu.waits w hwm
    · obtain rfl := List.mem_singleton.mp hwm
      exact hw
  | env s' h =>
    obtain ⟨hb, hin⟩ := env_base hu.base hu.intact h
    exact ⟨hb, hin, hu.waits, hu.tunnels, hu.seq, hu.unfinished⟩

theorem between_init (c : ConnId) (window : ℕ) : Between c (.init window) where
  base := ⟨by simp [Upload.init, Shared.init], by simp [Upload.init, Shared.init],
    by simp [Upload.init, Shared.init]⟩
  intact := by simp [Intact, Upload.init, Shared.init]
  waits := by simp [Upload.init]
  tunnels := by simp [Upload.init]
  seq := by simp [Upload.init]
  unfinished := by simp [Upload.init]

theorem reachable_between {window : ℕ} (h : Upload.Reachable c window u) : Between c u := by
  induction h with
  | refl => exact between_init c window
  | tail _ hs ih => exact between_step ih hs

/-- **Upload stream integrity.**  In every reachable state the egress channel of the connection has
accepted exactly the first `k` chunks the client loop emitted, for some `k`, and all of them if the
write half was closed without force. -/
theorem upload_in_order {window : ℕ} (h : Upload.Reachable c window u) {v : ℕ}
    (hv : v < u.shared.nextConn) (hc : (u.shared.heap v).connId = c) :
    ∃ ch, (u.shared.heap v).egress = some ch ∧
      (∃ k ≤ u.client.source.sent.length, ch.log = u.client.source.sent.take k) ∧
      ((u.shared.heap v).halfCloseState = 2 → (u.shared.heap v).forced = false →
        u.client.source.finSent = true ∧ ch.log = u.client.source.sent) := by
  obtain ⟨ch, hg⟩ := (reachable_between h).base.good v hv hc
  refine ⟨ch, hg.egress, ⟨ch.log.length, hg.stream.length_le, ?_⟩, fun h2 hf => ?_⟩
  · exact List.prefix_iff_eq_take.mp hg.stream
  · rcases hg.closed h2 with hfo | hall
    · rw [hf] at hfo
      cases hfo
    · exact hall

end System

/-! ## Runs -/

/-- One step of a run; the choices are those of the call. -/
inductive Event where
  | syn (i : ℕ) (t : SynTarget)
  | read (i : ℕ) (p : Bytes)
  | eof (i : ℕ)
  | arrive (i : ℕ) (choices : List Choice)
  | resume (n : ℕ) (choices : List Choice)

def runCall (s : Shared) (t : List Instr) (choices : List Choice) : Option (Shared × List Instr) :=
  (system.soloRun choices (s, t)).bind fun r => if rests r.2 then some r else none

/-- Perform one event, if it is possible. -/
def perform (c : ConnId) (u : Upload) : Event → Option Upload
  | .syn i t =>
    match t.encode with
    | .ok payload =>
      if u.client.phase = .idle ∧ t.proto = protoTcp then
        some { u with
          tunnels := u.emit i (.syn c payload)
          client := { u.client with phase := .reading } }
      else none
    | .error _ => none
  | .read i p =>
    if h : u.client.phase = .reading ∧ (u.client.source.sent ++ [p]).length + 1 < 2 ^ 64 then
      some { u with
        tunnels := u.emit i (.data c u.client.seq p)
        client := ⟨.reading, u.client.seq + 1, u.client.source.push p h.2⟩ }
    else none
  | .eof i =>
    if u.client.phase = .reading then
      some { u with
        tunnels := u.emit i (.fin c u.client.seq)
        client := ⟨.done, u.client.seq, u.client.source.finish⟩ }
    else none
  | .arrive i choices =>
    match u.tunnels i with
    | f :: rest =>
      (runCall u.shared [dispatch f] choices).map fun r =>
        { u with
          shared := r.1, suspended := u.suspended ++ [r.2]
          tunnels := Function.update u.tunnels i rest }
    | [] => none
  | .resume n choices =>
    match u.suspended.drop n with
    | t :: r =>
      (runCall u.shared t choices).map fun x =>
        { u with shared := x.1, suspended := u.suspended.take n ++ x.2 :: r }
    | [] => none

theorem runCall_call {s s' : Shared} {t t' : List Instr} {choices : List Choice}
    (h : runCall s t choices = some (s', t')) : Call s t s' t' := by
  simp only [runCall, Option.bind_eq_some_iff] at h
  obtain ⟨r, hr, hrest⟩ := h
  split_ifs at hrest with hq
  obtain rfl := Option.some.inj hrest
  exact ⟨soloRun_solo hr, hq⟩

theorem perform_step {c : ConnId} {u u' : Upload} {e : Event} (h : perform c u e = some u') :
    Upload.Step c u u' := by
  cases e with
  | syn i t =>
    simp only [perform] at h
    split at h
    · rename_i payload he
      split_ifs at h with hc
      obtain rfl := Option.some.inj h
      exact .syn i t payload hc.1 hc.2 he
    · cases h
  | read i p =>
    simp only [perform] at h
    split_ifs at h with hc
    obtain rfl := Option.some.inj h
    exact .read i p hc.2 hc.1
  | eof i =>
    simp only [perform] at h
    split_ifs at h with hc
    obtain rfl := Option.some.inj h
    exact .eof i hc
  | arrive i choices =>
    simp only [perform] at h
    split at h
    · rename_i f rest ht
      simp only [Option.map_eq_some_iff] at h
      obtain ⟨⟨s', t'⟩, hr, rfl⟩ := h
      exact .arrive i f rest s' t' ht (runCall_call hr)
    · cases h
  | resume n choices =>
    simp only [perform] at h
    split at h
    · rename_i t r ht
      simp only [Option.map_eq_some_iff] at h
      obtain ⟨⟨s', t'⟩, hr, rfl⟩ := h
      exact .resume (u.suspended.take n) r t s' t' (by rw [← ht, List.take_append_drop])
        (runCall_call hr)
    · cases h

/-- Perform a whole run. -/
def performAll (c : ConnId) (u : Upload) : List Event → Option Upload
  | [] => some u
  | e :: es => (perform c u e).bind fun u' => performAll c u' es

theorem performAll_reachable {c : ConnId} {window : ℕ} {u u' : Upload} {es : List Event}
    (hu : Upload.Reachable c window u) (h : performAll c u es = some u') :
    Upload.Reachable c window u' := by
  induction es generalizing u with
  | nil =>
    obtain rfl := Option.some.inj h
    exact hu
  | cons e es ih =>
    simp only [performAll, Option.bind_eq_some_iff] at h
    obtain ⟨w, hw, hr⟩ := h
    exact ih (hu.tail (perform_step hw)) hr

/-- The chunk overtakes the SYN, the FIN comes while connecting, and the connect replays both. -/
def overtakingRun : List Event :=
  [.syn 0 ⟨protoTcp, "a", 80⟩, .read 1 [1], .eof 2, .arrive 1 (List.replicate 8 .go),
    .arrive 0 (List.replicate 5 .go), .arrive 2 (List.replicate 5 .go),
    .resume 1 (.connected :: List.replicate 11 .go)]

theorem upload_in_order_overtaking : ∃ u, Upload.Reachable 7 maxReorderBytes u ∧
    0 < u.shared.nextConn ∧ (u.shared.heap 0).connId = 7 ∧ (u.shared.heap 0).halfCloseState = 2 ∧
    (u.shared.heap 0).forced = false ∧ u.client.source.sent = [[1]] ∧
    ∃ ch, (u.shared.heap 0).egress = some ch ∧ ch.log = [[1]] := by
  have hrun : (performAll 7 (.init maxReorderBytes) overtakingRun).any (fun u =>
      decide (0 < u.shared.nextConn ∧ (u.shared.heap 0).connId = 7 ∧
        (u.shared.heap 0).halfCloseState = 2 ∧ (u.shared.heap 0).forced = false ∧
        u.client.source.sent = [[1]])) = true := by decide
  obtain ⟨u, hu, hp⟩ := (Option.any_eq_true _ _).mp hrun
  obtain ⟨hv, hc, h2, hf, hs⟩ := of_decide_eq_true hp
  have hr : Upload.Reachable 7 maxReorderBytes u := performAll_reachable .refl hu
  obtain ⟨ch, he, -, hall⟩ := upload_in_order hr hv hc
  exact ⟨u, hr, hv, hc, h2, hf, hs, ch, he, (hall h2 hf).2.trans hs⟩

end RoundRobin.Reassembler
