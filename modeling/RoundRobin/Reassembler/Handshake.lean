import RoundRobin.Reassembler.Handshake.Handler

/-!
# RoundRobin.Reassembler.Handshake — one SYN handshake per conn id

Whatever comes in between, a SYN handler that got past `handshaking.insert` is the only one of its conn
id, it registers a connection where there is none, and where it returns its conn id is neither handshaking
nor pending, and is registered or tombstoned.

For one conn id the running handler is one of three.  While another handler of the conn id is suspended
it cannot enter the handshake, register the conn id or make it pending (`Waiting`, `Fenced`).  The SYN
handler itself goes through the list of what it still owes (`Shake`).  Any other one has nothing to do
with the handshake (`Outside`).
-/

namespace RoundRobin.Reassembler

open Instr TaskSystem

/-! ## The handler that runs -/

/-- The SYN handler of `c`: about to get past `handshaking.insert`, or behind it. -/
inductive Entering (c : ConnId) (s : Shared) : List Instr → Prop where
  | dispatch (f : Frame) : f.connId = c → f.has flagSyn = true → s.conns c = none →
      s.handshaking c = none → Entering c s [dispatch f]
  | handle (f : Frame) : f.connId = c → f.has flagSyn = true → s.conns c = none →
      s.handshaking c = none → Entering c s [handle f]
  | register (f : Frame) : f.connId = c → s.conns c = none → s.handshaking c = none →
      Entering c s [synRegister f]
  | shake (t : List Instr) : Shake c s t → Entering c s t

/-- The instruction may lead to `handshaking.insert` of `c`. -/
def starts (c : ConnId) : Instr → Bool
  | dispatch f | handle f | dataCheckClosed f | dataContains f | dataLen f | reserveLoad _ f
  | reserveCas _ f _ | evictEmpty _ f | evictPick _ f | evictRemove _ f _ _ _ | dataPush f
  | dataVanished f => decide (f.connId = c) && f.has flagSyn
  | synRegister f => decide (f.connId = c)
  | _ => false

/-- A handler that does not get past `handshaking.insert` of `c`: its SYN finds the conn id registered or
handshaking, or it is no SYN of `c` at all. -/
inductive Outside (c : ConnId) (s : Shared) : List Instr → Prop where
  | dispatch (f : Frame) : f.connId = c → f.has flagSyn = true →
      (s.conns c).isSome ∨ (s.handshaking c).isSome → Outside c s [dispatch f]
  | handle (f : Frame) : f.connId = c → f.has flagSyn = true →
      (s.conns c).isSome ∨ (s.handshaking c).isSome → Outside c s [handle f]
  | register (f : Frame) : f.connId = c → (s.handshaking c).isSome → Outside c s [synRegister f]
  | apart (t : List Instr) : t.any (inHandshake c) = false → t.any (starts c) = false → Outside c s t

section Exec

variable {s s' : Shared} {i : Instr} {ch : Choice} {is k t t' : List Instr} {c : ConnId}

theorem shake_register {f : Frame} (hf : f.connId = c) (hc : s.conns c = none) (hh : s.handshaking c = none)
    (h : exec s (synRegister f) ch = some (s', is)) : Shake c s' is := by
  subst hf
  cases h
  rw [hh]
  refine ⟨rfl, by simp [synSide], by simp [inHandshake], .inr (by simp [clears]),
    .inr (by simp [opensConn]), fun hr => ?_, fun _ => hc⟩
  cases hr

theorem entering_exec (he : Entering c s (i :: k)) (h : exec s i ch = some (s', is)) :
    Entering c s' (is ++ k) := by
  cases he with
  | dispatch f hf hsyn hc hh =>
    cases h
    exact .handle f hf hsyn hc hh
  | handle f hf hsyn hc hh =>
    simp only [exec, execHandle, hf, hsyn, hc, Option.isSome_none, Bool.false_eq_true, if_true,
      if_false, Option.some.injEq, Prod.mk.injEq] at h
    obtain ⟨rfl, rfl⟩ := h
    exact .register f hf hc hh
  | register f hf hc hh =>
    rw [List.append_nil]
    exact .shake is (shake_register hf hc hh h)
  | shake t hs => exact .shake _ (shake_exec hs h)

/-- Where the SYN handler is suspended or returns it is behind `handshaking.insert`. -/
theorem Entering.shake_of_rests (he : Entering c s t) (hr : rests t = true) : Shake c s t := by
  cases he with
  | shake t hs => exact hs
  | _ => cases hr

theorem exec_starts (h : exec s i ch = some (s', is)) (hi : starts c i = false) :
    is.any (starts c) = false := by
  cases i with
  | handle f =>
    simp only [exec, execHandle] at h
    (repeat' split at h) <;> cases h <;> simp_all [starts]
  | synReplay c' v fs fin =>
    cases fs <;> simp only [exec, execReplay] at h <;> (repeat' split at h) <;> cases h <;> rfl
  | synForward c' v f fs =>
    cases h
    exact any_forwardFrames rfl (fun _ _ => rfl) fs
  | synDrain c' v =>
    simp only [exec, afterDrain] at h
    (repeat' split at h) <;> cases h
    · rfl
    · rfl
    · exact any_forwardFrames rfl (fun _ _ => rfl) _
    · rfl
  | sweepRetain ttl =>
    cases h
    exact any_sweepTail (fun _ => rfl) (fun _ => rfl) (fun _ => rfl) _
  | _ =>
    simp only [exec, execSynCheckClosed, execDeliver, execCas, execPush] at h
    (repeat' split at h) <;> cases h <;> first
      | rfl
      | simpa [starts] using hi

theorem outside_exec (ho : Outside c s (i :: k)) (h : exec s i ch = some (s', is)) :
    Outside c s' (is ++ k) := by
  cases ho with
  | dispatch f hf hsyn hin =>
    cases h
    exact .handle f hf hsyn hin
  | handle f hf hsyn hin =>
    simp only [exec, execHandle, hf, hsyn, if_true] at h
    split at h <;> cases h
    · exact .apart [] rfl rfl
    · rename_i hn
      exact .register f hf (hin.resolve_left hn)
  | register f hf hh =>
    subst hf
    cases h
    rw [if_pos hh]
    exact .apart [] rfl rfl
  | apart t ht hst =>
    have hi := head_outside ht
    refine .apart _ (any_append_false (exec_enters h hi fun f hf hc => ?_) ht)
      (any_append_false (exec_starts h (head_outside hst)) hst)
    have hsi := head_outside hst
    rw [hf] at hsi
    exact absurd hc (of_decide_eq_false hsi)

theorem Outside.any_eq_false (ho : Outside c s t) : t.any (inHandshake c) = false := by
  cases ho with
  | apart t ht _ => exact ht
  | _ => rfl

/-! ## While the handler runs -/

theorem waiting_solo (hw : Waiting c s) (ho : t.any (inHandshake c) = false)
    (h : system.Solo (s, t) (s', t')) : Waiting c s' ∧ t'.any (inHandshake c) = false :=
  h.inv (P := fun s t => Waiting c s ∧ t.any (inHandshake c) = false) ⟨hw, ho⟩
    fun _ _ _ _ _ _ hp he => waiting_exec hp.1 hp.2 he

theorem fenced_solo (hf : Fenced c s t) (h : system.Solo (s, t) (s', t')) : Fenced c s' t' :=
  h.inv hf fun _ _ _ _ _ _ => fenced_exec

theorem entering_solo (he : Entering c s t) (h : system.Solo (s, t) (s', t')) : Entering c s' t' :=
  h.inv he fun _ _ _ _ _ _ => entering_exec

theorem outside_solo (ho : Outside c s t) (h : system.Solo (s, t) (s', t')) : Outside c s' t' :=
  h.inv ho fun _ _ _ _ _ _ => outside_exec

theorem last_solo (hl : Last t) (h : system.Solo (s, t) (s', t')) : Last t' :=
  h.inv (P := fun _ t => Last t) hl fun _ _ _ _ _ _ => last_exec

end Exec

/-! ## Where handlers are suspended -/

/-- A handler that has returned or is suspended. -/
inductive Rested (s : Shared) : List Instr → Prop where
  | done : Rested s []
  | datagram (v : ℕ) (f : Frame) : Rested s [udpForward v f]
  | connect (c : ConnId) (n : ℕ) : Waiting c s → Rested s [synConnect c n]
  | bindUdp (c : ConnId) : Waiting c s → Rested s [synBindUdp c]
  | forward (c : ConnId) (v : ℕ) (f : Frame) (fs : List Frame) :
      Forwarding c s → Rested s [synForward c v f fs]

/-- A handler that starts or is resumed. -/
structure Ready (t : List Instr) : Prop where
  last : Last t
  tombed : ∀ c s, Tombed c s t
  barred : ∀ c s, ∀ j ∈ t, Barred c s j

section Rest

variable {s s' : Shared} {t t' : List Instr} {c : ConnId}

theorem ready_singleton {i : Instr} (hr : ∀ c, removes c i = false) (hb : ∀ c s, Barred c s i) :
    Ready [i] := by
  refine ⟨rfl, fun c s hany => ?_, fun c s j hj => ?_⟩
  · rw [List.any_cons, hr c] at hany
    cases hany
  · obtain rfl := List.mem_singleton.mp hj
    exact hb c s

theorem spawn_ready (h : Spawn s t) : Ready t := by
  cases h with
  | unsent v _ =>
    refine ⟨rfl, fun c u hany => .inr ?_, by simp [Barred]⟩
    obtain rfl : (s.heap v).connId = c := by simpa [removes] using hany
    simp
  | idle c' v _ =>
    refine ⟨rfl, fun c u hany => .inr ?_, by simp [Barred]⟩
    obtain rfl : c' = c := by simpa [removes] using hany
    simp
  | eofUnsent v _ => exact ⟨rfl, by simp [Tombed, removes], by simp [Barred]⟩
  | _ => exact ready_singleton (fun _ => rfl) fun _ _ => trivial

theorem spawn_outside (h : Spawn s t) (c : ConnId) : t.any (inHandshake c) = false := by
  cases h <;> rfl

theorem spawn_starts (h : Spawn s t) :
    (∃ f, t = [dispatch f] ∧ f.connId = c ∧ f.has flagSyn = true) ∨ t.any (starts c) = false := by
  cases h with
  | frame f =>
    by_cases hf : f.connId = c ∧ f.has flagSyn = true
    · exact .inl ⟨f, rfl, hf⟩
    · exact .inr (by simpa [starts] using hf)
  | _ => exact .inr rfl

theorem rested_ready (h : Rested s t) : Ready t := by
  cases h with
  | done => exact ⟨rfl, by simp [Tombed], by simp⟩
  | _ => exact ready_singleton (fun _ => rfl) fun _ _ => trivial

theorem rested_starts (h : Rested s t) : t.any (starts c) = false := by
  cases h <;> rfl

/-- A suspended SYN handler is suspended before it registers the conn id, or after it removed the entry. -/
theorem rested_held (h : Rested s t) (ht : t.any (inHandshake c) = true) : Waiting c s ∨ Forwarding c s := by
  cases h with
  | done => cases ht
  | datagram v f => cases ht
  | connect c' n hw =>
    obtain rfl : c' = c := by simpa [inHandshake] using ht
    exact .inl hw
  | bindUdp c' hw =>
    obtain rfl : c' = c := by simpa [inHandshake] using ht
    exact .inl hw
  | forward c' v f fs hf =>
    obtain rfl : c' = c := by simpa [inHandshake] using ht
    exact .inr hf

theorem shake_singleton {i : Instr} (hi : inHandshake c i = true) (hside : synSide c i = true)
    (hh : (s.handshaking c).isSome) (hr : removes c i = false)
    (hp : s.pending.get c = none ∨ clears c i = true)
    (ho : Shown c s [i] ∨ opensConn c i = true) (hc : opensConn c i = true → s.conns c = none) :
    Shake c s [i] := by
  refine ⟨rfl, by simpa using hside, by simp [hi, hh], by simpa using hp, by simpa using ho,
    fun hany => ?_, by simpa using hc⟩
  rw [List.any_cons, hr] at hany
  cases hany

theorem rested_shake (h : Rested s t) (ht : t.any (inHandshake c) = true) : Shake c s t := by
  cases h with
  | done => cases ht
  | datagram v f => cases ht
  | connect c' n hw =>
    have hc : c' = c := by simpa [inHandshake] using ht
    subst hc
    exact shake_singleton (decide_eq_true rfl) (decide_eq_true rfl) hw.handshaking rfl
      (.inr (decide_eq_true rfl)) (.inr (decide_eq_true rfl)) fun _ => hw.conns
  | bindUdp c' hw =>
    have hc : c' = c := by simpa [inHandshake] using ht
    subst hc
    exact shake_singleton (decide_eq_true rfl) (decide_eq_true rfl) hw.handshaking rfl
      (.inr (decide_eq_true rfl)) (.inr (decide_eq_true rfl)) fun _ => hw.conns
  | forward c' v f fs hf =>
    have hc : c' = c := by simpa [inHandshake] using ht
    subst hc
    refine shake_singleton (decide_eq_true rfl) (decide_eq_true rfl) hf.handshaking rfl
      (.inl hf.pending) (.inl ?_) fun ho => by cases ho
    exact hf.shown.imp_right .inl

/-- Where the SYN handler comes to rest. -/
theorem shake_rests (h : Shake c s t) (hr : rests t = true) (ht : t.any (inHandshake c) = true) :
    Rested s t := by
  have hh : (s.handshaking c).isSome := by
    have hcount := h.handshaking
    cases hs : s.handshaking c with
    | some n => rfl
    | none =>
      rw [hs] at hcount
      cases ht.symm.trans (countP_eq_zero_iff_any.mp hcount)
  rcases rests_singleton hr h.last with rfl | ⟨i, -, rfl⟩
  · exact .done
  · cases i with
    | synConnect c' n =>
      obtain rfl : c' = c := by simpa [inHandshake] using ht
      exact .connect c' n ⟨hh, h.conns (by simp [opensConn])⟩
    | synBindUdp c' =>
      obtain rfl : c' = c := by simpa [inHandshake] using ht
      exact .bindUdp c' ⟨hh, h.conns (by simp [opensConn])⟩
    | synForward c' v f fs =>
      obtain rfl : c' = c := by simpa [inHandshake] using ht
      refine .forward c' v f fs ⟨hh, h.pending.resolve_right (by simp [clears]), ?_⟩
      rcases h.shown.resolve_right (by simp [opensConn]) with hc | hc | hc
      · exact .inl hc
      · exact .inr hc
      · cases List.mem_singleton.mp hc
    | udpForward v f => exact .datagram v f
    | _ => cases hr

/-- What the SYN handler leaves behind. -/
theorem shake_returns (h : Shake c s []) : s.handshaking c = none ∧ s.pending.get c = none ∧
    ((s.conns c).isSome ∨ (s.closed c).isSome) := by
  refine ⟨?_, h.pending.resolve_right (by simp), ?_⟩
  · have hcount := h.handshaking
    cases hs : s.handshaking c with
    | none => rfl
    | some n =>
      rw [hs] at hcount
      cases hcount
  · rcases h.shown.resolve_right (by simp) with hc | hc | hc
    · exact .inl hc
    · exact .inr hc
    · cases hc

end Rest

/-! ## The invariant of the runs -/

namespace Atomic

/-- Every suspended handler is at one of the places where handlers are suspended, and no conn id has two
suspended SYN handlers. -/
structure Inv (x : Atomic) : Prop where
  rested : ∀ t ∈ x.suspended, Rested x.shared t
  once : ∀ c, x.suspended.countP (fun t => t.any (inHandshake c)) ≤ 1

variable {x : Atomic} {t t' : List Instr} {others : List (List Instr)} {s s' : Shared} {c : ConnId}

theorem Turn.mem (h : Turn x t others) {u : List Instr} (hu : u ∈ others) : u ∈ x.suspended := by
  cases h with
  | start t _ => exact hu
  | resume l r t hx =>
    rw [hx]
    rcases List.mem_append.mp hu with hu | hu
    · exact List.mem_append_left _ hu
    · exact List.mem_append_right _ (List.mem_cons_of_mem _ hu)

theorem Turn.ready (h : Turn x t others) (hx : Inv x) : Ready t := by
  cases h with
  | start t hs => exact spawn_ready hs
  | resume l r t ht => exact rested_ready (hx.rested t (by simp [ht]))

theorem not_held_iff : ¬ Held c others ↔ others.countP (fun t => t.any (inHandshake c)) = 0 := by
  rw [List.countP_eq_zero]
  exact ⟨fun h u hu hany => h ⟨u, hu, hany⟩, fun h ⟨u, hu, hany⟩ => h u hu hany⟩

/-- The handlers that wait while one runs, and the running one if it is a SYN handler, are suspended SYN
handlers. -/
theorem Turn.count (h : Turn x t others) (hx : Inv x) (c : ConnId) :
    others.countP (fun t => t.any (inHandshake c)) + (t.any (inHandshake c)).toNat ≤ 1 := by
  have honce := hx.once c
  cases h with
  | start t hs =>
    rw [spawn_outside hs c]
    exact honce
  | resume l r t ht =>
    rw [ht, List.countP_append, List.countP_cons] at honce
    rw [List.countP_append]
    cases hany : t.any (inHandshake c) with
    | true =>
      rw [hany, if_pos rfl] at honce
      rw [Bool.toNat_true]
      omega
    | false =>
      rw [Bool.toNat_false]
      omega

/-- Beside a suspended SYN handler of `c` no other one runs. -/
theorem Turn.outside_of_held (h : Turn x t others) (hx : Inv x) (hh : Held c others) :
    t.any (inHandshake c) = false := by
  have hcount := h.count hx c
  cases hany : t.any (inHandshake c) with
  | false => rfl
  | true =>
    rw [hany, Bool.toNat_true] at hcount
    exact absurd hh (not_held_iff.mpr (by omega))

theorem held_rested (h : Turn x t others) (hx : Inv x) (hh : Held c others) :
    Waiting c x.shared ∨ Forwarding c x.shared := by
  obtain ⟨u, hu, hany⟩ := hh
  exact rested_held (hx.rested u (h.mem hu)) hany

theorem forwarding_fenced (h : Turn x t others) (hx : Inv x) (hf : Forwarding c x.shared)
    (ho : t.any (inHandshake c) = false) : Fenced c x.shared t := by
  have hr := h.ready hx
  exact ⟨hf.handshaking, hf.pending, hf.shown.imp_right .inl, hr.tombed c _, hr.last, ho, hr.barred c _⟩

theorem shaking_entering (h : Turn x t others) (hx : Inv x) (ht : Shaking c x.shared t) :
    Entering c x.shared t := by
  rcases ht with ⟨f, rfl, hf, hsyn, hc, hh⟩ | hany
  · exact .dispatch f hf hsyn hc hh
  · cases h with
    | start t hs => cases hany.symm.trans (spawn_outside hs c)
    | resume l r t ht => exact .shake t (rested_shake (hx.rested t (by simp [ht])) hany)

theorem not_shaking_outside (h : Turn x t others) (hx : Inv x) (ht : ¬ Shaking c x.shared t) :
    Outside c x.shared t := by
  have hany : t.any (inHandshake c) = false := by
    by_contra hany
    exact ht (.inr (by simpa using hany))
  cases h with
  | start t hs =>
    rcases spawn_starts (c := c) hs with ⟨f, rfl, hf, hsyn⟩ | hst
    · refine .dispatch f hf hsyn ?_
      by_contra hin
      rw [not_or, Option.not_isSome_iff_eq_none, Option.not_isSome_iff_eq_none] at hin
      exact ht (.inl ⟨f, rfl, hf, hsyn, hin⟩)
    · exact .apart t hany hst
  | resume l r t hr => exact .apart t hany (rested_starts (hx.rested t (by simp [hr])))

/-- A SYN handler that gets past `handshaking.insert` finds no other one suspended. -/
theorem shaking_not_held (h : Turn x t others) (hx : Inv x) (ht : Shaking c x.shared t) :
    ¬ Held c others := by
  intro hh
  rcases ht with ⟨f, rfl, hf, hsyn, hc, hn⟩ | hany
  · have hflag : (x.shared.handshaking c).isSome := by
      rcases held_rested h hx hh with hw | hw
      · exact hw.handshaking
      · exact hw.handshaking
    rw [hn] at hflag
    cases hflag
  · cases hany.symm.trans (h.outside_of_held hx hh)

/-- Whoever is inside the handshake is a SYN handler that got past `handshaking.insert`. -/
theorem shaking_of_any (h : Turn x t others) (hx : Inv x) (hs : system.Solo (x.shared, t) (s, t'))
    (hany : t'.any (inHandshake c) = true) : Shaking c x.shared t := by
  by_contra ht
  cases hany.symm.trans (outside_solo (not_shaking_outside h hx ht) hs).any_eq_false

/-- A suspended handler finds its state as it left it. -/
theorem rested_solo (h : Turn x t others) (hx : Inv x) (hs : Call x.shared t s' t') {u : List Instr}
    (hu : u ∈ others) : Rested s' u := by
  have hr := hx.rested u (h.mem hu)
  have hlast := last_solo (h.ready hx).last hs.1
  cases hr with
  | done => exact .done
  | datagram v f => exact .datagram v f
  | connect c n hw =>
    have ho : t.any (inHandshake c) = false := h.outside_of_held hx ⟨_, hu, by simp [inHandshake]⟩
    exact .connect c n (waiting_solo hw ho hs.1).1
  | bindUdp c hw =>
    have ho : t.any (inHandshake c) = false := h.outside_of_held hx ⟨_, hu, by simp [inHandshake]⟩
    exact .bindUdp c (waiting_solo hw ho hs.1).1
  | forward c v f fs hf =>
    have ho : t.any (inHandshake c) = false := h.outside_of_held hx ⟨_, hu, by simp [inHandshake]⟩
    have hfence := fenced_solo (forwarding_fenced h hx hf ho) hs.1
    refine .forward c v f fs ⟨hfence.handshaking, hfence.pending, ?_⟩
    rcases hfence.shown with hc | hc | hc
    · exact .inl hc
    · exact .inr hc
    · rcases rests_singleton hs.2 hlast with rfl | ⟨i, hi, rfl⟩
      · cases hc
      · obtain rfl := List.mem_singleton.mp hc
        cases hi

/-- The handler that ran is suspended where handlers are suspended. -/
theorem call_rested (h : Turn x t others) (hx : Inv x) (hs : Call x.shared t s' t') : Rested s' t' := by
  have hshake : ∀ c, t'.any (inHandshake c) = true → Rested s' t' := by
    intro c hany
    have ht := shaking_of_any h hx hs.1 hany
    have he := entering_solo (shaking_entering h hx ht) hs.1
    exact shake_rests (he.shake_of_rests hs.2) hs.2 hany
  rcases rests_singleton hs.2 (last_solo (h.ready hx).last hs.1) with rfl | ⟨i, -, rfl⟩
  · exact .done
  · have hr := hs.2
    cases i with
    | synConnect c n => exact hshake c (by simp [inHandshake])
    | synBindUdp c => exact hshake c (by simp [inHandshake])
    | synForward c v f fs => exact hshake c (by simp [inHandshake])
    | udpForward v f => exact .datagram v f
    | _ => cases hr

theorem inv_call (h : Turn x t others) (hx : Inv x) (hs : Call x.shared t s' t') :
    Inv ⟨s', t' :: others⟩ := by
  refine ⟨fun u hu => ?_, fun c => ?_⟩
  · rcases List.mem_cons.mp hu with rfl | hu
    · exact call_rested h hx hs
    · exact rested_solo h hx hs hu
  · have hcount := h.count hx c
    show (t' :: others).countP (fun t => t.any (inHandshake c)) ≤ 1
    rw [List.countP_cons]
    cases hany : t'.any (inHandshake c) with
    | false =>
      rw [if_neg (by simp)]
      omega
    | true =>
      have hnone := not_held_iff.mp (shaking_not_held h hx (shaking_of_any h hx hs.1 hany))
      rw [if_pos rfl]
      omega

theorem env_conns (h : Env s s') : s'.conns = s.conns := by
  cases h <;> rfl

theorem env_pending (h : Env s s') : s'.pending = s.pending := by
  cases h <;> rfl

theorem inv_env (hx : Inv x) (h : Env x.shared s') (hspare : ∀ c, Held c x.suspended →
    s'.closed c = x.shared.closed c ∧ s'.handshaking c = x.shared.handshaking c) :
    Inv ⟨s', x.suspended⟩ := by
  refine ⟨fun u hu => ?_, hx.once⟩
  have hwait : ∀ c, u.any (inHandshake c) = true → Waiting c x.shared → Waiting c s' := by
    intro c hany hw
    have hh := (hspare c ⟨u, hu, hany⟩).2
    exact ⟨by rw [hh]; exact hw.handshaking, by rw [env_conns h]; exact hw.conns⟩
  cases hx.rested u hu with
  | done => exact .done
  | datagram v f => exact .datagram v f
  | connect c n hw => exact .connect c n (hwait c (by simp [inHandshake]) hw)
  | bindUdp c hw => exact .bindUdp c (hwait c (by simp [inHandshake]) hw)
  | forward c v f fs hf =>
    obtain ⟨hcl, hh⟩ := hspare c ⟨_, hu, by simp [inHandshake]⟩
    refine .forward c v f fs ⟨?_, ?_, ?_⟩
    · rw [hh]
      exact hf.handshaking
    · rw [env_pending h]
      exact hf.pending
    · rw [env_conns h, hcl]
      exact hf.shown

theorem inv_step {y : Atomic} (hx : Inv x) (h : Step x y) : Inv y := by
  cases h with
  | call t others s' t' hturn hcall => exact inv_call hturn hx hcall
  | env s' henv hspare => exact inv_env hx henv hspare

theorem inv_reachable {window : ℕ} (h : Reachable window x) : Inv x := by
  induction h with
  | refl => exact ⟨by simp, fun c => Nat.zero_le _⟩
  | tail _ hst ih => exact inv_step ih hst

end Atomic

/-- **SYN handshakes are exclusive, and every exit cleans up.**  No conn id has two suspended SYN handlers.
While a handler runs: if it gets past `handshaking.insert`, no other handler of the conn id is behind it,
and only then is it ever inside the handshake; it registers a connection where there is none; and where it
returns the conn id is neither handshaking nor pending, and is registered or tombstoned. -/
theorem handshakes_exclusive {window : ℕ} {x : Atomic} (h : Atomic.Reachable window x) (c : ConnId) :
    x.suspended.countP (fun t => t.any (inHandshake c)) ≤ 1 ∧
      ∀ t others, Atomic.Turn x t others → ∀ s t', system.Solo (x.shared, t) (s, t') →
        (Shaking c x.shared t → ¬ Atomic.Held c others) ∧
        (t'.any (inHandshake c) = true → Shaking c x.shared t) ∧
        (∀ u k, t' = synInsert c u :: k → s.conns c = none) ∧
        (Shaking c x.shared t → t' = [] → s.handshaking c = none ∧ s.pending.get c = none ∧
          ((s.conns c).isSome ∨ (s.closed c).isSome)) := by
  have hx := Atomic.inv_reachable h
  refine ⟨hx.once c, fun t others hturn s t' hs => ⟨fun ht => ?_, fun hany => ?_, ?_, ?_⟩⟩
  · exact Atomic.shaking_not_held hturn hx ht
  · exact Atomic.shaking_of_any hturn hx hs hany
  · rintro u k rfl
    have ht := Atomic.shaking_of_any (c := c) hturn hx hs (by simp [inHandshake])
    cases entering_solo (Atomic.shaking_entering hturn hx ht) hs with
    | shake t hsh => exact hsh.conns (by simp [opensConn])
  · rintro ht rfl
    exact shake_returns ((entering_solo (Atomic.shaking_entering hturn hx ht) hs).shake_of_rests rfl)

/-- An RST comes in while the egress connect is under way; the SYN handler is cancelled. -/
theorem handshakes_exclusive_cancelled : ∃ x s', Atomic.Reachable maxReorderBytes x ∧
    Atomic.Turn x [synConnect 7 0] [[]] ∧ system.Solo (x.shared, [synConnect 7 0]) (s', []) ∧
    s'.handshaking 7 = none ∧ s'.pending.get 7 = none ∧ ((s'.conns 7).isSome ∨ (s'.closed 7).isSome) := by
  have hrun : ((system.soloRun (List.replicate 5 .go) (.init maxReorderBytes, [dispatch (synTcp 7)])).bind
      fun a => (system.soloRun (List.replicate 4 .go) (a.1, [dispatch (.rst 7)])).bind
      fun b => (system.soloRun (.cancelled :: List.replicate 4 .go) (b.1, a.2)).map
      fun e => (a, b, e)).any
      (fun r => decide (r.1.2 = [synConnect 7 0] ∧ r.2.1.2 = [] ∧ r.2.2.2 = [])) = true := by decide
  obtain ⟨⟨⟨s₁, t₁⟩, ⟨s₂, t₂⟩, ⟨s₃, t₃⟩⟩, hs, hp⟩ := (Option.any_eq_true _ _).mp hrun
  obtain ⟨rfl, rfl, rfl⟩ : t₁ = [synConnect 7 0] ∧ t₂ = [] ∧ t₃ = [] := of_decide_eq_true hp
  simp only [Option.bind_eq_some_iff, Option.map_eq_some_iff, Prod.mk.injEq] at hs
  obtain ⟨_, hsyn, _, hrst, _, hcancel, rfl, rfl, rfl⟩ := hs
  have hreach : Atomic.Reachable maxReorderBytes ⟨s₂, [[], [synConnect 7 0]]⟩ :=
    .tail (.tail .refl (.call _ _ _ _ (.start _ (.frame _)) ⟨soloRun_solo hsyn, rfl⟩))
      (.call _ _ _ _ (.start _ (.frame _)) ⟨soloRun_solo hrst, rfl⟩)
  have hturn : Atomic.Turn ⟨s₂, [[], [synConnect 7 0]]⟩ [synConnect 7 0] [[]] := .resume [[]] [] _ rfl
  have hsolo : system.Solo (s₂, [synConnect 7 0]) (s₃, []) := soloRun_solo hcancel
  obtain ⟨-, -, -, hreturn⟩ := (handshakes_exclusive hreach 7).2 _ _ hturn _ _ hsolo
  exact ⟨_, s₃, hreach, hturn, hsolo, hreturn (.inr rfl) rfl⟩

end RoundRobin.Reassembler
