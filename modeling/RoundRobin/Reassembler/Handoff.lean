import RoundRobin.Reassembler.Handoff.Places

/-!
# RoundRobin.Reassembler.Handoff — no frame is lost in the handoff

Once all handlers of a run have finished, every DATA and FIN frame that arrived is settled, provided
every step met `handover`.  Without it a FIN can be lost.
-/

namespace RoundRobin.Reassembler

open Instr TaskSystem

/-! ## Whole runs -/

/-- The half-close of `c` has started, or is ahead. -/
def FinStarted (c : ConnId) (x : Config Shared Instr) : Prop :=
  (∃ v, x.shared.conns c = some v ∧ (x.shared.heap v).finReceived = true) ∨
    ∃ j, startsFin j = true ∧ Ahead x j

/-- All arrived copies of `f` are accounted for. -/
def Kept (c : ConnId) (f : Frame) (x : Config Shared Instr) : Prop :=
  x.shared.arrived.count f ≤ weight (carries f) x.tasks + (inEntry c f x.shared + inConn c f x.shared)

/-- A conn id that is not doomed. -/
structure Live (N : ℕ) (c : ConnId) (x : Config Shared Instr) : Prop where
  sound : Sound N c x.shared
  locals : ∀ t ∈ x.tasks, ∀ i ∈ t, Local N c x.shared i
  single : weight opening x.tasks + (x.shared.conns c).isSome.toNat ≤ 1
  undrained : (x.shared.conns c).isSome → (x.shared.pending.get c).isSome →
    ∃ v, Ahead x (synDrain c v)
  data : ∀ f, isData f = true → f.connId = c → Kept c f x
  fin : FinStarted c x ∨ ∀ f, isFin f = true → f.connId = c → Kept c f x

theorem doomed_of_dooms {c : ConnId} {s' : Shared} {l r : List (List Instr)} {k is : List Instr}
    (h : Dooms c is) : Doomed c ⟨s', l ++ (is ++ k) :: r⟩ :=
  ⟨.inr (ahead_new h.1), .inr (ahead_new h.2)⟩

section Step

variable {N : ℕ} {c : ConnId} {s s' : Shared} {l r : List (List Instr)} {i : Instr}
  {k is : List Instr} {ch : Choice} {f : Frame}

theorem Passed.kept (h : Passed c f s i s' is) (hk : Kept c f ⟨s, l ++ (i :: k) :: r⟩) :
    Kept c f ⟨s', l ++ (is ++ k) :: r⟩ := by
  simp only [Kept, Passed, weight_append, weight_cons, List.map_cons, List.map_append, List.sum_cons,
    List.sum_append] at h hk ⊢
  omega

theorem finStarted_task (hy : Live N c ⟨s, l ++ (i :: k) :: r⟩) (he : exec s i ch = some (s', is))
    (hkeep : Keeps N c s s') (hnone : opening i = 1 → s.conns c = none)
    (hf : FinStarted c ⟨s, l ++ (i :: k) :: r⟩) :
    Dooms c is ∨ FinStarted c ⟨s', l ++ (is ++ k) :: r⟩ := by
  have hi : Local N c s i := hy.locals (i :: k) (by simp) i (by simp)
  rcases hf with ⟨v, hv, hfin⟩ | ⟨j, hj, ha⟩
  · refine .inr (.inl ⟨v, hkeep.conns v hv, exec_finReceived he hi ?_ hfin⟩)
    rintro c' u rfl
    simp [hnone rfl] at hv
  · rcases ahead_task (u := s') (n := is) ha with rfl | ha
    · rcases exec_startsFin he hi hj with hd | hs | ⟨j', hj', hs⟩
      · exact .inl hd
      · exact .inr (.inl hs)
      · exact .inr (.inr ⟨j', hs, ahead_new hj'⟩)
    · exact .inr (.inr ⟨j, hj, ha⟩)

theorem live_task (hy : Live N c ⟨s, l ++ (i :: k) :: r⟩) (he : exec s i ch = some (s', is))
    (hok : handover s (l ++ r) (i :: k) ch = true) :
    Doomed c ⟨s', l ++ (is ++ k) :: r⟩ ∨ Live N c ⟨s', l ++ (is ++ k) :: r⟩ := by
  have hi : Local N c s i := hy.locals (i :: k) (by simp) i (by simp)
  have hsingle := hy.single
  simp only [weight_append, weight_cons, List.map_cons, List.sum_cons] at hsingle
  have hnone : opening i = 1 → s.conns c = none := by
    intro ho
    cases hc : s.conns c with
    | none => rfl
    | some v =>
      simp only [ho, hc, Option.isSome_some, Bool.toNat_true] at hsingle
      omega
  have hnew : ∀ u, i = synInsert c u → s.conns c = none := by
    rintro u rfl
    exact hnone rfl
  by_cases hd : Dooms c is
  · exact .inl (doomed_of_dooms hd)
  obtain ⟨hkeep, hsound⟩ := (exec_effect he hy.sound hi hnew).resolve_left hd
  refine .inr ⟨hsound, ?_, ?_, ?_, ?_, ?_⟩
  · intro t ht j hj
    rcases List.mem_append.mp ht with hl | hcons
    · exact hkeep.local (hy.locals t (by simp [hl]) j hj)
    · rcases List.mem_cons.mp hcons with rfl | hr
      · rcases List.mem_append.mp hj with hj | hj
        · exact (exec_locals he hy.sound hi hkeep).resolve_left hd j hj
        · exact hkeep.local (hy.locals (i :: k) (by simp) j (by simp [hj]))
      · exact hkeep.local (hy.locals t (by simp [hr]) j hj)
  · have := exec_opening he hi
    simp only [weight_append, weight_cons, List.map_append, List.sum_append]
    omega
  · intro hc hp
    rcases exec_undrained he hy.sound hi hok hnone hc hp with ⟨hc0, hp0, hne⟩ | ⟨v, hv⟩ |
      ⟨t, ht, v, hv⟩
    · obtain ⟨v, ha⟩ := hy.undrained hc0 hp0
      rcases ahead_task (u := s') (n := is) ha with h | ha
      · exact absurd h (hne v)
      · exact ⟨v, ha⟩
    · exact ⟨v, ahead_new hv⟩
    · refine ⟨v, t, ?_, hv⟩
      rcases List.mem_append.mp ht with ht | ht
      · simp [ht]
      · simp [ht]
  · intro f hf hfc
    rcases exec_passed he hy.sound hi hok hnew (.inl hf) with hx | ⟨hx, -⟩ | hx
    · exact absurd hx hd
    · rw [isData_of_isFin hx] at hf
      cases hf
    · exact hx.kept (hy.data f hf hfc)
  · rcases hy.fin with hfs | hkept
    · exact .inl ((finStarted_task hy he hkeep hnone hfs).resolve_left hd)
    · by_cases hany : is.any startsFin = true
      · obtain ⟨j, hj, hs⟩ := List.any_eq_true.mp hany
        exact .inl (.inr ⟨j, hs, ahead_new hj⟩)
      · refine .inr fun f hf hfc => ?_
        rcases exec_passed he hy.sound hi hok hnew (.inr hf) with hx | ⟨-, hx⟩ | hx
        · exact absurd hx hd
        · exact absurd hx hany
        · exact hx.kept (hkept f hf hfc)

theorem live_spawn {ts : List (List Instr)} {t : List Instr} (hy : Live N c ⟨s, ts⟩)
    (h : HandoffSpawn c t) : Live N c ⟨s, ts ++ [t]⟩ := by
  obtain ⟨f, hf, hkind⟩ := h
  have hsyn : f.has flagSyn = false := flagSyn_of_kind hkind
  have hkept : ∀ g, Kept c g ⟨s, ts⟩ → Kept c g ⟨s, ts ++ [[dispatch f]]⟩ := by
    intro g hg
    simpa [Kept, carries] using hg
  refine ⟨hy.sound, ?_, ?_, ?_, fun g hg hgc => hkept g (hy.data g hg hgc), ?_⟩
  · intro t ht j hj
    rcases List.mem_append.mp ht with ht | ht
    · exact hy.locals t ht j hj
    · obtain rfl := List.mem_singleton.mp ht
      obtain rfl := List.mem_singleton.mp hj
      exact ⟨hf, .inr hkind⟩
  · simpa [opening, hsyn] using hy.single
  · intro hc hp
    obtain ⟨v, ha⟩ := hy.undrained hc hp
    exact ⟨v, ahead_spawn ha⟩
  · rcases hy.fin with (hfs | ⟨j, hj, ha⟩) | hk
    · exact .inl (.inl hfs)
    · exact .inl (.inr ⟨j, hj, ahead_spawn ha⟩)
    · exact .inr fun g hg hgc => hkept g (hk g hg hgc)

theorem live_of_egress {ts : List (List Instr)} (hy : Live N c ⟨s, ts⟩) (v : ℕ)
    (e : Option (Chan Bytes)) : Live N c ⟨s.setConn v { s.heap v with egress := e }, ts⟩ := by
  have hcalm : Calm s (s.setConn v { s.heap v with egress := e }) := .setConn _ _ rfl rfl
  have hkept : ∀ g, Kept c g ⟨s, ts⟩ → Kept c g ⟨s.setConn v { s.heap v with egress := e }, ts⟩ := by
    intro g hg
    have hin : inConn c g (s.setConn v { s.heap v with egress := e }) = inConn c g s :=
      inConn_setConn_of_pushed rfl
    simp only [Kept, hin]
    exact hg
  refine ⟨hcalm.sound hy.sound, fun t ht j hj => (hcalm.keeps N c).local (hy.locals t ht j hj),
    hy.single, hy.undrained, fun g hg hgc => hkept g (hy.data g hg hgc), ?_⟩
  rcases hy.fin with (⟨w, hw, hfin⟩ | hfs) | hk
  · exact .inl (.inl ⟨w, hw, setConn_finReceived (fun h => h) hfin⟩)
  · exact .inl (.inr hfs)
  · exact .inr fun g hg hgc => hkept g (hk g hg hgc)

theorem live_env {ts : List (List Instr)} (hy : Live N c ⟨s, ts⟩) (h : HandoffEnv s s') :
    Live N c ⟨s', ts⟩ := by
  cases h with
  | tick d =>
    have hcalm : Calm s { s with now := s.now + d } := ⟨rfl, rfl, rfl, rfl, rfl, fun _ => ⟨rfl, rfl⟩⟩
    exact ⟨hcalm.sound hy.sound, fun t ht j hj => (hcalm.keeps N c).local (hy.locals t ht j hj),
      hy.single, hy.undrained, hy.data, hy.fin⟩
  | egressRecv v ch ch' a hv hr => exact live_of_egress hy v _
  | egressClose v ch hv => exact live_of_egress hy v _

end Step

theorem live_step {N : ℕ} {c : ConnId} {y z : Config Shared Instr} (hy : Doomed c y ∨ Live N c y)
    (hs : (handoff c).Step handover y z) : Doomed c z ∨ Live N c z := by
  cases hs with
  | task he hok =>
    rcases hy with hd | hl
    · exact .inl (doomed_task hd he)
    · exact live_task hl he hok
  | spawn h =>
    rcases hy with ⟨hcl, hof⟩ | hl
    · exact .inl ⟨hcl.imp_right ahead_spawn, hof.imp_right ahead_spawn⟩
    · exact .inr (live_spawn hl h)
  | env h =>
    rcases hy with hd | hl
    · exact .inl (by cases h <;> exact hd)
    · exact .inr (live_env hl h)

theorem live_init {c : ConnId} {s : Shared} {syn : Frame} (hs : Unknown c s) (hc : syn.connId = c)
    (hsyn : StreamSyn syn) : Live s.nextNotify c ⟨s, [[dispatch syn]]⟩ := by
  have hkept : ∀ f : Frame, f.connId = c → Kept c f ⟨s, [[dispatch syn]]⟩ := by
    intro f hf
    have hz : s.arrived.count f = 0 := List.count_eq_zero.mpr fun hm => hs.arrived f hm hf
    simp [Kept, hz]
  refine ⟨⟨hs.closed, ?_, fun c' e n _ => hs.cancels c' e n, le_rfl, hs.notified, ?_⟩, ?_, ?_, ?_,
    fun f _ => hkept f, .inr fun f _ => hkept f⟩
  · simp [hs.pending]
  · simp [hs.conns]
  · simp only [List.mem_singleton, forall_eq]
    exact ⟨hc, .inl hsyn⟩
  · simp [opening, hsyn.1, hs.conns]
  · simp [hs.conns]

/-- **No frame is lost between the maps.**  One SYN handler and any number of DATA and FIN handlers of
a conn id nothing was known about: in every run within `handover`, once all have finished, every frame
that arrived is settled. -/
theorem frames_settled {c : ConnId} {s : Shared} {syn f : Frame} {x : Config Shared Instr}
    (hs : Unknown c s) (hc : syn.connId = c) (hsyn : StreamSyn syn)
    (h : (handoff c).Runs handover ⟨s, [[dispatch syn]]⟩ x) (hq : Quiet x)
    (hfc : f.connId = c) (hkind : isData f = true ∨ isFin f = true) (hf : f ∈ x.shared.arrived) :
    Settled x.shared f := by
  subst hfc
  have hinv : Doomed f.connId x ∨ Live s.nextNotify f.connId x :=
    Runs.inv (P := fun x => Doomed f.connId x ∨ Live s.nextNotify f.connId x) h
      (.inr (live_init hs hc hsyn)) fun y z => live_step
  rcases hinv with ⟨hcl, hof⟩ | hl
  · exact .inl ⟨hcl.resolve_right (hq.not_ahead _), hof.resolve_right (hq.not_ahead _)⟩
  have hpos : 0 < x.shared.arrived.count f := List.count_pos_iff.mpr hf
  cases hconn : x.shared.conns f.connId with
  | some v =>
    have hp : x.shared.pending.get f.connId = none := by
      cases hp : x.shared.pending.get f.connId with
      | none => rfl
      | some e =>
        obtain ⟨w, ha⟩ := hl.undrained (by simp [hconn]) (by simp [hp])
        exact absurd ha (hq.not_ahead _)
    refine .inr (.inl ⟨v, hconn, ?_, ?_⟩)
    · intro hd
      simpa [Kept, weight_quiet _ hq, inEntry, inConn, hp, hconn, hd] using hl.data f hd rfl
    · intro hfi
      rcases hl.fin with (⟨w, hw, hfin⟩ | ⟨j, -, ha⟩) | hk
      · obtain rfl : v = w := by simpa [hconn] using hw
        exact hfin
      · exact absurd ha (hq.not_ahead j)
      · have hnd : isData f = false := isData_of_isFin hfi
        have hle := hk f hfi rfl
        simp only [Kept, weight_quiet _ hq, inEntry, inConn, hp, hnd, Option.elim_none] at hle
        simp only [Bool.false_eq_true, if_false] at hle
        omega
  | none =>
    have hk : Kept f.connId f x := by
      rcases hkind with hd | hfi
      · exact hl.data f hd rfl
      · rcases hl.fin with (⟨w, hw, -⟩ | ⟨j, -, ha⟩) | hk
        · simp [hconn] at hw
        · exact absurd ha (hq.not_ahead j)
        · exact hk f hfi rfl
    have hle : x.shared.arrived.count f ≤ inEntry f.connId f x.shared := by
      simpa [Kept, weight_quiet _ hq, inConn, hconn] using hk
    cases hp : x.shared.pending.get f.connId with
    | none =>
      simp only [inEntry, hp, Option.elim_none] at hle
      omega
    | some e => exact .inr (.inr ⟨hconn, e, hp, by simpa [inEntry, hp] using hle⟩)

/-! ## Runs -/

theorem synTcp_stream (c : ConnId) : StreamSyn (synTcp c) := by
  have hflag : (flagSyn &&& flagSyn != 0) = true := by decide
  have hdec : SynTarget.decode [protoTcp, 0, 1, 97, 0, 80] = .ok ⟨protoTcp, "a", 80⟩ := by decide
  refine ⟨hflag, fun t ht => ?_⟩
  obtain rfl : _ = t := Except.ok.inj (hdec.symm.trans ht)
  decide

theorem init_unknown (c : ConnId) (window : ℕ) : Unknown c (.init window) where
  conns := rfl
  closed := rfl
  pending := rfl
  arrived := by simp [Shared.init]
  cancels := by simp [Shared.init]
  notified := by simp [Shared.init]

/-- A move that steps a task or starts the handler of a DATA or FIN frame of `c`. -/
def isHandoffMove (c : ConnId) : Move Shared Instr Choice → Bool
  | .step _ _ => true
  | .start [dispatch f] => f.connId = c && (isData f || isFin f)
  | _ => false

theorem allowed_of_isHandoffMove {c : ConnId} {ms : List (Move Shared Instr Choice)}
    (h : ms.all (isHandoffMove c) = true) : ∀ m ∈ ms, (handoff c).Allowed m := by
  intro m hm
  have hf := List.all_eq_true.mp h m hm
  unfold isHandoffMove at hf
  split at hf
  · trivial
  · rename_i f
    simp only [Bool.and_eq_true, Bool.or_eq_true, decide_eq_true_eq] at hf
    exact fun _ => .frame f hf.1 hf.2
  · cases hf

/-- DATA before the SYN, a FIN while connecting, and the replay of both. -/
def replaySchedule : List (Move Shared Instr Choice) :=
  [Move.start [dispatch (.data 7 1 [1])]] ++ List.replicate 8 (Move.step 1 Choice.go) ++
    List.replicate 5 (Move.step 0 Choice.go) ++ [Move.start [dispatch (.fin 7 2)]] ++
    List.replicate 5 (Move.step 2 Choice.go) ++ [Move.step 0 Choice.connected] ++
    List.replicate 11 (Move.step 0 Choice.go)

theorem frames_settled_replay : ∃ x,
    (handoff 7).Runs handover ⟨.init maxReorderBytes, [[dispatch (synTcp 7)]]⟩ x ∧ Quiet x ∧
    Frame.data 7 1 [1] ∈ x.shared.arrived ∧ Settled x.shared (.data 7 1 [1]) ∧
    x.shared.closed 7 = none := by
  obtain ⟨x, hx, hp⟩ := moves_exists (M := handoff 7) (g := handover)
    (x := ⟨.init maxReorderBytes, [[dispatch (synTcp 7)]]⟩)
    (p := fun x => decide (Quiet x ∧ Frame.data 7 1 [1] ∈ x.shared.arrived ∧
      x.shared.closed 7 = none))
    (m := replaySchedule) (allowed_of_isHandoffMove (by decide)) (by decide)
  obtain ⟨hq, ha, hcl⟩ := of_decide_eq_true hp
  exact ⟨x, hx, hq, ha, frames_settled (init_unknown 7 _) rfl (synTcp_stream 7) hx hq rfl
    (.inl (by decide)) ha, hcl⟩

/-- The FIN handler sees the reserved entry; the connection is established and the entry drained before
it pushes. -/
def lostFinSchedule : List (Move Shared Instr Choice) :=
  List.replicate 5 (Move.step 0 Choice.go) ++ [Move.start [dispatch (.fin 7 1)]] ++
    List.replicate 4 (Move.step 1 Choice.go) ++ [Move.step 0 Choice.connected] ++
    List.replicate 6 (Move.step 0 Choice.go) ++ [Move.step 1 Choice.go]

/-- The FIN is dropped: the connection is established and was never told. -/
theorem fin_lost : ∃ x,
    (handoff 7).Runs free ⟨.init maxReorderBytes, [[dispatch (synTcp 7)]]⟩ x ∧ Quiet x ∧
    Frame.fin 7 1 ∈ x.shared.arrived ∧ ¬ Settled x.shared (.fin 7 1) := by
  obtain ⟨x, hx, hp⟩ := moves_exists (M := handoff 7) (g := free)
    (x := ⟨.init maxReorderBytes, [[dispatch (synTcp 7)]]⟩)
    (p := fun x => decide (Quiet x ∧ Frame.fin 7 1 ∈ x.shared.arrived ∧ x.shared.closed 7 = none ∧
      (x.shared.conns 7).any fun v => !(x.shared.heap v).finReceived))
    (m := lostFinSchedule) (allowed_of_isHandoffMove (by decide)) (by decide)
  obtain ⟨hq, ha, hcl, hfin⟩ := of_decide_eq_true hp
  obtain ⟨v, hv, hnf⟩ := (Option.any_eq_true _ _).mp hfin
  refine ⟨x, hx, hq, ha, ?_⟩
  rintro (⟨hc, -⟩ | ⟨w, hw, -, hf⟩ | ⟨hn, -⟩)
  · have hcl' : x.shared.closed (Frame.fin 7 1).connId = none := hcl
    simp [hcl'] at hc
  · obtain rfl : v = w := Option.some.inj (hv.symm.trans hw)
    simp [hf (by decide)] at hnf
  · cases hv.symm.trans hn

end RoundRobin.Reassembler
