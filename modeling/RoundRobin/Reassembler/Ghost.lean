import RoundRobin.Reassembler.Effects

/-!
# RoundRobin.Reassembler.Ghost — registered connections and tombstones

A conn id that is registered in `conns` and tombstoned in `closed` at once is a ghost: the peer was
reset and the egress connection stays.  While handlers are running this happens all the time; what
counts is that somebody is about to unregister it.  `responsible` says who that is: a handler with the
removal ahead of it, or a SYN handler that has not drained its pending entry yet.

The SYN handler looks at the tombstone before it registers the connection and at the entry's
`cancelled` mark when it drains; a reset between the two that finds no entry to mark is lost, and
`tidy` says that this does not happen.
-/

namespace RoundRobin.Reassembler

open Instr TaskSystem

/-- The SYN handler of `c` has registered the connection and has yet to drain. -/
def drains (c : ConnId) : Instr → Bool
  | synDrain c' _ => c' = c
  | _ => false

/-- The task will unregister `c`, or has yet to look at the `cancelled` mark. -/
def responsible (c : ConnId) (t : List Instr) : Bool := t.any (removes c) || t.head?.any (drains c)

/-- A tombstone is set for a registered connection only when somebody is responsible for it, and a SYN
handler that drains a tombstoned conn id finds the entry marked. -/
def tidy : Guard Shared Instr Choice := fun s others t _ =>
  match t with
  | synDrain c _ :: _ => (s.closed c).isNone || (s.pending.get c).any (·.cancelled)
  | closedInsert c :: k => (s.conns c).isNone || responsible c k || others.any (responsible c)
  | _ => true

/-- Registered and tombstoned. -/
def Ghost (s : Shared) (c : ConnId) : Prop := (s.conns c).isSome ∧ (s.closed c).isSome

instance (s : Shared) (c : ConnId) : Decidable (Ghost s c) := inferInstanceAs (Decidable (_ ∧ _))

/-! ## One instruction -/

section Exec

variable {s s' : Shared} {i : Instr} {ch : Choice} {is k : List Instr} {c : ConnId}

theorem responsible_append (h : k.any (removes c) = true) : responsible c (is ++ k) = true := by
  simp [responsible, List.any_append, h]

/-- A responsible task stays responsible until the connection is unregistered. -/
theorem exec_responsible {others : List (List Instr)} (h : exec s i ch = some (s', is))
    (hok : tidy s others (i :: k) ch = true) (hr : responsible c (i :: k) = true)
    (hc : (s'.conns c).isSome) (hcl : (s.closed c).isSome) : responsible c (is ++ k) = true := by
  simp only [responsible, List.any_cons, List.head?_cons, Option.any_some, Bool.or_eq_true] at hr
  rcases hr with (hi | hk) | hd
  · exfalso
    cases i with
    | connsRemove c' =>
      obtain rfl : c' = c := by simpa [removes] using hi
      simp only [exec] at h
      split at h <;> cases h
      · rename_i hn
        simp [hn] at hc
      · simp at hc
    | connsForget c' =>
      obtain rfl : c' = c := by simpa [removes] using hi
      cases h
      simp at hc
    | _ => cases hi
  · exact responsible_append hk
  · cases i with
    | synDrain c' v =>
      obtain rfl : c' = c := by simpa [drains] using hd
      simp only [tidy, Bool.or_eq_true, Option.any_eq_true] at hok
      rcases hok with hn | ⟨e, he, hcan⟩
      · simp [Option.isNone_iff_eq_none.mp hn] at hcl
      · simp only [exec, he] at h
        cases h
        simp [responsible, afterDrain, hcan, drainCancelled, removes]
    | _ => cases hd

end Exec

/-! ## Whole runs -/

/-- Every ghost has somebody who is responsible for it. -/
def Attended (x : Config Shared Instr) : Prop :=
  ∀ c, Ghost x.shared c → ∃ t ∈ x.tasks, responsible c t = true

theorem attended_task {s s' : Shared} {l r : List (List Instr)} {i : Instr} {k is : List Instr}
    {ch : Choice} (hy : Attended ⟨s, l ++ (i :: k) :: r⟩) (he : exec s i ch = some (s', is))
    (hok : tidy s (l ++ r) (i :: k) ch = true) : Attended ⟨s', l ++ (is ++ k) :: r⟩ := by
  rintro c ⟨hc, hcl⟩
  rcases exec_registers he hc with hc0 | ⟨u, rfl⟩
  · rcases exec_tombstones he hcl with hcl0 | rfl
    · obtain ⟨t, ht, hr⟩ := hy c ⟨hc0, hcl0⟩
      rcases List.mem_append.mp ht with hl | hcons
      · exact ⟨t, by simp [hl], hr⟩
      · rcases List.mem_cons.mp hcons with rfl | hr'
        · exact ⟨is ++ k, by simp, exec_responsible he hok hr hc hcl0⟩
        · exact ⟨t, by simp [hr'], hr⟩
    · cases he
      simp only [tidy, Bool.or_eq_true] at hok
      rcases hok with (hn | hk) | ho
      · simp [Option.isNone_iff_eq_none.mp hn] at hc0
      · exact ⟨k, by simp, hk⟩
      · obtain ⟨t, ht, hr⟩ := List.any_eq_true.mp ho
        refine ⟨t, ?_, hr⟩
        rcases List.mem_append.mp ht with ht | ht
        · simp [ht]
        · simp [ht]
  · cases he
    exact ⟨synDrain c s.nextConn :: k, by simp, by simp [responsible, drains]⟩

theorem env_ghost {s s' : Shared} {c : ConnId} (h : Env s s') (hg : Ghost s' c) : Ghost s c := by
  cases h with
  | closedExpire c' =>
    refine ⟨hg.1, ?_⟩
    have hcl := hg.2
    by_cases hcc : c = c'
    · simp [hcc] at hcl
    · simpa [hcc] using hcl
  | _ => exact hg

theorem attended_step {y z : Config Shared Instr} (hy : Attended y) (hs : system.Step tidy y z) :
    Attended z := by
  cases hs with
  | task he hok => exact attended_task hy he hok
  | spawn h =>
    intro c hg
    obtain ⟨t, ht, hr⟩ := hy c hg
    exact ⟨t, by simp [ht], hr⟩
  | env h => exact fun c hg => hy c (env_ghost h hg)

/-- **No ghosts.**  In every run whose steps are tidy, no conn id is both registered and tombstoned
once every handler has finished. -/
theorem no_ghost {window : ℕ} {x : Config Shared Instr}
    (h : system.Reachable tidy (.init window) x) (hq : Quiet x) (c : ConnId) :
    ¬ Ghost x.shared c := by
  intro hg
  have hatt : Attended x := by
    refine Runs.inv (P := Attended) h ?_ fun y z => attended_step
    rintro c ⟨hc, -⟩
    cases hc
  obtain ⟨t, ht, hr⟩ := hatt c hg
  rw [hq t ht] at hr
  cases hr

/-- An RST while the connection is being established finds the entry, marks it, and the SYN handler
tears the connection down. -/
def rstSchedule : List (Move Shared Instr Choice) :=
  [Move.start [dispatch (synTcp 7)]] ++ List.replicate 5 (Move.step 0 Choice.go) ++
    [Move.step 0 Choice.connected, .step 0 .go] ++ [Move.start [dispatch (.rst 7)]] ++
    List.replicate 4 (Move.step 1 Choice.go) ++ List.replicate 6 (Move.step 0 Choice.go)

theorem no_ghost_rst : ∃ x, system.Reachable tidy (.init maxReorderBytes) x ∧ Quiet x ∧
    (x.shared.closed 7).isSome ∧ ¬ Ghost x.shared 7 := by
  obtain ⟨x, hx, hp⟩ := moves_exists (M := system) (g := tidy) (x := ⟨.init maxReorderBytes, []⟩)
    (p := fun x => decide (Quiet x ∧ (x.shared.closed 7).isSome))
    (m := rstSchedule) (allowed_of_isFrameMove rfl) (by decide)
  obtain ⟨hq, hcl⟩ := of_decide_eq_true hp
  exact ⟨x, hx, hq, hcl, no_ghost hx hq 7⟩

/-- The RST handler looks in `conns` before the SYN handler inserts, and for the entry after it has
been drained. -/
def ghostSchedule : List (Move Shared Instr Choice) :=
  [Move.start [dispatch (synTcp 7)]] ++ List.replicate 5 (Move.step 0 Choice.go) ++
    [Move.step 0 Choice.connected, .step 0 .go] ++ [Move.start [dispatch (.rst 7)]] ++
    List.replicate 2 (Move.step 1 Choice.go) ++ List.replicate 5 (Move.step 0 Choice.go) ++
    List.replicate 2 (Move.step 1 Choice.go)

/-- The reset is lost: every handler has finished and the connection stays. -/
theorem ghost_after_rst : ∃ x, system.Reachable free (.init maxReorderBytes) x ∧ Quiet x ∧
    Ghost x.shared 7 := by
  obtain ⟨x, hx, hp⟩ := moves_exists (M := system) (g := free) (x := ⟨.init maxReorderBytes, []⟩)
    (p := fun x => decide (Quiet x ∧ Ghost x.shared 7))
    (m := ghostSchedule) (allowed_of_isFrameMove rfl) (by decide)
  exact ⟨x, hx, of_decide_eq_true hp⟩

end RoundRobin.Reassembler
