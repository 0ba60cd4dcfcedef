import RoundRobin.Lib.Machine

/-!
# RoundRobin.Splitter.Dial — the tasks that keep the tunnels up

The loop `run_splitter` runs for each tunnel: dial, serve the link until its read loop ends, wait, dial again.  The
wait is cut into naps of a second at most, and `shutdown` is read before each of them.  Times are milliseconds;
`retry_count` is a `u32` in the source, and stays far from its limit (`dial_loop`).

A link is alive only in the session of its task (`Owned`), and a wait is as long as the failures before it say
(`Paced`).
-/

namespace RoundRobin.Splitter

/-- `delay_secs`. -/
def delaySecs (retryCount : ℕ) : ℕ := if retryCount = 0 then 3 else min 24 (3 <<< min retryCount 3)

/-- Where a task is. -/
inductive DialPc where
  /-- In `establish_tunnel`. -/
  | dialing
  /-- In the read loop of a link. -/
  | session (link : ℕ)
  /-- The dial failed or the session is over. -/
  | ended
  /-- Asleep until `wake`, to dial at `deadline`. -/
  | waiting (deadline wake : ℕ)
  | stopped
  deriving DecidableEq, Repr

/-- The task of a tunnel.  `redials` and `since` are history variables: how often it dialled again, and when it
started or last connected. -/
structure Dialer where
  pc : DialPc
  retryCount : ℕ
  redials : ℕ
  since : ℕ
  deriving DecidableEq, Repr

/-- A link of the pool. -/
structure DialLink where
  id : ℕ
  alive : Bool
  deriving DecidableEq, Repr

structure Dials where
  nowMs : ℕ
  shutdown : Bool
  tasks : List Dialer
  links : List DialLink
  nextId : ℕ
  deriving DecidableEq, Repr

/-- What a task can do next. -/
inductive DialAct where
  /-- `establish_tunnel` returns a stream. -/
  | connected
  /-- It returns an error. -/
  | refused
  /-- The read loop returned and the writer task was joined. -/
  | sessionEnds
  /-- The test behind the `match`. -/
  | check
  /-- A round of the loop that waits. -/
  | poll
  deriving DecidableEq, Repr

namespace Dialer

def new : Dialer := ⟨.dialing, 0, 0, 0⟩

def act (nowMs : ℕ) (shutdown : Bool) (link : ℕ) (d : Dialer) : DialAct → Option Dialer
  | .connected =>
    match d.pc with
    | .dialing => some { d with pc := .session link, retryCount := 0, since := nowMs }
    | _ => none
  | .refused =>
    match d.pc with
    | .dialing => some { d with pc := .ended, retryCount := d.retryCount + 1 }
    | _ => none
  | .sessionEnds =>
    match d.pc with
    | .session _ => some { d with pc := .ended }
    | _ => none
  | .check =>
    match d.pc with
    | .ended =>
      if shutdown then some { d with pc := .stopped }
      else some { d with pc := .waiting (nowMs + 1000 * delaySecs d.retryCount) nowMs }
    | _ => none
  | .poll =>
    match d.pc with
    | .waiting deadline wake =>
      if nowMs < wake then none
      else if shutdown then some { d with pc := .stopped }
      else if deadline ≤ nowMs then some { d with pc := .dialing, redials := d.redials + 1 }
      else some { d with pc := .waiting deadline (nowMs + min (deadline - nowMs) 1000) }
    | _ => none

/-- The link the task serves. -/
def link (d : Dialer) : Option ℕ :=
  match d.pc with
  | .session link => some link
  | _ => none

end Dialer

/-- `alive.store(false)` of the link `id`. -/
def markDead (id : ℕ) (links : List DialLink) : List DialLink :=
  links.map fun l => if l.id = id then { l with alive := false } else l

namespace Dials

inductive Event where
  | tick (d : ℕ)
  | shutdownSignal
  | task (i : ℕ) (a : DialAct)
  /-- The writer of a link, or `sweep_idle`, marks it dead. -/
  | linkDies (id : ℕ)
  | compact
  deriving DecidableEq, Repr

def new (tunnels : ℕ) : Dials := ⟨0, false, List.replicate tunnels Dialer.new, [], 0⟩

/-- The links after a task that was at `pc` has acted. -/
def linksAfter (s : Dials) (pc : DialPc) : DialAct → List DialLink
  | .connected => s.links ++ [⟨s.nextId, true⟩]
  | .sessionEnds =>
    match pc with
    | .session link => markDead link s.links
    | _ => s.links
  | _ => s.links

/-- One event, if it can happen. -/
def step (s : Dials) : Event → Option Dials
  | .tick d => some { s with nowMs := s.nowMs + d }
  | .shutdownSignal => some { s with shutdown := true }
  | .task i a =>
    (s.tasks[i]?).bind fun d => (d.act s.nowMs s.shutdown s.nextId a).map fun d' =>
      { s with
        tasks := s.tasks.set i d'
        links := s.linksAfter d.pc a
        nextId := if a = .connected then s.nextId + 1 else s.nextId }
  | .linkDies id => some { s with links := markDead id s.links }
  | .compact => some { s with links := s.links.filter (·.alive) }

def run (s : Dials) (es : List Event) : Option Dials := Machine.run step s es

end Dials

/-! ## The waits -/

/-- The seconds `n` failures in a row are waited for. -/
def waited : ℕ → ℕ
  | 0 => 0
  | n + 1 => waited n + delaySecs (n + 1)

theorem delaySecs_ge (n : ℕ) : 3 ≤ delaySecs n := by
  unfold delaySecs
  split_ifs with h
  · exact le_rfl
  · have hone : 1 ≤ min n 3 := by omega
    have hshift : 3 <<< 1 ≤ 3 <<< min n 3 := by
      rw [Nat.shiftLeft_eq, Nat.shiftLeft_eq]
      exact Nat.mul_le_mul_left 3 (Nat.pow_le_pow_right (by decide) hone)
    omega

/-- From the third failure on a wait is 24 seconds. -/
theorem le_waited (n : ℕ) : 24 * n ≤ waited n + 30 := by
  induction n with
  | zero => exact Nat.zero_le _
  | succ n ih =>
    match n, ih with
    | 0, _ => decide
    | 1, _ => decide
    | n + 2, ih =>
      have hdelay : delaySecs (n + 3) = 24 := by
        rw [delaySecs, if_neg (Nat.succ_ne_zero _), Nat.min_eq_right (Nat.le_add_left 3 n)]
        rfl
      rw [waited, hdelay]
      omega

theorem waited_pred (n : ℕ) : waited (n - 1) ≤ waited n ∧ waited n ≤ waited (n - 1) + delaySecs n := by
  cases n with
  | zero => exact ⟨le_rfl, Nat.zero_le _⟩
  | succ n => exact ⟨Nat.le_add_right _ _, le_rfl⟩

/-- A task has waited as long as its failures say. -/
structure Paced (nowMs : ℕ) (d : Dialer) : Prop where
  redials : 3000 * d.redials ≤ nowMs
  behind : d.since + 1000 * waited (d.retryCount - 1) ≤ nowMs
  dialing : d.pc = .dialing → d.since + 1000 * waited d.retryCount ≤ nowMs
  waiting : ∀ deadline wake, d.pc = .waiting deadline wake → 3000 * (d.redials + 1) ≤ deadline ∧
    d.since + 1000 * waited d.retryCount ≤ deadline ∧ wake ≤ nowMs + 1000

theorem paced_new : Paced 0 Dialer.new := ⟨le_rfl, le_rfl, fun _ => le_rfl, nofun⟩

theorem Paced.tick {nowMs : ℕ} {d : Dialer} (h : Paced nowMs d) (t : ℕ) : Paced (nowMs + t) d := by
  obtain ⟨h1, h2, h3, h4⟩ := h
  refine ⟨h1.trans (Nat.le_add_right _ _), h2.trans (Nat.le_add_right _ _),
    fun hpc => (h3 hpc).trans (Nat.le_add_right _ _), fun deadline wake hpc => ?_⟩
  obtain ⟨hr, hw, hwake⟩ := h4 deadline wake hpc
  exact ⟨hr, hw, by omega⟩

theorem act_paced {nowMs link : ℕ} {shutdown : Bool} {d d' : Dialer} {a : DialAct} (hd : Paced nowMs d)
    (h : d.act nowMs shutdown link a = some d') : Paced nowMs d' := by
  obtain ⟨hr, hb, hdial, hwait⟩ := hd
  cases a with
  | connected =>
    simp only [Dialer.act] at h
    split at h
    · obtain rfl := Option.some.inj h
      exact ⟨hr, le_rfl, nofun, nofun⟩
    · cases h
  | refused =>
    simp only [Dialer.act] at h
    split at h
    · rename_i hpc
      obtain rfl := Option.some.inj h
      exact ⟨hr, hdial hpc, nofun, nofun⟩
    · cases h
  | sessionEnds =>
    simp only [Dialer.act] at h
    split at h
    · obtain rfl := Option.some.inj h
      exact ⟨hr, hb, nofun, nofun⟩
    · cases h
  | check =>
    simp only [Dialer.act] at h
    split at h
    · split_ifs at h
      · obtain rfl := Option.some.inj h
        exact ⟨hr, hb, nofun, nofun⟩
      · obtain rfl := Option.some.inj h
        refine ⟨hr, hb, nofun, fun deadline wake hpc => ?_⟩
        obtain ⟨rfl, rfl⟩ := DialPc.waiting.inj hpc
        have hge := delaySecs_ge d.retryCount
        have hstep := (waited_pred d.retryCount).2
        exact ⟨by simp only; omega, by simp only; omega, Nat.le_add_right _ _⟩
    · cases h
  | poll =>
    simp only [Dialer.act] at h
    split at h
    · rename_i deadline wake hpc
      obtain ⟨hnext, hdue, -⟩ := hwait deadline wake hpc
      split_ifs at h with hsleep hdown hover
      · obtain rfl := Option.some.inj h
        exact ⟨hr, hb, nofun, nofun⟩
      · obtain rfl := Option.some.inj h
        exact ⟨hnext.trans hover, hb, fun _ => hdue.trans hover, nofun⟩
      · obtain rfl := Option.some.inj h
        refine ⟨hr, hb, nofun, fun deadline' wake' hpc' => ?_⟩
        obtain ⟨rfl, rfl⟩ := DialPc.waiting.inj hpc'
        exact ⟨hnext, hdue, by omega⟩
    · cases h

/-! ## The links -/

namespace Dials

variable {s s' m : Dials} {e : Event} {n : ℕ}

/-- No link is there twice, and one that is alive is the link of a session. -/
structure Owned (s : Dials) : Prop where
  nodup : (s.links.map (·.id)).Nodup
  fresh : ∀ l ∈ s.links, l.id < s.nextId
  served : ∀ l ∈ s.links, l.alive = true → ∃ (i : ℕ) (d : Dialer), s.tasks[i]? = some d ∧ d.pc = .session l.id

theorem markDead_ids (id : ℕ) (links : List DialLink) : (markDead id links).map (·.id) = links.map (·.id) := by
  rw [markDead, List.map_map]
  refine List.map_congr_left fun l _ => ?_
  simp only [Function.comp_apply]
  split_ifs <;> rfl

/-- A link that is alive behind `markDead` is another one, and was there. -/
theorem mem_markDead {id : ℕ} {links : List DialLink} {l : DialLink} (h : l ∈ markDead id links) :
    (∃ k ∈ links, k.id = l.id) ∧ (l.alive = true → l ∈ links ∧ l.id ≠ id) := by
  obtain ⟨k, hk, rfl⟩ := List.mem_map.mp h
  split_ifs with hid
  · exact ⟨⟨k, hk, rfl⟩, nofun⟩
  · exact ⟨⟨k, hk, rfl⟩, fun _ => ⟨hk, hid⟩⟩

theorem Owned.markDead (hs : s.Owned) (id : ℕ) : Owned { s with links := markDead id s.links } := by
  refine ⟨?_, fun l hl => ?_, fun l hl ha => ?_⟩
  · show ((Splitter.markDead id s.links).map (·.id)).Nodup
    rw [markDead_ids]
    exact hs.nodup
  · obtain ⟨⟨k, hk, hid⟩, -⟩ := mem_markDead hl
    rw [← hid]
    exact hs.fresh k hk
  · obtain ⟨hmem, -⟩ := (mem_markDead hl).2 ha
    exact hs.served l hmem ha

/-- The task at `i` goes on, out of a session only when the link of it is dead. -/
theorem Owned.set (hs : s.Owned) {i : ℕ} {d d' : Dialer} (hd : s.tasks[i]? = some d)
    (hpc : ∀ l ∈ s.links, l.alive = true → d.pc ≠ .session l.id) :
    Owned { s with tasks := s.tasks.set i d' } := by
  refine ⟨hs.nodup, hs.fresh, fun l hl ha => ?_⟩
  obtain ⟨j, x, hx, hsession⟩ := hs.served l hl ha
  have hne : i ≠ j := by
    rintro rfl
    rw [hd] at hx
    obtain rfl := Option.some.inj hx
    exact hpc l hl ha hsession
  exact ⟨j, x, by rw [List.getElem?_set_ne hne, hx], hsession⟩

/-- The task at `i` has just connected. -/
theorem Owned.add (hs : s.Owned) {i : ℕ} {d : Dialer} (hd : s.tasks[i]? = some d)
    (hpc : d.pc = .session s.nextId) :
    Owned { s with links := s.links ++ [⟨s.nextId, true⟩], nextId := s.nextId + 1 } := by
  refine ⟨?_, fun l hl => ?_, fun l hl ha => ?_⟩
  · show ((s.links ++ [(⟨s.nextId, true⟩ : DialLink)]).map (·.id)).Nodup
    rw [List.map_append, List.nodup_append]
    refine ⟨hs.nodup, by simp, fun a ha b hb => ?_⟩
    obtain ⟨l, hl, rfl⟩ := List.mem_map.mp ha
    obtain rfl := List.mem_singleton.mp hb
    exact (hs.fresh l hl).ne
  · rcases List.mem_append.mp hl with hl | hl
    · exact Nat.lt_succ_of_lt (hs.fresh l hl)
    · obtain rfl := List.mem_singleton.mp hl
      exact Nat.lt_succ_self _
  · rcases List.mem_append.mp hl with hl | hl
    · exact hs.served l hl ha
    · obtain rfl := List.mem_singleton.mp hl
      exact ⟨i, d, hd, hpc⟩

theorem step_owned (hs : s.Owned) (h : s.step e = some s') : s'.Owned := by
  cases e with
  | tick t =>
    obtain rfl := Option.some.inj h
    exact ⟨hs.nodup, hs.fresh, hs.served⟩
  | shutdownSignal =>
    obtain rfl := Option.some.inj h
    exact ⟨hs.nodup, hs.fresh, hs.served⟩
  | linkDies id =>
    obtain rfl := Option.some.inj h
    exact hs.markDead id
  | compact =>
    obtain rfl := Option.some.inj h
    refine ⟨hs.nodup.sublist (List.filter_sublist.map _), fun l hl => ?_, fun l hl ha => ?_⟩
    · exact hs.fresh l (List.mem_of_mem_filter hl)
    · exact hs.served l (List.mem_of_mem_filter hl) ha
  | task i a =>
    obtain ⟨d, hd, h⟩ := Option.bind_eq_some_iff.mp h
    obtain ⟨d', hact, rfl⟩ := Option.map_eq_some_iff.mp h
    cases a with
    | connected =>
      simp only [Dialer.act] at hact
      split at hact
      · rename_i hpc
        obtain rfl := Option.some.inj hact
        have hset : Owned { s with tasks := s.tasks.set i { d with pc := .session s.nextId, retryCount := 0,
                                                                   since := s.nowMs } } :=
          hs.set hd fun l _ _ => by rw [hpc]; nofun
        exact hset.add (List.getElem?_set_self (List.getElem?_eq_some_iff.mp hd).1) rfl
      · cases hact
    | sessionEnds =>
      simp only [Dialer.act] at hact
      split at hact
      · rename_i link hpc
        simp only [linksAfter, hpc]
        refine (hs.markDead link).set hd fun l hl ha heq => ?_
        rw [hpc] at heq
        exact ((mem_markDead hl).2 ha).2 (DialPc.session.inj heq).symm
      · cases hact
    | refused | check | poll =>
      refine hs.set hd fun l _ _ heq => ?_
      simp only [Dialer.act, heq] at hact
      cases hact

/-- There are no more live links than sessions. -/
theorem Owned.count_alive (hs : s.Owned) :
    s.links.countP (·.alive) ≤ s.tasks.countP fun d => d.link.isSome := by
  have hnodup : ((s.links.filter (·.alive)).map (·.id)).Nodup :=
    hs.nodup.sublist (List.filter_sublist.map _)
  have hsub : (s.links.filter (·.alive)).map (·.id) ⊆ s.tasks.filterMap Dialer.link := by
    intro id hid
    obtain ⟨l, hl, rfl⟩ := List.mem_map.mp hid
    obtain ⟨hl, ha⟩ := List.mem_filter.mp hl
    obtain ⟨i, d, hd, hpc⟩ := hs.served l hl ha
    refine List.mem_filterMap.mpr ⟨d, List.mem_of_getElem? hd, ?_⟩
    rw [Dialer.link, hpc]
  have hlen := (List.subperm_of_subset hnodup hsub).length_le
  rwa [List.length_map, ← List.countP_eq_length_filter, List.length_filterMap_eq_countP] at hlen

/-! ## The tasks -/

/-- What an event does to the tasks. -/
theorem step_tasks (h : s.step e = some s') :
    (s'.tasks = s.tasks ∧ s.nowMs ≤ s'.nowMs ∧ (s.shutdown = true → s'.shutdown = true)) ∨
    ∃ i a d d', s.tasks[i]? = some d ∧ d.act s.nowMs s.shutdown s.nextId a = some d' ∧
      s'.tasks = s.tasks.set i d' ∧ s'.nowMs = s.nowMs ∧ s'.shutdown = s.shutdown := by
  cases e with
  | tick t =>
    obtain rfl := Option.some.inj h
    exact .inl ⟨rfl, Nat.le_add_right _ _, id⟩
  | shutdownSignal =>
    obtain rfl := Option.some.inj h
    exact .inl ⟨rfl, le_rfl, fun _ => rfl⟩
  | linkDies | compact =>
    obtain rfl := Option.some.inj h
    exact .inl ⟨rfl, le_rfl, id⟩
  | task i a =>
    obtain ⟨d, hd, h⟩ := Option.bind_eq_some_iff.mp h
    obtain ⟨d', hact, rfl⟩ := Option.map_eq_some_iff.mp h
    exact .inr ⟨i, a, d, d', hd, hact, rfl, rfl, rfl⟩

/-- Every task waits as it should, and stops for a shutdown only. -/
def Kept (s : Dials) : Prop := ∀ d ∈ s.tasks, Paced s.nowMs d ∧ (d.pc = .stopped → s.shutdown = true)

/-- A task stops only when it finds `shutdown` set, and dials again only when it does not. -/
theorem act_shutdown {nowMs link : ℕ} {shutdown : Bool} {d d' : Dialer} {a : DialAct}
    (h : d.act nowMs shutdown link a = some d') :
    (d'.pc = .stopped → shutdown = true) ∧ (shutdown = true → d'.redials = d.redials) := by
  cases a with
  | connected | refused | sessionEnds =>
    simp only [Dialer.act] at h
    split at h
    · obtain rfl := Option.some.inj h
      exact ⟨nofun, fun _ => rfl⟩
    · cases h
  | check =>
    simp only [Dialer.act] at h
    split at h
    · split_ifs at h with hdown
      · obtain rfl := Option.some.inj h
        exact ⟨fun _ => hdown, fun _ => rfl⟩
      · obtain rfl := Option.some.inj h
        exact ⟨nofun, fun _ => rfl⟩
    · cases h
  | poll =>
    simp only [Dialer.act] at h
    split at h
    · split_ifs at h with hsleep hdown
      · obtain rfl := Option.some.inj h
        exact ⟨fun _ => hdown, fun _ => rfl⟩
      · obtain rfl := Option.some.inj h
        exact ⟨nofun, fun hd => absurd hd hdown⟩
      · obtain rfl := Option.some.inj h
        exact ⟨nofun, fun _ => rfl⟩
    · cases h

theorem step_kept (hs : s.Kept) (h : s.step e = some s') : s'.Kept := by
  rcases step_tasks h with ⟨htasks, hnow, hdown⟩ | ⟨i, a, d, d', hd, hact, htasks, hnow, hdown⟩
  · intro d hd
    rw [htasks] at hd
    obtain ⟨hpaced, hstop⟩ := hs d hd
    obtain ⟨t, ht⟩ := Nat.exists_eq_add_of_le hnow
    rw [ht]
    exact ⟨hpaced.tick t, fun hpc => hdown (hstop hpc)⟩
  · intro x hx
    rw [hnow, hdown]
    rw [htasks] at hx
    rcases List.mem_or_eq_of_mem_set hx with hx | rfl
    · exact hs x hx
    · exact ⟨act_paced (hs d (List.mem_of_getElem? hd)).1 hact, (act_shutdown hact).1⟩

/-- Tasks do not come or go. -/
theorem step_length (h : s.step e = some s') : s'.tasks.length = s.tasks.length := by
  rcases step_tasks h with ⟨htasks, -⟩ | ⟨i, a, d, d', -, -, htasks, -⟩
  · rw [htasks]
  · rw [htasks, List.length_set]

/-- Once `shutdown` is set it stays set, and no task dials again. -/
theorem step_after_shutdown (h : s.step e = some s') (hs : s.shutdown = true) :
    s'.shutdown = true ∧ s'.tasks.map (·.redials) = s.tasks.map (·.redials) := by
  rcases step_tasks h with ⟨htasks, -, hdown⟩ | ⟨i, a, d, d', hd, hact, htasks, -, hdown⟩
  · exact ⟨hdown hs, by rw [htasks]⟩
  · refine ⟨hdown.trans hs, ?_⟩
    have hsame : d'.redials = d.redials := (act_shutdown hact).2 hs
    rw [htasks, List.map_set, hsame]
    refine List.ext_getElem? fun j => ?_
    by_cases hij : i = j
    · subst hij
      rw [List.getElem?_set_self (by simpa using (List.getElem?_eq_some_iff.mp hd).1), List.getElem?_map, hd]
      rfl
    · rw [List.getElem?_set_ne hij]

theorem owned_new (n : ℕ) : (new n).Owned := ⟨List.nodup_nil, nofun, nofun⟩

theorem kept_new (n : ℕ) : (new n).Kept := by
  intro d hd
  rw [List.eq_of_mem_replicate hd]
  exact ⟨paced_new, nofun⟩

end Dials

end RoundRobin.Splitter
