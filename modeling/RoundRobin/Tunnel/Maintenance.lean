import RoundRobin.Lib.Machine
import RoundRobin.Tunnel.Pool

/-!
# RoundRobin.Tunnel.Maintenance — the links of a pool over time

`TunnelPool::add`, `compact`, `sweep_idle` and `alive_count` of `src/tunnel.rs` with those who call them: the
listeners of `run_tunnel_listener`, each in its own task, the heartbeat, the senders, and the tasks of every link.

`Trans` says what any of them can do to the list of links: wear some of them down, add one, or drop the dead ones.
Everything else follows from it.  `stats`, `link_count` and `queue_depth` only feed the log and are left out.
-/

namespace RoundRobin.Tunnel

/-- `LINK_IDLE_TIMEOUT` in milliseconds. -/
def linkIdleTimeout : ℕ := 600 * 1000
/-- Cap of alive links a listener checks. -/
def maxTunnelLinks : ℕ := 64

/-- A link of the pool; `id` is the `Arc`. -/
structure PoolLink where
  id : ℕ
  link : TunnelLink
  lastActiveMs : ℕ
  /-- Stored permit of `stop`. -/
  stop : Bool

/-- The pool, with `listeners` tasks that may add links, `admitted` of which passed their check of the cap. -/
structure Links where
  nowMillis : ℕ
  rr : ℕ
  links : List PoolLink
  nextId : ℕ
  listeners : ℕ
  admitted : ℕ

/-- `alive_count`. -/
def aliveCount (links : List PoolLink) : ℕ := links.countP fun l => l.link.alive

/-- One link of the loop of `sweep_idle`. -/
def PoolLink.sweep (nowMs : ℕ) (l : PoolLink) : PoolLink :=
  if l.link.alive && decide (nowMs - l.lastActiveMs > linkIdleTimeout) then
    { l with link := { l.link with alive := false }, stop := true }
  else l

/-- Put back the links a `send` on the pool has changed. -/
def setLinks (links : List PoolLink) (sent : List TunnelLink) : List PoolLink :=
  links.mapIdx fun i l => { l with link := (sent[i]?).getD l.link }

namespace Links

inductive Event where
  | tick (d : ℕ)
  /-- A listener compares `alive_count` with the cap. -/
  | check
  /-- A listener that passed adds its link. -/
  | add
  | send (f : Frame)
  /-- `send_async` offers the frame to the link it picked. -/
  | offer (i : ℕ) (f : Frame)
  /-- The read loop of a link got a frame. -/
  | frameRead (i : ℕ)
  /-- The writer task wrote a frame. -/
  | frameWritten (i : ℕ)
  /-- The writer task ends. -/
  | writerDied (i : ℕ)
  /-- The read loop ends. -/
  | readLoopEnded (i : ℕ)
  | compact
  | sweepIdle
  deriving DecidableEq, Repr

def new (listeners : ℕ) : Links := ⟨0, 0, [], 0, listeners, 0⟩

/-- Change one link. -/
def change (s : Links) (i : ℕ) (g : PoolLink → PoolLink) : Option Links :=
  if i < s.links.length then some { s with links := s.links.modify i g } else none

/-- One event, if it can happen. -/
def step (s : Links) : Event → Option Links
  | .tick d => some { s with nowMillis := s.nowMillis + d }
  | .check =>
    if s.admitted < s.listeners then
      some (if aliveCount s.links ≥ maxTunnelLinks then s else { s with admitted := s.admitted + 1 })
    else none
  | .add =>
    if 0 < s.admitted then
      some { s with
        links := s.links ++ [⟨s.nextId, ⟨Chan.new tunnelChannelCap, true⟩, s.nowMillis, false⟩]
        nextId := s.nextId + 1
        admitted := s.admitted - 1 }
    else none
  | .send f =>
    let p := ((⟨s.links.map (·.link), s.rr⟩ : TunnelPool).send f).2
    some { s with links := setLinks s.links p.links, rr := p.rr }
  | .offer i f => s.change i fun l => { l with link := (l.link.offer f).2 }
  | .frameRead i => s.change i fun l => { l with lastActiveMs := s.nowMillis }
  | .frameWritten i =>
    s.change i fun l =>
      match l.link.tx.recv with
      | some (_, ch) => { l with link := { l.link with tx := ch }, lastActiveMs := s.nowMillis }
      | none => l
  | .writerDied i => s.change i fun l => { l with link := { l.link with tx := l.link.tx.close } }
  | .readLoopEnded i => s.change i fun l => { l with link := { l.link with alive := false }, stop := true }
  | .compact =>
    let links := s.links.filter fun l => l.link.alive
    some { s with links := links, rr := if links.length ≠ s.links.length then 0 else s.rr }
  | .sweepIdle => some { s with links := s.links.map (·.sweep s.nowMillis) }

def run (s : Links) (es : List Event) : Option Links := Machine.run step s es

/-! ## What a step can do -/

/-- The same link, alive only if it was. -/
def Worn (l l' : PoolLink) : Prop := l'.id = l.id ∧ (l'.link.alive = true → l.link.alive = true)

inductive Trans (s : Links) : Event → Links → Prop where
  | touched (e : Event) (s' : Links) : s'.nextId = s.nextId → s'.listeners = s.listeners → s'.admitted = s.admitted →
      List.Forall₂ Worn s.links s'.links → Trans s e s'
  | admitted : s.admitted < s.listeners → aliveCount s.links < maxTunnelLinks →
      Trans s .check { s with admitted := s.admitted + 1 }
  | added (l : PoolLink) : 0 < s.admitted → l.id = s.nextId → Trans s .add { s with
      links := s.links ++ [l], nextId := s.nextId + 1, admitted := s.admitted - 1 }
  | compacted (rr : ℕ) : Trans s .compact { s with links := s.links.filter fun l => l.link.alive, rr := rr }

variable {s s' m : Links} {e : Event}

theorem worn_rfl (l : PoolLink) : Worn l l := ⟨rfl, id⟩

theorem change_trans {i : ℕ} {g : PoolLink → PoolLink} (hg : ∀ l, Worn l (g l)) (h : s.change i g = some s') :
    Trans s e s' := by
  obtain ⟨-, h⟩ := Option.ite_none_right_eq_some.mp h
  obtain rfl := Option.some.inj h
  refine .touched _ _ rfl rfl rfl ?_
  show List.Forall₂ Worn s.links (s.links.modify i g)
  rw [List.forall₂_iff_get]
  refine ⟨(List.length_modify _ _ _).symm, fun j hj hj' => ?_⟩
  simp only [List.get_eq_getElem, List.getElem_modify]
  split_ifs
  · exact hg _
  · exact worn_rfl _

theorem offer_alive (l : TunnelLink) (f : Frame) (h : (l.offer f).2.alive = true) : l.alive = true := by
  rw [TunnelLink.offer_eq] at h
  by_contra hd
  have hd' : l.alive = false := by simpa using hd
  simp [TunnelLink.ready, TunnelLink.seen, hd'] at h

theorem seen_alive {l : TunnelLink} (h : l.seen.alive = true) : l.alive = true := by
  unfold TunnelLink.seen at h
  split_ifs at h
  exact h

/-- A `send` on the pool marks links dead, and none alive. -/
theorem send_alive (p : TunnelPool) (f : Frame) {i : ℕ} {l l' : TunnelLink} (hl : p.links[i]? = some l)
    (hl' : (p.send f).2.links[i]? = some l') (h : l'.alive = true) : l.alive = true := by
  rcases p.send_exact f with ⟨j, -, ⟨k, hk, -, -, hget⟩, -⟩ | ⟨-, -, hseen⟩
  · rw [hget] at hl'
    split_ifs at hl' with h1 h2
    · obtain rfl : k = l := Option.some.inj (hk.symm.trans (h1 ▸ hl))
      obtain rfl := Option.some.inj hl'
      exact h
    · rw [hl] at hl'
      obtain rfl := Option.some.inj hl'
      exact seen_alive h
    · obtain rfl : l = l' := Option.some.inj (hl.symm.trans hl')
      exact h
  · rw [hseen, List.getElem?_map, hl] at hl'
    obtain rfl := Option.some.inj hl'
    exact seen_alive h

theorem send_trans {f : Frame} (h : s.step (.send f) = some s') : Trans s (.send f) s' := by
  obtain rfl := Option.some.inj h
  refine .touched _ _ rfl rfl rfl ?_
  show List.Forall₂ Worn s.links (setLinks s.links _)
  rw [List.forall₂_iff_get]
  refine ⟨(List.length_mapIdx).symm, fun i hi hi' => ?_⟩
  simp only [setLinks, List.get_eq_getElem, List.getElem_mapIdx]
  refine ⟨rfl, fun ha => ?_⟩
  have hl : (s.links.map (·.link))[i]? = some s.links[i].link := by
    rw [List.getElem?_map, List.getElem?_eq_getElem hi]
    rfl
  cases hs : ((⟨s.links.map (·.link), s.rr⟩ : TunnelPool).send f).2.links[i]? with
  | none => simpa [hs] using ha
  | some l' =>
    have ha' : l'.alive = true := by simpa [hs] using ha
    exact send_alive _ f hl hs ha'

theorem sweep_worn (now : ℕ) (l : PoolLink) : Worn l (l.sweep now) := by
  unfold PoolLink.sweep
  split_ifs
  · exact ⟨rfl, fun h => by cases h⟩
  · exact worn_rfl l

theorem step_trans (h : s.step e = some s') : Trans s e s' := by
  cases e with
  | tick d =>
    obtain rfl := Option.some.inj h
    exact .touched _ _ rfl rfl rfl (List.forall₂_same.mpr fun l _ => worn_rfl l)
  | check =>
    obtain ⟨hlt, h⟩ := Option.ite_none_right_eq_some.mp h
    obtain rfl := Option.some.inj h
    split_ifs with hcap
    · exact .touched _ _ rfl rfl rfl (List.forall₂_same.mpr fun l _ => worn_rfl l)
    · exact .admitted hlt (by omega)
  | add =>
    obtain ⟨hpos, h⟩ := Option.ite_none_right_eq_some.mp h
    obtain rfl := Option.some.inj h
    exact .added _ hpos rfl
  | send f => exact send_trans h
  | offer i f =>
    refine change_trans ?_ h
    exact fun l => ⟨rfl, offer_alive l.link f⟩
  | frameRead i =>
    refine change_trans ?_ h
    exact fun l => ⟨rfl, id⟩
  | frameWritten i =>
    refine change_trans ?_ h
    intro l
    split
    · exact ⟨rfl, id⟩
    · exact worn_rfl l
  | writerDied i =>
    refine change_trans ?_ h
    exact fun l => ⟨rfl, id⟩
  | readLoopEnded i =>
    refine change_trans ?_ h
    exact fun l => ⟨rfl, nofun⟩
  | compact =>
    obtain rfl := Option.some.inj h
    exact .compacted _
  | sweepIdle =>
    obtain rfl := Option.some.inj h
    refine .touched _ _ rfl rfl rfl ?_
    exact List.forall₂_map_right_iff.mpr (List.forall₂_same.mpr fun l _ => sweep_worn s.nowMillis l)

/-! ## Over whole runs -/

/-- The links stand in the order they were added, and the alive ones and those about to be added are within the
cap. -/
structure Sound (s : Links) : Prop where
  sorted : (s.links.map (·.id)).Pairwise (· < ·)
  known : ∀ l ∈ s.links, l.id < s.nextId
  capped : aliveCount s.links + s.admitted + 1 ≤ maxTunnelLinks + s.listeners
  within : s.admitted ≤ s.listeners

theorem sound_new (n : ℕ) : (new n).Sound :=
  ⟨List.Pairwise.nil, fun _ h => (List.not_mem_nil h).elim, by simp [new, aliveCount, maxTunnelLinks]; omega,
    Nat.zero_le _⟩

theorem worn_ids {ls ls' : List PoolLink} (h : List.Forall₂ Worn ls ls') :
    ls'.map (·.id) = ls.map (·.id) ∧ aliveCount ls' ≤ aliveCount ls := by
  induction h with
  | nil => exact ⟨rfl, le_rfl⟩
  | @cons l l' ls ls' hl _ ih =>
    refine ⟨by rw [List.map_cons, List.map_cons, hl.1, ih.1], ?_⟩
    simp only [aliveCount, List.countP_cons] at ih ⊢
    have := hl.2
    split_ifs
    all_goals first | omega | simp_all

theorem worn_mem {ls ls' : List PoolLink} (h : List.Forall₂ Worn ls ls') {l' : PoolLink} (hl' : l' ∈ ls') :
    ∃ l ∈ ls, Worn l l' := by
  induction h with
  | nil => cases hl'
  | cons hl _ ih =>
    rcases List.mem_cons.mp hl' with rfl | hl'
    · exact ⟨_, List.mem_cons_self, hl⟩
    · obtain ⟨k, hk, hw⟩ := ih hl'
      exact ⟨k, List.mem_cons_of_mem _ hk, hw⟩

theorem Sound.trans (hs : s.Sound) (h : Trans s e s') : s'.Sound := by
  cases h with
  | touched _ _ hn hl ha hw =>
    obtain ⟨hids, hcount⟩ := worn_ids hw
    refine ⟨by rw [hids]; exact hs.sorted, fun l' hl' => ?_, ?_, by rw [ha, hl]; exact hs.within⟩
    · obtain ⟨l, hmem, hworn⟩ := worn_mem hw hl'
      rw [hn, hworn.1]
      exact hs.known l hmem
    · have := hs.capped
      rw [ha, hl]
      omega
  | admitted hlt hcap =>
    have := hs.within
    refine ⟨hs.sorted, hs.known, ?_, hlt⟩
    show aliveCount s.links + (s.admitted + 1) + 1 ≤ maxTunnelLinks + s.listeners
    omega
  | added l hpos hid =>
    have hcap := hs.capped
    have hle := hs.within
    refine ⟨?_, fun k hk => ?_, ?_, ?_⟩
    · show List.Pairwise _ (List.map _ (s.links ++ [l]))
      rw [List.map_append, List.pairwise_append]
      refine ⟨hs.sorted, List.pairwise_singleton _ _, fun a ha b hb => ?_⟩
      obtain ⟨k, hk, rfl⟩ := List.mem_map.mp ha
      obtain rfl : b = l.id := by simpa using hb
      rw [hid]
      exact hs.known k hk
    · rcases List.mem_append.mp hk with hk | hk
      · exact Nat.lt_succ_of_lt (hs.known k hk)
      · rw [List.mem_singleton.mp hk, hid]
        exact Nat.lt_succ_self _
    · have hone : aliveCount (s.links ++ [l]) ≤ aliveCount s.links + 1 := by
        rw [aliveCount, List.countP_append]
        exact Nat.add_le_add_left (List.countP_le_length) _
      show aliveCount (s.links ++ [l]) + (s.admitted - 1) + 1 ≤ maxTunnelLinks + s.listeners
      omega
    · show s.admitted - 1 ≤ s.listeners
      omega
  | compacted rr =>
    refine ⟨hs.sorted.sublist (List.filter_sublist.map _), fun l hl => hs.known l (List.mem_of_mem_filter hl), ?_,
      hs.within⟩
    have hle : aliveCount (s.links.filter fun l => l.link.alive) ≤ aliveCount s.links :=
      List.filter_sublist.countP_le
    exact (Nat.add_le_add_right (Nat.add_le_add_right hle _) 1).trans hs.capped

/-- No alive link has the id, now or later. -/
def Dead (i : ℕ) (s : Links) : Prop := i < s.nextId ∧ ∀ l ∈ s.links, l.id = i → l.link.alive = false

/-- No link has the id, now or later. -/
def Gone (i : ℕ) (s : Links) : Prop := i < s.nextId ∧ ∀ l ∈ s.links, l.id ≠ i

theorem Dead.trans {i : ℕ} (hd : Dead i s) (h : Trans s e s') : Dead i s' := by
  cases h with
  | touched _ _ hn hl ha hw =>
    refine ⟨by rw [hn]; exact hd.1, fun l' hl' hi => ?_⟩
    obtain ⟨l, hmem, hid, halive⟩ := worn_mem hw hl'
    have hdead := hd.2 l hmem (hid.symm.trans hi)
    by_contra hne
    rw [halive (by simpa using hne)] at hdead
    cases hdead
  | admitted hlt hcap => exact hd
  | added l hpos hid =>
    refine ⟨Nat.lt_succ_of_lt hd.1, fun k hk hi => ?_⟩
    rcases List.mem_append.mp hk with hk | hk
    · exact hd.2 k hk hi
    · have := hd.1
      rw [List.mem_singleton.mp hk] at hi
      omega
  | compacted rr => exact ⟨hd.1, fun l hl hi => hd.2 l (List.mem_of_mem_filter hl) hi⟩

theorem Gone.trans {i : ℕ} (hg : Gone i s) (h : Trans s e s') : Gone i s' := by
  cases h with
  | touched _ _ hn hl ha hw =>
    refine ⟨by rw [hn]; exact hg.1, fun l' hl' => ?_⟩
    obtain ⟨l, hmem, hid, -⟩ := worn_mem hw hl'
    rw [hid]
    exact hg.2 l hmem
  | admitted hlt hcap => exact hg
  | added l hpos hid =>
    refine ⟨Nat.lt_succ_of_lt hg.1, fun k hk => ?_⟩
    rcases List.mem_append.mp hk with hk | hk
    · exact hg.2 k hk
    · have := hg.1
      rw [List.mem_singleton.mp hk, hid]
      omega
  | compacted rr => exact ⟨hg.1, fun l hl => hg.2 l (List.mem_of_mem_filter hl)⟩

/-- Whoever misses a link finds it dead at a `compact`. -/
theorem Trans.missing (h : Trans s e s') {k : PoolLink} (hk : k ∈ s.links) (hno : ∀ l ∈ s'.links, l.id ≠ k.id) :
    e = .compact ∧ k.link.alive = false := by
  cases h with
  | touched _ _ hn hl ha hw =>
    have hid : k.id ∈ s'.links.map (·.id) := by
      rw [(worn_ids hw).1]
      exact List.mem_map_of_mem hk
    obtain ⟨l, hmem, heq⟩ := List.mem_map.mp hid
    exact absurd heq (hno l hmem)
  | admitted hlt hcap => exact absurd rfl (hno k hk)
  | added l hpos hid => exact absurd rfl (hno k (List.mem_append_left _ hk))
  | compacted rr =>
    refine ⟨rfl, ?_⟩
    by_contra hne
    exact hno k (List.mem_filter.mpr ⟨hk, by simpa using hne⟩) rfl

theorem run_missing {es : List Event} (h : s.run es = some s') {k : PoolLink} (hk : k ∈ s.links)
    (hno : ∀ l ∈ s'.links, l.id ≠ k.id) : ∃ a b x, es = a ++ .compact :: b ∧ s.run a = some x ∧
      ∃ d ∈ x.links, d.id = k.id ∧ d.link.alive = false := by
  induction es generalizing s k with
  | nil =>
    obtain rfl := Option.some.inj h
    exact absurd rfl (hno k hk)
  | cons e es ih =>
    obtain ⟨x, hx, hr⟩ := Machine.run_cons h
    by_cases hstay : ∃ d ∈ x.links, d.id = k.id
    · obtain ⟨d, hd, hid⟩ := hstay
      obtain ⟨a, b, y, rfl, hy, d', hd', hid', hdead⟩ := ih hr hd fun l hl => hid ▸ hno l hl
      refine ⟨e :: a, b, y, rfl, ?_, d', hd', hid'.trans hid, hdead⟩
      rw [run, Machine.run, hx]
      exact hy
    · have hgone : ∀ l ∈ x.links, l.id ≠ k.id := fun l hl heq => hstay ⟨l, hl, heq⟩
      obtain ⟨rfl, hdead⟩ := (step_trans hx).missing hk hgone
      exact ⟨[], es, s, rfl, rfl, k, hk, rfl, hdead⟩

theorem run_sound {es : List Event} (h : m.run es = some s) (hm : m.Sound) :
    s.Sound ∧ s.listeners = m.listeners := by
  refine Machine.run_inv (fun x : Links => x.Sound ∧ x.listeners = m.listeners) h ⟨hm, rfl⟩ ?_
  rintro x y e ⟨hx, hl⟩ hxy
  have htr := step_trans hxy
  refine ⟨hx.trans htr, ?_⟩
  cases htr with
  | touched _ _ hn hl' ha hw => exact hl'.trans hl
  | admitted hlt hcap => exact hl
  | added l hpos hid => exact hl
  | compacted rr => exact hl

theorem run_dead {es : List Event} {i : ℕ} (h : m.run es = some s) (hd : Dead i m) : Dead i s :=
  Machine.run_inv (Dead i) h hd fun _ _ _ hx hxy => hx.trans (step_trans hxy)

theorem run_gone {es : List Event} {i : ℕ} (h : m.run es = some s) (hg : Gone i m) : Gone i s :=
  Machine.run_inv (Gone i) h hg fun _ _ _ hx hxy => hx.trans (step_trans hxy)

/-- Ids are unique. -/
theorem Sound.eq_of_id (hs : s.Sound) {k l : PoolLink} (hk : k ∈ s.links) (hl : l ∈ s.links) (h : l.id = k.id) :
    l = k := by
  have hnodup : (s.links.map (·.id)).Nodup := hs.sorted.imp fun hlt => Nat.ne_of_lt hlt
  exact List.inj_on_of_nodup_map hnodup hl hk h

/-- A dead link stays dead. -/
theorem Sound.dead (hs : s.Sound) {k : PoolLink} (hk : k ∈ s.links) (hd : k.link.alive = false) : Dead k.id s :=
  ⟨hs.known k hk, fun _ hl hid => hs.eq_of_id hk hl hid ▸ hd⟩

/-- **The pool over time.**  Whatever listeners, senders, heartbeat and link tasks do, in any order: the links stand
in the order they were added, none twice; no more of them are alive than the cap and one for each listener but one;
a dead link is never alive again; and a link that is missed was found dead by a `compact`. -/
theorem pool_maintained {n : ℕ} {es es' : List Event} (h : (new n).run es = some m) (h' : m.run es' = some s) :
    (s.links.map (·.id)).Pairwise (· < ·) ∧ aliveCount s.links + 1 ≤ maxTunnelLinks + n ∧
    (∀ k ∈ m.links, ∀ l ∈ s.links, l.id = k.id → l.link.alive = true → k.link.alive = true) ∧
    ∀ k ∈ m.links, (∀ l ∈ s.links, l.id ≠ k.id) → ∃ a b x, es' = a ++ .compact :: b ∧ m.run a = some x ∧
      ∃ d ∈ x.links, d.id = k.id ∧ d.link.alive = false := by
  obtain ⟨hm, hlm⟩ := run_sound h (sound_new n)
  obtain ⟨hs, hls⟩ := run_sound h' hm
  refine ⟨hs.sorted, ?_, fun k hk l hl hid ha => ?_, fun k hk hno => run_missing h' hk hno⟩
  · have hn : s.listeners = n := hls.trans hlm
    have := hs.capped
    omega
  · by_contra hne
    have hdead := (run_dead h' (hm.dead hk (by simpa using hne))).2 l hl hid
    rw [ha] at hdead
    cases hdead

/-- **Silent links go.**  A link that was silent for over 600 seconds at a `sweep_idle`, or is dead already, is not
in the pool from the next `compact` on, whatever happens before and after that; a link with any traffic within the
600 seconds is left as it is. -/
theorem sweep_idle_recycles {n : ℕ} {es : List Event} (h : (new n).run es = some m) {k : PoolLink} (hk : k ∈ m.links) :
    ((m.nowMillis - k.lastActiveMs > linkIdleTimeout ∨ k.link.alive = false) → ∀ a b s,
      m.run (.sweepIdle :: a ++ .compact :: b) = some s → ∀ l ∈ s.links, l.id ≠ k.id) ∧
    (m.nowMillis - k.lastActiveMs ≤ linkIdleTimeout → ∀ s, m.step .sweepIdle = some s → k ∈ s.links) := by
  obtain ⟨hm, -⟩ := run_sound h (sound_new n)
  refine ⟨fun hold a b s hs => ?_, fun hyoung s hs => ?_⟩
  · rw [List.cons_append] at hs
    obtain ⟨x, hx, hs⟩ := Machine.run_cons hs
    have hxm := hm.trans (step_trans hx)
    obtain rfl := Option.some.inj hx
    -- the sweep leaves it dead
    have hdead : (k.sweep m.nowMillis).link.alive = false := by
      unfold PoolLink.sweep
      split_ifs with hc
      · rfl
      · simp only [Bool.and_eq_true, decide_eq_true_eq, not_and] at hc
        rcases hold with hold | hold
        · by_contra hne
          exact hc (by simpa using hne) hold
        · exact hold
    have hid : (k.sweep m.nowMillis).id = k.id := (sweep_worn m.nowMillis k).1
    have hx0 := hxm.dead (List.mem_map_of_mem hk) hdead
    rw [hid] at hx0
    rw [Machine.run_append] at hs
    obtain ⟨y, hy, hs⟩ := Option.bind_eq_some_iff.mp hs
    have hy0 := run_dead hy hx0
    obtain ⟨z, hz, hs⟩ := Machine.run_cons hs
    obtain rfl := Option.some.inj hz
    -- and the `compact` drops it
    have hz0 : Gone k.id { y with
        links := y.links.filter fun l => l.link.alive
        rr := if (y.links.filter fun l => l.link.alive).length ≠ y.links.length then 0 else y.rr } := by
      refine ⟨hy0.1, fun l hl heq => ?_⟩
      obtain ⟨hmem, halive⟩ := List.mem_filter.mp hl
      rw [hy0.2 l hmem heq] at halive
      cases halive
    exact (run_gone hs hz0).2
  · obtain rfl := Option.some.inj hs
    refine List.mem_map.mpr ⟨k, hk, ?_⟩
    unfold PoolLink.sweep
    rw [if_neg]
    simp only [Bool.and_eq_true, decide_eq_true_eq, not_and]
    omega

/-- Two listeners add a link each; one stays silent, the other reads a frame before the heartbeat comes. -/
def silentRun : List Event :=
  [.check, .check, .add, .add, .tick 700000, .frameRead 1]

theorem pool_maintained_silent :
    ∃ m s, (new 2).run silentRun = some m ∧ m.run [.sweepIdle, .compact] = some s ∧
      s.links.map (·.id) = [1] ∧ aliveCount s.links + 1 ≤ maxTunnelLinks + 2 := by
  have hruns : ∃ m s, (new 2).run silentRun = some m ∧ m.run [.sweepIdle, .compact] = some s ∧
      s.links.map (·.id) = [1] := ⟨_, _, rfl, rfl, rfl⟩
  obtain ⟨m, s, hm, hs, hids⟩ := hruns
  exact ⟨m, s, hm, hs, hids, (pool_maintained hm hs).2.1⟩

theorem sweep_idle_recycles_silent :
    ∃ m s k, (new 2).run silentRun = some m ∧ k ∈ m.links ∧ m.run [.sweepIdle, .compact] = some s ∧
      ∀ l ∈ s.links, l.id ≠ k.id := by
  have hruns : ∃ m s k, (new 2).run silentRun = some m ∧ k ∈ m.links ∧ m.run [.sweepIdle, .compact] = some s ∧
      m.nowMillis - k.lastActiveMs > linkIdleTimeout := ⟨_, _, _, rfl, List.mem_cons_self, rfl, by decide⟩
  obtain ⟨m, s, k, hm, hk, hs, hold⟩ := hruns
  exact ⟨m, s, k, hm, hk, hs, (sweep_idle_recycles hm hk).1 (.inl hold) [] [] s hs⟩

end Links

end RoundRobin.Tunnel
