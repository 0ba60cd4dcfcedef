import RoundRobin.Tunnel.Pool

/-!
# RoundRobin.Tunnel.SendAsync — the send of the DATA frames

`TunnelPool::send_async` and `weighted_pick` of `src/tunnel.rs`.  A call is a task that shares the links with
everybody else: each access to the shared state is a step, and between two steps links are added, die, are
swept out, drain and fill.  The caller's timeout drops the task where it awaits, and only there.

Links are named by their address, so a link in `full` is still that link after the pool changed.  The
rates are floating point in the source; here they are any type with the operations the scheduler uses, and
no law of arithmetic is assumed.
-/

namespace RoundRobin.Tunnel

/-- Anchor grid of the weighted round-robin cursor. -/
def weightGrid : ℕ := 1024

/-- A link with the drain rate its writer measured. -/
structure RatedLink (F : Type) where
  link : TunnelLink
  rateBps : F

/-! ## The scheduler -/

section Scan

variable {F : Type} [Add F] [LT F] [DecidableLT F]

/-- The first link at which the accumulated weight passes the anchor. -/
def scan (anchor : F) : F → List (ℕ × F) → Option ℕ
  | _, [] => none
  | acc, (k, w) :: rest => if anchor < acc + w then some k else scan anchor (acc + w) rest

theorem scan_mem {anchor : F} {acc : F} {xs : List (ℕ × F)} {k : ℕ} (h : scan anchor acc xs = some k) :
    ∃ w, (k, w) ∈ xs := by
  induction xs generalizing acc with
  | nil => cases h
  | cons x xs ih =>
    simp only [scan] at h
    split_ifs at h
    · obtain rfl := Option.some.inj h
      exact ⟨x.2, List.mem_cons_self⟩
    · obtain ⟨w, hw⟩ := ih h
      exact ⟨w, List.mem_cons_of_mem _ hw⟩

end Scan

section Pick

variable {F : Type} [NatCast F] [Add F] [Mul F] [Div F] [Max F] [LT F] [DecidableLT F]

/-- The share of the total weight every live link is sure of. -/
def floorShare : F := ((5 : ℕ) : F) / ((100 : ℕ) : F)

def totalOf (ws : List F) : F := ws.foldl (· + ·) ((0 : ℕ) : F)

/-- The weights of links with the rates `raw`: a link never measured gets the mean, none less than the
floor; all the same when nothing was measured. -/
def weights (raw : List F) : List F :=
  let total := totalOf raw
  if ((0 : ℕ) : F) < total then
    let mean := total / ((raw.length : ℕ) : F)
    let floor := floorShare * total
    raw.map fun r => max (if ((0 : ℕ) : F) < r then r else mean) floor
  else raw.map fun _ => ((1 : ℕ) : F)

def aliveLinks (heap : ℕ → RatedLink F) (links skip : List ℕ) : List ℕ :=
  (links.filter fun k => (heap k).link.alive).filter fun k => !skip.contains k

def weightedPick (heap : ℕ → RatedLink F) (links : List ℕ) (rr : ℕ) (skip : List ℕ) : Option ℕ :=
  let alive := aliveLinks heap links skip
  let ws := weights (alive.map fun k => max (heap k).rateBps ((0 : ℕ) : F))
  let anchor := ((rr % weightGrid : ℕ) : F) / ((weightGrid : ℕ) : F) * totalOf ws
  -- the last link is the fallback for rounding
  (scan anchor ((0 : ℕ) : F) (alive.zip ws)).or alive.getLast?

/-- A pick is a live link that is not skipped. -/
theorem weightedPick_mem {heap : ℕ → RatedLink F} {links skip : List ℕ} {rr k : ℕ}
    (h : weightedPick heap links rr skip = some k) :
    k ∈ links ∧ (heap k).link.alive = true ∧ k ∉ skip := by
  have hmem : k ∈ aliveLinks heap links skip := by
    rcases Option.or_eq_some_iff.mp h with hs | ⟨-, hl⟩
    · obtain ⟨w, hw⟩ := scan_mem hs
      exact (List.of_mem_zip hw).1
    · exact List.mem_of_getLast? hl
  simp only [aliveLinks, List.mem_filter, List.contains_eq_mem, Bool.not_eq_true', decide_eq_false_iff_not] at hmem
  exact ⟨hmem.1.1, hmem.1.2, hmem.2⟩

/-- There is a pick unless every live link is skipped. -/
theorem weightedPick_eq_none {heap : ℕ → RatedLink F} {links skip : List ℕ} {rr : ℕ} :
    weightedPick heap links rr skip = none ↔
      ∀ k ∈ links, (heap k).link.alive = true → k ∈ skip := by
  have hnil : weightedPick heap links rr skip = none ↔ aliveLinks heap links skip = [] := by
    unfold weightedPick
    rw [Option.or_eq_none_iff, List.getLast?_eq_none_iff]
    constructor
    · exact fun h => h.2
    · intro h
      simp [h, scan]
  rw [hnil, aliveLinks, List.filter_eq_nil_iff]
  simp only [List.mem_filter, List.contains_eq_mem, Bool.not_eq_true', decide_eq_false_iff_not, not_not,
    and_imp]

end Pick

/-! ## A call -/

/-- Where the task is. -/
inductive AsyncPc where
  /-- At the head of the loop. -/
  | loop
  /-- The `Notified` future exists, the pick comes next. -/
  | pick
  /-- A link was picked, the `try_send` comes next. -/
  | offer (k : ℕ)
  /-- The link's channel was closed, the store to `alive` comes next. -/
  | closed (k : ℕ)
  /-- There was no pick: is any link alive? -/
  | best
  /-- `sleep(1ms).await`. -/
  | sleep
  /-- `added.await`. -/
  | added
  /-- Returned `true`. -/
  | returned
  /-- Dropped by the caller's timeout. -/
  | cancelled
  deriving DecidableEq, Repr

/-- The links, those of the pool, and one call. -/
structure AsyncSend (F : Type) where
  heap : ℕ → RatedLink F
  links : List ℕ
  rr : ℕ
  full : List ℕ
  /-- `notify_waiters` was called since the `Notified` future was created. -/
  notified : Bool
  /-- Calls of `add` between their push and their `notify_waiters`. -/
  adding : ℕ
  pc : AsyncPc

namespace AsyncSend

variable {F : Type}

inductive Event (F : Type) where
  /-- The task runs up to its next access to the shared state. -/
  | next
  /-- The caller's timeout. -/
  | cancel
  /-- `add` pushes a link. -/
  | push (k : ℕ)
  /-- An `add` calls `notify_waiters`. -/
  | notifyWaiters
  /-- The link's owner, the idle sweep or another sender stores `alive = false`. -/
  | die (k : ℕ)
  /-- The link's writer ends and drops its receiver. -/
  | close (k : ℕ)
  /-- The link's writer takes a frame. -/
  | drain (k : ℕ)
  /-- Another sender's `try_send` succeeds. -/
  | enqueue (k : ℕ) (f : Frame)
  /-- The link's writer publishes a rate. -/
  | measure (k : ℕ) (rate : F)
  | compact
  /-- Another sender moves the cursor. -/
  | advance

def setLink (s : AsyncSend F) (k : ℕ) (l : TunnelLink) : AsyncSend F :=
  { s with heap := Function.update s.heap k { s.heap k with link := l } }

def setTx (s : AsyncSend F) (k : ℕ) (tx : Chan Frame) : AsyncSend F :=
  s.setLink k { (s.heap k).link with tx := tx }

def setDead (s : AsyncSend F) (k : ℕ) : AsyncSend F :=
  s.setLink k { (s.heap k).link with alive := false }

/-- The frames link `k` ever accepted. -/
def log (s : AsyncSend F) (k : ℕ) : List Frame := (s.heap k).link.tx.log

/-- A call begins. -/
def call (s : AsyncSend F) : AsyncSend F := { s with full := [], pc := .loop }

/-- What the other senders enqueue on link `j`. -/
def others (j : ℕ) : List (Event F) → List Frame
  | [] => []
  | .enqueue k g :: es => if j = k then g :: others j es else others j es
  | _ :: es => others j es

theorem log_setLink (s : AsyncSend F) (k : ℕ) {l : TunnelLink} (j : ℕ) :
    (s.setLink k l).log j = if j = k then l.tx.log else s.log j := by
  by_cases h : j = k
  · subst h
    simp [log, setLink]
  · simp [log, setLink, h]

theorem log_setLink_same (s : AsyncSend F) (k : ℕ) {l : TunnelLink} (h : l.tx.log = s.log k) (j : ℕ) :
    (s.setLink k l).log j = s.log j := by
  rw [log_setLink]
  by_cases hj : j = k
  · rw [if_pos hj, h, hj]
  · rw [if_neg hj]

/-- An accepted `try_send`. -/
theorem log_setTx_ok {s : AsyncSend F} {k : ℕ} {g : Frame} {ch : Chan Frame}
    (h : (s.heap k).link.tx.trySend g = (.ok, ch)) (j : ℕ) :
    (s.setTx k ch).log j = if j = k then s.log j ++ [g] else s.log j := by
  have hch := (Chan.trySend_ok (by rw [h] : ((s.heap k).link.tx.trySend g).1 = .ok)).2
  rw [h] at hch
  obtain rfl : ch = _ := hch
  refine (log_setLink s k j).trans ?_
  by_cases hj : j = k
  · rw [if_pos hj, if_pos hj, hj]
    rfl
  · rw [if_neg hj, if_neg hj]

section Queues

variable {f : Frame} {s s' : AsyncSend F} {e : Event F} {es : List (Event F)}

theorem others_cons_of_ne (h : ∀ k g, e ≠ .enqueue k g) (j : ℕ) : others j (e :: es) = others j es := by
  cases e with
  | enqueue k g => exact absurd rfl (h k g)
  | next | cancel | push | notifyWaiters | die | close | drain | measure | compact | advance => rfl

/-- Where the queues of a run differ from what they were: what the others sent, and `mine`. -/
def Enqueued (mine : ℕ → List Frame) (s s' : AsyncSend F) (es : List (Event F)) : Prop :=
  ∀ j, ∃ new, s'.log j = s.log j ++ new ∧ Interleaved (mine j) (others j es) new

theorem Enqueued.cons_other {mine : ℕ → List Frame} {s₁ : AsyncSend F} {k : ℕ} {g : Frame}
    (hl : ∀ j, s₁.log j = if j = k then s.log j ++ [g] else s.log j) (h : Enqueued mine s₁ s' es) :
    Enqueued mine s s' (.enqueue k g :: es) := by
  intro j
  obtain ⟨new, hnew, hin⟩ := h j
  rw [hl] at hnew
  by_cases hj : j = k
  · rw [if_pos hj, List.append_assoc] at hnew
    refine ⟨[g] ++ new, hnew, ?_⟩
    simp only [others, if_pos hj]
    exact .right hin
  · rw [if_neg hj] at hnew
    refine ⟨new, hnew, ?_⟩
    simp only [others, if_neg hj]
    exact hin

theorem Enqueued.cons_mine {s₁ : AsyncSend F} {k : ℕ}
    (hl : ∀ j, s₁.log j = if j = k then s.log j ++ [f] else s.log j)
    (h : Enqueued (fun _ => []) s₁ s' es) :
    Enqueued (fun j => if j = k then [f] else []) s s' (.next :: es) := by
  intro j
  obtain ⟨new, hnew, hin⟩ := h j
  rw [hl] at hnew
  simp only [others]
  by_cases hj : j = k
  · rw [if_pos hj, List.append_assoc] at hnew
    rw [if_pos hj]
    exact ⟨[f] ++ new, hnew, .left hin⟩
  · rw [if_neg hj] at hnew
    rw [if_neg hj]
    exact ⟨new, hnew, hin⟩

theorem Enqueued.cons_same {mine : ℕ → List Frame} {s₁ : AsyncSend F} (he : ∀ k g, e ≠ .enqueue k g)
    (hl : ∀ j, s₁.log j = s.log j) (h : Enqueued mine s₁ s' es) : Enqueued mine s s' (e :: es) := by
  intro j
  obtain ⟨new, hnew, hin⟩ := h j
  rw [hl] at hnew
  rw [others_cons_of_ne he]
  exact ⟨new, hnew, hin⟩

end Queues

section Step

variable [NatCast F] [Add F] [Mul F] [Div F] [Max F] [LT F] [DecidableLT F]

def next (f : Frame) (s : AsyncSend F) : Option (AsyncSend F) :=
  match s.pc with
  | .loop => some { s with notified := false, pc := .pick }
  | .pick =>
    match weightedPick s.heap s.links s.rr s.full with
    | some k => some { s with rr := (s.rr + 1) % 2 ^ 64, pc := .offer k }
    | none => some { s with pc := .best }
  | .offer k =>
    match (s.heap k).link.tx.trySend f with
    | (.ok, ch) => some { s.setTx k ch with pc := .returned }
    | (.closed, _) => some { s with pc := .closed k }
    | (.full, _) => some { s with full := s.full ++ [k], pc := .loop }
  | .closed k => some { s.setDead k with pc := .loop }
  | .best =>
    if s.links.any fun k => (s.heap k).link.alive then some { s with full := [], pc := .sleep }
    else some { s with pc := .added }
  | .sleep => some { s with pc := .loop }
  | .added => if s.notified then some { s with pc := .loop } else none
  | .returned => none
  | .cancelled => none

/-- One event, if it can happen. -/
def step (f : Frame) (s : AsyncSend F) : Event F → Option (AsyncSend F)
  | .next => s.next f
  | .cancel =>
    match s.pc with
    | .sleep => some { s with pc := .cancelled }
    | .added => some { s with pc := .cancelled }
    | _ => none
  | .push k => some { s with links := s.links ++ [k], adding := s.adding + 1 }
  | .notifyWaiters => if 0 < s.adding then some { s with adding := s.adding - 1, notified := true } else none
  | .die k => some (s.setDead k)
  | .close k => some (s.setTx k (s.heap k).link.tx.close)
  | .drain k => (s.heap k).link.tx.recv.map fun r => s.setTx k r.2
  | .enqueue k g =>
    match (s.heap k).link.tx.trySend g with
    | (.ok, ch) => some (s.setTx k ch)
    | _ => none
  | .measure k rate => some { s with heap := Function.update s.heap k { s.heap k with rateBps := rate } }
  | .compact =>
    let kept := s.links.filter fun k => (s.heap k).link.alive
    some { s with links := kept, rr := if kept.length ≠ s.links.length then 0 else s.rr }
  | .advance => some { s with rr := (s.rr + 1) % 2 ^ 64 }

def run (f : Frame) (s : AsyncSend F) : List (Event F) → Option (AsyncSend F)
  | [] => some s
  | e :: es => (s.step f e).bind fun s' => s'.run f es

/-! ## What a step enqueues -/

variable {f : Frame} {s s' : AsyncSend F} {e : Event F} {es : List (Event F)}

/-- The task's own steps enqueue its frame on the link it picked and return, or enqueue nothing. -/
theorem next_log (h : s.next f = some s') :
    (∃ k, s.pc = .offer k ∧ s'.pc = .returned ∧
      ∀ j, s'.log j = if j = k then s.log j ++ [f] else s.log j) ∨
    (s.pc ≠ .returned ∧ s'.pc ≠ .returned ∧ ∀ j, s'.log j = s.log j) := by
  unfold next at h
  cases hpc : s.pc with
  | loop =>
    simp only [hpc, Option.some.injEq] at h
    subst h
    exact .inr ⟨nofun, nofun, fun _ => rfl⟩
  | pick =>
    simp only [hpc] at h
    split at h
    all_goals
      obtain rfl := Option.some.inj h
      exact .inr ⟨nofun, nofun, fun _ => rfl⟩
  | offer k =>
    simp only [hpc] at h
    split at h
    · rename_i ch hs
      obtain rfl := Option.some.inj h
      exact .inl ⟨k, rfl, rfl, log_setTx_ok hs⟩
    all_goals
      obtain rfl := Option.some.inj h
      exact .inr ⟨nofun, nofun, fun _ => rfl⟩
  | closed k =>
    simp only [hpc, Option.some.injEq] at h
    subst h
    exact .inr ⟨nofun, nofun, log_setLink_same s k rfl⟩
  | best =>
    simp only [hpc] at h
    split_ifs at h
    all_goals
      obtain rfl := Option.some.inj h
      exact .inr ⟨nofun, nofun, fun _ => rfl⟩
  | sleep =>
    simp only [hpc, Option.some.injEq] at h
    subst h
    exact .inr ⟨nofun, nofun, fun _ => rfl⟩
  | added =>
    simp only [hpc] at h
    split_ifs at h
    obtain rfl := Option.some.inj h
    exact .inr ⟨nofun, nofun, fun _ => rfl⟩
  | returned => simp [hpc] at h
  | cancelled => simp [hpc] at h

theorem step_log (h : s.step f e = some s') :
    (∃ k g, e = .enqueue k g ∧ s'.pc = s.pc ∧
      ∀ j, s'.log j = if j = k then s.log j ++ [g] else s.log j) ∨
    (∃ k, e = .next ∧ s.pc = .offer k ∧ s'.pc = .returned ∧
      ∀ j, s'.log j = if j = k then s.log j ++ [f] else s.log j) ∨
    ((∀ k g, e ≠ .enqueue k g) ∧ (s'.pc = .returned ↔ s.pc = .returned) ∧ ∀ j, s'.log j = s.log j) := by
  cases e with
  | next =>
    rcases next_log h with ⟨k, hk, hr, hl⟩ | ⟨h1, h2, hl⟩
    · exact .inr (.inl ⟨k, rfl, hk, hr, hl⟩)
    · exact .inr (.inr ⟨nofun, iff_of_false h2 h1, hl⟩)
  | enqueue k g =>
    simp only [step] at h
    split at h
    · rename_i ch hs
      obtain rfl := Option.some.inj h
      exact .inl ⟨k, g, rfl, rfl, log_setTx_ok hs⟩
    · cases h
  | cancel =>
    simp only [step] at h
    split at h
    · rename_i hpc
      obtain rfl := Option.some.inj h
      exact .inr (.inr ⟨nofun, by simp [hpc], fun _ => rfl⟩)
    · rename_i hpc
      obtain rfl := Option.some.inj h
      exact .inr (.inr ⟨nofun, by simp [hpc], fun _ => rfl⟩)
    · cases h
  | drain k =>
    obtain ⟨r, hr, rfl⟩ := Option.map_eq_some_iff.mp h
    refine .inr (.inr ⟨nofun, Iff.rfl, log_setLink_same s k ?_⟩)
    exact Chan.recv_log hr
  | die k =>
    obtain rfl := Option.some.inj h
    exact .inr (.inr ⟨nofun, Iff.rfl, log_setLink_same s k rfl⟩)
  | close k =>
    obtain rfl := Option.some.inj h
    exact .inr (.inr ⟨nofun, Iff.rfl, log_setLink_same s k rfl⟩)
  | measure k rate =>
    obtain rfl := Option.some.inj h
    refine .inr (.inr ⟨nofun, Iff.rfl, fun j => ?_⟩)
    by_cases hj : j = k
    · subst hj
      simp [log]
    · simp [log, hj]
  | notifyWaiters =>
    simp only [step] at h
    split_ifs at h
    obtain rfl := Option.some.inj h
    exact .inr (.inr ⟨nofun, Iff.rfl, fun _ => rfl⟩)
  | push | compact | advance =>
    obtain rfl := Option.some.inj h
    exact .inr (.inr ⟨nofun, Iff.rfl, fun _ => rfl⟩)

/-! ## What a whole call enqueues -/

theorem run_returned (hpc : s.pc = .returned) (h : s.run f es = some s') :
    s'.pc = .returned ∧ Enqueued (fun _ => []) s s' es := by
  induction es generalizing s with
  | nil =>
    obtain rfl := Option.some.inj h
    exact ⟨hpc, fun j => ⟨[], (List.append_nil _).symm, .nil⟩⟩
  | cons e es ih =>
    obtain ⟨s₁, h₁, h₂⟩ := Option.bind_eq_some_iff.mp h
    rcases step_log h₁ with ⟨k, g, rfl, hp, hl⟩ | ⟨k, -, hk, -, -⟩ | ⟨he, hp, hl⟩
    · obtain ⟨hr, hq⟩ := ih (hp.trans hpc) h₂
      exact ⟨hr, hq.cons_other hl⟩
    · rw [hpc] at hk
      cases hk
    · obtain ⟨hr, hq⟩ := ih (hp.mpr hpc) h₂
      exact ⟨hr, hq.cons_same he hl⟩

theorem run_enqueued (hpc : s.pc ≠ .returned) (h : s.run f es = some s') :
    (s'.pc = .returned ∧ ∃ k, Enqueued (fun j => if j = k then [f] else []) s s' es) ∨
    (s'.pc ≠ .returned ∧ Enqueued (fun _ => []) s s' es) := by
  induction es generalizing s with
  | nil =>
    obtain rfl := Option.some.inj h
    exact .inr ⟨hpc, fun j => ⟨[], (List.append_nil _).symm, .nil⟩⟩
  | cons e es ih =>
    obtain ⟨s₁, h₁, h₂⟩ := Option.bind_eq_some_iff.mp h
    rcases step_log h₁ with ⟨k, g, rfl, hp, hl⟩ | ⟨k, rfl, -, hr, hl⟩ | ⟨he, hp, hl⟩
    · rcases ih (hp ▸ hpc) h₂ with ⟨hr, k', hq⟩ | ⟨hr, hq⟩
      · exact .inl ⟨hr, k', hq.cons_other hl⟩
      · exact .inr ⟨hr, hq.cons_other hl⟩
    · obtain ⟨hr', hq⟩ := run_returned hr h₂
      exact .inl ⟨hr', k, hq.cons_mine hl⟩
    · rcases ih (fun hs => hpc (hp.mp hs)) h₂ with ⟨hr, k', hq⟩ | ⟨hr, hq⟩
      · exact .inl ⟨hr, k', hq.cons_same he hl⟩
      · exact .inr ⟨hr, hq.cons_same he hl⟩

end Step

end AsyncSend

section Once

variable {F : Type} [NatCast F] [Add F] [Mul F] [Div F] [Max F] [LT F] [DecidableLT F]

/-- **A frame is enqueued once or not at all.**  `send` says whether some link takes frames; if so, the
first such link in cyclic order gets this one, and otherwise no queue changes; besides, it moves the
cursor and marks links dead that it finds closed.  A call of `send_async`, whatever happens around it,
adds exactly one frame to one link if it returns; if it was cancelled, or is still under way, every frame
the links accepted is somebody else's. -/
theorem enqueued_once_or_never :
    (∀ (p : TunnelPool) (f : Frame),
      ((p.send f).1 = true ↔
        ∃ l ∈ p.links, l.alive = true ∧ l.tx.isOpen = true ∧ l.tx.queue.length < l.tx.cap) ∧
      ((p.send f).1 = true → ∃ i < p.links.length, p.SentTo f (p.send f).2 i) ∧
      ((p.send f).1 = false → (p.send f).2.links = p.links.map TunnelLink.seen) ∧
      (p.send f).2.rr = if p.links = [] then p.rr else (p.rr + 1) % 2 ^ 64) ∧
    ∀ (s s' : AsyncSend F) (f : Frame) (es : List (AsyncSend.Event F)), s.call.run f es = some s' →
      (s'.pc = .returned → ∃ k, AsyncSend.Enqueued (fun j => if j = k then [f] else []) s s' es) ∧
      (s'.pc ≠ .returned → ∀ j, s'.log j = s.log j ++ AsyncSend.others j es) := by
  refine ⟨fun p f => ⟨?_, ?_, ?_, p.send_rr f⟩, fun s s' f es h => ?_⟩
  · have hready : ∀ l : TunnelLink, l.ready = true ↔
        l.alive = true ∧ l.tx.isOpen = true ∧ l.tx.queue.length < l.tx.cap := by
      intro l
      simp [TunnelLink.ready, Chan.hasRoom]
    simp only [← hready]
    rcases p.send_exact f with ⟨i, -, ⟨l, hl, hr, -⟩, h1⟩ | ⟨hno, h1, -⟩
    · exact iff_of_true h1 ⟨l, List.mem_of_getElem? hl, hr⟩
    · rw [h1]
      refine iff_of_false Bool.false_ne_true ?_
      rintro ⟨l, hl, hr⟩
      rw [hno l hl] at hr
      cases hr
  · intro h
    rcases p.send_exact f with ⟨i, hi, hs, -⟩ | ⟨-, h1, -⟩
    · exact ⟨i, hi, hs⟩
    · rw [h] at h1
      cases h1
  · intro h
    rcases p.send_exact f with ⟨i, -, -, h1⟩ | ⟨-, -, hl⟩
    · rw [h] at h1
      cases h1
    · exact hl
  · rcases AsyncSend.run_enqueued (s := s.call) (by simp [AsyncSend.call]) h with ⟨hr, k, hq⟩ | ⟨hr, hq⟩
    · exact ⟨fun _ => ⟨k, hq⟩, fun hne => absurd hr hne⟩
    · refine ⟨fun he => absurd he hr, fun _ j => ?_⟩
      obtain ⟨new, hnew, hin⟩ := hq j
      rw [hnew, hin.eq_right]
      rfl

end Once

/-- One link with room for one frame, which it holds already. -/
def fullLink : AsyncSend ℕ where
  heap := fun _ => ⟨⟨⟨1, [.rst 9], true, [.rst 9]⟩, true⟩, 0⟩
  links := [0]
  rr := 0
  full := []
  notified := false
  adding := 0
  pc := .loop

/-- The link is full, the call sleeps, and meanwhile the link drains. -/
def drained : List (AsyncSend.Event ℕ) :=
  [.next, .next, .next, .next, .next, .next, .drain 0, .next, .next, .next, .next]

/-- The call is cancelled in its sleep. -/
def timedOut : List (AsyncSend.Event ℕ) := [.next, .next, .next, .next, .next, .next, .cancel]

theorem enqueued_once_or_never_full :
    ((fullLink.call.run (.data 7 1 [65]) drained).map AsyncSend.pc = some .returned ∧
      ∀ s', fullLink.call.run (.data 7 1 [65]) drained = some s' →
        ∃ k, AsyncSend.Enqueued (fun j => if j = k then [.data 7 1 [65]] else []) fullLink s' drained) ∧
    (fullLink.call.run (.data 7 1 [65]) timedOut).map AsyncSend.pc = some .cancelled ∧
      ∀ s', fullLink.call.run (.data 7 1 [65]) timedOut = some s' → s'.log 0 = [.rst 9] := by
  have hback : (fullLink.call.run (.data 7 1 [65]) drained).map AsyncSend.pc = some .returned := by
    decide
  have hout : (fullLink.call.run (.data 7 1 [65]) timedOut).map AsyncSend.pc = some .cancelled := by
    decide
  refine ⟨⟨hback, fun s' h => ?_⟩, hout, fun s' h => ?_⟩
  · rw [h] at hback
    exact (enqueued_once_or_never.2 fullLink s' _ _ h).1 (Option.some.inj hback)
  · rw [h] at hout
    refine (enqueued_once_or_never.2 fullLink s' _ _ h).2 ?_ 0
    rw [show s'.pc = .cancelled from Option.some.inj hout]
    exact nofun

end RoundRobin.Tunnel
