import RoundRobin.Splitter.State

/-!
# RoundRobin.Splitter.ConnIds — who uses a connection id, and when it is free again

`alloc_conn_id` of `src/splitter.rs` beside everything that takes entries out of `conns`: `reset_conn`, the
sweeps of the heartbeat, the exits of `handle_tcp_client` and `handle_udp_client`, and the expiry of
`time_wait`.  Each access to one of the two maps is a step, and the parties interleave in any order.

A connection is named by the client whose handler created it.  `tombs` and `left` are history variables:
every TIME_WAIT entry ever put, and how a connection left `conns`.  Which connections the heartbeat sweeps
is left open, the three sweeps make the same two accesses; `retain` holds the shard's lock between them, so
here more can happen in between than in the source.
-/

namespace RoundRobin.Splitter

/-- TIME_WAIT_TTL, in milliseconds. -/
def timeWaitTtl : ℕ := 60 * 1000

/-- Where `handle_client` of one client is, from the end of its handshake on. -/
inductive ClientPc where
  /-- `alloc_conn_id` comes next. -/
  | handshaken
  /-- In its loop with `n` rounds left. -/
  | draw (n : ℕ)
  | checkConns (n : ℕ) (id : ConnId)
  | checkTimeWait (n : ℕ) (id : ConnId)
  /-- It returned `Some(id)`; `conns.insert` comes next. -/
  | allocated (id : ConnId)
  /-- Registered; the SYN is sent next. -/
  | registered (id : ConnId)
  /-- No tunnel took the SYN; the entry is removed next. -/
  | refused (id : ConnId)
  /-- The SYN is queued. -/
  | serving (id : ConnId)
  /-- The TIME_WAIT entry was put at `since`; the connection is removed next. -/
  | leaving (id : ConnId) (since : ℕ)
  | served (id : ConnId)
  /-- Ended without a connection. -/
  | failed
  deriving DecidableEq, Repr

structure Client where
  isUdp : Bool
  pc : ClientPc
  deriving DecidableEq, Repr

/-- A `reset_conn`, or the visit of a sweep to the connection `visited`, that has put its TIME_WAIT entry and
not yet removed the connection. -/
structure Teardown where
  id : ConnId
  since : ℕ
  visited : Option ℕ
  deriving DecidableEq, Repr

/-- How a connection left `conns`. -/
inductive Fate where
  /-- Removed by someone who had put a TIME_WAIT entry, at `since`. -/
  | torn (since : ℕ)
  /-- Another handler with the same id took its place, or removed it. -/
  | displaced
  deriving DecidableEq, Repr

structure ConnIds where
  conns : ConnId → Option ℕ
  timeWait : ConnId → Option ℕ
  now : ℕ
  clients : ℕ → Client
  teardowns : List Teardown
  tombs : List (ConnId × ℕ)
  left : ℕ → Option Fate

namespace ConnIds

inductive Event where
  /-- The handler's next access; `random` is what it draws, `ok` whether the SYN is encoded and queued. -/
  | client (i : ℕ) (random : ConnId) (ok : Bool)
  /-- Somebody calls `reset_conn`. -/
  | reset (id : ConnId)
  /-- The heartbeat decides to sweep a connection. -/
  | sweep (id : ConnId)
  | remove (t : Teardown)
  /-- The heartbeat's `time_wait.retain` visits an expired entry. -/
  | expire (id : ConnId)
  | tick (d : ℕ)
  deriving DecidableEq, Repr

def start (udp : ℕ → Bool) : ConnIds where
  conns := fun _ => none
  timeWait := fun _ => none
  now := 0
  clients := fun i => ⟨udp i, .handshaken⟩
  teardowns := []
  tombs := []
  left := fun _ => none

def setPc (s : ConnIds) (i : ℕ) (pc : ClientPc) : ConnIds :=
  { s with clients := Function.update s.clients i { s.clients i with pc := pc } }

/-- `time_wait.insert(id, Instant::now())`. -/
def putTimeWait (s : ConnIds) (id : ConnId) : ConnIds :=
  { s with timeWait := Function.update s.timeWait id (some s.now), tombs := (id, s.now) :: s.tombs }

/-- `conns.remove_if`, or `remove` where `p` is always true; `fate` is how the connection leaves. -/
def removeIf (s : ConnIds) (id : ConnId) (p : ℕ → Bool) (fate : ℕ → Option Fate) : ConnIds :=
  match s.conns id with
  | some v =>
    if p v then
      { s with conns := Function.update s.conns id none, left := Function.update s.left v (fate v) }
    else s
  | none => s

/-- `conns.insert(id, vconn)`. -/
def insert (s : ConnIds) (id : ConnId) (i : ℕ) : ConnIds :=
  { s with
    conns := Function.update s.conns id (some i)
    left :=
      match s.conns id with
      | some v => Function.update s.left v (some .displaced)
      | none => s.left }

def clientStep (s : ConnIds) (i : ℕ) (random : ConnId) (ok : Bool) : Option ConnIds :=
  match (s.clients i).pc with
  | .handshaken => some (s.setPc i (.draw 1024))
  | .draw 0 => some (s.setPc i .failed)
  | .draw (n + 1) => some (s.setPc i (if random = 0 then .draw n else .checkConns n random))
  | .checkConns n id =>
    some (s.setPc i (if (s.conns id).isSome then .draw n else .checkTimeWait n id))
  | .checkTimeWait n id =>
    some (s.setPc i (if (s.timeWait id).isSome then .draw n else .allocated id))
  | .allocated id =>
    if ok then some ((s.insert id i).setPc i (.registered id)) else some (s.setPc i .failed)
  | .registered id => some (s.setPc i (if ok then .serving id else .refused id))
  | .refused id =>
    -- the UDP handler does not look whose entry it removes
    some ((s.removeIf id (fun v => (s.clients i).isUdp || v == i) fun v =>
      if v = i then none else some .displaced).setPc i .failed)
  | .serving id => some ((s.putTimeWait id).setPc i (.leaving id s.now))
  | .leaving id since =>
    some ((s.removeIf id (· == i) fun _ => some (.torn since)).setPc i (.served id))
  | .served _ | .failed => none

def step (s : ConnIds) : Event → Option ConnIds
  | .client i random ok => s.clientStep i random ok
  | .reset id => some { s.putTimeWait id with teardowns := ⟨id, s.now, none⟩ :: s.teardowns }
  | .sweep id =>
    match s.conns id with
    | some v => some { s.putTimeWait id with teardowns := ⟨id, s.now, some v⟩ :: s.teardowns }
    | none => none
  | .remove t =>
    if t ∈ s.teardowns then
      some { s.removeIf t.id (fun v => t.visited.all (· == v)) (fun _ => some (.torn t.since)) with
        teardowns := s.teardowns.erase t }
    else none
  | .expire id =>
    match s.timeWait id with
    | some t =>
      if t + timeWaitTtl ≤ s.now then some { s with timeWait := Function.update s.timeWait id none } else none
    | none => none
  | .tick d => some { s with now := s.now + d }

def run (s : ConnIds) : List Event → Option ConnIds
  | [] => some s
  | e :: es => (s.step e).bind fun s' => s'.run es

/-- What `removeIf` does to the map and the history. -/
theorem removeIf_cases (s : ConnIds) (id : ConnId) (p : ℕ → Bool) (fate : ℕ → Option Fate) :
    s.removeIf id p fate = s ∨ ∃ v, s.conns id = some v ∧ p v = true ∧ s.removeIf id p fate =
      { s with conns := Function.update s.conns id none, left := Function.update s.left v (fate v) } := by
  unfold removeIf
  cases hc : s.conns id with
  | none => exact .inl rfl
  | some v =>
    by_cases hp : p v = true
    · exact .inr ⟨v, rfl, hp, if_pos hp⟩
    · exact .inl (if_neg hp)

theorem removeIf_clients (s : ConnIds) (id : ConnId) (p : ℕ → Bool) (fate : ℕ → Option Fate) :
    (s.removeIf id p fate).clients = s.clients := by
  rcases removeIf_cases s id p fate with h | ⟨v, -, -, h⟩ <;> rw [h]

theorem removeIf_tombs (s : ConnIds) (id : ConnId) (p : ℕ → Bool) (fate : ℕ → Option Fate) :
    (s.removeIf id p fate).tombs = s.tombs := by
  rcases removeIf_cases s id p fate with h | ⟨v, -, -, h⟩ <;> rw [h]

theorem removeIf_timeWait (s : ConnIds) (id : ConnId) (p : ℕ → Bool) (fate : ℕ → Option Fate) :
    (s.removeIf id p fate).timeWait = s.timeWait := by
  rcases removeIf_cases s id p fate with h | ⟨v, -, -, h⟩ <;> rw [h]

theorem removeIf_conns {p : ℕ → Bool} (hp : ∀ v, p v = true) (s : ConnIds) (id id' : ConnId)
    (fate : ℕ → Option Fate) : (s.removeIf id p fate).conns id' = if id' = id then none else s.conns id' := by
  unfold removeIf
  split
  · rw [if_pos (hp _)]
    exact Function.update_apply ..
  · rename_i hnone
    split_ifs with h
    · rw [h, hnone]
    · rfl

/-- The two accesses of `reset_conn`, one after the other, are the `resetConn` of the splitter's state. -/
theorem reset_run {s : ConnIds} {st : State} (hc : s.conns = st.conns) (ht : s.timeWait = st.timeWait)
    (hn : s.now = st.now) (id : ConnId) : ∃ s', s.run [.reset id, .remove ⟨id, s.now, none⟩] = some s' ∧
      s'.conns = (st.resetConn id).conns ∧ s'.timeWait = (st.resetConn id).timeWait := by
  set t : Teardown := ⟨id, s.now, none⟩ with hteardown
  set u : ConnIds := { s.putTimeWait id with teardowns := t :: s.teardowns }
  have hremove : u.step (.remove t) = some { u.removeIf id (fun v => t.visited.all (· == v))
      (fun _ => some (.torn t.since)) with teardowns := u.teardowns.erase t } := if_pos List.mem_cons_self
  have hrun : s.run [.reset id, .remove t] = (u.step (.remove t)).bind some := rfl
  refine ⟨_, hrun.trans (by rw [hremove]; rfl), ?_, ?_⟩
  · funext id'
    rw [State.resetConn_conns, ← hc]
    exact removeIf_conns (fun v => rfl) u id id' _
  · funext id'
    rw [State.resetConn_timeWait, ← ht, ← hn, ← Function.update_apply]
    exact congrFun (removeIf_timeWait u id _ _) id'

/-! ## The invariant -/

end ConnIds

namespace ClientPc

/-- The id under which the handler's connection was inserted, until the handler has removed it. -/
def inserted : ClientPc → Option ConnId
  | .registered id | .refused id | .serving id | .leaving id _ | .served id => some id
  | _ => none

/-- The id under which the handler's connection must be found. -/
def holds : ClientPc → Option ConnId
  | .registered id | .serving id | .leaving id _ | .served id => some id
  | _ => none

/-- The id of a handler whose SYN is queued. -/
def queued : ClientPc → Option ConnId
  | .serving id | .leaving id _ | .served id => some id
  | _ => none

/-- Before the insertion. -/
def early : ClientPc → Bool
  | .handshaken | .draw _ | .checkConns _ _ | .checkTimeWait _ _ | .allocated _ => true
  | _ => false

/-- In the loop of `alloc_conn_id` but for its last look, or given up. -/
def searching : ClientPc → Bool
  | .draw _ | .failed => true
  | .checkConns _ id => id != 0
  | _ => false

theorem inserted_of_holds {pc : ClientPc} {id : ConnId} (h : pc.holds = some id) : pc.inserted = some id := by
  cases pc with
  | registered | serving | leaving | served => exact h
  | _ => cases h

theorem holds_of_queued {pc : ClientPc} {id : ConnId} (h : pc.queued = some id) : pc.holds = some id := by
  cases pc with
  | serving | leaving | served => exact h
  | _ => cases h

theorem early_of_inserted {pc : ClientPc} {id : ConnId} (h : pc.inserted = some id) : pc.early = false := by
  cases pc with
  | registered | refused | serving | leaving | served => rfl
  | _ => cases h

end ClientPc

namespace ConnIds

/-- A connection of `id` that left `conns`: removed behind a TIME_WAIT entry, or displaced. -/
def Left (s : ConnIds) (i : ℕ) (id : ConnId) : Prop :=
  (∃ since, s.left i = some (.torn since) ∧ (id, since) ∈ s.tombs) ∨ s.left i = some .displaced

structure Inv (s : ConnIds) : Prop where
  /-- A TIME_WAIT entry put once is still there, or it aged. -/
  marked : ∀ id t, (id, t) ∈ s.tombs →
    t ≤ s.now ∧ ((∃ t', s.timeWait id = some t' ∧ t ≤ t') ∨ t + timeWaitTtl ≤ s.now)
  entry : ∀ id i, s.conns id = some i → (s.clients i).pc.inserted = some id
  kept : ∀ i id, (s.clients i).pc.holds = some id → s.conns id = some i ∨ s.Left i id
  gone : ∀ id i, s.conns id = some i → s.left i = none
  fresh : ∀ i, (s.clients i).pc.early = true → s.left i = none
  teardowns : ∀ t ∈ s.teardowns, (t.id, t.since) ∈ s.tombs
  leaving : ∀ i id since, (s.clients i).pc = .leaving id since → (id, since) ∈ s.tombs

variable {s s' : ConnIds} {id : ConnId} {i j : ℕ}

theorem start_inv (udp : ℕ → Bool) : (start udp).Inv where
  marked := fun _ _ h => by cases h
  entry := fun _ _ h => by cases h
  kept := fun _ _ h => by cases h
  gone := fun _ _ h => by cases h
  fresh := fun _ _ => rfl
  teardowns := fun _ h => by cases h
  leaving := fun _ _ _ h => by cases h

@[simp] theorem setPc_self (s : ConnIds) (i : ℕ) (pc : ClientPc) : ((s.setPc i pc).clients i).pc = pc := by
  simp [setPc]

theorem setPc_ne (s : ConnIds) (pc : ClientPc) (h : j ≠ i) : (s.setPc i pc).clients j = s.clients j := by
  simp [setPc, h]

theorem pc_setPc (s : ConnIds) (i j : ℕ) (pc : ClientPc) :
    ((s.setPc i pc).clients j).pc = if j = i then pc else (s.clients j).pc := by
  by_cases h : j = i
  · subst h
    simp
  · rw [setPc_ne s pc h, if_neg h]

/-- A handler goes on, its entry and what it answers for staying what they are. -/
theorem Inv.setPc (hs : s.Inv) {pc : ClientPc}
    (hins : ∀ id, s.conns id = some i → pc.inserted = some id)
    (hholds : ∀ id, pc.holds = some id → (s.clients i).pc.holds = some id)
    (hearly : pc.early = true → (s.clients i).pc.early = true)
    (hleaving : ∀ id since, pc = .leaving id since → (id, since) ∈ s.tombs) : (s.setPc i pc).Inv where
  marked := hs.marked
  entry := by
    intro id j hj
    rw [pc_setPc]
    split_ifs with h
    · subst h
      exact hins id hj
    · exact hs.entry id j hj
  kept := by
    intro j id hj
    rw [pc_setPc] at hj
    split_ifs at hj with h
    · subst h
      exact hs.kept j id (hholds id hj)
    · exact hs.kept j id hj
  gone := hs.gone
  fresh := by
    intro j hj
    rw [pc_setPc] at hj
    split_ifs at hj with h
    · subst h
      exact hs.fresh j (hearly hj)
    · exact hs.fresh j hj
  teardowns := hs.teardowns
  leaving := by
    intro j id since hj
    rw [pc_setPc] at hj
    split_ifs at hj with h
    · exact hleaving id since hj
    · exact hs.leaving j id since hj

theorem Left.mono (h : s.Left i id) (hl : s'.left i = s.left i) (ht : s.tombs ⊆ s'.tombs) : s'.Left i id := by
  rcases h with ⟨since, hf, hm⟩ | hf
  · exact .inl ⟨since, hl.trans hf, ht hm⟩
  · exact .inr (hl.trans hf)

theorem Inv.putTimeWait (hs : s.Inv) (id : ConnId) : (s.putTimeWait id).Inv where
  marked := by
    intro id' t ht
    rcases List.mem_cons.mp ht with heq | ht
    · obtain ⟨rfl, rfl⟩ := Prod.mk.inj heq
      exact ⟨le_rfl, .inl ⟨s.now, Function.update_self .., le_rfl⟩⟩
    · obtain ⟨hle, hm⟩ := hs.marked id' t ht
      refine ⟨hle, ?_⟩
      by_cases h : id' = id
      · subst h
        exact .inl ⟨s.now, Function.update_self .., hle⟩
      · rcases hm with ⟨t', ht', hle'⟩ | hm
        · exact .inl ⟨t', (Function.update_of_ne h ..).trans ht', hle'⟩
        · exact .inr hm
  entry := hs.entry
  kept := fun i id' h => (hs.kept i id' h).imp_right fun hl => hl.mono rfl (List.subset_cons_self _ _)
  gone := hs.gone
  fresh := hs.fresh
  teardowns := fun t ht => List.mem_cons_of_mem _ (hs.teardowns t ht)
  leaving := fun i id' since h => List.mem_cons_of_mem _ (hs.leaving i id' since h)

/-- The connection of a handler that still answers for it leaves with a reason. -/
theorem Inv.removeIf (hs : s.Inv) {p : ℕ → Bool} {fate : ℕ → Option Fate}
    (hf : ∀ v, s.conns id = some v → p v = true → (s.clients v).pc.holds = some id →
      fate v = some .displaced ∨ ∃ since, fate v = some (.torn since) ∧ (id, since) ∈ s.tombs) :
    (s.removeIf id p fate).Inv := by
  rcases removeIf_cases s id p fate with h | ⟨v, hv, hp, h⟩
  · rwa [h]
  · have hins := hs.entry id v hv
    have hconns : ∀ id' j, Function.update s.conns id none id' = some j → id' ≠ id ∧ s.conns id' = some j := by
      intro id' j hj
      by_cases he : id' = id
      · subst he
        rw [Function.update_self] at hj
        cases hj
      · exact ⟨he, (Function.update_of_ne he ..).symm.trans hj⟩
    rw [h]
    refine ⟨hs.marked, ?_, ?_, ?_, ?_, hs.teardowns, hs.leaving⟩
    · exact fun id' j hj => hs.entry id' j (hconns id' j hj).2
    · intro j id' hj
      by_cases hjv : j = v
      · subst hjv
        obtain rfl : id' = id := Option.some.inj ((ClientPc.inserted_of_holds hj).symm.trans hins)
        right
        rcases hf j hv hp hj with hd | ⟨since, ht, hm⟩
        · exact .inr ((Function.update_self ..).trans hd)
        · exact .inl ⟨since, (Function.update_self ..).trans ht, hm⟩
      · rcases hs.kept j id' hj with hc | hl
        · left
          have hne : id' ≠ id := by
            rintro rfl
            exact hjv (Option.some.inj (hc.symm.trans hv))
          exact (Function.update_of_ne hne ..).trans hc
        · exact .inr (hl.mono (Function.update_of_ne hjv ..) (List.Subset.refl _))
    · intro id' j hj
      obtain ⟨hne, hold⟩ := hconns id' j hj
      have hjv : j ≠ v := by
        rintro rfl
        exact hne (Option.some.inj ((hs.entry id' j hold).symm.trans hins))
      exact (Function.update_of_ne hjv ..).trans (hs.gone id' j hold)
    · intro j hj
      have hjv : j ≠ v := by
        rintro rfl
        rw [ClientPc.early_of_inserted hins] at hj
        cases hj
      exact (Function.update_of_ne hjv ..).trans (hs.fresh j hj)

theorem insert_conns (s : ConnIds) (id id' : ConnId) (i : ℕ) :
    (s.insert id i).conns id' = if id' = id then some i else s.conns id' :=
  Function.update_apply ..

theorem insert_left (s : ConnIds) (id : ConnId) (i j : ℕ) :
    (s.insert id i).left j = if s.conns id = some j then some .displaced else s.left j := by
  unfold insert
  cases hc : s.conns id with
  | none => rfl
  | some v =>
    by_cases h : j = v
    · subst h
      simp
    · simp [h, Ne.symm h]

/-- How a connection left is never forgotten. -/
theorem Inv.left_insert (hs : s.Inv) {f : Fate} (h : s.left j = some f) : (s.insert id i).left j = some f := by
  rw [insert_left, if_neg, h]
  intro hc
  cases (hs.gone id j hc).symm.trans h

theorem Inv.left_removeIf (hs : s.Inv) {p : ℕ → Bool} {fate : ℕ → Option Fate} {f : Fate} (h : s.left j = some f) :
    (s.removeIf id p fate).left j = some f := by
  rcases removeIf_cases s id p fate with he | ⟨v, hv, -, he⟩
  · rwa [he]
  · have hjv : j ≠ v := by
      rintro rfl
      cases (hs.gone id j hv).symm.trans h
    rw [he]
    exact (Function.update_of_ne hjv ..).trans h

/-- A new connection takes the id, and displaces whoever has it. -/
theorem Inv.insert (hs : s.Inv) (hpc : (s.clients i).pc = .allocated id) :
    ((s.insert id i).setPc i (.registered id)).Inv := by
  have hother : ∀ id' j, s.conns id' = some j → j ≠ i := by
    rintro id' j hj rfl
    have := hs.entry id' j hj
    rw [hpc] at this
    cases this
  refine ⟨hs.marked, ?_, ?_, ?_, ?_, hs.teardowns, ?_⟩
  · intro id' j hj
    rw [pc_setPc]
    rw [show ((s.insert id i).setPc i _).conns id' = _ from insert_conns s id id' i] at hj
    split_ifs at hj with hid
    · obtain rfl := Option.some.inj hj
      rw [if_pos rfl, hid]
      rfl
    · rw [if_neg (hother id' j hj)]
      exact hs.entry id' j hj
  · intro j id' hj
    rw [pc_setPc] at hj
    show (s.insert id i).conns id' = some j ∨ (s.insert id i).Left j id'
    rw [insert_conns]
    split_ifs at hj with h
    · subst h
      obtain rfl := Option.some.inj hj
      exact .inl (if_pos rfl)
    · rcases hs.kept j id' hj with hc | ⟨since, ht, hm⟩ | hd
      · by_cases hid : id' = id
        · subst hid
          exact .inr (.inr ((insert_left ..).trans (if_pos hc)))
        · exact .inl ((if_neg hid).trans hc)
      · exact .inr (.inl ⟨since, hs.left_insert ht, hm⟩)
      · exact .inr (.inr (hs.left_insert hd))
  · intro id' j hj
    show (s.insert id i).left j = none
    rw [show ((s.insert id i).setPc i _).conns id' = _ from insert_conns s id id' i] at hj
    rw [insert_left]
    split_ifs at hj with hid
    · obtain rfl := Option.some.inj hj
      rw [if_neg fun hc => hother id i hc rfl]
      exact hs.fresh i (by rw [hpc]; rfl)
    · rw [if_neg, hs.gone id' j hj]
      intro hc
      exact hid (Option.some.inj ((hs.entry id' j hj).symm.trans (hs.entry id j hc)))
  · intro j hj
    show (s.insert id i).left j = none
    rw [pc_setPc] at hj
    split_ifs at hj with h
    · cases hj
    · have hj : (s.clients j).pc.early = true := hj
      rw [insert_left, if_neg, hs.fresh j hj]
      intro hc
      rw [ClientPc.early_of_inserted (hs.entry id j hc)] at hj
      cases hj
  · intro j id' since hj
    rw [pc_setPc] at hj
    split_ifs at hj with h
    exact hs.leaving j id' since hj

/-! ## What a step can do -/

/-- What a step of handler `i` does. -/
inductive ClientTrans (s : ConnIds) (i : ℕ) : ConnIds → Prop where
  | search (pc : ClientPc) : (s.clients i).pc.early = true → pc.searching = true → ClientTrans s i (s.setPc i pc)
  | unregistered (n : ℕ) (id : ConnId) : (s.clients i).pc = .checkConns n id → s.conns id = none →
      ClientTrans s i (s.setPc i (.checkTimeWait n id))
  | allocated (n : ℕ) (id : ConnId) : (s.clients i).pc = .checkTimeWait n id → s.timeWait id = none →
      ClientTrans s i (s.setPc i (.allocated id))
  | insert (id : ConnId) : (s.clients i).pc = .allocated id →
      ClientTrans s i ((s.insert id i).setPc i (.registered id))
  | sent (id : ConnId) : (s.clients i).pc = .registered id → ClientTrans s i (s.setPc i (.serving id))
  | refused (id : ConnId) : (s.clients i).pc = .registered id → ClientTrans s i (s.setPc i (.refused id))
  | withdraw (id : ConnId) (p : ℕ → Bool) : (s.clients i).pc = .refused id → p i = true →
      ClientTrans s i ((s.removeIf id p fun v => if v = i then none else some .displaced).setPc i .failed)
  | bury (id : ConnId) : (s.clients i).pc = .serving id →
      ClientTrans s i ((s.putTimeWait id).setPc i (.leaving id s.now))
  | leave (id : ConnId) (since : ℕ) : (s.clients i).pc = .leaving id since →
      ClientTrans s i ((s.removeIf id (· == i) fun _ => some (.torn since)).setPc i (.served id))

theorem clientStep_trans {random : ConnId} {ok : Bool} (h : s.clientStep i random ok = some s') :
    s.ClientTrans i s' := by
  cases hpc : (s.clients i).pc with
  | handshaken =>
    simp only [clientStep, hpc] at h
    obtain rfl := Option.some.inj h
    exact .search _ (by rw [hpc]; rfl) rfl
  | draw n =>
    cases n with
    | zero =>
      simp only [clientStep, hpc] at h
      obtain rfl := Option.some.inj h
      exact .search _ (by rw [hpc]; rfl) rfl
    | succ n =>
      simp only [clientStep, hpc] at h
      obtain rfl := Option.some.inj h
      refine .search _ (by rw [hpc]; rfl) ?_
      split_ifs with h0
      · rfl
      · exact bne_iff_ne.mpr h0
  | checkConns n id =>
    simp only [clientStep, hpc] at h
    obtain rfl := Option.some.inj h
    split_ifs with hc
    · exact .search _ (by rw [hpc]; rfl) rfl
    · exact .unregistered n id hpc (Option.not_isSome_iff_eq_none.mp hc)
  | checkTimeWait n id =>
    simp only [clientStep, hpc] at h
    obtain rfl := Option.some.inj h
    split_ifs with ht
    · exact .search _ (by rw [hpc]; rfl) rfl
    · exact .allocated n id hpc (Option.not_isSome_iff_eq_none.mp ht)
  | allocated id =>
    simp only [clientStep, hpc] at h
    split_ifs at h
    · obtain rfl := Option.some.inj h
      exact .insert id hpc
    · obtain rfl := Option.some.inj h
      exact .search _ (by rw [hpc]; rfl) rfl
  | registered id =>
    simp only [clientStep, hpc] at h
    obtain rfl := Option.some.inj h
    split_ifs
    · exact .sent id hpc
    · exact .refused id hpc
  | refused id =>
    simp only [clientStep, hpc] at h
    obtain rfl := Option.some.inj h
    exact .withdraw id _ hpc (by simp)
  | serving id =>
    simp only [clientStep, hpc] at h
    obtain rfl := Option.some.inj h
    exact .bury id hpc
  | leaving id since =>
    simp only [clientStep, hpc] at h
    obtain rfl := Option.some.inj h
    exact .leave id since hpc
  | served id =>
    simp only [clientStep, hpc] at h
    cases h
  | failed =>
    simp only [clientStep, hpc] at h
    cases h

inductive Trans (s : ConnIds) : ConnIds → Prop where
  | client (i : ℕ) {s' : ConnIds} : s.ClientTrans i s' → Trans s s'
  | tearDown (id : ConnId) (visited : Option ℕ) :
      Trans s { s.putTimeWait id with teardowns := ⟨id, s.now, visited⟩ :: s.teardowns }
  | remove (t : Teardown) (p : ℕ → Bool) : t ∈ s.teardowns →
      Trans s { s.removeIf t.id p (fun _ => some (.torn t.since)) with teardowns := s.teardowns.erase t }
  | expire (id : ConnId) (t : ℕ) : s.timeWait id = some t → t + timeWaitTtl ≤ s.now →
      Trans s { s with timeWait := Function.update s.timeWait id none }
  | tick (d : ℕ) : Trans s { s with now := s.now + d }

theorem step_trans {e : Event} (h : s.step e = some s') : s.Trans s' := by
  cases e with
  | client i random ok => exact .client i (clientStep_trans h)
  | reset id =>
    obtain rfl := Option.some.inj h
    exact .tearDown id none
  | sweep id =>
    simp only [step] at h
    split at h
    · obtain rfl := Option.some.inj h
      exact .tearDown id _
    · cases h
  | remove t =>
    simp only [step] at h
    split_ifs at h with ht
    obtain rfl := Option.some.inj h
    exact .remove t _ ht
  | expire id =>
    simp only [step] at h
    split at h
    · split_ifs at h with haged
      obtain rfl := Option.some.inj h
      exact .expire id _ ‹_› haged
    · cases h
  | tick d =>
    obtain rfl := Option.some.inj h
    exact .tick d

theorem removeIf_gone (s : ConnIds) (id : ConnId) {p : ℕ → Bool} (fate : ℕ → Option Fate) (hp : p i = true) :
    (s.removeIf id p fate).conns id ≠ some i := by
  unfold removeIf
  cases hc : s.conns id with
  | none =>
    rw [hc]
    exact fun h => by cases h
  | some v =>
    by_cases hv : p v = true
    · simp [hv]
    · simp only [if_neg hv, hc, ne_eq, Option.some.injEq]
      rintro rfl
      exact hv hp

/-- Before the insertion a handler answers for nothing. -/
theorem Inv.search (hs : s.Inv) {pc : ClientPc} (hearly : (s.clients i).pc.early = true)
    (hpc : pc.early = true ∨ pc = .failed) : (s.setPc i pc).Inv := by
  refine hs.setPc (fun id hc => ?_) (fun id hp => ?_) (fun _ => hearly) fun id since he => ?_
  · rw [ClientPc.early_of_inserted (hs.entry id i hc)] at hearly
    cases hearly
  · rcases hpc with h | rfl
    · rw [ClientPc.early_of_inserted (ClientPc.inserted_of_holds hp)] at h
      cases h
    · cases hp
  · subst he
    rcases hpc with h | h <;> cases h

theorem clientTrans_inv (hs : s.Inv) (h : s.ClientTrans i s') : s'.Inv := by
  have hself : ∀ {id id'}, (s.clients i).pc.inserted = some id → s.conns id' = some i → some id = some id' :=
    fun hi hc => hi.symm.trans (hs.entry _ i hc)
  cases h with
  | search pc hearly hpc =>
    apply hs.search hearly
    cases pc with
    | draw | checkConns => exact .inl rfl
    | failed => exact .inr rfl
    | _ => cases hpc
  | unregistered n id hpc => exact hs.search (by rw [hpc]; rfl) (.inl rfl)
  | allocated n id hpc => exact hs.search (by rw [hpc]; rfl) (.inl rfl)
  | insert id hpc => exact hs.insert hpc
  | sent id hpc =>
    refine hs.setPc (fun id' hc => hself (by rw [hpc]; rfl) hc) (fun id' hp => ?_) (fun he => by cases he) fun _ _ he => by cases he
    rw [hpc]
    exact hp
  | refused id hpc =>
    exact hs.setPc (fun id' hc => hself (by rw [hpc]; rfl) hc) (fun id' hp => by cases hp) (fun he => by cases he)
      fun _ _ he => by cases he
  | withdraw id p hpc hp =>
    have hrem : (s.removeIf id p fun v => if v = i then none else some .displaced).Inv := by
      refine hs.removeIf fun v hv _ hholds => .inl (if_neg ?_)
      rintro rfl
      rw [hpc] at hholds
      cases hholds
    refine hrem.setPc (fun id' hc => ?_) (fun id' hp => by cases hp) (fun he => by cases he) fun _ _ he => by cases he
    have hins := hrem.entry id' i hc
    rw [removeIf_clients, hpc] at hins
    obtain rfl := Option.some.inj hins
    exact absurd hc (removeIf_gone s id _ hp)
  | bury id hpc =>
    refine (hs.putTimeWait id).setPc (fun id' hc => hself (by rw [hpc]; rfl) hc) (fun id' hp => ?_) (fun he => by cases he) ?_
    · rw [show ((s.putTimeWait id).clients i).pc = _ from hpc]
      exact hp
    · intro id' since he
      cases he
      exact List.mem_cons_self
  | leave id since hpc =>
    have hmem := hs.leaving i id since hpc
    have hrem : (s.removeIf id (· == i) fun _ => some (.torn since)).Inv :=
      hs.removeIf fun v _ _ _ => .inr ⟨since, rfl, hmem⟩
    have hpc' : ((s.removeIf id (· == i) fun _ => some (.torn since)).clients i).pc = .leaving id since := by
      rw [removeIf_clients]
      exact hpc
    refine hrem.setPc (fun id' hc => ?_) (fun id' hp => ?_) (fun he => by cases he) fun _ _ he => by cases he
    · have := hrem.entry id' i hc
      rw [hpc'] at this
      exact this
    · rw [hpc']
      exact hp

theorem run_inv {P : ConnIds → Prop} {es : List Event} (h : s.run es = some s') (hs : P s)
    (hstep : ∀ x y e, P x → x.step e = some y → P y) : P s' := by
  induction es generalizing s with
  | nil =>
    obtain rfl := Option.some.inj h
    exact hs
  | cons e es ih =>
    obtain ⟨x, hx, hr⟩ := Option.bind_eq_some_iff.mp h
    exact ih hr (hstep s x e hs hx)

/-- A teardown puts its TIME_WAIT entry before anything else. -/
theorem Inv.tearDown (hs : s.Inv) (id : ConnId) (visited : Option ℕ) :
    Inv { s.putTimeWait id with teardowns := ⟨id, s.now, visited⟩ :: s.teardowns } := by
  have hput := hs.putTimeWait id
  refine ⟨hput.marked, hput.entry, hput.kept, hput.gone, hput.fresh, ?_, hput.leaving⟩
  intro t ht
  rcases List.mem_cons.mp ht with rfl | ht
  · exact List.mem_cons_self
  · exact hput.teardowns t ht

theorem step_inv {e : Event} (hs : s.Inv) (h : s.step e = some s') : s'.Inv := by
  cases step_trans h with
  | client i ht => exact clientTrans_inv hs ht
  | tearDown id visited => exact hs.tearDown id visited
  | remove t p ht =>
    have hrem : (s.removeIf t.id p fun _ => some (.torn t.since)).Inv :=
      hs.removeIf fun v _ _ _ => .inr ⟨t.since, rfl, hs.teardowns t ht⟩
    refine ⟨hrem.marked, hrem.entry, hrem.kept, hrem.gone, hrem.fresh, ?_, hrem.leaving⟩
    intro u hu
    show (u.id, u.since) ∈ (s.removeIf t.id _ _).tombs
    rw [removeIf_tombs]
    exact hs.teardowns u (List.mem_of_mem_erase hu)
  | expire id t₀ ht₀ haged =>
    refine ⟨fun id' t ht => ?_, hs.entry, hs.kept, hs.gone, hs.fresh, hs.teardowns, hs.leaving⟩
    obtain ⟨hle, ⟨t', ht', hle'⟩ | hm⟩ := hs.marked id' t ht
    · refine ⟨hle, ?_⟩
      by_cases hid : id' = id
      · subst hid
        obtain rfl := Option.some.inj (ht₀.symm.trans ht')
        right
        show t + timeWaitTtl ≤ s.now
        omega
      · exact .inl ⟨t', (Function.update_of_ne hid ..).trans ht', hle'⟩
    · exact ⟨hle, .inr hm⟩
  | tick d =>
    refine ⟨fun id t ht => ?_, hs.entry, hs.kept, hs.gone, hs.fresh, hs.teardowns, hs.leaving⟩
    obtain ⟨hle, hm⟩ := hs.marked id t ht
    exact ⟨Nat.le_add_right_of_le hle, hm.imp_right Nat.le_add_right_of_le⟩

/-! ## A call beside the others -/

theorem tombs_step {e : Event} (h : s.step e = some s') : s.tombs ⊆ s'.tombs := by
  have hrem : ∀ id p fate, s.tombs ⊆ (s.removeIf id p fate).tombs := by
    intro id p fate
    rw [removeIf_tombs]
    exact List.Subset.refl _
  cases step_trans h with
  | client i ht =>
    cases ht with
    | withdraw | leave => exact hrem _ _ _
    | bury => exact List.subset_cons_self _ _
    | _ => exact List.Subset.refl _
  | tearDown => exact List.subset_cons_self _ _
  | remove t p => exact hrem _ _ _
  | _ => exact List.Subset.refl _

theorem fate_step {e : Event} (hs : s.Inv) (h : s.step e = some s') {f : Fate} (hf : s.left i = some f) :
    s'.left i = some f := by
  cases step_trans h with
  | client j ht =>
    cases ht with
    | insert => exact hs.left_insert (i := j) hf
    | withdraw | leave => exact hs.left_removeIf hf
    | _ => exact hf
  | remove => exact hs.left_removeIf hf
  | _ => exact hf

/-- The history only grows. -/
theorem left_step {e : Event} (hs : s.Inv) (h : s.step e = some s') (hl : s.Left i id) : s'.Left i id := by
  rcases hl with ⟨since, hf, hm⟩ | hf
  · exact .inl ⟨since, fate_step hs h hf, tombs_step h hm⟩
  · exact .inr (fate_step hs h hf)

theorem clientTrans_ne (h : s.ClientTrans i s') (hne : j ≠ i) : s'.clients j = s.clients j := by
  cases h with
  | withdraw id p => rw [setPc_ne _ _ hne, removeIf_clients]
  | leave id since => rw [setPc_ne _ _ hne, removeIf_clients]
  | insert id => exact setPc_ne (s.insert id i) _ hne
  | bury id => exact setPc_ne (s.putTimeWait id) _ hne
  | _ => exact setPc_ne s _ hne

/-- Only a handler's own steps change where it is. -/
theorem clients_step {e : Event} (h : s.step e = some s') :
    s.ClientTrans j s' ∨ s'.clients j = s.clients j := by
  cases step_trans h with
  | client i ht =>
    by_cases hij : j = i
    · subst hij
      exact .inl ht
    · exact .inr (clientTrans_ne ht hij)
  | remove t p => exact .inr (congrFun (removeIf_clients s t.id p _) j)
  | _ => exact .inr rfl

/-- Once the SYN is queued, the handler stays with its id. -/
theorem queued_step {e : Event} (h : s.step e = some s') (hq : (s.clients i).pc.queued = some id) :
    (s'.clients i).pc.queued = some id := by
  rcases clients_step (j := i) h with ht | hsame
  · cases ht with
    | search pc hearly =>
      rw [ClientPc.early_of_inserted (ClientPc.inserted_of_holds (ClientPc.holds_of_queued hq))] at hearly
      cases hearly
    | unregistered n id' hpc | allocated n id' hpc | insert id' hpc | sent id' hpc | refused id' hpc
    | withdraw id' p hpc =>
      rw [hpc] at hq
      cases hq
    | bury id' hpc | leave id' since hpc =>
      rw [hpc] at hq
      rw [setPc_self]
      exact hq
  · rw [hsame]
    exact hq

/-- What the call of handler `j` knows of the connections that were registered, their SYNs queued, in `s₀`: once
it did not find its id in `conns`, they have left. -/
structure Calling (s₀ : ConnIds) (j : ℕ) (s : ConnIds) : Prop where
  inv : s.Inv
  queued : ∀ i id, (s₀.clients i).pc.queued = some id → (s.clients i).pc.queued = some id
  drawn : ∀ n id, (s.clients j).pc = .checkConns n id → id ≠ 0
  looked : ∀ n id, (s.clients j).pc = .checkTimeWait n id →
    id ≠ 0 ∧ ∀ i, (s₀.clients i).pc.queued = some id → s.Left i id

theorem calling_step {s₀ : ConnIds} {e : Event} (hs : s₀.Calling j s) (h : s.step e = some s') :
    s₀.Calling j s' := by
  have hinv := step_inv hs.inv h
  have hqueued := fun i id hq => queued_step h (hs.queued i id hq)
  rcases clients_step (j := j) h with ht | hsame
  · cases ht with
    | search pc hearly hpc =>
      refine ⟨hinv, hqueued, fun n id he => ?_, fun n id he => ?_⟩
      · rw [setPc_self] at he
        subst he
        exact bne_iff_ne.mp hpc
      · rw [setPc_self] at he
        subst he
        cases hpc
    | unregistered n id hpc hnone =>
      refine ⟨hinv, hqueued, fun n' id' he => ?_, fun n' id' he => ?_⟩
      · rw [setPc_self] at he
        cases he
      · rw [setPc_self] at he
        cases he
        refine ⟨hs.drawn n id hpc, fun i hq => ?_⟩
        rcases hs.inv.kept i id (ClientPc.holds_of_queued (hs.queued i id hq)) with hc | hl
        · cases hnone.symm.trans hc
        · exact hl
    | _ =>
      refine ⟨hinv, hqueued, fun n' id' he => ?_, fun n' id' he => ?_⟩
      · rw [setPc_self] at he
        cases he
      · rw [setPc_self] at he
        cases he
  · refine ⟨hinv, hqueued, fun n id he => ?_, fun n id he => ?_⟩
    · rw [hsame] at he
      exact hs.drawn n id he
    · rw [hsame] at he
      obtain ⟨h0, hl⟩ := hs.looked n id he
      exact ⟨h0, fun i hq => left_step hs.inv h (hl i hq)⟩

/-- A call of `alloc_conn_id` that draws 7 and finds it free. -/
def drawSeven (i : ℕ) : List Event := List.replicate 4 (.client i 7 true)

/-- Client 0 is served and leaves; its TIME_WAIT entry expires. -/
def leaves : List Event :=
  [Event.client 0 0 true, .client 0 0 true, .tick 60000, .expire 7] ++ List.replicate 3 (Event.client 1 7 true)

/-- Clients 0 and 1 both draw 7 before either registers; client 0 registers and its SYN is queued. -/
def drawnTwice : List Event := drawSeven 0 ++ drawSeven 1 ++ [Event.client 0 0 true, .client 0 0 true]

/-- Client 1 overwrites the entry, no tunnel takes its SYN, and it removes its own entry; client 2 draws 7. -/
def overwritten : List Event :=
  [Event.client 1 0 true, .client 1 0 false, .client 1 0 true] ++ List.replicate 3 (Event.client 2 7 true)

/-- Clients 0, a UDP relay, and 1 both draw 7; client 1 overwrites the entry, and its SYN is queued. -/
def drawnByUdp : List Event :=
  drawSeven 0 ++ drawSeven 1 ++ [Event.client 0 0 true, .client 1 0 true, .client 1 0 true]

/-- No tunnel takes the SYN of the UDP relay, and it removes what is registered; client 2 draws 7. -/
def takenByUdp : List Event :=
  [Event.client 0 0 false, .client 0 0 true] ++ List.replicate 3 (Event.client 2 7 true)

end ConnIds

end RoundRobin.Splitter
