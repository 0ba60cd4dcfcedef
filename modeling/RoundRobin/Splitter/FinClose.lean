import RoundRobin.Splitter.Client

/-!
# RoundRobin.Splitter.FinClose — what a remote FIN does to the client's side

The README promises that both ends half-close their write side once every chunk below the FIN's
`next_seq` is delivered.  On the splitter the client channel closes when its last sender is dropped,
which is the end of the client task; the FIN handler and the client loop only take note of the FIN.
`exec_effect` says once what each instruction can do to this decision.
-/

namespace RoundRobin.Splitter

open Instr TaskSystem

/-! ## What an instruction does to the close decision -/

/-- The client task is in its loop, or about to enter it. -/
def Instr.reading : Instr → Bool
  | clientSyn | clientSelect _ | clientWoken _ => true
  | _ => false

/-- The FIN an instruction takes note of. -/
def finSeen (s : Conn) : Instr → List ℕ
  | handleFrame f => if !f.has flagData && f.has flagFin && s.registered then [f.seq.toNat] else []
  | _ => []

/-- Seq `k` becomes ready by the instruction. -/
def readies (vc : VirtConn) (k : ℕ) : Instr → Bool
  | onFrame f =>
    decide (vc.reorder.expected ≤ k) &&
      decide (k < vc.reorder.expected + (vc.reorder.push f.seq.toNat f.payload).2.ready.length)
  | _ => false

/-- What an instruction can do to the parts of the state the close decision is about, and to the
control flow of the client task. -/
structure Effect (s : Conn) (i : Instr) (s' : Conn) (is : List Instr) : Prop where
  fins : s'.fins = s.fins ++ finSeen s i
  delivered : ∀ k ∈ s'.vc.delivered, k ∈ s.vc.delivered ∨ readies s.vc k i = true
  isOpen : s.vc.toClientTx.isOpen = false → s'.vc.toClientTx.isOpen = false
  handle : s'.handle = true ↔ s.handle = true ∧ i ≠ dropVconn
  registered : s'.registered = true → s.registered = true ∧ i ≠ removeIf
  closed : s'.vc.closed = true → s.vc.closed = true ∨ i = storeClosed
  reading : (∃ j ∈ is, j.reading = true) → i.reading = true
  drops : dropVconn ∈ is → i = clientSyn

theorem mem_acceptedSeqs {k q : ℕ} {bs : List Bool} (h : k ∈ VirtConn.acceptedSeqs q bs) :
    q ≤ k ∧ k < q + bs.length := by
  induction bs generalizing q with
  | nil => cases h
  | cons b bs ih =>
    simp only [VirtConn.acceptedSeqs, List.mem_append] at h
    simp only [List.length_cons]
    rcases h with h | h
    · split_ifs at h
      · obtain rfl := List.mem_singleton.mp h
        omega
      · cases h
    · have := ih h
      omega

theorem onFrame_effect (vc : VirtConn) (con : Consumer) (f : Frame) :
    (∀ k ∈ (vc.onFrame con f.seq.toNat f.payload).1.delivered,
      k ∈ vc.delivered ∨ readies vc k (onFrame f) = true) ∧
    (vc.toClientTx.isOpen = false →
      (vc.onFrame con f.seq.toNat f.payload).1.toClientTx.isOpen = false) ∧
    (vc.onFrame con f.seq.toNat f.payload).1.closed = vc.closed := by
  unfold VirtConn.onFrame
  by_cases ha : (vc.reorder.push f.seq.toNat f.payload).2.accepted = true
  · simp only [ha, Bool.not_true, Bool.false_eq_true, if_false, List.mem_append]
    refine ⟨fun k hk => hk.imp_right fun hk => ?_, fun h => Chan.sendAll_closed con 0 _ h, trivial⟩
    have := mem_acceptedSeqs hk
    rw [Chan.length_sendAll] at this
    simpa [readies] using this
  · simp only [ha, Bool.not_false, if_true]
    exact ⟨fun k hk => .inl hk, fun h => h, trivial⟩

/-- Most instructions touch none of it. -/
theorem Effect.still {s s' : Conn} {i : Instr} {is : List Instr}
    (hs : (s'.fins, s'.vc.delivered, s'.vc.toClientTx, s'.handle, s'.registered, s'.vc.closed) =
      (s.fins, s.vc.delivered, s.vc.toClientTx, s.handle, s.registered, s.vc.closed))
    (hi : finSeen s i = [] ∧ i ≠ dropVconn ∧ i ≠ removeIf)
    (his : ∀ j ∈ is, (j.reading = true → i.reading = true) ∧ (j = dropVconn → i = clientSyn)) :
    Effect s i s' is := by
  simp only [Prod.mk.injEq] at hs
  obtain ⟨hf, hd, ht, hh, hr, hc⟩ := hs
  exact {
    fins := by rw [hf, hi.1, List.append_nil]
    delivered := fun k hk => .inl (hd ▸ hk)
    isOpen := fun h => by rw [ht, h]
    handle := by rw [hh, and_iff_left hi.2.1]
    registered := fun h => ⟨hr ▸ h, hi.2.2⟩
    closed := fun h => .inl (hc ▸ h)
    reading := fun ⟨j, hj, hjr⟩ => (his j hj).1 hjr
    drops := fun hj => (his _ hj).2 rfl }

theorem handleFrame_effect (s : Conn) (f : Frame) :
    Effect s (handleFrame f) (execHandle s f).1 (execHandle s f).2 := by
  unfold execHandle
  cases hd : f.has flagData with
  | true => exact .still rfl (by simp [finSeen, hd]) (by cases s.registered <;> simp [reading])
  | false =>
    cases hf : f.has flagFin with
    | false =>
      refine .still (by cases f.has flagRst <;> rfl) (by simp [finSeen, hf]) ?_
      cases f.has flagRst <;> simp [resetConn, reading]
    | true =>
      cases hr : s.registered with
      | false => exact .still rfl (by simp [finSeen, hr]) (by simp)
      | true =>
        exact ⟨by simp [finSeen, hd, hf, hr], fun k hk => .inl hk, id, by simp, by simp [hr],
          .inl, by simp [reading], by simp⟩

theorem exec_effect {s s' : Conn} {i : Instr} {ch : Choice} {is : List Instr}
    (h : exec s i ch = some (s', is)) : Effect s i s' is := by
  cases i with
  | handleFrame f =>
    have he := handleFrame_effect s f
    rwa [Option.some.inj h] at he
  | onFrame f =>
    simp only [exec] at h
    split at h
    · rename_i con
      cases h
      obtain ⟨hdel, hopen, hcl⟩ := onFrame_effect s.vc con f
      exact {
        fins := by simp [finSeen]
        delivered := hdel
        isOpen := hopen
        handle := by simp
        registered := fun hr => ⟨hr, by simp⟩
        closed := fun hc => .inl (hcl ▸ hc)
        reading := by split_ifs <;> simp [resetConn, reading]
        drops := by split_ifs <;> simp [resetConn] }
    · cases h
  | connsRemove =>
    simp only [exec] at h
    split_ifs at h <;> cases h
    · exact ⟨by simp [finSeen], fun k hk => .inl hk, id, by simp, by simp, .inl, by simp [reading],
        by simp⟩
    · exact .still rfl (by simp [finSeen]) (by simp)
  | removeIf =>
    cases h
    exact ⟨by simp [finSeen], fun k hk => .inl hk, id, by simp, by simp, .inl, by simp, by simp⟩
  | connsForget =>
    cases h
    exact ⟨by simp [finSeen], fun k hk => .inl hk, id, by simp, by simp, .inl, by simp, by simp⟩
  | dropVconn =>
    cases h
    exact ⟨by simp [finSeen], fun k hk => .inl hk, id, by simp, by simp, .inl, by simp, by simp⟩
  | storeClosed =>
    cases h
    exact ⟨by simp [finSeen], fun k hk => .inl hk, id, by simp, by simp, fun _ => .inr rfl, by simp,
      by simp⟩
  | _ =>
    simp only [exec, execSelect, execFin, execWait] at h
    (repeat' split at h)
    all_goals cases h
    all_goals
      refine .still rfl (by simp [finSeen]) ?_
      simp [teardown, sweepOrphan, sweepClose, reading]

/-! ## A complete response -/

/-- The response may be complete once `i` has run: every chunk below a FIN, one that `i` brings
included, was accepted or becomes ready by `i`. -/
def completes (s : Conn) (i : Instr) : Bool :=
  decide (∃ q ∈ s.fins ++ finSeen s i, ∀ k < q, 1 ≤ k → k ∈ s.vc.delivered ∨ readies s.vc k i = true)

/-- Some task is the client's, still in its loop. -/
def clientReading (ts : List (List Instr)) : Bool := ts.any fun t => t.any Instr.reading

/-- No step completes the response while the client task is in its loop, unless the client's writer
has already ended. -/
def late : Guard Conn Instr Choice
  | s, rest, i :: k, _ =>
    !completes s i || !clientReading ((i :: k) :: rest) || !s.vc.toClientTx.isOpen
  | _, _, [], _ => true

theorem Effect.completes {s s' : Conn} {i : Instr} {is : List Instr} (h : Effect s i s' is)
    (hc : s'.Complete) : Splitter.completes s i = true := by
  obtain ⟨q, hq, hk⟩ := hc
  rw [h.fins] at hq
  exact decide_eq_true ⟨q, hq, fun k hkq hk1 => h.delivered k (hk k hkq hk1)⟩

theorem clientReading_eq_false {ts : List (List Instr)} :
    clientReading ts = false ↔ ∀ t ∈ ts, ∀ j ∈ t, j.reading = false := by
  simp [clientReading]

/-- The invariant of the runs within `late`. -/
def Late (x : Config Conn Instr) : Prop :=
  x.shared.Complete → clientReading x.tasks = false ∨ x.shared.vc.toClientTx.isOpen = false

theorem late_step {y z : Config Conn Instr} (hy : Late y) (hs : system.Step late y z) : Late z := by
  cases hs with
  | @task s s' l r i k is ch he hok =>
    intro hc
    have heff := exec_effect he
    simp only [late, heff.completes hc, Bool.not_true, Bool.false_or, Bool.or_eq_true,
      Bool.not_eq_true'] at hok
    refine hok.imp (fun hr => ?_) heff.isOpen
    rw [clientReading_eq_false] at hr ⊢
    intro t ht j hj
    rcases List.mem_append.mp ht with hl | hcons
    · exact hr t (by simp [hl]) j hj
    · rcases List.mem_cons.mp hcons with rfl | hr'
      · rcases List.mem_append.mp hj with hj | hj
        · by_contra hjr
          have hi := heff.reading ⟨j, hj, by simpa using hjr⟩
          rw [hr (i :: k) (by simp) i (by simp)] at hi
          cases hi
        · exact hr (i :: k) (by simp) j (by simp [hj])
      · exact hr t (by simp [hr']) j hj
  | @spawn s ts t h =>
    intro hc
    refine (hy hc).imp_left fun hr => ?_
    rw [clientReading_eq_false] at hr ⊢
    intro u hu j hj
    rcases List.mem_append.mp hu with hu | hu
    · exact hr u hu j hj
    · obtain rfl := List.mem_singleton.mp hu
      cases h with
      | frame f => simp_all [reading]
      | sweep => simp_all [reading]
      | lost _ =>
        simp only [resetConn, List.mem_cons, List.not_mem_nil, or_false] at hj
        rcases hj with rfl | rfl | rfl <;> rfl
  | env h =>
    cases h with
    | writerRecv ch a hrecv =>
      intro hc
      refine (hy hc).imp_right fun ho => ?_
      unfold Chan.recv at hrecv
      split at hrecv
      · cases hrecv
      · cases hrecv
        exact ho
    | writerFailed => exact fun _ => .inr rfl

/-! ## The client task lets go -/

/-- As long as the client task holds the connection, or `conns` does, the step that lets go of it is
still ahead. -/
def Holding (x : Config Conn Instr) : Prop :=
  (x.shared.handle = true → Ahead x dropVconn ∨ Ahead x clientSyn) ∧
  (x.shared.registered = true → Ahead x removeIf ∨ Ahead x clientSyn)

theorem clientSyn_holds {s s' : Conn} {ch : Choice} {is : List Instr}
    (h : exec s clientSyn ch = some (s', is)) : dropVconn ∈ is ∧ removeIf ∈ is := by
  simp only [exec] at h
  split at h
  all_goals cases h
  all_goals simp [teardown]

theorem holding_step {ok : Guard Conn Instr Choice} {y z : Config Conn Instr} (hy : Holding y)
    (hs : system.Step ok y z) : Holding z := by
  cases hs with
  | @task s s' l r i k is ch he _ =>
    have heff := exec_effect he
    have hsyn : ∀ j, Ahead ⟨s, l ++ (i :: k) :: r⟩ clientSyn → j = dropVconn ∨ j = removeIf →
        Ahead ⟨s', l ++ (is ++ k) :: r⟩ j ∨
          Ahead ⟨s', l ++ (is ++ k) :: r⟩ clientSyn := by
      intro j ha hj
      rcases ahead_task ha with rfl | ha'
      · obtain ⟨h1, h2⟩ := clientSyn_holds he
        rcases hj with rfl | rfl
        · exact .inl (ahead_new h1)
        · exact .inl (ahead_new h2)
      · exact .inr ha'
    refine ⟨fun hh => ?_, fun hr => ?_⟩
    · obtain ⟨hh0, hne⟩ := heff.handle.mp hh
      rcases hy.1 hh0 with ha | ha
      · exact .inl ((ahead_task ha).resolve_left hne)
      · exact hsyn _ ha (.inl rfl)
    · obtain ⟨hr0, hne⟩ := heff.registered hr
      rcases hy.2 hr0 with ha | ha
      · exact .inl ((ahead_task ha).resolve_left hne)
      · exact hsyn _ ha (.inr rfl)
  | spawn h =>
    exact ⟨fun hh => (hy.1 hh).imp ahead_spawn ahead_spawn,
      fun hr => (hy.2 hr).imp ahead_spawn ahead_spawn⟩
  | env h =>
    cases h with
    | writerRecv _ _ _ => exact hy
    | writerFailed => exact hy

/-- No handler is mid-step: the client task waits for its client or has ended, and every other task
has. -/
def Resting (x : Config Conn Instr) : Prop :=
  ∀ t ∈ x.tasks, t = [] ∨ ∃ seq k, t = clientSelect seq :: k

theorem resting_quiet {x : Config Conn Instr} (h : Resting x) (hr : clientReading x.tasks = false) :
    Quiet x := by
  intro t ht
  rcases h t ht with rfl | ⟨seq, k, rfl⟩
  · rfl
  · have := clientReading_eq_false.mp hr _ ht (clientSelect seq) (by simp)
    cases this

/-! ## An undisturbed client -/

/-- Nothing ends the client's loop: the client neither closes nor fails, its bytes find a tunnel, and
nobody marks the connection closed. -/
def undisturbed : Guard Conn Instr Choice
  | _, _, storeClosed :: _, _ => false
  | _, _, clientSyn :: _, .unsent => false
  | _, _, clientSelect _ :: _, .read _ false => false
  | _, _, clientSelect _ :: _, .eof => false
  | _, _, clientSelect _ :: _, .readError => false
  | _, _, _, _ => true

/-- The client task keeps its handle: the step that drops it is always behind the loop. -/
structure Kept (x : Config Conn Instr) : Prop where
  handle : x.shared.handle = true
  closed : x.shared.vc.closed = false
  behind : ∀ t ∈ x.tasks, dropVconn ∈ t → ∃ i k, t = i :: k ∧ i.reading = true

theorem exec_stays {s s' : Conn} {i : Instr} {ch : Choice} {is k : List Instr} {rest : List (List Instr)}
    (h : exec s i ch = some (s', is)) (hok : undisturbed s rest (i :: k) ch = true)
    (hi : i.reading = true) (hc : s.vc.closed = false) : ∃ j js, is = j :: js ∧ j.reading = true := by
  cases i with
  | clientSyn =>
    simp only [exec] at h
    split at h
    all_goals cases h
    · exact ⟨_, _, rfl, rfl⟩
    · cases hok
  | clientSelect seq =>
    simp only [exec, execSelect] at h
    split at h
    · cases h
      exact ⟨_, _, rfl, rfl⟩
    · cases hok
    · cases hok
    · cases hok
    · split_ifs at h
      cases h
      exact ⟨_, _, rfl, rfl⟩
    · cases h
  | clientWoken seq =>
    cases h
    simp only [hc, Bool.false_eq_true, if_false]
    exact ⟨_, _, rfl, rfl⟩
  | _ => cases hi

theorem kept_step {y z : Config Conn Instr} (hy : Kept y) (hs : system.Step undisturbed y z) :
    Kept z := by
  obtain ⟨hh, hc, hb⟩ := hy
  cases hs with
  | @task s s' l r i k is ch he hok =>
    have heff := exec_effect he
    have hhead : dropVconn ∈ i :: k → i.reading = true := by
      intro hd
      obtain ⟨j, js, hj, hr⟩ := hb (i :: k) (by simp) hd
      rw [(List.cons.inj hj).1]
      exact hr
    refine ⟨heff.handle.mpr ⟨hh, ?_⟩, ?_, fun t ht hd => ?_⟩
    · rintro rfl
      cases hhead (by simp)
    · cases hcl : s'.vc.closed with
      | false => rfl
      | true =>
        rcases heff.closed hcl with h | rfl
        · rw [show s.vc.closed = false from hc] at h
          cases h
        · cases hok
    · rcases List.mem_append.mp ht with hl | hcons
      · exact hb t (by simp [hl]) hd
      · rcases List.mem_cons.mp hcons with rfl | hr
        · have hi : i.reading = true := by
            rcases List.mem_append.mp hd with hd | hd
            · rw [heff.drops hd]
              rfl
            · exact hhead (by simp [hd])
          obtain ⟨j, js, rfl, hj⟩ := exec_stays he hok hi hc
          exact ⟨j, js ++ k, rfl, hj⟩
        · exact hb t (by simp [hr]) hd
  | @spawn s ts t h =>
    refine ⟨hh, hc, fun u hu hd => ?_⟩
    rcases List.mem_append.mp hu with hu | hu
    · exact hb u hu hd
    · obtain rfl := List.mem_singleton.mp hu
      cases h <;> simp [resetConn] at hd
  | env h =>
    cases h with
    | writerRecv _ _ _ => exact ⟨hh, hc, hb⟩
    | writerFailed => exact ⟨hh, hc, hb⟩

/-! ## When the client's side is closed -/

/-- **A remote FIN alone never closes the client's side.**  In every run in which the response is
completed only after the client task has left its loop (or its writer has ended), the write half has
been told to close in every state with a complete response in which no handler is mid-step.  And as
long as the client neither closes nor fails and the connection is not reset or swept, nothing tells the
write half to close, whatever frames arrive. -/
theorem response_closed (c : ConnId) (window : ℕ) :
    (∀ x, system.Runs late (start c window) x → Resting x → x.shared.Complete →
      x.shared.ToldToClose) ∧
    ∀ x, system.Runs undisturbed (start c window) x → x.shared.vc.toClientTx.isOpen = true →
      ¬ x.shared.ToldToClose := by
  refine ⟨fun x hx hrest hcomplete => ?_, fun x hx hopen => ?_⟩
  · have hlate : Late x := hx.inv (by rintro ⟨q, hq, -⟩; cases hq) fun y z => late_step
    have hhold : Holding x := by
      refine hx.inv ⟨fun _ => .inr ?_, fun _ => .inr ?_⟩ fun y z => holding_step
      · exact ⟨_, List.mem_singleton.mpr rfl, List.mem_singleton.mpr rfl⟩
      · exact ⟨_, List.mem_singleton.mpr rfl, List.mem_singleton.mpr rfl⟩
    rcases hlate hcomplete with hr | ho
    · have hquiet := resting_quiet hrest hr
      have hgone : ∀ j j', ¬ (Ahead x j ∨ Ahead x j') := fun j j' h =>
        h.elim (hquiet.not_ahead j) (hquiet.not_ahead j')
      refine .inl ⟨?_, ?_⟩
      · exact Bool.eq_false_iff.mpr fun hreg => hgone _ _ (hhold.2 hreg)
      · exact Bool.eq_false_iff.mpr fun hh => hgone _ _ (hhold.1 hh)
    · exact .inr ho
  · have hkept : Kept x := by
      refine hx.inv ⟨rfl, rfl, fun t ht hd => ?_⟩ fun y z => kept_step
      obtain rfl := List.mem_singleton.mp ht
      simp at hd
    rintro (⟨-, hh⟩ | ho)
    · rw [hkept.handle] at hh
      cases hh
    · rw [hopen] at ho
      cases ho

/-- A move that steps a task or starts the handler of a frame. -/
def isFrameMove : Move Conn Instr Choice → Bool
  | .step _ _ => true
  | .start [handleFrame _] => true
  | _ => false

theorem allowed_of_isFrameMove {m : List (Move Conn Instr Choice)}
    (h : m.all isFrameMove = true) : ∀ a ∈ m, system.Allowed a := by
  intro a ha
  have hf := List.all_eq_true.mp h a ha
  unfold isFrameMove at hf
  split at hf
  · trivial
  · exact fun s => Spawn.frame _
  · cases hf

/-- The handlers of a one-chunk response and its FIN, as tasks 1 and 2. -/
def responseMoves : List (Move Conn Instr Choice) :=
  [.start [handleFrame (.data 7 1 [65])], .step 1 .go, .step 1 (.consumer .idle),
    .start [handleFrame (.fin 7 2)], .step 2 .go, .step 2 .go, .step 2 .go, .step 2 .go]

/-- The client closes first; the response arrives during the grace wait. -/
def eofSchedule : List (Move Conn Instr Choice) :=
  [Move.step 0 Choice.sent, .step 0 .eof, .step 0 .sent, .step 0 .go] ++ responseMoves ++
    [Move.step 0 Choice.go, .step 0 .go, .step 0 .go, .step 0 .go, .step 0 .go, .step 0 .go, .step 0 .go]

theorem response_closed_after_eof :
    ∃ x, system.Runs late (start 7 maxReorderBytes) x ∧ x.shared.Complete ∧
      x.shared.ToldToClose := by
  obtain ⟨x, hx, hp⟩ := moves_exists (M := system) (g := late) (x := start 7 maxReorderBytes)
    (p := fun y => decide (y.tasks = [[], [], []] ∧ y.shared.Complete))
    (m := eofSchedule) (allowed_of_isFrameMove rfl) (by decide)
  obtain ⟨ht, hc⟩ := of_decide_eq_true hp
  refine ⟨x, hx, hc, (response_closed 7 maxReorderBytes).1 x hx (fun t hmem => .inl ?_) hc⟩
  rw [ht] at hmem
  simpa using hmem

/-- The same response while the client is idle in its loop, which it wakes up. -/
def idleSchedule : List (Move Conn Instr Choice) :=
  [Move.step 0 Choice.sent] ++ responseMoves ++ [Move.step 0 Choice.notified, .step 0 .go]

/-- **The client of a finished response is left hanging.**  A response of one chunk and its FIN arrive
while the client is idle: the chunk is delivered, no handler is mid-step, and the write half has not
been told to close. -/
theorem response_left_open :
    ∃ x, system.Runs free (start 7 maxReorderBytes) x ∧ Resting x ∧ x.shared.Complete ∧
      ¬ x.shared.ToldToClose := by
  obtain ⟨x, hx, hp⟩ := moves_exists (M := system) (g := free) (x := start 7 maxReorderBytes)
    (p := fun y => decide (y.tasks = [clientSelect 1 :: teardown, [], []] ∧ y.shared.Complete ∧
      ¬ y.shared.ToldToClose))
    (m := idleSchedule) (allowed_of_isFrameMove rfl) (by decide)
  obtain ⟨ht, hc, hn⟩ := of_decide_eq_true hp
  refine ⟨x, hx, fun t hmem => ?_, hc, hn⟩
  rw [ht] at hmem
  simp only [List.mem_cons, List.not_mem_nil, or_false] at hmem
  rcases hmem with rfl | rfl | rfl
  · exact .inr ⟨1, teardown, rfl⟩
  · exact .inl rfl
  · exact .inl rfl

end RoundRobin.Splitter
