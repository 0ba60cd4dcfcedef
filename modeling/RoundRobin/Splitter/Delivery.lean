import RoundRobin.Splitter.State

/-!
# RoundRobin.Splitter.Delivery — what the client's writer gets to see

`VirtConn::on_frame` of `src/splitter.rs`, one `try_send` at a time: the reorder lock serialises the
calls, the client's writer receives at any point, also between two `try_send`s of one call, and further
calls may come before a reset takes effect.  `p k` is chunk number `k` of the response.

The reorder buffer moves past a chunk before the client channel accepts it, and the loop goes on after a
refused one.  Whether the client gets to see the hole depends on the writer: `holes` is a `try_send` that
finds a free slot after an earlier one was refused, and the stream is in order exactly in the runs without
it (`client_stream_in_order`).  A call with whatever consumer is such a run (`onFrame_run`).
-/

namespace RoundRobin.Splitter

/-- A TCP connection's delivery path.  `todo` are the ready chunks, with their seqs, that the running call
has still to send, `overflow` is the result it is going to return, and `refused` is a history variable: some
chunk was refused. -/
structure Delivery where
  vc : VirtConn
  todo : List (ℕ × Bytes)
  overflow : Bool
  refused : Bool

namespace Delivery

inductive Event where
  /-- A DATA frame: the lock is taken and the frame pushed. -/
  | frame (seq : UInt64)
  /-- The next `try_send` of the running call. -/
  | send
  /-- The client's writer takes the oldest chunk. -/
  | recv
  /-- The writer ends and its receiver is dropped. -/
  | close
  deriving DecidableEq, Repr

/-- Consecutive seqs from `lo` on. -/
def numbered (lo : ℕ) (chunks : List Bytes) : List (ℕ × Bytes) := (List.range' lo chunks.length).zip chunks

def start (window : ℕ) : Delivery := ⟨VirtConn.new window false, [], false, false⟩

/-- One event, if it can happen. -/
def step (p : ℕ → Bytes) (d : Delivery) : Event → Option Delivery
  | .frame seq =>
    if d.todo = [] ∧ seq ≠ 0 then
      let r := d.vc.reorder.push seq.toNat (p seq.toNat)
      if r.2.accepted then
        some { d with
          vc := { d.vc with reorder := r.1 }
          todo := numbered d.vc.reorder.expected r.2.ready
          overflow := false }
      else some { d with vc := { d.vc with reorder := r.1 }, overflow := r.2.overflow }
    else none
  | .send =>
    match d.todo with
    | [] => none
    | x :: rest =>
      match d.vc.toClientTx.trySend x.2 with
      | (.ok, ch) =>
        some { d with
          vc := { d.vc with toClientTx := ch, delivered := d.vc.delivered ++ [x.1] }, todo := rest }
      | (_, ch) =>
        some { vc := { d.vc with toClientTx := ch }, todo := rest, overflow := true, refused := true }
  | .recv =>
    match d.vc.toClientTx.recv with
    | some (_, ch) => some { d with vc := { d.vc with toClientTx := ch } }
    | none => none
  | .close => some { d with vc := { d.vc with toClientTx := d.vc.toClientTx.close } }

def run (p : ℕ → Bytes) (d : Delivery) : List Event → Option Delivery
  | [] => some d
  | e :: es => (d.step p e).bind fun d' => d'.run p es

/-- A chunk was refused and now the channel has a free slot again. -/
def holes (d : Delivery) : Event → Bool
  | .send => d.refused && d.vc.toClientTx.hasRoom
  | _ => false

/-- No step of the run makes a hole. -/
def holeless (p : ℕ → Bytes) (d : Delivery) : List Event → Bool
  | [] => true
  | e :: es => !d.holes e && (d.step p e).all fun d' => d'.holeless p es

/-- The chunks the channel ever accepted are `p 1, .., p k`. -/
def InOrder (p : ℕ → Bytes) (d : Delivery) : Prop :=
  ∃ k, d.vc.delivered = List.range' 1 k ∧ d.vc.toClientTx.log = (List.range' 1 k).map p

/-! ## The events -/

/-- The number of chunks a reorder buffer has released; after the last seq of all, `expected` is 0. -/
def releasedBy (b : ReorderBuf) : ℕ := if b.expected = 0 then 2 ^ 64 - 1 else b.expected - 1

def released (d : Delivery) : ℕ := releasedBy d.vc.reorder

/-- What a step does, event by event. -/
inductive Trans (p : ℕ → Bytes) (d : Delivery) : Event → Delivery → Prop where
  | ready (seq : UInt64) (r : ℕ) (b : ReorderBuf) : d.todo = [] → seq ≠ 0 →
      seq.toNat = d.vc.reorder.expected → d.vc.reorder.Drained r b →
      Trans p d (.frame seq) { d with
        vc := { d.vc with reorder := b }
        todo := numbered seq.toNat (d.vc.reorder.readyRun (p seq.toNat) r)
        overflow := false }
  | buffered (seq : UInt64) (b : ReorderBuf) (o : Bool) : d.todo = [] →
      b.expected = d.vc.reorder.expected → b.Inv ∧
      (∀ k c, b.pending.get k = some c → d.vc.reorder.pending.get k = some c ∨
        k = seq.toNat ∧ c = p k) →
      Trans p d (.frame seq) { d with vc := { d.vc with reorder := b }, todo := [], overflow := o }
  | accept (x : ℕ × Bytes) (rest : List (ℕ × Bytes)) (ch : Chan Bytes) : d.todo = x :: rest →
      d.vc.toClientTx.hasRoom = true → ch.log = d.vc.toClientTx.log ++ [x.2] →
      Trans p d .send { d with
        vc := { d.vc with toClientTx := ch, delivered := d.vc.delivered ++ [x.1] }, todo := rest }
  | refuse (x : ℕ × Bytes) (rest : List (ℕ × Bytes)) : d.todo = x :: rest →
      d.vc.toClientTx.hasRoom = false →
      Trans p d .send { d with todo := rest, overflow := true, refused := true }
  | consume (e : Event) (ch : Chan Bytes) : e = .recv ∨ e = .close → ch.log = d.vc.toClientTx.log →
      Trans p d e { d with vc := { d.vc with toClientTx := ch } }

theorem step_trans {p : ℕ → Bytes} {d d' : Delivery} {e : Event} (hinv : d.vc.reorder.Inv)
    (h : d.step p e = some d') : d.Trans p e d' := by
  cases e with
  | frame seq =>
    simp only [step] at h
    split_ifs at h with hguard hacc
    all_goals obtain rfl := Option.some.inj h
    all_goals obtain ⟨htodo, hseq⟩ := hguard
    · rcases ReorderBuf.push_cases hinv seq.toNat (p seq.toNat) with
        ⟨-, hp⟩ | ⟨he, r, b, hd, hp⟩ | ⟨hgt, hs, hc, hp⟩ | ⟨-, -, -, hp⟩
      · rw [hp] at hacc
        cases hacc
      · rw [hp]
        simp only
        rw [← he]
        exact .ready seq r b htodo hseq he hd
      · rw [hp]
        refine .buffered seq _ false htodo rfl ⟨ReorderBuf.buffered_inv hinv hgt seq.toNat_lt hs hc, fun k c hk => ?_⟩
        by_cases hks : k = seq.toNat
        · subst hks
          exact .inr ⟨rfl, by simpa [ReorderBuf.buffered, eq_comm] using hk⟩
        · exact .inl (by simpa [ReorderBuf.buffered, Table.get_put_ne _ _ hks] using hk)
      · rw [hp] at hacc
        cases hacc
    · have hsame : (d.vc.reorder.push seq.toNat (p seq.toNat)).1 = d.vc.reorder := by
        rcases ReorderBuf.push_cases hinv seq.toNat (p seq.toNat) with
          ⟨-, hp⟩ | ⟨-, r, b, -, hp⟩ | ⟨-, -, -, hp⟩ | ⟨-, -, -, hp⟩
        · rw [hp]
        · exact absurd (by rw [hp]) hacc
        · exact absurd (by rw [hp]) hacc
        · rw [hp]
      have hst := Trans.buffered (p := p) (d := d) seq d.vc.reorder
        (d.vc.reorder.push seq.toNat (p seq.toNat)).2.overflow htodo rfl ⟨hinv, fun k c hk => .inl hk⟩
      rw [hsame]
      rw [← htodo] at hst
      exact hst
  | send =>
    simp only [step] at h
    split at h
    · cases h
    · rename_i x rest htodo
      rcases Chan.trySend_cases d.vc.toClientTx x.2 with ⟨hroom, hs⟩ | ⟨hroom, hne, hch⟩
      · rw [hs] at h
        obtain rfl := Option.some.inj h
        exact .accept x rest _ htodo hroom rfl
      · cases hr : d.vc.toClientTx.trySend x.2 with
        | mk res ch =>
          rw [hr] at h hne hch
          obtain rfl : ch = d.vc.toClientTx := hch
          cases res with
          | ok => exact absurd rfl hne
          | full =>
            obtain rfl := Option.some.inj h
            exact .refuse x rest htodo hroom
          | closed =>
            obtain rfl := Option.some.inj h
            exact .refuse x rest htodo hroom
  | recv =>
    simp only [step] at h
    split at h
    · rename_i a ch hr
      obtain rfl := Option.some.inj h
      exact .consume .recv ch (.inl rfl) (Chan.recv_log hr)
    · cases h
  | close =>
    obtain rfl := Option.some.inj h
    exact .consume .close _ (.inr rfl) rfl

theorem run_append (p : ℕ → Bytes) (d : Delivery) (es es' : List Event) :
    d.run p (es ++ es') = (d.run p es).bind fun d' => d'.run p es' := by
  induction es generalizing d with
  | nil => rfl
  | cons e es ih =>
    simp only [List.cons_append, run, Option.bind_assoc]
    exact congrArg _ (funext ih)

/-! ## A whole call -/

section Call

variable (p : ℕ → Bytes) (con : Consumer)

/-- The client's writer takes `n` chunks, or as many as there are. -/
theorem takes_run (n : ℕ) (d : Delivery) :
    ∃ es, d.run p es = some { d with
      vc := { d.vc with
        toClientTx := { d.vc.toClientTx with queue := d.vc.toClientTx.queue.drop n } } } := by
  induction n generalizing d with
  | zero => exact ⟨[], rfl⟩
  | succ n ih =>
    cases hq : d.vc.toClientTx.queue with
    | nil =>
      refine ⟨[], ?_⟩
      rw [List.drop_nil, ← hq]
      rfl
    | cons a q =>
      have hrecv : d.step p .recv = some { d with
          vc := { d.vc with toClientTx := { d.vc.toClientTx with queue := q } } } := by
        simp [step, Chan.recv, hq]
      obtain ⟨es, hes⟩ := ih { d with
        vc := { d.vc with toClientTx := { d.vc.toClientTx with queue := q } } }
      exact ⟨.recv :: es, by rw [run, hrecv, Option.bind_some, hes, List.drop_succ_cons]⟩

theorem act_run (i : ℕ) (d : Delivery) :
    ∃ es, d.run p es = some { d with
      vc := { d.vc with toClientTx := con.act i d.vc.toClientTx } } := by
  unfold Consumer.act
  split_ifs
  · exact ⟨[.close], rfl⟩
  · exact takes_run p _ d

theorem numbered_cons (lo : ℕ) (a : Bytes) (as : List Bytes) :
    numbered lo (a :: as) = (lo, a) :: numbered (lo + 1) as := by
  simp [numbered, List.range'_succ]

theorem send_step {d : Delivery} {x : ℕ × Bytes} {rest : List (ℕ × Bytes)} (htodo : d.todo = x :: rest) :
    ∃ d', d.step p .send = some d' ∧ d'.todo = rest ∧
      d'.vc = { d.vc with
        toClientTx := (d.vc.toClientTx.trySend x.2).2
        delivered := d.vc.delivered ++
          if (d.vc.toClientTx.trySend x.2).1 = .ok then [x.1] else [] } ∧
      d'.overflow = (d.overflow || !decide ((d.vc.toClientTx.trySend x.2).1 = .ok)) := by
  rcases hs : d.vc.toClientTx.trySend x.2 with ⟨r, ch⟩
  simp only [step, htodo, hs]
  cases r with
  | ok => exact ⟨_, rfl, rfl, by simp, by simp⟩
  | full => exact ⟨_, rfl, rfl, by simp, by simp⟩
  | closed => exact ⟨_, rfl, rfl, by simp, by simp⟩

theorem sendAll_run (as : List Bytes) (i lo : ℕ) {d : Delivery} (htodo : d.todo = numbered lo as) :
    ∃ es d', d.run p es = some d' ∧ d'.todo = [] ∧
      d'.vc = { d.vc with
        toClientTx := (d.vc.toClientTx.sendAll con i as).2
        delivered := d.vc.delivered ++
          VirtConn.acceptedSeqs lo (d.vc.toClientTx.sendAll con i as).1 } ∧
      d'.overflow = (d.overflow || !(d.vc.toClientTx.sendAll con i as).1.all id) := by
  induction as generalizing i lo d with
  | nil => exact ⟨[], d, rfl, htodo, by simp [Chan.sendAll, VirtConn.acceptedSeqs], by simp [Chan.sendAll]⟩
  | cons a as ih =>
    rw [numbered_cons] at htodo
    obtain ⟨es₁, h₁⟩ := act_run p con i d
    obtain ⟨d₂, h₂, htodo₂, hvc₂, ho₂⟩ := @send_step p
      { d with vc := { d.vc with toClientTx := con.act i d.vc.toClientTx } } _ _ htodo
    obtain ⟨es₃, d₃, h₃, htodo₃, hvc₃, ho₃⟩ := ih (i + 1) (lo + 1) htodo₂
    refine ⟨es₁ ++ .send :: es₃, d₃, ?_, htodo₃, ?_, ?_⟩
    · rw [run_append, h₁, Option.bind_some, run, h₂, Option.bind_some, h₃]
    · rw [hvc₃, hvc₂]
      simp [Chan.sendAll, VirtConn.acceptedSeqs]
    · rw [ho₃, ho₂, hvc₂]
      simp [Chan.sendAll, Bool.or_assoc]

/-- A call of `on_frame` is a run, whatever the client's writer does meanwhile. -/
theorem onFrame_run {d : Delivery} (htodo : d.todo = []) {seq : UInt64} (hseq : seq ≠ 0) :
    ∃ es d', d.run p es = some d' ∧ d'.todo = [] ∧
      (d'.vc, d'.overflow) = d.vc.onFrame con seq.toNat (p seq.toNat) := by
  have hguard : d.todo = [] ∧ seq ≠ 0 := ⟨htodo, hseq⟩
  cases hacc : (d.vc.reorder.push seq.toNat (p seq.toNat)).2.accepted with
  | false =>
    refine ⟨[.frame seq], { d with
      vc := { d.vc with reorder := (d.vc.reorder.push seq.toNat (p seq.toNat)).1 }
      overflow := (d.vc.reorder.push seq.toNat (p seq.toNat)).2.overflow }, ?_, htodo, ?_⟩
    · simp [run, step, if_pos hguard, hacc]
    · simp [VirtConn.onFrame, hacc]
  | true =>
    obtain ⟨es, d', hrun, htodo', hvc, ho⟩ := @sendAll_run p con
      (d.vc.reorder.push seq.toNat (p seq.toNat)).2.ready 0 d.vc.reorder.expected
      { d with
        vc := { d.vc with reorder := (d.vc.reorder.push seq.toNat (p seq.toNat)).1 }
        todo := numbered d.vc.reorder.expected (d.vc.reorder.push seq.toNat (p seq.toNat)).2.ready
        overflow := false } rfl
    refine ⟨.frame seq :: es, d', ?_, htodo', ?_⟩
    · rw [run, ← hrun]
      simp [step, if_pos hguard, hacc]
    · rw [hvc, ho]
      simp [VirtConn.onFrame, hacc]

end Call

/-! ## The invariant -/

/-- Chunk `m` was released and refused. -/
structure Missing (m : ℕ) (d : Delivery) : Prop where
  pos : 1 ≤ m
  absent : m ∉ d.vc.delivered
  passed : m ≤ d.released
  behind : ∀ x ∈ d.todo, m < x.1

structure Inv (p : ℕ → Bytes) (d : Delivery) : Prop where
  reorder : d.vc.reorder.Inv
  chunks : ∀ k c, d.vc.reorder.pending.get k = some c → c = p k
  waits : ∃ n ≤ d.released,
    d.todo = (List.range' (d.released + 1 - n) n).map fun k => (k, p k)
  log : d.vc.toClientTx.log = d.vc.delivered.map p
  clean : d.refused = false → d.vc.delivered ++ d.todo.map Prod.fst = List.range' 1 d.released
  missing : d.refused = true → ∃ m, d.Missing m

section Steps

variable {p : ℕ → Bytes} {d d' : Delivery} {e : Event}

theorem start_inv (window : ℕ) : (start window).Inv p where
  reorder := ReorderBuf.withLimit_inv window
  chunks := by simp [start, VirtConn.new, ReorderBuf.withLimit]
  waits := ⟨0, Nat.zero_le _, by simp [start]⟩
  log := rfl
  clean := by simp [start, released, releasedBy, VirtConn.new, ReorderBuf.withLimit]
  missing := nofun

/-- The ready run is the next piece of the response. -/
theorem readyRun_eq (h : d.Inv p) {r : ℕ} {b : ReorderBuf} (hd : d.vc.reorder.Drained r b) :
    numbered d.vc.reorder.expected (d.vc.reorder.readyRun (p d.vc.reorder.expected) r) =
      (List.range' d.vc.reorder.expected (r + 1)).map fun k => (k, p k) := by
  have hrun : d.vc.reorder.readyRun (p d.vc.reorder.expected) r =
      (List.range' d.vc.reorder.expected (r + 1)).map p := by
    rw [ReorderBuf.readyRun, List.range'_succ, List.map_cons]
    congr 1
    refine List.map_congr_left fun k hk => ?_
    obtain ⟨hlo, hhi⟩ := List.mem_range'_1.mp hk
    obtain ⟨c, hc⟩ := Option.isSome_iff_exists.mp (hd.run k (by omega) (by omega))
    rw [ReorderBuf.chunk, hc]
    exact h.chunks k c hc
  have hzip := List.zip_map' (f := id) (g := p) (l := List.range' d.vc.reorder.expected (r + 1))
  rw [List.map_id] at hzip
  rw [numbered, ReorderBuf.length_readyRun, hrun]
  exact hzip

/-- A run moves the number of released chunks on, up to the last seq of all. -/
theorem released_drained (hinv : d.vc.reorder.Inv) {seq : UInt64} (hseq : seq ≠ 0)
    (he : seq.toNat = d.vc.reorder.expected) {r : ℕ} {b : ReorderBuf}
    (hd : d.vc.reorder.Drained r b) :
    d.vc.reorder.expected = d.released + 1 ∧
      releasedBy b = d.released + (r + 1) := by
  have hpos : 0 < d.vc.reorder.expected := by
    rw [← he]
    refine Nat.pos_of_ne_zero fun h0 => hseq ?_
    exact UInt64.toNat_inj.mp h0
  have hlt := hinv.expected_lt
  have hlast : d.vc.reorder.expected + r < 2 ^ 64 := by
    rcases Nat.eq_zero_or_pos r with rfl | hr
    · exact hlt
    · obtain ⟨c, hc⟩ := Option.isSome_iff_exists.mp
        (hd.run (d.vc.reorder.expected + r) (by omega) le_rfl)
      exact (hinv.key _ c hc).2
  unfold released releasedBy
  rw [hd.expected]
  split_ifs <;> omega

theorem step_missing {m : ℕ} (hd : d.Inv p) (hm : d.Missing m) (h : d.step p e = some d') :
    d'.Missing m := by
  cases step_trans hd.reorder h with
  | ready seq r b htodo hseq he hdr =>
    obtain ⟨hexp, hrel⟩ := released_drained hd.reorder hseq he hdr
    have hpassed := hm.passed
    refine ⟨hm.pos, hm.absent, ?_, fun x hx => ?_⟩
    · show m ≤ releasedBy b
      omega
    · simp only [he] at hx
      rw [readyRun_eq hd hdr] at hx
      obtain ⟨k, hk, rfl⟩ := List.mem_map.mp hx
      have hlo := (List.mem_range'_1.mp hk).1
      omega
  | buffered seq b o htodo hexp hkeep =>
    refine ⟨hm.pos, hm.absent, ?_, by simp⟩
    have hpassed := hm.passed
    simp only [released, releasedBy] at hpassed ⊢
    rwa [hexp]
  | accept x rest ch htodo hroom hlog =>
    have hx := hm.behind x (by simp [htodo])
    refine ⟨hm.pos, fun hmem => ?_, hm.passed, fun y hy => hm.behind y (by simp [htodo, hy])⟩
    rcases List.mem_append.mp hmem with hmem | hmem
    · exact hm.absent hmem
    · have := List.mem_singleton.mp hmem
      omega
  | refuse x rest htodo hroom =>
    exact ⟨hm.pos, hm.absent, hm.passed, fun y hy => hm.behind y (by simp [htodo, hy])⟩
  | consume e ch he hlog => exact ⟨hm.pos, hm.absent, hm.passed, hm.behind⟩

/-- A chunk that is refused is missing from then on. -/
theorem refuse_missing (hd : d.Inv p) (hr : d.refused = false) {x : ℕ × Bytes}
    {rest : List (ℕ × Bytes)} (htodo : d.todo = x :: rest) :
    Missing x.1 { d with todo := rest, overflow := true, refused := true } := by
  have hsplit := hd.clean hr
  have hsorted : (d.vc.delivered ++ d.todo.map Prod.fst).Pairwise (· < ·) := by
    rw [hsplit]
    exact List.pairwise_lt_range'
  have hmem : x.1 ∈ List.range' 1 d.released := by
    rw [← hsplit, htodo]
    simp
  obtain ⟨hlo, hhi⟩ := List.mem_range'_1.mp hmem
  obtain ⟨-, htail, hbefore⟩ := List.pairwise_append.mp hsorted
  rw [htodo, List.map_cons, List.pairwise_cons] at htail
  refine ⟨hlo, fun hin => ?_, ?_, fun y hy => ?_⟩
  · exact lt_irrefl _ (hbefore x.1 hin x.1 (by simp [htodo]))
  · show x.1 ≤ d.released
    omega
  · exact htail.1 y.1 (List.mem_map_of_mem hy)

/-- Sending one chunk leaves the rest of the run. -/
theorem waits_tail (hd : d.Inv p) {x : ℕ × Bytes} {rest : List (ℕ × Bytes)}
    (htodo : d.todo = x :: rest) :
    x.2 = p x.1 ∧
      ∃ n ≤ d.released, rest = (List.range' (d.released + 1 - n) n).map fun k => (k, p k) := by
  obtain ⟨n, hn, hwaits⟩ := hd.waits
  rw [htodo] at hwaits
  cases n with
  | zero => simp at hwaits
  | succ n =>
    rw [List.range'_succ, List.map_cons] at hwaits
    obtain ⟨rfl, hrest⟩ := List.cons_eq_cons.mp hwaits
    refine ⟨rfl, n, by omega, ?_⟩
    rw [hrest, show d.released + 1 - (n + 1) + 1 = d.released + 1 - n by omega]

theorem step_inv (hd : d.Inv p) (h : d.step p e = some d') : d'.Inv p := by
  have hmiss : d.refused = true → ∃ m, d'.Missing m := by
    intro hr
    obtain ⟨m, hm⟩ := hd.missing hr
    exact ⟨m, step_missing hd hm h⟩
  cases step_trans hd.reorder h with
  | ready seq r b htodo hseq he hdr =>
    obtain ⟨hexp, hrel⟩ := released_drained hd.reorder hseq he hdr
    have hrun := readyRun_eq hd hdr
    rw [← he] at hrun
    refine ⟨hdr.inv hd.reorder, fun k c hk => ?_, ⟨r + 1, ?_, ?_⟩, hd.log, fun hr => ?_, hmiss⟩
    · have hlk : b.pending.get k = some c := hk
      rw [hdr.lookup k] at hlk
      split_ifs at hlk
      exact hd.chunks k c hlk
    · show r + 1 ≤ releasedBy b
      omega
    · show numbered seq.toNat _ = (List.range' (releasedBy b + 1 - (r + 1)) _).map _
      rw [hrun, hrel, he, hexp]
      congr 2
      omega
    · show d.vc.delivered ++ (numbered seq.toNat _).map Prod.fst =
        List.range' 1 (releasedBy b)
      have hold := hd.clean hr
      rw [htodo, List.map_nil, List.append_nil] at hold
      have happ := @List.range'_append_1 1 d.released (r + 1)
      rw [Nat.add_comm 1 d.released] at happ
      rw [hrun, hold, hrel, he, hexp, List.map_map, ← happ]
      exact congrArg _ (List.map_id _)
  | buffered seq b o htodo hexp hkeep =>
    have hrel : releasedBy b = d.released := by simp only [released, releasedBy, hexp]
    refine ⟨hkeep.1, fun k c hk => ?_, ⟨0, Nat.zero_le _, by simp⟩, hd.log, fun hr => ?_, hmiss⟩
    · rcases hkeep.2 k c hk with hk | ⟨-, hc⟩
      · exact hd.chunks k c hk
      · exact hc
    · show d.vc.delivered ++ [] = List.range' 1 (releasedBy b)
      rw [hrel, ← hd.clean hr, htodo, List.map_nil]
  | accept x rest ch htodo hroom hlog =>
    obtain ⟨hx, hwaits⟩ := waits_tail hd htodo
    refine ⟨hd.reorder, hd.chunks, hwaits, ?_, fun hr => ?_, hmiss⟩
    · simp [hlog, hd.log, hx]
    · show (d.vc.delivered ++ [x.1]) ++ rest.map Prod.fst = List.range' 1 d.released
      rw [← hd.clean hr, htodo]
      simp
  | refuse x rest htodo hroom =>
    obtain ⟨-, hwaits⟩ := waits_tail hd htodo
    refine ⟨hd.reorder, hd.chunks, hwaits, hd.log, by simp, fun _ => ?_⟩
    cases hr : d.refused with
    | true => exact hmiss hr
    | false => exact ⟨_, refuse_missing hd hr htodo⟩
  | consume e ch he hlog =>
    exact ⟨hd.reorder, hd.chunks, hd.waits, hlog.trans hd.log, hd.clean, hmiss⟩

/-! ## Holes -/

/-- Chunk `m` is missing and a later one was accepted. -/
def Hole (d : Delivery) : Prop := ∃ m j, d.Missing m ∧ m < j ∧ j ∈ d.vc.delivered

theorem Hole.not_inOrder (h : d.Hole) : ¬ d.InOrder p := by
  rintro ⟨k, hk, -⟩
  obtain ⟨m, j, hm, hmj, hj⟩ := h
  rw [hk] at hj
  refine hm.absent ?_
  rw [hk, List.mem_range'_1]
  have := (List.mem_range'_1.mp hj).2
  exact ⟨hm.pos, by omega⟩

theorem delivered_grows (hd : d.Inv p) (h : d.step p e = some d') {j : ℕ}
    (hj : j ∈ d.vc.delivered) : j ∈ d'.vc.delivered := by
  cases step_trans hd.reorder h with
  | ready | buffered | refuse | consume => exact hj
  | accept x rest ch htodo hroom hlog => exact List.mem_append_left _ hj

theorem step_hole (hd : d.Inv p) (hh : d.Hole) (h : d.step p e = some d') : d'.Hole := by
  obtain ⟨m, j, hm, hmj, hj⟩ := hh
  exact ⟨m, j, step_missing hd hm h, hmj, delivered_grows hd h hj⟩

/-- A free slot after a refusal takes a chunk beyond the missing one. -/
theorem holes_hole (hd : d.Inv p) (hh : d.holes e = true) (h : d.step p e = some d') : d'.Hole := by
  cases e with
  | send =>
    obtain ⟨hr, hroom⟩ := Bool.and_eq_true_iff.mp hh
    obtain ⟨m, hm⟩ := hd.missing hr
    have hm' := step_missing hd hm h
    cases step_trans hd.reorder h with
    | accept x rest ch htodo _ hlog =>
      refine ⟨m, x.1, hm', hm.behind x (by simp [htodo]), ?_⟩
      exact List.mem_append_right _ (List.mem_singleton_self _)
    | refuse x rest htodo hno =>
      rw [hno] at hroom
      cases hroom
    | consume _ ch he hlog => rcases he with he | he <;> cases he
  | frame | recv | close => cases hh

theorem inOrder_of_clean (hd : d.Inv p) (hr : d.refused = false) : d.InOrder p := by
  have hpre : d.vc.delivered <+: List.range' 1 d.released := ⟨_, hd.clean hr⟩
  have hlen := hpre.length_le
  rw [List.length_range'] at hlen
  have hk : d.vc.delivered = List.range' 1 d.vc.delivered.length := by
    rwa [List.prefix_iff_eq_take, List.take_range'_of_length_ge hlen] at hpre
  refine ⟨d.vc.delivered.length, hk, ?_⟩
  rw [← hk]
  exact hd.log

/-- A step that makes no hole keeps the stream in order. -/
theorem step_inOrder (hd : d.Inv p) (ho : d.InOrder p) (hh : d.holes e = false)
    (h : d.step p e = some d') : d'.InOrder p := by
  have hd' := step_inv hd h
  cases step_trans hd.reorder h with
  | ready | buffered | refuse => exact ho
  | consume e ch he hlog =>
    obtain ⟨k, hk, hl⟩ := ho
    exact ⟨k, hk, hlog.trans hl⟩
  | accept x rest ch htodo hroom hlog =>
    refine inOrder_of_clean hd' ?_
    show d.refused = false
    simpa [holes, hroom] using hh

theorem run_hole {es : List Event} (hd : d.Inv p) (hh : d.Hole) (h : d.run p es = some d') :
    d'.Hole := by
  induction es generalizing d with
  | nil =>
    obtain rfl := Option.some.inj h
    exact hh
  | cons e es ih =>
    obtain ⟨d₁, h₁, h₂⟩ := Option.bind_eq_some_iff.mp h
    exact ih (step_inv hd h₁) (step_hole hd hh h₁) h₂

theorem run_inOrder_iff {es : List Event} (hd : d.Inv p) (ho : d.InOrder p)
    (h : d.run p es = some d') : d'.InOrder p ↔ d.holeless p es = true := by
  induction es generalizing d with
  | nil =>
    obtain rfl := Option.some.inj h
    simp [ho, holeless]
  | cons e es ih =>
    obtain ⟨d₁, h₁, h₂⟩ := Option.bind_eq_some_iff.mp h
    have hd₁ := step_inv hd h₁
    simp only [holeless, h₁, Option.all_some]
    cases hh : d.holes e with
    | true =>
      have hno := (run_hole hd₁ (holes_hole hd hh h₁) h₂).not_inOrder (p := p)
      simp [hno]
    | false => simpa using ih hd₁ (step_inOrder hd ho hh h₁) h₂

end Steps

/-- Frame and `try_send` of the chunks `1, .., n`. -/
def filling : ℕ → List Event
  | 0 => []
  | n + 1 => filling n ++ [.frame (UInt64.ofNat (n + 1)), .send]

/-- The chunks `1, .., n` wait in the channel and chunk 514 in the reorder buffer. -/
def filled (p : ℕ → Bytes) (window n : ℕ) : Delivery where
  vc :=
    { VirtConn.new window false with
      toClientTx := ⟨clientChannelCap, (List.range' 1 n).map p, true, (List.range' 1 n).map p⟩
      reorder :=
        { ReorderBuf.withLimit window with
          expected := n + 1
          pending := (∅ : Table ℕ Bytes).put 514 (p 514)
          pendingBytes := 0 + (p 514).length }
      delivered := List.range' 1 n }
  todo := []
  overflow := false
  refused := false

/-- The next expected chunk, with a gap behind it. -/
theorem push_next {b : ReorderBuf} (h : b.pending.get (ReorderBuf.wrapSucc b.expected) = none)
    (payload : Bytes) :
    b.push b.expected payload =
      ({ b with expected := ReorderBuf.wrapSucc b.expected }, ⟨[payload], true, false⟩) := by
  have hdrain : ReorderBuf.drain b.pending.size { b with expected := ReorderBuf.wrapSucc b.expected }
      [payload] = ({ b with expected := ReorderBuf.wrapSucc b.expected }, [payload]) := by
    cases b.pending.size with
    | zero => rfl
    | succ n => simp only [ReorderBuf.drain, h]
  simp only [ReorderBuf.push, lt_irrefl, if_false, if_true, hdrain]

theorem fill_step (p : ℕ → Bytes) (window : ℕ) {n : ℕ} (hn : n < clientChannelCap) :
    (filled p window n).run p [.frame (UInt64.ofNat (n + 1)), .send] =
      some (filled p window (n + 1)) := by
  have hcap : clientChannelCap = 512 := rfl
  have hseq : (UInt64.ofNat (n + 1)).toNat = n + 1 := by
    rw [UInt64.toNat_ofNat']
    exact Nat.mod_eq_of_lt (by omega)
  have hne : UInt64.ofNat (n + 1) ≠ 0 := by
    intro h
    rw [h] at hseq
    simp at hseq
  have hwrap : ReorderBuf.wrapSucc (n + 1) = n + 1 + 1 := Nat.mod_eq_of_lt (by omega)
  have hpush := @push_next (filled p window n).vc.reorder (by
    show Table.get _ (ReorderBuf.wrapSucc (n + 1)) = none
    rw [hwrap]
    exact (Table.get_put_ne _ _ (by omega)).trans (Table.get_empty _)) (p (n + 1))
  have hframe : (filled p window n).step p (.frame (UInt64.ofNat (n + 1))) = some
      { filled p window n with
        vc := { (filled p window n).vc with reorder := (filled p window (n + 1)).vc.reorder }
        todo := [(n + 1, p (n + 1))] } := by
    have hguard : (filled p window n).todo = [] ∧ UInt64.ofNat (n + 1) ≠ 0 := ⟨rfl, hne⟩
    simp only [step, if_pos hguard, hseq]
    rw [show (filled p window n).vc.reorder.push (n + 1) (p (n + 1)) = _ from hpush]
    simp only [if_true]
    show some _ = some _
    simp only [filled, hwrap, numbered]
    rfl
  have hsend := Chan.trySend_cases (filled p window n).vc.toClientTx (p (n + 1))
  have hroom : (filled p window n).vc.toClientTx.hasRoom = true := by
    simp [Chan.hasRoom, filled, hn]
  rcases hsend with ⟨-, hs⟩ | ⟨hno, -⟩
  · rw [run, hframe, Option.bind_some, run]
    simp only [step, hs, Option.bind_some, run]
    simp only [filled, List.range'_1_concat, List.map_append, List.map_singleton, Nat.add_comm 1 n]
  · rw [hroom] at hno
    cases hno

theorem run_filling (p : ℕ → Bytes) (window : ℕ) {n : ℕ} (hn : n ≤ clientChannelCap) :
    (filled p window 0).run p (filling n) = some (filled p window n) := by
  induction n with
  | zero => rfl
  | succ n ih =>
    rw [filling, run_append, ih (by omega), Option.bind_some]
    exact fill_step p window (by omega)

/-- A full channel refuses a chunk, the writer takes one, and the next chunk is accepted. -/
theorem overrun (p : ℕ → Bytes) {vc : VirtConn} {a : Bytes} {q : List Bytes} (ho : vc.toClientTx.isOpen = true)
    (hq : vc.toClientTx.queue = a :: q) (hfull : q.length + 1 = vc.toClientTx.cap) (x y : ℕ × Bytes)
    (o r : Bool) :
    ∃ d, run p ⟨vc, [x, y], o, r⟩ [.send, .recv, .send] = some d ∧
      d.vc.delivered = vc.delivered ++ [y.1] := by
  have hno : vc.toClientTx.trySend x.2 = (.full, vc.toClientTx) := by
    simp [Chan.trySend, ho, hq, hfull]
  have hrecv : vc.toClientTx.recv = some (a, { vc.toClientTx with queue := q }) := by
    simp [Chan.recv, hq]
  have hyes : Chan.trySend { vc.toClientTx with queue := q } y.2 =
      (.ok, { vc.toClientTx with queue := q ++ [y.2], log := vc.toClientTx.log ++ [y.2] }) := by
    simp [Chan.trySend, ho, ← hfull]
  simp only [run, step, hno, hrecv, hyes, Option.bind_some]
  exact ⟨_, rfl, rfl⟩

/-- Chunk 513 makes itself and chunk 514 ready. -/
theorem fill_ready (p : ℕ → Bytes) (window : ℕ) :
    ∃ b, (filled p window 512).step p (.frame 513) = some
      { filled p window 512 with
        vc := { (filled p window 512).vc with reorder := b }
        todo := [(513, p 513), (514, p 514)] } := by
  have hpush : ∃ b, (filled p window 512).vc.reorder.push 513 (p 513) =
      (b, ⟨[p 513, p 514], true, false⟩) := ⟨_, rfl⟩
  obtain ⟨b, hpush⟩ := hpush
  refine ⟨b, ?_⟩
  have hguard : (filled p window 512).todo = [] ∧ (513 : UInt64) ≠ 0 := ⟨rfl, by decide⟩
  simp only [step, if_pos hguard, show (513 : UInt64).toNat = 513 from rfl, hpush, if_true]
  rfl

/-- Chunk 514 waits for its turn, 512 chunks fill the channel, and chunk 513 makes both ready: 513 is
refused, the writer takes a chunk, and 514 is accepted. -/
def holeRun : List Event := (.frame 514 :: filling clientChannelCap) ++ [Event.frame 513, .send, .recv, .send]

end Delivery

end RoundRobin.Splitter
