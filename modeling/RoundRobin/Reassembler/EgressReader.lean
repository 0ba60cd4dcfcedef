import RoundRobin.Lib.Machine
import RoundRobin.Reassembler.Handlers

/-!
# RoundRobin.Reassembler.EgressReader — the egress reader task

`read_from_egress` of `src/reassembler.rs`: every chunk read from the target becomes one DATA frame, and the
end of the stream a FIN.  One poll of a `select!` is a step; the cancel signal comes in between at any time and
stays as a permit until an arm takes it.  The `select!` around a send is biased, the one around the read is not.

`Sent` says which frames the pool took, whatever the order; `stop_run` what a cancel leaves possible.  A read
error ends the stream like an EOF.  When a send gives up is left open, and so is the activity stamp.
-/

namespace RoundRobin.Reassembler

/-- What one poll of `rd.read` yields. -/
inductive ReadPoll where
  | chunk (p : Bytes)
  | eof
  | error
  | pending
  deriving DecidableEq, Repr

/-- What one poll of the timed `pool.send_async` yields. -/
inductive SendPoll where
  /-- A tunnel took the frame. -/
  | sent
  | pending
  /-- The timeout fired, or the pool has no link to send on. -/
  | gaveUp
  deriving DecidableEq, Repr

/-- Why the task ends. -/
inductive ReaderExit where
  | cancelled
  /-- No tunnel took a chunk. -/
  | sendFailed
  | finSent
  /-- No tunnel took the FIN, or the wait for one was cancelled. -/
  | finUnsent
  deriving DecidableEq, Repr

/-- Where the task is. -/
inductive ReaderPc where
  /-- At the `select!` around the read. -/
  | select
  /-- At the `select!` around the send of the chunk `p`. -/
  | sendData (p : Bytes)
  /-- At the `select!` around the send of the FIN. -/
  | sendFin
  | done (why : ReaderExit)
  deriving DecidableEq, Repr

/-- `read` and `ended` are history variables: the chunks read so far, and whether the target's stream ended;
`sent` is every frame a tunnel took. -/
structure EgressReader where
  connId : ConnId
  chunkSize : ℕ
  seq : UInt64
  /-- Stored permit of `cancel`. -/
  cancel : Bool
  pc : ReaderPc
  bytesSent : UInt64
  framesSent : UInt64
  read : List Bytes
  ended : Bool
  sent : List Frame
  deriving DecidableEq, Repr

namespace EgressReader

inductive Event where
  | notifyCancel
  /-- The cancel arm of the `select!` around the read is polled first. -/
  | pollCancel
  /-- The read arm is polled first. -/
  | pollRead (r : ReadPoll)
  /-- The `select!` around a send is polled. -/
  | pollSend (w : SendPoll)
  deriving DecidableEq, Repr

def Event.isPoll : Event → Bool
  | .notifyCancel => false
  | _ => true

def new (connId : ConnId) (chunkSize : ℕ) : EgressReader :=
  ⟨connId, chunkSize, 1, false, .select, 0, 0, [], false, []⟩

/-- One event, if it can happen. -/
def step (s : EgressReader) : Event → Option EgressReader
  | .notifyCancel => some { s with cancel := true }
  | .pollCancel =>
    match s.pc with
    | .select => if s.cancel then some { s with cancel := false, pc := .done .cancelled } else none
    | _ => none
  | .pollRead r =>
    match s.pc with
    | .select =>
      match r with
      | .chunk p =>
        if 0 < p.length ∧ p.length ≤ s.chunkSize then
          some { s with read := s.read ++ [p], pc := .sendData p }
        else none
      | .eof | .error => some { s with ended := true, pc := .sendFin }
      | .pending => some (if s.cancel then { s with cancel := false, pc := .done .cancelled } else s)
    | _ => none
  | .pollSend w =>
    match s.pc with
    | .sendData p =>
      if s.cancel then some { s with cancel := false, pc := .done .cancelled }
      else
        match w with
        | .sent => some { s with
            sent := s.sent ++ [.data s.connId s.seq p]
            bytesSent := s.bytesSent + UInt64.ofNat p.length
            framesSent := s.framesSent + 1
            seq := s.seq + 1
            pc := .select }
        | .pending => some s
        | .gaveUp => some { s with pc := .done .sendFailed }
    | .sendFin =>
      if s.cancel then some { s with cancel := false, pc := .done .finUnsent }
      else
        match w with
        | .sent => some { s with sent := s.sent ++ [.fin s.connId s.seq], pc := .done .finSent }
        | .pending => some s
        | .gaveUp => some { s with pc := .done .finUnsent }
    | _ => none

def run (s : EgressReader) (es : List Event) : Option EgressReader := Machine.run step s es

/-- What the task of the connection at handle `v` does behind its loop. -/
def epilogue (v : ℕ) (c : ConnId) : ReaderExit → List Instr
  | .cancelled => []
  | .sendFailed => [.closedInsert c, .connsRemove c, .sendRst c]
  | .finSent => [.egressEof v c]
  | .finUnsent => [.sendRst c, .egressEof v c]

/-! ## What a step can do -/

/-- What a step does, event by event. -/
inductive Trans (s : EgressReader) : Event → EgressReader → Prop where
  | notifyCancel : Trans s .notifyCancel { s with cancel := true }
  | cancelled {e : Event} : e.isPoll = true → s.pc = .select → s.cancel = true →
      Trans s e { s with cancel := false, pc := .done .cancelled }
  | chunk (p : Bytes) : s.pc = .select → 0 < p.length → p.length ≤ s.chunkSize →
      Trans s (.pollRead (.chunk p)) { s with read := s.read ++ [p], pc := .sendData p }
  | ended {r : ReadPoll} : s.pc = .select → r = .eof ∨ r = .error →
      Trans s (.pollRead r) { s with ended := true, pc := .sendFin }
  | waits {e : Event} : s.cancel = false → (∀ why, s.pc ≠ .done why) → Trans s e s
  | dataCancelled {w : SendPoll} (p : Bytes) : s.pc = .sendData p → s.cancel = true →
      Trans s (.pollSend w) { s with cancel := false, pc := .done .cancelled }
  | dataSent (p : Bytes) : s.pc = .sendData p → s.cancel = false →
      Trans s (.pollSend .sent) { s with
        sent := s.sent ++ [.data s.connId s.seq p]
        bytesSent := s.bytesSent + UInt64.ofNat p.length
        framesSent := s.framesSent + 1
        seq := s.seq + 1
        pc := .select }
  | dataGaveUp (p : Bytes) : s.pc = .sendData p → s.cancel = false →
      Trans s (.pollSend .gaveUp) { s with pc := .done .sendFailed }
  | finCancelled {w : SendPoll} : s.pc = .sendFin → s.cancel = true →
      Trans s (.pollSend w) { s with cancel := false, pc := .done .finUnsent }
  | finSent : s.pc = .sendFin → s.cancel = false →
      Trans s (.pollSend .sent) { s with sent := s.sent ++ [.fin s.connId s.seq], pc := .done .finSent }
  | finGaveUp : s.pc = .sendFin → s.cancel = false →
      Trans s (.pollSend .gaveUp) { s with pc := .done .finUnsent }

variable {s s' : EgressReader} {e : Event} {es : List Event}

theorem pollRead_trans {r : ReadPoll} (h : s.step (.pollRead r) = some s') : s.Trans (.pollRead r) s' := by
  simp only [step] at h
  split at h
  · rename_i hpc
    cases r with
    | chunk p =>
      simp only at h
      split_ifs at h with hp
      obtain rfl := Option.some.inj h
      exact .chunk p hpc hp.1 hp.2
    | eof =>
      obtain rfl := Option.some.inj h
      exact .ended hpc (.inl rfl)
    | error =>
      obtain rfl := Option.some.inj h
      exact .ended hpc (.inr rfl)
    | pending =>
      obtain rfl := Option.some.inj h
      by_cases hc : s.cancel = true
      · rw [if_pos hc]
        exact .cancelled rfl hpc hc
      · rw [if_neg hc]
        exact .waits (Bool.eq_false_iff.mpr hc) (by simp [hpc])
  · cases h

theorem pollSend_trans {w : SendPoll} (h : s.step (.pollSend w) = some s') : s.Trans (.pollSend w) s' := by
  simp only [step] at h
  split at h
  · rename_i p hpc
    by_cases hc : s.cancel = true
    · rw [if_pos hc] at h
      obtain rfl := Option.some.inj h
      exact .dataCancelled p hpc hc
    · rw [if_neg hc] at h
      have hc : s.cancel = false := Bool.eq_false_iff.mpr hc
      cases w with
      | sent =>
        obtain rfl := Option.some.inj h
        exact .dataSent p hpc hc
      | pending =>
        obtain rfl := Option.some.inj h
        exact .waits hc (by simp [hpc])
      | gaveUp =>
        obtain rfl := Option.some.inj h
        exact .dataGaveUp p hpc hc
  · rename_i hpc
    by_cases hc : s.cancel = true
    · rw [if_pos hc] at h
      obtain rfl := Option.some.inj h
      exact .finCancelled hpc hc
    · rw [if_neg hc] at h
      have hc : s.cancel = false := Bool.eq_false_iff.mpr hc
      cases w with
      | sent =>
        obtain rfl := Option.some.inj h
        exact .finSent hpc hc
      | pending =>
        obtain rfl := Option.some.inj h
        exact .waits hc (by simp [hpc])
      | gaveUp =>
        obtain rfl := Option.some.inj h
        exact .finGaveUp hpc hc
  · cases h

theorem step_trans (h : s.step e = some s') : s.Trans e s' := by
  cases e with
  | notifyCancel =>
    obtain rfl := Option.some.inj h
    exact .notifyCancel
  | pollCancel =>
    simp only [step] at h
    split at h
    · rename_i hpc
      split_ifs at h with hc
      obtain rfl := Option.some.inj h
      exact .cancelled rfl hpc hc
    · cases h
  | pollRead r => exact pollRead_trans h
  | pollSend w => exact pollSend_trans h

/-! ## The frames -/

/-- What a task that stands at `pc` has read beyond the chunks it sent, and whether it sent the FIN. -/
def Unsent (ended : Bool) (rest : List Bytes) (fin : Bool) : ReaderPc → Prop
  | .select => rest = [] ∧ fin = false ∧ ended = false
  | .sendData p => rest = [p] ∧ fin = false ∧ ended = false
  | .sendFin => rest = [] ∧ fin = false ∧ ended = true
  | .done .cancelled => rest.length ≤ 1 ∧ fin = false ∧ ended = false
  | .done .sendFailed => rest.length = 1 ∧ fin = false ∧ ended = false
  | .done .finSent => rest = [] ∧ fin = true ∧ ended = true
  | .done .finUnsent => rest = [] ∧ fin = false ∧ ended = true

section Unsent

variable {ended fin : Bool} {rest : List Bytes} {pc : ReaderPc}

theorem Unsent.length_le (hu : Unsent ended rest fin pc) : rest.length ≤ 1 := by
  cases pc with
  | select | sendData p | sendFin =>
    rw [hu.1]
    simp
  | done why =>
    cases why with
    | cancelled => exact hu.1
    | sendFailed => exact hu.1.le
    | finSent | finUnsent =>
      rw [hu.1]
      simp

theorem Unsent.fin_iff (hu : Unsent ended rest fin pc) : fin = true ↔ pc = .done .finSent := by
  cases pc with
  | select | sendData p | sendFin => simp [hu.2.1]
  | done why =>
    cases why with
    | finSent => simp [hu.2.1]
    | cancelled | sendFailed | finUnsent => simp [hu.2.1]

/-- Behind the end of the stream no chunk is left. -/
theorem Unsent.rest_nil (hu : Unsent true rest fin pc) : rest = [] := by
  cases pc with
  | sendFin => exact hu.1
  | select | sendData p => cases hu.2.2
  | done why =>
    cases why with
    | finSent | finUnsent => exact hu.1
    | cancelled | sendFailed => cases hu.2.2

end Unsent

/-- The tunnels took the chunks `out`, in order from seq 1, and then the FIN if `fin`; `rest` was read and not
sent. -/
structure Sent (s : EgressReader) (out rest : List Bytes) (fin : Bool) : Prop where
  read : s.read = out ++ rest
  frames : s.sent = Frame.dataFrames s.connId out ++
    if fin then [.fin s.connId (UInt64.ofNat (out.length + 1))] else []
  seq : s.seq = UInt64.ofNat (out.length + 1)
  bytes : s.bytesSent = UInt64.ofNat out.flatten.length
  count : s.framesSent = UInt64.ofNat out.length
  fits : ∀ p ∈ s.read, 0 < p.length ∧ p.length ≤ s.chunkSize
  unsent : Unsent s.ended rest fin s.pc

theorem new_sent (c : ConnId) (n : ℕ) : (new c n).Sent [] [] false :=
  ⟨rfl, rfl, rfl, rfl, rfl, fun _ h => absurd h List.not_mem_nil, rfl, rfl, rfl⟩

/-- The task is somewhere else, and nothing was sent. -/
theorem Sent.move {out rest rest' : List Bytes} {fin b c : Bool} {pc : ReaderPc} (hs : s.Sent out rest fin)
    {r : List Bytes} (hr : r = out ++ rest') (hfits : ∀ p ∈ r, 0 < p.length ∧ p.length ≤ s.chunkSize)
    (hpc : Unsent b rest' fin pc) :
    Sent { s with read := r, ended := b, cancel := c, pc := pc } out rest' fin :=
  ⟨hr, hs.frames, hs.seq, hs.bytes, hs.count, hfits, hpc⟩

theorem step_sent {out rest : List Bytes} {fin : Bool} (hs : s.Sent out rest fin) (h : s.step e = some s') :
    ∃ out' rest' fin', s'.Sent out' rest' fin' ∧ out <+: out' ∧ s'.connId = s.connId := by
  have hu := hs.unsent
  cases step_trans h with
  | notifyCancel => exact ⟨out, rest, fin, hs.move hs.read hs.fits hu, List.prefix_refl _, rfl⟩
  | waits => exact ⟨out, rest, fin, hs, List.prefix_refl _, rfl⟩
  | cancelled _ hpc _ =>
    rw [hpc] at hu
    obtain ⟨rfl, rfl, he⟩ := hu
    exact ⟨out, [], false, hs.move hs.read hs.fits ⟨Nat.zero_le _, rfl, he⟩, List.prefix_refl _, rfl⟩
  | chunk p hpc hpos hle =>
    rw [hpc] at hu
    obtain ⟨rfl, rfl, he⟩ := hu
    have hread := hs.read
    rw [List.append_nil] at hread
    refine ⟨out, [p], false, hs.move (by rw [hread]) (fun q hq => ?_) ⟨rfl, rfl, he⟩, List.prefix_refl _, rfl⟩
    rcases List.mem_append.mp hq with hq | hq
    · exact hs.fits q hq
    · obtain rfl := List.mem_singleton.mp hq
      exact ⟨hpos, hle⟩
  | ended hpc _ =>
    rw [hpc] at hu
    obtain ⟨rfl, rfl, -⟩ := hu
    exact ⟨out, [], false, hs.move hs.read hs.fits ⟨rfl, rfl, rfl⟩, List.prefix_refl _, rfl⟩
  | dataCancelled p hpc _ =>
    rw [hpc] at hu
    obtain ⟨rfl, rfl, he⟩ := hu
    exact ⟨out, [p], false, hs.move hs.read hs.fits ⟨le_rfl, rfl, he⟩, List.prefix_refl _, rfl⟩
  | dataGaveUp p hpc _ =>
    rw [hpc] at hu
    obtain ⟨rfl, rfl, he⟩ := hu
    exact ⟨out, [p], false, hs.move hs.read hs.fits ⟨rfl, rfl, he⟩, List.prefix_refl _, rfl⟩
  | finCancelled hpc _ | finGaveUp hpc _ =>
    rw [hpc] at hu
    obtain ⟨rfl, rfl, he⟩ := hu
    exact ⟨out, [], false, hs.move hs.read hs.fits ⟨rfl, rfl, he⟩, List.prefix_refl _, rfl⟩
  | dataSent p hpc _ =>
    rw [hpc] at hu
    obtain ⟨rfl, rfl, he⟩ := hu
    have hframes := hs.frames
    rw [if_neg Bool.false_ne_true, List.append_nil] at hframes
    refine ⟨out ++ [p], [], false, ⟨?_, ?_, ?_, ?_, ?_, hs.fits, ⟨rfl, rfl, he⟩⟩, List.prefix_append _ _, rfl⟩
    · show s.read = _
      rw [hs.read, List.append_nil]
    · show s.sent ++ [Frame.data s.connId s.seq p] = _
      rw [if_neg Bool.false_ne_true, List.append_nil, Frame.dataFrames_concat, hframes, hs.seq]
    · show s.seq + 1 = _
      rw [hs.seq, List.length_append, List.length_singleton, UInt64.ofNat_add (out.length + 1) 1]
      rfl
    · show s.bytesSent + UInt64.ofNat p.length = _
      rw [hs.bytes, List.flatten_append, List.length_append, List.flatten_singleton, UInt64.ofNat_add]
    · show s.framesSent + 1 = _
      rw [hs.count, List.length_append, List.length_singleton, UInt64.ofNat_add]
      rfl
  | finSent hpc _ =>
    rw [hpc] at hu
    obtain ⟨rfl, rfl, he⟩ := hu
    have hframes := hs.frames
    rw [if_neg Bool.false_ne_true, List.append_nil] at hframes
    refine ⟨out, [], true, ⟨hs.read, ?_, hs.seq, hs.bytes, hs.count, hs.fits, ⟨rfl, rfl, he⟩⟩,
      List.prefix_refl _, rfl⟩
    show s.sent ++ [Frame.fin s.connId s.seq] = _
    rw [if_pos rfl, hframes, hs.seq]

/-- The histories only grow, and a task that is over stays so. -/
theorem step_grows (h : s.step e = some s') :
    s'.connId = s.connId ∧ s.sent <+: s'.sent ∧ s.read <+: s'.read ∧
      ∀ why, s.pc = .done why → s'.pc = .done why ∧ s'.read = s.read := by
  have hover : ∀ {pc : ReaderPc} {why : ReaderExit} {P : Prop}, s.pc = pc → s.pc = .done why →
      (∀ w, pc ≠ .done w) → P := by
    intro pc why P hpc hdone hno
    exact absurd (hpc.symm.trans hdone) (hno why)
  cases step_trans h with
  | notifyCancel => exact ⟨rfl, List.prefix_refl _, List.prefix_refl _, fun why hw => ⟨hw, rfl⟩⟩
  | waits => exact ⟨rfl, List.prefix_refl _, List.prefix_refl _, fun why hw => ⟨hw, rfl⟩⟩
  | chunk p hpc _ _ =>
    exact ⟨rfl, List.prefix_refl _, List.prefix_append _ _, fun why hw => hover hpc hw (by simp)⟩
  | cancelled _ hpc _ | ended hpc _ | dataCancelled p hpc _ | dataGaveUp p hpc _ | finCancelled hpc _
  | finGaveUp hpc _ =>
    exact ⟨rfl, List.prefix_refl _, List.prefix_refl _, fun why hw => hover hpc hw (by simp)⟩
  | dataSent p hpc _ | finSent hpc _ =>
    exact ⟨rfl, List.prefix_append _ _, List.prefix_refl _, fun why hw => hover hpc hw (by simp)⟩

/-- A frame the task sent: a chunk it read under its number, or the FIN behind all of them. -/
theorem Sent.frame {out rest : List Bytes} {fin : Bool} (hs : s.Sent out rest fin) {f : Frame} (hf : f ∈ s.sent) :
    (∃ k q, k < out.length ∧ s.read[k]? = some q ∧ f = .data s.connId (UInt64.ofNat (k + 1)) q) ∨
      s.pc = .done .finSent ∧ f = .fin s.connId (UInt64.ofNat (s.read.length + 1)) := by
  rw [hs.frames] at hf
  rcases List.mem_append.mp hf with hf | hf
  · obtain ⟨k, hk, rfl⟩ := List.mem_mapIdx.mp hf
    refine .inl ⟨k, out[k], hk, ?_, rfl⟩
    rw [hs.read, List.getElem?_append_left hk, List.getElem?_eq_getElem hk]
  · cases fin with
    | false => cases hf
    | true =>
      obtain rfl := List.mem_singleton.mp hf
      have hu := hs.unsent
      cases hpc : s.pc with
      | select | sendData p | sendFin =>
        rw [hpc] at hu
        cases hu.2.1
      | done why =>
        rw [hpc] at hu
        cases why with
        | cancelled | sendFailed | finUnsent => cases hu.2.1
        | finSent =>
          refine .inr ⟨rfl, ?_⟩
          rw [hs.read, hu.1, List.append_nil]

/-- Once the FIN is out, so is everything that was read. -/
theorem Sent.all {out rest : List Bytes} {fin : Bool} (hs : s.Sent out rest fin) (hpc : s.pc = .done .finSent) :
    s.ended = true ∧ .fin s.connId (UInt64.ofNat (s.read.length + 1)) ∈ s.sent ∧
      ∀ k q, s.read[k]? = some q → .data s.connId (UInt64.ofNat (k + 1)) q ∈ s.sent := by
  have hu := hs.unsent
  rw [hpc] at hu
  obtain ⟨rfl, rfl, he⟩ := hu
  have hread := hs.read
  rw [List.append_nil] at hread
  rw [hs.frames, ← hread]
  refine ⟨he, List.mem_append_right _ (List.mem_singleton_self _), fun k q hk => List.mem_append_left _ ?_⟩
  obtain ⟨hlt, rfl⟩ := List.getElem?_eq_some_iff.mp hk
  exact List.mem_mapIdx.mpr ⟨k, hlt, rfl⟩

theorem run_sent {c : ConnId} {n : ℕ} (h : (new c n).run es = some s) :
    s.connId = c ∧ ∃ out rest fin, s.Sent out rest fin := by
  refine Machine.run_inv (fun x => x.connId = c ∧ ∃ out rest fin, x.Sent out rest fin) h
    ⟨rfl, [], [], false, new_sent c n⟩ ?_
  rintro x y e ⟨hc, out, rest, fin, hx⟩ hxy
  obtain ⟨out', rest', fin', hy, -, hid⟩ := step_sent hx hxy
  exact ⟨hid.trans hc, out', rest', fin', hy⟩

/-! ## After the cancel -/

/-- The cancel permit is there, or the task is over. -/
def Stopping (s : EgressReader) : Prop := s.cancel = true ∨ ∃ why, s.pc = .done why

/-- How many polls a task with a cancel permit may still take. -/
def pollsLeft : ReaderPc → ℕ
  | .select => 2
  | .sendData _ | .sendFin => 1
  | .done _ => 0

theorem stop_step (hs : s.Stopping) (h : s.step e = some s') :
    s'.Stopping ∧ s'.sent = s.sent ∧ pollsLeft s'.pc + (if e.isPoll then 1 else 0) ≤ pollsLeft s.pc := by
  have hfree : s.cancel = false → ∃ why, s.pc = .done why := by
    intro hc
    rcases hs with h | h
    · cases hc.symm.trans h
    · exact h
  have hkeep : (∀ why, s.pc ≠ .done why) → s.cancel = true := by
    intro hno
    rcases hs with h | ⟨why, h⟩
    · exact h
    · exact absurd h (hno why)
  cases step_trans h with
  | notifyCancel => exact ⟨.inl rfl, rfl, le_rfl⟩
  | cancelled he hpc _ =>
    rw [hpc, he]
    exact ⟨.inr ⟨_, rfl⟩, rfl, Nat.le_succ 1⟩
  | chunk p hpc _ _ | ended hpc _ =>
    have hc := hkeep (by simp [hpc])
    rw [hpc]
    exact ⟨.inl hc, rfl, le_rfl⟩
  | waits hc hno => cases hc.symm.trans (hkeep hno)
  | dataCancelled p hpc _ | finCancelled hpc _ =>
    rw [hpc]
    exact ⟨.inr ⟨_, rfl⟩, rfl, le_rfl⟩
  | dataSent p hpc hc | dataGaveUp p hpc hc | finSent hpc hc | finGaveUp hpc hc =>
    obtain ⟨why, hdone⟩ := hfree hc
    cases hpc.symm.trans hdone

theorem stop_run (hs : s.Stopping) (h : s.run es = some s') :
    s'.sent = s.sent ∧ pollsLeft s'.pc + es.countP Event.isPoll ≤ pollsLeft s.pc := by
  have hcount := Machine.run_count (fun x => x.Stopping ∧ x.sent = s.sent) (fun x => pollsLeft x.pc) Event.isPoll h
    ⟨hs, rfl⟩ fun x y e hx hxy => by
      obtain ⟨hst, hsent, hle⟩ := stop_step hx.1 hxy
      exact ⟨⟨hst, hsent.trans hx.2⟩, hle⟩
  exact ⟨hcount.1.2, hcount.2⟩

theorem done_of_pollsLeft {pc : ReaderPc} (h : pollsLeft pc = 0) : ∃ why, pc = .done why := by
  cases pc with
  | done why => exact ⟨why, rfl⟩
  | select | sendData p | sendFin => cases h

/-! ## The whole task -/

/-- What a task that ended does behind its loop is one of the tasks of the reassembler. -/
theorem epilogue_spawn {sh : Shared} {v : ℕ} (hv : v < sh.nextConn) (why : ReaderExit) :
    epilogue v (sh.heap v).connId why = [] ∨ Spawn sh (epilogue v (sh.heap v).connId why) := by
  cases why with
  | cancelled => exact .inl rfl
  | sendFailed => exact .inr (.unsent v hv)
  | finSent => exact .inr (.eof v hv)
  | finUnsent => exact .inr (.eofUnsent v hv)

/-- Two chunks and the end of the stream; the first send waits once. -/
def twoChunks : List Event :=
  [.pollRead (.chunk [1, 2]), .pollSend .pending, .pollSend .sent, .pollRead (.chunk [3]), .pollSend .sent,
    .pollRead .eof, .pollSend .sent]

/-- The second chunk waits for a tunnel when the cancel comes. -/
def waitingChunk : List Event :=
  [.pollRead (.chunk [1, 2]), .pollSend .sent, .pollRead (.chunk [3]), .pollSend .pending]

end EgressReader

end RoundRobin.Reassembler
