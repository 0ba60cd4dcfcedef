import RoundRobin.Reassembler.EgressReader
import RoundRobin.Splitter.Client

/-!
# RoundRobin.Splitter.ClientTask — the client task from its SYN to its end

`handle_tcp_client` of `src/splitter.rs`: the SYN and the reply it decides, the loop that makes one DATA frame of
every chunk the client sends, the FIN or RST behind it, and the way out of `conns`.  One await or one access to
something shared is a step; the frames of the other direction, resets and sweeps set flags and take the entry away
at any time in between.  How long the grace wait lasts is not decided here, and no timer is.

`Phase` says, place by place, how what was queued compares with what was read.
-/

namespace RoundRobin.Splitter

open Reassembler (ReadPoll SendPoll)

/-- The entry of the id in `conns`. -/
inductive Entry where
  | absent
  | ours
  /-- Of a handler that drew the same id. -/
  | other
  deriving DecidableEq, Repr

/-- How the task has told the tunnels that it is over. -/
inductive Farewell where
  | fin
  | rst
  /-- No tunnel took the RST. -/
  | rstRefused
  /-- The peer had reset the connection; nothing was sent. -/
  | peerReset
  deriving DecidableEq, Repr

/-- Where the task is. -/
inductive TaskPc where
  | encodeSyn
  | insert (payload : Bytes)
  | sendSyn (payload : Bytes)
  /-- The SYN was not queued: the entry goes, and then the client is told. -/
  | removeUnsent
  | refuse
  /-- The SYN was queued. -/
  | accept
  /-- At the `select!` of the loop. -/
  | select
  /-- Notified, before the load of `closed`, and before that of `rst`. -/
  | woken
  | loadRst
  /-- Waiting for a tunnel to take a chunk. -/
  | sending (p : Bytes)
  /-- Behind the loop. -/
  | closing (reason : CloseReason)
  /-- The best-effort RST. -/
  | sendRst
  | grace
  | timeWait
  | removeEntry
  /-- Waiting for the writer task. -/
  | joining
  | done
  deriving DecidableEq, Repr

/-- `queued` is every frame a tunnel took from the task, `read` every chunk the client sent. -/
structure ClientTask where
  connId : ConnId
  chunkSize : ℕ
  target : SynTarget
  seq : UInt64
  pc : TaskPc
  entry : Entry
  /-- The task has put its id in `time_wait`. -/
  parked : Bool
  /-- The reply the client got: success or failure. -/
  reply : Option Bool
  rst : Bool
  closed : Bool
  /-- Stored permit of `notify`. -/
  notify : Bool
  bytesSent : UInt64
  framesSent : UInt64
  farewell : Option Farewell
  read : List Bytes
  queued : List Frame
  deriving DecidableEq, Repr

namespace ClientTask

inductive Event where
  /-- The next step, where it has one outcome. -/
  | next
  /-- `pool.send` of the SYN or of the RST. -/
  | send (ok : Bool)
  /-- The read arm of the `select!` wins. -/
  | pollRead (r : ReadPoll)
  /-- The notify arm wins. -/
  | pollNotify
  /-- The timed `send_async` of a chunk or of the FIN is polled. -/
  | pollSend (w : SendPoll)
  /-- The other tasks. -/
  | storeRst
  | storeClosed
  | notifyOne
  | entryTaken (e : Entry)
  deriving DecidableEq, Repr

def new (connId : ConnId) (chunkSize : ℕ) (target : SynTarget) : ClientTask :=
  ⟨connId, chunkSize, target, 1, .encodeSyn, .absent, false, none, false, false, false, 0, 0, none, [], []⟩

/-- `remove_if`: only the task's own entry. -/
def removeIf (e : Entry) : Entry := if e = .ours then .absent else e

/-- The next step, where it has one outcome. -/
def advance (s : ClientTask) : Option ClientTask :=
  match s.pc with
  | .encodeSyn =>
    match s.target.encode with
    | .ok payload => some { s with pc := .insert payload }
    | .error _ => some { s with pc := .done }
  | .insert payload => some { s with entry := .ours, pc := .sendSyn payload }
  | .removeUnsent => some { s with entry := removeIf s.entry, pc := .refuse }
  | .refuse => some { s with reply := some false, pc := .done }
  | .accept => some { s with reply := some true, pc := .select }
  | .woken => some { s with pc := if s.closed then .loadRst else .select }
  | .loadRst => some { s with pc := .closing (if s.rst then .rst else .timeout) }
  | .closing .rst => some { s with farewell := some .peerReset, pc := .timeWait }
  | .closing .noTunnel => some { s with pc := .sendRst }
  | .grace => some { s with pc := .timeWait }
  | .timeWait => some { s with parked := true, pc := .removeEntry }
  | .removeEntry => some { s with entry := removeIf s.entry, pc := .joining }
  | .joining => some { s with pc := .done }
  | _ => none

/-- One event, if it can happen. -/
def step (s : ClientTask) : Event → Option ClientTask
  | .next => s.advance
  | .send ok =>
    match s.pc with
    | .sendSyn payload =>
      if ok then some { s with queued := s.queued ++ [.syn s.connId payload], pc := .accept }
      else some { s with pc := .removeUnsent }
    | .sendRst =>
      if ok then some { s with queued := s.queued ++ [.rst s.connId], farewell := some .rst, pc := .timeWait }
      else some { s with farewell := some .rstRefused, pc := .timeWait }
    | _ => none
  | .pollRead r =>
    match s.pc with
    | .select =>
      match r with
      | .chunk p =>
        if 0 < p.length ∧ p.length ≤ s.chunkSize then some { s with read := s.read ++ [p], pc := .sending p } else none
      | .eof => some { s with pc := .closing .eof }
      | .error => some { s with pc := .closing .readError }
      | .pending => some s
    | _ => none
  | .pollNotify =>
    match s.pc with
    | .select => if s.notify then some { s with notify := false, pc := .woken } else none
    | _ => none
  | .pollSend w =>
    match s.pc with
    | .sending p =>
      match w with
      | .sent => some { s with
          queued := s.queued ++ [.data s.connId s.seq p]
          bytesSent := s.bytesSent + UInt64.ofNat p.length
          framesSent := s.framesSent + 1
          seq := s.seq + 1
          pc := .select }
      | .pending => some s
      | .gaveUp => some { s with pc := .closing .noTunnel }
    | .closing reason =>
      if reason = .rst ∨ reason = .noTunnel then none
      else
        match w with
        | .sent => some { s with
            queued := s.queued ++ [.fin s.connId s.seq]
            farewell := some .fin
            pc := if reason = .eof then .grace else .timeWait }
        | .pending => some s
        | .gaveUp => some { s with pc := .sendRst }
    | _ => none
  | .storeRst => some { s with rst := true }
  | .storeClosed => some { s with closed := true }
  | .notifyOne => some { s with notify := true }
  | .entryTaken e => if e = .ours then none else some { s with entry := e }

def run (s : ClientTask) (es : List Event) : Option ClientTask := Machine.run step s es

/-! ## What was queued -/

/-- The frames behind the DATA, and the chunks that were read and not queued. -/
def Closing (c : ConnId) (out rest : List Bytes) (last : List Frame) : Option Farewell → Prop
  | none => last = []
  | some .fin => last = [.fin c (UInt64.ofNat (out.length + 1))] ∧ rest = []
  | some .rst => last = [.rst c]
  | some .rstRefused => last = []
  | some .peerReset => last = [] ∧ rest = []

/-- A task whose SYN is not queued, place by place. -/
def Quiet (s : ClientTask) : TaskPc → Prop
  | .encodeSyn => s.entry ≠ .ours ∧ s.reply = none
  | .insert payload => s.entry ≠ .ours ∧ s.reply = none ∧ s.target.encode = .ok payload
  | .sendSyn payload => s.reply = none ∧ s.target.encode = .ok payload
  | .removeUnsent => s.reply = none
  | .refuse => s.entry ≠ .ours ∧ s.reply = none
  | .done => s.entry ≠ .ours ∧ s.reply ≠ some true
  | _ => False

/-- A task whose SYN is queued, place by place. -/
def Phase (s : ClientTask) (rest : List Bytes) : TaskPc → Prop
  | .accept => s.reply = none ∧ s.farewell = none ∧ rest = []
  | .select | .woken | .loadRst => s.reply = some true ∧ s.farewell = none ∧ rest = []
  | .sending p => s.reply = some true ∧ s.farewell = none ∧ rest = [p]
  | .closing reason => s.reply = some true ∧ s.farewell = none ∧ (reason ≠ .noTunnel → rest = [])
  | .sendRst => s.reply = some true ∧ s.farewell = none
  | .grace | .timeWait => s.reply = some true ∧ s.farewell ≠ none
  | .removeEntry => s.reply = some true ∧ s.farewell ≠ none ∧ s.parked = true
  | .joining | .done => s.reply = some true ∧ s.farewell ≠ none ∧ s.parked = true ∧ s.entry ≠ .ours
  | _ => False

structure Silent (s : ClientTask) : Prop where
  queued : s.queued = []
  read : s.read = []
  seq : s.seq = 1
  bytes : s.bytesSent = 0
  count : s.framesSent = 0
  farewell : s.farewell = none
  place : Quiet s s.pc

/-- The SYN and the chunks `out` were queued, `rest` was read and not queued. -/
structure Spoken (s : ClientTask) (payload : Bytes) (out rest : List Bytes) (last : List Frame) : Prop where
  encode : s.target.encode = .ok payload
  queued : s.queued = .syn s.connId payload :: (Frame.dataFrames s.connId out ++ last)
  read : s.read = out ++ rest
  few : rest.length ≤ 1
  seq : s.seq = UInt64.ofNat (out.length + 1)
  bytes : s.bytesSent = UInt64.ofNat out.flatten.length
  count : s.framesSent = UInt64.ofNat out.length
  fits : ∀ p ∈ s.read, 0 < p.length ∧ p.length ≤ s.chunkSize
  closing : Closing s.connId out rest last s.farewell
  place : Phase s rest s.pc

/-- The invariant. -/
def Inv (s : ClientTask) : Prop := s.Silent ∨ ∃ payload out rest last, s.Spoken payload out rest last

variable {s s' : ClientTask} {e : Event} {payload : Bytes} {out rest : List Bytes} {last : List Frame}

/-- A client is not told of success before the SYN is queued, -/
theorem reply_of_quiet {pc : TaskPc} (h : Quiet s pc) : s.reply ≠ some true := by
  cases pc with
  | encodeSyn | refuse =>
    rw [h.2]
    nofun
  | insert payload =>
    rw [h.2.1]
    nofun
  | sendSyn payload =>
    rw [h.1]
    nofun
  | removeUnsent =>
    have hnone : s.reply = none := h
    rw [hnone]
    nofun
  | done => exact h.2
  | _ => cases h

/-- nor of failure behind it. -/
theorem reply_of_phase {pc : TaskPc} (h : Phase s rest pc) : s.reply ≠ some false := by
  cases pc with
  | encodeSyn | insert payload | sendSyn payload | removeUnsent | refuse => cases h
  | _ =>
    rw [h.1]
    nofun

theorem Silent.move (hs : s.Silent) {pc : TaskPc} {en : Entry} {r : Option Bool} {b₁ b₂ b₃ : Bool}
    (hplace : Quiet { s with entry := en, reply := r } pc) :
    Silent { s with pc := pc, entry := en, reply := r, rst := b₁, closed := b₂, notify := b₃ } := by
  refine ⟨hs.queued, hs.read, hs.seq, hs.bytes, hs.count, hs.farewell, ?_⟩
  cases pc <;> exact hplace

theorem Spoken.move (hs : s.Spoken payload out rest last) {pc : TaskPc} {en : Entry} {b b₁ b₂ b₃ : Bool}
    {r : Option Bool} {fw : Option Farewell} (hclosing : Closing s.connId out rest last fw)
    (hplace : Phase { s with entry := en, parked := b, reply := r, farewell := fw } rest pc) :
    Spoken { s with pc := pc, entry := en, parked := b, reply := r, rst := b₁, closed := b₂, notify := b₃,
                    farewell := fw } payload out rest last := by
  refine ⟨hs.encode, hs.queued, hs.read, hs.few, hs.seq, hs.bytes, hs.count, hs.fits, hclosing, ?_⟩
  cases pc <;> exact hplace

theorem new_inv (c : ConnId) (n : ℕ) (target : SynTarget) : (new c n target).Inv :=
  .inl ⟨rfl, rfl, rfl, rfl, rfl, rfl, nofun, rfl⟩

theorem removeIf_ne (e : Entry) : removeIf e ≠ .ours := by
  cases e <;> decide

theorem advance_silent (hs : s.Silent) (h : s.advance = some s') : s'.Silent := by
  have hplace := hs.place
  cases hpc : s.pc with
  | encodeSyn =>
    rw [hpc] at hplace
    obtain ⟨hentry, hreply⟩ := hplace
    simp only [advance, hpc] at h
    split at h
    · rename_i payload henc
      obtain rfl := Option.some.inj h
      exact hs.move ⟨hentry, hreply, henc⟩
    · obtain rfl := Option.some.inj h
      exact hs.move ⟨hentry, by rw [hreply]; nofun⟩
  | insert payload =>
    rw [hpc] at hplace
    simp only [advance, hpc] at h
    obtain rfl := Option.some.inj h
    exact hs.move ⟨hplace.2.1, hplace.2.2⟩
  | removeUnsent =>
    rw [hpc] at hplace
    simp only [advance, hpc] at h
    obtain rfl := Option.some.inj h
    exact hs.move ⟨removeIf_ne _, hplace⟩
  | refuse =>
    rw [hpc] at hplace
    simp only [advance, hpc] at h
    obtain rfl := Option.some.inj h
    exact hs.move ⟨hplace.1, nofun⟩
  | sendSyn payload | done =>
    simp only [advance, hpc] at h
    cases h
  | accept | select | woken | loadRst | sending p | closing reason | sendRst | grace | timeWait | removeEntry
  | joining =>
    rw [hpc] at hplace
    cases hplace

theorem advance_spoken (hs : s.Spoken payload out rest last) (h : s.advance = some s') :
    s'.Spoken payload out rest last := by
  have hplace := hs.place
  have hclosing := hs.closing
  cases hpc : s.pc with
  | accept =>
    rw [hpc] at hplace
    simp only [advance, hpc] at h
    obtain rfl := Option.some.inj h
    exact hs.move hclosing ⟨rfl, hplace.2⟩
  | woken =>
    rw [hpc] at hplace
    simp only [advance, hpc] at h
    obtain rfl := Option.some.inj h
    refine hs.move hclosing ?_
    split_ifs
    · exact hplace
    · exact hplace
  | loadRst =>
    rw [hpc] at hplace
    simp only [advance, hpc] at h
    obtain rfl := Option.some.inj h
    exact hs.move hclosing ⟨hplace.1, hplace.2.1, fun _ => hplace.2.2⟩
  | closing reason =>
    rw [hpc] at hplace
    obtain ⟨hreply, hnone, hrest⟩ := hplace
    rw [hnone] at hclosing
    cases reason with
    | rst =>
      simp only [advance, hpc] at h
      obtain rfl := Option.some.inj h
      exact hs.move ⟨hclosing, hrest nofun⟩ ⟨hreply, nofun⟩
    | noTunnel =>
      simp only [advance, hpc] at h
      obtain rfl := Option.some.inj h
      exact hs.move (by rw [hnone]; exact hclosing) ⟨hreply, hnone⟩
    | eof | readError | timeout =>
      simp only [advance, hpc] at h
      cases h
  | grace =>
    rw [hpc] at hplace
    simp only [advance, hpc] at h
    obtain rfl := Option.some.inj h
    exact hs.move hclosing hplace
  | timeWait =>
    rw [hpc] at hplace
    simp only [advance, hpc] at h
    obtain rfl := Option.some.inj h
    exact hs.move hclosing ⟨hplace.1, hplace.2, rfl⟩
  | removeEntry =>
    rw [hpc] at hplace
    simp only [advance, hpc] at h
    obtain rfl := Option.some.inj h
    exact hs.move hclosing ⟨hplace.1, hplace.2.1, hplace.2.2, removeIf_ne _⟩
  | joining =>
    rw [hpc] at hplace
    simp only [advance, hpc] at h
    obtain rfl := Option.some.inj h
    exact hs.move hclosing hplace
  | select | sending p | sendRst | done =>
    simp only [advance, hpc] at h
    cases h
  | encodeSyn | insert payload | sendSyn payload | removeUnsent | refuse =>
    rw [hpc] at hplace
    cases hplace

/-- The SYN is the first frame, the RST the last. -/
theorem send_inv (hs : s.Inv) {ok : Bool} (h : s.step (.send ok) = some s') : s'.Inv := by
  simp only [step] at h
  split at h
  · rename_i payload hpc
    rcases hs with hs | ⟨_, _, _, _, hs⟩
    · have hplace := hs.place
      rw [hpc] at hplace
      obtain ⟨hreply, henc⟩ := hplace
      cases ok with
      | true =>
        obtain rfl := Option.some.inj h
        refine .inr ⟨payload, [], [], [], henc, ?_, hs.read, Nat.zero_le 1, hs.seq, hs.bytes, hs.count, ?_, ?_, ?_⟩
        · show s.queued ++ _ = _
          rw [hs.queued]
          rfl
        · show ∀ p ∈ s.read, _
          rw [hs.read]
          exact nofun
        · show Closing s.connId [] [] [] s.farewell
          rw [hs.farewell]
          rfl
        · exact ⟨hreply, hs.farewell, rfl⟩
      | false =>
        obtain rfl := Option.some.inj h
        exact .inl (hs.move hreply)
    · have hplace := hs.place
      rw [hpc] at hplace
      cases hplace
  · rename_i hpc
    rcases hs with hs | ⟨payload, out, rest, last, hs⟩
    · have hplace := hs.place
      rw [hpc] at hplace
      cases hplace
    · have hplace := hs.place
      have hclosing := hs.closing
      rw [hpc] at hplace
      obtain ⟨hreply, hnone⟩ := hplace
      rw [hnone] at hclosing
      obtain rfl : last = [] := hclosing
      cases ok with
      | true =>
        obtain rfl := Option.some.inj h
        refine .inr ⟨payload, out, rest, [.rst s.connId], hs.encode, ?_, hs.read, hs.few, hs.seq, hs.bytes, hs.count,
          hs.fits, rfl, hreply, nofun⟩
        show s.queued ++ _ = _
        rw [hs.queued, List.append_nil]
        rfl
      | false =>
        obtain rfl := Option.some.inj h
        exact .inr ⟨payload, out, rest, [], hs.move rfl ⟨hreply, nofun⟩⟩
  · cases h

/-- A place where the SYN has been queued. -/
theorem Inv.spoken (hs : s.Inv) {pc : TaskPc} (hpc : s.pc = pc) (hno : ∀ t : ClientTask, ¬ Quiet t pc) :
    ∃ payload out rest last, s.Spoken payload out rest last := by
  rcases hs with hs | hs
  · have hplace := hs.place
    rw [hpc] at hplace
    exact absurd hplace (hno s)
  · exact hs

theorem pollRead_inv (hs : s.Inv) {r : ReadPoll} (h : s.step (.pollRead r) = some s') : s'.Inv := by
  simp only [step] at h
  split at h
  · rename_i hpc
    obtain ⟨payload, out, rest, last, hs⟩ := hs.spoken hpc fun _ => id
    have hplace := hs.place
    rw [hpc] at hplace
    obtain ⟨hreply, hnone, rfl⟩ := hplace
    cases r with
    | chunk p =>
      simp only at h
      split_ifs at h with hp
      obtain rfl := Option.some.inj h
      have hread := hs.read
      rw [List.append_nil] at hread
      refine .inr ⟨payload, out, [p], last, hs.encode, hs.queued, ?_, le_rfl, hs.seq, hs.bytes, hs.count, ?_, ?_,
        hreply, hnone, rfl⟩
      · show s.read ++ [p] = _
        rw [hread]
      · intro q hq
        rcases List.mem_append.mp hq with hq | hq
        · exact hs.fits q hq
        · rw [List.mem_singleton.mp hq]
          exact hp
      · have hclosing := hs.closing
        rw [hnone] at hclosing
        show Closing s.connId out [p] last s.farewell
        rw [hnone]
        exact hclosing
    | eof | error =>
      obtain rfl := Option.some.inj h
      exact .inr ⟨payload, out, [], last, hs.move hs.closing ⟨hreply, hnone, fun _ => rfl⟩⟩
    | pending =>
      obtain rfl := Option.some.inj h
      exact .inr ⟨payload, out, [], last, hs⟩
  · cases h

theorem pollNotify_inv (hs : s.Inv) (h : s.step .pollNotify = some s') : s'.Inv := by
  simp only [step] at h
  split at h
  · rename_i hpc
    obtain ⟨payload, out, rest, last, hs⟩ := hs.spoken hpc fun _ => id
    have hplace := hs.place
    rw [hpc] at hplace
    split_ifs at h
    obtain rfl := Option.some.inj h
    exact .inr ⟨payload, out, rest, last, hs.move hs.closing hplace⟩
  · cases h

/-- A poll of the send of a chunk. -/
theorem sendData_inv (hs : s.Inv) {p : Bytes} {w : SendPoll} (hpc : s.pc = .sending p)
    (h : s.step (.pollSend w) = some s') : s'.Inv := by
  simp only [step, hpc] at h
  obtain ⟨payload, out, rest, last, hs⟩ := hs.spoken hpc fun _ => id
  have hplace := hs.place
  have hclosing := hs.closing
  rw [hpc] at hplace
  obtain ⟨hreply, hnone, rfl⟩ := hplace
  rw [hnone] at hclosing
  obtain rfl : last = [] := hclosing
  cases w with
  | sent =>
    obtain rfl := Option.some.inj h
    refine .inr ⟨payload, out ++ [p], [], [], hs.encode, ?_, ?_, Nat.zero_le 1, ?_, ?_, ?_, hs.fits, ?_, hreply, hnone,
      rfl⟩
    · show s.queued ++ [Frame.data s.connId s.seq p] = _
      rw [hs.queued, hs.seq, Frame.dataFrames_concat]
      simp
    · show s.read = _
      rw [hs.read, List.append_nil]
    · show s.seq + 1 = _
      rw [hs.seq, List.length_append, List.length_singleton, UInt64.ofNat_add (out.length + 1) 1]
      rfl
    · show s.bytesSent + UInt64.ofNat p.length = _
      rw [hs.bytes, List.flatten_append, List.length_append, List.flatten_singleton, UInt64.ofNat_add]
    · show s.framesSent + 1 = _
      rw [hs.count, List.length_append, List.length_singleton, UInt64.ofNat_add]
      rfl
    · show Closing s.connId (out ++ [p]) [] [] s.farewell
      rw [hnone]
      rfl
  | pending =>
    obtain rfl := Option.some.inj h
    exact .inr ⟨payload, out, [p], [], hs⟩
  | gaveUp =>
    obtain rfl := Option.some.inj h
    exact .inr ⟨payload, out, [p], [], hs.move hs.closing ⟨hreply, hnone, fun hne => absurd rfl hne⟩⟩

/-- A poll of the send of the FIN. -/
theorem sendFin_inv (hs : s.Inv) {reason : CloseReason} {w : SendPoll} (hpc : s.pc = .closing reason)
    (h : s.step (.pollSend w) = some s') : s'.Inv := by
  simp only [step, hpc] at h
  obtain ⟨payload, out, rest, last, hs⟩ := hs.spoken hpc fun _ => id
  have hplace := hs.place
  have hclosing := hs.closing
  rw [hpc] at hplace
  obtain ⟨hreply, hnone, hrest⟩ := hplace
  rw [hnone] at hclosing
  obtain rfl : last = [] := hclosing
  by_cases hreason : reason = .rst ∨ reason = .noTunnel
  · rw [if_pos hreason] at h
    cases h
  rw [if_neg hreason] at h
  obtain rfl := hrest fun hno => hreason (.inr hno)
  cases w with
  | sent =>
    obtain rfl := Option.some.inj h
    refine .inr ⟨payload, out, [], [.fin s.connId (UInt64.ofNat (out.length + 1))], hs.encode, ?_, hs.read,
      hs.few, hs.seq, hs.bytes, hs.count, hs.fits, ⟨rfl, rfl⟩, ?_⟩
    · show s.queued ++ [Frame.fin s.connId s.seq] = _
      rw [hs.queued, hs.seq, List.append_nil]
      rfl
    · by_cases heof : reason = .eof
      · rw [if_pos heof]
        exact ⟨hreply, nofun⟩
      · rw [if_neg heof]
        exact ⟨hreply, nofun⟩
  | pending =>
    obtain rfl := Option.some.inj h
    exact .inr ⟨payload, out, [], [], hs⟩
  | gaveUp =>
    obtain rfl := Option.some.inj h
    exact .inr ⟨payload, out, [], [], hs.move hs.closing ⟨hreply, hnone⟩⟩

/-- One DATA for a chunk, and the FIN behind the last one. -/
theorem pollSend_inv (hs : s.Inv) {w : SendPoll} (h : s.step (.pollSend w) = some s') : s'.Inv := by
  have hstep := h
  simp only [step] at h
  split at h
  · rename_i p hpc
    exact sendData_inv hs hpc hstep
  · rename_i reason hpc
    exact sendFin_inv hs hpc hstep
  · cases h

/-- The other tasks set flags, or take the entry away. -/
theorem others_inv (hs : s.Inv) {en : Entry} {b₁ b₂ b₃ : Bool} (hen : en = s.entry ∨ en ≠ .ours) :
    Inv { s with entry := en, rst := b₁, closed := b₂, notify := b₃ } := by
  have hne : s.entry ≠ .ours → en ≠ .ours := fun h => hen.elim (fun he => he ▸ h) id
  rcases hs with hs | ⟨payload, out, rest, last, hs⟩
  · refine .inl (hs.move ?_)
    have hplace := hs.place
    cases hpc : s.pc <;> rw [hpc] at hplace
    all_goals first
      | exact hplace
      | exact ⟨hne hplace.1, hplace.2⟩
  · refine .inr ⟨payload, out, rest, last, hs.move hs.closing ?_⟩
    have hplace := hs.place
    cases hpc : s.pc <;> rw [hpc] at hplace
    all_goals first
      | exact hplace
      | exact ⟨hplace.1, hplace.2.1, hplace.2.2.1, hne hplace.2.2.2⟩

theorem step_inv (hs : s.Inv) (h : s.step e = some s') : s'.Inv := by
  cases e with
  | next =>
    rcases hs with hs | ⟨payload, out, rest, last, hs⟩
    · exact .inl (advance_silent hs h)
    · exact .inr ⟨payload, out, rest, last, advance_spoken hs h⟩
  | send ok => exact send_inv hs h
  | pollRead r => exact pollRead_inv hs h
  | pollNotify => exact pollNotify_inv hs h
  | pollSend w => exact pollSend_inv hs h
  | storeRst | storeClosed | notifyOne =>
    obtain rfl := Option.some.inj h
    exact others_inv hs (.inl rfl)
  | entryTaken en =>
    simp only [step] at h
    split_ifs at h with hours
    obtain rfl := Option.some.inj h
    exact others_inv hs (.inr hours)

theorem step_const (h : s.step e = some s') :
    s'.connId = s.connId ∧ s'.chunkSize = s.chunkSize ∧ s'.target = s.target := by
  cases e <;> simp only [step, advance] at h
  all_goals repeat' split at h
  all_goals cases h
  all_goals exact ⟨rfl, rfl, rfl⟩

theorem run_inv {c : ConnId} {n : ℕ} {target : SynTarget} {es : List Event} (h : (new c n target).run es = some s) :
    s.Inv ∧ s.connId = c ∧ s.chunkSize = n ∧ s.target = target := by
  refine Machine.run_inv (fun x => x.Inv ∧ x.connId = c ∧ x.chunkSize = n ∧ x.target = target) h
    ⟨new_inv c n target, rfl, rfl, rfl⟩ ?_
  rintro x y e ⟨hx, hc, hn, ht⟩ hxy
  obtain ⟨hc', hn', ht'⟩ := step_const hxy
  exact ⟨step_inv hx hxy, hc'.trans hc, hn'.trans hn, ht'.trans ht⟩

/-- A connection to `a:80`: two chunks, and no tunnel takes the second; its handler's entry is swept in between. -/
def secondChunkLost : List Event :=
  [.next, .next, .send true, .next, .pollRead (.chunk [1, 2]), .pollSend .pending, .pollSend .sent,
   .pollRead (.chunk [3]), .entryTaken .absent, .pollSend .gaveUp, .next, .send true, .next, .next, .next]

end ClientTask

end RoundRobin.Splitter
