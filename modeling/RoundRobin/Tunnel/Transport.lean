import RoundRobin.FrameStream
import RoundRobin.Lib.Machine
import RoundRobin.Tunnel.Drain

/-!
# RoundRobin.Tunnel.Transport — one direction of a link, from queue to read loop

`drain_frames` of `src/tunnel.rs` at one end of a connection, the calls of `try_next` of a read loop at the other,
and the bytes between them.  `write_all` hands a frame to the socket in pieces; the connection carries the bytes in
order, and may be cut anywhere.

* `Received`: what a reader has taken is what its bytes begin with.
* `Carried`: what the socket was given is the frames the writer counts as written, and a part of the next one.
-/

namespace RoundRobin.Tunnel

open FrameDecoder

/-! ## The reader -/

/-- The decoder of a read loop, with the bytes it has read and the frames it has returned. -/
structure Reader where
  decoder : FrameDecoder
  got : Bytes
  taken : List Frame
  deriving DecidableEq, Repr

namespace Reader

def new : Reader := ⟨FrameDecoder.new, [], []⟩

/-- A call of `try_next` that reads just `reads` and returns a frame. -/
def next (r : Reader) (reads : List Bytes) : Option (Frame × Reader) :=
  let o := r.decoder.tryNext reads
  match o.result with
  | .ok (some f) =>
    if (∀ x ∈ reads, x ≠ []) ∧ o.reads = [] then some (f, ⟨o.dec, r.got ++ reads.flatten, r.taken ++ [f]⟩) else none
  | _ => none

/-- A call of `try_next` that reads `reads` and then the end of the stream, and returns no frame. -/
def finish (r : Reader) (reads : List Bytes) : Option Reader :=
  let o := r.decoder.tryNext reads
  match o.result with
  | .ok (some _) => none
  | _ => if ∀ x ∈ reads, x ≠ [] then some { r with got := r.got ++ reads.flatten } else none

/-- The frames taken are at the front of the bytes read. -/
structure Received (r : Reader) : Prop where
  got : r.got = Frame.wires r.taken ++ r.decoder.buf
  encodable : Frame.Encodable r.taken

theorem received_new : new.Received := ⟨rfl, nofun⟩

variable {r r' : Reader} {f : Frame} {reads : List Bytes}

theorem Received.unread (hr : r.Received) (reads : List Bytes) :
    r.got ++ reads.flatten = Frame.wires r.taken ++ r.decoder.unread reads := by
  rw [hr.got, List.append_assoc]
  rfl

/-- A frame is taken. -/
theorem Received.next (hr : r.Received) (h : r.next reads = some (f, r')) :
    r'.Received ∧ r'.taken = r.taken ++ [f] ∧ r'.got = r.got ++ reads.flatten := by
  simp only [Reader.next] at h
  split at h
  · rename_i g hg
    split_ifs at h with hguard
    obtain ⟨rfl, rfl⟩ := Prod.mk.inj (Option.some.inj h)
    obtain ⟨hne, hall⟩ := hguard
    refine ⟨?_, rfl, rfl⟩
    rcases tryNext_spec r.decoder reads hne with ⟨f, t, hparse, hf, ht, -⟩ | ⟨-, hnone⟩
    · obtain rfl : f = g := Option.some.inj (Except.ok.inj (hf.symm.trans hg))
      obtain ⟨hlen, hunread⟩ := parse_sound hparse
      constructor
      · rw [hall, FrameDecoder.unread, List.flatten_nil, List.append_nil] at ht
        show r.got ++ reads.flatten = _
        rw [hr.unread, hunread, ht, wires_append]
        simp [Frame.wires]
      · intro x hx
        rcases List.mem_append.mp hx with hx | hx
        · exact hr.encodable x hx
        · rw [List.mem_singleton.mp hx]
          exact hlen
    · rw [hg, atEof] at hnone
      split_ifs at hnone
      cases hnone
  · cases h

/-- The stream ends behind the frames taken. -/
theorem Received.finish (hr : r.Received) (h : r.finish reads = some r') :
    r'.taken = r.taken ∧ r'.got = r.got ++ reads.flatten ∧
      ∃ rest, r'.got = Frame.wires r'.taken ++ rest ∧ parse rest = .ok none := by
  simp only [Reader.finish] at h
  split at h
  · cases h
  · rename_i hnone
    split_ifs at h with hne
    obtain rfl := Option.some.inj h
    refine ⟨rfl, rfl, _, hr.unread reads, ?_⟩
    rcases tryNext_spec r.decoder reads hne with ⟨f, t, -, hf, -, -⟩ | ⟨hparse, -⟩
    · exact absurd hf (hnone f)
    · exact hparse

end Reader

/-! ## Both ends -/

/-- How a read loop has come to its end, if it has. -/
inductive Ending where
  | running
  /-- It has read what the writer sent, to the end. -/
  | eof
  | cut
  deriving DecidableEq, Repr

structure Transport where
  writer : Writer
  /-- How much of the frame under way the socket has. -/
  part : ℕ
  /-- What the socket was given. -/
  sent : Bytes
  reader : Reader
  ending : Ending
  deriving DecidableEq, Repr

namespace Transport

inductive Event where
  /-- A step of the writer task or of a sender. -/
  | writer (e : Tunnel.Event)
  /-- The socket takes `n` more bytes from `write_all`. -/
  | push (n : ℕ)
  /-- The read loop reads `reads`, and takes a frame. -/
  | next (reads : List Bytes)
  /-- It reads `reads`, and then the end that `wr.shutdown()` has made. -/
  | eof (reads : List Bytes)
  /-- The connection is cut, or the read loop stops. -/
  | cut
  deriving DecidableEq, Repr

def new : Transport := ⟨Writer.new, 0, [], Reader.new, .running⟩

/-- `write_all` has nothing left to write. -/
def allPushed (s : Transport) : Bool :=
  match s.writer.pc with
  | .writing f => decide (s.part = f.wire.length)
  | _ => false

/-- The writer has stopped writing. -/
def closing (w : Writer) : Bool :=
  match w.pc with
  | .shutdown | .done => true
  | _ => false

/-- One event, if it can happen. -/
def step (s : Transport) : Event → Option Transport
  | .writer e => do
    let w ← s.writer.step e
    if e = .wrote ∧ s.allPushed = false then none
    else some { s with writer := w, part := if e = .recv then 0 else s.part }
  | .push n =>
    match s.writer.pc with
    | .writing f =>
      if s.part + n ≤ f.wire.length then
        some { s with part := s.part + n, sent := s.sent ++ (f.wire.drop s.part).take n }
      else none
    | _ => none
  | .next reads => do
    let (_, r) ← s.reader.next reads
    if s.ending = .running ∧ r.got <+: s.sent then some { s with reader := r } else none
  | .eof reads => do
    let r ← s.reader.finish reads
    if s.ending = .running ∧ closing s.writer = true ∧ r.got = s.sent then some { s with reader := r, ending := .eof }
    else none
  | .cut => if s.ending = .running then some { s with ending := .cut } else none

def run (s : Transport) (es : List Event) : Option Transport := Machine.run step s es

/-! ## What the socket is given -/

/-- What was sent ends within the frame `f`, after the frames that were written. -/
def EndsIn (written : List Frame) (sent : Bytes) (f : Frame) : Prop :=
  f.payload.length ≤ maxPayload ∧ ∃ k, sent = Frame.wires written ++ f.wire.take k

/-- The frames accepted are, in order: those written, at most one whose write failed, those lost, and others; what was
sent ends with the frames written, or within the next one. -/
structure Sent (log written lost : List Frame) (sent : Bytes) (failed tail : List Frame) : Prop where
  log : log = written ++ (failed ++ lost ++ tail)
  few : failed.length ≤ 1
  sent : sent = Frame.wires written ∨ ∃ f, (failed ++ lost ++ tail).head? = some f ∧ EndsIn written sent f

/-- The invariant of the writer. -/
structure Carried (w : Writer) (part : ℕ) (sent : Bytes) : Prop where
  encodable : Frame.Encodable w.written
  select : w.pc = .select →
    w.lostFrames = [] ∧ w.chan.log = w.written ++ w.chan.queue ∧ sent = Frame.wires w.written
  writing : ∀ f, w.pc = .writing f → w.lostFrames = [] ∧ w.chan.log = w.written ++ f :: w.chan.queue ∧
    f.payload.length ≤ maxPayload ∧ part ≤ f.wire.length ∧ sent = Frame.wires w.written ++ f.wire.take part
  draining : w.pc = .draining → ∃ failed, Sent w.chan.log w.written w.lostFrames sent failed w.chan.queue
  closing : closing w = true → ∃ failed tail, Sent w.chan.log w.written w.lostFrames sent failed tail

theorem carried_new : Carried Writer.new 0 [] := ⟨nofun, fun _ => ⟨rfl, rfl, rfl⟩, nofun, nofun, nofun⟩

variable {s s' : Transport} {w w' : Writer} {part : ℕ} {sent : Bytes} {f : Frame}
  {log written lost failed tail : List Frame}

theorem Sent.enqueue (h : Sent log written lost sent failed tail) (f : Frame) :
    Sent (log ++ [f]) written lost sent failed (tail ++ [f]) := by
  refine ⟨by rw [h.log]; simp, h.few, h.sent.imp_right ?_⟩
  rintro ⟨g, hg, hends⟩
  exact ⟨g, by rw [← List.append_assoc, List.head?_append, hg]; rfl, hends⟩

/-- Wherever the writer is. -/
theorem Carried.ends (hw : Carried w part sent) :
    ∃ failed tail, Sent w.chan.log w.written w.lostFrames sent failed tail := by
  cases hpc : w.pc with
  | select =>
    obtain ⟨hlost, hlog, hsent⟩ := hw.select hpc
    exact ⟨[], w.chan.queue, by rw [hlog, hlost]; rfl, Nat.zero_le 1, .inl hsent⟩
  | writing f =>
    obtain ⟨hlost, hlog, hlen, -, hsent⟩ := hw.writing f hpc
    exact ⟨[], f :: w.chan.queue, by rw [hlog, hlost]; rfl, Nat.zero_le 1,
      .inr ⟨f, by rw [hlost]; rfl, hlen, part, hsent⟩⟩
  | draining =>
    obtain ⟨failed, h⟩ := hw.draining hpc
    exact ⟨failed, _, h⟩
  | shutdown => exact hw.closing (by rw [Transport.closing, hpc])
  | done => exact hw.closing (by rw [Transport.closing, hpc])

/-- A writer that goes on to empty its queue. -/
theorem carried_draining (failed : List Frame) (hpc : w.pc = .draining) (henc : Frame.Encodable w.written)
    (h : Sent w.chan.log w.written w.lostFrames sent failed w.chan.queue) : Carried w part sent := by
  refine ⟨henc, ?_, ?_, fun _ => ⟨failed, h⟩, ?_⟩
  · intro hsel
    rw [hpc] at hsel
    cases hsel
  · intro f hwr
    rw [hpc] at hwr
    cases hwr
  · intro hcl
    rw [closing, hpc] at hcl
    cases hcl

theorem carried_closing (hpc : closing w = true) (henc : Frame.Encodable w.written)
    (h : Sent w.chan.log w.written w.lostFrames sent failed tail) : Carried w part sent := by
  refine ⟨henc, ?_, ?_, ?_, fun _ => ⟨failed, tail, h⟩⟩
  · intro hsel
    rw [closing, hsel] at hpc
    cases hpc
  · intro f hwr
    rw [closing, hwr] at hpc
    cases hpc
  · intro hdr
    rw [closing, hdr] at hpc
    cases hpc

/-- The frame that is being written was encoded. -/
theorem encodable_of_recv {w w' : Writer} {f : Frame} (h : w.step .recv = some w') (hpc : w'.pc = .writing f) :
    f.payload.length ≤ maxPayload := by
  simp only [Writer.step] at h
  split at h
  · rename_i g ch hsel hrecv
    split at h
    · obtain rfl := Option.some.inj h
      cases hpc
    · rename_i e he
      obtain rfl := Option.some.inj h
      obtain rfl : g = f := Pc.writing.inj hpc
      exact (Frame.encodeInto_ok he).1
  · cases h

/-- A step of the writer, which finishes a write only when all of the frame was pushed. -/
theorem writer_carried {e : Tunnel.Event} (hw : Carried w part sent) (h : w.step e = some w')
    (hall : e = .wrote → ∀ f, w.pc = .writing f → part = f.wire.length) :
    Carried w' (if e = .recv then 0 else part) sent := by
  have henc := hw.encodable
  cases Writer.step_trans h with
  | enqueue f hroom =>
    refine ⟨henc, fun hpc => ?_, fun g hpc => ?_, fun hpc => ?_, fun hpc => ?_⟩
    · obtain ⟨hlost, hlog, hsent⟩ := hw.select hpc
      exact ⟨hlost, by rw [hlog, List.append_assoc], hsent⟩
    · obtain ⟨hlost, hlog, hrest⟩ := hw.writing g hpc
      exact ⟨hlost, by rw [hlog, List.append_assoc]; rfl, hrest⟩
    · obtain ⟨failed, hsent⟩ := hw.draining hpc
      exact ⟨failed, hsent.enqueue f⟩
    · obtain ⟨failed, tail, hsent⟩ := hw.closing hpc
      exact ⟨failed, _, hsent.enqueue f⟩
  | notifyStop => exact ⟨henc, hw.select, hw.writing, hw.draining, hw.closing⟩
  | stopIdle hpc =>
    obtain ⟨hlost, hlog, hsent⟩ := hw.select hpc
    refine carried_draining [] rfl henc ⟨?_, Nat.zero_le 1, .inl hsent⟩
    rw [hlog, hlost]
    rfl
  | stopWriting f hpc =>
    obtain ⟨hlost, hlog, hlen, -, hsent⟩ := hw.writing f hpc
    refine carried_draining [] rfl henc ⟨?_, Nat.zero_le 1, .inr ⟨f, ?_, hlen, part, hsent⟩⟩
    · rw [hlog, hlost]
      rfl
    · rw [hlost]
      rfl
  | encodeFailed f q hpc hq =>
    obtain ⟨hlost, hlog, hsent⟩ := hw.select hpc
    refine carried_draining [] rfl henc ⟨?_, Nat.zero_le 1, .inl hsent⟩
    rw [hlog, hlost, hq]
    rfl
  | recv f q hpc hq =>
    obtain ⟨hlost, hlog, hsent⟩ := hw.select hpc
    have hlen := encodable_of_recv h rfl
    refine ⟨henc, nofun, fun g hg => ?_, nofun, nofun⟩
    obtain rfl := Pc.writing.inj hg
    exact ⟨hlost, by rw [hlog, hq], hlen, Nat.zero_le _, by rw [hsent, if_pos rfl, List.take_zero, List.append_nil]⟩
  | recvNone hpc =>
    obtain ⟨hlost, hlog, hsent⟩ := hw.select hpc
    refine carried_draining [] rfl henc ⟨?_, Nat.zero_le 1, .inl hsent⟩
    rw [hlog, hlost]
    rfl
  | wrote f hpc =>
    obtain ⟨hlost, hlog, hlen, -, hsent⟩ := hw.writing f hpc
    refine ⟨fun g hg => ?_, fun _ => ⟨hlost, ?_, ?_⟩, nofun, nofun, nofun⟩
    · rcases List.mem_append.mp hg with hg | hg
      · exact henc g hg
      · rw [List.mem_singleton.mp hg]
        exact hlen
    · rw [hlog]
      simp
    · rw [hsent, hall rfl f hpc, List.take_length, wires_append]
      simp [Frame.wires]
  | writeFailed f hpc =>
    obtain ⟨hlost, hlog, hlen, -, hsent⟩ := hw.writing f hpc
    refine carried_draining [f] rfl henc ⟨?_, le_rfl, .inr ⟨f, rfl, hlen, part, hsent⟩⟩
    rw [hlog, hlost]
    rfl
  | tryRecv f q hpc hq =>
    obtain ⟨failed, hlog, hfew, hsent⟩ := hw.draining hpc
    have hmove : failed ++ (w.lostFrames ++ [f]) ++ q = failed ++ w.lostFrames ++ w.chan.queue := by
      rw [hq]
      simp
    refine carried_draining failed hpc henc ⟨?_, hfew, ?_⟩
    · rw [hlog, ← hmove]
    · rw [← hmove] at hsent
      exact hsent
  | tryRecvEmpty hpc hq =>
    obtain ⟨failed, hsent⟩ := hw.draining hpc
    exact carried_closing rfl henc hsent
  | shutdownDone hpc =>
    obtain ⟨failed, tail, hsent⟩ := hw.closing (by rw [closing, hpc])
    exact carried_closing rfl henc hsent

/-- The socket takes more of the frame under way. -/
theorem push_carried (hw : Carried w part sent) (hpc : w.pc = .writing f) {n : ℕ} (hn : part + n ≤ f.wire.length) :
    Carried w (part + n) (sent ++ (f.wire.drop part).take n) := by
  obtain ⟨hlost, hlog, hlen, -, hsent⟩ := hw.writing f hpc
  refine ⟨hw.encodable, ?_, fun g hg => ?_, ?_, ?_⟩
  · intro hsel
    rw [hpc] at hsel
    cases hsel
  · obtain rfl := Pc.writing.inj (hpc.symm.trans hg)
    exact ⟨hlost, hlog, hlen, hn, by rw [hsent, List.append_assoc, List.take_add]⟩
  · intro hdr
    rw [hpc] at hdr
    cases hdr
  · intro hcl
    rw [closing, hpc] at hcl
    cases hcl

/-! ## What the read loop takes -/

/-- The invariant. -/
structure Kept (s : Transport) : Prop where
  carried : Carried s.writer s.part s.sent
  reading : s.ending = .running → s.reader.Received
  taken : Frame.Encodable s.reader.taken ∧ Frame.wires s.reader.taken <+: s.reader.got
  arrived : s.reader.got <+: s.sent
  eof : s.ending = .eof → closing s.writer = true ∧ s.reader.got = s.sent ∧
    ∃ rest, s.reader.got = Frame.wires s.reader.taken ++ rest ∧ parse rest = .ok none

theorem kept_new : new.Kept :=
  ⟨carried_new, fun _ => Reader.received_new, ⟨nofun, List.nil_prefix⟩, List.nil_prefix, nofun⟩

/-- A writer that has stopped writing does not start again. -/
theorem closing_step {e : Tunnel.Event} (h : w.step e = some w') (hc : closing w = true) :
    closing w' = true ∧ w'.written = w.written := by
  have hno : ∀ pc, w.pc = pc → closing { w with pc := pc } = true := by
    rintro pc rfl
    exact hc
  cases Writer.step_trans h with
  | enqueue f _ => exact ⟨hc, rfl⟩
  | notifyStop => exact ⟨hc, rfl⟩
  | shutdownDone _ => exact ⟨rfl, rfl⟩
  | stopIdle hpc => cases hno _ hpc
  | stopWriting f hpc => cases hno _ hpc
  | encodeFailed f q hpc _ => cases hno _ hpc
  | recv f q hpc _ => cases hno _ hpc
  | recvNone hpc => cases hno _ hpc
  | wrote f hpc => cases hno _ hpc
  | writeFailed f hpc => cases hno _ hpc
  | tryRecv f q hpc _ => cases hno _ hpc
  | tryRecvEmpty hpc _ => cases hno _ hpc

theorem step_kept {e : Event} (hs : s.Kept) (h : s.step e = some s') : s'.Kept := by
  cases e with
  | writer e =>
    obtain ⟨w, hw, h⟩ := Option.bind_eq_some_iff.mp h
    by_cases hguard : e = .wrote ∧ s.allPushed = false
    · rw [if_pos hguard] at h
      cases h
    rw [if_neg hguard] at h
    obtain rfl := Option.some.inj h
    refine ⟨writer_carried hs.carried hw ?_, hs.reading, hs.taken, hs.arrived, fun hend => ?_⟩
    · rintro rfl f hpc
      by_contra hpart
      exact hguard ⟨rfl, by rw [allPushed, hpc]; exact decide_eq_false hpart⟩
    · obtain ⟨hcl, hgot, hrest⟩ := hs.eof hend
      exact ⟨(closing_step hw hcl).1, hgot, hrest⟩
  | push n =>
    simp only [step] at h
    split at h
    · rename_i f hpc
      split_ifs at h with hn
      obtain rfl := Option.some.inj h
      refine ⟨push_carried hs.carried hpc hn, hs.reading, hs.taken, hs.arrived.trans (List.prefix_append _ _), ?_⟩
      intro hend
      obtain ⟨hcl, -, -⟩ := hs.eof hend
      rw [closing, hpc] at hcl
      cases hcl
    · cases h
  | next reads =>
    obtain ⟨⟨f, r⟩, hr, h⟩ := Option.bind_eq_some_iff.mp h
    simp only at h
    split_ifs at h with hguard
    obtain rfl := Option.some.inj h
    obtain ⟨hrun, harr⟩ := hguard
    obtain ⟨hrec, -, -⟩ := (hs.reading hrun).next hr
    refine ⟨hs.carried, fun _ => hrec, ⟨hrec.encodable, ⟨_, hrec.got.symm⟩⟩, harr, fun hend => ?_⟩
    rw [hrun] at hend
    cases hend
  | eof reads =>
    obtain ⟨r, hr, h⟩ := Option.bind_eq_some_iff.mp h
    split_ifs at h with hguard
    obtain rfl := Option.some.inj h
    obtain ⟨hrun, hcl, hall⟩ := hguard
    obtain ⟨htaken, -, rest, hgot, hparse⟩ := (hs.reading hrun).finish hr
    refine ⟨hs.carried, nofun, ⟨?_, ⟨rest, hgot.symm⟩⟩, ⟨[], by rw [List.append_nil]; exact hall⟩,
      fun _ => ⟨hcl, hall, rest, hgot, hparse⟩⟩
    show Frame.Encodable r.taken
    rw [htaken]
    exact hs.taken.1
  | cut =>
    simp only [step] at h
    split_ifs at h with hrun
    obtain rfl := Option.some.inj h
    exact ⟨hs.carried, nofun, hs.taken, hs.arrived, nofun⟩

theorem run_kept {es : List Event} (h : new.run es = some s) : s.Kept :=
  Machine.run_inv Kept h kept_new fun _ _ _ hx hxy => step_kept hx hxy

/-- **A link carries its frames in order.**  However the bytes of a connection are cut into pieces, and wherever it
breaks: the frames taken at one end are, unchanged and without a gap, the first of those the queue accepted at the
other, and at most one more than were written; when the stream is read to its end, they are at least those.  The
frames behind these are, in order, at most one whose write failed, those reported as lost, and those no report has. -/
theorem link_carries {es : List Event} (h : new.run es = some s) :
    s.reader.taken <+: s.writer.chan.log ∧ s.reader.taken.length ≤ s.writer.written.length + 1 ∧
      (s.ending = .eof → s.writer.written <+: s.reader.taken) ∧
      ∃ failed tail, failed.length ≤ 1 ∧
        s.writer.chan.log = s.writer.written ++ (failed ++ s.writer.lostFrames ++ tail) := by
  have hs := run_kept h
  obtain ⟨failed, tail, hlog, hfew, hsent⟩ := hs.carried.ends
  have hnone : parse ([] : Bytes) = .ok none := rfl
  have hwires := hs.taken.2.trans hs.arrived
  have hcut : ∀ {fs : List Frame}, Frame.Encodable fs → s.sent <+: Frame.wires fs → s.reader.taken <+: fs :=
    fun hfs hpre => wires_cut hfs hs.taken.1 hnone (by rw [List.append_nil]; exact hwires.trans hpre)
  have htaken : ∃ more : List Frame, more.length ≤ 1 ∧ s.reader.taken <+: s.writer.written ++ more ∧
      s.writer.written ++ more <+: s.writer.chan.log := by
    rcases hsent with hsent | ⟨f, hf, hlen, k, hsent⟩
    · refine ⟨[], Nat.zero_le 1, ?_, ?_⟩
      · rw [List.append_nil]
        exact hcut hs.carried.encodable ⟨[], by rw [List.append_nil, hsent]⟩
      · rw [List.append_nil, hlog]
        exact List.prefix_append _ _
    · refine ⟨[f], le_rfl, hcut (fun g hg => ?_) ?_, ?_⟩
      · rcases List.mem_append.mp hg with hg | hg
        · exact hs.carried.encodable g hg
        · rw [List.mem_singleton.mp hg]
          exact hlen
      · rw [hsent, wires_append]
        refine (List.prefix_append_right_inj _).mpr ((List.take_prefix k f.wire).trans ?_)
        simp [Frame.wires]
      · rw [hlog]
        obtain ⟨rest, hrest⟩ := List.head?_eq_some_iff.mp hf
        rw [hrest]
        exact (List.prefix_append_right_inj _).mpr ⟨rest, rfl⟩
  obtain ⟨more, hmore, hpre, hinlog⟩ := htaken
  refine ⟨hpre.trans hinlog, ?_, fun hend => ?_, failed, tail, hfew, hlog⟩
  · have hle := hpre.length_le
    rw [List.length_append] at hle
    omega
  · obtain ⟨-, hall, rest, hgot, hparse⟩ := hs.eof hend
    refine wires_cut hs.taken.1 hs.carried.encodable hparse ?_
    rw [← hgot, hall]
    rcases hsent with hsent | ⟨f, -, -, k, hsent⟩
    · exact ⟨[], by rw [List.append_nil, hsent]⟩
    · rw [hsent]
      exact List.prefix_append _ _

/-- A SYN in two pieces, and a DATA whose write fails behind its header; a FIN is queued behind it. -/
def failedWrite : List Event :=
  [.writer (.enqueue (Frame.syn 7 [1])), .writer (.enqueue (Frame.data 7 1 [65])), .writer (.enqueue (Frame.fin 7 2)),
   .writer .recv, .push 5, .push 11, .writer .wrote, .writer .recv, .push 15,
   .next [(Frame.syn 7 [1]).wire.take 10, (Frame.syn 7 [1]).wire.drop 10 ++ (Frame.data 7 1 [65]).wire.take 4],
   .writer .writeFailed, .writer .tryRecv, .writer .tryRecv,
   .eof [((Frame.data 7 1 [65]).wire.take 15).drop 4]]

theorem link_carries_failed_write : ∃ s, new.run failedWrite = some s ∧ s.reader.taken = [Frame.syn 7 [1]] ∧
    s.writer.lostFrames = [Frame.fin 7 2] ∧ s.writer.written <+: s.reader.taken := by
  have hend : (new.run failedWrite).map (fun s => (s.reader.taken, s.writer.lostFrames, s.ending)) =
      some ([Frame.syn 7 [1]], [Frame.fin 7 2], .eof) := by decide
  obtain ⟨s, hrun, heq⟩ := Option.map_eq_some_iff.mp hend
  obtain ⟨htaken, hrest⟩ := Prod.mk.inj heq
  obtain ⟨hlost, heof⟩ := Prod.mk.inj hrest
  obtain ⟨-, -, hwritten, -⟩ := link_carries hrun
  exact ⟨s, hrun, htaken, hlost, hwritten heof⟩

end Transport

end RoundRobin.Tunnel
