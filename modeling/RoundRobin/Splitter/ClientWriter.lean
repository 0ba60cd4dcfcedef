import RoundRobin.Lib.Machine
import RoundRobin.Reassembler.EgressWriter
import RoundRobin.Splitter.State

/-!
# RoundRobin.Splitter.ClientWriter — the writer task of a client

`writer_task` of `handle_tcp_client` in `src/splitter.rs`: it writes what `on_frame` queued for the client, chunk
after chunk, until the connection is dropped and the channel is empty, or until a write fails or stalls; then it
shuts the stream down.  When the write timeout fires is left open.

`Given` is what the client was given, as for the egress writer; here there is nothing that cancels a write.
-/

namespace RoundRobin.Splitter

open Reassembler (WritePoll)

/-- Where the task is.  `whole`: it left its loop because `recv` yielded `None`. -/
inductive WriterPc where
  | recv
  /-- At the timed `write_all` of `chunk`, of which the client has the first `sent` bytes. -/
  | write (chunk : Bytes) (sent : ℕ)
  /-- `client_writer.shutdown().await`. -/
  | shutdown (whole : Bool)
  /-- Returned, the receiver is dropped. -/
  | done (whole : Bool)
  deriving DecidableEq, Repr

def WriterPc.whole : WriterPc → Bool
  | .shutdown whole | .done whole => whole
  | _ => false

structure ClientWriter where
  rx : Chan Bytes
  /-- The connection still holds the sender. -/
  connected : Bool
  pc : WriterPc
  /-- What the client was given. -/
  socket : Bytes
  written : List Bytes
  deriving DecidableEq, Repr

namespace ClientWriter

inductive Event where
  /-- A `try_send` of `on_frame` succeeds. -/
  | queue (chunk : Bytes)
  /-- The last sender is dropped. -/
  | hangUp
  /-- The task's next step; if it polls a write, the write does `w`. -/
  | poll (w : WritePoll)
  deriving DecidableEq, Repr

/-- A poll at which no write waits. -/
def Event.moves : Event → Bool
  | .poll (.pending _) => false
  | .poll _ => true
  | _ => false

def new : ClientWriter := ⟨Chan.new clientChannelCap, true, .recv, [], []⟩

/-- One step of the task. -/
def pollTask (s : ClientWriter) (w : WritePoll) : Option ClientWriter :=
  match s.pc with
  | .recv =>
    match s.rx.recv with
    | some (chunk, rx) => some { s with rx := rx, pc := .write chunk 0 }
    | none => some (if s.connected then s else { s with pc := .shutdown true })
  | .write chunk sent =>
    let rest := chunk.drop sent
    match w with
    | .done => some { s with socket := s.socket ++ rest, written := s.written ++ [chunk], pc := .recv }
    | .pending n =>
      if n < rest.length then some { s with socket := s.socket ++ rest.take n, pc := .write chunk (sent + n) }
      else none
    | .error n | .elapsed n =>
      if n < rest.length then some { s with socket := s.socket ++ rest.take n, pc := .shutdown false } else none
  | .shutdown whole => some { s with pc := .done whole, rx := s.rx.close }
  | .done _ => none

def step (s : ClientWriter) : Event → Option ClientWriter
  | .queue chunk =>
    if s.connected then
      match s.rx.trySend chunk with
      | (.ok, rx) => some { s with rx := rx }
      | _ => none
    else none
  | .hangUp => some { s with connected := false }
  | .poll w => s.pollTask w

def run (s : ClientWriter) (es : List Event) : Option ClientWriter := Machine.run step s es

variable {s s' : ClientWriter} {e : Event}

/-! ## What a step can do -/

inductive Trans (s : ClientWriter) : Event → ClientWriter → Prop where
  | queue (chunk : Bytes) : s.connected = true → Trans s (.queue chunk)
      { s with rx := { s.rx with queue := s.rx.queue ++ [chunk], log := s.rx.log ++ [chunk] } }
  | hangUp : Trans s .hangUp { s with connected := false }
  | recv {w : WritePoll} (chunk : Bytes) (q : List Bytes) : s.pc = .recv → s.rx.queue = chunk :: q →
      Trans s (.poll w) { s with rx := { s.rx with queue := q }, pc := .write chunk 0 }
  | waits {w : WritePoll} : s.connected = true → Trans s (.poll w) s
  | recvNone {w : WritePoll} : s.pc = .recv → s.rx.queue = [] → s.connected = false →
      Trans s (.poll w) { s with pc := .shutdown true }
  | wrote (chunk : Bytes) (sent : ℕ) : s.pc = .write chunk sent → Trans s (.poll .done)
      { s with socket := s.socket ++ chunk.drop sent, written := s.written ++ [chunk], pc := .recv }
  | wrotePart (chunk : Bytes) (sent n : ℕ) : s.pc = .write chunk sent → Trans s (.poll (.pending n))
      { s with socket := s.socket ++ (chunk.drop sent).take n, pc := .write chunk (sent + n) }
  | writeFailed {w : WritePoll} (chunk : Bytes) (sent n : ℕ) : s.pc = .write chunk sent → Trans s (.poll w)
      { s with socket := s.socket ++ (chunk.drop sent).take n, pc := .shutdown false }
  | shutdownDone {w : WritePoll} (whole : Bool) : s.pc = .shutdown whole → Trans s (.poll w)
      { s with pc := .done whole, rx := s.rx.close }

theorem step_trans (h : s.step e = some s') : s.Trans e s' := by
  cases e with
  | queue chunk =>
    simp only [step] at h
    split_ifs at h with hcon
    split at h
    · rename_i rx hs
      obtain ⟨-, hrx⟩ := Chan.trySend_ok (by rw [hs] : (s.rx.trySend chunk).1 = .ok)
      obtain rfl := Option.some.inj h
      rw [hs] at hrx
      subst hrx
      exact .queue chunk hcon
    · cases h
  | hangUp =>
    obtain rfl := Option.some.inj h
    exact .hangUp
  | poll w =>
    simp only [step, pollTask] at h
    split at h
    · rename_i hpc
      split at h
      · rename_i chunk rx hr
        obtain ⟨q, hq, rfl⟩ := Chan.recv_some hr
        obtain rfl := Option.some.inj h
        exact .recv chunk q hpc hq
      · rename_i hr
        obtain rfl := Option.some.inj h
        split_ifs with hcon
        · exact .waits hcon
        · exact .recvNone hpc (Chan.recv_none hr) (Bool.eq_false_iff.mpr hcon)
    · rename_i chunk sent hpc
      cases w with
      | done =>
        obtain rfl := Option.some.inj h
        exact .wrote chunk sent hpc
      | pending n =>
        obtain ⟨-, h⟩ := Option.ite_none_right_eq_some.mp h
        obtain rfl := Option.some.inj h
        exact .wrotePart chunk sent n hpc
      | error n | elapsed n =>
        obtain ⟨-, h⟩ := Option.ite_none_right_eq_some.mp h
        obtain rfl := Option.some.inj h
        exact .writeFailed chunk sent n hpc
    · rename_i whole hpc
      obtain rfl := Option.some.inj h
      exact .shutdownDone whole hpc
    · cases h

/-! ## The client -/

/-- The client was given the chunks written and `part` of what follows; `rest` was queued and is not written. -/
structure Given (s : ClientWriter) (part : Bytes) (rest : List Bytes) : Prop where
  log : s.rx.log = s.written ++ rest
  socket : s.socket = s.written.flatten ++ part
  fits : part <+: rest.flatten
  reading : s.pc = .recv → part = [] ∧ rest = s.rx.queue
  writing : ∀ chunk sent, s.pc = .write chunk sent → part = chunk.take sent ∧ rest = chunk :: s.rx.queue
  whole : s.pc.whole = true → part = [] ∧ rest = [] ∧ s.connected = false

theorem new_given : new.Given [] [] :=
  ⟨rfl, rfl, List.prefix_refl _, fun _ => ⟨rfl, rfl⟩, fun _ _ h => (by cases h), fun h => (by cases h)⟩

theorem step_given {part : Bytes} {rest : List Bytes} (hs : s.Given part rest) (h : s.step e = some s') :
    ∃ part' rest', s'.Given part' rest' := by
  have ⟨hlog, hsocket, hfits, hreading, hwriting, hwhole⟩ := hs
  cases step_trans h with
  | queue chunk hcon =>
    refine ⟨part, rest ++ [chunk], ?_, hsocket, ?_, fun hpc => ?_, fun c n hpc => ?_, fun hpc => ?_⟩
    · rw [hlog, List.append_assoc]
    · rw [List.flatten_append]
      exact hfits.trans (List.prefix_append _ _)
    · obtain ⟨hp, hr⟩ := hreading hpc
      exact ⟨hp, by rw [hr]⟩
    · obtain ⟨hp, hr⟩ := hwriting c n hpc
      exact ⟨hp, by rw [hr]; rfl⟩
    · cases hcon.symm.trans (hwhole hpc).2.2
  | hangUp =>
    refine ⟨part, rest, hlog, hsocket, hfits, hreading, hwriting, fun hpc => ?_⟩
    obtain ⟨hp, hr, -⟩ := hwhole hpc
    exact ⟨hp, hr, rfl⟩
  | recv chunk q hpc hq =>
    obtain ⟨rfl, rfl⟩ := hreading hpc
    rw [hq] at hlog
    refine ⟨[], chunk :: q, hlog, hsocket, List.nil_prefix, nofun, fun c n hc => ?_, nofun⟩
    obtain ⟨rfl, rfl⟩ := WriterPc.write.inj hc
    exact ⟨rfl, rfl⟩
  | waits => exact ⟨part, rest, hs⟩
  | recvNone hpc hq hcon =>
    obtain ⟨rfl, rfl⟩ := hreading hpc
    refine ⟨[], s.rx.queue, hlog, hsocket, List.nil_prefix, nofun, nofun, fun _ => ?_⟩
    exact ⟨rfl, hq, hcon⟩
  | wrote chunk sent hpc =>
    obtain ⟨rfl, rfl⟩ := hwriting chunk sent hpc
    refine ⟨[], s.rx.queue, ?_, ?_, List.nil_prefix, fun _ => ⟨rfl, rfl⟩, nofun, nofun⟩
    · rw [hlog, List.append_assoc]
      rfl
    · show s.socket ++ chunk.drop sent = _
      rw [hsocket, List.append_assoc, List.take_append_drop]
      simp
  | wrotePart chunk sent n hpc =>
    obtain ⟨rfl, rfl⟩ := hwriting chunk sent hpc
    refine ⟨chunk.take (sent + n), chunk :: s.rx.queue, hlog, ?_, ?_, nofun, fun c m hc => ?_, nofun⟩
    · show s.socket ++ (chunk.drop sent).take n = _
      rw [hsocket, List.append_assoc, List.take_add]
    · exact (List.take_prefix _ _).trans (List.prefix_append _ _)
    · obtain ⟨rfl, rfl⟩ := WriterPc.write.inj hc
      exact ⟨rfl, rfl⟩
  | writeFailed chunk sent n hpc =>
    obtain ⟨rfl, rfl⟩ := hwriting chunk sent hpc
    refine ⟨chunk.take (sent + n), chunk :: s.rx.queue, hlog, ?_, ?_, nofun, nofun, nofun⟩
    · show s.socket ++ (chunk.drop sent).take n = _
      rw [hsocket, List.append_assoc, List.take_add]
    · exact (List.take_prefix _ _).trans (List.prefix_append _ _)
  | shutdownDone whole hpc =>
    refine ⟨part, rest, hlog, hsocket, hfits, nofun, nofun, fun hw => hwhole ?_⟩
    rw [hpc]
    exact hw

/-! ## Its end -/

/-- The polls a task without a connection has left, besides those at which a write waits. -/
def pollsLeft (s : ClientWriter) : ℕ :=
  2 * s.rx.queue.length +
    match s.pc with
    | .recv => 2
    | .write _ _ => 3
    | .shutdown _ => 1
    | .done _ => 0

theorem step_pollsLeft (hs : s.connected = false) (h : s.step e = some s') :
    s'.connected = false ∧ s'.pollsLeft + (if e.moves then 1 else 0) ≤ s.pollsLeft := by
  cases step_trans h with
  | queue chunk hcon => cases hs.symm.trans hcon
  | hangUp => exact ⟨rfl, le_rfl⟩
  | waits hcon => cases hs.symm.trans hcon
  | recv chunk q hpc hq =>
    refine ⟨hs, ?_⟩
    simp only [pollsLeft, hpc, hq, List.length_cons]
    split_ifs <;> omega
  | recvNone hpc hq =>
    refine ⟨hs, ?_⟩
    simp only [pollsLeft, hpc]
    split_ifs <;> omega
  | wrote chunk sent hpc =>
    refine ⟨hs, ?_⟩
    simp only [pollsLeft, hpc]
    split_ifs <;> omega
  | wrotePart chunk sent n hpc =>
    refine ⟨hs, ?_⟩
    simp only [pollsLeft, hpc, Event.moves]
    exact le_rfl
  | writeFailed chunk sent n hpc =>
    refine ⟨hs, ?_⟩
    simp only [pollsLeft, hpc]
    split_ifs <;> omega
  | shutdownDone whole hpc =>
    refine ⟨hs, ?_⟩
    simp only [pollsLeft, hpc, Chan.close, List.length_nil]
    split_ifs <;> omega

/-- **What the client gets.**  In every run the client was given the first bytes of what was queued for it, and all
of them if the task ended because the connection was dropped.  Once that is so, a task with `n` chunks queued makes
at most `2 n + 3` polls besides those at which a write waits. -/
theorem client_writer {es : List Event} (h : new.run es = some s) :
    s.socket <+: s.rx.log.flatten ∧ (s.pc.whole = true → s.socket = s.rx.log.flatten) ∧
      ∀ es' s', s.connected = false → s.run es' = some s' →
        es'.countP Event.moves ≤ 2 * s.rx.queue.length + 3 := by
  have hgiven : ∃ part rest, s.Given part rest := by
    refine Machine.run_inv (fun x => ∃ part rest, x.Given part rest) h ⟨[], [], new_given⟩ ?_
    rintro x y e ⟨part, rest, hx⟩ hxy
    exact step_given hx hxy
  obtain ⟨part, rest, hs⟩ := hgiven
  have hall : s.rx.log.flatten = s.written.flatten ++ rest.flatten := by rw [hs.log, List.flatten_append]
  refine ⟨?_, fun hw => ?_, fun es' s' hcon hr => ?_⟩
  · rw [hs.socket, hall]
    exact (List.prefix_append_right_inj _).mpr hs.fits
  · obtain ⟨hp, hr, -⟩ := hs.whole hw
    rw [hs.socket, hall, hp, hr]
    rfl
  · obtain ⟨-, hle⟩ := Machine.run_count (fun x => x.connected = false) pollsLeft Event.moves hr hcon
      fun x y e hx hxy => step_pollsLeft hx hxy
    have hmost : s.pollsLeft ≤ 2 * s.rx.queue.length + 3 := by
      unfold pollsLeft
      split <;> omega
    omega

end ClientWriter

end RoundRobin.Splitter
