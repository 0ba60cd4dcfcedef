import RoundRobin.Tunnel.Transport

/-!
# RoundRobin.Reassembler.Dispatch — the read loops of the links, and the tasks of their SYN frames

`tunnel_read_loop` and `dispatch_frame` of `src/reassembler.rs`, for any number of links.  A read loop takes one
frame after the other from its decoder.  A SYN gets a task of its own while one of the 64 permits is left; any other
frame is handled by the loop itself, before it takes the next.  The counters of a link, which only the log reads,
are left out.
-/

namespace RoundRobin.Reassembler

open FrameDecoder Tunnel

/-- `MAX_CONCURRENT_SYN_HANDSHAKES`. -/
def maxConcurrentSynHandshakes : ℕ := 64

/-- Where a read loop is. -/
inductive ReadPc where
  | reading
  /-- In its own call of `handle_frame`. -/
  | handling (f : Frame)
  /-- Over: at the end of its stream, or before it. -/
  | ended (atEnd : Bool)
  deriving DecidableEq, Repr

/-- A read loop, with the frames whose handlers are done. -/
structure ReadLoop where
  reader : Reader
  pc : ReadPc
  handled : List Frame
  deriving DecidableEq, Repr

/-- The frame a read loop handles itself. -/
def ReadLoop.inline (l : ReadLoop) : List Frame :=
  match l.pc with
  | .handling f => [f]
  | _ => []

/-- The read loops of all links, and what they share. -/
structure Dispatch where
  /-- Of `syn_limit`. -/
  permits : ℕ
  links : List ReadLoop
  /-- The link and the SYN of each task. -/
  tasks : List (ℕ × Frame)
  deriving DecidableEq, Repr

namespace Dispatch

inductive Event where
  | accept
  /-- `try_next` on link `i` reads this, and returns a frame. -/
  | next (i : ℕ) (reads : List Bytes)
  /-- It reads this, and then the end of the stream. -/
  | eof (i : ℕ) (reads : List Bytes)
  /-- The link's writer dies, or a read fails. -/
  | aborted (i : ℕ)
  /-- The loop's own call of `handle_frame` returns. -/
  | returned (i : ℕ)
  /-- A task ends, and its permit is dropped. -/
  | taskDone (k : ℕ)
  deriving DecidableEq, Repr

def new : Dispatch := ⟨maxConcurrentSynHandshakes, [], []⟩

/-- `dispatch_frame`, up to the handler. -/
def dispatchFrame (s : Dispatch) (i : ℕ) (l : ReadLoop) (f : Frame) : Dispatch :=
  if f.has flagSyn = true ∧ 0 < s.permits then
    { permits := s.permits - 1, links := s.links.set i l, tasks := s.tasks ++ [(i, f)] }
  else { s with links := s.links.set i { l with pc := .handling f } }

/-- One event, if it can happen. -/
def step (s : Dispatch) : Event → Option Dispatch
  | .accept => some { s with links := s.links ++ [⟨Reader.new, .reading, []⟩] }
  | .next i reads => do
    let l ← s.links[i]?
    let (f, r) ← l.reader.next reads
    if l.pc = .reading then some (s.dispatchFrame i { l with reader := r } f) else none
  | .eof i reads => do
    let l ← s.links[i]?
    let r ← l.reader.finish reads
    if l.pc = .reading then some { s with links := s.links.set i { l with reader := r, pc := .ended true } } else none
  | .aborted i => do
    let l ← s.links[i]?
    if l.pc = .reading then some { s with links := s.links.set i { l with pc := .ended false } } else none
  | .returned i => do
    let l ← s.links[i]?
    match l.pc with
    | .handling f => some { s with links := s.links.set i { l with pc := .reading, handled := l.handled ++ [f] } }
    | _ => none
  | .taskDone k => do
    let t ← s.tasks[k]?
    let l ← s.links[t.1]?
    some { permits := s.permits + 1, links := s.links.set t.1 { l with handled := l.handled ++ [t.2] },
           tasks := s.tasks.eraseIdx k }

def run (s : Dispatch) (es : List Event) : Option Dispatch := Machine.run step s es

/-- The SYN frames of link `i` that have tasks. -/
def tasksOf (tasks : List (ℕ × Frame)) (i : ℕ) : List Frame := (tasks.filter fun t => t.1 = i).map Prod.snd

/-! ## What a read loop has done with its stream -/

/-- Not a SYN. -/
def plain (f : Frame) : Bool := !f.has flagSyn

/-- The frames of a stream, each with one handler. -/
structure Handled (l : ReadLoop) (tasks : List Frame) : Prop where
  /-- The frames taken are those at the front of the stream: all there are in it, if it was read to its end. -/
  received : if l.pc = .ended true then
      ∃ rest, l.reader.got = Frame.wires l.reader.taken ++ rest ∧ parse rest = .ok none
    else l.reader.Received
  /-- No frame is lost or handled twice. -/
  once : (l.handled ++ l.inline ++ tasks).Perm l.reader.taken
  /-- Frames that are no SYN are handled one after the other. -/
  ordered : (l.handled ++ l.inline).filter plain = l.reader.taken.filter plain

/-- The invariant. -/
structure Kept (s : Dispatch) : Prop where
  permits : s.permits + s.tasks.length = maxConcurrentSynHandshakes
  tasks : ∀ t ∈ s.tasks, t.1 < s.links.length ∧ plain t.2 = false
  links : ∀ i l, s.links[i]? = some l → Handled l (tasksOf s.tasks i)

theorem kept_new : new.Kept := ⟨rfl, nofun, nofun⟩

variable {s s' : Dispatch} {i : ℕ} {l : ReadLoop} {f : Frame} {reads : List Bytes}

theorem length_of_getElem? (h : s.links[i]? = some l) : i < s.links.length := (List.getElem?_eq_some_iff.mp h).1

/-- One read loop changes, and the tasks do as it does. -/
theorem Kept.set (hs : s.Kept) {l' : ReadLoop} {tasks : List (ℕ × Frame)} {permits : ℕ}
    (hpermits : permits + tasks.length = maxConcurrentSynHandshakes)
    (htasks : ∀ t ∈ tasks, t.1 < s.links.length ∧ plain t.2 = false)
    (hl : i < s.links.length → Handled l' (tasksOf tasks i))
    (hothers : ∀ j, j ≠ i → (tasksOf tasks j).Perm (tasksOf s.tasks j)) :
    Kept ⟨permits, s.links.set i l', tasks⟩ := by
  refine ⟨hpermits, fun t ht => by simpa using htasks t ht, fun j r hr => ?_⟩
  by_cases hj : j = i
  · subst hj
    have hlt : j < s.links.length := by simpa using (List.getElem?_eq_some_iff.mp hr).1
    rw [List.getElem?_set_self hlt] at hr
    obtain rfl := Option.some.inj hr
    exact hl hlt
  · rw [List.getElem?_set_ne (Ne.symm hj)] at hr
    obtain ⟨hreceived, honce, hordered⟩ := hs.links j r hr
    exact ⟨hreceived, ((hothers j hj).append_left _).trans honce, hordered⟩

theorem inline_reading (hpc : l.pc = .reading) : l.inline = [] := by rw [ReadLoop.inline, hpc]

/-- A loop that has not read to the end. -/
theorem Handled.reader {tasks : List Frame} (hl : Handled l tasks) (hpc : l.pc ≠ .ended true) : l.reader.Received := by
  have hreceived := hl.received
  rwa [if_neg hpc] at hreceived

/-- `dispatch_frame` keeps the invariant. -/
theorem dispatchFrame_kept (hs : s.Kept) (hi : s.links[i]? = some l) (hpc : l.pc = .reading) {r : Reader}
    (hr : r.Received) (htaken : r.taken = l.reader.taken ++ [f]) :
    (s.dispatchFrame i { l with reader := r } f).Kept := by
  obtain ⟨-, honce, hordered⟩ := hs.links i l hi
  rw [inline_reading hpc, List.append_nil] at honce hordered
  rw [dispatchFrame]
  split_ifs with hspawn
  · obtain ⟨hsyn, hpos⟩ := hspawn
    have hpermits := hs.permits
    have hplain : plain f = false := by rw [plain, hsyn]; rfl
    refine hs.set ?_ ?_ (fun _ => ⟨?_, ?_, ?_⟩) ?_
    · rw [List.length_append, List.length_singleton]
      omega
    · intro t ht
      rcases List.mem_append.mp ht with ht | ht
      · exact hs.tasks t ht
      · obtain rfl := List.mem_singleton.mp ht
        exact ⟨length_of_getElem? hi, hplain⟩
    · rw [if_neg (by rw [hpc]; nofun)]
      exact hr
    · simp only [ReadLoop.inline, hpc, List.append_nil, tasksOf, List.filter_append, List.map_append, htaken]
      rw [← List.append_assoc]
      exact honce.append (by simp)
    · simp only [ReadLoop.inline, hpc, List.append_nil, List.filter_append, htaken, hordered]
      simp [hplain]
    · intro j hj
      simp [tasksOf, List.filter_append, Ne.symm hj]
  · refine hs.set hs.permits hs.tasks (fun _ => ⟨?_, ?_, ?_⟩) fun j _ => .refl _
    · rw [if_neg nofun]
      exact hr
    · simp only [ReadLoop.inline, htaken]
      have hcomm : (l.handled ++ ([f] ++ tasksOf s.tasks i)).Perm (l.handled ++ (tasksOf s.tasks i ++ [f])) :=
        List.perm_append_comm.append_left _
      rw [← List.append_assoc, ← List.append_assoc] at hcomm
      exact hcomm.trans (honce.append_right [f])
    · simp only [ReadLoop.inline, List.filter_append, htaken, hordered]

theorem accept_kept (hs : s.Kept) :
    Kept { s with links := s.links ++ [⟨Reader.new, .reading, []⟩] } := by
  refine ⟨hs.permits, fun t ht => ?_, fun i l hl => ?_⟩
  · obtain ⟨hlt, hplain⟩ := hs.tasks t ht
    exact ⟨by rw [List.length_append]; omega, hplain⟩
  · rcases Nat.lt_or_ge i s.links.length with hlt | hge
    · rw [List.getElem?_append_left hlt] at hl
      exact hs.links i l hl
    · rw [List.getElem?_append_right hge] at hl
      obtain ⟨hi, rfl⟩ := List.getElem?_eq_some_iff.mp hl
      -- no task is there before its link
      have hnone : tasksOf s.tasks i = [] := by
        rw [tasksOf, List.map_eq_nil_iff, List.filter_eq_nil_iff]
        intro t ht
        have hlt := (hs.tasks t ht).1
        simp only [decide_eq_true_eq]
        omega
      rw [hnone, List.getElem_singleton]
      exact ⟨Reader.received_new, .refl _, rfl⟩

/-- A loop that takes no more frames. -/
theorem ended_kept (hs : s.Kept) (hi : s.links[i]? = some l) (hpc : l.pc = .reading) {r : Reader} {atEnd : Bool}
    (htaken : r.taken = l.reader.taken)
    (hreceived : if atEnd = true then ∃ rest, r.got = Frame.wires r.taken ++ rest ∧ parse rest = .ok none
      else r.Received) :
    Kept { s with links := s.links.set i { l with reader := r, pc := .ended atEnd } } := by
  obtain ⟨-, honce, hordered⟩ := hs.links i l hi
  rw [inline_reading hpc] at honce hordered
  refine hs.set hs.permits hs.tasks (fun _ => ⟨?_, ?_, ?_⟩) fun j _ => .refl _
  · simpa using hreceived
  · simp only [htaken]
    exact honce
  · simp only [htaken]
    exact hordered

/-- The frame the loop handled itself is done. -/
theorem returned_kept (hs : s.Kept) (hi : s.links[i]? = some l) (hpc : l.pc = .handling f) :
    Kept { s with links := s.links.set i { l with pc := .reading, handled := l.handled ++ [f] } } := by
  have hl := hs.links i l hi
  have hreader := hl.reader (by rw [hpc]; nofun)
  obtain ⟨-, honce, hordered⟩ := hl
  have hinline : l.inline = [f] := by rw [ReadLoop.inline, hpc]
  rw [hinline] at honce hordered
  refine hs.set hs.permits hs.tasks (fun _ => ⟨?_, ?_, ?_⟩) fun j _ => .refl _
  · rw [if_neg nofun]
    exact hreader
  · simpa [ReadLoop.inline] using honce
  · simpa [ReadLoop.inline] using hordered

/-- The tasks of a link before one of them ends, and after. -/
theorem tasksOf_eraseIdx {tasks : List (ℕ × Frame)} {k : ℕ} {t : ℕ × Frame} (hk : tasks[k]? = some t) (i : ℕ) :
    (tasksOf tasks i).Perm ((if t.1 = i then [t.2] else []) ++ tasksOf (tasks.eraseIdx k) i) := by
  obtain ⟨hlt, rfl⟩ := List.getElem?_eq_some_iff.mp hk
  have hperm := ((List.getElem_cons_eraseIdx_perm hlt).symm.filter fun t => t.1 = i).map Prod.snd
  refine hperm.trans (.of_eq ?_)
  split_ifs with hi
  · rw [List.filter_cons_of_pos (by simpa using hi)]
    rfl
  · rw [List.filter_cons_of_neg (by simpa using hi)]
    rfl

theorem taskDone_kept (hs : s.Kept) {k : ℕ} {t : ℕ × Frame} (hk : s.tasks[k]? = some t)
    (hi : s.links[t.1]? = some l) :
    Kept ⟨s.permits + 1, s.links.set t.1 { l with handled := l.handled ++ [t.2] }, s.tasks.eraseIdx k⟩ := by
  obtain ⟨hlt, hget⟩ := List.getElem?_eq_some_iff.mp hk
  have hplain := (hs.tasks t (hget ▸ List.getElem_mem hlt)).2
  obtain ⟨hreceived, honce, hordered⟩ := hs.links t.1 l hi
  have hpermits := hs.permits
  refine hs.set ?_ (fun u hu => hs.tasks u (List.mem_of_mem_eraseIdx hu)) (fun _ => ⟨hreceived, ?_, ?_⟩) ?_
  · rw [List.length_eraseIdx_of_lt hlt]
    omega
  · have hrest := tasksOf_eraseIdx hk t.1
    rw [if_pos rfl] at hrest
    refine .trans ?_ honce
    refine .trans ?_ (hrest.symm.append_left _)
    rw [← List.append_assoc]
    refine .append_right _ ?_
    show (l.handled ++ [t.2] ++ l.inline).Perm _
    rw [List.append_assoc, List.append_assoc]
    exact List.perm_append_comm.append_left _
  · rw [← hordered]
    show List.filter plain (l.handled ++ [t.2] ++ l.inline) = _
    simp [hplain]
  · intro j hj
    have hrest := tasksOf_eraseIdx hk j
    rw [if_neg (Ne.symm hj)] at hrest
    exact hrest.symm

/-- What one event keeps. -/
theorem step_kept {e : Event} (hs : s.Kept) (h : s.step e = some s') : s'.Kept := by
  cases e with
  | accept =>
    obtain rfl := Option.some.inj h
    exact accept_kept hs
  | next i reads =>
    obtain ⟨l, hi, h⟩ := Option.bind_eq_some_iff.mp h
    obtain ⟨⟨f, r⟩, hr, h⟩ := Option.bind_eq_some_iff.mp h
    simp only at h
    split_ifs at h with hpc
    obtain rfl := Option.some.inj h
    obtain ⟨hreceived, htaken, -⟩ := ((hs.links i l hi).reader (by rw [hpc]; nofun)).next hr
    exact dispatchFrame_kept hs hi hpc hreceived htaken
  | eof i reads =>
    obtain ⟨l, hi, h⟩ := Option.bind_eq_some_iff.mp h
    obtain ⟨r, hr, h⟩ := Option.bind_eq_some_iff.mp h
    split_ifs at h with hpc
    obtain rfl := Option.some.inj h
    obtain ⟨htaken, -, hrest⟩ := ((hs.links i l hi).reader (by rw [hpc]; nofun)).finish hr
    exact ended_kept hs hi hpc htaken hrest
  | aborted i =>
    obtain ⟨l, hi, h⟩ := Option.bind_eq_some_iff.mp h
    split_ifs at h with hpc
    obtain rfl := Option.some.inj h
    exact ended_kept hs hi hpc rfl ((hs.links i l hi).reader (by rw [hpc]; nofun))
  | returned i =>
    obtain ⟨l, hi, h⟩ := Option.bind_eq_some_iff.mp h
    split at h
    · rename_i f hpc
      obtain rfl := Option.some.inj h
      exact returned_kept hs hi hpc
    · cases h
  | taskDone k =>
    obtain ⟨t, hk, h⟩ := Option.bind_eq_some_iff.mp h
    obtain ⟨l, hi, h⟩ := Option.bind_eq_some_iff.mp h
    obtain rfl := Option.some.inj h
    exact taskDone_kept hs hk hi

theorem run_kept {es : List Event} (h : new.run es = some s) : s.Kept :=
  Machine.run_inv Kept h kept_new fun _ _ _ hx hxy => step_kept hx hxy

/-- A loop that has taken a SYN handles it itself only when all permits are taken. -/
theorem inline_syn (hs : s.Kept) (h : s.step (.next i reads) = some s') (hi : s'.links[i]? = some l)
    (hpc : l.pc = .handling f) (hf : f.has flagSyn = true) : s.tasks.length = maxConcurrentSynHandshakes := by
  obtain ⟨r, hr, h⟩ := Option.bind_eq_some_iff.mp h
  obtain ⟨⟨g, rd⟩, -, h⟩ := Option.bind_eq_some_iff.mp h
  have hlt := length_of_getElem? hr
  simp only at h
  split_ifs at h with hreading
  obtain rfl := Option.some.inj h
  rw [dispatchFrame] at hi
  split_ifs at hi with hspawn
  · rw [List.getElem?_set_self hlt] at hi
    obtain rfl := Option.some.inj hi
    cases hreading.symm.trans hpc
  · rw [List.getElem?_set_self hlt] at hi
    obtain rfl := Option.some.inj hi
    obtain rfl : g = f := ReadPc.handling.inj hpc
    have hzero : ¬ 0 < s.permits := fun hpos => hspawn ⟨hf, hpos⟩
    have hpermits := hs.permits
    omega

/-- **Every frame has one handler.**  Whatever is read on the links, in pieces of any size, and in whatever order the
handlers end: at most 64 SYN frames have tasks, and a link is kept from its next frame by a SYN only while there are
that many.  The frames that a link has taken are those its bytes begin with, all of them if the stream was read to its
end; each is being handled or has been, once, and those that are no SYN one after the other. -/
theorem dispatch_once {es : List Event} (h : new.run es = some s) :
    s.tasks.length ≤ maxConcurrentSynHandshakes ∧ (∀ i l, s.links[i]? = some l → Handled l (tasksOf s.tasks i)) ∧
      ∀ i reads s' l f, s.step (.next i reads) = some s' → s'.links[i]? = some l → l.pc = .handling f →
        f.has flagSyn = true → s.tasks.length = maxConcurrentSynHandshakes := by
  have hs := run_kept h
  have hpermits := hs.permits
  exact ⟨by omega, hs.links, fun i reads s' l f hstep hi hpc hf => inline_syn hs hstep hi hpc hf⟩

/-- The SYN of a connection and its first DATA on one link, the second DATA on another.  The first piece of the first
link ends within the DATA; the task of the SYN ends last. -/
def twoLinks : List Event :=
  [.accept, .accept, .next 0 [(Frame.syn 7 [1]).wire ++ (Frame.data 7 1 [65]).wire.take 9],
   .next 1 [(Frame.data 7 2 [66]).wire], .next 0 [(Frame.data 7 1 [65]).wire.drop 9], .returned 1, .returned 0,
   .eof 1 [], .taskDone 0]

theorem dispatch_once_two_links : ∃ s l, new.run twoLinks = some s ∧ s.links[0]? = some l ∧
    l.handled = [Frame.data 7 1 [65], Frame.syn 7 [1]] ∧ s.tasks.length ≤ maxConcurrentSynHandshakes ∧
      Handled l (tasksOf s.tasks 0) := by
  obtain ⟨s, hrun⟩ := Option.isSome_iff_exists.mp (show (new.run twoLinks).isSome = true by decide)
  obtain ⟨hle, hlinks, -⟩ := dispatch_once hrun
  have hfirst : ((new.run twoLinks).bind fun s => s.links[0]?.map ReadLoop.handled) =
      some [Frame.data 7 1 [65], Frame.syn 7 [1]] := by decide
  rw [hrun] at hfirst
  obtain ⟨l, hl, hhandled⟩ := Option.map_eq_some_iff.mp hfirst
  exact ⟨s, l, hrun, hl, hhandled, hle, hlinks 0 l hl⟩

end Dispatch

end RoundRobin.Reassembler
