import RoundRobin.Lib.Machine
import RoundRobin.Splitter.State

/-!
# RoundRobin.Splitter.Udp — the relay of one UDP association

`handle_udp_client` of `src/splitter.rs` behind the SYN: the relay loop with its `select!` and the three attempts to
send a datagram, the task that writes responses to the client, and the watcher of the control connection.  Frames
of the connection, resets and the heartbeat's sweep come in between at any time.

The client's address is pinned by the request or by the first datagram.  `Pinned` says what follows from it: only
datagrams from there are relayed, and only there responses go.  Addresses are an arbitrary type; byte and frame
counters and activity stamps are left out.
-/

namespace RoundRobin.Splitter

/-- Where the relay loop is. -/
inductive RelayPc where
  | select
  /-- Before one of the attempts to send the datagram `p`, `tries` of them left. -/
  | sending (p : Bytes) (tries : ℕ)
  /-- Returned. -/
  | done
  deriving DecidableEq, Repr

/-- Where the task is that writes responses to the client. -/
inductive AnswerPc (A : Type) where
  | recv
  /-- `relay2.send_to` of `p` to `addr`. -/
  | sending (p : Bytes) (addr : A)
  | done
  deriving DecidableEq, Repr

/-- `heard`, `sent` and `answers` are history variables: the datagrams that reached the relay's socket, the frames
a tunnel took, and the calls of `send_to`. -/
structure UdpRelay (A : Type) where
  connId : ConnId
  clientAddr : Option A
  seq : UInt64
  vc : VirtConn
  pc : RelayPc
  answering : AnswerPc A
  /-- `ka_tx` has sent. -/
  controlClosed : Bool
  /-- `conns` holds this connection. -/
  registered : Bool
  /-- The id was tombstoned. -/
  timeWait : Bool
  /-- The RST behind the loop was given to the pool. -/
  rstSent : Bool
  heard : List (A × Bytes)
  sent : List Frame
  answers : List (A × Bytes)

/-- How often the relay tries to send a datagram. -/
def udpSendTries : ℕ := 3
/-- The buffer a datagram is received into. -/
def udpRecvBuf : ℕ := 65535

namespace UdpRelay

variable {A : Type}

inductive Event (A : Type) where
  /-- `recv_from` yields the datagram `p` of `src`. -/
  | datagram (src : A) (p : Bytes)
  | recvError
  /-- The next `pool.send` of the datagram, and whether a link takes the frame. -/
  | trySend (taken : Bool)
  /-- The client closes its control connection. -/
  | controlEof
  | keepaliveArm
  | notifiedArm
  /-- A frame of the connection comes off a tunnel. -/
  | frame (f : Frame)
  /-- `reset_conn`, or a sweep of the heartbeat. -/
  | reset
  /-- The response task takes the next datagram. -/
  | answerRecv
  /-- Its `send_to` ends. -/
  | answerSent (ok : Bool)

/-- The SYN is queued, and the client may have named its address. -/
def new (c : ConnId) (window : ℕ) (clientAddr : Option A) : UdpRelay A where
  connId := c
  clientAddr := clientAddr
  seq := 1
  vc := VirtConn.new window true
  pc := .select
  answering := .recv
  controlClosed := false
  registered := true
  timeWait := false
  rstSent := false
  heard := []
  sent := []
  answers := []

/-- What follows the loop. -/
def leave (s : UdpRelay A) : UdpRelay A :=
  { s with pc := .done, timeWait := true, registered := false, rstSent := true }

def resetConn (s : UdpRelay A) : UdpRelay A :=
  { s with
    timeWait := true
    registered := false
    vc := if s.registered then s.vc.markReset else s.vc }

/-- `handle_inbound_frame` on this connection. -/
def handleInboundFrame (s : UdpRelay A) (f : Frame) : UdpRelay A :=
  if f.has flagData then
    if s.registered then { s with vc := { s.vc with toClientTx := (s.vc.toClientTx.trySend f.payload).2 } }
    else s
  else if f.has flagFin then s
  else if f.has flagRst then s.resetConn
  else s

/-- One event, if it can happen. -/
def step [DecidableEq A] (s : UdpRelay A) : Event A → Option (UdpRelay A)
  | .datagram src p =>
    if s.pc = .select ∧ p.length ≤ udpRecvBuf then
      let s := { s with heard := s.heard ++ [(src, p)] }
      match s.clientAddr with
      | none => some { s with clientAddr := some src, pc := .sending p udpSendTries }
      | some known => some (if known = src then { s with pc := .sending p udpSendTries } else s)
    else none
  | .recvError => if s.pc = .select then some s.leave else none
  | .trySend taken =>
    match s.pc with
    | .sending p (n + 1) =>
      if taken then
        some { s with sent := s.sent ++ [.data s.connId s.seq p], seq := s.seq + 1, pc := .select }
      else some { s with pc := if n = 0 then .select else .sending p n }
    | _ => none
  | .controlEof => some { s with controlClosed := true }
  | .keepaliveArm => if s.pc = .select ∧ s.controlClosed = true then some s.leave else none
  | .notifiedArm =>
    if s.pc = .select ∧ s.vc.notify = true then
      let s := { s with vc := { s.vc with notify := false } }
      some (if s.vc.closed then s.leave else s)
    else none
  | .frame f => if f.connId = s.connId then some (s.handleInboundFrame f) else none
  | .reset => some s.resetConn
  | .answerRecv =>
    match s.answering with
    | .recv =>
      match s.vc.toClientTx.recv with
      | some (p, ch) =>
        let s := { s with vc := { s.vc with toClientTx := ch } }
        match s.clientAddr with
        | some addr => some { s with answering := .sending p addr, answers := s.answers ++ [(addr, p)] }
        | none => some s
      | none =>
        -- every sender is gone
        if s.pc = .done ∧ s.registered = false then some { s with answering := .done } else none
    | _ => none
  | .answerSent ok =>
    match s.answering with
    | .sending _ _ =>
      some (if ok then { s with answering := .recv }
        else { s with answering := .done, vc := { s.vc with toClientTx := s.vc.toClientTx.close } })
    | _ => none

def run [DecidableEq A] (s : UdpRelay A) (es : List (Event A)) : Option (UdpRelay A) := Machine.run step s es

/-! ## What a step can do -/

/-- Everything a step can do. -/
inductive Trans (s : UdpRelay A) : Event A → UdpRelay A → Prop where
  | pin (src : A) (p : Bytes) : s.pc = .select → p.length ≤ udpRecvBuf → s.clientAddr = none →
      Trans s (.datagram src p) { s with
        heard := s.heard ++ [(src, p)], clientAddr := some src, pc := .sending p udpSendTries }
  | relay (src : A) (p : Bytes) : s.pc = .select → p.length ≤ udpRecvBuf → s.clientAddr = some src →
      Trans s (.datagram src p) { s with heard := s.heard ++ [(src, p)], pc := .sending p udpSendTries }
  | drop (src known : A) (p : Bytes) : s.pc = .select → p.length ≤ udpRecvBuf → s.clientAddr = some known →
      known ≠ src → Trans s (.datagram src p) { s with heard := s.heard ++ [(src, p)] }
  | sent (p : Bytes) (n : ℕ) : s.pc = .sending p (n + 1) → Trans s (.trySend true)
      { s with sent := s.sent ++ [.data s.connId s.seq p], seq := s.seq + 1, pc := .select }
  | unsent (p : Bytes) (n : ℕ) : s.pc = .sending p (n + 2) →
      Trans s (.trySend false) { s with pc := .sending p (n + 1) }
  | gaveUp (p : Bytes) : s.pc = .sending p 1 → Trans s (.trySend false) { s with pc := .select }
  | leave (e : Event A) (b : Bool) : s.pc = .select →
      Trans s e ({ s with vc := { s.vc with notify := b } } : UdpRelay A).leave
  | controlEof : Trans s .controlEof { s with controlClosed := true }
  | spurious : s.pc = .select → s.vc.closed = false →
      Trans s .notifiedArm { s with vc := { s.vc with notify := false } }
  | response (f : Frame) : f.connId = s.connId → f.has flagData = true → s.registered = true →
      Trans s (.frame f) { s with vc := { s.vc with toClientTx := (s.vc.toClientTx.trySend f.payload).2 } }
  | ignored (f : Frame) : Trans s (.frame f) s
  | reset (e : Event A) : Trans s e s.resetConn
  | answer (p : Bytes) (addr : A) (ch : Chan Bytes) : s.answering = .recv → s.clientAddr = some addr →
      s.vc.toClientTx.recv = some (p, ch) → Trans s .answerRecv { s with
        vc := { s.vc with toClientTx := ch }, answering := .sending p addr, answers := s.answers ++ [(addr, p)] }
  | unanswered (p : Bytes) (ch : Chan Bytes) : s.clientAddr = none → s.vc.toClientTx.recv = some (p, ch) →
      Trans s .answerRecv { s with vc := { s.vc with toClientTx := ch } }
  | answered (p : Bytes) (addr : A) : s.answering = .sending p addr →
      Trans s (.answerSent true) { s with answering := .recv }
  | answerFailed : Trans s (.answerSent false)
      { s with answering := .done, vc := { s.vc with toClientTx := s.vc.toClientTx.close } }
  | answersOver : s.pc = .done → s.registered = false → Trans s .answerRecv { s with answering := .done }

variable {s s' : UdpRelay A} {e : Event A}

theorem handleInboundFrame_trans {f : Frame} (hc : f.connId = s.connId) :
    Trans s (.frame f) (s.handleInboundFrame f) := by
  unfold handleInboundFrame
  by_cases hd : f.has flagData = true
  · rw [if_pos hd]
    by_cases hr : s.registered = true
    · rw [if_pos hr]
      exact .response f hc hd hr
    · rw [if_neg hr]
      exact .ignored f
  rw [if_neg hd]
  by_cases hf : f.has flagFin = true
  · rw [if_pos hf]
    exact .ignored f
  rw [if_neg hf]
  by_cases hr : f.has flagRst = true
  · rw [if_pos hr]
    exact .reset _
  · rw [if_neg hr]
    exact .ignored f

/-- The first address a relay settles on is the only one. -/
theorem step_clientAddr {a : A} (h : Trans s e s') (ha : s.clientAddr = some a) : s'.clientAddr = some a := by
  cases h with
  | pin src p hpc hp hca =>
    rw [ha] at hca
    cases hca
  | _ => exact ha

theorem step_connId (h : Trans s e s') : s'.connId = s.connId := by
  cases h <;> rfl

theorem resetConn_toClientTx (s : UdpRelay A) : s.resetConn.vc.toClientTx = s.vc.toClientTx := by
  unfold resetConn
  split_ifs <;> rfl

/-- What the client's channel took came in DATA frames. -/
theorem log_trans {Q : Bytes → Prop} (hQ : ∀ f, e = .frame f → f.has flagData = true → Q f.payload)
    (hl : ∀ p ∈ s.vc.toClientTx.log, Q p) (h : Trans s e s') : ∀ p ∈ s'.vc.toClientTx.log, Q p := by
  cases h with
  | response f hc hd hr =>
    intro p hp
    rcases s.vc.toClientTx.trySend_cases f.payload with ⟨-, hs⟩ | ⟨-, -, hs⟩
    · have hp' : p ∈ s.vc.toClientTx.log ++ [f.payload] := by
        have : p ∈ (s.vc.toClientTx.trySend f.payload).2.log := hp
        rwa [hs] at this
      rcases List.mem_append.mp hp' with hp' | hp'
      · exact hl p hp'
      · rw [List.mem_singleton.mp hp']
        exact hQ f rfl hd
    · have : p ∈ (s.vc.toClientTx.trySend f.payload).2.log := hp
      rw [hs] at this
      exact hl p this
  | reset =>
    rw [resetConn_toClientTx]
    exact hl
  | answer p addr ch hans hca hrecv =>
    rw [← Chan.recv_log hrecv] at hl
    exact hl
  | unanswered p ch hca hrecv =>
    rw [← Chan.recv_log hrecv] at hl
    exact hl
  | _ => exact hl

/-! ## To the client -/

/-- Responses go to the pinned address, in the order of the connection's channel. -/
structure Answered (s : UdpRelay A) : Prop where
  pinned : ∀ x ∈ s.answers, s.clientAddr = some x.1
  queued : (s.answers.map Prod.snd ++ s.vc.toClientTx.queue).Sublist s.vc.toClientTx.log

theorem Answered.trans (hi : Answered s) (h : Trans s e s') : Answered s' := by
  cases h with
  | pin src p hpc hp hca =>
    refine ⟨fun x hx => ?_, hi.queued⟩
    have := hi.pinned x hx
    rw [hca] at this
    cases this
  | response f hc hd hr =>
    refine ⟨hi.pinned, ?_⟩
    rcases s.vc.toClientTx.trySend_cases f.payload with ⟨-, hs⟩ | ⟨-, -, hs⟩
    · show List.Sublist (_ ++ (s.vc.toClientTx.trySend f.payload).2.queue) (s.vc.toClientTx.trySend f.payload).2.log
      rw [hs, ← List.append_assoc]
      exact hi.queued.append (List.Sublist.refl _)
    · show List.Sublist (_ ++ (s.vc.toClientTx.trySend f.payload).2.queue) (s.vc.toClientTx.trySend f.payload).2.log
      rw [hs]
      exact hi.queued
  | reset =>
    refine ⟨hi.pinned, ?_⟩
    rw [resetConn_toClientTx]
    exact hi.queued
  | answer p addr ch hans hca hrecv =>
    obtain ⟨q, hq, rfl⟩ := Chan.recv_some hrecv
    refine ⟨fun x hx => ?_, ?_⟩
    · rcases List.mem_append.mp hx with hx | hx
      · exact hi.pinned x hx
      · rw [List.mem_singleton.mp hx]
        exact hca
    · have := hi.queued
      rw [hq] at this
      simpa using this
  | unanswered p ch hca hrecv =>
    obtain ⟨q, hq, rfl⟩ := Chan.recv_some hrecv
    refine ⟨hi.pinned, List.Sublist.trans ?_ hi.queued⟩
    rw [hq]
    exact (List.sublist_cons_self p q).append_left _
  | answerFailed =>
    refine ⟨hi.pinned, List.Sublist.trans ?_ hi.queued⟩
    exact (List.nil_sublist _).append_left _
  | _ => exact ⟨hi.pinned, hi.queued⟩

/-! ## The end -/

/-- A connection that left `conns` ends the relay, and the relay leaves nothing behind. -/
structure Ending (s : UdpRelay A) : Prop where
  woken : s.vc.closed = true → s.vc.notify = true ∨ s.pc = .done
  removed : s.registered = false → s.vc.closed = true ∨ s.pc = .done
  cleaned : s.pc = .done → s.registered = false ∧ s.timeWait = true ∧ s.rstSent = true

theorem Ending.resetConn (hi : Ending s) : Ending s.resetConn := by
  unfold UdpRelay.resetConn
  by_cases hr : s.registered = true
  · rw [if_pos hr]
    exact ⟨fun _ => .inl rfl, fun _ => .inl rfl, fun hd => ⟨rfl, rfl, (hi.cleaned hd).2.2⟩⟩
  · rw [if_neg hr]
    exact ⟨hi.woken, fun _ => hi.removed (by simpa using hr), fun hd => ⟨rfl, rfl, (hi.cleaned hd).2.2⟩⟩

/-- The loop goes on, with the same flags. -/
theorem Ending.live (hi : Ending s) (hpc : s.pc ≠ .done) (hc : s'.vc.closed = s.vc.closed)
    (hn : s'.vc.notify = s.vc.notify) (hr : s'.registered = s.registered) (hpc' : s'.pc ≠ .done) : Ending s' := by
  refine ⟨fun h => .inl ?_, fun h => .inl ?_, fun h => absurd h hpc'⟩
  · rw [hn]
    exact (hi.woken (hc ▸ h)).resolve_right hpc
  · rw [hc]
    exact (hi.removed (hr ▸ h)).resolve_right hpc

theorem Ending.trans (hi : Ending s) (h : Trans s e s') : Ending s' := by
  have hsel : s.pc = .select → s.pc ≠ .done := fun h => by rw [h]; exact nofun
  have hsend : ∀ {p n}, s.pc = .sending p n → s.pc ≠ .done := fun h => by rw [h]; exact nofun
  cases h with
  | pin src p hpc hp hca => exact hi.live (hsel hpc) rfl rfl rfl nofun
  | relay src p hpc hp hca => exact hi.live (hsel hpc) rfl rfl rfl nofun
  | sent p n hpc => exact hi.live (hsend hpc) rfl rfl rfl nofun
  | unsent p n hpc => exact hi.live (hsend hpc) rfl rfl rfl nofun
  | gaveUp p hpc => exact hi.live (hsend hpc) rfl rfl rfl nofun
  | leave b hpc => exact ⟨fun _ => .inr rfl, fun _ => .inr rfl, fun _ => ⟨rfl, rfl, rfl⟩⟩
  | spurious hpc hcl =>
    refine ⟨fun h => ?_, hi.removed, hi.cleaned⟩
    rw [hcl] at h
    cases h
  | reset => exact hi.resetConn
  | _ => exact ⟨hi.woken, hi.removed, hi.cleaned⟩

/-! ## From the client -/

/-- The datagram the loop is about to send. -/
def inFlight (s : UdpRelay A) : List Bytes :=
  match s.pc with
  | .sending p _ => [p]
  | _ => []

theorem inFlight_of {p : Bytes} {n : ℕ} (h : s.pc = .sending p n) : s.inFlight = [p] := by simp only [inFlight, h]

theorem inFlight_select (h : s.pc = .select) : s.inFlight = [] := by simp only [inFlight, h]

variable [DecidableEq A]

/-- The datagrams that came from the pinned address. -/
def fromClient (s : UdpRelay A) : List Bytes := (s.heard.filter fun x => s.clientAddr = some x.1).map Prod.snd

/-- The tunnels hold some of the pinned client's datagrams, in order and numbered from 1. -/
structure Relayed (s : UdpRelay A) : Prop where
  unpinned : s.clientAddr = none → s.heard = []
  fits : ∀ x ∈ s.heard, x.2.length ≤ udpRecvBuf
  out : ∃ out, s.sent = Frame.dataFrames s.connId out ∧ s.seq = UInt64.ofNat (out.length + 1) ∧
    (out ++ s.inFlight).Sublist s.fromClient

/-- Nothing the invariant speaks of changed. -/
theorem Relayed.congr (hi : Relayed s) (hc : s'.connId = s.connId) (ha : s'.clientAddr = s.clientAddr)
    (hq : s'.seq = s.seq) (hh : s'.heard = s.heard) (hs : s'.sent = s.sent)
    (hf : s'.inFlight.Sublist s.inFlight) : Relayed s' := by
  obtain ⟨out, hsent, hseq, hsub⟩ := hi.out
  have hfrom : s'.fromClient = s.fromClient := by unfold fromClient; rw [ha, hh]
  refine ⟨fun h => ?_, fun x hx => hi.fits x (hh ▸ hx), out, ?_, hq.trans hseq, ?_⟩
  · rw [hh]
    exact hi.unpinned (ha ▸ h)
  · rw [hs, hc]
    exact hsent
  · rw [hfrom]
    exact (hf.append_left out).trans hsub

theorem Relayed.fits_concat (hi : Relayed s) {src : A} {p : Bytes} (hp : p.length ≤ udpRecvBuf) :
    ∀ x ∈ s.heard ++ [(src, p)], x.2.length ≤ udpRecvBuf := by
  intro x hx
  rcases List.mem_append.mp hx with hx | hx
  · exact hi.fits x hx
  · rw [List.mem_singleton.mp hx]
    exact hp

theorem Relayed.trans (hi : Relayed s) (h : Trans s e s') : Relayed s' := by
  cases h with
  | pin src p hpc hp hca =>
    obtain ⟨out, hsent, hseq, hsub⟩ := hi.out
    have hheard := hi.unpinned hca
    have hout : out = [] := by
      have hnil : s.fromClient = [] := by simp [fromClient, hheard]
      rw [hnil] at hsub
      exact (List.append_eq_nil_iff.mp (List.sublist_nil.mp hsub)).1
    subst hout
    refine ⟨(fun h => by cases h), hi.fits_concat hp, [], hsent, hseq, ?_⟩
    show List.Sublist [p] (List.map _ (List.filter _ _))
    simp [hheard]
  | relay src p hpc hp hca =>
    obtain ⟨out, hsent, hseq, hsub⟩ := hi.out
    refine ⟨fun h => ?_, hi.fits_concat hp, out, hsent, hseq, ?_⟩
    · rw [hca] at h
      cases h
    · have hfrom : ({ s with heard := s.heard ++ [(src, p)], pc := .sending p udpSendTries } : UdpRelay A).fromClient
          = s.fromClient ++ [p] := by simp [fromClient, hca]
      rw [hfrom]
      rw [inFlight_select hpc, List.append_nil] at hsub
      exact hsub.append (List.Sublist.refl [p])
  | drop src known p hpc hp hca hne =>
    obtain ⟨out, hsent, hseq, hsub⟩ := hi.out
    refine ⟨fun h => ?_, hi.fits_concat hp, out, hsent, hseq, ?_⟩
    · rw [hca] at h
      cases h
    · have hfrom : ({ s with heard := s.heard ++ [(src, p)] } : UdpRelay A).fromClient = s.fromClient := by
        simp [fromClient, hca, hne]
      rw [hfrom]
      exact hsub
  | sent p n hpc =>
    obtain ⟨out, hsent, hseq, hsub⟩ := hi.out
    refine ⟨hi.unpinned, hi.fits, out ++ [p], ?_, ?_, ?_⟩
    · rw [Frame.dataFrames_concat, ← hsent, ← hseq]
    · rw [List.length_append, List.length_singleton, UInt64.ofNat_add, ← hseq]
      rfl
    · show List.Sublist (out ++ [p] ++ []) s.fromClient
      rw [List.append_nil]
      rw [inFlight_of hpc] at hsub
      exact hsub
  | unsent p n hpc => exact hi.congr rfl rfl rfl rfl rfl (by rw [inFlight_of hpc]; exact List.Sublist.refl _)
  | gaveUp p hpc => exact hi.congr rfl rfl rfl rfl rfl (List.nil_sublist _)
  | leave b hpc => exact hi.congr rfl rfl rfl rfl rfl (List.nil_sublist _)
  | _ => exact hi.congr rfl rfl rfl rfl rfl (List.Sublist.refl _)

/-! ## Steps and runs -/

theorem datagram_trans {src : A} {p : Bytes} (h : step s (.datagram src p) = some s') :
    Trans s (.datagram src p) s' := by
  obtain ⟨⟨hpc, hp⟩, h⟩ := Option.ite_none_right_eq_some.mp h
  cases hca : s.clientAddr with
  | none =>
    simp only [hca] at h
    obtain rfl := Option.some.inj h
    exact .pin src p hpc hp hca
  | some known =>
    simp only [hca] at h
    obtain rfl := Option.some.inj h
    by_cases hk : known = src
    · subst hk
      rw [if_pos rfl, ← hca]
      exact .relay known p hpc hp hca
    · rw [if_neg hk, ← hca]
      exact .drop src known p hpc hp hca hk

theorem trySend_trans {taken : Bool} (h : step s (.trySend taken) = some s') : Trans s (.trySend taken) s' := by
  simp only [step] at h
  split at h
  · rename_i p n hpc
    cases taken with
    | true =>
      rw [if_pos rfl] at h
      obtain rfl := Option.some.inj h
      exact .sent p n hpc
    | false =>
      rw [if_neg Bool.false_ne_true] at h
      obtain rfl := Option.some.inj h
      cases n with
      | zero => exact .gaveUp p hpc
      | succ n => exact .unsent p n hpc
  · cases h

theorem notifiedArm_trans (h : step s .notifiedArm = some s') : Trans s .notifiedArm s' := by
  obtain ⟨⟨hpc, -⟩, h⟩ := Option.ite_none_right_eq_some.mp h
  obtain rfl := Option.some.inj h
  cases hcl : s.vc.closed with
  | true => exact .leave _ false hpc
  | false => exact .spurious hpc hcl

theorem answerRecv_trans (h : step s .answerRecv = some s') : Trans s .answerRecv s' := by
  simp only [step] at h
  split at h
  · rename_i hans
    split at h
    · rename_i p ch hrecv
      split at h
      · rename_i addr hca
        obtain rfl := Option.some.inj h
        exact .answer p addr ch hans hca hrecv
      · rename_i hca
        obtain rfl := Option.some.inj h
        exact .unanswered p ch hca hrecv
    · obtain ⟨⟨hpc, hreg⟩, h⟩ := Option.ite_none_right_eq_some.mp h
      obtain rfl := Option.some.inj h
      exact .answersOver hpc hreg
  · cases h

theorem answerSent_trans {ok : Bool} (h : step s (.answerSent ok) = some s') : Trans s (.answerSent ok) s' := by
  simp only [step] at h
  split at h
  · rename_i p addr hans
    obtain rfl := Option.some.inj h
    cases ok with
    | true => exact .answered p addr hans
    | false => exact .answerFailed
  · cases h

theorem step_trans (h : step s e = some s') : Trans s e s' := by
  cases e with
  | datagram src p => exact datagram_trans h
  | recvError =>
    obtain ⟨hpc, h⟩ := Option.ite_none_right_eq_some.mp h
    obtain rfl := Option.some.inj h
    exact .leave _ s.vc.notify hpc
  | trySend taken => exact trySend_trans h
  | controlEof =>
    obtain rfl := Option.some.inj h
    exact .controlEof
  | keepaliveArm =>
    obtain ⟨⟨hpc, -⟩, h⟩ := Option.ite_none_right_eq_some.mp h
    obtain rfl := Option.some.inj h
    exact .leave _ s.vc.notify hpc
  | notifiedArm => exact notifiedArm_trans h
  | frame f =>
    obtain ⟨hc, h⟩ := Option.ite_none_right_eq_some.mp h
    obtain rfl := Option.some.inj h
    exact handleInboundFrame_trans hc
  | reset =>
    obtain rfl := Option.some.inj h
    exact .reset _
  | answerRecv => exact answerRecv_trans h
  | answerSent ok => exact answerSent_trans h

/-- The invariant of the relay. -/
structure Safe (s : UdpRelay A) : Prop where
  relayed : Relayed s
  answered : Answered s
  ending : Ending s

theorem Safe.trans (hi : Safe s) (h : Trans s e s') : Safe s' :=
  ⟨hi.relayed.trans h, hi.answered.trans h, hi.ending.trans h⟩

theorem safe_new (c : ConnId) (w : ℕ) (ca : Option A) : Safe (new c w ca) :=
  ⟨⟨fun _ => rfl, fun _ hx => (List.not_mem_nil hx).elim, [], rfl, rfl, List.Sublist.refl _⟩,
    ⟨fun _ hx => (List.not_mem_nil hx).elim, List.Sublist.refl _⟩, ⟨nofun, nofun, nofun⟩⟩

theorem run_safe {es : List (Event A)} (h : s.run es = some s') (hs : Safe s) :
    Safe s' ∧ s'.connId = s.connId ∧ ∀ a, s.clientAddr = some a → s'.clientAddr = some a := by
  refine Machine.run_rel Safe (fun x y => y.connId = x.connId ∧ ∀ a, x.clientAddr = some a → y.clientAddr = some a)
    h hs (fun x => ⟨rfl, fun a ha => ha⟩) ?_ ?_
  · rintro x y z ⟨hxy, hay⟩ ⟨hyz, haz⟩
    exact ⟨hyz.trans hxy, fun a ha => haz a (hay a ha)⟩
  · intro x y e hx hxy
    have htr := step_trans hxy
    exact ⟨hx.trans htr, step_connId htr, fun a ha => step_clientAddr htr ha⟩

theorem run_log {c : ConnId} {w : ℕ} {ca : Option A} {es : List (Event A)} {Q : Bytes → Prop}
    (h : (new c w ca).run es = some s) (hQ : ∀ f, .frame f ∈ es → f.has flagData = true → Q f.payload) :
    ∀ p ∈ s.vc.toClientTx.log, Q p := by
  refine Machine.run_inv_of (fun x : UdpRelay A => ∀ p ∈ x.vc.toClientTx.log, Q p)
    (fun e => ∀ f, e = .frame f → f.has flagData = true → Q f.payload) h (fun p hp => (List.not_mem_nil hp).elim) ?_ ?_
  · rintro e he f rfl hd
    exact hQ f he hd
  · intro x y e hx he hxy
    exact log_trans he hx (step_trans hxy)

/-- **The relay of a UDP association.**  In every run, with frames, resets and sweeps at any time: the address the
client named, or the source of its first datagram, stays the client's address; the tunnels got DATA frames numbered
from 1 that hold some of the datagrams from there, in order and none over the frame limit; responses go to no
other address and keep the order of the tunnels; a connection the splitter closed has the relay woken, and a relay
that ended removed its entry, tombstoned its id and told the other side. -/
theorem udp_relay {c : ConnId} {w : ℕ} {ca : Option A} {es es' : List (Event A)} {m : UdpRelay A}
    (h : (new c w ca).run es = some m) (h' : m.run es' = some s) :
    (∀ a, ca = some a ∨ m.clientAddr = some a → s.clientAddr = some a) ∧
    (∃ out, s.sent = Frame.dataFrames c out ∧ (out ++ s.inFlight).Sublist s.fromClient ∧
      ∀ p ∈ out, p.length ≤ maxPayload) ∧
    (∀ x ∈ s.answers, s.clientAddr = some x.1) ∧ (s.answers.map Prod.snd).Sublist s.vc.toClientTx.log ∧
    (s.vc.closed = true → s.vc.notify = true ∨ s.pc = .done) ∧
    (s.pc = .done → s.registered = false ∧ s.timeWait = true ∧ s.rstSent = true) := by
  obtain ⟨hm, hcm, hpin⟩ := run_safe h (safe_new c w ca)
  obtain ⟨hs, hcs, hpin'⟩ := run_safe h' hm
  obtain ⟨out, hsent, -, hsub⟩ := hs.relayed.out
  refine ⟨fun a ha => ?_, ⟨out, ?_, hsub, fun p hp => ?_⟩, hs.answered.pinned, ?_, hs.ending.woken, hs.ending.cleaned⟩
  · rcases ha with ha | ha
    · exact hpin' a (hpin a ha)
    · exact hpin' a ha
  · rw [hsent, hcs, hcm]
    rfl
  · have hin : p ∈ s.fromClient := hsub.subset (List.mem_append_left _ hp)
    obtain ⟨x, hx, rfl⟩ := List.mem_map.mp hin
    exact hs.relayed.fits x (List.mem_of_mem_filter hx)
  · exact (List.sublist_append_left _ _).trans hs.answered.queued

/-- The first datagram pins the client; another host's datagram is dropped. -/
def strangerRun : List (Event ℕ) :=
  [.datagram 1 [0xAA], .trySend false, .trySend true, .datagram 2 [0xBB], .frame (.data 7 1 [9]), .answerRecv,
    .answerSent true]

/-- The other side resets the association, and the relay ends. -/
def resetRun : List (Event ℕ) := [.frame (.rst 7), .notifiedArm]

theorem udp_relay_stranger :
    ∃ m s, (new 7 1024 none).run strangerRun = some m ∧ m.run resetRun = some s ∧ s.clientAddr = some 1 ∧
      s.sent = [.data 7 1 [0xAA]] ∧ s.answers = [(1, [9])] ∧ s.registered = false ∧ s.rstSent = true := by
  have hruns : ∃ m s, (new 7 1024 (none : Option ℕ)).run strangerRun = some m ∧ m.run resetRun = some s ∧
      m.clientAddr = some 1 ∧ s.sent = [.data 7 1 [0xAA]] ∧ s.answers = [(1, [9])] ∧ s.pc = .done :=
    ⟨_, _, rfl, rfl, rfl, rfl, rfl, rfl⟩
  obtain ⟨m, s, hm, hs, hca, hsent, hans, hpc⟩ := hruns
  obtain ⟨hpin, -, -, -, -, hdone⟩ := udp_relay hm hs
  obtain ⟨hreg, -, hrst⟩ := hdone hpc
  exact ⟨m, s, hm, hs, hpin 1 (.inr hca), hsent, hans, hreg, hrst⟩

end UdpRelay

end RoundRobin.Splitter
