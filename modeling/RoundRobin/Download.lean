import Mathlib.Data.List.Sort
import RoundRobin.Reassembler.EgressReader
import RoundRobin.Splitter.Delivery

/-!
# RoundRobin.Download — one TCP response end to end

The download direction of one TCP connection: the reassembler's egress reader reads the target and sends DATA
frames and a FIN on tunnels of the pool's choice, the tunnels are FIFO queues, and the splitter handles the frames
as they come off the tunnels, several tunnel readers at a time, while the client's writer takes chunks.  Frames of
other connections, resets from anywhere, the end of the connection and the loss of a tunnel come in between at
any time.

* `Inv`: whatever the order, the client channel accepted chunks the target sent, under their numbers.
* `Kept`: as long as nothing is lost, a frame that was sent is on a tunnel or was taken.
-/

namespace RoundRobin

open Reassembler Splitter

/-- The reader, the tunnels and the splitter's delivery path.  `lost` is a history variable: a DATA or FIN frame of
the connection came when it was no longer registered, was dropped for want of room in the reorder buffer, or died
with its tunnel. -/
structure Download where
  reader : EgressReader
  tunnels : ℕ → List Frame
  path : Delivery
  /-- The splitter's `conns` holds the connection. -/
  registered : Bool
  lost : Bool

namespace Download

inductive Event where
  /-- The egress reader's next step; a frame the pool takes goes on tunnel `i`. -/
  | reader (i : ℕ) (e : EgressReader.Event)
  /-- Another frame joins a tunnel: of another connection, or a reset. -/
  | stray (i : ℕ) (f : Frame)
  /-- The next frame of a tunnel is handled. -/
  | arrive (i : ℕ)
  /-- The running `on_frame` makes its next `try_send`. -/
  | send
  /-- The client's writer takes the oldest chunk. -/
  | recv
  /-- The client's writer ends. -/
  | close
  /-- The connection leaves the splitter's map. -/
  | remove
  /-- A tunnel dies with the frames on it. -/
  | linkDies (i : ℕ)

/-- The egress reader of connection `c` starts, and the splitter has registered the connection. -/
def start (c : ConnId) (chunkSize window : ℕ) : Download :=
  ⟨EgressReader.new c chunkSize, fun _ => [], Delivery.start window, true, false⟩

/-- A DATA or FIN frame of the connection. -/
def counts (c : ConnId) (f : Frame) : Bool := f.connId == c && f != .rst c

/-- `handle_inbound_frame`; the chunks a DATA frame makes ready are sent step by step. -/
def handleInboundFrame (u : Download) (f : Frame) : Option Download :=
  if f.connId ≠ u.reader.connId then some u
  else if f.has flagData then
    if u.registered then
      (u.path.step (fun _ => f.payload) (.frame f.seq)).map fun d =>
        { u with path := d, lost := u.lost || d.overflow }
    else some { u with lost := true }
  else if f.has flagFin then
    if u.registered then
      some { u with path := { u.path with
        vc := { u.path.vc with finReceived := true, finSeq := f.seq.toNat, notify := true } } }
    else some { u with lost := true }
  else if f.has flagRst then
    if u.registered then
      some { u with registered := false, path := { u.path with vc := u.path.vc.markReset } }
    else some u
  else some u

/-- An event of the delivery path that takes no frame. -/
def onPath (u : Download) (e : Delivery.Event) : Option Download :=
  (u.path.step (fun _ => []) e).map fun d => { u with path := d }

/-- One event, if it can happen. -/
def step (u : Download) : Event → Option Download
  | .reader i e =>
    (u.reader.step e).map fun r => { u with
      reader := r
      tunnels := Function.update u.tunnels i (u.tunnels i ++ r.sent.drop u.reader.sent.length) }
  | .stray i f =>
    if f.connId ≠ u.reader.connId ∨ f = .rst u.reader.connId then
      some { u with tunnels := Function.update u.tunnels i (u.tunnels i ++ [f]) }
    else none
  | .arrive i =>
    match u.tunnels i with
    | [] => none
    | f :: rest => { u with tunnels := Function.update u.tunnels i rest }.handleInboundFrame f
  | .send => u.onPath .send
  | .recv => u.onPath .recv
  | .close => u.onPath .close
  | .remove => some { u with registered := false }
  | .linkDies i =>
    some { u with
      tunnels := Function.update u.tunnels i []
      lost := u.lost || (u.tunnels i).any (counts u.reader.connId) }

def run (u : Download) (es : List Event) : Option Download := Machine.run step u es

end Download

/-! ## The delivery path -/

namespace Splitter.Delivery

variable {p : ℕ → Bytes} {d d' : Delivery} {e : Event}

/-- The chunks the channel accepted come before those the running call has still to send, in the order of their
numbers. -/
structure Ordered (d : Delivery) : Prop where
  sorted : (d.vc.delivered ++ d.todo.map Prod.fst).Pairwise (· < ·)
  bound : ∀ k ∈ d.vc.delivered ++ d.todo.map Prod.fst, 1 ≤ k ∧ k ≤ d.released

theorem start_ordered (window : ℕ) : (start window).Ordered :=
  ⟨List.Pairwise.nil, fun _ h => absurd h List.not_mem_nil⟩

theorem step_ordered (hd : d.Inv p) (ho : d.Ordered) (h : d.step p e = some d') : d'.Ordered := by
  obtain ⟨hsorted, hbound⟩ := ho
  cases step_trans hd.reorder h with
  | ready seq r b htodo hseq he hdr =>
    obtain ⟨hexp, hrel⟩ := released_drained hd.reorder hseq he hdr
    rw [htodo, List.map_nil, List.append_nil] at hsorted hbound
    have hnew : (numbered seq.toNat (d.vc.reorder.readyRun (p seq.toNat) r)).map Prod.fst =
        List.range' (d.released + 1) (r + 1) := by
      rw [he, readyRun_eq hd hdr, List.map_map, hexp]
      exact List.map_id _
    refine ⟨?_, fun k hk => ?_⟩
    · show (d.vc.delivered ++ _).Pairwise _
      rw [hnew]
      refine List.pairwise_append.mpr ⟨hsorted, List.pairwise_lt_range', fun a ha b hb => ?_⟩
      have := (hbound a ha).2
      have := (List.mem_range'_1.mp hb).1
      omega
    · show 1 ≤ k ∧ k ≤ releasedBy b
      have hk : k ∈ d.vc.delivered ++ List.range' (d.released + 1) (r + 1) := hnew ▸ hk
      rw [hrel]
      rcases List.mem_append.mp hk with hk | hk
      · have := hbound k hk
        omega
      · have := List.mem_range'_1.mp hk
        omega
  | buffered seq b o htodo hexp hkeep =>
    have hrel : releasedBy b = d.released := by simp only [released, releasedBy, hexp]
    rw [htodo] at hsorted hbound
    refine ⟨hsorted, fun k hk => ?_⟩
    show 1 ≤ k ∧ k ≤ releasedBy b
    rw [hrel]
    exact hbound k hk
  | accept x rest ch htodo hroom hlog =>
    have happ : (d.vc.delivered ++ [x.1]) ++ rest.map Prod.fst = d.vc.delivered ++ d.todo.map Prod.fst := by
      rw [htodo, List.append_assoc]
      rfl
    exact ⟨happ ▸ hsorted, happ ▸ hbound⟩
  | refuse x rest htodo hroom =>
    have hsub : (d.vc.delivered ++ rest.map Prod.fst).Sublist (d.vc.delivered ++ d.todo.map Prod.fst) := by
      rw [htodo]
      exact (List.sublist_cons_self _ _).append_left _
    exact ⟨hsorted.sublist hsub, fun k hk => hbound k (hsub.subset hk)⟩
  | consume e ch he hlog => exact ⟨hsorted, hbound⟩

/-- Chunk `k` was released or waits in the reorder buffer. -/
def Holds (d : Delivery) (k : ℕ) : Prop := k ≤ d.released ∨ (d.vc.reorder.pending.get k).isSome = true

theorem frame_step {seq : UInt64} (h : d.step p (.frame seq) = some d') :
    seq ≠ 0 ∧ d'.vc.reorder = (d.vc.reorder.push seq.toNat (p seq.toNat)).1 ∧
      ((d.vc.reorder.push seq.toNat (p seq.toNat)).2.accepted = false →
        d'.overflow = (d.vc.reorder.push seq.toNat (p seq.toNat)).2.overflow) := by
  simp only [step] at h
  split_ifs at h with hguard hacc
  · obtain rfl := Option.some.inj h
    exact ⟨hguard.2, rfl, fun hno => absurd hacc (by rw [hno]; exact Bool.false_ne_true)⟩
  · obtain rfl := Option.some.inj h
    exact ⟨hguard.2, rfl, fun _ => rfl⟩

/-- Only a frame moves the reorder buffer. -/
theorem other_step (he : ∀ seq, e ≠ .frame seq) (h : d.step p e = some d') :
    d'.vc.reorder = d.vc.reorder := by
  cases e with
  | frame seq => exact absurd rfl (he seq)
  | send =>
    simp only [step] at h
    split at h
    · cases h
    · split at h
      all_goals
        obtain rfl := Option.some.inj h
        rfl
  | recv =>
    simp only [step] at h
    split at h
    · obtain rfl := Option.some.inj h
      rfl
    · cases h
  | close =>
    obtain rfl := Option.some.inj h
    rfl

theorem holds_of_reorder (hre : d'.vc.reorder = d.vc.reorder) {k : ℕ} (hk : d.Holds k) : d'.Holds k := by
  unfold Holds released at hk ⊢
  rwa [hre]

/-- A frame that does not overflow leaves its chunk released or buffered, and every other one as it was. -/
theorem frame_holds (hd : d.vc.reorder.Inv) {seq : UInt64} (h : d.step p (.frame seq) = some d') :
    (∀ k, d.Holds k → d'.Holds k) ∧ (d'.overflow = false → d'.Holds seq.toNat) := by
  obtain ⟨hseq, hre, hover⟩ := frame_step h
  rcases ReorderBuf.push_cases hd seq.toNat (p seq.toNat) with
    ⟨hdup, hp⟩ | ⟨he, r, b, hdr, hp⟩ | ⟨hgt, -, -, hp⟩ | ⟨-, -, -, hp⟩
  · rw [hp] at hre
    refine ⟨fun k => holds_of_reorder hre, fun _ => holds_of_reorder hre ?_⟩
    rcases hdup with hlt | ⟨-, hpend⟩
    · refine .inl ?_
      unfold released releasedBy
      rw [if_neg (by omega)]
      omega
    · exact .inr hpend
  · rw [hp] at hre
    obtain ⟨hexp, hrel⟩ := released_drained hd hseq he hdr
    have hrel : d'.released = d.released + (r + 1) := by rw [released, hre, hrel]
    refine ⟨fun k hk => ?_, fun _ => .inl (by omega)⟩
    rcases hk with hk | hk
    · exact .inl (by omega)
    · by_cases hrun : d.vc.reorder.expected < k ∧ k ≤ d.vc.reorder.expected + r
      · exact .inl (by omega)
      · refine .inr ?_
        rwa [hre, hdr.lookup k, if_neg hrun]
  · rw [hp] at hre
    have hrel : d'.released = d.released := by
      rw [released, hre]
      rfl
    have hget : ∀ k, d'.vc.reorder.pending.get k =
        if k = seq.toNat then some (p seq.toNat) else d.vc.reorder.pending.get k := by
      intro k
      rw [hre]
      by_cases hk : k = seq.toNat
      · rw [if_pos hk, hk]
        exact Table.get_put_self _ _ _
      · rw [if_neg hk]
        exact Table.get_put_ne _ _ hk
    refine ⟨fun k hk => ?_, fun _ => .inr (by rw [hget, if_pos rfl]; rfl)⟩
    rcases hk with hk | hk
    · exact .inl (by omega)
    · refine .inr ?_
      rw [hget]
      split_ifs
      · rfl
      · exact hk
  · rw [hp] at hre hover
    refine ⟨fun k => holds_of_reorder hre, fun ho => ?_⟩
    cases ho.symm.trans (hover rfl)

/-- A frame whose chunk is at most `n` releases and buffers only such chunks. -/
structure Within (n : ℕ) (d : Delivery) : Prop where
  released : d.released ≤ n
  pending : ∀ k, (d.vc.reorder.pending.get k).isSome = true → k ≤ n

theorem frame_within {n : ℕ} (hd : d.vc.reorder.Inv) (hw : d.Within n) {seq : UInt64} (hn : seq.toNat ≤ n)
    (h : d.step p (.frame seq) = some d') : d'.Within n := by
  obtain ⟨hseq, hre, -⟩ := frame_step h
  have hsame : d'.vc.reorder = d.vc.reorder → d'.Within n := by
    intro hre
    refine ⟨?_, ?_⟩
    · rw [Delivery.released, hre]
      exact hw.released
    · rw [hre]
      exact hw.pending
  rcases ReorderBuf.push_cases hd seq.toNat (p seq.toNat) with
    ⟨-, hp⟩ | ⟨he, r, b, hdr, hp⟩ | ⟨hgt, -, -, hp⟩ | ⟨-, -, -, hp⟩
  · exact hsame (by rw [hre, hp])
  · rw [hp] at hre
    obtain ⟨hexp, hrel⟩ := released_drained hd hseq he hdr
    refine ⟨?_, fun k hk => ?_⟩
    · rw [Delivery.released, hre, hrel]
      rcases Nat.eq_zero_or_pos r with rfl | hr
      · omega
      · have := hw.pending (d.vc.reorder.expected + r) (hdr.run _ (by omega) le_rfl)
        omega
    · rw [hre, hdr.lookup k] at hk
      split_ifs at hk
      · cases hk
      · exact hw.pending k hk
  · rw [hp] at hre
    refine ⟨?_, fun k hk => ?_⟩
    · rw [Delivery.released, hre]
      exact hw.released
    · by_cases hks : k = seq.toNat
      · omega
      · rw [hre] at hk
        exact hw.pending k (by rwa [ReorderBuf.buffered, Table.get_put_ne _ _ hks] at hk)
  · exact hsame (by rw [hre, hp])

/-- Which chunk has number `k` matters only where the delivery path has seen it. -/
theorem frame_congr {q : Bytes} {seq : UInt64} (hp : p seq.toNat = q) (d : Delivery) :
    d.step (fun _ => q) (.frame seq) = d.step p (.frame seq) := by
  simp only [step, hp]

theorem other_congr {q : ℕ → Bytes} (he : ∀ seq, e ≠ .frame seq) (d : Delivery) : d.step q e = d.step p e := by
  cases e with
  | frame seq => exact absurd rfl (he seq)
  | send | recv | close => rfl

/-- A step leaves what the FIN said about the connection. -/
theorem step_fin (hd : d.vc.reorder.Inv) (h : d.step p e = some d') :
    d'.vc.finReceived = d.vc.finReceived ∧ d'.vc.finSeq = d.vc.finSeq := by
  cases step_trans hd h with
  | ready | buffered | accept | refuse | consume => exact ⟨rfl, rfl⟩

end Splitter.Delivery

/-! ## The invariant -/

namespace Download

/-- `p` numbers the chunks of `read` from 1 on. -/
def Numbers (p : ℕ → Bytes) (read : List Bytes) : Prop := ∀ k q, read[k]? = some q → p (k + 1) = q

def chunkAt (read : List Bytes) (k : ℕ) : Bytes := read.getD (k - 1) []

theorem numbers_chunkAt (read : List Bytes) : Numbers (chunkAt read) read := by
  intro k q hk
  rw [chunkAt, Nat.add_sub_cancel, List.getD_eq_getElem?_getD, hk]
  rfl

theorem Numbers.of_prefix {p : ℕ → Bytes} {read read' : List Bytes} (h : Numbers p read')
    (hpre : read <+: read') : Numbers p read := by
  intro k q hk
  refine h k q ?_
  obtain ⟨t, rfl⟩ := hpre
  rwa [List.getElem?_append_left (List.getElem?_eq_some_iff.mp hk).1]

/-- The chunks in number order are what was read. -/
theorem map_chunkAt (read : List Bytes) : (List.range' 1 read.length).map (chunkAt read) = read := by
  refine List.ext_getElem (by rw [List.length_map, List.length_range']) fun i h₁ h₂ => ?_
  rw [List.getElem_map, List.getElem_range', chunkAt]
  rw [show 1 + 1 * i - 1 = i by omega, List.getD_eq_getElem?_getD, List.getElem?_eq_getElem h₂]
  rfl

/-- The delivery path carries the chunks of `read` and nothing else. -/
structure Faithful (read : List Bytes) (d : Delivery) : Prop where
  inv : ∀ p, Numbers p read → d.Inv p
  ordered : d.Ordered
  within : d.Within read.length

section Path

variable {read read' : List Bytes} {d d' : Delivery} {e : Delivery.Event}

theorem Faithful.reorder (h : Faithful read d) : d.vc.reorder.Inv := (h.inv _ (numbers_chunkAt read)).reorder

theorem Faithful.grow (h : Faithful read d) (hpre : read <+: read') : Faithful read' d where
  inv := fun p hp => h.inv p (hp.of_prefix hpre)
  ordered := h.ordered
  within := ⟨h.within.released.trans hpre.length_le, fun k hk => (h.within.pending k hk).trans hpre.length_le⟩

/-- Only the flags of the connection change. -/
theorem Faithful.flags (h : Faithful read d) {vc : VirtConn} (hr : vc.reorder = d.vc.reorder)
    (ht : vc.toClientTx = d.vc.toClientTx) (hd : vc.delivered = d.vc.delivered) :
    Faithful read { d with vc := vc } := by
  have hrel : Delivery.released { d with vc := vc } = d.released := by
    rw [Delivery.released, Delivery.released, hr]
  refine ⟨fun p hp => ?_, ⟨?_, ?_⟩, ⟨?_, ?_⟩⟩
  · have hi := h.inv p hp
    refine ⟨hr ▸ hi.reorder, hr ▸ hi.chunks, hrel ▸ hi.waits, ?_, fun hc => ?_, fun hc => ?_⟩
    · show vc.toClientTx.log = vc.delivered.map p
      rw [ht, hd]
      exact hi.log
    · show vc.delivered ++ d.todo.map Prod.fst = _
      rw [hd, hrel]
      exact hi.clean hc
    · obtain ⟨m, hm⟩ := hi.missing hc
      exact ⟨m, hm.pos, by show m ∉ vc.delivered; rw [hd]; exact hm.absent, hrel ▸ hm.passed, hm.behind⟩
  · show (vc.delivered ++ d.todo.map Prod.fst).Pairwise _
    rw [hd]
    exact h.ordered.sorted
  · intro k hk
    rw [hrel]
    exact h.ordered.bound k (by rw [← hd]; exact hk)
  · rw [hrel]
    exact h.within.released
  · show ∀ k, (vc.reorder.pending.get k).isSome = true → k ≤ read.length
    rw [hr]
    exact h.within.pending

theorem Faithful.frame (h : Faithful read d) {k : ℕ} {q : Bytes} (hk : read[k]? = some q) {seq : UInt64}
    (hseq : seq.toNat = k + 1) (hs : d.step (fun _ => q) (.frame seq) = some d') : Faithful read d' := by
  have hlt := (List.getElem?_eq_some_iff.mp hk).1
  have hstep : ∀ p, Numbers p read → d.step p (.frame seq) = some d' := by
    intro p hp
    have hq : p seq.toNat = q := by rw [hseq]; exact hp k q hk
    rw [← Delivery.frame_congr hq]
    exact hs
  have h0 := numbers_chunkAt read
  exact ⟨fun p hp => Delivery.step_inv (h.inv p hp) (hstep p hp),
    Delivery.step_ordered (h.inv _ h0) h.ordered (hstep _ h0),
    Delivery.frame_within h.reorder h.within (by omega) (hstep _ h0)⟩

theorem Faithful.other (h : Faithful read d) (he : ∀ seq, e ≠ .frame seq) {q : ℕ → Bytes}
    (hs : d.step q e = some d') : Faithful read d' := by
  have hstep : ∀ p, d.step p e = some d' := fun p => (Delivery.other_congr he d).trans hs
  have hre := Delivery.other_step he hs
  refine ⟨fun p hp => Delivery.step_inv (h.inv p hp) (hstep p),
    Delivery.step_ordered (h.inv _ (numbers_chunkAt read)) h.ordered (hstep _), ?_, ?_⟩
  · rw [Delivery.released, hre]
    exact h.within.released
  · rw [hre]
    exact h.within.pending

end Path

structure Inv (u : Download) : Prop where
  sent : ∃ out rest fin, u.reader.Sent out rest fin
  genuine : ∀ i, ∀ f ∈ u.tunnels i, counts u.reader.connId f = true → f ∈ u.reader.sent
  path : Faithful u.reader.read u.path
  fin : u.path.vc.finReceived = true →
    u.reader.pc = .done .finSent ∧ u.path.vc.finSeq = u.reader.read.length + 1

theorem start_inv (c : ConnId) (chunkSize window : ℕ) : (start c chunkSize window).Inv where
  sent := ⟨[], [], false, EgressReader.new_sent c chunkSize⟩
  genuine := fun _ _ h => absurd h List.not_mem_nil
  path := ⟨fun _ _ => Delivery.start_inv window, Delivery.start_ordered window, le_rfl, fun k hk => by
    simp [start, Delivery.start, VirtConn.new, ReorderBuf.withLimit] at hk⟩
  fin := fun h => by cases h

section Steps

variable {u u' : Download} {e : Event} {f : Frame} {i : ℕ}

theorem counts_iff {c : ConnId} : counts c f = true ↔ f.connId = c ∧ f ≠ .rst c := by
  simp [counts]

theorem data_has (c : ConnId) (seq : UInt64) (p : Bytes) : (Frame.data c seq p).has flagData = true := by
  show (flagData &&& flagData != 0) = true
  decide

theorem fin_has (c : ConnId) (seq : UInt64) :
    (Frame.fin c seq).has flagData = false ∧ (Frame.fin c seq).has flagFin = true := by
  show (flagFin &&& flagData != 0) = false ∧ (flagFin &&& flagFin != 0) = true
  decide

theorem rst_has (c : ConnId) :
    (Frame.rst c).has flagData = false ∧ (Frame.rst c).has flagFin = false := by
  show (flagRst &&& flagData != 0) = false ∧ (flagRst &&& flagFin != 0) = false
  decide

/-- A frame the reader sent: a chunk under its number, or the FIN. -/
theorem Inv.frame (hu : u.Inv) (hfit : u.reader.read.length + 1 < 2 ^ 64) (hf : f ∈ u.reader.sent) :
    counts u.reader.connId f = true ∧
      ((∃ k q, u.reader.read[k]? = some q ∧ f.seq.toNat = k + 1 ∧ f.payload = q ∧ f.has flagData = true) ∨
        u.reader.pc = .done .finSent ∧ f.seq.toNat = u.reader.read.length + 1 ∧ f.has flagData = false ∧
          f.has flagFin = true) := by
  obtain ⟨out, rest, fin, hs⟩ := hu.sent
  have htoNat : ∀ k, k ≤ u.reader.read.length → (UInt64.ofNat (k + 1)).toNat = k + 1 := by
    intro k hk
    rw [UInt64.toNat_ofNat']
    exact Nat.mod_eq_of_lt (by omega)
  rcases hs.frame hf with ⟨k, q, -, hq, rfl⟩ | ⟨hpc, rfl⟩
  · have hk := (List.getElem?_eq_some_iff.mp hq).1
    have hdata := data_has u.reader.connId (UInt64.ofNat (k + 1)) q
    refine ⟨counts_iff.mpr ⟨rfl, fun h => ?_⟩, .inl ⟨k, q, hq, htoNat k hk.le, rfl, hdata⟩⟩
    rw [h, (rst_has _).1] at hdata
    cases hdata
  · obtain ⟨hdata, hfin⟩ := fin_has u.reader.connId (UInt64.ofNat (u.reader.read.length + 1))
    refine ⟨counts_iff.mpr ⟨rfl, fun h => ?_⟩, .inr ⟨hpc, htoNat _ le_rfl, hdata, hfin⟩⟩
    rw [h, (rst_has _).2] at hfin
    cases hfin

theorem mem_update {tunnels : ℕ → List Frame} {g : Frame} {l : List Frame} {j : ℕ}
    (h : g ∈ Function.update tunnels i l j) : g ∈ l ∨ g ∈ tunnels j := by
  by_cases hj : j = i
  · subst hj
    rw [Function.update_self] at h
    exact .inl h
  · rw [Function.update_of_ne hj] at h
    exact .inr h

/-- A frame stays on its tunnel when the new queue has all of the old one. -/
theorem on_update {tunnels : ℕ → List Frame} {l : List Frame} {g : Frame} (hsub : ∀ x ∈ tunnels i, x ∈ l)
    (h : ∃ j, g ∈ tunnels j) : ∃ j, g ∈ Function.update tunnels i l j := by
  obtain ⟨j, hj⟩ := h
  refine ⟨j, ?_⟩
  by_cases hji : j = i
  · subst hji
    rw [Function.update_self]
    exact hsub g hj
  · rwa [Function.update_of_ne hji]

theorem reader_inv {r : EgressReader} {ev : EgressReader.Event} (hu : u.Inv)
    (hr : u.reader.step ev = some r) :
    Inv { u with
      reader := r
      tunnels := Function.update u.tunnels i (u.tunnels i ++ r.sent.drop u.reader.sent.length) } := by
  obtain ⟨hid, hsent, hread, hover⟩ := EgressReader.step_grows hr
  obtain ⟨out, rest, fin, hs⟩ := hu.sent
  obtain ⟨out', rest', fin', hs', -, -⟩ := EgressReader.step_sent hs hr
  refine ⟨⟨out', rest', fin', hs'⟩, fun j g hg hc => ?_, hu.path.grow hread, fun hf => ?_⟩
  · have hold : ∀ l, g ∈ u.tunnels l → g ∈ r.sent := by
      intro l hl
      exact hsent.subset (hu.genuine l g hl (hid ▸ hc))
    rcases mem_update hg with hg | hg
    · rcases List.mem_append.mp hg with hg | hg
      · exact hold i hg
      · exact List.mem_of_mem_drop hg
    · exact hold j hg
  · obtain ⟨hpc, hseq⟩ := hu.fin hf
    obtain ⟨hpc', hsame⟩ := hover _ hpc
    exact ⟨hpc', by rw [hsame]; exact hseq⟩

theorem tunnels_inv (hu : u.Inv) {l : List Frame} {b : Bool}
    (hl : ∀ g ∈ l, counts u.reader.connId g = true → g ∈ u.reader.sent) :
    Inv { u with tunnels := Function.update u.tunnels i l, lost := b } := by
  refine ⟨hu.sent, fun j g hg hc => ?_, hu.path, hu.fin⟩
  rcases mem_update hg with hg | hg
  · exact hl g hg hc
  · exact hu.genuine j g hg hc

theorem other_inv (hu : u.Inv) {d : Delivery} {ev : Delivery.Event} (he : ∀ seq, ev ≠ .frame seq)
    {q : ℕ → Bytes} (h : u.path.step q ev = some d) : Inv { u with path := d } := by
  refine ⟨hu.sent, hu.genuine, hu.path.other he h, fun hf => ?_⟩
  obtain ⟨hrec, hseq⟩ := Delivery.step_fin hu.path.reorder h
  obtain ⟨hpc, hq⟩ := hu.fin (hrec ▸ hf)
  exact ⟨hpc, hseq.trans hq⟩

theorem onPath_inv (hu : u.Inv) {ev : Delivery.Event} (he : ∀ seq, ev ≠ .frame seq)
    (h : u.onPath ev = some u') : u'.Inv := by
  obtain ⟨d, hd, rfl⟩ := Option.map_eq_some_iff.mp h
  exact other_inv hu he hd

/-- What the splitter does with a frame that came off a tunnel. -/
theorem handle_inv (hu : u.Inv) (hfit : u.reader.read.length + 1 < 2 ^ 64)
    (hf : counts u.reader.connId f = true → f ∈ u.reader.sent) (h : u.handleInboundFrame f = some u') :
    u'.Inv := by
  unfold handleInboundFrame at h
  by_cases hc : f.connId ≠ u.reader.connId
  · rw [if_pos hc] at h
    obtain rfl := Option.some.inj h
    exact hu
  rw [if_neg hc] at h
  have hc : f.connId = u.reader.connId := not_not.mp hc
  by_cases hdata : f.has flagData = true
  · rw [if_pos hdata] at h
    have hne : f ≠ .rst u.reader.connId := by
      intro he
      rw [he, (rst_has _).1] at hdata
      cases hdata
    obtain ⟨-, hk⟩ := hu.frame hfit (hf (counts_iff.mpr ⟨hc, hne⟩))
    rcases hk with ⟨k, q, hq, hseq, rfl, -⟩ | ⟨-, -, hno, -⟩
    · split_ifs at h with hreg
      · obtain ⟨d, hd, rfl⟩ := Option.map_eq_some_iff.mp h
        obtain ⟨hrec, hfs⟩ := Delivery.step_fin hu.path.reorder hd
        refine ⟨hu.sent, hu.genuine, hu.path.frame hq hseq hd, fun hfin => ?_⟩
        obtain ⟨hpc, hn⟩ := hu.fin (hrec ▸ hfin)
        exact ⟨hpc, hfs.trans hn⟩
      · obtain rfl := Option.some.inj h
        exact ⟨hu.sent, hu.genuine, hu.path, hu.fin⟩
    · cases hdata.symm.trans hno
  rw [if_neg hdata] at h
  by_cases hfin : f.has flagFin = true
  · rw [if_pos hfin] at h
    have hne : f ≠ .rst u.reader.connId := by
      intro he
      rw [he, (rst_has _).2] at hfin
      cases hfin
    obtain ⟨-, hk⟩ := hu.frame hfit (hf (counts_iff.mpr ⟨hc, hne⟩))
    rcases hk with ⟨-, -, -, -, -, hd⟩ | ⟨hpc, hseq, -, -⟩
    · exact absurd hd hdata
    · split_ifs at h with hreg
      · obtain rfl := Option.some.inj h
        exact ⟨hu.sent, hu.genuine, hu.path.flags rfl rfl rfl, fun _ => ⟨hpc, hseq⟩⟩
      · obtain rfl := Option.some.inj h
        exact ⟨hu.sent, hu.genuine, hu.path, hu.fin⟩
  rw [if_neg hfin] at h
  split_ifs at h
  · obtain rfl := Option.some.inj h
    exact ⟨hu.sent, hu.genuine, hu.path.flags rfl rfl rfl, hu.fin⟩
  all_goals
    obtain rfl := Option.some.inj h
    exact hu

theorem step_inv (hu : u.Inv) (hfit : u.reader.read.length + 1 < 2 ^ 64) (h : u.step e = some u') :
    u'.Inv := by
  cases e with
  | reader i ev =>
    obtain ⟨r, hr, rfl⟩ := Option.map_eq_some_iff.mp h
    exact reader_inv hu hr
  | stray i f =>
    simp only [step] at h
    split_ifs at h with hf
    obtain rfl := Option.some.inj h
    refine tunnels_inv hu fun g hg hc => ?_
    rcases List.mem_append.mp hg with hg | hg
    · exact hu.genuine i g hg hc
    · obtain rfl := List.mem_singleton.mp hg
      obtain ⟨hid, hne⟩ := counts_iff.mp hc
      exact absurd hf (by simp [hid, hne])
  | arrive i =>
    simp only [step] at h
    split at h
    · cases h
    · rename_i f rest htun
      have hx : Inv { u with tunnels := Function.update u.tunnels i rest } :=
        tunnels_inv hu fun g hg hc => hu.genuine i g (by rw [htun]; exact List.mem_cons_of_mem f hg) hc
      exact handle_inv hx hfit (fun hc => hu.genuine i f (by rw [htun]; exact List.mem_cons_self) hc) h
  | send => exact onPath_inv hu (fun _ he => by cases he) h
  | recv => exact onPath_inv hu (fun _ he => by cases he) h
  | close => exact onPath_inv hu (fun _ he => by cases he) h
  | remove =>
    obtain rfl := Option.some.inj h
    exact ⟨hu.sent, hu.genuine, hu.path, hu.fin⟩
  | linkDies i =>
    obtain rfl := Option.some.inj h
    exact tunnels_inv hu fun g hg => absurd hg List.not_mem_nil

/-! ## Nothing is lost -/

/-- The frame came through: its chunk was released or buffered, or the FIN was noted. -/
def Taken (d : Delivery) (f : Frame) : Prop :=
  if f.has flagData then d.Holds f.seq.toNat else d.vc.finReceived = true

/-- A frame that was sent is on a tunnel or came through. -/
def Kept (u : Download) : Prop :=
  u.lost = false → ∀ f ∈ u.reader.sent, (∃ i, f ∈ u.tunnels i) ∨ Taken u.path f

theorem taken_mono {d d' : Delivery} (hh : ∀ k, d.Holds k → d'.Holds k)
    (hf : d.vc.finReceived = true → d'.vc.finReceived = true) (h : Taken d f) : Taken d' f := by
  unfold Taken at h ⊢
  split_ifs at h ⊢
  · exact hh _ h
  · exact hf h

theorem onPath_kept (hu : u.Inv) (hk : u.Kept) {ev : Delivery.Event} (he : ∀ seq, ev ≠ .frame seq)
    (h : u.onPath ev = some u') : u'.Kept := by
  obtain ⟨d, hd, rfl⟩ := Option.map_eq_some_iff.mp h
  intro hl f hf
  refine (hk hl f hf).imp_right (taken_mono (fun k => ?_) fun hfin => ?_)
  · exact Delivery.holds_of_reorder (Delivery.other_step he hd)
  · exact (Delivery.step_fin hu.path.reorder hd).1.trans hfin

/-- A frame is handled: it came through, and every other one is where it was. -/
theorem handle_kept (hu : u.Inv) (hfit : u.reader.read.length + 1 < 2 ^ 64)
    (hk : u.lost = false → ∀ g ∈ u.reader.sent, g = f ∨ (∃ i, g ∈ u.tunnels i) ∨ Taken u.path g)
    (h : u.handleInboundFrame f = some u') : u'.Kept := by
  -- a frame that is not one of ours is not among those sent
  have hskip : (f ∈ u.reader.sent → False) → u.Kept := by
    intro hno hl g hg
    rcases hk hl g hg with rfl | hg'
    · exact (hno hg).elim
    · exact hg'
  unfold handleInboundFrame at h
  by_cases hc : f.connId ≠ u.reader.connId
  · rw [if_pos hc] at h
    obtain rfl := Option.some.inj h
    exact hskip fun hf => hc (counts_iff.mp (hu.frame hfit hf).1).1
  rw [if_neg hc] at h
  by_cases hdata : f.has flagData = true
  · rw [if_pos hdata] at h
    split_ifs at h with hreg
    · obtain ⟨d, hd, rfl⟩ := Option.map_eq_some_iff.mp h
      obtain ⟨hmono, htakes⟩ := Delivery.frame_holds hu.path.reorder hd
      intro hl g hg
      obtain ⟨hl, ho⟩ := Bool.or_eq_false_iff.mp hl
      rcases hk hl g hg with rfl | hg' | hg'
      · exact .inr (by rw [Taken, if_pos hdata]; exact htakes ho)
      · exact .inl hg'
      · exact .inr (taken_mono hmono (fun hfin => (Delivery.step_fin hu.path.reorder hd).1.trans hfin) hg')
    · obtain rfl := Option.some.inj h
      intro hl
      cases hl
  rw [if_neg hdata] at h
  by_cases hfin : f.has flagFin = true
  · rw [if_pos hfin] at h
    split_ifs at h with hreg
    · obtain rfl := Option.some.inj h
      intro hl g hg
      rcases hk hl g hg with rfl | hg' | hg'
      · exact .inr (by rw [Taken, if_neg hdata])
      · exact .inl hg'
      · refine .inr (taken_mono (fun k hh => ?_) (fun _ => rfl) hg')
        exact @Delivery.holds_of_reorder u.path _ rfl k hh
    · obtain rfl := Option.some.inj h
      intro hl
      cases hl
  rw [if_neg hfin] at h
  have hno : f ∈ u.reader.sent → False := by
    intro hf
    obtain ⟨-, ⟨-, -, -, -, -, hd⟩ | ⟨-, -, -, hd⟩⟩ := hu.frame hfit hf
    · exact hdata hd
    · exact hfin hd
  split_ifs at h
  · obtain rfl := Option.some.inj h
    intro hl g hg
    refine (hskip hno hl g hg).imp_right (taken_mono (fun k hh => ?_) id)
    exact @Delivery.holds_of_reorder u.path _ rfl k hh
  all_goals
    obtain rfl := Option.some.inj h
    exact hskip hno

theorem step_kept (hu : u.Inv) (hfit : u.reader.read.length + 1 < 2 ^ 64) (hk : u.Kept)
    (h : u.step e = some u') : u'.Kept := by
  cases e with
  | reader i ev =>
    obtain ⟨r, hr, rfl⟩ := Option.map_eq_some_iff.mp h
    obtain ⟨-, ⟨new, hnew⟩, -, -⟩ := EgressReader.step_grows hr
    intro hl f hf
    have hdrop : r.sent.drop u.reader.sent.length = new := by rw [← hnew, List.drop_left]
    have hf : f ∈ u.reader.sent ++ new := by rw [hnew]; exact hf
    rcases List.mem_append.mp hf with hf | hf
    · exact (hk hl f hf).imp_left (on_update fun _ => List.mem_append_left _)
    · refine .inl ⟨i, ?_⟩
      show f ∈ Function.update u.tunnels i _ i
      rw [Function.update_self, hdrop]
      exact List.mem_append_right _ hf
  | stray i f =>
    simp only [step] at h
    split_ifs at h with hf
    obtain rfl := Option.some.inj h
    intro hl g hg
    exact (hk hl g hg).imp_left (on_update fun _ => List.mem_append_left _)
  | arrive i =>
    simp only [step] at h
    split at h
    · cases h
    · rename_i f rest htun
      have hx : Inv { u with tunnels := Function.update u.tunnels i rest } :=
        tunnels_inv hu fun g hg hc => hu.genuine i g (by rw [htun]; exact List.mem_cons_of_mem f hg) hc
      refine handle_kept hx hfit (fun hl g hg => ?_) h
      rcases hk hl g hg with ⟨j, hj⟩ | ht
      · by_cases hji : j = i
        · subst hji
          rw [htun] at hj
          rcases List.mem_cons.mp hj with hj | hj
          · exact .inl hj
          · exact .inr (.inl ⟨j, by show g ∈ Function.update u.tunnels j rest j; rwa [Function.update_self]⟩)
        · refine .inr (.inl ⟨j, ?_⟩)
          show g ∈ Function.update u.tunnels i rest j
          rwa [Function.update_of_ne hji]
      · exact .inr (.inr ht)
  | send => exact onPath_kept hu hk (fun _ he => by cases he) h
  | recv => exact onPath_kept hu hk (fun _ he => by cases he) h
  | close => exact onPath_kept hu hk (fun _ he => by cases he) h
  | remove =>
    obtain rfl := Option.some.inj h
    exact hk
  | linkDies i =>
    obtain rfl := Option.some.inj h
    intro hl g hg
    obtain ⟨hl, hnone⟩ := Bool.or_eq_false_iff.mp hl
    refine (hk hl g hg).imp_left ?_
    rintro ⟨j, hj⟩
    refine ⟨j, ?_⟩
    have hji : j ≠ i := by
      rintro rfl
      have := List.any_eq_false.mp hnone g hj
      exact this (hu.frame hfit hg).1
    show g ∈ Function.update u.tunnels i [] j
    rwa [Function.update_of_ne hji]

end Steps

/-! ## The splitter's handler -/

/-- The splitter's handler of a DATA frame, with whatever its writer does meanwhile, is a run of the delivery path. -/
theorem data_run {s : State} {d : Delivery} {f : Frame} {v : ℕ} (con : Consumer) (hdata : f.has flagData = true)
    (hseq : f.seq ≠ 0) (hc : s.conns f.connId = some v) (hv : s.heap v = d.vc) (hudp : d.vc.isUdp = false)
    (htodo : d.todo = []) :
    ∃ es d', d.run (fun _ => f.payload) es = some d' ∧ d'.todo = [] ∧
      (s.handleInboundFrame con f).heap v = if d'.overflow then d'.vc.markReset else d'.vc := by
  obtain ⟨es, d', hrun, htodo', hcall⟩ := Delivery.onFrame_run (fun _ => f.payload) con htodo hseq
  refine ⟨es, d', hrun, htodo', ?_⟩
  have hcall : d.vc.onFrame con f.seq.toNat f.payload = (d'.vc, d'.overflow) := hcall.symm
  simp only [State.handleInboundFrame, hdata, hc, hv, hudp, hcall, if_true, Bool.false_eq_true, if_false]
  cases d'.overflow with
  | false => simp [State.setConn]
  | true => simp [State.resetConn, State.setConn, State.send, hc]

/-- Its handlers of the other frames do what is done here. -/
theorem control_run {s : State} {u : Download} {f : Frame} {v : ℕ} (con : Consumer)
    (hid : f.connId = u.reader.connId) (hdata : f.has flagData = false) (hreg : u.registered = true)
    (hc : s.conns f.connId = some v) (hv : s.heap v = u.path.vc) (hudp : u.path.vc.isUdp = false) :
    ∃ u', u.handleInboundFrame f = some u' ∧ (s.handleInboundFrame con f).heap v = u'.path.vc ∧
      (u'.registered = true ↔ ((s.handleInboundFrame con f).conns f.connId).isSome = true) := by
  have hne : ¬ f.connId ≠ u.reader.connId := not_not.mpr hid
  unfold handleInboundFrame
  rw [if_neg hne, hdata, if_neg Bool.false_ne_true]
  simp only [State.handleInboundFrame, hdata, Bool.false_eq_true, if_false, hreg, if_true, hc, hv, hudp]
  cases hfin : f.has flagFin with
  | true => exact ⟨_, rfl, by simp [State.setConn], by simp [State.setConn, hc]⟩
  | false =>
    cases hrst : f.has flagRst with
    | true =>
      refine ⟨_, rfl, ?_, ?_⟩
      · simp [State.resetConn, State.setConn, State.send, hc, hv]
      · simp [State.resetConn_conns]
    | false => exact ⟨_, rfl, hv, by simp [hc, hreg]⟩

/-! ## Runs -/

section Runs

variable {u u' : Download} {es : List Event} {c : ConnId} {chunkSize window : ℕ}

theorem handle_reader {f : Frame} (h : u.handleInboundFrame f = some u') : u'.reader = u.reader := by
  unfold handleInboundFrame at h
  split_ifs at h
  all_goals first
    | (obtain rfl := Option.some.inj h
       rfl)
    | (obtain ⟨d, -, rfl⟩ := Option.map_eq_some_iff.mp h
       rfl)

/-- What was read stays read. -/
theorem step_reader {e : Event} (h : u.step e = some u') :
    u'.reader.connId = u.reader.connId ∧ u.reader.read <+: u'.reader.read := by
  have hsame : u'.reader = u.reader →
      u'.reader.connId = u.reader.connId ∧ u.reader.read <+: u'.reader.read := by
    intro hr
    rw [hr]
    exact ⟨rfl, List.prefix_refl _⟩
  cases e with
  | reader i ev =>
    obtain ⟨r, hr, rfl⟩ := Option.map_eq_some_iff.mp h
    obtain ⟨hid, -, hread, -⟩ := EgressReader.step_grows hr
    exact ⟨hid, hread⟩
  | stray i f =>
    simp only [step] at h
    split_ifs at h
    obtain rfl := Option.some.inj h
    exact hsame rfl
  | arrive i =>
    simp only [step] at h
    split at h
    · cases h
    · rename_i f rest htun
      exact hsame ((handle_reader h).trans rfl)
  | send | recv | close =>
    simp only [step, onPath] at h
    obtain ⟨d, -, rfl⟩ := Option.map_eq_some_iff.mp h
    exact hsame rfl
  | remove | linkDies i =>
    obtain rfl := Option.some.inj h
    exact hsame rfl

theorem run_inv (h : (start c chunkSize window).run es = some u) (hfit : u.reader.read.length + 1 < 2 ^ 64) :
    u.reader.connId = c ∧ u.Inv ∧ u.Kept := by
  have hall := Machine.run_inv
    (fun x => x.reader.connId = c ∧ (x.reader.read.length + 1 < 2 ^ 64 → x.Inv ∧ x.Kept)) h
    ⟨rfl, fun _ => ⟨start_inv c chunkSize window, fun _ f hf => absurd hf List.not_mem_nil⟩⟩ ?_
  · exact ⟨hall.1, hall.2 hfit⟩
  · intro x y e ⟨hid, hx⟩ hxy
    obtain ⟨hid', hread⟩ := step_reader hxy
    refine ⟨hid'.trans hid, fun hy => ?_⟩
    have hfitx : x.reader.read.length + 1 < 2 ^ 64 := by
      have := hread.length_le
      omega
    obtain ⟨hxi, hxk⟩ := hx hfitx
    exact ⟨step_inv hxi hfitx hxy, step_kept hxi hfitx hxk hxy⟩

/-- The client channel accepted some of the chunks that were read, each at most once and in their order. -/
theorem Inv.sublist (hu : u.Inv) : u.path.vc.toClientTx.log.Sublist u.reader.read := by
  have hi := hu.path.inv _ (numbers_chunkAt u.reader.read)
  have hsorted : u.path.vc.delivered.Pairwise (· < ·) :=
    hu.path.ordered.sorted.sublist (List.sublist_append_left _ _)
  have hsub : u.path.vc.delivered.Sublist (List.range' 1 u.reader.read.length) := by
    refine List.sublist_of_subperm_of_pairwise (List.subperm_of_subset ?_ fun k hk => ?_)
      hsorted List.pairwise_lt_range'
    · exact hsorted.imp Nat.ne_of_lt
    · have hb := hu.path.ordered.bound k (List.mem_append_left _ hk)
      have := hu.path.within.released
      exact List.mem_range'_1.mpr (by omega)
  have hmap := hsub.map (chunkAt u.reader.read)
  rwa [map_chunkAt, ← hi.log] at hmap

/-- As long as no chunk was refused, what was accepted and what the running call has still to send are the chunks
released so far. -/
theorem Inv.inOrder (hu : u.Inv) (hr : u.path.refused = false) :
    u.path.vc.toClientTx.log ++ u.path.todo.map Prod.snd = u.reader.read.take u.path.released := by
  have hi := hu.path.inv _ (numbers_chunkAt u.reader.read)
  have htodo : u.path.todo.map Prod.snd = (u.path.todo.map Prod.fst).map (chunkAt u.reader.read) := by
    obtain ⟨n, -, hw⟩ := hi.waits
    rw [hw]
    simp only [List.map_map]
    rfl
  have htake : (List.range' 1 u.path.released).map (chunkAt u.reader.read) =
      u.reader.read.take u.path.released := by
    conv_rhs => rw [← map_chunkAt u.reader.read]
    rw [← List.map_take, List.take_range'_of_length_ge hu.path.within.released]
  rw [hi.log, htodo, ← List.map_append, hi.clean hr, htake]

/-- Once the FIN is there and the reorder buffer is complete through its seq, that is all of them. -/
theorem Inv.whole (hu : u.Inv) (hr : u.path.refused = false) (hfin : u.path.vc.finReceived = true)
    (hc : u.path.vc.reorder.isCompleteThrough u.path.vc.finSeq = true) :
    u.reader.ended = true ∧ u.path.vc.toClientTx.log ++ u.path.todo.map Prod.snd = u.reader.read := by
  obtain ⟨hpc, hseq⟩ := hu.fin hfin
  obtain ⟨out, rest, fin, hs⟩ := hu.sent
  have hle : u.path.vc.finSeq ≤ u.path.vc.reorder.expected := by
    simpa [ReorderBuf.isCompleteThrough] using hc
  refine ⟨(hs.all hpc).1, (hu.inOrder hr).trans (List.take_of_length_le ?_)⟩
  unfold Delivery.released Delivery.releasedBy
  split_ifs <;> omega

/-- Everything that was sent came through: nothing is missing. -/
theorem Inv.complete (hu : u.Inv) (hk : u.Kept) (hfit : u.reader.read.length + 1 < 2 ^ 64) (hl : u.lost = false)
    (hpc : u.reader.pc = .done .finSent)
    (hempty : ∀ i, ∀ f ∈ u.tunnels i, f.connId ≠ u.reader.connId) :
    u.path.vc.finReceived = true ∧ u.reader.read.length ≤ u.path.released := by
  obtain ⟨out, rest, fin, hs⟩ := hu.sent
  obtain ⟨-, hfin, hdata⟩ := hs.all hpc
  have htaken : ∀ f ∈ u.reader.sent, Taken u.path f := by
    intro f hf
    refine (hk hl f hf).resolve_left fun ⟨i, hi⟩ => ?_
    exact hempty i f hi (counts_iff.mp (hu.frame hfit hf).1).1
  refine ⟨?_, ?_⟩
  · have ht := htaken _ hfin
    rwa [Taken, (fin_has _ _).1, if_neg Bool.false_ne_true] at ht
  · by_contra hlt
    -- the first chunk that was not released is buffered, but it is the expected one
    have hk : u.path.released < u.reader.read.length := not_le.mp hlt
    have ht := htaken _ (hdata _ _ (List.getElem?_eq_getElem hk))
    rw [Taken, data_has, if_pos rfl] at ht
    have hseq : (UInt64.ofNat (u.path.released + 1)).toNat = u.path.released + 1 := by
      rw [UInt64.toNat_ofNat']
      exact Nat.mod_eq_of_lt (by omega)
    rcases ht with ht | ht
    · have ht : (UInt64.ofNat (u.path.released + 1)).toNat ≤ u.path.released := ht
      omega
    · obtain ⟨q, hq⟩ := Option.isSome_iff_exists.mp ht
      have hq : u.path.vc.reorder.pending.get (UInt64.ofNat (u.path.released + 1)).toNat = some q := hq
      have hlo := (hu.path.reorder.key _ q hq).1
      rw [hseq] at hlo
      unfold Delivery.released Delivery.releasedBy at hlo hk
      split_ifs at hlo hk <;> omega

end Runs

/-- The second chunk overtakes the first one on another tunnel, and the FIN comes before both. -/
def overtakingRun : List Event :=
  [.reader 0 (.pollRead (.chunk [1])), .reader 0 (.pollSend .sent), .reader 1 (.pollRead (.chunk [2])),
    .reader 1 (.pollSend .sent), .reader 2 (.pollRead .eof), .reader 2 (.pollSend .sent), .stray 1 (.rst 9),
    .arrive 2, .arrive 1, .arrive 0, .send, .recv, .send, .arrive 1]

end Download

end RoundRobin
