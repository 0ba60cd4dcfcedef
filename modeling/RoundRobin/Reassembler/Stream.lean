import RoundRobin.Reassembler.Effects

/-!
# RoundRobin.Reassembler.Stream — one connection against the stream it carries

`sent` is the list of chunks the splitter has emitted for the connection, chunk `k` at seq `k + 1`.
`Good` is what is promised about the egress channel at all times; `Clean` is what a connection that is
still fed satisfies as well: its reorder buffer holds chunks of the stream and the channel got exactly
those below `expected`.  A refused write ends `Clean` and keeps `Good` (`deliver_clean`).
-/

namespace RoundRobin.Reassembler

/-- What the splitter has emitted so far: the chunks, and whether the FIN.  All seqs fit in a `u64`. -/
structure Source where
  sent : List Bytes
  finSent : Bool
  fits : sent.length + 1 < 2 ^ 64

/-- Chunk number `seq` (from 1) of the stream. -/
def Source.chunkAt (src : Source) (seq : ℕ) : Option Bytes :=
  if seq = 0 then none else src.sent[seq - 1]?

/-- The egress channel accepted a prefix of the stream, and all of it if the write half was closed
without force. -/
structure Good (src : Source) (vc : VirtConnDe) (ch : Chan Bytes) : Prop where
  egress : vc.egress = some ch
  stream : ch.log <+: src.sent
  closed : vc.halfCloseState = 2 → vc.forced = true ∨ (src.finSent = true ∧ ch.log = src.sent)

/-- A connection whose stream is intact. -/
structure Clean (src : Source) (vc : VirtConnDe) (ch : Chan Bytes) : Prop extends Good src vc ch where
  reorder : vc.reorder.Inv
  pos : 1 ≤ vc.reorder.expected
  bound : vc.reorder.expected ≤ src.sent.length + 1
  log : ch.log = src.sent.take (vc.reorder.expected - 1)
  chunks : ∀ k p, vc.reorder.pending.get k = some p → src.chunkAt k = some p
  fin : vc.finReceived = true → src.finSent = true ∧ vc.finSeq = src.sent.length + 1

/-! ## Chunks of the stream -/

theorem chunkAt_bound {src : Source} {k : ℕ} {p : Bytes} (h : src.chunkAt k = some p) :
    1 ≤ k ∧ k ≤ src.sent.length := by
  unfold Source.chunkAt at h
  split at h
  · cases h
  · have := (List.getElem?_eq_some_iff.mp h).1
    omega

theorem take_chunkAt {src : Source} {k : ℕ} {p : Bytes} (h : src.chunkAt k = some p) :
    src.sent.take k = src.sent.take (k - 1) ++ [p] := by
  obtain ⟨h1, h2⟩ := chunkAt_bound h
  unfold Source.chunkAt at h
  rw [if_neg (by omega)] at h
  obtain ⟨j, rfl⟩ : ∃ j, k = j + 1 := ⟨k - 1, by omega⟩
  rw [List.take_add_one]
  simp only [Nat.add_sub_cancel] at h ⊢
  rw [h]
  rfl

/-- The ready run of a clean connection is the next piece of the stream. -/
theorem take_readyRun {src : Source} {b : ReorderBuf} {payload : Bytes} (hpos : 1 ≤ b.expected)
    (hchunks : ∀ k p, b.pending.get k = some p → src.chunkAt k = some p)
    (hp : src.chunkAt b.expected = some payload) (r : ℕ)
    (hrun : ∀ k, b.expected < k → k ≤ b.expected + r → (b.pending.get k).isSome) :
    src.sent.take (b.expected + r) = src.sent.take (b.expected - 1) ++ b.readyRun payload r := by
  induction r with
  | zero => simpa [ReorderBuf.readyRun] using take_chunkAt hp
  | succ r ih =>
    obtain ⟨q, hq⟩ := Option.isSome_iff_exists.mp (hrun (b.expected + (r + 1)) (by omega) le_rfl)
    have hlast := take_chunkAt (hchunks _ q hq)
    have hprev := ih fun k h1 h2 => hrun k h1 (by omega)
    have hsub : b.expected + (r + 1) - 1 = b.expected + r := by omega
    rw [hlast, hsub, hprev, List.append_assoc]
    have hchunk : b.chunk (b.expected + 1 + r) = q := by
      rw [ReorderBuf.chunk, show b.expected + 1 + r = b.expected + (r + 1) by omega, hq]
      rfl
    simp [ReorderBuf.readyRun, List.range'_concat, hchunk]

/-! ## Writing to the egress channel -/

theorem writeAll_true {chunks : List Bytes} {ch ch' : Chan Bytes}
    (h : VirtConnDe.writeAll chunks ch = (true, ch')) : ch'.log = ch.log ++ chunks := by
  induction chunks generalizing ch with
  | nil =>
    obtain rfl : ch = ch' := by simpa [VirtConnDe.writeAll] using h
    simp
  | cons a rest ih =>
    rcases Chan.trySend_cases ch a with ⟨-, hs⟩ | ⟨-, hne, hc⟩
    · simp only [VirtConnDe.writeAll, hs] at h
      rw [ih h]
      simp
    · simp only [VirtConnDe.writeAll] at h
      cases h

theorem writeAll_take (chunks : List Bytes) (ch : Chan Bytes) :
    (VirtConnDe.writeAll chunks ch).2.log <+: ch.log ++ chunks := by
  induction chunks generalizing ch with
  | nil => simp [VirtConnDe.writeAll]
  | cons a rest ih =>
    rcases Chan.trySend_cases ch a with ⟨-, hs⟩ | ⟨-, hne, hc⟩
    · simp only [VirtConnDe.writeAll, hs]
      simpa using ih { ch with queue := ch.queue ++ [a], log := ch.log ++ [a] }
    · simp only [VirtConnDe.writeAll, hc]
      exact List.prefix_append _ _

/-! ## The operations of a connection -/

section Ops

variable {src : Source} {vc : VirtConnDe} {ch : Chan Bytes}

/-- Once closed without force nothing is missing. -/
theorem Clean.complete (h : Clean src vc ch) (h2 : vc.halfCloseState = 2) (hf : vc.forced = false) :
    vc.reorder.expected = src.sent.length + 1 := by
  rcases h.closed h2 with hfo | ⟨-, hlog⟩
  · rw [hf] at hfo
    cases hfo
  · have hlen := congrArg List.length (h.log.symm.trans hlog)
    rw [List.length_take] at hlen
    have := h.pos
    have := h.bound
    omega

/-- The expected chunk and the run behind it are written in order. -/
theorem deliver_expected (h : Clean src vc ch) {f : Frame}
    (hf : src.chunkAt f.seq.toNat = some f.payload) (hexp : f.seq.toNat = vc.reorder.expected)
    {r : ℕ} {b' : ReorderBuf} (hd : vc.reorder.Drained r b')
    (hp : vc.reorder.push f.seq.toNat f.payload =
      (b', ⟨vc.reorder.readyRun f.payload r, true, false⟩)) :
    ∃ ch', Clean src (vc.deliver f).1 ch' ∨
      (Good src (vc.deliver f).1 ch' ∧ (vc.deliver f).2 = .writeFailed) := by
  have hbound := chunkAt_bound hf
  have hrun := take_readyRun h.pos h.chunks (hexp ▸ hf) r hd.run
  have hopen : vc.halfCloseState = 2 → vc.forced = true := by
    intro h2
    by_contra hnf
    have := h.complete h2 (by simpa using hnf)
    omega
  have hlast : vc.reorder.expected + r ≤ src.sent.length := by
    rcases Nat.eq_zero_or_pos r with rfl | hr
    · omega
    · obtain ⟨q, hq⟩ := Option.isSome_iff_exists.mp
        (hd.run (vc.reorder.expected + r) (by omega) le_rfl)
      exact (chunkAt_bound (h.chunks _ q hq)).2
  have hpre := writeAll_take (vc.reorder.readyRun f.payload r) ch
  rw [h.log, ← hrun] at hpre
  simp only [VirtConnDe.deliver, hp, h.egress]
  cases hw : VirtConnDe.writeAll (vc.reorder.readyRun f.payload r) ch with
  | mk done ch' =>
    rw [hw] at hpre
    refine ⟨ch', ?_⟩
    have hgood : ch'.log <+: src.sent := hpre.trans (List.take_prefix _ _)
    cases done with
    | false =>
      exact .inr ⟨⟨by simp, hgood, fun h2 => .inl (hopen h2)⟩, by simp⟩
    | true =>
      left
      have hlog := writeAll_true hw
      rw [h.log, ← hrun] at hlog
      have hfits := src.fits
      have hlt : vc.reorder.expected + r + 1 < 2 ^ 64 := by omega
      have hexp' : b'.expected = vc.reorder.expected + r + 1 := by
        rw [hd.expected, Nat.mod_eq_of_lt hlt]
      refine ⟨⟨by simp, hgood, fun h2 => .inl (hopen h2)⟩, hd.inv h.reorder, ?_, ?_, ?_, ?_, h.fin⟩
      · simp [hexp']
      · simpa [hexp'] using hlast
      · simpa [hexp'] using hlog
      · intro k p hk
        have hlk := hd.lookup k
        simp only [Bool.not_true, Bool.false_eq_true, if_false] at hk
        rw [hlk] at hk
        split_ifs at hk
        exact h.chunks k p hk

/-- A chunk above a gap is kept for later. -/
theorem deliver_buffered (h : Clean src vc ch) {f : Frame}
    (hf : src.chunkAt f.seq.toNat = some f.payload) (hgt : vc.reorder.expected < f.seq.toNat)
    (hs : vc.reorder.pending.get f.seq.toNat = none) (hc : vc.reorder.canBuffer f.payload)
    (hp : vc.reorder.push f.seq.toNat f.payload =
      (vc.reorder.buffered f.seq.toNat f.payload, ⟨[], true, false⟩)) :
    Clean src (vc.deliver f).1 ch := by
  simp only [VirtConnDe.deliver, hp, h.egress, VirtConnDe.writeAll]
  refine ⟨⟨by simp, h.stream, h.closed⟩, ReorderBuf.buffered_inv h.reorder hgt ?_ hs hc, h.pos,
    h.bound, h.log, ?_, h.fin⟩
  · exact f.seq.toNat_lt
  · intro k p hk
    by_cases hks : k = f.seq.toNat
    · subst hks
      simp only [Bool.not_true, Bool.false_eq_true, if_false, ReorderBuf.buffered,
        Table.get_put_self, Option.some.injEq] at hk
      rw [hf, hk]
    · simp only [Bool.not_true, Bool.false_eq_true, if_false, ReorderBuf.buffered,
        Table.get_put_ne _ _ hks] at hk
      exact h.chunks k p hk

/-- **Delivery.**  A chunk of the stream leaves the connection clean, or its write was refused. -/
theorem deliver_clean (h : Clean src vc ch) {f : Frame}
    (hf : src.chunkAt f.seq.toNat = some f.payload) :
    ∃ ch', Clean src (vc.deliver f).1 ch' ∨
      (Good src (vc.deliver f).1 ch' ∧ (vc.deliver f).2 = .writeFailed) := by
  rcases ReorderBuf.push_cases h.reorder f.seq.toNat f.payload with
    ⟨-, hp⟩ | ⟨hexp, r, b', hd, hp⟩ | ⟨hgt, hs, hc, hp⟩ | ⟨-, -, -, hp⟩
  · refine ⟨ch, .inl ?_⟩
    simp only [VirtConnDe.deliver, hp]
    exact ⟨⟨h.egress, h.stream, h.closed⟩, h.reorder, h.pos, h.bound, h.log, h.chunks, h.fin⟩
  · exact deliver_expected h hf hexp hd hp
  · exact ⟨ch, .inl (deliver_buffered h hf hgt hs hc hp)⟩
  · refine ⟨ch, .inl ?_⟩
    simp only [VirtConnDe.deliver, hp]
    exact ⟨⟨h.egress, h.stream, h.closed⟩, h.reorder, h.pos, h.bound, h.log, h.chunks, h.fin⟩

theorem new_clean (src : Source) (c : ConnId) (window now : ℕ) :
    Clean src (VirtConnDe.new c window false now) (Chan.new egressChannelCap) where
  egress := rfl
  stream := List.nil_prefix
  closed := by simp [VirtConnDe.new]
  reorder := ReorderBuf.withLimit_inv window
  pos := by simp [VirtConnDe.new, ReorderBuf.withLimit]
  bound := by simp [VirtConnDe.new, ReorderBuf.withLimit]
  log := by simp [VirtConnDe.new, ReorderBuf.withLimit, Chan.new]
  chunks := by simp [VirtConnDe.new, ReorderBuf.withLimit]
  fin := by simp [VirtConnDe.new]

theorem received_clean (h : Clean src vc ch) (plen now : ℕ) : Clean src (vc.received plen now) ch :=
  ⟨⟨h.egress, h.stream, h.closed⟩, h.reorder, h.pos, h.bound, h.log, h.chunks, h.fin⟩

theorem received_good (h : Good src vc ch) (plen now : ℕ) : Good src (vc.received plen now) ch :=
  ⟨h.egress, h.stream, h.closed⟩

/-- A close that is not forced finds the whole stream in the channel. -/
theorem closeWriteHalf_clean (h : Clean src vc ch) (hf : vc.finReceived = true) :
    Clean src (vc.closeWriteHalf false) ch := by
  simp only [VirtConnDe.closeWriteHalf, Bool.false_eq_true, if_false]
  split_ifs with h0 hc
  · exact h
  · obtain ⟨hfs, hseq⟩ := h.fin hf
    have hle : vc.finSeq ≤ vc.reorder.expected := by simpa [ReorderBuf.isCompleteThrough] using hc
    have hall : ch.log = src.sent := by
      rw [h.log]
      exact List.take_of_length_le (by omega)
    exact ⟨⟨h.egress, h.stream, fun _ => .inr ⟨hfs, hall⟩⟩, h.reorder, h.pos, h.bound, h.log, h.chunks,
      h.fin⟩
  · exact h

theorem startHalfClose_clean (h : Clean src vc ch) (hf : src.finSent = true) :
    Clean src (vc.startHalfClose (src.sent.length + 1)) ch := by
  unfold VirtConnDe.startHalfClose
  split_ifs with hr
  · exact h
  · exact closeWriteHalf_clean ⟨⟨h.egress, h.stream, h.closed⟩, h.reorder, h.pos, h.bound, h.log,
      h.chunks, fun _ => ⟨hf, rfl⟩⟩ rfl

/-- The fallback timer closes by force; what was closed before stays as it is. -/
theorem forceClose_good (h : Good src vc ch) : Good src (vc.closeWriteHalf true) ch := by
  simp only [VirtConnDe.closeWriteHalf, if_true]
  split_ifs with h2
  · exact h
  · exact ⟨h.egress, h.stream, fun _ => .inl rfl⟩

theorem forceClose_clean (h : Clean src vc ch) : Clean src (vc.closeWriteHalf true) ch := by
  have hg := forceClose_good h.toGood
  simp only [VirtConnDe.closeWriteHalf, if_true] at hg ⊢
  split_ifs at hg ⊢
  · exact h
  · exact ⟨hg, h.reorder, h.pos, h.bound, h.log, h.chunks, h.fin⟩

/-! ## The stream grows -/

/-- The splitter emits one more chunk, before its FIN. -/
def Source.push (src : Source) (p : Bytes) (h : (src.sent ++ [p]).length + 1 < 2 ^ 64) : Source :=
  ⟨src.sent ++ [p], src.finSent, h⟩

/-- The splitter emits the FIN. -/
def Source.finish (src : Source) : Source := ⟨src.sent, true, src.fits⟩

theorem chunkAt_push {p q : Bytes} {h} {k : ℕ} (hk : src.chunkAt k = some q) :
    (src.push p h).chunkAt k = some q := by
  have hb := chunkAt_bound hk
  unfold Source.chunkAt at hk ⊢
  rw [if_neg (by omega)] at hk ⊢
  simp only [Source.push]
  rw [List.getElem?_append_left (by omega)]
  exact hk

theorem Good.push (h : Good src vc ch) (hf : src.finSent = false) {p : Bytes} {hp} :
    Good (src.push p hp) vc ch where
  egress := h.egress
  stream := h.stream.trans (List.prefix_append _ _)
  closed := by
    intro h2
    rcases h.closed h2 with hfo | ⟨hfs, -⟩
    · exact .inl hfo
    · rw [hf] at hfs
      cases hfs

theorem Clean.push (h : Clean src vc ch) (hf : src.finSent = false) {p : Bytes} {hp} :
    Clean (src.push p hp) vc ch where
  toGood := h.toGood.push hf
  reorder := h.reorder
  pos := h.pos
  bound := by
    have := h.bound
    simp only [Source.push, List.length_append]
    omega
  log := by
    have := h.bound
    rw [h.log, Source.push, List.take_append_of_le_length (by omega)]
  chunks := fun k q hk => chunkAt_push (h.chunks k q hk)
  fin := by
    intro hr
    have := (h.fin hr).1
    rw [hf] at this
    cases this

theorem Good.finish (h : Good src vc ch) : Good src.finish vc ch where
  egress := h.egress
  stream := h.stream
  closed := fun h2 => (h.closed h2).imp_right fun hx => ⟨rfl, hx.2⟩

theorem Clean.finish (h : Clean src vc ch) : Clean src.finish vc ch where
  toGood := h.toGood.finish
  reorder := h.reorder
  pos := h.pos
  bound := h.bound
  log := h.log
  chunks := h.chunks
  fin := fun hr => ⟨rfl, (h.fin hr).2⟩

end Ops

end RoundRobin.Reassembler
