import RoundRobin.Frame
import RoundRobin.Lib.Table

/-!
# RoundRobin.Reorder — the reorder buffer

`src/reorder.rs`.  Out-of-order chunks wait in `pending` until the gap below them fills; the window
is bounded by an entry cap and by a byte budget.  `push_cases` says everything a push can do, with
`Drained` for the in-order case; every invariant below is read off it.
-/

namespace RoundRobin

/-- Result of a push: the chunks now deliverable, whether the frame was queued or delivered, and
whether it was dropped because the window is full. -/
structure PushResult where
  ready : List Bytes
  accepted : Bool
  overflow : Bool
  deriving DecidableEq, Repr

structure ReorderBuf where
  expected : ℕ
  pending : Table ℕ Bytes
  pendingBytes : ℕ
  maxBytes : ℕ
  maxEntries : ℕ
  deriving DecidableEq

namespace ReorderBuf

/-- `wrapping_add(1)` on `u64`. -/
def wrapSucc (n : ℕ) : ℕ := (n + 1) % 2 ^ 64

def withLimit (maxBytes : ℕ) : ReorderBuf where
  expected := 1
  pending := ∅
  pendingBytes := 0
  maxBytes := maxBytes
  maxEntries := max (maxBytes / maxPayload) maxReorderWindow

def new : ReorderBuf := withLimit maxReorderBytes

/-- The `while let` loop of `push`: take the buffered chunks from `expected` on.  Every round takes
one entry, so `fuel` = the number of entries is enough. -/
def drain : ℕ → ReorderBuf → List Bytes → ReorderBuf × List Bytes
  | 0, b, ready => (b, ready)
  | fuel + 1, b, ready =>
    match b.pending.get b.expected with
    | none => (b, ready)
    | some chunk =>
      drain fuel
        { b with
          pending := b.pending.del b.expected
          pendingBytes := b.pendingBytes - chunk.length
          expected := wrapSucc b.expected }
        (ready ++ [chunk])

def push (b : ReorderBuf) (seq : ℕ) (payload : Bytes) : ReorderBuf × PushResult :=
  if seq < b.expected then (b, ⟨[], false, false⟩)
  else if seq = b.expected then
    let r := drain (b.pending.size) { b with expected := wrapSucc b.expected } [payload]
    (r.1, ⟨r.2, true, false⟩)
  else
    let canBuffer := b.pending.size < b.maxEntries ∧
      b.pendingBytes + payload.length ≤ b.maxBytes
    match b.pending.get seq with
    | none =>
      if canBuffer then
        ({ b with
            pendingBytes := b.pendingBytes + payload.length
            pending := b.pending.put seq payload }, ⟨[], true, false⟩)
      else (b, ⟨[], false, true⟩)
    | some _ => (b, ⟨[], false, false⟩)

/-- Every frame below `seq` has been delivered. -/
def isCompleteThrough (b : ReorderBuf) (seq : ℕ) : Bool := decide (seq ≤ b.expected)

/-! ## The invariant -/

/-- What every push keeps: the buffered seqs lie above `expected`, the byte counter is the sum of the
buffered lengths, and both caps hold. -/
structure Inv (b : ReorderBuf) : Prop where
  expected_lt : b.expected < 2 ^ 64
  key : ∀ k c, b.pending.get k = some c → b.expected < k ∧ k < 2 ^ 64
  bytes : b.pendingBytes = Table.total (fun _ c => c.length) b.pending
  entries : b.pending.size ≤ b.maxEntries
  budget : b.pendingBytes ≤ b.maxBytes

theorem withLimit_inv (maxBytes : ℕ) : (withLimit maxBytes).Inv where
  expected_lt := by simp [withLimit]
  key := by simp [withLimit]
  bytes := by simp [withLimit]
  entries := by simp [withLimit]
  budget := by simp [withLimit]

/-- The buffered chunk of a seq. -/
def chunk (b : ReorderBuf) (k : ℕ) : Bytes := (b.pending.get k).getD []

/-- `b'` is `b` after the next expected chunk arrived and `r` buffered ones were drained behind it. -/
structure Drained (b : ReorderBuf) (r : ℕ) (b' : ReorderBuf) : Prop where
  run : ∀ k, b.expected < k → k ≤ b.expected + r → (b.pending.get k).isSome
  stop : b.pending.get (b.expected + r + 1) = none
  expected : b'.expected = (b.expected + r + 1) % 2 ^ 64
  lookup : ∀ k, b'.pending.get k =
    if b.expected < k ∧ k ≤ b.expected + r then none else b.pending.get k
  bytes : b'.pendingBytes = Table.total (fun _ c => c.length) b'.pending
  size_le : b'.pending.size ≤ b.pending.size
  bytes_le : b'.pendingBytes ≤ b.pendingBytes
  maxBytes : b'.maxBytes = b.maxBytes
  maxEntries : b'.maxEntries = b.maxEntries

/-! ## The drain loop -/

/-- `b'` is `b` after the loop took the `r` chunks from `expected` on. -/
structure Took (b : ReorderBuf) (r : ℕ) (b' : ReorderBuf) : Prop where
  run : ∀ k, b.expected ≤ k → k < b.expected + r → (b.pending.get k).isSome
  stop : b.pending.get (b.expected + r) = none
  expected : b'.expected = (b.expected + r) % 2 ^ 64
  lookup : ∀ k, b'.pending.get k =
    if b.expected ≤ k ∧ k < b.expected + r then none else b.pending.get k
  bytes : b'.pendingBytes = Table.total (fun _ c => c.length) b'.pending
  size_le : b'.pending.size ≤ b.pending.size
  bytes_le : b'.pendingBytes ≤ b.pendingBytes
  maxBytes : b'.maxBytes = b.maxBytes
  maxEntries : b'.maxEntries = b.maxEntries

/-- At the head of the loop, `expected` itself may be buffered. -/
structure AtHead (b : ReorderBuf) : Prop where
  expected_lt : b.expected < 2 ^ 64
  key : ∀ k c, b.pending.get k = some c → b.expected ≤ k ∧ k < 2 ^ 64
  bytes : b.pendingBytes = Table.total (fun _ c => c.length) b.pending

/-- Before `expected` moves on, everything buffered lies above it. -/
structure Above (b : ReorderBuf) : Prop where
  expected_lt : b.expected < 2 ^ 64
  key : ∀ k c, b.pending.get k = some c → b.expected < k ∧ k < 2 ^ 64
  bytes : b.pendingBytes = Table.total (fun _ c => c.length) b.pending

/-- The chunk `c` at `expected` leaves the map. -/
def take (b : ReorderBuf) (c : Bytes) : ReorderBuf :=
  { b with
    pending := b.pending.del b.expected
    pendingBytes := b.pendingBytes - c.length }

/-- `expected` moves on. -/
def advance (b : ReorderBuf) : ReorderBuf := { b with expected := wrapSucc b.expected }

section Loop

variable {b b' : ReorderBuf} {r : ℕ} {c : Bytes}

theorem Inv.above (h : b.Inv) : b.Above := ⟨h.expected_lt, h.key, h.bytes⟩

theorem Above.advance (h : b.Above) : b.advance.AtHead where
  expected_lt := Nat.mod_lt _ (by norm_num)
  key := by
    intro k c hk
    obtain ⟨hlt, hk64⟩ := h.key k c hk
    have hw : wrapSucc b.expected = b.expected + 1 := Nat.mod_eq_of_lt (by omega)
    refine ⟨?_, hk64⟩
    show wrapSucc b.expected ≤ k
    omega
  bytes := h.bytes

theorem take_get_self : (b.take c).pending.get b.expected = none := Table.get_del_self _ _

theorem take_get_ne {k : ℕ} (hk : k ≠ b.expected) : (b.take c).pending.get k = b.pending.get k :=
  Table.get_del_ne _ hk

theorem AtHead.take (h : b.AtHead) (hl : b.pending.get b.expected = some c) : (b.take c).Above where
  expected_lt := h.expected_lt
  key := by
    intro k c' hk
    have hne : k ≠ b.expected := by
      rintro rfl
      rw [take_get_self] at hk
      cases hk
    rw [take_get_ne hne] at hk
    obtain ⟨hle, hlt⟩ := h.key k c' hk
    exact ⟨lt_of_le_of_ne hle (Ne.symm hne), hlt⟩
  bytes := by
    have htot := Table.total_del (fun _ c => c.length) b.pending b.expected
    rw [Table.weightAt_of_some hl] at htot
    have hb := h.bytes
    show b.pendingBytes - c.length = Table.total _ (b.pending.del b.expected)
    omega

theorem AtHead.took_zero (h : b.AtHead) (hn : b.pending.get b.expected = none) : b.Took 0 b where
  run := by omega
  stop := hn
  expected := (Nat.mod_eq_of_lt h.expected_lt).symm
  lookup := fun k => by rw [if_neg (by omega)]
  bytes := h.bytes
  size_le := le_rfl
  bytes_le := le_rfl
  maxBytes := rfl
  maxEntries := rfl

/-- A run above the last seq of all would need a buffered seq out of the `u64` range. -/
theorem Took.wrap (h : b.Above) (ht : b.advance.Took r b') :
    wrapSucc b.expected = b.expected + 1 ∨ r = 0 ∧ b.expected + 1 = 2 ^ 64 := by
  have hlt := h.expected_lt
  rcases Nat.lt_or_ge (b.expected + 1) (2 ^ 64) with hlt' | hge
  · exact .inl (Nat.mod_eq_of_lt hlt')
  · refine .inr ⟨?_, by omega⟩
    by_contra hr
    obtain ⟨c, hc⟩ := Option.isSome_iff_exists.mp (ht.run b.advance.expected le_rfl (by omega))
    have hkey := h.key _ c hc
    have hlt₁ : b.advance.expected < 2 ^ 64 := h.advance.expected_lt
    omega

/-- The loop as its caller sees it. -/
theorem Took.drained (h : b.Above) (ht : b.advance.Took r b') : b.Drained r b' ∧
    List.range' b.advance.expected r = List.range' (b.expected + 1) r := by
  have hexp : b'.expected = (b.expected + r + 1) % 2 ^ 64 := by
    rw [ht.expected, Nat.add_right_comm]
    exact Nat.mod_add_mod _ _ _
  rcases ht.wrap h with hw | ⟨rfl, hlast⟩
  · have he : b.advance.expected = b.expected + 1 := hw
    obtain ⟨hrun, hstop, -, hlk, hby, hsz, hbl, hmb, hme⟩ := ht
    rw [he] at hrun hstop hlk
    refine ⟨⟨fun k h1 h2 => hrun k (by omega) (by omega), ?_, hexp, fun k => ?_, hby, hsz, hbl, hmb,
      hme⟩, by rw [he]⟩
    · rw [Nat.add_right_comm]
      exact hstop
    · rw [hlk k]
      exact if_congr (by omega) rfl rfl
  · refine ⟨⟨fun k h1 h2 => by omega, ?_, hexp, fun k => ?_, ht.bytes, ht.size_le, ht.bytes_le,
      ht.maxBytes, ht.maxEntries⟩, rfl⟩
    · cases hk : b.pending.get (b.expected + 0 + 1) with
      | none => rfl
      | some c =>
        have := h.key _ c hk
        omega
    · rw [ht.lookup k, if_neg (by omega), if_neg (by omega)]
      rfl

/-- One round more. -/
theorem Drained.took (hl : b.pending.get b.expected = some c) (hd : (b.take c).Drained r b') :
    b.Took (r + 1) b' where
  run := by
    intro k h1 h2
    by_cases hk : k = b.expected
    · simp [hk, hl]
    · rw [← take_get_ne hk]
      refine hd.run k ?_ ?_
      · show b.expected < k
        omega
      · show k ≤ b.expected + r
        omega
  stop := by
    rw [← take_get_ne (by omega)]
    exact hd.stop
  expected := hd.expected
  lookup := by
    intro k
    rw [hd.lookup k]
    show (if b.expected < k ∧ k ≤ b.expected + r then none else _) = _
    by_cases hk : k = b.expected
    · rw [if_neg (by omega), if_pos (by omega), hk, take_get_self]
    · rw [take_get_ne hk]
      exact if_congr (by omega) rfl rfl
  bytes := hd.bytes
  size_le := by
    have hsize := Table.size_del_of_some hl
    have hle : b'.pending.size ≤ (b.pending.del b.expected).size := hd.size_le
    omega
  bytes_le := hd.bytes_le.trans (Nat.sub_le _ _)
  maxBytes := hd.maxBytes
  maxEntries := hd.maxEntries

theorem map_chunk_take : (List.range' (b.expected + 1) r).map (b.take c).chunk =
    (List.range' (b.expected + 1) r).map b.chunk := by
  refine List.map_congr_left fun k hk => ?_
  have hle : b.expected + 1 ≤ k := (List.mem_range'_1.mp hk).1
  simp only [chunk, take_get_ne (show k ≠ b.expected by omega)]

end Loop

/-- The drain loop takes exactly the run of consecutive seqs that starts at `expected`. -/
theorem drain_spec (fuel : ℕ) (b : ReorderBuf) (ready : List Bytes) (hfuel : b.pending.size ≤ fuel)
    (h : b.AtHead) : ∃ r b', b.Took r b' ∧
      drain fuel b ready = (b', ready ++ (List.range' b.expected r).map b.chunk) := by
  induction fuel generalizing b ready with
  | zero =>
    have hnone : b.pending.get b.expected = none := by
      cases hk : b.pending.get b.expected with
      | none => rfl
      | some c =>
        have := Table.size_del_of_some hk
        omega
    exact ⟨0, b, h.took_zero hnone, by simp [drain]⟩
  | succ fuel ih =>
    cases hl : b.pending.get b.expected with
    | none => exact ⟨0, b, h.took_zero hl, by simp [drain, hl]⟩
    | some c =>
      have habove := h.take hl
      have hsize := Table.size_del_of_some hl
      obtain ⟨r, b', ht, hd⟩ := ih (b.take c).advance (ready ++ [c])
        (by show (b.pending.del b.expected).size ≤ fuel; omega) habove.advance
      obtain ⟨hdr, hrange⟩ := ht.drained habove
      refine ⟨r + 1, b', hdr.took hl, ?_⟩
      have hc : b.chunk b.expected = c := by simp [chunk, hl]
      calc drain (fuel + 1) b ready
          = drain fuel (b.take c).advance (ready ++ [c]) := by simp only [drain, hl]; rfl
        _ = (b', ready ++ [c] ++ (List.range' (b.expected + 1) r).map (b.take c).chunk) := by
          rw [hd, hrange]
          rfl
        _ = (b', ready ++ (List.range' b.expected (r + 1)).map b.chunk) := by
          rw [map_chunk_take, List.range'_succ, List.map_cons, hc, List.append_assoc,
            List.singleton_append]

/-! ## What a push can do -/

/-- The chunks made ready by the next expected frame: its payload and the run behind it. -/
def readyRun (b : ReorderBuf) (payload : Bytes) (r : ℕ) : List Bytes :=
  payload :: (List.range' (b.expected + 1) r).map b.chunk

@[simp] theorem length_readyRun (b : ReorderBuf) (payload : Bytes) (r : ℕ) :
    (b.readyRun payload r).length = r + 1 := by
  simp [readyRun]

theorem push_expected {b : ReorderBuf} (h : b.Inv) (payload : Bytes) :
    ∃ r b', b.push b.expected payload = (b', ⟨b.readyRun payload r, true, false⟩) ∧
      b.Drained r b' := by
  obtain ⟨r, b', ht, hd⟩ := drain_spec b.pending.size b.advance [payload] le_rfl h.above.advance
  obtain ⟨hdr, hrange⟩ := ht.drained h.above
  refine ⟨r, b', ?_, hdr⟩
  unfold push
  rw [if_neg (lt_irrefl _), if_pos rfl]
  show ((drain b.pending.size b.advance [payload]).1,
    PushResult.mk (drain b.pending.size b.advance [payload]).2 true false) = _
  rw [hd, hrange]
  rfl

/-- The room a push checks for: a free entry, and the payload within the byte budget. -/
def canBuffer (b : ReorderBuf) (payload : Bytes) : Prop :=
  b.pending.size < b.maxEntries ∧ b.pendingBytes + payload.length ≤ b.maxBytes

/-- `b` with an out-of-order chunk buffered. -/
def buffered (b : ReorderBuf) (seq : ℕ) (payload : Bytes) : ReorderBuf :=
  { b with
    pendingBytes := b.pendingBytes + payload.length
    pending := b.pending.put seq payload }

/-- A push that is not accepted changes nothing. -/
theorem push_refused {b : ReorderBuf} {seq : ℕ} {payload : Bytes}
    (h : (b.push seq payload).2.accepted = false) : (b.push seq payload).1 = b := by
  unfold push at h ⊢
  by_cases hlt : seq < b.expected
  · rw [if_pos hlt]
  · rw [if_neg hlt] at h ⊢
    by_cases heq : seq = b.expected
    · rw [if_pos heq] at h
      cases h
    · rw [if_neg heq] at h ⊢
      dsimp only at h ⊢
      split at h
      · split_ifs at h ⊢
        rfl
      · rfl

/-- Everything a push can do: drop a duplicate, deliver a run, buffer, or report overflow. -/
theorem push_cases {b : ReorderBuf} (h : b.Inv) (seq : ℕ) (payload : Bytes) :
    ((seq < b.expected ∨ b.expected < seq ∧ (b.pending.get seq).isSome) ∧
      b.push seq payload = (b, ⟨[], false, false⟩)) ∨
    (seq = b.expected ∧ ∃ r b', b.Drained r b' ∧
      b.push seq payload = (b', ⟨b.readyRun payload r, true, false⟩)) ∨
    (b.expected < seq ∧ b.pending.get seq = none ∧ b.canBuffer payload ∧
      b.push seq payload = (b.buffered seq payload, ⟨[], true, false⟩)) ∨
    (b.expected < seq ∧ b.pending.get seq = none ∧ ¬ b.canBuffer payload ∧
      b.push seq payload = (b, ⟨[], false, true⟩)) := by
  rcases lt_trichotomy seq b.expected with hlt | rfl | hgt
  · exact .inl ⟨.inl hlt, by unfold push; rw [if_pos hlt]⟩
  · obtain ⟨r, b', hp, hd⟩ := push_expected h payload
    exact .inr (.inl ⟨rfl, r, b', hd, hp⟩)
  · have hpush : b.push seq payload =
        match b.pending.get seq with
        | none =>
          if b.pending.size < b.maxEntries ∧ b.pendingBytes + payload.length ≤ b.maxBytes then
            (b.buffered seq payload, ⟨[], true, false⟩)
          else (b, ⟨[], false, true⟩)
        | some _ => (b, ⟨[], false, false⟩) := by
      unfold push
      rw [if_neg (by omega), if_neg (by omega)]
      rfl
    cases hs : b.pending.get seq with
    | some c => exact .inl ⟨.inr ⟨hgt, rfl⟩, by rw [hpush, hs]⟩
    | none =>
      by_cases hc : b.canBuffer payload
      · refine .inr (.inr (.inl ⟨hgt, rfl, hc, ?_⟩))
        rw [hpush, hs]
        exact if_pos hc
      · refine .inr (.inr (.inr ⟨hgt, rfl, hc, ?_⟩))
        rw [hpush, hs]
        exact if_neg hc

theorem Drained.inv {b b' : ReorderBuf} {r : ℕ} (h : b.Inv) (hd : b.Drained r b') : b'.Inv where
  expected_lt := by rw [hd.expected]; exact Nat.mod_lt _ (by norm_num)
  key := by
    intro k c hk
    rw [hd.lookup k] at hk
    split_ifs at hk with hr
    have hkey := h.key k c hk
    have hne : k ≠ b.expected + r + 1 := by
      rintro rfl
      rw [hd.stop] at hk
      cases hk
    have hmod : b'.expected = b.expected + r + 1 := by
      rw [hd.expected, Nat.mod_eq_of_lt (by omega)]
    omega
  bytes := hd.bytes
  entries := by
    rw [hd.maxEntries]
    exact hd.size_le.trans h.entries
  budget := by
    rw [hd.maxBytes]
    exact hd.bytes_le.trans h.budget

theorem buffered_inv {b : ReorderBuf} (h : b.Inv) {seq : ℕ} {payload : Bytes}
    (hgt : b.expected < seq) (hseq : seq < 2 ^ 64) (hs : b.pending.get seq = none)
    (hc : b.canBuffer payload) : (b.buffered seq payload).Inv where
  expected_lt := h.expected_lt
  key := by
    intro k c hk
    by_cases hke : k = seq
    · subst hke
      exact ⟨hgt, hseq⟩
    · rw [buffered, Table.get_put_ne _ _ hke] at hk
      exact h.key k c hk
  bytes := by
    have ht := Table.total_put (fun _ c => c.length) b.pending seq payload
    rw [Table.weightAt_of_none hs] at ht
    simp only [buffered]
    rw [h.bytes]
    omega
  entries := by
    simp only [buffered]
    rw [Table.size_put_of_none hs]
    exact hc.1
  budget := hc.2

theorem push_inv {b : ReorderBuf} (h : b.Inv) {seq : ℕ} (hseq : seq < 2 ^ 64) (payload : Bytes) :
    (b.push seq payload).1.Inv := by
  rcases push_cases h seq payload with
    ⟨-, hp⟩ | ⟨-, r, b', hd, hp⟩ | ⟨hgt, hs, hc, hp⟩ | ⟨-, -, -, hp⟩
  · rw [hp]; exact h
  · rw [hp]; exact hd.inv h
  · rw [hp]; exact buffered_inv h hgt hseq hs hc
  · rw [hp]; exact h

/-- The last seq of the `u64` range is not buffered, so a push cannot wrap `expected` around. -/
structure Unwrapped (b : ReorderBuf) : Prop extends b.Inv where
  last : ∀ k c, b.pending.get k = some c → k + 1 < 2 ^ 64

theorem Drained.expected_eq {b b' : ReorderBuf} {r : ℕ} (hd : b.Drained r b') (h : b.Unwrapped)
    (hseq : b.expected + 1 < 2 ^ 64) : b'.expected = b.expected + r + 1 := by
  have hlt : b.expected + r + 1 < 2 ^ 64 := by
    rcases Nat.eq_zero_or_pos r with rfl | hr
    · exact hseq
    · obtain ⟨c, hk⟩ := Option.isSome_iff_exists.mp (hd.run (b.expected + r) (by omega) le_rfl)
      exact h.last _ c hk
  rw [hd.expected, Nat.mod_eq_of_lt hlt]

theorem push_unwrapped {b : ReorderBuf} (h : b.Unwrapped) {seq : ℕ} (hseq : seq + 1 < 2 ^ 64)
    (payload : Bytes) :
    (b.push seq payload).1.Unwrapped ∧ b.expected ≤ (b.push seq payload).1.expected := by
  have hinv := push_inv h.toInv (Nat.lt_of_succ_lt hseq) payload
  rcases push_cases h.toInv seq payload with
    ⟨-, hp⟩ | ⟨rfl, r, b', hd, hp⟩ | ⟨hgt, hs, hc, hp⟩ | ⟨-, -, -, hp⟩
  · rw [hp]
    exact ⟨h, le_rfl⟩
  · rw [hp] at hinv ⊢
    refine ⟨⟨hinv, fun k c hk => ?_⟩, ?_⟩
    · rw [hd.lookup k] at hk
      split_ifs at hk with hr
      exact h.last k c hk
    · rw [hd.expected_eq h hseq]
      omega
  · rw [hp] at hinv ⊢
    refine ⟨⟨hinv, fun k c hk => ?_⟩, le_rfl⟩
    by_cases hks : k = seq
    · rw [hks]
      exact hseq
    · rw [buffered, Table.get_put_ne _ _ hks] at hk
      exact h.last k c hk
  · rw [hp]
    exact ⟨h, le_rfl⟩

end ReorderBuf

end RoundRobin
