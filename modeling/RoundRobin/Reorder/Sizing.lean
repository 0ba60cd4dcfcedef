import RoundRobin.Reorder
import RoundRobin.Tunnel.Drain

/-!
# RoundRobin.Reorder.Sizing — the documented size of the reorder window

The README asks for `reorder_window_bytes` of at least tunnels × 128 × chunk size, the frames that `T` full
tunnel queues hold.  That covers the byte budget (`Near.bytes_le`).  The entry cap is
`max_bytes / MAX_PAYLOAD` with a floor of 512, whatever the chunk size, so chunks smaller than
`MAX_PAYLOAD` can use it up first: `sizing_rule` says for which sizes they cannot.
-/

namespace RoundRobin

namespace ReorderBuf

/-! ## Pushes up to the first overflow -/

/-- Push frames in the order they arrive; `none` once a push reports overflow. -/
def pushAll (b : ReorderBuf) : List (UInt64 × Bytes) → Option ReorderBuf
  | [] => some b
  | a :: as =>
    let p := b.push a.1.toNat a.2
    if p.2.overflow then none else p.1.pushAll as

theorem pushAll_inv {b b' : ReorderBuf} {as : List (UInt64 × Bytes)} (h : b.Inv)
    (hp : b.pushAll as = some b') : b'.Inv := by
  induction as generalizing b with
  | nil =>
    obtain rfl := Option.some.inj hp
    exact h
  | cons a as ih =>
    simp only [pushAll] at hp
    split_ifs at hp
    exact ih (push_inv h a.1.toNat_lt a.2) hp

theorem pushAll_append (b : ReorderBuf) (as as' : List (UInt64 × Bytes)) :
    b.pushAll (as ++ as') = (b.pushAll as).bind fun b' => b'.pushAll as' := by
  induction as generalizing b with
  | nil => rfl
  | cons a as ih =>
    simp only [List.cons_append, pushAll]
    split_ifs
    · rfl
    · exact ih _

/-! ## Bounded skew -/

/-- Every push is less than `skew` above `expected` at that time, with at most `chunk` bytes. -/
inductive Skewed (skew chunk : ℕ) : ReorderBuf → List (UInt64 × Bytes) → Prop where
  | nil (b : ReorderBuf) : Skewed skew chunk b []
  | cons {b : ReorderBuf} {a : UInt64 × Bytes} {as : List (UInt64 × Bytes)} :
      a.1.toNat < b.expected + skew → a.2.length ≤ chunk →
      Skewed skew chunk (b.push a.1.toNat a.2).1 as → Skewed skew chunk b (a :: as)

/-- Everything buffered lies less than `skew` above `expected`, in chunks of at most `chunk` bytes. -/
structure Near (skew chunk : ℕ) (b : ReorderBuf) : Prop extends b.Inv where
  near : ∀ k c, b.pending.get k = some c → k < b.expected + skew
  small : ∀ k c, b.pending.get k = some c → c.length ≤ chunk

section Near

variable {skew chunk : ℕ} {b : ReorderBuf}

theorem withLimit_near (window : ℕ) : Near skew chunk (withLimit window) where
  toInv := withLimit_inv window
  near := by simp [withLimit]
  small := by simp [withLimit]

/-- A run that reaches the end of the `u64` range leaves nothing behind; any other moves on. -/
theorem Near.drained (h : b.Near skew chunk) {r : ℕ} {b' : ReorderBuf} (hd : b.Drained r b') :
    b'.Near skew chunk := by
  have hold : ∀ k c, b'.pending.get k = some c → b.pending.get k = some c ∧ b.expected + r < k := by
    intro k c hk
    rw [hd.lookup k] at hk
    split_ifs at hk with hr
    have hlt := (h.key k c hk).1
    exact ⟨hk, by omega⟩
  refine ⟨hd.inv h.toInv, fun k c hk => ?_, fun k c hk => h.small k c (hold k c hk).1⟩
  obtain ⟨hk', hlt⟩ := hold k c hk
  have hnear := h.near k c hk'
  have hk64 := (h.key k c hk').2
  rw [hd.expected, Nat.mod_eq_of_lt (by omega)]
  omega

theorem Near.buffered (h : b.Near skew chunk) {seq : ℕ} {payload : Bytes} (hgt : b.expected < seq)
    (hseq : seq < 2 ^ 64) (hs : b.pending.get seq = none) (hc : b.canBuffer payload)
    (hskew : seq < b.expected + skew) (hlen : payload.length ≤ chunk) :
    (b.buffered seq payload).Near skew chunk := by
  refine ⟨buffered_inv h.toInv hgt hseq hs hc, fun k c hk => ?_, fun k c hk => ?_⟩
  · by_cases hks : k = seq
    · rw [hks]
      exact hskew
    · exact h.near k c (by rwa [ReorderBuf.buffered, Table.get_put_ne _ _ hks] at hk)
  · by_cases hks : k = seq
    · subst hks
      obtain rfl : payload = c := by simpa [ReorderBuf.buffered] using hk
      exact hlen
    · exact h.small k c (by rwa [ReorderBuf.buffered, Table.get_put_ne _ _ hks] at hk)

/-- A seq that is not buffered yet leaves room for itself among the `skew - 1` seqs above
`expected`. -/
theorem Near.size_lt (h : b.Near skew chunk) {seq : ℕ} (hgt : b.expected < seq)
    (hskew : seq < b.expected + skew) (hs : b.pending.get seq = none) :
    b.pending.size + 1 < skew := by
  have hle : (b.pending.put seq []).size ≤ skew - 1 := by
    refine Table.size_le_of_keys (b.expected + 1) fun k c hk => ?_
    by_cases hks : k = seq
    · omega
    · rw [Table.get_put_ne _ _ hks] at hk
      have hlt := (h.key k c hk).1
      have hnear := h.near k c hk
      omega
  rw [Table.size_put_of_none hs] at hle
  omega

theorem Near.bytes_le (h : b.Near skew chunk) : b.pendingBytes ≤ b.pending.size * chunk := by
  rw [h.bytes]
  exact Table.total_le fun k c hk => h.small k c hk

/-- Within the skew, a push finds room if the caps hold `skew - 1` chunks. -/
theorem Near.push (h : b.Near skew chunk) (hbytes : (skew - 1) * chunk ≤ b.maxBytes)
    (hentries : skew ≤ b.maxEntries + 1) {seq : ℕ} {payload : Bytes} (hseq : seq < 2 ^ 64)
    (hskew : seq < b.expected + skew) (hlen : payload.length ≤ chunk) :
    (b.push seq payload).2.overflow = false ∧ (b.push seq payload).1.Near skew chunk ∧
      (b.push seq payload).1.maxBytes = b.maxBytes ∧
      (b.push seq payload).1.maxEntries = b.maxEntries := by
  rcases push_cases h.toInv seq payload with
    ⟨-, hp⟩ | ⟨-, r, b', hd, hp⟩ | ⟨hgt, hs, hc, hp⟩ | ⟨hgt, hs, hc, hp⟩
  · rw [hp]
    exact ⟨rfl, h, rfl, rfl⟩
  · rw [hp]
    exact ⟨rfl, h.drained hd, hd.maxBytes, hd.maxEntries⟩
  · rw [hp]
    exact ⟨rfl, h.buffered hgt hseq hs hc hskew hlen, rfl, rfl⟩
  · refine absurd ⟨?_, ?_⟩ hc
    · have := h.size_lt hgt hskew hs
      omega
    · have hsize := h.size_lt hgt hskew hs
      calc b.pendingBytes + payload.length
          ≤ b.pending.size * chunk + chunk := Nat.add_le_add h.bytes_le hlen
        _ = (b.pending.size + 1) * chunk := by ring
        _ ≤ (skew - 1) * chunk := Nat.mul_le_mul_right _ (by omega)
        _ ≤ b.maxBytes := hbytes

theorem Near.pushAll (h : b.Near skew chunk) (hbytes : (skew - 1) * chunk ≤ b.maxBytes)
    (hentries : skew ≤ b.maxEntries + 1) {as : List (UInt64 × Bytes)} (has : Skewed skew chunk b as) :
    (b.pushAll as).isSome := by
  induction has with
  | nil b => rfl
  | cons hskew hlen _ ih =>
    obtain ⟨hno, hnear, hmb, hme⟩ := h.push hbytes hentries (UInt64.toNat_lt _) hskew hlen
    simp only [ReorderBuf.pushAll, hno]
    exact ih hnear (by rwa [hmb]) (by rwa [hme])

end Near

/-! ## Using up the entry cap -/

/-- `n` one-byte chunks right behind seq 1. -/
def behindFirst (n : ℕ) : List (UInt64 × Bytes) :=
  (List.range n).map fun i => (UInt64.ofNat (i + 2), [0])

theorem behindFirst_succ (n : ℕ) :
    behindFirst (n + 1) = behindFirst n ++ [(UInt64.ofNat (n + 2), [0])] := by
  simp [behindFirst, List.range_succ]

/-- They are all buffered while both caps allow. -/
theorem pushAll_behindFirst {window n : ℕ} (hn : n ≤ (withLimit window).maxEntries) (hw : n ≤ window)
    (h64 : n + 1 < 2 ^ 64) :
    ∃ b, (withLimit window).pushAll (behindFirst n) = some b ∧ b.expected = 1 ∧
      (∀ k, (b.pending.get k).isSome ↔ 2 ≤ k ∧ k < n + 2) ∧ b.pending.size = n ∧
      b.pendingBytes = n ∧ b.maxBytes = window ∧ b.maxEntries = (withLimit window).maxEntries := by
  induction n with
  | zero =>
    refine ⟨withLimit window, rfl, rfl, fun k => ?_, rfl, rfl, rfl, rfl⟩
    simp only [withLimit, Table.get_empty, Option.isSome_none, Bool.false_eq_true, false_iff]
    omega
  | succ n ih =>
    obtain ⟨b, hb, hexp, hget, hsize, hbytes, hmb, hme⟩ := ih (by omega) (by omega) (by omega)
    have hseq : (UInt64.ofNat (n + 2)).toNat = n + 2 := by
      rw [UInt64.toNat_ofNat']
      exact Nat.mod_eq_of_lt (by omega)
    have hnone : b.pending.get (n + 2) = none := by
      rw [← Option.not_isSome_iff_eq_none, hget]
      omega
    have hpush : b.push (n + 2) [0] = (b.buffered (n + 2) [0], ⟨[], true, false⟩) := by
      unfold push
      rw [if_neg (by omega), if_neg (by omega)]
      simp only [hnone]
      rw [if_pos ⟨by omega, by simp only [List.length_singleton]; omega⟩]
      rfl
    refine ⟨b.buffered (n + 2) [0], ?_, hexp, fun k => ?_, ?_, ?_, hmb, hme⟩
    · rw [behindFirst_succ, pushAll_append, hb, Option.bind_some]
      simp only [pushAll, hseq, hpush]
      rfl
    · simp only [buffered, Table.get_put]
      split_ifs with hk
      · simp only [Option.isSome_some, true_iff]
        omega
      · rw [hget]
        omega
    · rw [buffered, Table.size_put_of_none hnone, hsize]
    · simp [buffered, hbytes]

theorem skewed_append {b b' : ReorderBuf} {skew chunk : ℕ} {as as' : List (UInt64 × Bytes)}
    (h : Skewed skew chunk b as) (hb : b.pushAll as = some b') (h' : Skewed skew chunk b' as') :
    Skewed skew chunk b (as ++ as') := by
  induction h with
  | nil b =>
    obtain rfl := Option.some.inj hb
    exact h'
  | cons hskew hlen _ ih =>
    simp only [pushAll] at hb
    split_ifs at hb
    exact .cons hskew hlen (ih hb)

/-- The seqs behind the first are within a skew that reaches the last of them. -/
theorem skewed_behindFirst {window n skew chunk : ℕ} (hn : n ≤ (withLimit window).maxEntries + 1)
    (hw : n ≤ window + 1) (h64 : n + 1 < 2 ^ 64) (hskew : n < skew) (hchunk : 1 ≤ chunk) :
    Skewed skew chunk (withLimit window) (behindFirst n) := by
  induction n with
  | zero => exact .nil _
  | succ n ih =>
    obtain ⟨b, hb, hexp, -⟩ := pushAll_behindFirst (show n ≤ (withLimit window).maxEntries by omega)
      (show n ≤ window by omega) (by omega)
    rw [behindFirst_succ]
    refine skewed_append (ih (by omega) (by omega) (by omega) (by omega)) hb (.cons ?_ hchunk (.nil _))
    rw [UInt64.toNat_ofNat', Nat.mod_eq_of_lt (by omega), hexp]
    omega

/-- One chunk more than the entry cap overflows, however small. -/
theorem overflow_behindFirst {window n : ℕ} (hn : n = (withLimit window).maxEntries) (hw : n ≤ window)
    (h64 : n + 2 < 2 ^ 64) : (withLimit window).pushAll (behindFirst (n + 1)) = none := by
  obtain ⟨b, hb, hexp, hget, hsize, -, -, hme⟩ := pushAll_behindFirst hn.le hw (by omega)
  have hseq : (UInt64.ofNat (n + 2)).toNat = n + 2 := by
    rw [UInt64.toNat_ofNat', Nat.mod_eq_of_lt (by omega)]
  have hnone : b.pending.get (n + 2) = none := by
    rw [← Option.not_isSome_iff_eq_none, hget]
    omega
  have hinv : b.Inv := pushAll_inv (withLimit_inv window) hb
  have hfull : (b.push (n + 2) [0]).2.overflow = true := by
    rcases push_cases hinv (n + 2) [0] with
      ⟨hdup, -⟩ | ⟨he, -⟩ | ⟨-, -, hc, -⟩ | ⟨-, -, -, hp⟩
    · rcases hdup with hlt | ⟨-, hs⟩
      · omega
      · rw [hnone] at hs
        cases hs
    · omega
    · have := hc.1
      omega
    · rw [hp]
  rw [behindFirst_succ, pushAll_append, hb, Option.bind_some]
  simp only [pushAll, hseq, hfull, if_true]

/-! ## The rule -/

open Tunnel (tunnelChannelCap)

/-- **When the documented size is enough.**  With a window of at least tunnels × 128 × chunk size, no
arrival order of the frames that many full tunnel queues hold overflows the window iff there are at most
four tunnels, or the window divided by the largest payload still counts all those frames but one. -/
theorem sizing_rule {tunnels chunk window : ℕ} (hmin : minChunk ≤ chunk)
    (hwin : window ≤ 1024 * 1024 * 1024) (hrule : tunnels * tunnelChannelCap * chunk ≤ window) :
    (∀ as, Skewed (tunnels * tunnelChannelCap) chunk (withLimit window) as →
      ((withLimit window).pushAll as).isSome) ↔
    tunnels ≤ 4 ∨ tunnels * tunnelChannelCap ≤ window / maxPayload + 1 := by
  simp only [minChunk, tunnelChannelCap] at hmin hrule ⊢
  have hcap : (withLimit window).maxEntries = max (window / maxPayload) 512 := rfl
  constructor
  · intro h
    by_contra hno
    obtain ⟨n, hn⟩ : ∃ n, n = (withLimit window).maxEntries := ⟨_, rfl⟩
    have hlt : n + 1 < tunnels * 128 := by
      rw [hn, hcap]
      omega
    have hle : tunnels * 128 ≤ tunnels * 128 * chunk := Nat.le_mul_of_pos_right _ (by omega)
    have hsome := h (behindFirst (n + 1)) (skewed_behindFirst (by omega) (by omega) (by omega) hlt
      (by omega))
    rw [overflow_behindFirst hn (by omega) (by omega)] at hsome
    cases hsome
  · intro hcond as has
    refine (withLimit_near window).pushAll ?_ ?_ has
    · calc (tunnels * 128 - 1) * chunk ≤ tunnels * 128 * chunk := Nat.mul_le_mul_right _ (by omega)
        _ ≤ window := hrule
    · rw [hcap]
      omega

/-- Four tunnels with the smallest chunks, or eight with the largest. -/
theorem sizing_rule_four_tunnels :
    (∀ as, Skewed 512 512 (withLimit 262144) as → ((withLimit 262144).pushAll as).isSome) ∧
    ∀ as, Skewed 1024 65535 (withLimit 67107840) as → ((withLimit 67107840).pushAll as).isSome :=
  ⟨(@sizing_rule 4 512 262144 (by decide) (by decide) (by decide)).mpr (.inl le_rfl),
    (@sizing_rule 8 65535 67107840 (by decide) (by decide) (by decide)).mpr (.inr (by decide))⟩

/-- **The rule is not enough.**  Five tunnels, chunks of 512 bytes, the window the README asks for: seqs
2 to 513 are buffered, and seq 514, still within the frames in flight, overflows. -/
theorem sizing_rule_overflows :
    5 * tunnelChannelCap * 512 ≤ 327680 ∧ 327680 ≤ 1024 * 1024 * 1024 ∧
    Skewed (5 * tunnelChannelCap) 512 (withLimit 327680) (behindFirst 513) ∧
    (withLimit 327680).pushAll (behindFirst 513) = none := by
  have hcap : (withLimit 327680).maxEntries = 512 := by
    simp [withLimit, maxPayload, maxReorderWindow]
  refine ⟨by decide, by decide, ?_, ?_⟩
  · exact @skewed_behindFirst 327680 513 _ 512 (by omega) (by omega) (by omega) (by decide) (by omega)
  · exact @overflow_behindFirst 327680 512 hcap.symm (by omega) (by omega)

end ReorderBuf

end RoundRobin
