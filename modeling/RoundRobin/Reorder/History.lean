import Mathlib.Order.Bounds.Basic
import RoundRobin.Reorder

/-!
# RoundRobin.Reorder.History — the reorder buffer against the history of its pushes

What a buffer holds and what it has released is determined by the pushes it accepted: `Mirrors acc out b`
says that `out`, `expected` and `pending` are read off the first accepted payload of every seq.  A push
keeps it (`Mirrors.push`), so every history does (`mirrors_pushes`), and two histories that accepted the
same payloads end in the same buffer with the same output (`Mirrors.unique`).
-/

namespace RoundRobin

namespace ReorderBuf

/-- Push frames one after the other, whatever their results. -/
def pushes (b : ReorderBuf) : List (ℕ × Bytes) → ReorderBuf × List PushResult
  | [] => (b, [])
  | a :: as =>
    let p := b.push a.1 a.2
    let r := p.1.pushes as
    (r.1, p.2 :: r.2)

/-- All chunks made ready, in order. -/
def output (rs : List PushResult) : List Bytes := rs.flatMap (·.ready)

/-- The pushes that were accepted, oldest first; `List.lookup` finds the first payload of a seq. -/
def acceptedOf (as : List (ℕ × Bytes)) (rs : List PushResult) : List (ℕ × Bytes) :=
  ((as.zip rs).filter (·.2.accepted)).map Prod.fst

/-- `b` and what it released, read off the accepted pushes. -/
structure Mirrors (acc : List (ℕ × Bytes)) (out : List Bytes) (b : ReorderBuf) : Prop where
  unwrapped : b.Unwrapped
  pos : 1 ≤ b.expected
  released : out.map some = (List.range' 1 (b.expected - 1)).map fun k => acc.lookup k
  next : acc.lookup b.expected = none
  waiting : ∀ k, b.expected < k → b.pending.get k = acc.lookup k

theorem lookup_concat (acc : List (ℕ × Bytes)) (seq : ℕ) (payload : Bytes) (k : ℕ) :
    (acc ++ [(seq, payload)]).lookup k =
      (acc.lookup k).or (if k = seq then some payload else none) := by
  rw [List.lookup_append]
  by_cases hk : k = seq
  · simp [hk]
  · have hb : (k == seq) = false := by simpa using hk
    simp [List.lookup_cons, hk, hb]

section Push

variable {acc : List (ℕ × Bytes)} {out : List Bytes} {b : ReorderBuf}

theorem withLimit_mirrors (limit : ℕ) : Mirrors [] [] (withLimit limit) where
  unwrapped := ⟨withLimit_inv limit, by simp [withLimit]⟩
  pos := le_rfl
  released := rfl
  next := rfl
  waiting := fun _ _ => rfl

/-- The chunks of a run behind the expected one are those of the history. -/
theorem Mirrors.readyRun (h : Mirrors acc out b) {r : ℕ} {b' : ReorderBuf} (hd : b.Drained r b')
    (payload : Bytes) : (b.readyRun payload r).map some =
      (List.range' b.expected (r + 1)).map fun k => (acc ++ [(b.expected, payload)]).lookup k := by
  rw [ReorderBuf.readyRun, List.range'_succ, List.map_cons, List.map_cons]
  congr 1
  · rw [lookup_concat, h.next]
    simp
  · rw [List.map_map]
    refine List.map_congr_left fun k hk => ?_
    obtain ⟨hlo, hhi⟩ := List.mem_range'_1.mp hk
    obtain ⟨c, hc⟩ := Option.isSome_iff_exists.mp (hd.run k (by omega) (by omega))
    have hacc : acc.lookup k = some c := by rw [← h.waiting k (by omega), hc]
    rw [lookup_concat, hacc]
    simp [chunk, hc]

theorem Mirrors.drained (h : Mirrors acc out b) (hseq : b.expected + 1 < 2 ^ 64) {payload : Bytes}
    {r : ℕ} {b' : ReorderBuf} (hd : b.Drained r b') (hu : b'.Unwrapped) :
    Mirrors (acc ++ [(b.expected, payload)]) (out ++ b.readyRun payload r) b' := by
  have hpos := h.pos
  have hexp : b'.expected = b.expected + r + 1 := hd.expected_eq h.unwrapped hseq
  have hold : ∀ k, k ≠ b.expected →
      (acc ++ [(b.expected, payload)]).lookup k = acc.lookup k := by
    intro k hk
    rw [lookup_concat, if_neg hk, Option.or_none]
  refine ⟨hu, by omega, ?_, ?_, ?_⟩
  · have hsplit : List.range' 1 (b'.expected - 1) =
        List.range' 1 (b.expected - 1) ++ List.range' b.expected (r + 1) := by
      rw [hexp, show b.expected + r + 1 - 1 = (b.expected - 1) + (r + 1) by omega,
        ← List.range'_append_1]
      congr 2
      omega
    rw [List.map_append, h.released, h.readyRun hd, hsplit, List.map_append]
    congr 1
    refine List.map_congr_left fun k hk => ?_
    have hlt := (List.mem_range'_1.mp hk).2
    exact (hold k (by omega)).symm
  · rw [hold _ (by omega), ← h.waiting _ (by omega), hexp]
    exact hd.stop
  · intro k hk
    rw [hd.lookup k, if_neg (by omega), hold k (by omega)]
    exact h.waiting k (by omega)

theorem Mirrors.buffered (h : Mirrors acc out b) {seq : ℕ} {payload : Bytes} (hgt : b.expected < seq)
    (hs : b.pending.get seq = none) (hu : (b.buffered seq payload).Unwrapped) :
    Mirrors (acc ++ [(seq, payload)]) out (b.buffered seq payload) := by
  have hnone : acc.lookup seq = none := by rw [← h.waiting seq hgt, hs]
  have hold : ∀ k, k ≠ seq → (acc ++ [(seq, payload)]).lookup k = acc.lookup k := by
    intro k hk
    rw [lookup_concat, if_neg hk, Option.or_none]
  refine ⟨hu, h.pos, ?_, ?_, ?_⟩
  · rw [h.released]
    refine List.map_congr_left fun k hk => ?_
    have hlt := (List.mem_range'_1.mp hk).2
    have hpos := h.pos
    exact (hold k (by omega)).symm
  · show (acc ++ [(seq, payload)]).lookup b.expected = none
    rw [hold _ (by omega)]
    exact h.next
  · intro k hk
    show (b.pending.put seq payload).get k = _
    by_cases hks : k = seq
    · rw [hks, Table.get_put_self, lookup_concat, hnone]
      simp
    · rw [Table.get_put_ne _ _ hks, hold k hks]
      exact h.waiting k hk

/-- **One push** extends the history by itself if it was accepted, and the output by what it released. -/
theorem Mirrors.push (h : Mirrors acc out b) {seq : ℕ} (hseq : seq + 1 < 2 ^ 64) (payload : Bytes) :
    Mirrors (acc ++ if (b.push seq payload).2.accepted then [(seq, payload)] else [])
      (out ++ (b.push seq payload).2.ready) (b.push seq payload).1 := by
  have hu := (push_unwrapped h.unwrapped hseq payload).1
  rcases push_cases h.unwrapped.toInv seq payload with
    ⟨-, hp⟩ | ⟨rfl, r, b', hd, hp⟩ | ⟨hgt, hs, -, hp⟩ | ⟨-, -, -, hp⟩
  · rw [hp]
    simpa using h
  · rw [hp] at hu ⊢
    exact h.drained hseq hd hu
  · rw [hp] at hu ⊢
    simpa using h.buffered hgt hs hu
  · rw [hp]
    simpa using h

end Push

theorem mirrors_pushes {acc : List (ℕ × Bytes)} {out : List Bytes} {b : ReorderBuf}
    (h : Mirrors acc out b) (as : List (ℕ × Bytes)) (hseq : ∀ a ∈ as, a.1 + 1 < 2 ^ 64) :
    Mirrors (acc ++ acceptedOf as (b.pushes as).2) (out ++ output (b.pushes as).2) (b.pushes as).1 := by
  induction as generalizing acc out b with
  | nil => simpa [pushes, acceptedOf, output] using h
  | cons a as ih =>
    have hstep := ih (h.push (hseq a (by simp)) a.2) fun a' ha' => hseq a' (by simp [ha'])
    have hacc : acceptedOf (a :: as) (b.pushes (a :: as)).2 =
        (if (b.push a.1 a.2).2.accepted then [a] else []) ++
          acceptedOf as ((b.push a.1 a.2).1.pushes as).2 := by
      simp only [pushes, acceptedOf, List.zip_cons_cons, List.filter_cons]
      split <;> simp
    rw [hacc, ← List.append_assoc]
    simpa [pushes, output] using hstep

/-! ## What the history determines -/

section Determined

variable {acc acc' : List (ℕ × Bytes)} {out out' : List Bytes} {b b' : ReorderBuf}

theorem Mirrors.length_out (h : Mirrors acc out b) : out.length = b.expected - 1 := by
  simpa using congrArg List.length h.released

theorem Mirrors.getElem_out (h : Mirrors acc out b) {k : ℕ} (h1 : 1 ≤ k) (hk : k < b.expected) :
    ∃ q, acc.lookup k = some q ∧ out[k - 1]? = some q := by
  have hlen := h.length_out
  have hget := congrArg (fun l => l[k - 1]?) h.released
  simp only [List.getElem?_map, List.getElem?_range' (show k - 1 < b.expected - 1 by omega),
    Option.map_some, show 1 + 1 * (k - 1) = k by omega] at hget
  rw [List.getElem?_eq_getElem (by omega)] at hget ⊢
  exact ⟨_, (Option.some.inj hget).symm, rfl⟩

/-- `expected` is the least seq not accepted yet. -/
theorem Mirrors.isLeast (h : Mirrors acc out b) :
    IsLeast {k | 1 ≤ k ∧ acc.lookup k = none} b.expected := by
  refine ⟨⟨h.pos, h.next⟩, ?_⟩
  rintro k ⟨h1, hk⟩
  by_contra hlt
  obtain ⟨q, hq, -⟩ := h.getElem_out h1 (by omega)
  rw [hk] at hq
  cases hq

theorem Mirrors.pending_iff (h : Mirrors acc out b) (k : ℕ) (q : Bytes) :
    b.pending.get k = some q ↔ b.expected < k ∧ acc.lookup k = some q := by
  constructor
  · intro hk
    have hlt := (h.unwrapped.key k q hk).1
    exact ⟨hlt, by rw [← h.waiting k hlt, hk]⟩
  · rintro ⟨hlt, hk⟩
    rw [h.waiting k hlt, hk]

theorem Mirrors.complete_iff (h : Mirrors acc out b) (s : ℕ) :
    b.isCompleteThrough s = true ↔
      ∀ k, 1 ≤ k → k < s → ∃ q, acc.lookup k = some q ∧ out[k - 1]? = some q := by
  unfold isCompleteThrough
  rw [decide_eq_true_iff]
  constructor
  · intro hs k h1 hk
    exact h.getElem_out h1 (by omega)
  · intro hall
    by_contra hlt
    obtain ⟨q, hq, -⟩ := hall b.expected h.pos (by omega)
    rw [h.next] at hq
    cases hq

/-- **Two buffers with the same history of first payloads** released the same and hold the same. -/
theorem Mirrors.unique (h : Mirrors acc out b) (h' : Mirrors acc' out' b')
    (hacc : ∀ k, 1 ≤ k → acc.lookup k = acc'.lookup k) :
    out = out' ∧ b.expected = b'.expected ∧ (∀ k, b.pending.get k = b'.pending.get k) ∧
      b.pendingBytes = b'.pendingBytes := by
  have hset : {k | 1 ≤ k ∧ acc.lookup k = none} = {k | 1 ≤ k ∧ acc'.lookup k = none} := by
    ext k
    refine and_congr_right fun h1 => ?_
    rw [hacc k h1]
  have hexp : b.expected = b'.expected := by
    have hleast := h.isLeast
    rw [hset] at hleast
    exact hleast.unique h'.isLeast
  have hget : ∀ k, b.pending.get k = b'.pending.get k := by
    intro k
    refine Option.ext fun q => ?_
    have hpos := h.pos
    rw [h.pending_iff, h'.pending_iff, hexp]
    refine and_congr_right fun hlt => ?_
    rw [hacc k (by omega)]
  refine ⟨?_, hexp, hget, ?_⟩
  · have hmap : out.map some = out'.map some := by
      rw [h.released, h'.released, hexp]
      refine List.map_congr_left fun k hk => ?_
      exact hacc k (List.mem_range'_1.mp hk).1
    exact List.map_injective_iff.mpr (Option.some_injective _) hmap
  · rw [h.unwrapped.bytes, h'.unwrapped.bytes]
    exact Table.total_congr hget _

end Determined

/-! ## Histories without overflow -/

/-- No push of the history reports overflow. -/
def NoOverflow (rs : List PushResult) : Prop := ∀ r ∈ rs, r.overflow = false

instance (rs : List PushResult) : Decidable (NoOverflow rs) :=
  inferInstanceAs (Decidable (∀ r ∈ rs, r.overflow = false))

/-- A push that is neither accepted nor an overflow repeats a seq of the history, or seq 0. -/
theorem Mirrors.duplicate {acc : List (ℕ × Bytes)} {out : List Bytes} {b : ReorderBuf}
    (h : Mirrors acc out b) {seq : ℕ} {payload : Bytes}
    (ha : (b.push seq payload).2.accepted = false) (ho : (b.push seq payload).2.overflow = false) :
    seq = 0 ∨ (acc.lookup seq).isSome := by
  rcases push_cases h.unwrapped.toInv seq payload with
    ⟨hdup, -⟩ | ⟨-, r, b', -, hp⟩ | ⟨-, -, -, hp⟩ | ⟨-, -, -, hp⟩
  · rcases hdup with hlt | ⟨hgt, hs⟩
    · rcases Nat.eq_zero_or_pos seq with h0 | hpos
      · exact .inl h0
      · obtain ⟨q, hq, -⟩ := h.getElem_out hpos hlt
        exact .inr (by simp [hq])
    · rw [h.waiting seq hgt] at hs
      exact .inr hs
  · rw [hp] at ha
    cases ha
  · rw [hp] at ha
    cases ha
  · rw [hp] at ho
    cases ho

/-- Without overflow, the first accepted payload of a seq is the first one pushed. -/
theorem lookup_acceptedOf {acc : List (ℕ × Bytes)} {out : List Bytes} {b : ReorderBuf}
    (h : Mirrors acc out b) {as : List (ℕ × Bytes)} (hseq : ∀ a ∈ as, a.1 + 1 < 2 ^ 64)
    (hno : NoOverflow (b.pushes as).2) {k : ℕ} (hk : 1 ≤ k) :
    (acc ++ acceptedOf as (b.pushes as).2).lookup k = (acc ++ as).lookup k := by
  induction as generalizing acc out b with
  | nil => simp [pushes, acceptedOf]
  | cons a as ih =>
    have hstep := h.push (hseq a (by simp)) a.2
    have hrest := ih hstep (fun a' ha' => hseq a' (by simp [ha'])) fun r hr => hno r (by simp [pushes, hr])
    have ho : (b.push a.1 a.2).2.overflow = false := hno _ (by simp [pushes])
    cases ha : (b.push a.1 a.2).2.accepted with
    | true =>
      simp only [ha, if_true] at hrest
      simpa [pushes, acceptedOf, ha] using hrest
    | false =>
      simp only [ha] at hrest
      have hacc : acceptedOf (a :: as) (b.pushes (a :: as)).2 =
          acceptedOf as ((b.push a.1 a.2).1.pushes as).2 := by
        simp [pushes, acceptedOf, ha]
      rw [hacc]
      simp only [Bool.false_eq_true, if_false, List.append_nil] at hrest
      rw [hrest, List.lookup_append, List.lookup_append, List.lookup_cons]
      -- a repeated seq is found in the history before
      by_cases hka : k = a.1
      · subst hka
        obtain ⟨q, hq⟩ := Option.isSome_iff_exists.mp ((h.duplicate ha ho).resolve_left (by omega))
        simp [hq]
      · have hb : (k == a.1) = false := by simpa using hka
        rw [hb]

/-- Frames with equal seqs carry equal payloads. -/
def Consistent (as : List (ℕ × Bytes)) : Prop := ∀ a ∈ as, ∀ a' ∈ as, a.1 = a'.1 → a.2 = a'.2

instance (as : List (ℕ × Bytes)) : Decidable (Consistent as) :=
  inferInstanceAs (Decidable (∀ a ∈ as, ∀ a' ∈ as, a.1 = a'.1 → a.2 = a'.2))

theorem lookup_some_iff {as : List (ℕ × Bytes)} (hc : Consistent as) (k : ℕ) (q : Bytes) :
    as.lookup k = some q ↔ (k, q) ∈ as := by
  constructor
  · intro h
    obtain ⟨l, r, rfl, -⟩ := List.lookup_eq_some_iff.mp h
    simp
  · intro h
    obtain ⟨q', hq'⟩ : ∃ q', as.lookup k = some q' := by
      cases hl : as.lookup k with
      | some q' => exact ⟨q', rfl⟩
      | none =>
        have := List.lookup_eq_none_iff.mp hl (k, q) h
        simp at this
    obtain ⟨l, r, rfl, -⟩ := List.lookup_eq_some_iff.mp hq'
    have hqq : q = q' := hc (k, q) h (k, q') (by simp) rfl
    rw [hq', hqq]

theorem lookup_perm {as as' : List (ℕ × Bytes)} (hp : as.Perm as') (hc : Consistent as) (k : ℕ) :
    as.lookup k = as'.lookup k := by
  have hc' : Consistent as' := fun a ha a' ha' =>
    hc a (hp.mem_iff.mpr ha) a' (hp.mem_iff.mpr ha')
  refine Option.ext fun q => ?_
  rw [lookup_some_iff hc, lookup_some_iff hc', hp.mem_iff]

/-! ## The buffer as a whole -/

theorem lookup_eq_none_iff_forall {acc : List (ℕ × Bytes)} {k : ℕ} :
    acc.lookup k = none ↔ ∀ q, (k, q) ∉ acc := by
  rw [List.lookup_eq_none_iff]
  constructor
  · intro h q hq
    simpa using h (k, q) hq
  · rintro h ⟨k', q⟩ ha
    simp only [bne_iff_ne, ne_eq]
    rintro rfl
    exact h q ha

theorem push_limits {b : ReorderBuf} (h : b.Inv) (seq : ℕ) (payload : Bytes) :
    (b.push seq payload).1.maxBytes = b.maxBytes ∧ (b.push seq payload).1.maxEntries = b.maxEntries := by
  rcases push_cases h seq payload with ⟨-, hp⟩ | ⟨-, r, b', hd, hp⟩ | ⟨-, -, -, hp⟩ | ⟨-, -, -, hp⟩
  · rw [hp]
    exact ⟨rfl, rfl⟩
  · rw [hp]
    exact ⟨hd.maxBytes, hd.maxEntries⟩
  · rw [hp]
    exact ⟨rfl, rfl⟩
  · rw [hp]
    exact ⟨rfl, rfl⟩

theorem pushes_limits {b : ReorderBuf} (h : b.Unwrapped) {as : List (ℕ × Bytes)}
    (hseq : ∀ a ∈ as, a.1 + 1 < 2 ^ 64) :
    (b.pushes as).1.maxBytes = b.maxBytes ∧ (b.pushes as).1.maxEntries = b.maxEntries := by
  induction as generalizing b with
  | nil => exact ⟨rfl, rfl⟩
  | cons a as ih =>
    obtain ⟨hb, he⟩ := push_limits h.toInv a.1 a.2
    obtain ⟨hb', he'⟩ := ih (push_unwrapped h (hseq a (by simp)) a.2).1
      fun a' ha' => hseq a' (by simp [ha'])
    exact ⟨hb'.trans hb, he'.trans he⟩

/-- A push that is not accepted changes nothing; overflow means no room for a new seq above
`expected`. -/
theorem push_rejected {b : ReorderBuf} (h : b.Inv) (seq : ℕ) (payload : Bytes) :
    ((b.push seq payload).2.accepted = false →
      (b.push seq payload).1 = b ∧ (b.push seq payload).2.ready = []) ∧
    ((b.push seq payload).2.overflow = true ↔ b.expected < seq ∧ b.pending.get seq = none ∧
      (b.maxEntries < b.pending.size + 1 ∨ b.maxBytes < b.pendingBytes + payload.length)) := by
  rcases push_cases h seq payload with
    ⟨hdup, hp⟩ | ⟨rfl, r, b', hd, hp⟩ | ⟨hgt, hs, hc, hp⟩ | ⟨hgt, hs, hc, hp⟩
  · rw [hp]
    refine ⟨fun _ => ⟨rfl, rfl⟩, ⟨nofun, ?_⟩⟩
    rintro ⟨hgt, hs, -⟩
    rcases hdup with hlt | ⟨-, hsome⟩
    · omega
    · rw [hs] at hsome
      cases hsome
  · rw [hp]
    refine ⟨nofun, ⟨nofun, ?_⟩⟩
    rintro ⟨hgt, -, -⟩
    omega
  · rw [hp]
    refine ⟨nofun, ⟨nofun, ?_⟩⟩
    rintro ⟨-, -, hfull⟩
    obtain ⟨hentries, hbytes⟩ := hc
    omega
  · rw [hp]
    refine ⟨fun _ => ⟨rfl, rfl⟩, ⟨fun _ => ⟨hgt, hs, ?_⟩, fun _ => rfl⟩⟩
    unfold canBuffer at hc
    omega

/-- **The buffer is in order and exactly once.**  Whatever is pushed in whatever order, with whatever
repetitions: the output is the first accepted payload of seq 1, 2, .. up to `expected`, the least seq not
accepted; `pending` holds the accepted seqs above it, within both caps; a rejected push changes nothing.
Two orders of the same frames, equal seqs carrying equal payloads, that both stay free of overflow give
the same output and the same buffer. -/
theorem pushes_exact {limit : ℕ} {as : List (ℕ × Bytes)} {b : ReorderBuf} {rs : List PushResult}
    (hseq : ∀ a ∈ as, a.1 < 2 ^ 64 - 1) (hrun : (withLimit limit).pushes as = (b, rs)) :
    (output rs).map some =
      (List.range' 1 (b.expected - 1)).map (fun k => (acceptedOf as rs).lookup k) ∧
    IsLeast {k | 1 ≤ k ∧ ∀ q, (k, q) ∉ acceptedOf as rs} b.expected ∧
    (∀ k q, b.pending.get k = some q ↔ b.expected < k ∧ (acceptedOf as rs).lookup k = some q) ∧
    (b.pendingBytes = Table.total (fun _ c => c.length) b.pending ∧ b.pendingBytes ≤ b.maxBytes ∧
      b.pending.size ≤ b.maxEntries ∧ b.maxBytes = limit ∧
      b.maxEntries = max (limit / maxPayload) maxReorderWindow) ∧
    (∀ seq payload,
      ((b.push seq payload).2.accepted = false →
        (b.push seq payload).1 = b ∧ (b.push seq payload).2.ready = []) ∧
      ((b.push seq payload).2.overflow = true ↔ b.expected < seq ∧ b.pending.get seq = none ∧
        (b.maxEntries < b.pending.size + 1 ∨ b.maxBytes < b.pendingBytes + payload.length))) ∧
    (∀ s, b.isCompleteThrough s = true ↔ ∀ k, 1 ≤ k → k < s →
      ∃ q, (acceptedOf as rs).lookup k = some q ∧ (output rs)[k - 1]? = some q) ∧
    ∀ as' b' rs', as.Perm as' → Consistent as → (withLimit limit).pushes as' = (b', rs') →
      NoOverflow rs → NoOverflow rs' →
      output rs = output rs' ∧ b.expected = b'.expected ∧
        (∀ k, b.pending.get k = b'.pending.get k) ∧ b.pendingBytes = b'.pendingBytes := by
  have hseq' : ∀ a ∈ as, a.1 + 1 < 2 ^ 64 := fun a ha => by have := hseq a ha; omega
  have hm := mirrors_pushes (withLimit_mirrors limit) as hseq'
  have hlim := pushes_limits (withLimit_mirrors limit).unwrapped hseq'
  simp only [hrun, List.nil_append] at hm hlim
  have hleast := hm.isLeast
  simp only [lookup_eq_none_iff_forall] at hleast
  refine ⟨hm.released, hleast, hm.pending_iff, ⟨hm.unwrapped.bytes, hm.unwrapped.budget,
    hm.unwrapped.entries, hlim⟩, push_rejected hm.unwrapped.toInv, hm.complete_iff, ?_⟩
  intro as' b' rs' hperm hc hrun' hno hno'
  have hseq₂ : ∀ a ∈ as', a.1 + 1 < 2 ^ 64 := fun a ha => hseq' a (hperm.mem_iff.mpr ha)
  have hm' := mirrors_pushes (withLimit_mirrors limit) as' hseq₂
  simp only [hrun', List.nil_append] at hm'
  refine hm.unique hm' fun k hk => ?_
  have h1 := lookup_acceptedOf (withLimit_mirrors limit) hseq' (by rw [hrun]; exact hno) hk
  have h2 := lookup_acceptedOf (withLimit_mirrors limit) hseq₂ (by rw [hrun']; exact hno') hk
  simp only [hrun, List.nil_append] at h1
  simp only [hrun', List.nil_append] at h2
  rw [h1, h2, lookup_perm hperm hc]

/-- Seqs 2, 1, 2 and the same in another order. -/
theorem pushes_exact_two_orders :
    output ((withLimit maxReorderBytes).pushes [(2, [66]), (1, [65]), (2, [66])]).2 = [[65], [66]] ∧
    output ((withLimit maxReorderBytes).pushes [(2, [66]), (1, [65]), (2, [66])]).2 =
      output ((withLimit maxReorderBytes).pushes [(1, [65]), (2, [66]), (2, [66])]).2 := by
  have h := @pushes_exact maxReorderBytes [(2, [66]), (1, [65]), (2, [66])] _ _ (by decide) rfl
  exact ⟨by decide, (h.2.2.2.2.2.2 [(1, [65]), (2, [66]), (2, [66])] _ _ (by decide) (by decide) rfl
    (by decide) (by decide)).1⟩

/-- A repeated seq with another payload: the one that comes first is released, so the order shows. -/
theorem first_payload_wins :
    [(1, [65]), (1, [66])].Perm [(1, [66]), (1, [65])] ∧
    (∀ a ∈ [(1, [65]), (1, [66])], a.1 < 2 ^ 64 - 1) ∧
    NoOverflow ((withLimit maxReorderBytes).pushes [(1, [65]), (1, [66])]).2 ∧
    NoOverflow ((withLimit maxReorderBytes).pushes [(1, [66]), (1, [65])]).2 ∧
    output ((withLimit maxReorderBytes).pushes [(1, [65]), (1, [66])]).2 = [[65]] ∧
    output ((withLimit maxReorderBytes).pushes [(1, [66]), (1, [65])]).2 = [[66]] := by
  decide

end ReorderBuf

end RoundRobin
