import RoundRobin.Reassembler.Budget
import Mathlib.Data.List.MinMax

/-!
# RoundRobin.Reassembler.Reserve — `try_reserve_pending`

One reservation, from its first load of the counter to its return.  The loop takes the oldest entries out of the
map until the frame fits; the entry it must not evict holds at most 256 frames, so it never runs out of others.
`At` is where the loop is and what it has evicted so far.
-/

namespace RoundRobin.Reassembler

open Instr TaskSystem

/-- `try_reserve_pending` has returned `true`. -/
def reserved (fresh : Bool) (f : Frame) : List Instr := [if fresh then dataInsert f else dataPush f]

/-- One step before it returns; a `lucky` one is no compare-exchange that fails although the value matches. -/
def ReserveStep (fresh : Bool) (f : Frame) (lucky : Bool) (a b : Shared × List Instr) : Prop :=
  a.2 ≠ reserved fresh f ∧ ∃ i k ch s' is, a.2 = i :: k ∧ (lucky = true → ch ≠ .spurious) ∧
    exec a.1 i ch = some (s', is) ∧ b = (s', is ++ k)

/-- The entries `ev` were evicted from `m`, which left `m'`: the oldest ones other than `ex`, one after the other,
and none of them was evicted when `need` already fitted. -/
structure Eviction (ex : Option ConnId) (need : ℕ) (m m' : Table ConnId PendingEntry)
    (ev : List (ConnId × PendingEntry)) : Prop where
  taken : ∀ x ∈ ev, m.get x.1 = some x.2 ∧ some x.1 ≠ ex
  nodup : (ev.map Prod.fst).Nodup
  left : ∀ c, m'.get c = if c ∈ ev.map Prod.fst then none else m.get c
  sorted : ev.Pairwise fun x y => x.2.since ≤ y.2.since
  oldest : ∀ x ∈ ev, ∀ c e, m'.get c = some e → some c ≠ ex → x.2.since ≤ e.since
  total : (m'.total fun _ e => e.bytes) + (ev.map fun x => x.2.bytes).sum = m.total fun _ e => e.bytes
  needed : ∀ k < ev.length,
    maxPendingBytes + ((ev.take k).map fun x => x.2.bytes).sum < (m.total fun _ e => e.bytes) + need

/-- A pending entry of decoded frames. -/
def Decoded (f : Frame) : Prop := f.payload.length ≤ maxPayload

/-! ## Evicting one more -/

section Evict

variable {ex : Option ConnId} {need : ℕ} {m m' : Table ConnId PendingEntry} {ev : List (ConnId × PendingEntry)}

theorem Eviction.refl (ex : Option ConnId) (need : ℕ) (m : Table ConnId PendingEntry) : Eviction ex need m m [] where
  taken := by simp
  nodup := by simp
  left := by simp
  sorted := List.Pairwise.nil
  oldest := by simp
  total := rfl
  needed := by simp

theorem isOldest_iff {key : ConnId} {e : PendingEntry} : isOldest m ex key e = true ↔
    some key ≠ ex ∧ ∀ c e', m.get c = some e' → some c ≠ ex → e.since ≤ e'.since := by
  simp only [isOldest, Bool.and_eq_true, decide_eq_true_eq, List.all_eq_true, Bool.or_eq_true]
  refine and_congr_right fun _ => ⟨fun h c e' hc hne => ?_, fun h x hx => ?_⟩
  · exact (h ⟨c, e'⟩ (AList.mem_lookup_iff.mp hc)).resolve_left hne
  · exact or_iff_not_imp_left.mpr fun hne => h x.1 x.2 (AList.mem_lookup_iff.mpr hx) hne

theorem Eviction.next (h : Eviction ex need m m' ev) {key : ConnId} {e : PendingEntry} (hk : m'.get key = some e)
    (ho : isOldest m' ex key e = true) (hfull : maxPendingBytes < (m'.total fun _ e => e.bytes) + need) :
    Eviction ex need m (m'.del key) (ev ++ [(key, e)]) := by
  obtain ⟨hne, hmin⟩ := isOldest_iff.mp ho
  have hleft := h.left key
  rw [hk] at hleft
  have hnew : key ∉ ev.map Prod.fst := by
    intro hin
    rw [if_pos hin] at hleft
    cases hleft
  rw [if_neg hnew] at hleft
  have hdel : ∀ {c e'}, (m'.del key).get c = some e' → m'.get c = some e' := fun hc => get_of_del hc
  refine ⟨fun x hx => ?_, ?_, fun c => ?_, ?_, fun x hx c e' hc hce => ?_, ?_, fun k hlt => ?_⟩
  · rcases List.mem_append.mp hx with hx | hx
    · exact h.taken x hx
    · obtain rfl := List.mem_singleton.mp hx
      exact ⟨hleft.symm, hne⟩
  · rw [List.map_append, List.nodup_append]
    refine ⟨h.nodup, by simp, fun a ha b hb => ?_⟩
    obtain rfl := List.mem_singleton.mp hb
    rintro rfl
    exact hnew ha
  · by_cases hc : c = key
    · rw [hc, Table.get_del_self, if_pos (by simp)]
    · rw [Table.get_del_ne _ hc, h.left c]
      exact if_congr (by simp [hc]) rfl rfl
  · rw [List.pairwise_append]
    refine ⟨h.sorted, List.pairwise_singleton _ _, fun x hx y hy => ?_⟩
    obtain rfl := List.mem_singleton.mp hy
    exact h.oldest x hx key e hk hne
  · rcases List.mem_append.mp hx with hx | hx
    · exact h.oldest x hx c e' (hdel hc) hce
    · obtain rfl := List.mem_singleton.mp hx
      exact hmin c e' (hdel hc) hce
  · have hd := Table.total_del (fun _ e => e.bytes) m' key
    rw [Table.weightAt_of_some hk] at hd
    have ht := h.total
    simp only [List.map_append, List.sum_append, List.map_cons, List.map_nil, List.sum_cons, List.sum_nil]
    omega
  · rw [List.length_append, List.length_singleton] at hlt
    rcases Nat.lt_or_ge k ev.length with hk' | hk'
    · rw [List.take_append_of_le_length hk'.le]
      exact h.needed k hk'
    · obtain rfl : k = ev.length := by omega
      rw [List.take_left]
      have ht := h.total
      omega

end Evict

/-! ## What cannot be evicted -/

/-- An entry of decoded frames is far below the budget. -/
theorem bytes_le_of_queued {e : PendingEntry} (h : Queued Decoded e) : e.bytes ≤ maxPendingFramesPerCid * maxPayload := by
  rw [h.bytes]
  refine le_trans (List.sum_le_card_nsmul _ maxPayload fun n hn => ?_) ?_
  · obtain ⟨g, hg, rfl⟩ := List.mem_map.mp hn
    unfold counted
    split
    · exact h.each g hg
    · exact Nat.zero_le _
  · rw [List.length_map, Nat.nsmul_eq_mul]
    exact Nat.mul_le_mul_right _ h.frames

theorem not_all_excluded {m : Table ConnId PendingEntry} {ex : Option ConnId} {key : ConnId} {e : PendingEntry}
    (hk : m.get key = some e) (ho : isOldest m ex key e = true) :
    ¬ (m.entries.all fun x => decide (some x.1 = ex)) = true := by
  rw [List.all_eq_true]
  intro hall
  exact (isOldest_iff.mp ho).1 (of_decide_eq_true (hall _ (AList.mem_lookup_iff.mp hk)))

/-- Where the frame does not fit, an entry can be evicted. -/
theorem exists_oldest {s : Shared} (ex : Option ConnId) {need : ℕ} (hq : AllQueued Decoded s)
    (hneed : need ≤ maxPayload) (hfull : maxPendingBytes < buffered s + need) :
    ∃ key e, s.pending.get key = some e ∧ isOldest s.pending ex key e = true := by
  have hother : ∃ c e, s.pending.get c = some e ∧ some c ≠ ex := by
    by_contra hno
    have hall : ∀ c e, s.pending.get c = some e → some c = ex := by
      intro c e hc
      by_contra hne
      exact hno ⟨c, e, hc, hne⟩
    have hle : buffered s ≤ maxPendingFramesPerCid * maxPayload := by
      cases ex with
      | none =>
        have hnone : ∀ c, s.pending.get c = (∅ : Table ConnId PendingEntry).get c := by
          intro c
          cases hc : s.pending.get c with
          | none => rfl
          | some e => cases hall c e hc
        rw [buffered, Table.total_congr hnone]
        exact Nat.zero_le _
      | some d =>
        have hone := Table.total_eq_weightAt (w := fun _ e => e.bytes) (m := s.pending) (k := d)
          fun c e hc => Option.some.inj (hall c e hc)
        rw [buffered, hone]
        cases hd : s.pending.get d with
        | none =>
          rw [Table.weightAt_of_none hd]
          exact Nat.zero_le _
        | some e =>
          rw [Table.weightAt_of_some hd]
          exact bytes_le_of_queued (hq d e hd)
    have hfit : maxPendingFramesPerCid * maxPayload + maxPayload ≤ maxPendingBytes := by decide
    omega
  obtain ⟨c, e, hc, hne⟩ := hother
  set l := s.pending.entries.filter fun x => decide (some x.1 ≠ ex) with hl
  have hmem : (⟨c, e⟩ : Sigma fun _ : ConnId => PendingEntry) ∈ l := by
    rw [hl, List.mem_filter]
    exact ⟨AList.mem_lookup_iff.mp hc, decide_eq_true hne⟩
  obtain ⟨x, hx⟩ : ∃ x, x ∈ List.argmin (fun x => x.2.since) l := by
    cases hm : List.argmin (fun x => x.2.since) l with
    | none =>
      rw [List.argmin_eq_none.mp hm] at hmem
      cases hmem
    | some x => exact ⟨x, rfl⟩
  obtain ⟨hxe, hxne⟩ := List.mem_filter.mp (List.argmin_mem hx)
  refine ⟨x.1, x.2, AList.mem_lookup_iff.mpr hxe, isOldest_iff.mpr ⟨of_decide_eq_true hxne, ?_⟩⟩
  intro c' e' hc' hne'
  refine List.le_of_mem_argmin (a := ⟨c', e'⟩) ?_ hx
  rw [hl, List.mem_filter]
  exact ⟨AList.mem_lookup_iff.mp hc', decide_eq_true hne'⟩

/-! ## The loop -/

section Loop

variable {fresh : Bool} {f : Frame} {s₀ s s' : Shared}

/-- What holds all along, `ev` being evicted so far and `b` about to be refunded or just reserved. -/
structure Loop (fresh : Bool) (f : Frame) (s₀ s : Shared) (b : ℕ) : Prop where
  evicted : ∃ ev, Eviction (exclude fresh f) f.payload.length s₀.pending s.pending ev
  queued : AllQueued Decoded s
  balance : s.pendingBytes = buffered s + b
  budget : s.pendingBytes ≤ maxPendingBytes

/-- The frame does not fit. -/
def Full (f : Frame) (s : Shared) : Prop := maxPendingBytes < buffered s + f.payload.length

/-- Where the reservation is. -/
inductive At (fresh : Bool) (f : Frame) (s₀ s : Shared) : List Instr → Prop where
  | load : Loop fresh f s₀ s 0 → At fresh f s₀ s [reserveLoad fresh f]
  | cas : Loop fresh f s₀ s 0 → At fresh f s₀ s [reserveCas fresh f s.pendingBytes]
  | empty : Loop fresh f s₀ s 0 → Full f s → At fresh f s₀ s [evictEmpty fresh f]
  | pick : Loop fresh f s₀ s 0 → Full f s → At fresh f s₀ s [evictPick fresh f]
  | remove (key : ConnId) (e : PendingEntry) : Loop fresh f s₀ s 0 → Full f s → s.pending.get key = some e →
      isOldest s.pending (exclude fresh f) key e = true →
      At fresh f s₀ s [evictRemove fresh f key e.bytes e.cancel]
  | freed (b : ℕ) (n : Option ℕ) (key : ConnId) : Loop fresh f s₀ s b →
      At fresh f s₀ s [refund b b, notifyCancel n, closedInsert key, sendRst key, reserveLoad fresh f]
  | wake (n : Option ℕ) (key : ConnId) : Loop fresh f s₀ s 0 →
      At fresh f s₀ s [notifyCancel n, closedInsert key, sendRst key, reserveLoad fresh f]
  | tombstone (key : ConnId) : Loop fresh f s₀ s 0 →
      At fresh f s₀ s [closedInsert key, sendRst key, reserveLoad fresh f]
  | reset (key : ConnId) : Loop fresh f s₀ s 0 → At fresh f s₀ s [sendRst key, reserveLoad fresh f]
  | done : Loop fresh f s₀ s f.payload.length → At fresh f s₀ s (reserved fresh f)

/-- How many steps are left at most. -/
def rank (s : Shared) : List Instr → ℕ
  | reserveLoad _ _ :: _ => 9 * s.pending.size + 4
  | reserveCas _ _ _ :: _ => 9 * s.pending.size + 3
  | evictEmpty _ _ :: _ => 9 * s.pending.size + 2
  | evictPick _ _ :: _ => 9 * s.pending.size + 1
  | evictRemove _ _ _ _ _ :: _ => 9 * s.pending.size
  | refund _ _ :: _ => 9 * s.pending.size + 8
  | notifyCancel _ :: _ => 9 * s.pending.size + 7
  | closedInsert _ :: _ => 9 * s.pending.size + 6
  | sendRst _ :: _ => 9 * s.pending.size + 5
  | _ => 0

theorem rank_reserved (s : Shared) : rank s (reserved fresh f) = 0 := by
  unfold reserved
  cases fresh <;> rfl

/-- The maps the loop looks at, where an operation only touches others. -/
theorem Loop.same {b : ℕ} (h : Loop fresh f s₀ s b) (hp : s'.pending = s.pending)
    (hb : s'.pendingBytes = s.pendingBytes) : Loop fresh f s₀ s' b := by
  obtain ⟨⟨ev, hev⟩, hq, hbal, hbud⟩ := h
  refine ⟨⟨ev, by rwa [hp]⟩, fun c e he => hq c e (by rwa [← hp]), ?_, hb.trans_le hbud⟩
  rw [hb, buffered, hp]
  exact hbal

/-- The entry leaves the map. -/
theorem Loop.remove (h : Loop fresh f s₀ s 0) (hfull : Full f s) {key : ConnId} {e : PendingEntry}
    (hk : s.pending.get key = some e) (ho : isOldest s.pending (exclude fresh f) key e = true) :
    Loop fresh f s₀ { s with pending := s.pending.del key } e.bytes := by
  obtain ⟨⟨ev, hev⟩, hq, hbal, hbud⟩ := h
  refine ⟨⟨_, hev.next hk ho hfull⟩, allQueued_sub hq fun c e' => get_of_del, ?_, hbud⟩
  have hdel : buffered { s with pending := s.pending.del key } + bytesAt s key = buffered s := buffered_del rfl
  rw [bytesAt_of_some hk] at hdel
  show s.pendingBytes = _
  omega

/-- The freed bytes leave the counter. -/
theorem Loop.freed {b : ℕ} (h : Loop fresh f s₀ s b) : Loop fresh f s₀ (s.fetchSub b) 0 := by
  obtain ⟨hev, hq, hbal, hbud⟩ := h
  have hlt : maxPendingBytes < 2 ^ 64 := by decide
  have hsub : (s.fetchSub b).pendingBytes = buffered s := by
    simp only [Shared.fetchSub]
    omega
  refine ⟨hev, hq, hsub, ?_⟩
  rw [hsub]
  omega

/-- **One step of the loop.**  It stays where it can go on, and gets closer to its return unless the
compare-exchange fails spuriously. -/
theorem at_step {t : List Instr} {lucky : Bool} {b : Shared × List Instr} (hf : f.payload.length ≤ maxPayload)
    (h : At fresh f s₀ s t) (hs : ReserveStep fresh f lucky (s, t) b) :
    At fresh f s₀ b.1 b.2 ∧ (lucky = true → rank b.1 b.2 < rank s t) := by
  obtain ⟨hne, i, k, ch, s', is, ht, hch, he, rfl⟩ := hs
  cases h with
  | load hl =>
    cases ht
    cases he
    exact ⟨.cas hl, fun _ => by simp [rank]⟩
  | cas hl =>
    cases ht
    simp only [exec, execCas, true_and] at he
    by_cases hle : s.pendingBytes + f.payload.length ≤ maxPendingBytes
    · rw [if_pos hle] at he
      by_cases hcas : decide (ch = .spurious) = false
      · rw [if_pos hcas] at he
        cases he
        refine ⟨.done ⟨hl.evicted, hl.queued, ?_, hle⟩, fun _ => ?_⟩
        · show s.pendingBytes + f.payload.length = buffered s + f.payload.length
          rw [hl.balance, Nat.add_zero]
        · show rank _ (reserved fresh f) < _
          rw [rank_reserved]
          simp [rank]
      · rw [if_neg hcas] at he
        cases he
        refine ⟨.cas hl, fun hlucky => ?_⟩
        exact absurd (decide_eq_false (hch hlucky)) hcas
    · rw [if_neg hle] at he
      cases he
      have hbal := hl.balance
      refine ⟨.empty hl ?_, fun _ => by simp [rank]⟩
      show maxPendingBytes < buffered s + f.payload.length
      omega
  | empty hl hfull =>
    cases ht
    cases he
    have hsize : s.pending.size ≠ 0 := by
      intro h0
      obtain ⟨key, e, hk, -⟩ := exists_oldest none hl.queued hf hfull
      have := Table.size_del_of_some hk
      omega
    rw [if_neg hsize]
    exact ⟨.pick hl hfull, fun _ => by simp [rank]⟩
  | pick hl hfull =>
    cases ht
    obtain ⟨key, e, hk, ho⟩ := exists_oldest (exclude fresh f) hl.queued hf hfull
    have hsome := not_all_excluded hk ho
    simp only [exec, if_neg hsome] at he
    cases ch with
    | victim key' =>
      cases hk' : s.pending.get key' with
      | none =>
        simp only [hk'] at he
        cases he
      | some e' =>
        simp only [hk'] at he
        split_ifs at he with ho'
        cases he
        exact ⟨.remove key' e' hl hfull hk' ho', fun _ => by simp [rank]⟩
    | _ => cases he
  | remove key e hl hfull hk ho =>
    cases ht
    simp only [exec, hk] at he
    cases he
    refine ⟨.freed e.bytes e.cancel key (hl.remove hfull hk ho), fun _ => ?_⟩
    have := Table.size_del_of_some hk
    simp only [rank, List.cons_append]
    omega
  | freed b n key hl =>
    cases ht
    cases he
    exact ⟨.wake n key hl.freed, fun _ => by simp [rank, Shared.fetchSub]⟩
  | wake n key hl =>
    cases ht
    cases he
    exact ⟨.tombstone key (hl.same (by simp) (by simp)), fun _ => by simp [rank]⟩
  | tombstone key hl =>
    cases ht
    cases he
    exact ⟨.reset key (hl.same rfl rfl), fun _ => by simp [rank]⟩
  | reset key hl =>
    cases ht
    cases he
    exact ⟨.load (hl.same rfl rfl), fun _ => by simp [rank]⟩
  | done hl => exact absurd rfl hne

/-- It goes on until it returns, whatever the compare-exchange does. -/
theorem at_progress {t : List Instr} (hf : f.payload.length ≤ maxPayload) (h : At fresh f s₀ s t)
    (hne : t ≠ reserved fresh f) : ∃ b, ReserveStep fresh f true (s, t) b := by
  cases h with
  | pick hl hfull =>
    obtain ⟨key, e, hk, ho⟩ := exists_oldest (exclude fresh f) hl.queued hf hfull
    have hsome := not_all_excluded hk ho
    have he : exec s (evictPick fresh f) (.victim key) =
        some (s, [evictRemove fresh f key e.bytes e.cancel]) := by
      simp only [exec, if_neg hsome, hk, if_pos ho]
    exact ⟨_, hne, _, _, _, _, _, rfl, by simp, he, rfl⟩
  | remove key e hl hfull hk ho =>
    have he : exec s (evictRemove fresh f key e.bytes e.cancel) .go =
        some ({ s with pending := s.pending.del key },
          [refund e.bytes e.bytes, notifyCancel e.cancel, closedInsert key, sendRst key, reserveLoad fresh f]) := by
      simp only [exec, hk]
    exact ⟨_, hne, _, _, _, _, _, rfl, by simp, he, rfl⟩
  | done hl => exact absurd rfl hne
  | _ => exact ⟨_, hne, _, _, .go, _, _, rfl, by simp, rfl, rfl⟩

theorem at_ne_fail {t : List Instr} (h : At fresh f s₀ s t) : t ≠ failPendingConn f.connId := by
  cases h with
  | done _ => cases fresh <;> simp [reserved, failPendingConn]
  | _ => simp [failPendingConn]

end Loop

/-! ## A reservation -/

/-- Where `try_reserve_pending` is called: by the handler of a frame, or by anybody between two calls. -/
inductive Reserves (window : ℕ) (fresh : Bool) (f : Frame) : Shared → Prop where
  | idle (x : Atomic) : Budget.Reachable decoded window x → Reserves window fresh f x.shared
  | called (x : Atomic) (t : List Instr) (others : List (List Instr)) (s : Shared) :
      Budget.Reachable decoded window x → Atomic.Turn x t others → decoded x.shared t →
      system.Solo (x.shared, t) (s, [reserveLoad fresh f]) → Reserves window fresh f s

theorem admits_decoded {s : Shared} {t : List Instr} (h : decoded s t) : Admits Decoded s t :=
  fun f ht => ⟨fun _ => h f ht, fun _ => h f ht⟩

theorem Reserves.loop {window : ℕ} {fresh : Bool} {f : Frame} {s : Shared} (h : Reserves window fresh f s) :
    Loop fresh f s s 0 := by
  cases h with
  | idle x hx =>
    have hk := kept_reachable (fun _ _ => admits_decoded) hx
    exact ⟨⟨[], .refl _ _ _⟩, hk.queued, hk.balance, hk.budget⟩
  | called x t others s hx ht hd hrun =>
    have hk := kept_reachable (fun _ _ => admits_decoded) hx
    have hb := budgeted_solo (budgeted_start hk ht (admits_decoded hd)) hrun
    exact ⟨⟨[], .refl _ _ _⟩, hb.queued, by simpa [held] using hb.balance, hb.budget⟩

theorem at_run {fresh lucky : Bool} {f : Frame} {s : Shared} {b : Shared × List Instr}
    (hf : f.payload.length ≤ maxPayload) (hs : Loop fresh f s s 0)
    (h : Relation.ReflTransGen (ReserveStep fresh f lucky) (s, [reserveLoad fresh f]) b) : At fresh f s b.1 b.2 := by
  induction h with
  | refl => exact .load hs
  | tail _ hst ih => exact (at_step hf ih hst).1

end RoundRobin.Reassembler
