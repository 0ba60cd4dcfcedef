import RoundRobin.Lib.Grid
import RoundRobin.Tunnel.SendAsync
import Mathlib.Algebra.BigOperators.Ring.Finset
import Mathlib.Algebra.Order.Ring.Rat
import Mathlib.Data.Rat.Floor
import Mathlib.Tactic.FieldSimp
import Mathlib.Tactic.NormNum

/-!
# RoundRobin.Tunnel.Proportional — the picks of the weighted scheduler

With the rates as exact numbers, 1024 picks in a row give every link its share of the anchors, and in a pool
of at most 64 links everyone gets some.  The weights cut the grid of anchors as in `Lib.Grid`: the scan is
its `firstPast` (`scan_eq`), and the weights it is used with are positive (`weights_pos`).
-/

namespace RoundRobin.Tunnel

open Grid

/-! ## The weights -/

section Weights

variable {F : Type} [Field F]

theorem totalOf_eq (ws : List F) : totalOf ws = ws.sum := by
  rw [totalOf, Nat.cast_zero, List.sum_eq_foldl]

variable [LinearOrder F]

theorem length_weights (raw : List F) : (weights raw).length = raw.length := by
  simp only [weights]
  split_ifs <;> rw [List.length_map]

variable [IsStrictOrderedRing F]

theorem floorShare_pos : (0 : F) < floorShare := by
  norm_num [floorShare]

/-- Every weight is positive, also that of a link that moved nothing. -/
theorem weights_pos {raw : List F} {w : F} (hw : w ∈ weights raw) : 0 < w := by
  unfold weights at hw
  simp only [Nat.cast_zero, Nat.cast_one] at hw
  split_ifs at hw with ht
  · obtain ⟨r, -, rfl⟩ := List.mem_map.mp hw
    exact lt_max_of_lt_right (mul_pos floorShare_pos ht)
  · obtain ⟨r, -, rfl⟩ := List.mem_map.mp hw
    exact one_pos

theorem sum_map_le {f : F → F} {c : F} {xs : List F} (h : ∀ x ∈ xs, f x ≤ x + c) :
    (xs.map f).sum ≤ xs.sum + xs.length * c := by
  induction xs with
  | nil => simp
  | cons x xs ih =>
    have hx := h x List.mem_cons_self
    have hxs := ih fun y hy => h y (List.mem_cons_of_mem _ hy)
    rw [List.map_cons, List.sum_cons, List.sum_cons, List.length_cons, Nat.cast_succ, add_one_mul]
    linarith

/-- The floor is a share of the raw total, and the weights add up to more: with the means to at most twice as
much, with the floors to as many shares again as there are links. -/
theorem weights_share {raw : List F} (hraw : ∀ r ∈ raw, 0 ≤ r) (hlen : raw.length ≤ 64) {w : F}
    (hw : w ∈ weights raw) : (weights raw).sum ≤ (weightGrid : F) * w := by
  have hlen' : (raw.length : F) ≤ 64 := by exact_mod_cast hlen
  have hgrid : (weightGrid : F) = 1024 := by norm_num [weightGrid]
  unfold weights at hw ⊢
  simp only [Nat.cast_zero, Nat.cast_one, totalOf_eq] at hw ⊢
  split_ifs at hw ⊢ with ht
  · set R := raw.sum
    have hshare : (floorShare : F) = 1 / 20 := by norm_num [floorShare]
    have hfloor : floorShare * R ≤ w := by
      obtain ⟨r, -, rfl⟩ := List.mem_map.mp hw
      exact le_max_right _ _
    have hmean : 0 ≤ R / raw.length := div_nonneg ht.le (Nat.cast_nonneg _)
    rw [hshare] at hfloor ⊢
    have hle : ∀ r ∈ raw, max (if 0 < r then r else R / raw.length) (1 / 20 * R) ≤
        r + (R / raw.length + 1 / 20 * R) := by
      intro r hr
      have h0 := hraw r hr
      apply max_le
      · split_ifs <;> linarith
      · linarith
    have hsum := sum_map_le hle
    have hne : (raw.length : F) ≠ 0 := by
      rw [Nat.cast_ne_zero, Ne, List.length_eq_zero_iff]
      rintro rfl
      exact lt_irrefl _ ht
    rw [mul_add, mul_div_cancel₀ R hne] at hsum
    have hmul : (raw.length : F) * (1 / 20 * R) ≤ 64 * (1 / 20 * R) :=
      mul_le_mul_of_nonneg_right hlen' (by linarith)
    rw [hgrid]
    refine le_trans hsum ?_
    linarith
  · obtain ⟨r, -, rfl⟩ := List.mem_map.mp hw
    rw [List.map_const', List.sum_replicate, nsmul_eq_mul, mul_one, mul_one, hgrid]
    linarith

end Weights

/-! ## The picks -/

section Picks

variable {F : Type} [NatCast F] [Add F] [Mul F] [Div F] [Max F] [LT F] [DecidableLT F]

/-- The weights `weighted_pick` computes for the links `alive`. -/
def linkWeights (heap : ℕ → RatedLink F) (alive : List ℕ) : List F :=
  weights (alive.map fun k => max (heap k).rateBps ((0 : ℕ) : F))

/-- What `n` picks in a row return, nobody else moving the cursor. -/
def picks (heap : ℕ → RatedLink F) (links skip : List ℕ) : ℕ → ℕ → List ℕ
  | 0, _ => []
  | n + 1, rr =>
    match weightedPick heap links rr skip with
    | some k => k :: picks heap links skip n ((rr + 1) % 2 ^ 64)
    | none => []

/-- Only the cursor's place on the grid matters. -/
theorem weightedPick_congr (heap : ℕ → RatedLink F) (links skip : List ℕ) {m n : ℕ}
    (h : m % weightGrid = n % weightGrid) :
    weightedPick heap links m skip = weightedPick heap links n skip := by
  unfold weightedPick
  rw [h]

/-- The wrap of the cursor does not show: the grid divides the machine word. -/
theorem count_picks {heap : ℕ → RatedLink F} {links skip : List ℕ} (hne : aliveLinks heap links skip ≠ [])
    (k n rr : ℕ) :
    (picks heap links skip n rr).count k = n.count fun j => weightedPick heap links (rr + j) skip = some k := by
  induction n generalizing rr with
  | zero => rfl
  | succ n ih =>
    have hshift : ∀ j, weightedPick heap links ((rr + 1) % 2 ^ 64 + j) skip =
        weightedPick heap links (rr + (j + 1)) skip := by
      intro j
      apply weightedPick_congr
      unfold weightGrid
      omega
    rw [Nat.count_succ', picks]
    simp only [← hshift]
    rw [← ih]
    cases h : weightedPick heap links rr skip with
    | none =>
      rw [weightedPick, Option.or_eq_none_iff, List.getLast?_eq_none_iff] at h
      exact absurd h.2 hne
    | some k' => simp [List.count_cons]

end Picks

section Counts

variable {F : Type} [Field F] [LinearOrder F]

/-- The scan finds the link whose interval the anchor is in. -/
theorem scan_eq (a acc : F) {ks : List ℕ} {ws : List F} (h : ks.length = ws.length) :
    scan a acc (ks.zip ws) = (firstPast a acc ws).bind (ks[·]?) := by
  induction ws generalizing ks acc with
  | nil => simp [scan, firstPast]
  | cons w ws ih =>
    cases ks with
    | nil => cases h
    | cons k ks =>
      simp only [List.zip_cons_cons, scan, firstPast]
      by_cases hw : a < acc + w
      · simp [if_pos hw]
      · rw [if_neg hw, if_neg hw, ih _ (Nat.succ_inj.mp h), Option.bind_map]
        rfl

variable (heap : ℕ → RatedLink F) {links skip : List ℕ}

theorem length_linkWeights (alive : List ℕ) : (linkWeights heap alive).length = alive.length := by
  rw [linkWeights, length_weights, List.length_map]

variable [IsStrictOrderedRing F]

theorem linkWeights_nonneg (alive : List ℕ) : ∀ w ∈ linkWeights heap alive, 0 ≤ w :=
  fun _ hw => (weights_pos hw).le

theorem linkWeights_sum_pos {alive : List ℕ} (hne : alive ≠ []) : 0 < (linkWeights heap alive).sum := by
  apply List.sum_pos
  · exact fun _ hw => weights_pos hw
  · rw [← List.length_pos_iff, length_linkWeights]
    exact List.length_pos_iff.mpr hne

/-- The anchor lies below the total weight. -/
theorem anchor_lt {ws : List F} (hW : 0 < ws.sum) (rr : ℕ) :
    ((rr % weightGrid : ℕ) : F) / (weightGrid : ℕ) * ws.sum < ws.sum := by
  have hgrid : (0 : F) < (weightGrid : ℕ) := by norm_num [weightGrid]
  apply mul_lt_of_lt_one_left hW
  rw [div_lt_one hgrid, Nat.cast_lt]
  exact Nat.mod_lt _ (by decide)

theorem anchor_nonneg {ws : List F} (hW : 0 < ws.sum) (rr : ℕ) :
    0 ≤ ((rr % weightGrid : ℕ) : F) / (weightGrid : ℕ) * ws.sum :=
  mul_nonneg (div_nonneg (Nat.cast_nonneg _) (Nat.cast_nonneg _)) hW.le

/-- The fallback for rounding is never needed. -/
theorem scan_isSome {alive : List ℕ} (hne : alive ≠ []) (rr : ℕ) :
    (scan (((rr % weightGrid : ℕ) : F) / (weightGrid : ℕ) * totalOf (linkWeights heap alive)) ((0 : ℕ) : F)
      (alive.zip (linkWeights heap alive))).isSome = true := by
  have hW := linkWeights_sum_pos heap hne
  have hlen := (length_linkWeights heap alive).symm
  rw [scan_eq _ _ hlen, totalOf_eq, Nat.cast_zero]
  obtain ⟨i, hi⟩ := Option.isSome_iff_exists.mp
    (firstPast_isSome (by rw [zero_add]; exact anchor_lt hW rr) (anchor_nonneg hW rr))
  have hlt := ((firstPast_eq_some (linkWeights_nonneg heap alive) (anchor_nonneg hW rr)).mp hi).1
  rw [hi, Option.bind_some, List.getElem?_eq_getElem (by rwa [hlen])]
  rfl

/-- A pick is the link whose interval the anchor is in. -/
theorem weightedPick_eq_some (hne : aliveLinks heap links skip ≠ []) {rr k : ℕ} :
    weightedPick heap links rr skip = some k ↔
      ∃ i, (aliveLinks heap links skip)[i]? = some k ∧
        Within (linkWeights heap (aliveLinks heap links skip)) i
          (((rr % weightGrid : ℕ) : F) / (weightGrid : ℕ) *
            (linkWeights heap (aliveLinks heap links skip)).sum) := by
  set alive := aliveLinks heap links skip with halive
  have hW := linkWeights_sum_pos heap hne
  have hlen := (length_linkWeights heap alive).symm
  have hsome := scan_isSome heap hne rr
  have hpick : weightedPick heap links rr skip =
      scan (((rr % weightGrid : ℕ) : F) / (weightGrid : ℕ) * totalOf (linkWeights heap alive)) ((0 : ℕ) : F)
        (alive.zip (linkWeights heap alive)) := by
    unfold weightedPick
    rw [← halive]
    exact Option.or_of_isSome hsome
  rw [hpick, scan_eq _ _ hlen, totalOf_eq, Nat.cast_zero, Option.bind_eq_some_iff]
  apply exists_congr
  intro i
  rw [firstPast_eq_some (linkWeights_nonneg heap alive) (anchor_nonneg hW rr), sub_zero, and_comm]
  constructor
  · exact fun h => ⟨h.1, h.2.2⟩
  · exact fun h => ⟨h.1, hlen ▸ (List.getElem?_eq_some_iff.mp h.1).1, h.2⟩

/-- Where `k` stands in the list. -/
def positions (ks : List ℕ) (k : ℕ) : Finset ℕ := (Finset.range ks.length).filter fun i => ks[i]? = some k

variable [FloorRing F]

/-- Over a window of the grid's size a link gets the anchors of its intervals. -/
theorem count_picks_share (hne : aliveLinks heap links skip ≠ []) (k rr : ℕ) :
    ((picks heap links skip weightGrid rr).count k : ℤ) = ∑ i ∈ positions (aliveLinks heap links skip) k,
      share weightGrid (linkWeights heap (aliveLinks heap links skip)) i := by
  have hW := linkWeights_sum_pos heap hne
  have hws := linkWeights_nonneg heap (aliveLinks heap links skip)
  have hperiodic : Function.Periodic (fun r => weightedPick heap links r skip = some k) weightGrid := by
    intro r
    simp only [weightedPick_congr heap links skip (Nat.add_mod_right r weightGrid)]
  set ws := linkWeights heap (aliveLinks heap links skip)
  have hunion : (Finset.range weightGrid).filter (fun r => weightedPick heap links r skip = some k) =
      (positions (aliveLinks heap links skip) k).biUnion fun i =>
        (Finset.range weightGrid).filter fun r : ℕ => Within ws i ((r : F) / (weightGrid : ℕ) * ws.sum) := by
    ext r
    simp only [Finset.mem_filter, Finset.mem_range, Finset.mem_biUnion, positions]
    constructor
    · rintro ⟨hr, hp⟩
      obtain ⟨i, hi, hin⟩ := (weightedPick_eq_some heap hne).mp hp
      rw [Nat.mod_eq_of_lt hr] at hin
      exact ⟨i, ⟨(List.getElem?_eq_some_iff.mp hi).1, hi⟩, hr, hin⟩
    · rintro ⟨i, ⟨-, hi⟩, hr, hin⟩
      refine ⟨hr, (weightedPick_eq_some heap hne).mpr ⟨i, hi, ?_⟩⟩
      rwa [Nat.mod_eq_of_lt hr]
  rw [count_picks hne, count_window hperiodic, Nat.count_eq_card_filter_range, hunion, Finset.card_biUnion,
    Nat.cast_sum]
  · exact Finset.sum_congr rfl fun i _ => card_within (by decide) hws hW i
  · intro i _ j _ hij
    apply Finset.disjoint_left.mpr
    intro r hi hj
    exact hij (within_unique hws (Finset.mem_filter.mp hi).2 (Finset.mem_filter.mp hj).2)

theorem positions_of_nodup {ks : List ℕ} (hks : ks.Nodup) {i : ℕ} (hi : i < ks.length) :
    positions ks ks[i] = {i} := by
  ext j
  rw [positions, Finset.mem_filter, Finset.mem_range, Finset.mem_singleton]
  constructor
  · rintro ⟨hj, he⟩
    rw [List.getElem?_eq_getElem hj] at he
    exact (List.Nodup.getElem_inj_iff hks).mp (Option.some.inj he)
  · rintro rfl
    exact ⟨hi, List.getElem?_eq_getElem hi⟩

theorem share_linkWeights_pos {alive : List ℕ} (hlen : alive.length ≤ 64) {i : ℕ}
    (hi : i < (linkWeights heap alive).length) : 1 ≤ share weightGrid (linkWeights heap alive) i := by
  have hne : alive ≠ [] := by
    rintro rfl
    rw [length_linkWeights] at hi
    exact absurd hi (Nat.not_lt_zero i)
  apply share_pos hi (linkWeights_sum_pos heap hne)
  apply weights_share _ _ (List.getElem_mem hi)
  · intro r hr
    obtain ⟨k, -, rfl⟩ := List.mem_map.mp hr
    rw [Nat.cast_zero]
    exact le_max_right _ _
  · rwa [List.length_map]

end Counts

/-- **Weighted scheduling is proportional and starves nobody.**  Over 1024 picks in a row, wherever the cursor
starts, a link gets its share of the grid, which is less than one away from the proportional one; the scan
always ends at a link; and of at most 64 links each is picked. -/
theorem picks_proportional (heap : ℕ → RatedLink ℚ) (links skip : List ℕ) (rr : ℕ)
    (hne : aliveLinks heap links skip ≠ []) :
    let alive := aliveLinks heap links skip
    let ws := linkWeights heap alive
    let chosen := picks heap links skip weightGrid rr
    (∀ k, (chosen.count k : ℤ) = ∑ i ∈ positions alive k, share weightGrid ws i) ∧
      (alive.Nodup → ∀ i (h : i < alive.length), (chosen.count alive[i] : ℤ) = share weightGrid ws i) ∧
      (∀ i (h : i < ws.length), |(share weightGrid ws i : ℚ) - weightGrid * ws[i] / ws.sum| < 1) ∧
      (∀ r, (scan (((r % weightGrid : ℕ) : ℚ) / (weightGrid : ℕ) * totalOf ws) ((0 : ℕ) : ℚ)
        (alive.zip ws)).isSome = true) ∧
      (alive.length ≤ 64 → ∀ k ∈ alive, k ∈ chosen) := by
  intro alive ws chosen
  refine ⟨fun k => count_picks_share heap hne k rr, ?_, fun i h => share_near h, scan_isSome heap hne, ?_⟩
  · intro hnodup i hi
    rw [count_picks_share heap hne, positions_of_nodup hnodup hi, Finset.sum_singleton]
  · intro hlen k hk
    obtain ⟨i, hi, hik⟩ := List.getElem_of_mem hk
    have hpos : i ∈ positions alive k := by
      rw [positions, Finset.mem_filter, Finset.mem_range, List.getElem?_eq_getElem hi, hik]
      exact ⟨hi, rfl⟩
    have hsum : 0 < ∑ j ∈ positions alive k, share weightGrid ws j := by
      apply Finset.sum_pos _ ⟨i, hpos⟩
      intro j hj
      rw [positions, Finset.mem_filter, Finset.mem_range] at hj
      exact share_linkWeights_pos heap hlen (by rw [length_linkWeights]; exact hj.1)
    rw [← count_picks_share heap hne] at hsum
    exact List.count_pos_iff.mp (Int.natCast_pos.mp hsum)

/-- A fast link, one half as fast, and one whose rate was not measured yet. -/
def ratedLinks : ℕ → RatedLink ℚ :=
  fun k => ⟨⟨⟨1, [], true, []⟩, true⟩, if k = 0 then 100 else if k = 1 then 50 else 0⟩

theorem picks_proportional_three :
    let chosen := picks ratedLinks [0, 1, 2] [] weightGrid (2 ^ 64 - 5)
    chosen.count 0 = 512 ∧ chosen.count 1 = 256 ∧ chosen.count 2 = 256 := by
  intro chosen
  obtain ⟨-, h, -⟩ := picks_proportional ratedLinks [0, 1, 2] [] (2 ^ 64 - 5) (by decide)
  have hws : linkWeights ratedLinks (aliveLinks ratedLinks [0, 1, 2] []) = [100, 50, 50] := by decide +kernel
  rw [hws] at h
  have h0 := h (by decide) 0 (by decide)
  have h1 := h (by decide) 1 (by decide)
  have h2 := h (by decide) 2 (by decide)
  have hshare : share weightGrid [(100 : ℚ), 50, 50] 0 = 512 ∧ share weightGrid [(100 : ℚ), 50, 50] 1 = 256 ∧
      share weightGrid [(100 : ℚ), 50, 50] 2 = 256 := by decide +kernel
  rw [hshare.1] at h0
  rw [hshare.2.1] at h1
  rw [hshare.2.2] at h2
  exact ⟨Int.ofNat_inj.mp h0, Int.ofNat_inj.mp h1, Int.ofNat_inj.mp h2⟩

end RoundRobin.Tunnel
