import Mathlib.Algebra.BigOperators.Group.Finset.Basic
import Mathlib.Algebra.Order.Field.Basic
import Mathlib.Algebra.Order.Floor.Ring
import Mathlib.Data.Nat.Periodic
import Mathlib.Order.Interval.Finset.Nat
import Mathlib.Tactic.Linarith

/-!
# RoundRobin.Lib.Grid — shares of a grid of thresholds

A list of weights cuts `[0, W)`, `W` their sum, into consecutive intervals.  `N` anchors `r / N * W` lie on a
grid over it, and an anchor picks the interval it falls into.

* `firstPast_eq_some`: the first accumulated weight past the anchor ends the interval the anchor is in.
* `card_within`: how many anchors an interval holds, a difference of two ceilings (`share`).
* `share_near`: it is less than one away from the proportional share.
* `share_pos`: a weight of at least `W / N` holds an anchor.
-/

namespace RoundRobin.Grid

variable {F : Type}

section Sums

variable [AddMonoid F]

/-- The weight accumulated by the first `i`. -/
def upTo (ws : List F) (i : ℕ) : F := (ws.take i).sum

@[simp] theorem upTo_zero (ws : List F) : upTo ws 0 = 0 := rfl

@[simp] theorem upTo_cons_succ (w : F) (ws : List F) (i : ℕ) : upTo (w :: ws) (i + 1) = w + upTo ws i := by
  simp [upTo]

theorem upTo_succ {ws : List F} {i : ℕ} (h : i < ws.length) : upTo ws (i + 1) = upTo ws i + ws[i] :=
  List.sum_take_succ ws i h

theorem upTo_length (ws : List F) : upTo ws ws.length = ws.sum := by
  rw [upTo, List.take_length]

theorem scaled_succ {K : Type} [Field K] {ws : List K} {i : ℕ} (h : i < ws.length) (c W : K) :
    c * upTo ws (i + 1) / W = c * upTo ws i / W + c * ws[i] / W := by
  rw [upTo_succ h, mul_add, add_div]

end Sums

variable [Field F] [LinearOrder F]

/-- The anchor falls into the interval of the `i`-th weight. -/
def Within (ws : List F) (i : ℕ) (a : F) : Prop := upTo ws i ≤ a ∧ a < upTo ws (i + 1)

instance (ws : List F) (i : ℕ) (a : F) : Decidable (Within ws i a) :=
  inferInstanceAs (Decidable (_ ∧ _))

/-- The first weight with which the sum passes the anchor. -/
def firstPast (a : F) : F → List F → Option ℕ
  | _, [] => none
  | acc, w :: ws => if a < acc + w then some 0 else (firstPast a (acc + w) ws).map (· + 1)

theorem firstPast_isSome {ws : List F} {a acc : F} (ha : a < acc + ws.sum) (hacc : acc ≤ a) :
    (firstPast a acc ws).isSome = true := by
  induction ws generalizing acc with
  | nil =>
    rw [List.sum_nil, add_zero] at ha
    exact absurd ha (not_lt_of_ge hacc)
  | cons w ws ih =>
    simp only [firstPast]
    by_cases hw : a < acc + w
    · rw [if_pos hw]
      rfl
    · rw [if_neg hw, Option.isSome_map]
      rw [List.sum_cons, ← add_assoc] at ha
      exact ih ha (not_lt.mp hw)

variable [IsStrictOrderedRing F]

section Nonneg

variable {ws : List F} (hws : ∀ w ∈ ws, 0 ≤ w)

include hws

theorem upTo_le_succ (i : ℕ) : upTo ws i ≤ upTo ws (i + 1) := by
  rcases Nat.lt_or_ge i ws.length with h | h
  · rw [upTo_succ h]
    exact le_add_of_nonneg_right (hws _ (List.getElem_mem h))
  · rw [upTo, upTo, List.take_of_length_le h, List.take_of_length_le (h.trans (Nat.le_succ i))]

theorem upTo_mono : Monotone (upTo ws) := monotone_nat_of_le_succ (upTo_le_succ hws)

theorem upTo_nonneg (i : ℕ) : 0 ≤ upTo ws i := upTo_mono hws (Nat.zero_le i)

theorem upTo_le_sum (i : ℕ) : upTo ws i ≤ ws.sum := by
  rcases Nat.le_total i ws.length with h | h
  · rw [← upTo_length]
    exact upTo_mono hws h
  · rw [upTo, List.take_of_length_le h]

/-- Two intervals have no anchor in common. -/
theorem within_unique {i j : ℕ} {a : F} (hi : Within ws i a) (hj : Within ws j a) : i = j := by
  rcases Nat.lt_trichotomy i j with h | h | h
  · exact absurd (hi.2.trans_le ((upTo_mono hws h).trans hj.1)) (lt_irrefl a)
  · exact h
  · exact absurd (hj.2.trans_le ((upTo_mono hws h).trans hi.1)) (lt_irrefl a)

end Nonneg

theorem firstPast_eq_some {ws : List F} (hws : ∀ w ∈ ws, 0 ≤ w) {a acc : F} (ha : acc ≤ a) {i : ℕ} :
    firstPast a acc ws = some i ↔ i < ws.length ∧ Within ws i (a - acc) := by
  induction ws generalizing acc i with
  | nil => simp [firstPast]
  | cons w ws ih =>
    have hws' : ∀ v ∈ ws, 0 ≤ v := fun v hv => hws v (List.mem_cons_of_mem _ hv)
    simp only [firstPast]
    by_cases hw : a < acc + w
    · rw [if_pos hw]
      cases i with
      | zero =>
        have : a - acc < w := by linarith
        simp [Within, ha, this]
      | succ i =>
        have : ¬ w + upTo ws i ≤ a - acc := by
          have := upTo_nonneg hws' i
          intro h
          linarith
        simp [Within, this]
    · rw [if_neg hw]
      push Not at hw
      have hsub : a - (acc + w) = a - acc - w := sub_add_eq_sub_sub a acc w
      cases i with
      | zero =>
        have : ¬ a - acc < w := by linarith
        simp [Within, this]
      | succ i =>
        simp only [Option.map_eq_some_iff, Nat.add_right_cancel_iff, exists_eq_right, ih hws' hw, Within,
          upTo_cons_succ, List.length_cons, hsub, Nat.add_lt_add_iff_right]
        rw [le_sub_iff_add_le', sub_lt_iff_lt_add']

/-! ## Counting the anchors -/

section Count

variable [FloorRing F]

/-- How many of the `N` anchors the `i`-th weight gets. -/
def share (N : ℕ) (ws : List F) (i : ℕ) : ℤ :=
  ⌈N * upTo ws (i + 1) / ws.sum⌉ - ⌈N * upTo ws i / ws.sum⌉

variable {N : ℕ} {ws : List F}

theorem anchor_lt_iff (hN : 0 < N) (hW : 0 < ws.sum) {r : ℕ} {b : F} :
    (r : F) / N * ws.sum < b ↔ r < ⌈N * b / ws.sum⌉₊ := by
  have hN' : (0 : F) < N := Nat.cast_pos.mpr hN
  rw [Nat.lt_ceil, lt_div_iff₀ hW, div_mul_eq_mul_div, div_lt_iff₀ hN', mul_comm b]

theorem card_within (hN : 0 < N) (hws : ∀ w ∈ ws, 0 ≤ w) (hW : 0 < ws.sum) (i : ℕ) :
    (((Finset.range N).filter fun r : ℕ => Within ws i ((r : F) / N * ws.sum)).card : ℤ) = share N ws i := by
  have hceil : ∀ j, ⌈N * upTo ws j / ws.sum⌉₊ ≤ N := by
    intro j
    rw [Nat.ceil_le, div_le_iff₀ hW]
    exact mul_le_mul_of_nonneg_left (upTo_le_sum hws j) (Nat.cast_nonneg N)
  have hmono : ⌈N * upTo ws i / ws.sum⌉₊ ≤ ⌈N * upTo ws (i + 1) / ws.sum⌉₊ := by
    apply Nat.ceil_mono
    rw [div_le_div_iff_of_pos_right hW]
    exact mul_le_mul_of_nonneg_left (upTo_le_succ hws i) (Nat.cast_nonneg N)
  have heq : ((Finset.range N).filter fun r : ℕ => Within ws i ((r : F) / N * ws.sum)) =
      Finset.Ico ⌈N * upTo ws i / ws.sum⌉₊ ⌈N * upTo ws (i + 1) / ws.sum⌉₊ := by
    ext r
    rw [Finset.mem_filter, Finset.mem_range, Finset.mem_Ico, Within, anchor_lt_iff hN hW, ← not_lt,
      anchor_lt_iff hN hW, not_lt]
    constructor
    · exact fun h => h.2
    · exact fun h => ⟨h.2.trans_le (hceil _), h⟩
  have hnat : ∀ j, ((⌈N * upTo ws j / ws.sum⌉₊ : ℕ) : ℤ) = ⌈N * upTo ws j / ws.sum⌉ := by
    intro j
    apply Int.natCast_ceil_eq_ceil
    exact div_nonneg (mul_nonneg (Nat.cast_nonneg N) (upTo_nonneg hws j)) hW.le
  rw [heq, Nat.card_Ico, Nat.cast_sub hmono, hnat, hnat, share]

theorem share_near {i : ℕ} (hi : i < ws.length) : |(share N ws i : F) - N * ws[i] / ws.sum| < 1 := by
  have h := scaled_succ hi (N : F) ws.sum
  have h₁ := Int.le_ceil (N * upTo ws i / ws.sum)
  have h₂ := Int.ceil_lt_add_one (N * upTo ws i / ws.sum)
  have h₃ := Int.le_ceil (N * upTo ws (i + 1) / ws.sum)
  have h₄ := Int.ceil_lt_add_one (N * upTo ws (i + 1) / ws.sum)
  rw [share, Int.cast_sub, abs_lt]
  constructor <;> linarith

theorem share_pos {i : ℕ} (hi : i < ws.length) (hW : 0 < ws.sum) (h : ws.sum ≤ N * ws[i]) :
    1 ≤ share N ws i := by
  have hone : 1 ≤ N * ws[i] / ws.sum := (one_le_div hW).mpr h
  have hle : ⌈N * upTo ws i / ws.sum⌉ + 1 ≤ ⌈N * upTo ws (i + 1) / ws.sum⌉ := by
    rw [← Int.ceil_add_one]
    apply Int.ceil_mono
    rw [scaled_succ hi]
    linarith
  rw [share]
  omega

end Count

/-- Over `N` consecutive values of a cursor, wherever it starts, a predicate of period `N` holds as often as
over the first `N`. -/
theorem count_window {p : ℕ → Prop} [DecidablePred p] {N : ℕ} (hp : Function.Periodic p N) (start : ℕ) :
    N.count (fun j => p (start + j)) = N.count p := by
  rw [← Nat.filter_Ico_card_eq_of_periodic start N p hp, Nat.count_eq_card_filter_range]
  apply Finset.card_nbij (start + ·)
  · intro j hj
    rw [Finset.mem_coe, Finset.mem_filter, Finset.mem_range] at hj
    rw [Finset.mem_coe, Finset.mem_filter, Finset.mem_Ico]
    exact ⟨⟨Nat.le_add_right start j, Nat.add_lt_add_left hj.1 start⟩, hj.2⟩
  · intro i _ j _ hij
    exact Nat.add_left_cancel hij
  · intro r hr
    rw [Finset.mem_coe, Finset.mem_filter, Finset.mem_Ico] at hr
    refine ⟨r - start, ?_, by show start + (r - start) = r; omega⟩
    rw [Finset.mem_coe, Finset.mem_filter, Finset.mem_range, Nat.add_sub_cancel' hr.1.1]
    exact ⟨by omega, hr.2⟩

end RoundRobin.Grid
