import Mathlib.Data.Nat.Notation

/-!
# RoundRobin.Lib.Tally — runs whose steps produce something

`Tally step x n r y`: `n` steps lead from `x` to `y` and produce `r` things together.

* `Tally.produced`: a potential that pays for everything a step produces bounds what a run produces.
* `Tally.length`: a stock that every step takes one from, and that only the products refill, bounds how long a
  run is.
* `not_endless`: no infinite run.
-/

namespace RoundRobin

variable {α : Type} {step : α → ℕ → α → Prop}

inductive Tally (step : α → ℕ → α → Prop) (x : α) : ℕ → ℕ → α → Prop where
  | refl : Tally step x 0 0 x
  | tail {n r k : ℕ} {y z : α} : Tally step x n r y → step y k z → Tally step x (n + 1) (r + k) z

namespace Tally

theorem produced {p : α → ℕ} (hstep : ∀ x k y, step x k y → p y + k ≤ p x)
    {x y : α} {n r : ℕ} (h : Tally step x n r y) : p y + r ≤ p x := by
  induction h with
  | refl => exact Nat.le_refl _
  | tail _ hs ih =>
    have := hstep _ _ _ hs
    omega

theorem length {p : α → ℕ} (hstep : ∀ x k y, step x k y → p y + 1 ≤ p x + k)
    {x y : α} {n r : ℕ} (h : Tally step x n r y) : p y + n ≤ p x + r := by
  induction h with
  | refl => exact Nat.le_refl _
  | tail _ hs ih =>
    have := hstep _ _ _ hs
    omega

/-- The first `n` steps of an infinite run. -/
theorem initial {g : ℕ → α} (hg : ∀ n, ∃ k, step (g n) k (g (n + 1))) (n : ℕ) :
    ∃ r, Tally step (g 0) n r (g n) := by
  induction n with
  | zero => exact ⟨0, .refl⟩
  | succ n ih =>
    obtain ⟨r, h⟩ := ih
    obtain ⟨k, hk⟩ := hg n
    exact ⟨r + k, h.tail hk⟩

/-- Where runs have a bounded length, none is infinite. -/
theorem not_endless {x : α} {b : ℕ} (h : ∀ n r y, Tally step x n r y → n ≤ b) :
    ¬ ∃ g : ℕ → α, g 0 = x ∧ ∀ n, ∃ k, step (g n) k (g (n + 1)) := by
  rintro ⟨g, rfl, hg⟩
  obtain ⟨r, hr⟩ := initial hg (b + 1)
  have := h _ _ _ hr
  omega

end Tally

end RoundRobin
