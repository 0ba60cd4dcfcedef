import Mathlib.Algebra.BigOperators.Group.List.Basic
import Mathlib.Algebra.GroupWithZero.Nat
import Mathlib.Algebra.Order.Group.Nat

/-!
# RoundRobin.Lib.Machine — runs of a partial step function

`step s e` is the state after the event `e`, and `none` if `e` cannot happen in `s`.  A run performs one event
after the other.

* `run_inv`, `run_inv_of`: what every step keeps, or every step of a kind, holds wherever a run leads.
* `run_rel`: what every step does to the state, a run does, for a preorder.
* `run_cost`: events that use up a measure are bounded by the measure and by what the others add to it.
* `run_history`: what every event adds to a history, the events of a run add to it one after the other.
-/

namespace RoundRobin.Machine

variable {S E : Type} {step : S → E → Option S} {s s' : S} {es : List E}

/-- Perform the events in order. -/
def run (step : S → E → Option S) (s : S) : List E → Option S
  | [] => some s
  | e :: es => (step s e).bind fun s' => run step s' es

theorem run_cons {e : E} (h : run step s (e :: es) = some s') :
    ∃ x, step s e = some x ∧ run step x es = some s' := Option.bind_eq_some_iff.mp h

theorem run_append (es es' : List E) :
    run step s (es ++ es') = (run step s es).bind fun x => run step x es' := by
  induction es generalizing s with
  | nil => rfl
  | cons e es ih =>
    simp only [List.cons_append, run, Option.bind_assoc]
    exact congrArg _ (funext fun x => ih)

theorem run_trans {es₁ es₂ : List E} {x : S} (h₁ : run step s es₁ = some x) (h₂ : run step x es₂ = some s') :
    run step s (es₁ ++ es₂) = some s' := by
  rw [run_append, h₁]
  exact h₂

/-- **Invariants.**  What holds initially and is kept by every event of a kind holds wherever a run of such events
leads. -/
theorem run_inv_of (P : S → Prop) (Q : E → Prop) (h : run step s es = some s') (hs : P s) (hes : ∀ e ∈ es, Q e)
    (hstep : ∀ x y e, P x → Q e → step x e = some y → P y) : P s' := by
  induction es generalizing s with
  | nil =>
    obtain rfl := Option.some.inj h
    exact hs
  | cons e es ih =>
    obtain ⟨x, hx, hr⟩ := run_cons h
    exact ih hr (hstep s x e hs (hes e List.mem_cons_self) hx) fun e' he' => hes e' (List.mem_cons_of_mem e he')

theorem run_inv (P : S → Prop) (h : run step s es = some s') (hs : P s)
    (hstep : ∀ x y e, P x → step x e = some y → P y) : P s' :=
  run_inv_of P (fun _ => True) h hs (fun _ _ => trivial) fun x y e hx _ => hstep x y e hx

/-- What every step does to a state that satisfies the invariant, a run does. -/
theorem run_rel (P : S → Prop) (R : S → S → Prop) (h : run step s es = some s') (hs : P s)
    (hrefl : ∀ x, R x x) (htrans : ∀ x y z, R x y → R y z → R x z)
    (hstep : ∀ x y e, P x → step x e = some y → P y ∧ R x y) : P s' ∧ R s s' := by
  refine run_inv (fun x => P x ∧ R s x) h ⟨hs, hrefl s⟩ fun x y e ⟨hx, hr⟩ hxy => ?_
  obtain ⟨hy, hxr⟩ := hstep x y e hx hxy
  exact ⟨hy, htrans s x y hr hxr⟩

/-- **Variants.**  If every event that costs takes its cost from `μ`, and only the others add to it, then all costs
of a run are paid by what was there and what was added. -/
theorem run_cost (P : S → Prop) (μ : S → ℕ) (cost gain : E → ℕ) (h : run step s es = some s') (hs : P s)
    (hstep : ∀ x y e, P x → step x e = some y → P y ∧ μ y + cost e ≤ μ x + gain e) :
    P s' ∧ μ s' + (es.map cost).sum ≤ μ s + (es.map gain).sum := by
  induction es generalizing s with
  | nil =>
    obtain rfl := Option.some.inj h
    exact ⟨hs, le_rfl⟩
  | cons e es ih =>
    obtain ⟨x, hx, hr⟩ := run_cons h
    obtain ⟨hPx, hle⟩ := hstep s x e hs hx
    obtain ⟨hPs, hrest⟩ := ih hr hPx
    refine ⟨hPs, ?_⟩
    rw [List.map_cons, List.map_cons, List.sum_cons, List.sum_cons]
    omega

theorem sum_ite (p : E → Bool) (n : ℕ) (es : List E) :
    (es.map fun e => if p e then n else 0).sum = n * es.countP p := by
  induction es with
  | nil => rfl
  | cons e es ih =>
    rw [List.map_cons, List.sum_cons, List.countP_cons, ih, Nat.mul_add, add_comm]
    split_ifs <;> simp

/-- Events that use up a measure nothing adds to. -/
theorem run_count (P : S → Prop) (μ : S → ℕ) (p : E → Bool) (h : run step s es = some s') (hs : P s)
    (hstep : ∀ x y e, P x → step x e = some y → P y ∧ μ y + (if p e then 1 else 0) ≤ μ x) :
    P s' ∧ μ s' + es.countP p ≤ μ s := by
  obtain ⟨hs', hle⟩ := run_cost P μ (fun e => if p e then 1 else 0) (fun _ => 0) h hs hstep
  rw [sum_ite, one_mul, List.sum_map_zero, add_zero] at hle
  exact ⟨hs', hle⟩

/-- **Histories.**  If every event adds its entry to a history, a run adds one for each of its events, in order. -/
theorem run_history {W : Type} (hist : S → List W) (R : E → W → Prop) (P : S → Prop) (Q : E → Prop)
    (h : run step s es = some s') (hs : P s) (hes : ∀ e ∈ es, Q e)
    (hstep : ∀ x y e, P x → Q e → step x e = some y → P y ∧ ∃ w, hist y = hist x ++ [w] ∧ R e w) :
    ∃ ws, hist s' = hist s ++ ws ∧ List.Forall₂ R es ws := by
  induction es generalizing s with
  | nil =>
    obtain rfl := Option.some.inj h
    exact ⟨[], (List.append_nil _).symm, .nil⟩
  | cons e es ih =>
    obtain ⟨x, hx, hr⟩ := run_cons h
    obtain ⟨hPx, w, hw, hR⟩ := hstep s x e hs (hes e List.mem_cons_self) hx
    obtain ⟨ws, hws, hall⟩ := ih hr hPx fun e' he' => hes e' (List.mem_cons_of_mem e he')
    exact ⟨w :: ws, by rw [hws, hw, List.append_assoc]; rfl, .cons hR hall⟩

end RoundRobin.Machine
