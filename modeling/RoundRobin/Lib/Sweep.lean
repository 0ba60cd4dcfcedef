import Mathlib.Logic.Function.Basic
import Mathlib.Order.Basic

/-!
# RoundRobin.Lib.Sweep — rounds over a map that others write

A sweeper looks at the entries of a map one after the other and removes those that are no longer `good` at the time
its round began, while others add, refresh and remove entries.  A round sees every key that was there when it began
the map; `done` says which it has behind it.  What the last whole round left is good at the time it began, and so is
whatever was written since.
-/

namespace RoundRobin

variable {K V : Type} {good : ℕ → V → Prop} {m m' : K → Option V} {last began now : ℕ} {done done' : K → Prop}

/-- The last whole round began at `last`; the one that began at `began` has the keys in `done` behind it. -/
structure Swept (good : ℕ → V → Prop) (m : K → Option V) (last began : ℕ) (done : K → Prop) : Prop where
  whole : ∀ k v, m k = some v → good last v
  part : ∀ k v, m k = some v → done k → good began v

namespace Swept

theorem empty : Swept good (fun _ : K => none) last began done := ⟨nofun, nofun⟩

/-- Others refresh entries, add fresh ones and remove some. -/
theorem others (h : Swept good m last began done) (hle : last ≤ now ∧ began ≤ now)
    (hw : ∀ k v', m' k = some v' →
      (∃ v, m k = some v ∧ ∀ t ≤ now, good t v → good t v') ∨ ∀ t ≤ now, good t v') :
    Swept good m' last began done := by
  refine ⟨fun k v' hv' => ?_, fun k v' hv' hd => ?_⟩
  · rcases hw k v' hv' with ⟨v, hv, hgood⟩ | hgood
    · exact hgood last hle.1 (h.whole k v hv)
    · exact hgood last hle.1
  · rcases hw k v' hv' with ⟨v, hv, hgood⟩ | hgood
    · exact hgood began hle.2 (h.part k v hv hd)
    · exact hgood began hle.2

/-- A round begins the map. -/
theorem start (h : Swept good m last began done) (now : ℕ) (hnew : ∀ k v, m k = some v → ¬ done' k) :
    Swept good m last now done' := ⟨h.whole, fun k v hv hd => absurd hd (hnew k v hv)⟩

/-- The sweeper leaves an entry that is good, or finds none. -/
theorem keep (h : Swept good m last began done) {c : K} (hc : ∀ v, m c = some v → good began v)
    (hd : ∀ k, done' k → done k ∨ k = c) : Swept good m last began done' := by
  refine ⟨h.whole, fun k v hv hk => ?_⟩
  rcases hd k hk with hk | rfl
  · exact h.part k v hv hk
  · exact hc v hv

/-- It removes an entry. -/
theorem remove [DecidableEq K] (h : Swept good m last began done) {c : K} (hd : ∀ k, done' k → done k ∨ k = c) :
    Swept good (Function.update m c none) last began done' := by
  have hsub : ∀ k v, Function.update m c none k = some v → m k = some v ∧ k ≠ c := by
    intro k v hv
    by_cases hk : k = c
    · rw [hk, Function.update_self] at hv
      cases hv
    · rw [Function.update_of_ne hk] at hv
      exact ⟨hv, hk⟩
  refine ⟨fun k v hv => h.whole k v (hsub k v hv).1, fun k v hv hk => ?_⟩
  obtain ⟨hm, hne⟩ := hsub k v hv
  exact h.part k v hm ((hd k hk).resolve_right hne)

/-- A whole round is over. -/
theorem finish (h : Swept good m last began done) (hall : ∀ k v, m k = some v → done k) (hnone : ∀ k, ¬ done' k) :
    Swept good m began began done' :=
  ⟨fun k v hv => h.part k v hv (hall k v hv), fun k _ _ hk => absurd hk (hnone k)⟩

end Swept

end RoundRobin
