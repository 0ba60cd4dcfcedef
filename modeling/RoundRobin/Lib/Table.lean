import Mathlib.Data.List.AList
import Mathlib.Algebra.BigOperators.Group.List.Basic
import Mathlib.Algebra.GroupWithZero.Nat
import Mathlib.Algebra.Order.BigOperators.Group.List
import Mathlib.Algebra.Order.Monoid.NatCast
import Mathlib.Algebra.Order.Ring.Nat

/-!
# RoundRobin.Lib.Table — finite maps with a size and weighted totals

`Table K V` is Mathlib's `AList` at a constant family: an association list without duplicate keys.
`total w m` sums a weight over the entries; every update changes it by the weights of the entry it
adds and of the entry it takes away (`total_del`, `total_put`, `total_retain`).
-/

namespace RoundRobin

/-- A finite map. -/
abbrev Table (K V : Type) := AList (fun _ : K => V)

namespace Table

variable {K V : Type}

/-- The number of entries. -/
def size (m : Table K V) : ℕ := m.entries.length

/-- The sum of a weight over the entries. -/
def total (w : K → V → ℕ) (m : Table K V) : ℕ := (m.entries.map fun e => w e.1 e.2).sum

/-- Keep the entries that satisfy `p`. -/
def retain (m : Table K V) (p : K → V → Bool) : Table K V :=
  ⟨m.entries.filter fun e => p e.1 e.2, m.nodupKeys.sublist List.filter_sublist⟩

@[simp] theorem size_empty : size (∅ : Table K V) = 0 := rfl

@[simp] theorem total_empty (w : K → V → ℕ) : total w (∅ : Table K V) = 0 := rfl

theorem size_eq_total (m : Table K V) : m.size = m.total fun _ _ => 1 := by
  simp [size, total]

theorem total_retain (w : K → V → ℕ) (m : Table K V) (p : K → V → Bool) :
    total w (m.retain p) + total w (m.retain fun k v => !p k v) = total w m := by
  obtain ⟨l, hl⟩ := m
  simp only [total, retain]
  clear hl
  induction l with
  | nil => rfl
  | cons e l ih => cases hp : p e.1 e.2 <;> simp [hp] <;> omega

variable [DecidableEq K]

def get (m : Table K V) (k : K) : Option V := m.lookup k

def put (m : Table K V) (k : K) (v : V) : Table K V := m.insert k v

def del (m : Table K V) (k : K) : Table K V := m.erase k

theorem get_eq_dlookup (m : Table K V) (k : K) : m.get k = m.entries.dlookup k := rfl

theorem del_entries (m : Table K V) (k : K) : (m.del k).entries = m.entries.kerase k := rfl

@[simp] theorem get_empty (k : K) : get (∅ : Table K V) k = none := rfl

@[simp] theorem get_put_self (m : Table K V) (k : K) (v : V) : (m.put k v).get k = some v :=
  AList.lookup_insert m

theorem get_put_ne (m : Table K V) {k k' : K} (v : V) (h : k' ≠ k) :
    (m.put k v).get k' = m.get k' := AList.lookup_insert_ne h

theorem get_put (m : Table K V) (k k' : K) (v : V) :
    (m.put k v).get k' = if k' = k then some v else m.get k' := by
  by_cases h : k' = k
  · rw [if_pos h, h, get_put_self]
  · rw [if_neg h, get_put_ne m v h]

@[simp] theorem get_del_self (m : Table K V) (k : K) : (m.del k).get k = none :=
  AList.lookup_erase k m

theorem get_del_ne (m : Table K V) {k k' : K} (h : k' ≠ k) : (m.del k).get k' = m.get k' :=
  AList.lookup_erase_ne h

theorem get_of_retain {m : Table K V} {p : K → V → Bool} {k : K} {v : V}
    (h : (m.retain p).get k = some v) : m.get k = some v := by
  have hmem : (⟨k, v⟩ : Sigma fun _ : K => V) ∈ (m.retain p).entries := AList.mem_lookup_iff.mp h
  exact AList.mem_lookup_iff.mpr (List.mem_of_mem_filter hmem)

theorem retained {m : Table K V} {p : K → V → Bool} {k : K} {v : V} (h : (m.retain p).get k = some v) :
    p k v = true := by
  have hmem : (⟨k, v⟩ : Sigma fun _ : K => V) ∈ (m.retain p).entries := AList.mem_lookup_iff.mp h
  exact (List.mem_filter.mp hmem).2

/-- A total depends on the lookups only. -/
theorem total_congr {m m' : Table K V} (h : ∀ k, m.get k = m'.get k) (w : K → V → ℕ) :
    total w m = total w m' := by
  have hperm : m.entries.Perm m'.entries := by
    refine List.lookup_ext m.nodupKeys m'.nodupKeys fun k v => ?_
    rw [← get_eq_dlookup, ← get_eq_dlookup, h k]
  exact (hperm.map _).sum_eq

/-- The weight a key contributes. -/
def weightAt (w : K → V → ℕ) (m : Table K V) (k : K) : ℕ := (m.get k).elim 0 (w k)

theorem weightAt_of_some {w : K → V → ℕ} {m : Table K V} {k : K} {v : V} (h : m.get k = some v) :
    weightAt w m k = w k v := by
  simp [weightAt, h]

theorem weightAt_of_none {w : K → V → ℕ} {m : Table K V} {k : K} (h : m.get k = none) :
    weightAt w m k = 0 := by
  simp [weightAt, h]

theorem total_del (w : K → V → ℕ) (m : Table K V) (k : K) :
    total w (m.del k) + weightAt w m k = total w m := by
  obtain ⟨l, hl⟩ := m
  induction l with
  | nil => rfl
  | cons e l ih =>
    have hl' : l.NodupKeys := (List.nodupKeys_cons.mp hl).2
    obtain ⟨k', v⟩ := e
    by_cases hk : k = k'
    · subst hk
      simp [total, weightAt, get_eq_dlookup, del_entries, Nat.add_comm]
    · have h := ih hl'
      simp only [total, weightAt, get_eq_dlookup, del_entries] at h ⊢
      rw [List.kerase_cons_ne hk, List.dlookup_cons_ne _ _ hk]
      simp only [List.map_cons, List.sum_cons]
      omega

/-- A map with at most one key. -/
theorem total_eq_weightAt {w : K → V → ℕ} {m : Table K V} {k : K} (h : ∀ k' v, m.get k' = some v → k' = k) :
    total w m = weightAt w m k := by
  have hnone : ∀ k', (m.del k).get k' = (∅ : Table K V).get k' := by
    intro k'
    by_cases hk : k' = k
    · rw [hk, get_del_self, get_empty]
    · rw [get_del_ne _ hk, get_empty]
      cases hg : m.get k' with
      | none => rfl
      | some v => exact absurd (h k' v hg) hk
  rw [← total_del w m k, total_congr hnone, total_empty, Nat.zero_add]

theorem total_put (w : K → V → ℕ) (m : Table K V) (k : K) (v : V) :
    total w (m.put k v) + weightAt w m k = total w m + w k v := by
  have h := total_del w m k
  have hi : total w (m.put k v) = w k v + total w (m.del k) := by
    simp [total, put, del_entries, AList.entries_insert]
  omega

theorem total_le {w : K → V → ℕ} {m : Table K V} {c : ℕ} (h : ∀ k v, m.get k = some v → w k v ≤ c) :
    total w m ≤ m.size * c := by
  have hle : ∀ n ∈ m.entries.map fun e => w e.1 e.2, n ≤ c := by
    intro n hn
    obtain ⟨e, he, rfl⟩ := List.mem_map.mp hn
    exact h e.1 e.2 (AList.mem_lookup_iff.mpr he)
  simpa [total, size] using List.sum_le_card_nsmul _ _ hle

theorem total_congr_weight {w w' : K → V → ℕ} {m : Table K V}
    (h : ∀ k v, m.get k = some v → w k v = w' k v) : total w m = total w' m := by
  refine congrArg List.sum (List.map_congr_left fun e he => ?_)
  exact h e.1 e.2 (AList.mem_lookup_iff.mpr he)

/-- Keys from a range of `n` numbers. -/
theorem size_le_of_keys {m : Table ℕ V} {n : ℕ} (lo : ℕ)
    (h : ∀ k v, m.get k = some v → lo ≤ k ∧ k < lo + n) : m.size ≤ n := by
  have hsub : m.entries.keys ⊆ List.range' lo n := by
    intro k hk
    obtain ⟨v, hv⟩ := List.exists_of_mem_keys hk
    exact List.mem_range'_1.mpr (h k v (AList.mem_lookup_iff.mpr hv))
  have hlen := (List.subperm_of_subset m.nodupKeys hsub).length_le
  simpa [size, List.keys] using hlen

theorem size_del_of_some {m : Table K V} {k : K} {v : V} (h : m.get k = some v) :
    (m.del k).size + 1 = m.size := by
  have := total_del (fun _ _ => 1) m k
  rw [weightAt_of_some h] at this
  simpa [size_eq_total] using this

theorem size_put_of_none {m : Table K V} {k : K} (h : m.get k = none) (v : V) :
    (m.put k v).size = m.size + 1 := by
  have := total_put (fun _ _ => 1) m k v
  rw [weightAt_of_none h] at this
  simpa [size_eq_total] using this

theorem size_put_of_some {m : Table K V} {k : K} {v : V} (h : m.get k = some v) (w : V) :
    (m.put k w).size = m.size := by
  have := total_put (fun _ _ => 1) m k w
  rw [weightAt_of_some h] at this
  simpa [size_eq_total] using this

theorem size_put_le (m : Table K V) (k : K) (v : V) : (m.put k v).size ≤ m.size + 1 := by
  cases h : m.get k with
  | none => exact (size_put_of_none h v).le
  | some w => exact (size_put_of_some h v).trans_le (Nat.le_succ _)

end Table

end RoundRobin
