import Mathlib.Logic.Relation
import Mathlib.Algebra.BigOperators.Group.List.Basic
import Mathlib.Algebra.GroupWithZero.Nat

/-!
# RoundRobin.Lib.Tasks — interleaved tasks over a shared state

A task is a stack of instructions; one step of the system runs the instruction on top of one task
atomically.  An instruction may replace itself by further instructions (branches, calls, loops), so
the rest of the stack is its continuation.  The scheduler is arbitrary: tasks start, step and
interleave in any order, and the environment changes the shared state at any time.

* `Step ok`: one step, where every task step also satisfies the guard `ok` (a condition on the state
  before the step; `fun _ _ _ _ => true` for all runs).
* `Runs.inv`: an invariant of the steps holds wherever a run leads.
* `Solo`: a task that runs without interference.
* `moves`: an executable scheduler; a schedule that can be performed is a run.
-/

namespace RoundRobin

open Relation

/-- `exec s i c` runs instruction `i` in `s` as one atomic step, `c` standing for whatever the code
does not determine; it gives the new state and the instructions to run next. -/
structure TaskSystem (S I C : Type) where
  exec : S → I → C → Option (S × List I)
  spawn : S → List I → Prop
  env : S → S → Prop

/-- The shared state and the stacks of all tasks started so far; a finished task is `[]`. -/
structure Config (S I : Type) where
  shared : S
  tasks : List (List I)

/-- A condition on a task step: the shared state, the other tasks, the stepping task, the choice. -/
abbrev Guard (S I C : Type) := S → List (List I) → List I → C → Bool

namespace TaskSystem

variable {S I C : Type} (M : TaskSystem S I C)

def free : Guard S I C := fun _ _ _ _ => true

inductive Step (ok : Guard S I C) : Config S I → Config S I → Prop where
  | task {s s' : S} {l r : List (List I)} {i : I} {k is : List I} {c : C} :
      M.exec s i c = some (s', is) → ok s (l ++ r) (i :: k) c = true →
      Step ok ⟨s, l ++ (i :: k) :: r⟩ ⟨s', l ++ (is ++ k) :: r⟩
  | spawn {s : S} {ts : List (List I)} {t : List I} :
      M.spawn s t → Step ok ⟨s, ts⟩ ⟨s, ts ++ [t]⟩
  | env {s s' : S} {ts : List (List I)} : M.env s s' → Step ok ⟨s, ts⟩ ⟨s', ts⟩

/-- Any number of steps, all task steps within the guard. -/
def Runs (ok : Guard S I C) (x y : Config S I) : Prop := ReflTransGen (M.Step ok) x y

/-- Reached from `init` with no task started. -/
def Reachable (ok : Guard S I C) (init : S) (x : Config S I) : Prop := M.Runs ok ⟨init, []⟩ x

/-- Every task has finished. -/
def Quiet (x : Config S I) : Prop := ∀ t ∈ x.tasks, t = []

instance [DecidableEq I] (x : Config S I) : Decidable (Quiet x) :=
  inferInstanceAs (Decidable (∀ t ∈ x.tasks, t = []))

variable {M}

/-- **Invariants.**  What holds initially and is kept by every step holds wherever a run leads. -/
theorem Runs.inv {ok : Guard S I C} {x0 : Config S I} {P : Config S I → Prop} {x : Config S I}
    (h : M.Runs ok x0 x) (h0 : P x0) (hstep : ∀ y z, P y → M.Step ok y z → P z) : P x := by
  induction h with
  | refl => exact h0
  | tail _ hs ih => exact hstep _ _ ih hs

/-! ## Facts about single instructions -/

/-- A property of instructions that every started task has and every step keeps holds of all
instructions of all tasks. -/
theorem forall_mem_task_step {ok : Guard S I C} {p : I → Prop} {y z : Config S I}
    (hy : ∀ t ∈ y.tasks, ∀ j ∈ t, p j) (hs : M.Step ok y z)
    (hspawn : ∀ s t, M.spawn s t → ∀ j ∈ t, p j)
    (hexec : ∀ s s' i c is rest k, M.exec s i c = some (s', is) → ok s rest (i :: k) c = true →
      p i → ∀ j ∈ is, p j) :
    ∀ t ∈ z.tasks, ∀ j ∈ t, p j := by
  cases hs with
  | @task s s' l r i k is c he hok =>
    have hi : p i := hy (i :: k) (by simp) i (by simp)
    intro t ht j hj
    rcases List.mem_append.mp ht with hl | hr
    · exact hy t (by simp [hl]) j hj
    · rcases List.mem_cons.mp hr with rfl | hr
      · rcases List.mem_append.mp hj with hj | hj
        · exact hexec _ _ _ _ _ _ _ he hok hi j hj
        · exact hy (i :: k) (by simp) j (by simp [hj])
      · exact hy t (by simp [hr]) j hj
  | spawn h =>
    intro t ht j hj
    rcases List.mem_append.mp ht with ht | ht
    · exact hy t ht j hj
    · obtain rfl := List.mem_singleton.mp ht
      exact hspawn _ _ h j hj
  | env h => exact hy

/-- An instruction some task has still ahead of it. -/
def Ahead (x : Config S I) (j : I) : Prop := ∃ t ∈ x.tasks, j ∈ t

/-- After a task step an instruction is still ahead, or it was the step. -/
theorem ahead_task {s u : S} {l r : List (List I)} {i j : I} {k n : List I}
    (h : Ahead ⟨s, l ++ (i :: k) :: r⟩ j) : i = j ∨ Ahead ⟨u, l ++ (n ++ k) :: r⟩ j := by
  obtain ⟨t, ht, hj⟩ := h
  rcases List.mem_append.mp ht with hl | hcons
  · exact .inr ⟨t, by simp [hl], hj⟩
  · rcases List.mem_cons.mp hcons with rfl | hr
    · rcases List.mem_cons.mp hj with rfl | hk
      · exact .inl rfl
      · exact .inr ⟨n ++ k, by simp, by simp [hk]⟩
    · exact .inr ⟨t, by simp [hr], hj⟩

theorem ahead_new {s' : S} {l r : List (List I)} {j : I} {k is : List I} (h : j ∈ is) :
    Ahead ⟨s', l ++ (is ++ k) :: r⟩ j := ⟨is ++ k, by simp, by simp [h]⟩

theorem ahead_spawn {s : S} {ts : List (List I)} {t : List I} {j : I} (h : Ahead ⟨s, ts⟩ j) :
    Ahead ⟨s, ts ++ [t]⟩ j := by
  obtain ⟨u, hu, hj⟩ := h
  exact ⟨u, by simp [hu], hj⟩

theorem ahead_self {s : S} {l r : List (List I)} {i : I} {k : List I} :
    Ahead ⟨s, l ++ (i :: k) :: r⟩ i := ⟨i :: k, by simp, by simp⟩

theorem ahead_before {s u : S} {l r : List (List I)} {i j : I} {k n : List I}
    (h : Ahead ⟨u, l ++ (n ++ k) :: r⟩ j) : j ∈ n ∨ Ahead ⟨s, l ++ (i :: k) :: r⟩ j := by
  obtain ⟨t, ht, hj⟩ := h
  rcases List.mem_append.mp ht with hl | hcons
  · exact .inr ⟨t, by simp [hl], hj⟩
  · rcases List.mem_cons.mp hcons with rfl | hr
    · rcases List.mem_append.mp hj with hn | hk
      · exact .inl hn
      · exact .inr ⟨i :: k, by simp, by simp [hk]⟩
    · exact .inr ⟨t, by simp [hr], hj⟩

theorem ahead_before_spawn {s : S} {ts : List (List I)} {t : List I} {j : I}
    (h : Ahead ⟨s, ts ++ [t]⟩ j) : j ∈ t ∨ Ahead ⟨s, ts⟩ j := by
  obtain ⟨u, hu, hj⟩ := h
  rcases List.mem_append.mp hu with hu | hu
  · exact .inr ⟨u, hu, hj⟩
  · obtain rfl := List.mem_singleton.mp hu
    exact .inl hj

/-- Some task has an instruction with the property ahead of it. -/
def Has (p : I → Bool) (x : Config S I) : Prop := ∃ t ∈ x.tasks, t.any p = true

theorem has_task {p : I → Bool} {s u : S} {l r : List (List I)} {i : I} {k n : List I}
    (h : Has p ⟨s, l ++ (i :: k) :: r⟩) : p i = true ∨ Has p ⟨u, l ++ (n ++ k) :: r⟩ := by
  obtain ⟨t, ht, hp⟩ := h
  obtain ⟨j, hj, hpj⟩ := List.any_eq_true.mp hp
  rcases ahead_task (u := u) (n := n) ⟨t, ht, hj⟩ with rfl | ⟨t', ht', hj'⟩
  · exact .inl hpj
  · exact .inr ⟨t', ht', List.any_eq_true.mpr ⟨j, hj', hpj⟩⟩

theorem has_new {p : I → Bool} {u : S} {l r : List (List I)} {k is : List I} (h : is.any p = true) :
    Has p ⟨u, l ++ (is ++ k) :: r⟩ := ⟨is ++ k, by simp, by rw [List.any_append, h, Bool.true_or]⟩

theorem has_rest {p : I → Bool} {u : S} {l r : List (List I)} {k is : List I} (h : k.any p = true) :
    Has p ⟨u, l ++ (is ++ k) :: r⟩ := ⟨is ++ k, by simp, by rw [List.any_append, h, Bool.or_true]⟩

theorem has_spawn {p : I → Bool} {s : S} {ts : List (List I)} {t : List I} (h : Has p ⟨s, ts⟩) :
    Has p ⟨s, ts ++ [t]⟩ := by
  obtain ⟨u, hu, hp⟩ := h
  exact ⟨u, by simp [hu], hp⟩

theorem Quiet.not_has {x : Config S I} (h : Quiet x) (p : I → Bool) : ¬ Has p x := by
  rintro ⟨t, ht, hp⟩
  rw [h t ht] at hp
  cases hp

theorem Quiet.not_ahead {x : Config S I} (h : Quiet x) (j : I) : ¬ Ahead x j := by
  rintro ⟨t, ht, hj⟩
  rw [h t ht] at hj
  cases hj

/-! ## Sums over all tasks -/

/-- The total of an instruction weight over all tasks. -/
def weight (w : I → ℕ) (ts : List (List I)) : ℕ := (ts.map fun t => (t.map w).sum).sum

@[simp] theorem weight_nil (w : I → ℕ) : weight w [] = 0 := rfl

@[simp] theorem weight_append (w : I → ℕ) (l r : List (List I)) :
    weight w (l ++ r) = weight w l + weight w r := by
  simp [weight]

@[simp] theorem weight_cons (w : I → ℕ) (t : List I) (r : List (List I)) :
    weight w (t :: r) = (t.map w).sum + weight w r := by
  simp [weight]

theorem weight_quiet (w : I → ℕ) {ts : List (List I)} (h : ∀ t ∈ ts, t = []) : weight w ts = 0 := by
  induction ts with
  | nil => rfl
  | cons t ts ih =>
    rw [weight_cons, h t (by simp), ih fun t ht => h t (by simp [ht])]
    rfl

/-! ## One task on its own -/

/-- One step of a task that nobody interferes with. -/
def SoloStep (M : TaskSystem S I C) (a b : S × List I) : Prop :=
  ∃ i k c s' is, a.2 = i :: k ∧ M.exec a.1 i c = some (s', is) ∧ b = (s', is ++ k)

/-- A task runs without interference. -/
def Solo (M : TaskSystem S I C) (a b : S × List I) : Prop := ReflTransGen M.SoloStep a b

theorem Solo.head {s s' : S} {i : I} {k is : List I} {c : C} {b : S × List I}
    (he : M.exec s i c = some (s', is)) (h : M.Solo (s', is ++ k) b) : M.Solo (s, i :: k) b :=
  ReflTransGen.head ⟨i, k, c, s', is, rfl, he, rfl⟩ h

/-- **Invariants of a lone task.**  What holds initially and is kept by every instruction holds wherever
the task leads. -/
theorem Solo.inv {P : S → List I → Prop} {s s' : S} {t t' : List I} (h : M.Solo (s, t) (s', t'))
    (h0 : P s t) (hstep : ∀ s i k c s' is, P s (i :: k) → M.exec s i c = some (s', is) → P s' (is ++ k)) :
    P s' t' := by
  have hrun : ∀ b, M.Solo (s, t) b → P b.1 b.2 := by
    intro b hb
    induction hb with
    | refl => exact h0
    | tail _ hs ih =>
      obtain ⟨i, k, c, s₂, is, ht, he, rfl⟩ := hs
      rw [ht] at ih
      exact hstep _ _ _ _ _ _ ih he
  exact hrun _ h

/-- Run a task alone, with the given choices. -/
def soloRun (M : TaskSystem S I C) : List C → S × List I → Option (S × List I)
  | [], a => some a
  | c :: cs, (s, i :: k) => (M.exec s i c).bind fun r => soloRun M cs (r.1, r.2 ++ k)
  | _ :: _, (_, []) => none

theorem soloRun_solo {cs : List C} {a b : S × List I} (h : M.soloRun cs a = some b) : M.Solo a b := by
  induction cs generalizing a with
  | nil =>
    obtain rfl := Option.some.inj h
    exact .refl
  | cons c cs ih =>
    obtain ⟨s, t⟩ := a
    cases t with
    | nil => cases h
    | cons i k =>
      simp only [soloRun, Option.bind_eq_some_iff] at h
      obtain ⟨⟨s', is⟩, he, hr⟩ := h
      exact .head he (ih hr)

/-! ## An executable scheduler -/

/-- One move of a schedule: step task `n`, start a task, or let the environment act. -/
inductive Move (S I C : Type) where
  | step (n : ℕ) (c : C)
  | start (t : List I)
  | env (f : S → S)

/-- Perform one move, if it is possible and within the guard. -/
def move (M : TaskSystem S I C) (ok : Guard S I C) (x : Config S I) : Move S I C → Option (Config S I)
  | .step n c =>
    match x.tasks.drop n with
    | (i :: k) :: r =>
      match M.exec x.shared i c with
      | some (s', is) =>
        if ok x.shared (x.tasks.take n ++ r) (i :: k) c then
          some ⟨s', x.tasks.take n ++ (is ++ k) :: r⟩
        else none
      | none => none
    | _ => none
  | .start t => some ⟨x.shared, x.tasks ++ [t]⟩
  | .env f => some ⟨f x.shared, x.tasks⟩

/-- Perform a whole schedule. -/
def moves (M : TaskSystem S I C) (ok : Guard S I C) (x : Config S I) :
    List (Move S I C) → Option (Config S I)
  | [] => some x
  | m :: ms => (move M ok x m).bind fun y => moves M ok y ms

/-- The tasks a schedule starts and its environment moves are allowed. -/
def Allowed (M : TaskSystem S I C) : Move S I C → Prop
  | .step _ _ => True
  | .start t => ∀ s, M.spawn s t
  | .env f => ∀ s, M.env s (f s)

theorem move_step {ok : Guard S I C} {x y : Config S I} {m : Move S I C} (hm : M.Allowed m)
    (h : M.move ok x m = some y) : M.Step ok x y := by
  obtain ⟨s, ts⟩ := x
  cases m with
  | step n c =>
    simp only [move] at h
    split at h
    · rename_i i k r hd
      split at h
      · rename_i s' is he
        split_ifs at h with hok
        obtain rfl := Option.some.inj h
        have hts : ts = ts.take n ++ (i :: k) :: r := by rw [← hd, List.take_append_drop]
        have hst := Step.task (l := ts.take n) (r := r) he hok
        rwa [← hts] at hst
      · cases h
    · cases h
  | start t =>
    obtain rfl := Option.some.inj h
    exact .spawn (hm s)
  | env f =>
    obtain rfl := Option.some.inj h
    exact .env (hm s)

/-- **Schedules are runs.** -/
theorem moves_runs {ok : Guard S I C} {ms : List (Move S I C)} {x y : Config S I}
    (hms : ∀ m ∈ ms, M.Allowed m) (h : M.moves ok x ms = some y) : M.Runs ok x y := by
  induction ms generalizing x with
  | nil =>
    obtain rfl := Option.some.inj h
    exact .refl
  | cons m ms ih =>
    simp only [moves, Option.bind_eq_some_iff] at h
    obtain ⟨z, hz, hy⟩ := h
    exact .head (move_step (hms m (by simp)) hz) (ih (fun m hm => hms m (by simp [hm])) hy)

theorem moves_exists {g : Guard S I C} {x : Config S I} {m : List (Move S I C)}
    {p : Config S I → Bool} (hm : ∀ a ∈ m, M.Allowed a) (h : (M.moves g x m).any p = true) :
    ∃ y, M.Runs g x y ∧ p y = true := by
  obtain ⟨y, hy, hp⟩ := (Option.any_eq_true _ _).mp h
  exact ⟨y, moves_runs hm hy, hp⟩

end TaskSystem

end RoundRobin
