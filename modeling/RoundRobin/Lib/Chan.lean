import Mathlib.Data.List.Basic

/-!
# RoundRobin.Lib.Chan — bounded channels

A multi-producer queue of bounded capacity: `trySend` fails iff the receiver is gone or the queue is
full, `recv` takes the oldest item.  `log` is a history variable: every item ever accepted.
`Interleaved` splits such a log in two groups that keep its order.

`Consumer` is what the receiving side does while a caller sends item after item; `sendAll_accepts_iff`
says when a caller can rely on every item being accepted, whatever the consumer takes meanwhile.
-/

namespace RoundRobin

/-- Outcome of a `trySend`. -/
inductive SendResult where
  | ok
  | full
  | closed
  deriving DecidableEq, Repr

structure Chan (α : Type) where
  cap : ℕ
  queue : List α
  /-- The receiver is alive. -/
  isOpen : Bool
  /-- Every item ever accepted, oldest first. -/
  log : List α
  deriving DecidableEq, Repr

namespace Chan

variable {α : Type}

def new (cap : ℕ) : Chan α := ⟨cap, [], true, []⟩

/-- A `trySend` would be accepted. -/
def hasRoom (c : Chan α) : Bool := c.isOpen && decide (c.queue.length < c.cap)

def trySend (c : Chan α) (a : α) : SendResult × Chan α :=
  if c.isOpen then
    if c.queue.length < c.cap then (.ok, { c with queue := c.queue ++ [a], log := c.log ++ [a] })
    else (.full, c)
  else (.closed, c)

/-- The receiver takes the oldest item. -/
def recv (c : Chan α) : Option (α × Chan α) :=
  match c.queue with
  | [] => none
  | a :: q => some (a, { c with queue := q })

theorem recv_log {c : Chan α} {r : α × Chan α} (h : c.recv = some r) : r.2.log = c.log := by
  unfold recv at h
  split at h
  · cases h
  · obtain rfl := Option.some.inj h
    rfl

theorem recv_some {c c' : Chan α} {a : α} (h : c.recv = some (a, c')) :
    ∃ q, c.queue = a :: q ∧ c' = { c with queue := q } := by
  unfold recv at h
  split at h
  · cases h
  · rename_i b q hq
    obtain ⟨rfl, rfl⟩ := Prod.mk.inj (Option.some.inj h)
    exact ⟨q, hq, rfl⟩

theorem recv_none {c : Chan α} (h : c.recv = none) : c.queue = [] := by
  unfold recv at h
  split at h
  · assumption
  · cases h

/-- The receiver is dropped, with whatever is still queued. -/
def close (c : Chan α) : Chan α := { c with isOpen := false, queue := [] }

theorem trySend_cases (c : Chan α) (a : α) :
    (c.hasRoom = true ∧
      c.trySend a = (.ok, { c with queue := c.queue ++ [a], log := c.log ++ [a] })) ∨
    (c.hasRoom = false ∧ (c.trySend a).1 ≠ .ok ∧ (c.trySend a).2 = c) := by
  unfold trySend hasRoom
  by_cases ho : c.isOpen = true
  · by_cases hq : c.queue.length < c.cap
    · exact .inl (by simp [ho, hq])
    · exact .inr (by simp [ho, hq])
  · exact .inr (by simp [ho])

theorem trySend_ok {c : Chan α} {a : α} (h : (c.trySend a).1 = .ok) :
    c.hasRoom = true ∧
      (c.trySend a).2 = { c with queue := c.queue ++ [a], log := c.log ++ [a] } := by
  rcases trySend_cases c a with ⟨hr, hs⟩ | ⟨-, hne, -⟩
  · exact ⟨hr, by rw [hs]⟩
  · exact absurd h hne

end Chan

/-! ## Sending a run of items -/

/-- How many items the receiver takes before the `i`-th send of a caller, and before which send it is
dropped, if it is. -/
structure Consumer where
  takes : ℕ → ℕ
  dropAt : Option ℕ

namespace Consumer

/-- Takes nothing and stays. -/
def idle : Consumer := ⟨fun _ => 0, none⟩

def act {α : Type} (con : Consumer) (i : ℕ) (c : Chan α) : Chan α :=
  if con.dropAt = some i then c.close else { c with queue := c.queue.drop (con.takes i) }

end Consumer

namespace Chan

variable {α : Type}

/-- Send every item, the `i`-th one first; the flags say which were accepted. -/
def sendAll (con : Consumer) : ℕ → List α → Chan α → List Bool × Chan α
  | _, [], c => ([], c)
  | i, a :: as, c =>
    let s := (con.act i c).trySend a
    let r := sendAll con (i + 1) as s.2
    (decide (s.1 = .ok) :: r.1, r.2)

/-- Send items up to the first that is refused. -/
def sendWhile (con : Consumer) : ℕ → List α → Chan α → Bool × Chan α
  | _, [], c => (true, c)
  | i, a :: as, c =>
    match (con.act i c).trySend a with
    | (.ok, c') => sendWhile con (i + 1) as c'
    | (_, c') => (false, c')

theorem sendWhile_fst (con : Consumer) (i : ℕ) (as : List α) (c : Chan α) :
    (sendWhile con i as c).1 = (sendAll con i as c).1.all id := by
  induction as generalizing i c with
  | nil => rfl
  | cons a as ih =>
    simp only [sendWhile, sendAll, List.all_cons, id]
    split
    · rename_i c' hs
      rw [hs, ih]
      simp
    · rename_i r c' hne hs
      rw [hs]
      have : r ≠ .ok := hne
      simp [this]

theorem length_sendAll (con : Consumer) (i : ℕ) (as : List α) (c : Chan α) :
    (sendAll con i as c).1.length = as.length := by
  induction as generalizing i c with
  | nil => rfl
  | cons a as ih => simp [sendAll, ih]

theorem trySend_closed {c : Chan α} (h : c.isOpen = false) (a : α) : c.trySend a = (.closed, c) := by
  simp [trySend, h]

/-- A receiver that is gone stays gone. -/
theorem sendAll_closed (con : Consumer) (i : ℕ) (as : List α) {c : Chan α} (h : c.isOpen = false) :
    (sendAll con i as c).2.isOpen = false := by
  induction as generalizing i c with
  | nil => exact h
  | cons a as ih =>
    have hact : (con.act i c).isOpen = false := by
      unfold Consumer.act
      split_ifs
      · rfl
      · exact h
    simp only [sendAll, trySend_closed hact]
    exact ih _ hact

theorem sendAll_fits {con : Consumer} {i : ℕ} {as : List α} {c : Chan α} (ho : c.isOpen = true)
    (hlen : c.queue.length + as.length ≤ c.cap)
    (hdrop : ∀ k, con.dropAt = some k → k < i ∨ i + as.length ≤ k) :
    (sendAll con i as c).1.all id = true := by
  induction as generalizing i c with
  | nil => rfl
  | cons a as ih =>
    simp only [List.length_cons] at hlen hdrop
    have hact : con.act i c = { c with queue := c.queue.drop (con.takes i) } := by
      refine if_neg fun h => ?_
      have := hdrop i h
      omega
    have hq : (c.queue.drop (con.takes i)).length ≤ c.queue.length := by simp
    have hs : (con.act i c).trySend a = (.ok, { c with
        queue := c.queue.drop (con.takes i) ++ [a], log := c.log ++ [a] }) := by
      rw [hact, trySend, if_pos ho, if_pos (by simp only; omega)]
    simp only [sendAll, hs, decide_true, List.all_cons, id, Bool.true_and]
    refine ih ho ?_ fun k hk => ?_
    · simp only [List.length_append, List.length_singleton]
      omega
    · have := hdrop k hk
      omega

theorem sendAll_dropped {con : Consumer} {i k : ℕ} {as : List α} (c : Chan α)
    (hk : con.dropAt = some k) (hik : i ≤ k) (hlt : k < i + as.length) :
    (sendAll con i as c).1.all id = false := by
  induction as generalizing i c with
  | nil =>
    simp only [List.length_nil] at hlt
    omega
  | cons a as ih =>
    simp only [List.length_cons] at hlt
    simp only [sendAll, List.all_cons, id]
    by_cases he : i = k
    · have hact : con.act i c = c.close := if_pos (by rw [hk, he])
      rw [hact, trySend_closed rfl]
      simp
    · rw [ih _ (by omega) (by omega), Bool.and_false]

theorem sendAll_full {d : Option ℕ} {i : ℕ} {as : List α} {c : Chan α} (hne : as ≠ [])
    (hlen : c.cap < c.queue.length + as.length) :
    (sendAll ⟨fun _ => 0, d⟩ i as c).1.all id = false := by
  induction as generalizing i c with
  | nil => exact absurd rfl hne
  | cons a as ih =>
    simp only [List.length_cons] at hlen
    simp only [sendAll, List.all_cons, id]
    by_cases hd : d = some i
    · rw [show Consumer.act ⟨fun _ => 0, d⟩ i c = c.close from if_pos hd, trySend_closed rfl]
      simp
    · rw [show Consumer.act ⟨fun _ => 0, d⟩ i c = c from (if_neg hd).trans rfl]
      rcases trySend_cases c a with ⟨hr, hs⟩ | ⟨-, hno, -⟩
      · simp only [hasRoom, Bool.and_eq_true, decide_eq_true_eq] at hr
        rw [hs, ih]
        · exact Bool.and_false _
        · rintro rfl
          simp only [List.length_nil] at hlen
          omega
        · simp only [List.length_append, List.length_singleton]
          omega
      · simp [hno]

/-- **When a run of items is sure to be accepted**: the free slots hold all of it, and the receiver is
not dropped before the last item is sent. -/
theorem sendAll_accepts_iff {as : List α} {c : Chan α} (ho : c.isOpen = true) (hne : as ≠ [])
    (d : Option ℕ) :
    (∀ takes, (sendAll ⟨takes, d⟩ 0 as c).1.all id = true) ↔
      c.queue.length + as.length ≤ c.cap ∧ ∀ k, d = some k → as.length ≤ k := by
  constructor
  · intro h
    refine ⟨?_, fun k hk => ?_⟩
    · by_contra hlt
      have := h fun _ => 0
      rw [sendAll_full hne (by omega)] at this
      cases this
    · by_contra hlt
      have := h fun _ => 0
      rw [sendAll_dropped c hk (Nat.zero_le k) (by omega)] at this
      cases this
  · rintro ⟨hlen, hdrop⟩ takes
    refine sendAll_fits ho hlen fun k hk => .inr ?_
    have := hdrop k hk
    omega

end Chan

/-! ## Splitting a log -/

/-- `Interleaved a b l`: every item of `l` is in exactly one of `a` and `b`, and both keep its order. -/
inductive Interleaved {α : Type} : List α → List α → List α → Prop where
  | nil : Interleaved [] [] []
  | left {x : α} {a b l : List α} : Interleaved a b l → Interleaved (x :: a) b (x :: l)
  | right {x : α} {a b l : List α} : Interleaved a b l → Interleaved a (x :: b) (x :: l)

namespace Interleaved

variable {α : Type}

theorem append (a b : List α) : Interleaved a b (a ++ b) := by
  induction a with
  | nil =>
    induction b with
    | nil => exact .nil
    | cons x b ih => exact .right ih
  | cons x a ih => exact .left ih

theorem length_eq {a b l : List α} (h : Interleaved a b l) : l.length = a.length + b.length := by
  induction h with
  | nil => rfl
  | left _ ih =>
    simp only [List.length_cons]
    omega
  | right _ ih =>
    simp only [List.length_cons]
    omega

theorem eq_right {b l : List α} (h : Interleaved [] b l) : l = b := by
  induction l generalizing b with
  | nil =>
    cases h
    rfl
  | cons x l ih =>
    cases h with
    | right h => rw [ih h]

end Interleaved

end RoundRobin
