import Mathlib.Algebra.BigOperators.Group.List.Basic
import Mathlib.Data.List.Nodup
import Mathlib.Data.Nat.ModEq
import RoundRobin.Tunnel.Drain

/-!
# RoundRobin.Tunnel.Pool — the tunnel pool

`TunnelPool` of `src/tunnel.rs`: the links in the order they were added, each with its queue and its
`alive` flag, and the round-robin cursor.  `send` is the path of the control frames: one `try_send` per
link in cyclic order from the cursor.  `send_spec` says all that follows from its
result: the frame joins the queue of a live link, or no live link has a free slot; `send_exact`
names the link and every other effect.
-/

namespace RoundRobin.Tunnel

structure TunnelLink where
  tx : Chan Frame
  alive : Bool
  deriving DecidableEq, Repr

structure TunnelPool where
  links : List TunnelLink
  rr : ℕ
  deriving DecidableEq, Repr

namespace TunnelLink

/-- What one round of the loop in `send` does with a link: a dead one is skipped, one found closed is
marked dead. -/
def offer (l : TunnelLink) (f : Frame) : Bool × TunnelLink :=
  if l.alive then
    match l.tx.trySend f with
    | (.ok, ch) => (true, { l with tx := ch })
    | (.closed, ch) => (false, { l with tx := ch, alive := false })
    | (.full, ch) => (false, { l with tx := ch })
  else (false, l)

/-- The link can still carry frames. -/
def live (l : TunnelLink) : Bool := l.alive && l.tx.isOpen

/-- The free slots of a live link's queue. -/
def free (l : TunnelLink) : ℕ := if l.live then l.tx.cap - l.tx.queue.length else 0

/-- The frame waits in the queue of a live link. -/
def carries (l : TunnelLink) (f : Frame) : Prop := l.live = true ∧ f ∈ l.tx.queue

instance (l : TunnelLink) (f : Frame) : Decidable (l.carries f) :=
  inferInstanceAs (Decidable (_ ∧ _))

theorem offer_cases (l : TunnelLink) (f : Frame) :
    (0 < l.free ∧ (l.offer f).1 = true ∧ (l.offer f).2.free + 1 = l.free ∧
      ∀ g, (l.offer f).2.carries g ↔ l.carries g ∨ g = f) ∨
    (l.free = 0 ∧ (l.offer f).1 = false ∧ (l.offer f).2.free = 0 ∧
      ∀ g, (l.offer f).2.carries g ↔ l.carries g) := by
  unfold offer
  by_cases ha : l.alive = true
  · rw [if_pos ha]
    unfold Chan.trySend
    by_cases ho : l.tx.isOpen = true
    · by_cases hq : l.tx.queue.length < l.tx.cap
      · refine .inl ?_
        simp only [ho, hq, if_true, free, live, carries, ha, Bool.and_self, List.length_append,
          List.length_singleton, true_and, List.mem_append, List.mem_singleton]
        exact ⟨by omega, by omega, by simp⟩
      · refine .inr ?_
        simp only [ho, hq, if_true, if_false, free, live, carries, ha, Bool.and_self, true_and]
        exact ⟨by omega, by omega, by simp⟩
    · exact .inr (by simp [ho, free, live, carries])
  · exact .inr (by simp [ha, free, live])

/-- Alive, open and not full: the link takes the next frame offered to it. -/
def ready (l : TunnelLink) : Bool := l.alive && l.tx.hasRoom

/-- The frame joins the queue. -/
def take (l : TunnelLink) (f : Frame) : TunnelLink :=
  { l with tx := { l.tx with queue := l.tx.queue ++ [f], log := l.tx.log ++ [f] } }

/-- A link after a frame was offered in vain. -/
def seen (l : TunnelLink) : TunnelLink := if l.alive && !l.tx.isOpen then { l with alive := false } else l

@[simp] theorem seen_tx (l : TunnelLink) : l.seen.tx = l.tx := by
  unfold seen
  split_ifs <;> rfl

theorem offer_eq (l : TunnelLink) (f : Frame) :
    l.offer f = if l.ready then (true, l.take f) else (false, l.seen) := by
  obtain ⟨tx, alive⟩ := l
  unfold offer ready seen take Chan.hasRoom Chan.trySend
  cases alive with
  | false => simp
  | true =>
    by_cases ho : tx.isOpen = true
    · by_cases hq : tx.queue.length < tx.cap
      · simp [ho, hq]
      · simp [ho, hq]
    · simp [ho]

end TunnelLink

namespace TunnelPool

def new : TunnelPool := ⟨[], 0⟩

def add (p : TunnelPool) (l : TunnelLink) : TunnelPool := { p with links := p.links ++ [l] }

/-- The loop of `send` over the link indices `js`. -/
def sendAt (f : Frame) : List ℕ → List TunnelLink → Bool × List TunnelLink
  | [], links => (false, links)
  | j :: js, links =>
    match links[j]? with
    | none => sendAt f js links
    | some l =>
      match l.offer f with
      | (true, l') => (true, links.set j l')
      | (false, l') => sendAt f js (links.set j l')

/-- The indices `(start + i) % n` for `i` in `0..n`. -/
def cyclic (start n : ℕ) : List ℕ := (List.range n).map fun i => (start + i) % n

def send (p : TunnelPool) (f : Frame) : Bool × TunnelPool :=
  if p.links = [] then (false, p)
  else
    let start := p.rr % p.links.length
    let r := sendAt f (cyclic start p.links.length) p.links
    (r.1, ⟨r.2, (p.rr + 1) % 2 ^ 64⟩)

/-! ## What a send does -/

/-- The free slots of all live links. -/
def slots (links : List TunnelLink) : ℕ := (links.map TunnelLink.free).sum

/-- The frame waits on a live link. -/
def Queued (links : List TunnelLink) (f : Frame) : Prop := ∃ l ∈ links, l.carries f

instance (links : List TunnelLink) (f : Frame) : Decidable (Queued links f) :=
  inferInstanceAs (Decidable (∃ l ∈ links, l.carries f))

theorem set_split {links : List TunnelLink} {j : ℕ} {l : TunnelLink} (h : links[j]? = some l) :
    ∃ a b, links = a ++ l :: b ∧ ∀ l', links.set j l' = a ++ l' :: b := by
  obtain ⟨hj, hl⟩ := List.getElem?_eq_some_iff.mp h
  refine ⟨links.take j, links.drop (j + 1), ?_, fun l' => List.set_eq_take_append_cons_drop.trans ?_⟩
  · rw [← hl, List.cons_getElem_drop_succ, List.take_append_drop]
  · rw [if_pos hj]

theorem queued_split {a b : List TunnelLink} {l : TunnelLink} {g : Frame} :
    Queued (a ++ l :: b) g ↔ Queued a g ∨ l.carries g ∨ Queued b g := by
  simp only [Queued, List.mem_append, List.mem_cons, or_and_right, exists_or, exists_eq_left]

theorem slots_split (a b : List TunnelLink) (l : TunnelLink) :
    slots (a ++ l :: b) = slots a + l.free + slots b := by
  simp [slots]
  omega

/-- The loop queues the frame on one live link, or leaves the live links as they are and none of
those it looked at has a free slot. -/
theorem sendAt_spec (f : Frame) (js : List ℕ) (links : List TunnelLink) :
    ((sendAt f js links).1 = true ∧ slots (sendAt f js links).2 + 1 = slots links ∧
      ∀ g, Queued (sendAt f js links).2 g ↔ Queued links g ∨ g = f) ∨
    ((sendAt f js links).1 = false ∧ slots (sendAt f js links).2 = slots links ∧
      (∀ g, Queued (sendAt f js links).2 g ↔ Queued links g) ∧
      ∀ j ∈ js, ∀ l, links[j]? = some l → l.free = 0) := by
  induction js generalizing links with
  | nil => exact .inr ⟨rfl, rfl, fun _ => Iff.rfl, by simp⟩
  | cons j js ih =>
    cases hl : links[j]? with
    | none =>
      have hs : sendAt f (j :: js) links = sendAt f js links := by simp [sendAt, hl]
      rw [hs]
      rcases ih links with h | ⟨h1, h2, h3, h4⟩
      · exact .inl h
      · refine .inr ⟨h1, h2, h3, fun i hi l hli => ?_⟩
        rcases List.mem_cons.mp hi with rfl | hi
        · rw [hl] at hli
          cases hli
        · exact h4 i hi l hli
    | some l =>
      obtain ⟨a, b, rfl, hset⟩ := set_split hl
      rcases l.offer_cases f with ⟨-, h1, h2, h3⟩ | ⟨h0, h1, h2, h3⟩
      · have hs : sendAt f (j :: js) (a ++ l :: b) = (true, a ++ (l.offer f).2 :: b) := by
          have ho : l.offer f = (true, (l.offer f).2) := Prod.ext h1 rfl
          rw [← hset (l.offer f).2, sendAt, hl]
          dsimp only
          rw [ho]
        rw [hs]
        refine .inl ⟨rfl, ?_, fun g => ?_⟩
        · rw [slots_split, slots_split]
          omega
        · rw [queued_split, queued_split, h3]
          tauto
      · have hs : sendAt f (j :: js) (a ++ l :: b) = sendAt f js (a ++ (l.offer f).2 :: b) := by
          have ho : l.offer f = (false, (l.offer f).2) := Prod.ext h1 rfl
          rw [← hset (l.offer f).2, sendAt, hl]
          dsimp only
          rw [ho]
        have hslots : slots (a ++ (l.offer f).2 :: b) = slots (a ++ l :: b) := by
          rw [slots_split, slots_split, h0, h2]
        have hqueued : ∀ g, Queued (a ++ (l.offer f).2 :: b) g ↔ Queued (a ++ l :: b) g := by
          intro g
          rw [queued_split, queued_split, h3]
        rw [hs]
        rcases ih (a ++ (l.offer f).2 :: b) with ⟨k1, k2, k3⟩ | ⟨k1, k2, k3, k4⟩
        · exact .inl ⟨k1, k2.trans hslots, fun g => (k3 g).trans (by rw [hqueued])⟩
        · refine .inr ⟨k1, k2.trans hslots, fun g => (k3 g).trans (hqueued g), fun i hi l' hl' => ?_⟩
          by_cases hij : i = j
          · subst hij
            rw [hl] at hl'
            obtain rfl := Option.some.inj hl'
            exact h0
          · have hi : i ∈ js := (List.mem_cons.mp hi).resolve_left hij
            refine k4 i hi l' ?_
            rw [← hset, List.getElem?_set_ne (Ne.symm hij)]
            exact hl'

theorem mem_cyclic {start n k : ℕ} (hs : start < n) (hk : k < n) : k ∈ cyclic start n := by
  refine List.mem_map.mpr ⟨if start ≤ k then k - start else k + n - start, ?_, ?_⟩
  · rw [List.mem_range]
    split_ifs <;> omega
  · by_cases h : start ≤ k
    · rw [if_pos h, Nat.add_sub_cancel' h, Nat.mod_eq_of_lt hk]
    · rw [if_neg h, show start + (k + n - start) = k + n by omega, Nat.add_mod_right,
        Nat.mod_eq_of_lt hk]

theorem slots_eq_zero {links : List TunnelLink} (h : ∀ l ∈ links, l.free = 0) : slots links = 0 := by
  refine List.sum_eq_zero fun n hn => ?_
  obtain ⟨l, hl, rfl⟩ := List.mem_map.mp hn
  exact h l hl

/-- `send` queues the frame on a live link iff one has a free slot, and takes exactly that slot. -/
theorem send_spec (p : TunnelPool) (f : Frame) :
    (0 < slots p.links ∧ (p.send f).1 = true ∧ slots (p.send f).2.links + 1 = slots p.links ∧
      ∀ g, Queued (p.send f).2.links g ↔ Queued p.links g ∨ g = f) ∨
    (slots p.links = 0 ∧ (p.send f).1 = false ∧ slots (p.send f).2.links = 0 ∧
      ∀ g, Queued (p.send f).2.links g ↔ Queued p.links g) := by
  unfold send
  by_cases hn : p.links = []
  · rw [if_pos hn]
    exact .inr (by simp [hn, slots])
  · rw [if_neg hn]
    have hlen : 0 < p.links.length := List.length_pos_iff.mpr hn
    rcases sendAt_spec f (cyclic (p.rr % p.links.length) p.links.length) p.links with
      ⟨h1, h2, h3⟩ | ⟨h1, h2, h3, h4⟩
    · exact .inl ⟨by omega, h1, h2, h3⟩
    · have hz : slots p.links = 0 := by
        refine slots_eq_zero fun l hl => ?_
        obtain ⟨k, hk, rfl⟩ := List.mem_iff_getElem.mp hl
        exact h4 k (mem_cyclic (Nat.mod_lt _ hlen) hk) _ (List.getElem?_eq_getElem hk)
      exact .inr ⟨hz, h1, h2.trans hz, h3⟩

/-! ## Which link takes the frame -/

/-- The position of the link visited after `i` others. -/
def visited (p : TunnelPool) (i : ℕ) : ℕ := (p.rr % p.links.length + i) % p.links.length

theorem nodup_cyclic (start n : ℕ) : (cyclic start n).Nodup := by
  refine List.Nodup.map_on ?_ List.nodup_range
  intro i hi k hk h
  rw [List.mem_range] at hi hk
  have := Nat.ModEq.add_left_cancel' start (show start + i ≡ start + k [MOD n] from h)
  rwa [Nat.ModEq, Nat.mod_eq_of_lt hi, Nat.mod_eq_of_lt hk] at this

/-- The loop up to the first link that takes the frame, or to its end. -/
theorem sendAt_exact (f : Frame) {js : List ℕ} (links : List TunnelLink) (hnd : js.Nodup) :
    (∃ before k after l, js = before ++ k :: after ∧ links[k]? = some l ∧ l.ready = true ∧
      (∀ j ∈ before, ∀ l, links[j]? = some l → l.ready = false) ∧ (sendAt f js links).1 = true ∧
      ∀ j, (sendAt f js links).2[j]? =
        if j = k then some (l.take f) else if j ∈ before then links[j]?.map TunnelLink.seen
        else links[j]?) ∨
    ((∀ j ∈ js, ∀ l, links[j]? = some l → l.ready = false) ∧ (sendAt f js links).1 = false ∧
      ∀ j, (sendAt f js links).2[j]? =
        if j ∈ js then links[j]?.map TunnelLink.seen else links[j]?) := by
  induction js generalizing links with
  | nil => exact .inr ⟨by simp, rfl, by simp [sendAt]⟩
  | cons i js ih =>
    obtain ⟨hi, hnd⟩ := List.nodup_cons.mp hnd
    by_cases hready : ∃ l, links[i]? = some l ∧ l.ready = true
    · obtain ⟨l, hl, hr⟩ := hready
      have hs : sendAt f (i :: js) links = (true, links.set i (l.take f)) := by
        simp [sendAt, hl, l.offer_eq f, hr]
      refine .inl ⟨[], i, js, l, rfl, hl, hr, by simp, by rw [hs], fun j => ?_⟩
      have hlt := (List.getElem?_eq_some_iff.mp hl).1
      rw [hs, List.getElem?_set]
      by_cases hj : i = j
      · subst hj
        simp [hlt]
      · simp [hj, Ne.symm hj]
    · have hno : ∀ l, links[i]? = some l → l.ready = false := by
        intro l hl
        exact Bool.eq_false_iff.mpr fun hr => hready ⟨l, hl, hr⟩
      -- the links the rest of the loop sees, and what they were before
      obtain ⟨links', hs, hget⟩ : ∃ links', sendAt f (i :: js) links = sendAt f js links' ∧
          ∀ j, links'[j]? = if j = i then links[j]?.map TunnelLink.seen else links[j]? := by
        cases hl : links[i]? with
        | none =>
          refine ⟨links, by simp [sendAt, hl], fun j => ?_⟩
          by_cases hj : j = i
          · rw [if_pos hj, hj, hl]
            rfl
          · rw [if_neg hj]
        | some l =>
          refine ⟨links.set i l.seen, by simp [sendAt, hl, l.offer_eq f, hno l hl], fun j => ?_⟩
          have hlt := (List.getElem?_eq_some_iff.mp hl).1
          rw [List.getElem?_set]
          by_cases hj : i = j
          · subst hj
            rw [if_pos rfl, if_pos hlt, if_pos rfl, hl]
            rfl
          · rw [if_neg hj, if_neg (Ne.symm hj)]
      have hsame : ∀ j ∈ js, links'[j]? = links[j]? := by
        intro j hj
        rw [hget, if_neg]
        rintro rfl
        exact hi hj
      rw [hs]
      rcases ih links' hnd with ⟨before, k, after, l, rfl, hk, hr, hb, h1, h2⟩ | ⟨hb, h1, h2⟩
      · rw [hsame k (by simp)] at hk
        refine .inl ⟨i :: before, k, after, l, rfl, hk, hr, fun j hj l' hl' => ?_, h1, fun j => ?_⟩
        · rcases List.mem_cons.mp hj with rfl | hj
          · exact hno l' hl'
          · exact hb j hj l' (by rw [hsame j (by simp [hj])]; exact hl')
        · rw [h2]
          by_cases hjk : j = k
          · rw [if_pos hjk, if_pos hjk]
          · rw [if_neg hjk, if_neg hjk, hget]
            by_cases hji : j = i
            · have : j ∉ before := fun hm => hi (by simp [← hji, hm])
              simp [hji, hji ▸ this]
            · simp [hji]
      · refine .inr ⟨fun j hj l' hl' => ?_, h1, fun j => ?_⟩
        · rcases List.mem_cons.mp hj with rfl | hj
          · exact hno l' hl'
          · exact hb j hj l' (by rw [hsame j hj]; exact hl')
        · rw [h2, hget]
          by_cases hji : j = i
          · simp [hji, hi]
          · simp [hji]

theorem cyclic_split {start n k : ℕ} {before after : List ℕ}
    (h : cyclic start n = before ++ k :: after) :
    before.length < n ∧ k = (start + before.length) % n ∧
      ∀ j, j ∈ before ↔ ∃ i < before.length, j = (start + i) % n := by
  have hget : ∀ i < n, (before ++ k :: after)[i]? = some ((start + i) % n) := by
    intro i hi
    rw [← h, cyclic, List.getElem?_map, List.getElem?_range hi]
    rfl
  have hlen : before.length < n := by
    have := congrArg List.length h
    simp only [cyclic, List.length_map, List.length_range, List.length_append, List.length_cons] at this
    omega
  refine ⟨hlen, ?_, fun j => ?_⟩
  · have := hget before.length hlen
    rw [List.getElem?_append_right le_rfl] at this
    simpa using this
  · rw [List.mem_iff_getElem?]
    constructor
    · rintro ⟨i, hi⟩
      have hlt := (List.getElem?_eq_some_iff.mp hi).1
      have hg := hget i (by omega)
      rw [List.getElem?_append_left hlt, hi] at hg
      exact ⟨i, hlt, Option.some.inj hg⟩
    · rintro ⟨i, hi, rfl⟩
      refine ⟨i, ?_⟩
      rw [← hget i (by omega), List.getElem?_append_left hi]

/-- Some link takes the frame: it is the first one in cyclic order that can, and only the links visited
before it may have been marked dead. -/
def SentTo (p : TunnelPool) (f : Frame) (p' : TunnelPool) (i : ℕ) : Prop :=
  ∃ l, p.links[p.visited i]? = some l ∧ l.ready = true ∧
    (∀ j < i, ∀ l, p.links[p.visited j]? = some l → l.ready = false) ∧
    ∀ k, p'.links[k]? =
      if k = p.visited i then some (l.take f)
      else if ∃ j < i, k = p.visited j then p.links[k]?.map TunnelLink.seen
      else p.links[k]?

theorem send_exact (p : TunnelPool) (f : Frame) :
    (∃ i < p.links.length, SentTo p f (p.send f).2 i ∧ (p.send f).1 = true) ∨
    ((∀ l ∈ p.links, l.ready = false) ∧ (p.send f).1 = false ∧
      (p.send f).2.links = p.links.map TunnelLink.seen) := by
  unfold send
  by_cases hn : p.links = []
  · rw [if_pos hn]
    exact .inr (by simp [hn])
  · rw [if_neg hn]
    have hlen : 0 < p.links.length := List.length_pos_iff.mpr hn
    rcases sendAt_exact f p.links (nodup_cyclic (p.rr % p.links.length) p.links.length) with
      ⟨before, k, after, l, hjs, hk, hr, hb, h1, h2⟩ | ⟨hb, h1, h2⟩
    · obtain ⟨hlt, rfl, hmem⟩ := cyclic_split hjs
      refine .inl ⟨before.length, hlt, ⟨l, hk, hr, fun j hj l' hl' => ?_, fun j => ?_⟩, h1⟩
      · exact hb _ ((hmem _).mpr ⟨j, hj, rfl⟩) l' hl'
      · simp only [h2, hmem]
        rfl
    · have hall : ∀ j < p.links.length, j ∈ cyclic (p.rr % p.links.length) p.links.length :=
        fun j hj => mem_cyclic (Nat.mod_lt _ hlen) hj
      refine .inr ⟨fun l hl => ?_, h1, List.ext_getElem? fun j => ?_⟩
      · obtain ⟨j, hj, rfl⟩ := List.mem_iff_getElem.mp hl
        exact hb j (hall j hj) _ (List.getElem?_eq_getElem hj)
      · rw [h2, List.getElem?_map]
        by_cases hj : j < p.links.length
        · rw [if_pos (hall j hj)]
        · rw [List.getElem?_eq_none (by omega)]
          simp

theorem send_rr (p : TunnelPool) (f : Frame) :
    (p.send f).2.rr = if p.links = [] then p.rr else (p.rr + 1) % 2 ^ 64 := by
  unfold send
  split_ifs <;> rfl

/-- The best-effort sends of a list of frames, results ignored. -/
def sendEach (p : TunnelPool) (fs : List Frame) : TunnelPool := fs.foldl (fun p f => (p.send f).2) p

/-- **Best effort.**  Of a list of frames, exactly the first ones are queued, as many as there are free
slots on live links. -/
theorem queued_sendEach (fs : List Frame) (p : TunnelPool) (g : Frame) :
    Queued (p.sendEach fs).links g ↔ Queued p.links g ∨ g ∈ fs.take (slots p.links) := by
  induction fs generalizing p with
  | nil => simp [sendEach]
  | cons f fs ih =>
    have hcons : p.sendEach (f :: fs) = (p.send f).2.sendEach fs := rfl
    rw [hcons, ih]
    rcases p.send_spec f with ⟨h0, -, h2, h3⟩ | ⟨h0, -, h2, h3⟩
    · rw [h3, ← h2, List.take_succ_cons, List.mem_cons]
      tauto
    · rw [h3, h2, h0, List.take_zero, List.take_zero]

end TunnelPool

end RoundRobin.Tunnel
