import RoundRobin.Splitter.Client

/-!
# RoundRobin.Splitter.GraceClose — the end of the close wait

After its own FIN the client task waits for the response: it reads `closed`, `fin_received`, `fin_seq` and the
reorder buffer, one after the other.  Two things get in between.  The FIN handler publishes `fin_received`
before it stores `fin_seq`, so the loop may compare with the initial `0`; and the reorder buffer moves past a
chunk that the client channel refuses, while the reset that follows has not stored `closed` yet.  `settled` says
that neither happens, and then a wait that ends as complete ends behind the last chunk (`grace_complete`).
-/

namespace RoundRobin.Splitter

open Instr TaskSystem

/-- Every chunk that the reorder buffer has moved past was accepted by the client channel. -/
def Conn.AllAccepted (s : Conn) : Prop := ∀ k < s.vc.reorder.expected, 1 ≤ k → k ∈ s.vc.delivered

instance (s : Conn) : Decidable s.AllAccepted :=
  inferInstanceAs (Decidable (∀ k < s.vc.reorder.expected, 1 ≤ k → k ∈ s.vc.delivered))

/-- The frame is handled as a FIN. -/
def handledFin (g : Frame) : Bool := !g.has flagData && g.has flagFin

/-- The tasks of `Spawn`, where every FIN has `next_seq` `f`. -/
inductive ResponseSpawn (f : ℕ) (s : Conn) : List Instr → Prop where
  | frame (g : Frame) : (handledFin g = true → g.seq.toNat = f) → ResponseSpawn f s [handleFrame g]
  | sweep : ResponseSpawn f s [sweepLook]
  | lost : s.registered = true → ResponseSpawn f s resetConn

def response (f : ℕ) : TaskSystem Conn Instr Choice := ⟨exec, ResponseSpawn f, Env⟩

/-- The grace loop is between its look at `closed` and the end of its completeness check. -/
def Instr.checking : Instr → Bool
  | graceFin | graceSeq | graceComplete _ => true
  | _ => false

/-- The store of a FIN seq that is still out of reach is ahead. -/
def unstored (s : Conn) (i : Instr) : Bool :=
  match i with
  | storeFinSeq q => decide (s.vc.finSeq ≠ q ∧ s.vc.reorder.expected < q)
  | _ => false

/-- The call releases a chunk that the client channel refuses. -/
def refuses (vc : VirtConn) (con : Consumer) (g : Frame) : Bool :=
  (vc.reorder.push g.seq.toNat g.payload).2.accepted && (vc.onFrame con g.seq.toNat g.payload).2

/-- The loop does not load `fin_seq` before the FIN handler has stored it, unless everything below it was
released; when it finds the connection not closed no chunk has been refused, and none is until it has checked. -/
def settled : Guard Conn Instr Choice := fun s others t ch =>
  match t, ch with
  | graceClosed :: _, _ => s.vc.closed || decide s.AllAccepted
  | graceSeq :: k, _ => !(k :: others).any fun t => t.any (unstored s)
  | onFrame g :: k, .consumer con =>
    !((k :: others).any fun t => t.any Instr.checking) || !refuses s.vc con g
  | _, _ => true

/-! ## What an instruction does to the cells the loop reads -/

/-- What the instructions carry, for FINs with seq `f`. -/
def Carries (f : ℕ) : Instr → Prop
  | handleFrame g => handledFin g = true → g.seq.toNat = f
  | storeFinSeq q => q = f
  | _ => True

/-- Behind the store of `fin_received` comes the one of `fin_seq`. -/
def FinStored (f : ℕ) : List Instr → Prop
  | [] => True
  | storeFinReceived :: k => storeFinSeq f ∈ k ∧ FinStored f k
  | _ :: k => FinStored f k

section Exec

variable {f : ℕ} {s s' : Conn} {i : Instr} {ch : Choice} {is k : List Instr}

theorem mem_acceptedSeqs_all {q m : ℕ} {bs : List Bool} (h : bs.all id = true) (hq : q ≤ m)
    (hm : m < q + bs.length) : m ∈ VirtConn.acceptedSeqs q bs := by
  induction bs generalizing q with
  | nil =>
    rw [List.length_nil] at hm
    omega
  | cons b bs ih =>
    obtain ⟨hb, hbs⟩ := Bool.and_eq_true_iff.mp h
    obtain rfl : b = true := hb
    rw [List.length_cons] at hm
    rcases Nat.eq_or_lt_of_le hq with rfl | hlt
    · simp [VirtConn.acceptedSeqs]
    · exact List.mem_append_right _ (ih hbs hlt (by omega))

/-- A run behind the next expected chunk ends at the last seq of all, or `expected` moves behind it. -/
theorem expected_drained {b b' : ReorderBuf} {r : ℕ} (hd : b.Drained r b') :
    b'.expected ≤ b.expected + r + 1 := by
  rw [hd.expected]
  exact Nat.mod_le _ _

/-- A call that has no chunk refused leaves no hole. -/
theorem onFrame_allAccepted {vc : VirtConn} {con : Consumer} {g : Frame} (hb : vc.reorder.Inv)
    (hno : refuses vc con g = false) (h : ∀ m < vc.reorder.expected, 1 ≤ m → m ∈ vc.delivered) :
    ∀ m < (vc.onFrame con g.seq.toNat g.payload).1.reorder.expected, 1 ≤ m →
      m ∈ (vc.onFrame con g.seq.toNat g.payload).1.delivered := by
  intro m hm h1
  unfold refuses VirtConn.onFrame at hno
  unfold VirtConn.onFrame at hm ⊢
  rcases ReorderBuf.push_cases hb g.seq.toNat g.payload with
    ⟨-, hp⟩ | ⟨he, r, b, hd, hp⟩ | ⟨-, -, -, hp⟩ | ⟨-, -, -, hp⟩
  · simp only [hp] at hm ⊢
    exact h m hm h1
  · simp only [hp, Bool.not_true, Bool.false_eq_true, if_false, Bool.true_and, Bool.not_eq_false'] at hno hm ⊢
    have hm' := Nat.lt_of_lt_of_le hm (expected_drained hd)
    rcases Nat.lt_or_ge m vc.reorder.expected with hlt | hge
    · exact List.mem_append_left _ (h m hlt h1)
    · refine List.mem_append_right _ (mem_acceptedSeqs_all hno hge ?_)
      rw [Chan.length_sendAll, ReorderBuf.length_readyRun]
      omega
  · simp only [hp] at hm ⊢
    exact List.mem_append_left _ (h m hm h1)
  · simp only [hp] at hm ⊢
    exact h m hm h1

theorem onFrame_frame (vc : VirtConn) (con : Consumer) (g : Frame) (hb : vc.reorder.Inv) :
    (vc.onFrame con g.seq.toNat g.payload).1.reorder.Inv ∧
    (∀ m ∈ vc.delivered, m ∈ (vc.onFrame con g.seq.toNat g.payload).1.delivered) ∧
    (vc.onFrame con g.seq.toNat g.payload).1.finReceived = vc.finReceived ∧
    (vc.onFrame con g.seq.toNat g.payload).1.finSeq = vc.finSeq := by
  have hinv := ReorderBuf.push_inv hb g.seq.toNat_lt g.payload
  unfold VirtConn.onFrame
  dsimp only
  split
  · exact ⟨hinv, fun m hm => hm, rfl, rfl⟩
  · exact ⟨hinv, fun m hm => List.mem_append_left _ hm, rfl, rfl⟩

/-- Only an `on_frame` touches the reorder buffer and what was delivered, and only the FIN handler what is known
about the FIN. -/
structure Cells (s s' : Conn) (i : Instr) : Prop where
  reorder : s.vc.reorder.Inv → s'.vc.reorder.Inv
  delivered : s.vc.reorder.Inv → ∀ m ∈ s.vc.delivered, m ∈ s'.vc.delivered
  received : s'.vc.finReceived = true → s.vc.finReceived = true ∨ i = storeFinReceived
  stays : s.vc.finReceived = true → s'.vc.finReceived = true
  finSeq : s'.vc.finSeq = s.vc.finSeq ∨ i = storeFinSeq s'.vc.finSeq

theorem exec_cells (he : exec s i ch = some (s', is)) : Cells s s' i := by
  cases i with
  | onFrame g =>
    simp only [exec] at he
    split at he
    · cases he
      rename_i con
      refine ⟨fun hb => (onFrame_frame s.vc con g hb).1, fun hb => (onFrame_frame s.vc con g hb).2.1, ?_, ?_, ?_⟩
      all_goals
        unfold VirtConn.onFrame
        dsimp only
        split <;> simp
    · cases he
  | storeFinReceived =>
    cases he
    exact ⟨id, fun _ _ hm => hm, fun _ => .inr rfl, fun _ => rfl, .inl rfl⟩
  | storeFinSeq q =>
    cases he
    exact ⟨id, fun _ _ hm => hm, .inl, id, .inr rfl⟩
  | handleFrame g =>
    simp only [exec, execHandle] at he
    (repeat' split at he) <;> cases he <;> exact ⟨id, fun _ _ hm => hm, .inl, id, .inl rfl⟩
  | _ =>
    simp only [exec, execSelect, execFin, execWait] at he
    (repeat' split at he) <;> cases he <;> exact ⟨id, fun _ _ hm => hm, .inl, id, .inl rfl⟩

theorem carries_exec (he : exec s i ch = some (s', is)) (hi : Carries f i) : ∀ j ∈ is, Carries f j := by
  cases i with
  | handleFrame g =>
    simp only [exec, execHandle] at he
    (repeat' split at he) <;> cases he <;> simp_all [Carries, resetConn, handledFin]
  | _ =>
    simp only [exec, execSelect, execFin, execWait] at he
    (repeat' split at he) <;> cases he <;>
      simp [Carries, resetConn, teardown, sweepClose, sweepOrphan]

theorem finStored_tail (h : FinStored f (i :: k)) : FinStored f k := by
  cases i with
  | storeFinReceived => exact h.2
  | _ => exact h

theorem finStored_exec (he : exec s i ch = some (s', is)) (hi : Carries f i) (h : FinStored f (i :: k)) :
    FinStored f (is ++ k) := by
  have hk := finStored_tail h
  cases i with
  | handleFrame g =>
    simp only [exec, execHandle] at he
    split_ifs at he with hd hr hf hr hrst
    all_goals cases he
    · exact hk
    · exact hk
    · have hq : g.seq.toNat = f := hi (by simp [handledFin, hd, hf])
      simp [FinStored, hq, hk]
    · exact hk
    · exact hk
    · exact hk
  | _ =>
    simp only [exec, execSelect, execFin, execWait] at he
    (repeat' split at he) <;> cases he <;>
      simp [FinStored, resetConn, teardown, sweepClose, sweepOrphan, hk]

/-- Where the loop goes on to: behind its look at `closed`, and from one read to the next. -/
theorem exec_checking (he : exec s i ch = some (s', is)) {j : Instr} (hj : j ∈ is) (hc : j.checking = true) :
    s' = s ∧
      (i = graceClosed ∧ s.vc.closed = false ∧ j = graceFin ∨
        i = graceFin ∧ s.vc.finReceived = true ∧ j = graceSeq ∨
        i = graceSeq ∧ j = graceComplete s.vc.finSeq) := by
  have hnone : ¬ ∀ j ∈ is, j.checking = false := fun h => by
    rw [h j hj] at hc
    cases hc
  cases i with
  | graceClosed =>
    cases he
    split at hj
    · cases hj
    · rename_i hcl
      obtain rfl := List.mem_singleton.mp hj
      exact ⟨rfl, .inl ⟨rfl, by simpa using hcl, rfl⟩⟩
  | graceFin =>
    cases he
    split at hj
    · rename_i hf
      obtain rfl := List.mem_singleton.mp hj
      exact ⟨rfl, .inr (.inl ⟨rfl, hf, rfl⟩)⟩
    · obtain rfl := List.mem_singleton.mp hj
      cases hc
  | graceSeq =>
    cases he
    obtain rfl := List.mem_singleton.mp hj
    exact ⟨rfl, .inr (.inr ⟨rfl, rfl⟩)⟩
  | handleFrame g =>
    simp only [exec, execHandle] at he
    (repeat' split at he) <;> cases he <;> exact absurd (by simp [checking, resetConn]) hnone
  | _ =>
    simp only [exec, execSelect, execFin, execWait] at he
    (repeat' split at he) <;> cases he <;> refine absurd ?_ hnone <;>
      simp [checking, resetConn, teardown, sweepClose, sweepOrphan]

/-- A step within the guard refuses no chunk behind the loop's back. -/
theorem exec_allAccepted (he : exec s i ch = some (s', is)) {others : List (List Instr)}
    (hok : settled s others (i :: k) ch = true) (hb : s.vc.reorder.Inv) (h : s.AllAccepted)
    (hc : ∃ t ∈ (i :: k) :: others, t.any Instr.checking = true) : s'.AllAccepted := by
  cases i with
  | onFrame g =>
    simp only [exec] at he
    split at he
    · cases he
      rename_i con
      refine onFrame_allAccepted hb ?_ h
      obtain ⟨t, ht, hany⟩ := hc
      have hround : ((k :: others).any fun t => t.any Instr.checking) = true := by
        rcases List.mem_cons.mp ht with rfl | ht
        · exact List.any_eq_true.mpr ⟨k, by simp, hany⟩
        · exact List.any_eq_true.mpr ⟨t, by simp [ht], hany⟩
      simpa only [settled, hround, Bool.not_true, Bool.false_or, Bool.not_eq_true'] using hok
    · cases he
  | handleFrame g =>
    simp only [exec, execHandle] at he
    (repeat' split at he) <;> cases he <;> exact h
  | _ =>
    simp only [exec, execSelect, execFin, execWait] at he
    (repeat' split at he) <;> cases he <;> exact h

end Exec

/-! ## Whole runs -/

/-- The invariant of the runs within `settled`. -/
structure Grace (f : ℕ) (x : Config Conn Instr) : Prop where
  reorder : x.shared.vc.reorder.Inv
  carries : ∀ t ∈ x.tasks, ∀ i ∈ t, Carries f i
  finStored : ∀ t ∈ x.tasks, FinStored f t
  stored : x.shared.vc.finReceived = true → x.shared.vc.finSeq = f ∨ Ahead x (storeFinSeq f)
  accepted : Has Instr.checking x → x.shared.AllAccepted
  received : Ahead x graceSeq → x.shared.vc.finReceived = true
  loaded : ∀ q, Ahead x (graceComplete q) → f ≤ q ∨ ∀ m < f, 1 ≤ m → m ∈ x.shared.vc.delivered

/-- Where the loop may load `fin_seq`, no store of it is both ahead and out of reach. -/
theorem unstored_eq_false {s : Conn} {l r : List (List Instr)} {k : List Instr} {ch : Choice} {f : ℕ}
    (hok : settled s (l ++ r) (graceSeq :: k) ch = true)
    (ha : Ahead ⟨s, l ++ (graceSeq :: k) :: r⟩ (storeFinSeq f)) : unstored s (storeFinSeq f) = false := by
  simp only [settled, Bool.not_eq_true', List.any_eq_false, List.mem_cons, List.mem_append,
    Bool.not_eq_true] at hok
  obtain ⟨t, ht, hj⟩ := ha
  simp only [List.mem_append, List.mem_cons] at ht
  rcases ht with ht | rfl | ht
  · exact hok t (.inr (.inl ht)) _ hj
  · exact hok k (.inl rfl) _ (by simpa using hj)
  · exact hok t (.inr (.inr ht)) _ hj

theorem grace_task {f : ℕ} {s s' : Conn} {l r : List (List Instr)} {i : Instr} {k is : List Instr} {ch : Choice}
    (hy : Grace f ⟨s, l ++ (i :: k) :: r⟩) (he : exec s i ch = some (s', is))
    (hok : settled s (l ++ r) (i :: k) ch = true) : Grace f ⟨s', l ++ (is ++ k) :: r⟩ := by
  have hcells := exec_cells he
  have hi : Carries f i := hy.carries (i :: k) (by simp) i (by simp)
  have hb : s.vc.reorder.Inv := hy.reorder
  have hmem : ∀ {p : List Instr → Prop}, (∀ t ∈ l ++ (i :: k) :: r, p t) → p (is ++ k) →
      ∀ t ∈ l ++ (is ++ k) :: r, p t := by
    intro p hp hnew t ht
    rcases List.mem_append.mp ht with hl | hcons
    · exact hp t (by simp [hl])
    · rcases List.mem_cons.mp hcons with rfl | hr
      · exact hnew
      · exact hp t (by simp [hr])
  refine ⟨hcells.reorder hb, hmem hy.carries fun j hj => ?_,
    hmem hy.finStored (finStored_exec he hi (hy.finStored _ (by simp))), fun hf => ?_, ?_, fun ha => ?_,
    fun q ha => ?_⟩
  · rcases List.mem_append.mp hj with hj | hj
    · exact carries_exec he hi j hj
    · exact hy.carries (i :: k) (by simp) j (by simp [hj])
  · -- whoever publishes `fin_received` has the store of `fin_seq` ahead
    rcases hcells.received hf with hf | rfl
    · rcases hcells.finSeq with hq | rfl
      · rcases hy.stored hf with hs | ha
        · exact .inl (hq.trans hs)
        · rcases ahead_task (u := s') (n := is) ha with rfl | ha
          · cases he
            exact .inl rfl
          · exact .inr ha
      · exact .inl hi
    · have hk : storeFinSeq f ∈ k := (hy.finStored (storeFinReceived :: k) (by simp)).1
      exact .inr ⟨is ++ k, by simp, by simp [hk]⟩
  · rintro ⟨t, ht, hany⟩
    obtain ⟨j, hj, hc⟩ := List.any_eq_true.mp hany
    rcases ahead_before (s := s) (i := i) ⟨t, ht, hj⟩ with hnew | ⟨t', ht', hj'⟩
    · obtain ⟨rfl, hwhere⟩ := exec_checking he hnew hc
      rcases hwhere with ⟨rfl, hcl, rfl⟩ | ⟨rfl, -, -⟩ | ⟨rfl, -⟩
      · simpa [settled, hcl] using hok
      · exact hy.accepted ⟨graceFin :: k, by simp, rfl⟩
      · exact hy.accepted ⟨graceSeq :: k, by simp, rfl⟩
    · have hany' : t'.any Instr.checking = true := List.any_eq_true.mpr ⟨j, hj', hc⟩
      refine exec_allAccepted he hok hb (hy.accepted ⟨t', ht', hany'⟩) ⟨t', ?_, hany'⟩
      simp only [List.mem_append, List.mem_cons] at ht' ⊢
      rcases ht' with h | h | h
      · exact .inr (.inl h)
      · exact .inl h
      · exact .inr (.inr h)
  · rcases ahead_before (s := s) (i := i) ha with hnew | hold
    · obtain ⟨rfl, hwhere⟩ := exec_checking he hnew rfl
      rcases hwhere with ⟨-, -, h⟩ | ⟨-, hf, -⟩ | ⟨-, h⟩
      · cases h
      · exact hf
      · cases h
    · exact hcells.stays (hy.received hold)
  · rcases ahead_before (s := s) (i := i) ha with hnew | hold
    · obtain ⟨rfl, hwhere⟩ := exec_checking he hnew rfl
      rcases hwhere with ⟨-, -, h⟩ | ⟨-, -, h⟩ | ⟨rfl, h⟩
      · cases h
      · cases h
      · cases h
        rcases hy.stored (hy.received ahead_self) with hs | hstore
        · exact .inl hs.ge
        · -- the store is still ahead, so the loaded value is `f`, or `f` was within reach
          have hno := unstored_eq_false hok hstore
          simp only [unstored, decide_eq_false_iff_not, not_and, not_lt] at hno
          by_cases hq : s'.vc.finSeq = f
          · exact .inl hq.ge
          · refine .inr fun m hm h1 => ?_
            exact hy.accepted ⟨graceSeq :: k, by simp, rfl⟩ m (Nat.lt_of_lt_of_le hm (hno hq)) h1
    · exact (hy.loaded q hold).imp_right fun h m hm h1 => hcells.delivered hb m (h m hm h1)

theorem env_cells {s s' : Conn} (h : Env s s') : s'.vc.reorder = s.vc.reorder ∧
    s'.vc.delivered = s.vc.delivered ∧ s'.vc.finReceived = s.vc.finReceived ∧ s'.vc.finSeq = s.vc.finSeq := by
  cases h <;> exact ⟨rfl, rfl, rfl, rfl⟩

theorem spawn_plain {f : ℕ} {s : Conn} {t : List Instr} (h : ResponseSpawn f s t) :
    (∀ i ∈ t, Carries f i) ∧ FinStored f t ∧ ∀ i ∈ t, i.checking = false := by
  cases h with
  | frame g hg => simpa [Carries, FinStored, checking] using hg
  | sweep => simp [Carries, FinStored, checking]
  | lost h => simp [Carries, FinStored, checking, resetConn]

theorem grace_step {f : ℕ} {y z : Config Conn Instr} (hy : Grace f y)
    (hs : (response f).Step settled y z) : Grace f z := by
  cases hs with
  | task he hok => exact grace_task hy he hok
  | @spawn s ts t h =>
    obtain ⟨hcar, hfin, hchk⟩ := spawn_plain h
    have hold : ∀ {j : Instr}, j.checking = true → Ahead ⟨s, ts ++ [t]⟩ j → Ahead ⟨s, ts⟩ j := by
      intro j hc ha
      refine (ahead_before_spawn ha).resolve_left fun hj => ?_
      rw [hchk j hj] at hc
      cases hc
    refine ⟨hy.reorder, fun u hu j hj => ?_, fun u hu => ?_, fun hf => (hy.stored hf).imp_right ahead_spawn,
      fun hh => ?_, fun ha => hy.received (hold rfl ha), fun q ha => hy.loaded q (hold rfl ha)⟩
    · rcases List.mem_append.mp hu with hu | hu
      · exact hy.carries u hu j hj
      · obtain rfl := List.mem_singleton.mp hu
        exact hcar j hj
    · rcases List.mem_append.mp hu with hu | hu
      · exact hy.finStored u hu
      · obtain rfl := List.mem_singleton.mp hu
        exact hfin
    · obtain ⟨u, hu, hany⟩ := hh
      obtain ⟨j, hj, hc⟩ := List.any_eq_true.mp hany
      obtain ⟨u', hu', hj'⟩ := hold hc ⟨u, hu, hj⟩
      exact hy.accepted ⟨u', hu', List.any_eq_true.mpr ⟨j, hj', hc⟩⟩
  | env h =>
    obtain ⟨hr, hd, hf, hq⟩ := env_cells h
    refine ⟨by rw [hr]; exact hy.reorder, hy.carries, hy.finStored, fun hfin => ?_, fun hh m hm h1 => ?_,
      fun ha => hf.trans (hy.received ha), fun q ha => ?_⟩
    · rw [hq]
      exact hy.stored (hf.symm.trans hfin)
    · rw [hd]
      rw [hr] at hm
      exact hy.accepted hh m hm h1
    · rw [hd]
      exact hy.loaded q ha

/-- **A close wait that ends as complete ends behind the last chunk.**  In every run within `settled` in which
all FINs have `next_seq` `f`: where the loop compares the reorder buffer with the loaded `q` and is going to
leave as complete, the client channel has accepted every chunk below `f`. -/
theorem grace_complete {f : ℕ} {c : ConnId} {window : ℕ} {x : Config Conn Instr}
    (h : (response f).Runs settled (start c window) x) {q : ℕ} {k : List Instr}
    (hk : graceComplete q :: k ∈ x.tasks) (hc : x.shared.vc.reorder.isCompleteThrough q = true) :
    ∀ m < f, 1 ≤ m → m ∈ x.shared.vc.delivered := by
  have hinit : Grace f (start c window) := by
    refine ⟨ReorderBuf.withLimit_inv window, ?_, ?_, fun hf => ?_, ?_, ?_, ?_⟩
    · simp [start, Carries]
    · simp [start, FinStored]
    · cases hf
    · simp [start, Has, checking]
    · simp [start, Ahead]
    · simp [start, Ahead]
  have hx := Runs.inv (P := Grace f) h hinit fun y z => grace_step
  rcases hx.loaded q ⟨_, hk, by simp⟩ with hle | hall
  · intro m hm h1
    have hq : q ≤ x.shared.vc.reorder.expected := of_decide_eq_true hc
    exact hx.accepted ⟨_, hk, rfl⟩ m (by omega) h1
  · exact hall

/-! ## A wait that ends too early -/

/-- A move that steps a task or starts the handler of a DATA frame or of a FIN with `next_seq` `f`. -/
def isResponseMove (f : ℕ) : Move Conn Instr Choice → Bool
  | .step _ _ => true
  | .start [handleFrame g] => !handledFin g || decide (g.seq.toNat = f)
  | _ => false

theorem allowed_of_isResponseMove {f : ℕ} {m : List (Move Conn Instr Choice)}
    (h : m.all (isResponseMove f) = true) : ∀ a ∈ m, (response f).Allowed a := by
  intro a ha
  have hf := List.all_eq_true.mp h a ha
  unfold isResponseMove at hf
  split at hf
  · trivial
  · refine fun s => ResponseSpawn.frame _ fun hfin => ?_
    rw [hfin] at hf
    exact of_decide_eq_true hf
  · cases hf

/-- The client closes, chunk 1 and the FIN arrive, and the loop looks again. -/
def waitedSchedule : List (Move Conn Instr Choice) :=
  [.step 0 .sent, .step 0 .eof, .step 0 .sent, .step 0 .go,
    .start [handleFrame (.data 7 1 [65])], .step 1 .go, .step 1 (.consumer .idle),
    .start [handleFrame (.fin 7 2)], .step 2 .go, .step 2 .go, .step 2 .go,
    .step 0 .go, .step 0 .go, .step 0 .go]

theorem grace_complete_waited : ∃ x, (response 2).Runs settled (start 7 maxReorderBytes) x ∧
    x.tasks = [graceComplete 2 :: teardown, [], [notifyOne]] ∧ ∀ m < 2, 1 ≤ m → m ∈ x.shared.vc.delivered := by
  obtain ⟨x, hx, hp⟩ := moves_exists (M := response 2) (g := settled) (x := start 7 maxReorderBytes)
    (p := fun y => decide (y.tasks = [graceComplete 2 :: teardown, [], [notifyOne]] ∧
      y.shared.vc.reorder.isCompleteThrough 2 = true))
    (m := waitedSchedule) (allowed_of_isResponseMove rfl) (by decide)
  obtain ⟨ht, hc⟩ := of_decide_eq_true hp
  exact ⟨x, hx, ht, grace_complete hx (by rw [ht]; exact List.mem_cons_self) hc⟩

/-- The loop reads both cells between the two stores of the FIN handler, and chunk 1 has not arrived. -/
def earlySchedule : List (Move Conn Instr Choice) :=
  [.step 0 .sent, .step 0 .eof, .step 0 .sent, .step 0 .go,
    .start [handleFrame (.fin 7 2)], .step 1 .go, .step 1 .go,
    .step 0 .go, .step 0 .go, .step 0 .go]

/-- The loop is going to leave as complete, and a chunk below the FIN is missing. -/
theorem grace_complete_early : ∃ x, (response 2).Runs free (start 7 maxReorderBytes) x ∧
    graceComplete 0 :: teardown ∈ x.tasks ∧ x.shared.vc.reorder.isCompleteThrough 0 = true ∧
    x.shared.fins = [2] ∧ x.shared.vc.delivered = [] := by
  obtain ⟨x, hx, hp⟩ := moves_exists (M := response 2) (g := free) (x := start 7 maxReorderBytes)
    (p := fun y => decide (graceComplete 0 :: teardown ∈ y.tasks ∧
      y.shared.vc.reorder.isCompleteThrough 0 = true ∧ y.shared.fins = [2] ∧ y.shared.vc.delivered = []))
    (m := earlySchedule) (allowed_of_isResponseMove rfl) (by decide)
  exact ⟨x, hx, of_decide_eq_true hp⟩

end RoundRobin.Splitter
