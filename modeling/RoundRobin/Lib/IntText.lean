import Mathlib.Data.List.DropRight
import RoundRobin.Lib.IpText

/-!
# RoundRobin.Lib.IntText — the text of an unsigned number

`str::trim` and `from_str` of the unsigned types, whose values are below `bound`.  Together they read just the numbers
in decimal, with a plus sign, zeros in front and whitespace around them as one likes (`ofText_trim`).
-/

namespace RoundRobin.IntText

open IpText

/-- `char::is_whitespace`. -/
def isWhitespace (c : Char) : Bool :=
  let n := c.toNat
  decide (9 ≤ n ∧ n ≤ 13) || decide (n = 0x20) || decide (n = 0x85) || decide (n = 0xA0) || decide (n = 0x1680) ||
    decide (0x2000 ≤ n ∧ n ≤ 0x200A) || decide (n = 0x2028) || decide (n = 0x2029) || decide (n = 0x202F) ||
    decide (n = 0x205F) || decide (n = 0x3000)

def trim (cs : List Char) : List Char := (cs.dropWhile isWhitespace).rdropWhile isWhitespace

inductive IntErrorKind where
  | empty
  | invalidDigit
  | posOverflow
  deriving DecidableEq, Repr

def IntErrorKind.message : IntErrorKind → String
  | empty => "cannot parse integer from empty string"
  | invalidDigit => "invalid digit found in string"
  | posOverflow => "number too large to fit in target type"

/-- `to_digit(10)`. -/
def digitOf : Char → Option ℕ
  | '0' => some 0
  | '1' => some 1
  | '2' => some 2
  | '3' => some 3
  | '4' => some 4
  | '5' => some 5
  | '6' => some 6
  | '7' => some 7
  | '8' => some 8
  | '9' => some 9
  | _ => none

/-- The loop of `from_str`. -/
def readDecimal (bound : ℕ) : ℕ → List Char → Except IntErrorKind ℕ
  | acc, [] => .ok acc
  | acc, c :: cs =>
    match digitOf c with
    | none => .error .invalidDigit
    | some d => if acc * 10 + d < bound then readDecimal bound (acc * 10 + d) cs else .error .posOverflow

/-- `from_str`. -/
def ofText (bound : ℕ) : List Char → Except IntErrorKind ℕ
  | [] => .error .empty
  | c :: cs =>
    if (c = '+' ∨ c = '-') ∧ cs = [] then .error .invalidDigit
    else if c = '+' then readDecimal bound 0 cs
    else readDecimal bound 0 (c :: cs)

/-- `ds` are the digits of a number, in decimal. -/
structure Digits (ds : List ℕ) (n : ℕ) : Prop where
  nonempty : ds ≠ []
  lt : ∀ d ∈ ds, d < 10
  value : valueOf 10 0 ds = n

/-- A number, a plus sign before it and whitespace around it. -/
def NumberText (cs : List Char) (n : ℕ) : Prop :=
  ∃ (before sign behind : List Char) (ds : List ℕ), cs = before ++ (sign ++ ds.map Nat.digitChar) ++ behind ∧
    (∀ c ∈ before, isWhitespace c = true) ∧ (∀ c ∈ behind, isWhitespace c = true) ∧
    (sign = [] ∨ sign = ['+']) ∧ Digits ds n

/-! ## Digits -/

theorem digitOf_eq {c : Char} {d : ℕ} : digitOf c = some d ↔ d < 10 ∧ c = d.digitChar := by
  constructor
  · intro h
    unfold digitOf at h
    split at h <;> cases h <;> decide
  · rintro ⟨hd, rfl⟩
    interval_cases d <;> rfl

theorem readDecimal_ok {bound acc n : ℕ} {cs : List Char} (hacc : acc < bound) :
    readDecimal bound acc cs = .ok n ↔
      ∃ ds : List ℕ, cs = ds.map Nat.digitChar ∧ (∀ d ∈ ds, d < 10) ∧ valueOf 10 acc ds = n ∧ n < bound := by
  induction cs generalizing acc with
  | nil =>
    constructor
    · intro h
      obtain rfl := Except.ok.inj h
      exact ⟨[], rfl, nofun, rfl, hacc⟩
    · rintro ⟨ds, hnil, -, hvalue, -⟩
      obtain rfl := List.map_eq_nil_iff.mp hnil.symm
      exact congrArg Except.ok hvalue
  | cons c cs ih =>
    constructor
    · intro h
      simp only [readDecimal] at h
      split at h
      · cases h
      · rename_i d hd
        split_ifs at h with hlt
        obtain ⟨hlt10, rfl⟩ := digitOf_eq.mp hd
        obtain ⟨ds, rfl, hds, hvalue, hn⟩ := (ih hlt).mp h
        exact ⟨d :: ds, rfl, List.forall_mem_cons.mpr ⟨hlt10, hds⟩, hvalue, hn⟩
    · rintro ⟨ds, heq, hds, hvalue, hn⟩
      cases ds with
      | nil => cases heq
      | cons d ds =>
        obtain ⟨rfl, rfl⟩ := List.cons.inj heq
        obtain ⟨hd, hds⟩ := List.forall_mem_cons.mp hds
        have hstep : valueOf 10 (acc * 10 + d) ds = n := hvalue
        have hlt : acc * 10 + d < bound := by
          have hle := le_valueOf (by decide : 1 ≤ 10) (acc * 10 + d) ds
          omega
        simp only [readDecimal, digitOf_eq.mpr ⟨hd, rfl⟩, if_pos hlt]
        exact (ih hlt).mpr ⟨ds, rfl, hds, hstep, hn⟩

theorem digitChar_ne {d : ℕ} (h : d < 10) : d.digitChar ≠ '+' ∧ d.digitChar ≠ '-' ∧ isWhitespace d.digitChar = false := by
  interval_cases d <;> decide

/-- What `from_str` reads. -/
theorem ofText_ok {bound n : ℕ} (hb : 0 < bound) {cs : List Char} :
    ofText bound cs = .ok n ↔ ∃ (sign : List Char) (ds : List ℕ), cs = sign ++ ds.map Nat.digitChar ∧
      (sign = [] ∨ sign = ['+']) ∧ Digits ds n ∧ n < bound := by
  constructor
  · intro h
    cases cs with
    | nil => cases h
    | cons c cs =>
      simp only [ofText] at h
      split_ifs at h with hsign hplus
      · obtain ⟨ds, rfl, hds, hvalue, hn⟩ := (readDecimal_ok hb).mp h
        refine ⟨['+'], ds, by rw [hplus]; rfl, .inr rfl, ⟨fun hnil => ?_, hds, hvalue⟩, hn⟩
        exact hsign ⟨.inl hplus, by rw [hnil]; rfl⟩
      · obtain ⟨ds, heq, hds, hvalue, hn⟩ := (readDecimal_ok hb).mp h
        refine ⟨[], ds, heq, .inl rfl, ⟨fun hnil => ?_, hds, hvalue⟩, hn⟩
        rw [hnil] at heq
        cases heq
  · rintro ⟨sign, ds, rfl, hsign, ⟨hne, hds, hvalue⟩, hn⟩
    have hread : readDecimal bound 0 (ds.map Nat.digitChar) = .ok n :=
      (readDecimal_ok hb).mpr ⟨ds, rfl, hds, hvalue, hn⟩
    obtain ⟨d, ds, rfl⟩ := List.exists_cons_of_ne_nil hne
    obtain ⟨hplus, hminus, -⟩ := digitChar_ne (List.forall_mem_cons.mp hds).1
    rcases hsign with rfl | rfl
    · simp only [List.nil_append, List.map_cons, ofText]
      rw [if_neg fun h => h.1.elim hplus hminus, if_neg hplus]
      exact hread
    · simp only [List.map_cons, List.cons_append, List.nil_append, ofText]
      rw [if_neg fun h => List.cons_ne_nil _ _ h.2, if_pos trivial]
      exact hread

/-! ## Whitespace -/

theorem trim_split (cs : List Char) : ∃ before behind, cs = before ++ trim cs ++ behind ∧
    (∀ c ∈ before, isWhitespace c = true) ∧ ∀ c ∈ behind, isWhitespace c = true := by
  refine ⟨cs.takeWhile isWhitespace, (cs.dropWhile isWhitespace).rtakeWhile isWhitespace, ?_,
    fun c hc => List.mem_takeWhile_imp hc, fun c hc => List.mem_rtakeWhile_imp hc⟩
  rw [trim, List.append_assoc, List.rdropWhile_append_rtakeWhile, List.takeWhile_append_dropWhile]

/-- Whitespace is trimmed up to the first and the last character that are none. -/
theorem trim_append {before t behind : List Char} (hbefore : ∀ c ∈ before, isWhitespace c = true)
    (hbehind : ∀ c ∈ behind, isWhitespace c = true) (hfirst : ∃ c ∈ t.head?, isWhitespace c = false)
    (hlast : ∃ c ∈ t.getLast?, isWhitespace c = false) : trim (before ++ t ++ behind) = t := by
  have hdrop : (before ++ t ++ behind).dropWhile isWhitespace = t ++ behind := by
    obtain ⟨c, hc, hws⟩ := hfirst
    obtain ⟨u, rfl⟩ := List.head?_eq_some_iff.mp hc
    rw [List.append_assoc, List.dropWhile_append_of_pos hbefore, List.cons_append,
      List.dropWhile_cons_of_neg (by simp [hws])]
  obtain ⟨c, hc, hws⟩ := hlast
  obtain ⟨u, rfl⟩ := List.getLast?_eq_some_iff.mp hc
  have hback : ∀ c ∈ behind.reverse, isWhitespace c = true := fun c hc => hbehind c (List.mem_reverse.mp hc)
  rw [trim, hdrop, List.rdropWhile, List.reverse_append, List.dropWhile_append_of_pos hback, List.reverse_append,
    List.reverse_singleton, List.singleton_append, List.dropWhile_cons_of_neg (by simp [hws]),
    List.reverse_cons, List.reverse_reverse]

/-- **What is read of a trimmed text is a number with a sign and whitespace.** -/
theorem ofText_trim {bound n : ℕ} (hb : 0 < bound) {cs : List Char} :
    ofText bound (trim cs) = .ok n ↔ NumberText cs n ∧ n < bound := by
  constructor
  · intro h
    obtain ⟨sign, ds, htrim, hsign, hds, hn⟩ := (ofText_ok hb).mp h
    obtain ⟨before, behind, hcs, hbefore, hbehind⟩ := trim_split cs
    rw [htrim] at hcs
    exact ⟨⟨before, sign, behind, ds, hcs, hbefore, hbehind, hsign, hds⟩, hn⟩
  · rintro ⟨⟨before, sign, behind, ds, rfl, hbefore, hbehind, hsign, hds⟩, hn⟩
    rw [trim_append hbefore hbehind]
    · exact (ofText_ok hb).mpr ⟨sign, ds, rfl, hsign, hds, hn⟩
    · obtain ⟨d, ds, rfl⟩ := List.exists_cons_of_ne_nil hds.nonempty
      rcases hsign with rfl | rfl
      · exact ⟨d.digitChar, rfl, (digitChar_ne (List.forall_mem_cons.mp hds.lt).1).2.2⟩
      · exact ⟨'+', rfl, by decide⟩
    · obtain ⟨d, hd⟩ := Option.ne_none_iff_exists'.mp (List.getLast?_eq_none_iff.not.mpr hds.nonempty)
      refine ⟨d.digitChar, ?_, (digitChar_ne (hds.lt d (List.mem_of_getLast? hd))).2.2⟩
      rw [List.getLast?_append, List.getLast?_map, hd]
      rfl

end RoundRobin.IntText
