import Mathlib.Algebra.Order.Ring.Int
import Mathlib.Order.Monotone.Basic

/-!
# RoundRobin.Lib.Calendar — the Gregorian calendar

Dates of the proleptic Gregorian calendar, each with its successor, its place in the order of dates and its
number of days since 1970-01-01.

* `toDay_next`: the successor is one day later.
* `lt_iff_toDay_lt`, `toDay_injective`: dates are ordered, and told apart, by their day numbers.
* `exists_cycle`: the 146097 days of 400 years that start in March, by century, leap year and year.
* `iso_lt_iff`: the texts `YYYY-MM-DD` of four-digit years are ordered, byte by byte, as the dates are.
-/

namespace RoundRobin.Calendar

/-! ## Dates -/

def isLeap (y : ℤ) : Bool := decide (y % 4 = 0) && (decide (y % 100 ≠ 0) || decide (y % 400 = 0))

def monthDays (y : ℤ) : ℕ → ℕ
  | 2 => if isLeap y then 29 else 28
  | 4 | 6 | 9 | 11 => 30
  | _ => 31

@[ext] structure Date where
  year : ℤ
  month : ℕ
  day : ℕ
  month_pos : 1 ≤ month
  month_le : month ≤ 12
  day_pos : 1 ≤ day
  day_le : day ≤ monthDays year month
  deriving DecidableEq

theorem monthDays_pos (y : ℤ) (m : ℕ) : 1 ≤ monthDays y m := by
  unfold monthDays
  (repeat' split) <;> omega

theorem monthDays_le (y : ℤ) (m : ℕ) : monthDays y m ≤ 31 := by
  unfold monthDays
  (repeat' split) <;> omega

namespace Date

theorem exists_of {y : ℤ} {m d : ℕ} (hm : 1 ≤ m ∧ m ≤ 12) (hd : 1 ≤ d ∧ d ≤ monthDays y m) :
    ∃ t : Date, t.year = y ∧ t.month = m ∧ t.day = d :=
  ⟨⟨y, m, d, hm.1, hm.2, hd.1, hd.2⟩, rfl, rfl, rfl⟩

/-- The next day: of this month, else the first of the next one, else January 1. -/
def next (t : Date) : Date :=
  if hd : t.day < monthDays t.year t.month then
    ⟨t.year, t.month, t.day + 1, t.month_pos, t.month_le, by omega, hd⟩
  else if hm : t.month < 12 then ⟨t.year, t.month + 1, 1, by omega, hm, le_rfl, monthDays_pos _ _⟩
  else ⟨t.year + 1, 1, 1, le_rfl, by omega, le_rfl, monthDays_pos _ _⟩

/-- `s` is earlier than `t`. -/
instance : LT Date where
  lt s t := s.year < t.year ∨ s.year = t.year ∧ (s.month < t.month ∨ s.month = t.month ∧ s.day < t.day)

theorem lt_def {s t : Date} : s < t ↔
    s.year < t.year ∨ s.year = t.year ∧ (s.month < t.month ∨ s.month = t.month ∧ s.day < t.day) := Iff.rfl

theorem lt_trichotomy (s t : Date) : s < t ∨ s = t ∨ t < s := by
  by_cases h : s.year = t.year ∧ s.month = t.month ∧ s.day = t.day
  · exact .inr (.inl (Date.ext h.1 h.2.1 h.2.2))
  · rw [lt_def, lt_def]
    omega

end Date

/-! ## Day numbers -/

/-- The number of January 1. -/
def newYear (y : ℤ) : ℤ := 365 * (y - 1970) + (y - 1) / 4 - (y - 1) / 100 + (y - 1) / 400 - 477

/-- The days of the year before the month. -/
def daysBefore (y : ℤ) : ℕ → ℕ
  | 0 | 1 => 0
  | m + 1 => daysBefore y m + monthDays y m

/-- The days since 1970-01-01. -/
def Date.toDay (t : Date) : ℤ := newYear t.year + daysBefore t.year t.month + t.day - 1

theorem isLeap_iff (y : ℤ) : isLeap y = true ↔ y % 4 = 0 ∧ (y % 100 ≠ 0 ∨ y % 400 = 0) := by
  simp [isLeap]

theorem newYear_succ (y : ℤ) : newYear (y + 1) = newYear y + 365 + (isLeap y).toNat := by
  have hiff := isLeap_iff y
  simp only [newYear]
  cases hl : isLeap y with
  | true =>
    have hleap := hiff.mp hl
    rw [Bool.toNat_true]
    omega
  | false =>
    have hcommon : ¬ (y % 4 = 0 ∧ (y % 100 ≠ 0 ∨ y % 400 = 0)) := by
      rw [← hiff, hl]
      exact Bool.false_ne_true
    rw [Bool.toNat_false]
    omega

theorem newYear_mono {y z : ℤ} (h : y ≤ z) : newYear y ≤ newYear z := by
  refine monotone_int_of_le_succ (fun x => ?_) h
  rw [newYear_succ]
  omega

theorem daysBefore_succ (y : ℤ) {m : ℕ} (h : 1 ≤ m) : daysBefore y (m + 1) = daysBefore y m + monthDays y m := by
  cases m with
  | zero => cases h
  | succ m => rfl

theorem daysBefore_mono {y : ℤ} {m n : ℕ} (hm : 1 ≤ m) (h : m < n) :
    daysBefore y m + monthDays y m ≤ daysBefore y n := by
  induction n, h using Nat.le_induction with
  | base => exact (daysBefore_succ y hm).ge
  | succ n h ih =>
    rw [daysBefore_succ y (by omega)]
    omega

theorem daysBefore_year (y : ℤ) : daysBefore y 13 = 365 + (isLeap y).toNat := by
  cases hl : isLeap y <;> simp [daysBefore, monthDays, hl]

theorem toDay_next (t : Date) : t.next.toDay = t.toDay + 1 := by
  have hle := t.day_le
  unfold Date.next
  split_ifs with hd hm
  · simp only [Date.toDay]
    omega
  · simp only [Date.toDay, daysBefore_succ t.year t.month_pos]
    omega
  · have hmonth : t.month = 12 := by
      have := t.month_le
      omega
    have hyear := daysBefore_year t.year
    rw [daysBefore_succ t.year (by omega), ← hmonth] at hyear
    simp only [Date.toDay, newYear_succ]
    have hjan : daysBefore (t.year + 1) 1 = 0 := rfl
    omega

theorem toDay_lt_newYear (t : Date) : t.toDay < newYear (t.year + 1) := by
  have hle := t.day_le
  have hyear := daysBefore_mono (y := t.year) (n := 13) t.month_pos (by have := t.month_le; omega)
  rw [daysBefore_year] at hyear
  rw [newYear_succ, Date.toDay]
  omega

theorem newYear_le_toDay (t : Date) : newYear t.year ≤ t.toDay := by
  have hpos := t.day_pos
  rw [Date.toDay]
  omega

theorem le_year_of_le_toDay {t : Date} {y : ℤ} (h : newYear y ≤ t.toDay) : y ≤ t.year := by
  by_contra hlt
  have hend := toDay_lt_newYear t
  have hle : newYear (t.year + 1) ≤ newYear y := newYear_mono (by omega)
  omega

theorem year_lt_of_toDay_lt {t : Date} {y : ℤ} (h : t.toDay < newYear y) : t.year < y := by
  by_contra hle
  have hfirst := newYear_le_toDay t
  have hmono : newYear y ≤ newYear t.year := newYear_mono (by omega)
  omega

theorem toDay_lt {s t : Date} (h : s < t) : s.toDay < t.toDay := by
  rcases Date.lt_def.mp h with hy | ⟨hy, hm | ⟨hm, hd⟩⟩
  · calc s.toDay < newYear (s.year + 1) := toDay_lt_newYear s
      _ ≤ newYear t.year := newYear_mono hy
      _ ≤ t.toDay := newYear_le_toDay t
  · have hdays := daysBefore_mono (y := s.year) s.month_pos hm
    have hle := s.day_le
    have hpos := t.day_pos
    simp only [Date.toDay, ← hy]
    omega
  · simp only [Date.toDay, hy, hm]
    omega

theorem lt_iff_toDay_lt {s t : Date} : s < t ↔ s.toDay < t.toDay := by
  refine ⟨toDay_lt, fun h => ?_⟩
  rcases Date.lt_trichotomy s t with hlt | rfl | hlt
  · exact hlt
  · exact absurd h (lt_irrefl _)
  · exact absurd (toDay_lt hlt) (by omega)

theorem toDay_injective {s t : Date} (h : s.toDay = t.toDay) : s = t := by
  rcases Date.lt_trichotomy s t with hlt | rfl | hlt
  · exact absurd (toDay_lt hlt) (by omega)
  · rfl
  · exact absurd (toDay_lt hlt) (by omega)

/-! ## Years that start in March -/

/-- The number of March 1. -/
def marchFirst (y : ℤ) : ℤ := 365 * y + y / 4 - y / 100 + y / 400 - 719468

theorem marchFirst_eq (y : ℤ) : marchFirst y = newYear y + 59 + (isLeap y).toNat := by
  have hsucc := newYear_succ y
  simp only [newYear] at hsucc ⊢
  rw [marchFirst]
  omega

theorem newYear_after_march (y : ℤ) : newYear (y + 1) = marchFirst y + 306 := by
  rw [newYear_succ, marchFirst_eq]
  omega

/-- A day of a 400-year cycle: its century, its four years within the century, its year within them, and its
day of the year.  A year of 366 days is the last of four, unless it ends a century but not the cycle. -/
theorem exists_cycle {n : ℤ} (h0 : 0 ≤ n) (h1 : n < 146097) :
    ∃ c q s r, n = 36524 * c + 1461 * q + 365 * s + r ∧ (0 ≤ c ∧ c ≤ 3) ∧ (0 ≤ q ∧ q ≤ 24) ∧ (0 ≤ s ∧ s ≤ 3) ∧
      0 ≤ r ∧ (r < 365 ∨ r = 365 ∧ s = 3 ∧ (q = 24 → c = 3)) := by
  by_cases hlast : n = 146096
  · exact ⟨3, 24, 3, 365, by omega⟩
  · refine ⟨n / 36524, n % 36524 / 1461, min (n % 36524 % 1461 / 365) 3,
      n % 36524 % 1461 - 365 * min (n % 36524 % 1461 / 365) 3, ?_⟩
    omega

/-! ## Texts -/

/-- The last `w` decimal digits of `n`. -/
def numeral : ℕ → ℕ → List UInt8
  | 0, _ => []
  | w + 1, n => numeral w (n / 10) ++ [UInt8.ofNat (48 + n % 10)]

/-- `YYYY-MM-DD`, for a year of four digits. -/
def Date.iso (t : Date) : List UInt8 :=
  numeral 4 t.year.toNat ++ 45 :: (numeral 2 t.month ++ 45 :: numeral 2 t.day)

@[simp] theorem length_numeral (w n : ℕ) : (numeral w n).length = w := by
  induction w generalizing n with
  | zero => rfl
  | succ w ih => simp [numeral, ih]

@[simp] theorem Date.length_iso (t : Date) : t.iso.length = 10 := by
  simp [Date.iso]

theorem Date.iso_dash (t : Date) : t.iso[4]? = some 45 := by
  rw [iso, List.getElem?_append_right (by simp)]
  simp

theorem append_lt_append {α : Type} [LT α] {a b : List α} (h : a.length = b.length) (c d : List α) :
    a ++ c < b ++ d ↔ a < b ∨ a = b ∧ c < d := by
  induction a generalizing b with
  | nil =>
    obtain rfl := List.length_eq_zero_iff.mp h.symm
    simp
  | cons x a ih =>
    cases b with
    | nil => cases h
    | cons y b =>
      have hlen : a.length = b.length := Nat.succ.inj h
      simp only [List.cons_append, List.cons_lt_cons_iff, ih hlen, List.cons.injEq, and_or_left, or_assoc, and_assoc]

theorem digit_toNat (n : ℕ) : (UInt8.ofNat (48 + n % 10)).toNat = 48 + n % 10 := by
  rw [UInt8.toNat_ofNat', Nat.mod_eq_of_lt (by omega)]

theorem numeral_injective {w m n : ℕ} (hm : m < 10 ^ w) (hn : n < 10 ^ w) (h : numeral w m = numeral w n) :
    m = n := by
  induction w generalizing m n with
  | zero => omega
  | succ w ih =>
    obtain ⟨hhigh, hlow⟩ := List.append_inj h (by simp)
    have hd : UInt8.ofNat (48 + m % 10) = UInt8.ofNat (48 + n % 10) := by simpa using hlow
    have hdn := congrArg UInt8.toNat hd
    rw [digit_toNat, digit_toNat] at hdn
    have hq := ih (m := m / 10) (n := n / 10) (by omega) (by omega) hhigh
    omega

/-- Numerals of one width are ordered as the numbers are. -/
theorem numeral_lt_iff {w m n : ℕ} (hm : m < 10 ^ w) (hn : n < 10 ^ w) : numeral w m < numeral w n ↔ m < n := by
  induction w generalizing m n with
  | zero =>
    have hmn : ¬ m < n := by omega
    simp [numeral, hmn]
  | succ w ih =>
    have hm' : m / 10 < 10 ^ w := by omega
    have hn' : n / 10 < 10 ^ w := by omega
    have heq : numeral w (m / 10) = numeral w (n / 10) ↔ m / 10 = n / 10 :=
      ⟨numeral_injective hm' hn', fun h => by rw [h]⟩
    have hlast : [UInt8.ofNat (48 + m % 10)] < [UInt8.ofNat (48 + n % 10)] ↔ m % 10 < n % 10 := by
      rw [List.cons_lt_cons_iff, UInt8.lt_iff_toNat_lt, digit_toNat, digit_toNat]
      simp
    rw [numeral, numeral, append_lt_append (by simp), ih hm' hn', heq, hlast]
    omega

namespace Date

theorem month_lt (t : Date) : t.month < 10 ^ 2 := by
  have := t.month_le
  omega

theorem day_lt (t : Date) : t.day < 10 ^ 2 := by
  have := t.day_le
  have := monthDays_le t.year t.month
  omega

/-- The order of the texts is the order of the dates. -/
theorem iso_lt_iff {s t : Date} (hs : 0 ≤ s.year ∧ s.year ≤ 9999) (ht : 0 ≤ t.year ∧ t.year ≤ 9999) :
    s.iso < t.iso ↔ s < t := by
  have hys : s.year.toNat < 10 ^ 4 := by omega
  have hyt : t.year.toNat < 10 ^ 4 := by omega
  have hyear : numeral 4 s.year.toNat = numeral 4 t.year.toNat ↔ s.year = t.year :=
    ⟨fun h => by have := numeral_injective hys hyt h; omega, fun h => by rw [h]⟩
  have hmonth : numeral 2 s.month = numeral 2 t.month ↔ s.month = t.month :=
    ⟨numeral_injective s.month_lt t.month_lt, fun h => by rw [h]⟩
  have hdash : ¬ (45 : UInt8) < 45 := by decide
  rw [iso, iso, append_lt_append (by simp), numeral_lt_iff hys hyt, hyear, List.cons_lt_cons_iff,
    append_lt_append (by simp), numeral_lt_iff s.month_lt t.month_lt, hmonth, List.cons_lt_cons_iff,
    numeral_lt_iff s.day_lt t.day_lt, lt_def]
  simp only [hdash, true_and, false_or]
  omega

theorem iso_injective {s t : Date} (hs : 0 ≤ s.year ∧ s.year ≤ 9999) (ht : 0 ≤ t.year ∧ t.year ≤ 9999)
    (h : s.iso = t.iso) : s = t := by
  obtain ⟨hyear, hrest⟩ := List.append_inj h (by simp)
  obtain ⟨hmonth, hday⟩ := List.append_inj (List.cons.inj hrest).2 (by simp)
  have hy := @numeral_injective 4 _ _ (by omega) (by omega) hyear
  exact Date.ext (by omega) (numeral_injective s.month_lt t.month_lt hmonth)
    (numeral_injective s.day_lt t.day_lt (List.cons.inj hday).2)

end Date

end RoundRobin.Calendar
