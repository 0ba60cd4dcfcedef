import Mathlib.Tactic.IntervalCases
import RoundRobin.Lib.Calendar
import RoundRobin.Lib.IpText

/-!
# RoundRobin.Logging — the dates of the daily log files

`today_utc` and `days_to_civil` of `src/logging.rs`.  The arithmetic is on `i64` and `u32`, and an operation
that leaves its type is a fault (`none`).  No operation on `u32` does, and the only one on `i64` that can is the
shift of the day number to year 0 (`civil_spec`).
-/

namespace RoundRobin.Logging

open Calendar IpText

/-! ## The algorithm -/

/-- The result of an operation on `i64`. -/
def i64 (x : ℤ) : Option ℤ := if -2 ^ 63 ≤ x ∧ x < 2 ^ 63 then some x else none

/-- The result of an operation on `u32`. -/
def u32 (x : ℤ) : Option ℤ := if 0 ≤ x ∧ x < 2 ^ 32 then some x else none

/-- Days since 1970-01-01 to year, month and day. -/
def civil (days : ℤ) : Option (ℤ × ℤ × ℤ) := do
  let z ← i64 (days + 719468)
  let shifted ← (if z ≥ 0 then some z else i64 (z - 146096))
  let era := shifted.tdiv 146097
  let doe := (← i64 (z - (← i64 (era * 146097)))) % 2 ^ 32
  let yoe := (← u32 ((← u32 ((← u32 (doe - doe / 1460)) + doe / 36524)) - doe / 146096)) / 365
  let y ← i64 (yoe + (← i64 (era * 400)))
  let doy ← u32 (doe - (← u32 ((← u32 ((← u32 (365 * yoe)) + yoe / 4)) - yoe / 100)))
  let mp := (← u32 ((← u32 (5 * doy)) + 2)) / 153
  let d ← u32 ((← u32 (doy - (← u32 ((← u32 (153 * mp)) + 2)) / 5)) + 1)
  let m ← (if mp < 10 then u32 (mp + 3) else u32 (mp - 9))
  let y ← (if m ≤ 2 then i64 (y + 1) else some y)
  return (y, m, d)

/-- `{:0w}` of an unsigned number. -/
def padded (w n : ℕ) : List Char := (Nat.toDigits 10 n).leftpad w '0'

/-- `{:0w}` of a signed number; the sign is part of the width. -/
def paddedInt (w : ℕ) (n : ℤ) : List Char :=
  if n < 0 then '-' :: padded (w - 1) n.natAbs else padded w n.toNat

/-- `format!("{:04}-{:02}-{:02}", y, m, d)`. -/
def dateText (y m d : ℤ) : String :=
  String.ofList (paddedInt 4 y ++ '-' :: (paddedInt 2 m ++ '-' :: paddedInt 2 d))

def daysToCivil (days : ℤ) : Option String := (civil days).map fun t => dateText t.1 t.2.1 t.2.2

/-- `duration_since(UNIX_EPOCH).unwrap_or_default().as_secs()` of a time in seconds since the epoch. -/
def secsSinceEpoch (time : ℤ) : ℤ := if 0 ≤ time then time else 0

def todayUtc (now : ℤ) : Option String := daysToCivil ((secsSinceEpoch now).tdiv 86400)

/-! ## Days to dates -/

theorem i64_eq {x : ℤ} (hlo : -2 ^ 63 ≤ x) (hhi : x < 2 ^ 63) : i64 x = some x := if_pos ⟨hlo, hhi⟩

theorem u32_eq {x : ℤ} (hlo : 0 ≤ x) (hhi : x < 2 ^ 32) : u32 x = some x := if_pos ⟨hlo, hhi⟩

/-- Truncating division of the shifted number rounds down. -/
theorem era_eq (z : ℤ) : (if z ≥ 0 then z else z - 146096).tdiv 146097 = z / 146097 := by
  by_cases hz : z ≥ 0
  · rw [if_pos hz, Int.tdiv_eq_ediv_of_nonneg hz]
  · rw [if_neg hz, Int.tdiv_eq_ediv, show Int.sign 146097 = 1 from rfl]
    split_ifs with hd <;> omega

/-- The year of the cycle, of the day `n` that `exists_cycle` decomposes. -/
theorem yoe_eq {c q s r n : ℤ} (hn : n = 36524 * c + 1461 * q + 365 * s + r) (hc : 0 ≤ c ∧ c ≤ 3)
    (hq : 0 ≤ q ∧ q ≤ 24) (hs : 0 ≤ s ∧ s ≤ 3) (h0 : 0 ≤ r)
    (hr : r < 365 ∨ r = 365 ∧ s = 3 ∧ (q = 24 → c = 3)) :
    (n - n / 1460 + n / 36524 - n / 146096) / 365 = 100 * c + 4 * q + s := by
  by_cases hlast : n = 146096
  · subst hlast
    omega
  · have hcentury : n / 36524 = c := by omega
    have hcycle : n / 146096 = 0 := by omega
    rw [hcentury, hcycle]
    -- 1460 days fall short of four years, by at most one day in a century
    by_cases hshort : 24 * c + q + 365 * s + r < 1460
    · have hfour : n / 1460 = 25 * c + q := by omega
      omega
    · have hfour : n / 1460 = 25 * c + q + 1 := by omega
      omega

/-- The months from March to December. -/
theorem march_months (y : ℤ) {k : ℕ} (h : k < 10) :
    (daysBefore y (k + 3) : ℤ) = 59 + (isLeap y).toNat + (153 * k + 2) / 5 ∧
      (monthDays y (k + 3) : ℤ) + (153 * k + 2) / 5 = (153 * (k + 1) + 2) / 5 := by
  interval_cases k <;> cases hl : isLeap y <;> simp [daysBefore, monthDays, hl]

/-- The day `r` of the year that starts in March of `y`. -/
theorem march_date {y r mp m : ℤ} (h0 : 0 ≤ r) (hr : r < 365 ∨ r = 365 ∧ isLeap (y + 1) = true)
    (hmp : mp = (5 * r + 2) / 153) (hm : m = if mp < 10 then mp + 3 else mp - 9) :
    ∃ t : Date, t.year = (if m ≤ 2 then y + 1 else y) ∧ t.month = m ∧ t.day = r - (153 * mp + 2) / 5 + 1 ∧
      t.toDay = marchFirst y + r := by
  by_cases hlate : mp < 10
  · rw [if_pos hlate] at hm
    obtain ⟨k, hk⟩ : ∃ k : ℕ, mp = k := ⟨mp.toNat, by omega⟩
    obtain ⟨hbefore, hdays⟩ := march_months y (k := k) (by omega)
    obtain ⟨t, hty, htm, htd⟩ := @Date.exists_of y (k + 3) (r - (153 * k + 2) / 5 + 1).toNat (by omega) (by omega)
    refine ⟨t, ?_, by omega, by omega, ?_⟩
    · rw [if_neg (by omega), hty]
    · rw [Date.toDay, hty, htm, hbefore, marchFirst_eq]
      omega
  · have hyear := newYear_after_march y
    rw [if_neg hlate] at hm
    by_cases hjan : mp = 10
    · have hdays : monthDays (y + 1) 1 = 31 := rfl
      have hbefore : daysBefore (y + 1) 1 = 0 := rfl
      obtain ⟨t, hty, htm, htd⟩ := @Date.exists_of (y + 1) 1 (r - 305).toNat (by omega) (by omega)
      refine ⟨t, ?_, by omega, by omega, ?_⟩
      · rw [if_pos (by omega), hty]
      · rw [Date.toDay, hty, htm, hbefore, hyear]
        omega
    · have hdays : monthDays (y + 1) 2 = if isLeap (y + 1) then 29 else 28 := rfl
      have hbefore : daysBefore (y + 1) 2 = 31 := rfl
      have hfit : (r - 336).toNat ≤ monthDays (y + 1) 2 := by
        rw [hdays]
        split_ifs with hl
        · omega
        · have hcommon := hr.resolve_right fun h => hl h.2
          omega
      obtain ⟨t, hty, htm, htd⟩ := @Date.exists_of (y + 1) 2 (r - 336).toNat (by omega) ⟨by omega, hfit⟩
      refine ⟨t, ?_, by omega, by omega, ?_⟩
      · rw [if_pos (by omega), hty]
      · rw [Date.toDay, hty, htm, hbefore, hyear]
        omega

theorem bind_of {α β : Type} {x : Option α} {f : α → Option β} {a : α} {b : Option β} (hx : x = some a)
    (h : f a = b) : (x >>= f) = b := by
  rw [hx]
  exact h

/-- No operation on the day of the cycle faults. -/
theorem yoe_run {n : ℤ} (h0 : 0 ≤ n) (h1 : n < 146097) {α : Type} (f : ℤ → Option α) :
    (u32 (n - n / 1460) >>= fun a => u32 (a + n / 36524) >>= fun b => u32 (b - n / 146096) >>= f) =
      f (n - n / 1460 + n / 36524 - n / 146096) :=
  bind_of (u32_eq (by omega) (by omega)) (bind_of (u32_eq (by omega) (by omega))
    (bind_of (u32_eq (by omega) (by omega)) rfl))

/-- Nor one on the year of the cycle: what is left is the day of the year. -/
theorem doy_run {c q s r n : ℤ} (hn : n = 36524 * c + 1461 * q + 365 * s + r) (hc : 0 ≤ c ∧ c ≤ 3)
    (hq : 0 ≤ q ∧ q ≤ 24) (hs : 0 ≤ s ∧ s ≤ 3) (h0 : 0 ≤ r) (hr : r ≤ 365) {y : ℤ} (hy : y = 100 * c + 4 * q + s)
    {α : Type} (f : ℤ → Option α) :
    (u32 (365 * y) >>= fun a => u32 (a + y / 4) >>= fun b => u32 (b - y / 100) >>= fun e => u32 (n - e) >>= f) =
      f r := by
  have hfour : y / 4 = 25 * c + q := by omega
  have hcentury : y / 100 = c := by omega
  rw [hfour, hcentury]
  refine bind_of (u32_eq (by omega) (by omega)) (bind_of (u32_eq (by omega) (by omega))
    (bind_of (u32_eq (by omega) (by omega)) (bind_of (u32_eq (by omega) (by omega)) ?_)))
  have hdoy : n - (365 * y + (25 * c + q) - c) = r := by omega
  rw [hdoy]

/-- Nor one on the day of the year. -/
theorem month_run {r mp : ℤ} (h0 : 0 ≤ r) (hr : r ≤ 365) (hmp : mp = (5 * r + 2) / 153) {α : Type}
    (f : ℤ → ℤ → Option α) :
    (u32 (153 * mp) >>= fun a => u32 (a + 2) >>= fun b => u32 (r - b / 5) >>= fun e => u32 (e + 1) >>= fun d =>
        (if mp < 10 then u32 (mp + 3) else u32 (mp - 9)) >>= f d) =
      f (r - (153 * mp + 2) / 5 + 1) (if mp < 10 then mp + 3 else mp - 9) := by
  refine bind_of (u32_eq (by omega) (by omega)) (bind_of (u32_eq (by omega) (by omega))
    (bind_of (u32_eq (by omega) (by omega)) (bind_of (u32_eq (by omega) (by omega)) (bind_of ?_ rfl))))
  split_ifs
  · exact u32_eq (by omega) (by omega)
  · exact u32_eq (by omega) (by omega)

/-- **Days to dates.**  The only fault is the shift to year 0 at the end of `i64`. -/
theorem civil_spec {d : ℤ} (hlo : -2 ^ 63 ≤ d) (hhi : d + 719468 < 2 ^ 63) :
    ∃ t : Date, civil d = some (t.year, (t.month : ℤ), (t.day : ℤ)) ∧ t.toDay = d := by
  obtain ⟨z, hz⟩ : ∃ z, z = d + 719468 := ⟨_, rfl⟩
  obtain ⟨era, hera⟩ : ∃ era, era = z / 146097 := ⟨_, rfl⟩
  obtain ⟨n, hn⟩ : ∃ n, n = z - era * 146097 := ⟨_, rfl⟩
  have hbound : 0 ≤ n ∧ n < 146097 := by omega
  obtain ⟨c, q, s, r, hcycle, hc, hq, hs, h0, hr⟩ := exists_cycle hbound.1 hbound.2
  obtain ⟨y, hy⟩ : ∃ y, y = 100 * c + 4 * q + s := ⟨_, rfl⟩
  have hleap : r < 365 ∨ r = 365 ∧ isLeap (y + era * 400 + 1) = true := by
    refine hr.imp_right fun h => ⟨h.1, ?_⟩
    rw [isLeap_iff]
    omega
  obtain ⟨t, hty, htm, htd, hday⟩ := march_date h0 hleap rfl rfl
  refine ⟨t, ?_, ?_⟩
  · have hshift : (if z ≥ 0 then some z else i64 (z - 146096)) = some (if z ≥ 0 then z else z - 146096) := by
      split_ifs
      · rfl
      · exact i64_eq (by omega) (by omega)
    have hcast : n % 2 ^ 32 = n := by omega
    have hyear : 0 ≤ y ∧ y < 400 := by omega
    unfold civil
    refine bind_of (i64_eq (by omega) hhi) ?_
    rw [← hz]
    refine bind_of hshift ?_
    rw [era_eq, ← hera]
    refine bind_of (i64_eq (by omega) (by omega)) (bind_of (i64_eq (by omega) (by omega)) ?_)
    rw [← hn, hcast]
    refine (yoe_run hbound.1 hbound.2 _).trans ?_
    rw [yoe_eq hcycle hc hq hs h0 hr, ← hy]
    refine bind_of (i64_eq (by omega) (by omega)) (bind_of (i64_eq (by omega) (by omega)) ?_)
    refine (doy_run hcycle hc hq hs h0 (by omega) hy _).trans ?_
    refine bind_of (u32_eq (by omega) (by omega)) (bind_of (u32_eq (by omega) (by omega)) ?_)
    refine (month_run h0 (by omega) rfl _).trans ?_
    rw [← htm] at hty ⊢
    rw [← htd, hty]
    split_ifs
    · exact bind_of (i64_eq (by omega) (by omega)) rfl
    · rfl
  · rw [hday, marchFirst]
    omega

/-! ## Texts -/

/-- The text of a date. -/
def textOf (t : Date) : String := dateText t.year t.month t.day

theorem ofDigitChars_padded (w n : ℕ) : Nat.ofDigitChars 10 (padded w n) 0 = n := by
  simp [padded, List.leftpad, Nat.ofDigitChars_append]

theorem padded_digits {w n : ℕ} {c : Char} (h : c ∈ padded w n) : c.isDigit = true := by
  rcases List.mem_append.mp h with h | h
  · rw [List.eq_of_mem_replicate h]
    rfl
  · exact Nat.isDigit_of_mem_toDigits (by decide) (by decide) h

theorem length_padded_two {n : ℕ} (h : n < 10 ^ 2) : (padded 2 n).length = 2 := by
  have hle := (Nat.length_toDigits_le_iff (b := 10) (n := n) (by decide) (show 0 < 2 by decide)).mpr h
  rw [padded, List.length_leftpad]
  omega

theorem padded_injective {w m n : ℕ} (h : padded w m = padded w n) : m = n := by
  rw [← ofDigitChars_padded w m, h, ofDigitChars_padded]

theorem paddedInt_natCast (w n : ℕ) : paddedInt w n = padded w n := by
  rw [paddedInt, if_neg (by omega), Int.toNat_natCast]

/-- No number of digits starts with a sign. -/
theorem sign_ne_padded (w v m n : ℕ) : '-' :: padded w m ≠ padded v n := by
  intro h
  have hd : ('-').isDigit = true := padded_digits (w := v) (n := n) (by rw [← h]; exact List.mem_cons_self)
  cases hd

theorem paddedInt_injective {w : ℕ} {m n : ℤ} (h : paddedInt w m = paddedInt w n) : m = n := by
  unfold paddedInt at h
  split_ifs at h with hm hn hn
  · have habs := padded_injective (List.cons.inj h).2
    omega
  · exact absurd h (sign_ne_padded _ _ _ _)
  · exact absurd h.symm (sign_ne_padded _ _ _ _)
  · have hnat := padded_injective h
    omega

/-- Year, month and day can be read off the text. -/
theorem textOf_injective {s t : Date} (h : textOf s = textOf t) : s = t := by
  have hchars := String.ofList_injective h
  simp only [paddedInt_natCast] at hchars
  have hs := length_padded_two s.month_lt
  have ht := length_padded_two t.month_lt
  have hs' := length_padded_two s.day_lt
  have ht' := length_padded_two t.day_lt
  obtain ⟨hyear, hrest⟩ := List.append_inj' hchars (by simp [hs, ht, hs', ht'])
  obtain ⟨hmonth, hday⟩ := List.append_inj (List.cons.inj hrest).2 (hs.trans ht.symm)
  exact Date.ext (paddedInt_injective hyear) (padded_injective hmonth) (padded_injective (List.cons.inj hday).2)

theorem daysToCivil_spec {d : ℤ} (hlo : -2 ^ 63 ≤ d) (hhi : d + 719468 < 2 ^ 63) :
    ∃ t : Date, daysToCivil d = some (textOf t) ∧ t.toDay = d := by
  obtain ⟨t, hcivil, hday⟩ := civil_spec hlo hhi
  exact ⟨t, by rw [daysToCivil, hcivil]; rfl, hday⟩

/-- The date of a time from the epoch on. -/
theorem todayUtc_spec {now : ℤ} (h0 : 0 ≤ now) (h1 : now < 2 ^ 63) :
    ∃ t : Date, todayUtc now = some (textOf t) ∧ t.toDay = now / 86400 := by
  have hdays : (secsSinceEpoch now).tdiv 86400 = now / 86400 := by
    rw [secsSinceEpoch, if_pos h0, Int.tdiv_eq_ediv_of_nonneg h0]
  rw [todayUtc, hdays]
  exact daysToCivil_spec (by omega) (by omega)

/-- **`days_to_civil` follows the calendar.**  From 1970-01-01 on and back, each day number has the text of one
date, and the next day number that of the next date. -/
theorem days_to_civil_calendar :
    daysToCivil 0 = some "1970-01-01" ∧
      ∀ d : ℤ, -2 ^ 63 ≤ d → d + 719468 < 2 ^ 63 →
        ∃ t : Date, daysToCivil d = some (textOf t) ∧ (∀ u, daysToCivil d = some (textOf u) → u = t) ∧
          (d + 1 + 719468 < 2 ^ 63 → daysToCivil (d + 1) = some (textOf t.next)) := by
  refine ⟨by decide, fun d hlo hhi => ?_⟩
  obtain ⟨t, htext, hday⟩ := daysToCivil_spec hlo hhi
  refine ⟨t, htext, fun u hu => ?_, fun hnext => ?_⟩
  · exact textOf_injective (Option.some.inj (hu.symm.trans htext))
  · obtain ⟨u, hu, hu'⟩ := @daysToCivil_spec (d + 1) (by omega) hnext
    have hsucc : u = t.next := toDay_injective (by rw [hu', toDay_next, hday])
    rw [hu, hsucc]

/-- February 29 of 2000, and the day after it. -/
theorem days_to_civil_leap_day : ∃ t : Date, daysToCivil 11016 = some (textOf t) ∧ t.iso = bytesOf "2000-02-29" ∧
    daysToCivil 11017 = some (textOf t.next) := by
  obtain ⟨t, htext, huniq, hnext⟩ := days_to_civil_calendar.2 11016 (by decide) (by decide)
  have hleap : (⟨2000, 2, 29, by decide, by decide, by decide, by decide⟩ : Date) = t := huniq _ (by decide)
  exact ⟨t, htext, by rw [← hleap]; decide, hnext (by decide)⟩

/-- The last day that can be shifted to year 0 has a date, the day after it has none. -/
theorem days_to_civil_end : i64 (9223372036854056339 + 719468) ≠ none ∧
    (∃ t : Date, daysToCivil 9223372036854056339 = some (textOf t)) ∧
    ¬ ∃ t : Date, daysToCivil 9223372036854056339 = some (textOf t) ∧
      daysToCivil (9223372036854056339 + 1) = some (textOf t.next) := by
  refine ⟨by decide, ?_, ?_⟩
  · obtain ⟨t, ht, -⟩ := @daysToCivil_spec 9223372036854056339 (by decide) (by decide)
    exact ⟨t, ht⟩
  · rintro ⟨t, -, hnext⟩
    have hfault : daysToCivil (9223372036854056339 + 1) = none := by decide
    rw [hfault] at hnext
    cases hnext

end RoundRobin.Logging
