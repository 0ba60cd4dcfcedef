import RoundRobin.Frame
import RoundRobin.Logging

/-!
# RoundRobin.Logging.Purge — the removal of old log files

`purge_old_logs` of `src/logging.rs`.  A name is old if it has ten bytes between `prefix.` and `.log` that come
before the text of the cutoff date (`isOld_iff`).  For the text of a date this means that the date is earlier; but
the ten bytes need not be a date, and then a file that is no log of a day is removed (`Lookalike`).
-/

namespace RoundRobin.Logging

open Calendar IpText

/-! ## The purge -/

/-- The result of an operation on `u64`. -/
def u64 (x : ℕ) : Option ℕ := if x < 2 ^ 64 then some x else none

/-- An entry of the log directory; `removable` says whether `remove_file` succeeds on it. -/
structure Entry where
  name : Bytes
  removable : Bool
  deriving DecidableEq

/-- `".log"`. -/
def dotLog : Bytes := [46, 108, 111, 103]

/-- The name `open_log` gives the file of a date. -/
def logName (pfx : String) (date : Bytes) : Bytes := bytesOf pfx ++ (46 :: date ++ dotLog)

/-- `to_str().unwrap_or("")`. -/
def nameText (name : Bytes) : Bytes :=
  match String.fromUTF8? ⟨name.toArray⟩ with
  | some s => bytesOf s
  | none => []

/-- `strip_prefix(prefix)`, then `strip_suffix(".log")`, or the empty text. -/
def datePart (pfx : String) (name : Bytes) : Bytes :=
  (((bytesOf pfx).isPrefixOf? (nameText name)).bind fun s => dotLog.isSuffixOf? s).getD []

/-- The file is to be removed. -/
def isOld (pfx cutoffDate : String) (name : Bytes) : Bool :=
  if (datePart pfx name).length ≠ 11 ∨ (datePart pfx name).head? ≠ some 46 then false
  else decide ((datePart pfx name).drop 1 < bytesOf cutoffDate)

/-- The entries that are removed at time `now`, in seconds since the epoch.  There is no listing of a directory
that cannot be read. -/
def purgeOldLogs (now : ℤ) (listing : Option (List Entry)) (pfx : String) (keepDays : ℕ) : Option (List Entry) := do
  let age ← u64 (keepDays * 86400)
  match i64 (now - age) with
  | none => return []
  | some cutoff =>
    let cutoffDate ← daysToCivil ((secsSinceEpoch cutoff).tdiv 86400)
    match listing with
    | none => return []
    | some entries => return entries.filter fun e => isOld pfx cutoffDate e.name && e.removable

/-! ## Names -/

/-- The name is valid UTF-8. -/
def IsText (name : Bytes) : Prop := ∃ s, bytesOf s = name

theorem isPrefixOf?_eq_some {p s t : Bytes} : p.isPrefixOf? s = some t ↔ s = p ++ t := by
  induction p generalizing s with
  | nil => simp [List.isPrefixOf?]
  | cons a p ih =>
    cases s with
    | nil => simp [List.isPrefixOf?]
    | cons b s =>
      by_cases hab : a = b
      · simp [List.isPrefixOf?, hab, ih]
      · simp [List.isPrefixOf?, hab, Ne.symm hab]

theorem isSuffixOf?_eq_some {p s t : Bytes} : p.isSuffixOf? s = some t ↔ s = t ++ p := by
  rw [List.isSuffixOf?, Option.map_eq_some_iff]
  constructor
  · rintro ⟨u, hu, rfl⟩
    rw [isPrefixOf?_eq_some] at hu
    simpa using congrArg List.reverse hu
  · rintro rfl
    exact ⟨t.reverse, isPrefixOf?_eq_some.mpr (by simp), by simp⟩

theorem nameText_of_isText {name : Bytes} (h : IsText name) : nameText name = name := by
  obtain ⟨s, rfl⟩ := h
  rw [nameText, fromUTF8?_bytesOf]

theorem isText_of_nameText {name : Bytes} (h : nameText name ≠ []) : IsText name ∧ nameText name = name := by
  cases hu : String.fromUTF8? ⟨name.toArray⟩ with
  | none =>
    rw [nameText, hu] at h
    exact absurd rfl h
  | some s =>
    have htext : IsText name := ⟨s, bytesOf_fromUTF8? hu⟩
    exact ⟨htext, nameText_of_isText htext⟩

theorem datePart_eq {pfx : String} {name part : Bytes} (hpart : part ≠ []) :
    datePart pfx name = part ↔ IsText name ∧ name = bytesOf pfx ++ (part ++ dotLog) := by
  constructor
  · intro h
    cases hs : (bytesOf pfx).isPrefixOf? (nameText name) with
    | none =>
      rw [datePart, hs] at h
      exact absurd h.symm hpart
    | some s =>
      cases ht : dotLog.isSuffixOf? s with
      | none =>
        rw [datePart, hs, Option.bind_some, ht] at h
        exact absurd h.symm hpart
      | some t =>
        rw [datePart, hs, Option.bind_some, ht] at h
        obtain rfl : t = part := h
        rw [isPrefixOf?_eq_some, isSuffixOf?_eq_some.mp ht] at hs
        obtain ⟨htext, hname⟩ := @isText_of_nameText name (by simp [hs, dotLog])
        exact ⟨htext, hname.symm.trans hs⟩
  · rintro ⟨htext, hname⟩
    have hs : (bytesOf pfx).isPrefixOf? (nameText name) = some (part ++ dotLog) := by
      rw [nameText_of_isText htext]
      exact isPrefixOf?_eq_some.mpr hname
    have ht : dotLog.isSuffixOf? (part ++ dotLog) = some part := isSuffixOf?_eq_some.mpr rfl
    rw [datePart, hs, Option.bind_some, ht]
    rfl

/-- What the loop tests of a name. -/
theorem isOld_iff {pfx cutoffDate : String} {name : Bytes} : isOld pfx cutoffDate name = true ↔
    ∃ w : Bytes, w.length = 10 ∧ name = logName pfx w ∧ IsText name ∧ w < bytesOf cutoffDate := by
  constructor
  · intro h
    unfold isOld at h
    split_ifs at h with hshape
    obtain ⟨hlen, hdot⟩ := not_or.mp hshape
    rw [not_not] at hlen hdot
    obtain ⟨w, hw⟩ : ∃ w, datePart pfx name = 46 :: w := by
      obtain ⟨w, hw⟩ := List.head?_eq_some_iff.mp hdot
      exact ⟨w, hw⟩
    obtain ⟨htext, hname⟩ := (datePart_eq (List.cons_ne_nil _ _)).mp hw
    rw [hw] at hlen h
    exact ⟨w, Nat.succ.inj hlen, hname, htext, of_decide_eq_true h⟩
  · rintro ⟨w, hlen, hname, htext, hlt⟩
    have hpart : datePart pfx name = 46 :: w := (datePart_eq (List.cons_ne_nil _ _)).mpr ⟨htext, hname⟩
    rw [isOld, hpart, if_neg]
    · exact decide_eq_true hlt
    · simp [hlen]

/-! ## Dates as names have them -/

theorem padded_succ {w n : ℕ} (hw : 1 ≤ w) : padded (w + 1) n = padded w (n / 10) ++ [(n % 10).digitChar] := by
  by_cases hn : n < 10
  · have hdigit : Nat.toDigits 10 n = [n.digitChar] := Nat.toDigits_of_lt_base hn
    have hzero : Nat.toDigits 10 (n / 10) = ['0'] := by
      rw [Nat.div_eq_of_lt hn]
      rfl
    obtain ⟨v, rfl⟩ : ∃ v, w = v + 1 := ⟨w - 1, by omega⟩
    simp [padded, List.leftpad, hdigit, hzero, Nat.mod_eq_of_lt hn, List.replicate_succ']
  · have hdigits := Nat.toDigits_of_base_le (b := 10) (n := n) (by decide) (by omega)
    simp [padded, List.leftpad, hdigits]

theorem digitChar_toUInt8 {n : ℕ} (h : n < 10) : n.digitChar.toUInt8 = UInt8.ofNat (48 + n) := by
  interval_cases n <;> rfl

theorem map_padded {w n : ℕ} (hw : 1 ≤ w) (h : n < 10 ^ w) : (padded w n).map Char.toUInt8 = numeral w n := by
  induction w, hw using Nat.le_induction generalizing n with
  | base =>
    have hn : n < 10 := by omega
    have hdigit : Nat.toDigits 10 n = [n.digitChar] := Nat.toDigits_of_lt_base hn
    simp [padded, List.leftpad, hdigit, numeral, digitChar_toUInt8 hn, Nat.mod_eq_of_lt hn]
  | succ w hw ih =>
    rw [padded_succ hw, List.map_append, ih (by omega), numeral, List.map_singleton,
      digitChar_toUInt8 (Nat.mod_lt n (by decide))]

theorem padded_ascii {w n : ℕ} {c : Char} (h : c ∈ padded w n) : c.toNat < 128 := by
  have hd := padded_digits h
  simp only [Char.isDigit, Bool.and_eq_true, decide_eq_true_eq, UInt32.le_iff_toNat_le] at hd
  have hle : c.toNat ≤ 57 := hd.2
  omega

/-- The code's text of a date is `YYYY-MM-DD` in the years of four digits. -/
theorem bytesOf_textOf {t : Date} (h0 : 0 ≤ t.year) (h1 : t.year ≤ 9999) : bytesOf (textOf t) = t.iso := by
  obtain ⟨y, hy⟩ : ∃ y : ℕ, t.year = y := ⟨t.year.toNat, by omega⟩
  have hascii : ∀ c ∈ padded 4 y ++ '-' :: (padded 2 t.month ++ '-' :: padded 2 t.day), c.toNat < 128 := by
    intro c hc
    simp only [List.mem_append, List.mem_cons] at hc
    rcases hc with hc | rfl | hc | rfl | hc
    · exact padded_ascii hc
    · decide
    · exact padded_ascii hc
    · decide
    · exact padded_ascii hc
  simp only [textOf, dateText, hy, paddedInt_natCast]
  rw [bytesOf_ascii hascii, Date.iso, hy, Int.toNat_natCast]
  simp only [List.map_append, List.map_cons]
  rw [map_padded (by decide) (by omega), map_padded (by decide) t.month_lt, map_padded (by decide) t.day_lt]
  rfl

theorem bytesOf_append (s t : String) : bytesOf (s ++ t) = bytesOf s ++ bytesOf t := by
  simp [bytesOf, String.toByteArray_append]

theorem isText_logName {t : Date} (h0 : 0 ≤ t.year) (h1 : t.year ≤ 9999) (pfx : String) :
    IsText (logName pfx t.iso) := by
  refine ⟨pfx ++ ("." ++ textOf t ++ ".log"), ?_⟩
  rw [bytesOf_append, bytesOf_append, bytesOf_append, bytesOf_textOf h0 h1]
  rfl

theorem logName_injective {pfx : String} {v w : Bytes} (h : logName pfx v = logName pfx w) : v = w := by
  have htail := List.append_cancel_left h
  exact List.append_cancel_right (List.cons.inj htail).2

/-! ## What is removed -/

/-- The name of the log file of a date before the cutoff. -/
def Expired (pfx : String) (cutoff : Date) (name : Bytes) : Prop :=
  ∃ t : Date, 0 ≤ t.year ∧ t.year ≤ 9999 ∧ name = logName pfx t.iso ∧ t < cutoff

/-- A name with ten bytes in the place of the date that are none, but come before the cutoff date. -/
def Lookalike (pfx : String) (cutoff : Date) (name : Bytes) : Prop :=
  ∃ w : Bytes, w.length = 10 ∧ name = logName pfx w ∧ IsText name ∧ w < cutoff.iso ∧
    ∀ t : Date, 0 ≤ t.year → t.year ≤ 9999 → t.iso ≠ w

/-- The loop removes the expired files and the lookalikes. -/
theorem isOld_textOf {pfx : String} {cutoff : Date} (h0 : 0 ≤ cutoff.year) (h1 : cutoff.year ≤ 9999) {name : Bytes} :
    isOld pfx (textOf cutoff) name = true ↔ Expired pfx cutoff name ∨ Lookalike pfx cutoff name := by
  rw [isOld_iff, bytesOf_textOf h0 h1]
  constructor
  · rintro ⟨w, hlen, hname, htext, hlt⟩
    by_cases hdate : ∃ t : Date, (0 ≤ t.year ∧ t.year ≤ 9999) ∧ t.iso = w
    · obtain ⟨t, ht, rfl⟩ := hdate
      exact .inl ⟨t, ht.1, ht.2, hname, (Date.iso_lt_iff ht ⟨h0, h1⟩).mp hlt⟩
    · exact .inr ⟨w, hlen, hname, htext, hlt, fun t ht0 ht1 he => hdate ⟨t, ⟨ht0, ht1⟩, he⟩⟩
  · rintro (⟨t, ht0, ht1, rfl, hlt⟩ | ⟨w, hlen, hname, htext, hlt, -⟩)
    · exact ⟨t.iso, t.length_iso, rfl, isText_logName ht0 ht1 pfx, (Date.iso_lt_iff ⟨ht0, ht1⟩ ⟨h0, h1⟩).mpr hlt⟩
    · exact ⟨w, hlen, hname, htext, hlt⟩

theorem not_expired_of_lookalike {pfx : String} {cutoff : Date} {name : Bytes} (h : Lookalike pfx cutoff name) :
    ¬ Expired pfx cutoff name := by
  rintro ⟨t, ht0, ht1, hname, -⟩
  obtain ⟨w, -, hw, -, -, hno⟩ := h
  exact hno t ht0 ht1 (logName_injective (hname.symm.trans hw))

/-- What one purge removes, where `cutoff` is the date of its cutoff day. -/
theorem mem_purgeOldLogs {now : ℤ} {keepDays : ℕ} {cutoff : Date} (hnow : now < 2 ^ 63)
    (hday : cutoff.toDay = (now - keepDays * 86400) / 86400) (h1970 : 1970 ≤ cutoff.year)
    (h9999 : cutoff.year ≤ 9999) (pfx : String) (entries : List Entry) :
    ∃ removed, purgeOldLogs now (some entries) pfx keepDays = some removed ∧ ∀ e,
      e ∈ removed ↔ e ∈ entries ∧ e.removable = true ∧
        (Expired pfx cutoff e.name ∨ Lookalike pfx cutoff e.name) := by
  have hpos : 0 ≤ cutoff.toDay :=
    calc (0 : ℤ) = newYear 1970 := rfl
      _ ≤ newYear cutoff.year := newYear_mono h1970
      _ ≤ cutoff.toDay := newYear_le_toDay cutoff
  obtain ⟨secs, hsecs⟩ : ∃ secs, secs = now - keepDays * 86400 := ⟨_, rfl⟩
  rw [← hsecs] at hday
  have hage : u64 (keepDays * 86400) = some (keepDays * 86400) := if_pos (by omega)
  have hcutoff : i64 (now - (keepDays * 86400 : ℕ)) = some secs := by
    rw [i64_eq (by omega) (by omega)]
    exact congrArg some (by omega)
  obtain ⟨t, htext, ht⟩ := @todayUtc_spec secs (by omega) (by omega)
  obtain rfl : t = cutoff := toDay_injective (ht.trans hday.symm)
  refine ⟨entries.filter fun e => isOld pfx (textOf t) e.name && e.removable, ?_, fun e => ?_⟩
  · refine bind_of hage ?_
    rw [hcutoff]
    exact bind_of htext rfl
  · rw [List.mem_filter, Bool.and_eq_true, isOld_textOf (by omega) h9999, and_comm (b := e.removable = true)]

theorem expired_log_iff {pfx : String} {cutoff t : Date} (h0 : 0 ≤ t.year) (h1 : t.year ≤ 9999) :
    Expired pfx cutoff (logName pfx t.iso) ↔ t.toDay < cutoff.toDay := by
  rw [← lt_iff_toDay_lt]
  constructor
  · rintro ⟨u, hu0, hu1, hname, hlt⟩
    have hyears : (0 ≤ u.year ∧ u.year ≤ 9999) ∧ 0 ≤ t.year ∧ t.year ≤ 9999 := ⟨⟨hu0, hu1⟩, h0, h1⟩
    have hsame : t.iso = u.iso := logName_injective hname
    obtain rfl : t = u := Date.iso_injective hyears.2 hyears.1 hsame
    exact hlt
  · exact fun hlt => ⟨t, h0, h1, rfl, hlt⟩

/-- The log of the day of time `written` goes when the cutoff day has passed that day, and not before. -/
theorem log_removed_iff {now written : ℤ} {keepDays : ℕ} {cutoff : Date} (hnow : now < 2 ^ 63)
    (hday : cutoff.toDay = (now - keepDays * 86400) / 86400) (h1970 : 1970 ≤ cutoff.year)
    (h9999 : cutoff.year ≤ 9999) (h0 : 0 ≤ written) (h1 : written / 86400 < newYear 10000) {date pfx : String}
    (hdate : todayUtc written = some date) {entries : List Entry}
    (he : ⟨logName pfx (bytesOf date), true⟩ ∈ entries) :
    ∃ removed, purgeOldLogs now (some entries) pfx keepDays = some removed ∧
      (⟨logName pfx (bytesOf date), true⟩ ∈ removed ↔ written / 86400 < (now - keepDays * 86400) / 86400) := by
  have hlast : newYear 10000 = 2932897 := rfl
  obtain ⟨t, htext, ht⟩ := @todayUtc_spec written h0 (by omega)
  obtain rfl : textOf t = date := Option.some.inj (htext.symm.trans hdate)
  have hfirst : 1970 ≤ t.year := le_year_of_le_toDay (by rw [ht]; show 0 ≤ written / 86400; omega)
  have hyear : t.year < 10000 := year_lt_of_toDay_lt (by rw [ht]; exact h1)
  obtain ⟨removed, hpurge, hmem⟩ := mem_purgeOldLogs hnow hday h1970 h9999 pfx entries
  have hlook : ¬ Lookalike pfx cutoff (logName pfx t.iso) := by
    rintro ⟨w, -, hname, -, -, hno⟩
    exact hno t (by omega) (by omega) (logName_injective hname)
  refine ⟨removed, hpurge, ?_⟩
  rw [bytesOf_textOf (by omega) (by omega)] at he ⊢
  rw [hmem, ← hday, ← ht, ← expired_log_iff (by omega) (by omega)]
  exact ⟨fun h => h.2.2.resolve_right hlook, fun h => ⟨he, rfl, .inl h⟩⟩

/-- **A purge removes exactly the expired logs**, if and only if no lookalike is among what it can remove. -/
theorem purge_exact {now : ℤ} {keepDays : ℕ} {cutoff : Date} (hnow : now < 2 ^ 63)
    (hday : cutoff.toDay = (now - keepDays * 86400) / 86400) (h1970 : 1970 ≤ cutoff.year)
    (h9999 : cutoff.year ≤ 9999) (pfx : String) (entries : List Entry) :
    ∃ removed, purgeOldLogs now (some entries) pfx keepDays = some removed ∧
      ((∀ e ∈ entries, e.removable = true → (e ∈ removed ↔ Expired pfx cutoff e.name)) ↔
        ∀ e ∈ entries, e.removable = true → ¬ Lookalike pfx cutoff e.name) := by
  obtain ⟨removed, hpurge, hmem⟩ := mem_purgeOldLogs hnow hday h1970 h9999 pfx entries
  refine ⟨removed, hpurge, fun hexact e he hr hlook => ?_, fun hnone e he hr => ?_⟩
  · have hrem : e ∈ removed := (hmem e).mpr ⟨he, hr, .inr hlook⟩
    exact not_expired_of_lookalike hlook ((hexact e he hr).mp hrem)
  · rw [hmem e]
    constructor
    · rintro ⟨-, -, hexp | hlook⟩
      · exact hexp
      · exact absurd hlook (hnone e he hr)
    · exact fun hexp => ⟨he, hr, .inl hexp⟩

/-- The cutoff of a purge a week later. -/
def june8 : Date := ⟨2025, 6, 8, by decide, by decide, by decide, by decide⟩

def june7 : Date := ⟨2025, 6, 7, by decide, by decide, by decide, by decide⟩

/-- The logs of the cutoff day and of the day before it. -/
def juneLogs : List Entry :=
  [⟨bytesOf "round_robin.2025-06-08.log", true⟩, ⟨bytesOf "round_robin.2025-06-07.log", true⟩]

theorem purge_exact_june : ∃ removed, purgeOldLogs 1750000000 (some juneLogs) "round_robin" 7 = some removed ∧
    ∀ e ∈ juneLogs, e.removable = true → (e ∈ removed ↔ Expired "round_robin" june8 e.name) := by
  obtain ⟨removed, hpurge, hiff⟩ := @purge_exact 1750000000 7 june8 (by decide) (by decide) (by decide) (by decide)
    "round_robin" juneLogs
  refine ⟨removed, hpurge, hiff.mpr ?_⟩
  rintro e he - ⟨w, -, hname, -, -, hno⟩
  simp only [juneLogs, List.mem_cons, List.not_mem_nil, or_false] at he
  rcases he with rfl | rfl
  · exact hno june8 (by decide) (by decide) (@logName_injective "round_robin" _ _ hname)
  · exact hno june7 (by decide) (by decide) (@logName_injective "round_robin" _ _ hname)

/-- A file named after the second it was made in, not after a day. -/
def stray : Entry := ⟨bytesOf "round_robin.1700000000.log", true⟩

/-- It is removed. -/
theorem purge_removes_stray : june8.toDay = (1750000000 - 7 * 86400) / 86400 ∧
    ∃ removed, purgeOldLogs 1750000000 (some [stray]) "round_robin" 7 = some removed ∧
      ¬ ∀ e ∈ [stray], e.removable = true → (e ∈ removed ↔ Expired "round_robin" june8 e.name) := by
  have hlook : Lookalike "round_robin" june8 stray.name := by
    refine ⟨bytesOf "1700000000", by decide, by decide, ⟨_, rfl⟩, by decide, fun t _ _ ht => ?_⟩
    have hdash := t.iso_dash
    rw [ht] at hdash
    exact absurd hdash (by decide)
  obtain ⟨removed, hpurge, hmem⟩ := @mem_purgeOldLogs 1750000000 7 june8 (by decide) (by decide) (by decide)
    (by decide) "round_robin" [stray]
  refine ⟨by decide, removed, hpurge, fun hexact => ?_⟩
  have hrem : stray ∈ removed := (hmem stray).mpr ⟨List.mem_cons_self, rfl, .inr hlook⟩
  exact not_expired_of_lookalike hlook ((hexact stray List.mem_cons_self rfl).mp hrem)

end RoundRobin.Logging
