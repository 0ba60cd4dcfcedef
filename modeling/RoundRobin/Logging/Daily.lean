import RoundRobin.Lib.Machine
import RoundRobin.Lib.Table
import RoundRobin.Logging.Purge

/-!
# RoundRobin.Logging.Daily — what the log files hold

`DailyLogWriter` of `src/logging.rs`.  A call of `write` holds the lock from its start to its end, so that calls
follow each other whole.  What the clock says, what the directory lists and what the operating system does with a
write are up to the environment; nobody else changes the files.  A file that is removed while it is open goes on to
take what is written, and nobody can read it.
-/

namespace RoundRobin.Logging

open Calendar IpText

/-- What `file.write` returns. -/
inductive WriteOutcome where
  | ok (n : ℕ)
  | interrupted
  | error
  deriving DecidableEq, Repr

/-- The loop of `write`: what it appends to the file, and whether that is the whole buffer. -/
def writeAll (buf : Bytes) : List WriteOutcome → Option (Bytes × Bool)
  | [] => if buf = [] then some ([], true) else none
  | o :: os =>
    if buf = [] then none
    else
      match o with
      | .ok n =>
        if n = 0 then some ([], false)
        else if buf.length < n then none
        else (writeAll (buf.drop n) os).map fun r => (buf.take n ++ r.1, r.2)
      | .interrupted => writeAll buf os
      | .error => some ([], false)

/-- The environment of a call of `write`. -/
structure Call where
  /-- The time that `today_utc` reads. -/
  now : ℤ
  /-- A new file can be opened. -/
  opens : Bool
  /-- The time that `purge_old_logs` reads, and what it finds. -/
  purgeNow : ℤ
  listing : Option (List Entry)
  buf : Bytes
  writes : List WriteOutcome

/-- A call that has returned: its date, its buffer, what it appended, and whether it returned `Ok`. -/
structure Written where
  date : String
  buf : Bytes
  out : Bytes
  ok : Bool

/-- The writer, the directory of its files, and the calls so far. -/
structure DailyLogWriter where
  dir : Table Bytes Bytes
  /-- The name of the open file; there is none once the file is removed. -/
  file : Option Bytes
  date : String
  written : List Written

namespace DailyLogWriter

variable (pfx : String) (keepDays : ℕ)

/-- `open_log`, where it succeeds: the file is there, and keeps what it has. -/
def openLog (dir : Table Bytes Bytes) (name : Bytes) : Table Bytes Bytes := dir.put name ((dir.get name).getD [])

/-- The files go. -/
def removeAll (dir : Table Bytes Bytes) (removed : List Entry) : Table Bytes Bytes :=
  removed.foldl (fun d e => d.del e.name) dir

/-- The file of a date is opened, and old files are purged. -/
def startDay (s : DailyLogWriter) (today : String) (c : Call) : Option DailyLogWriter := do
  let name := logName pfx (bytesOf today)
  let removed ← purgeOldLogs c.purgeNow c.listing pfx keepDays
  some { s with dir := removeAll (openLog s.dir name) removed, date := today
                file := if name ∈ removed.map Entry.name then none else some name }

/-- `DailyLogWriter::new`, where it succeeds; it writes nothing. -/
def new (dir : Table Bytes Bytes) (c : Call) : Option DailyLogWriter := do
  let date ← todayUtc c.now
  startDay pfx keepDays ⟨dir, none, date, []⟩ date c

/-- Bytes are appended to the open file. -/
def append (s : DailyLogWriter) (out : Bytes) : DailyLogWriter :=
  match s.file with
  | none => s
  | some name => { s with dir := s.dir.put name ((s.dir.get name).getD [] ++ out) }

/-- The loop of `write` on the open file. -/
def writeOut (s : DailyLogWriter) (today : String) (c : Call) : Option DailyLogWriter := do
  let (out, ok) ← writeAll c.buf c.writes
  some { s.append out with written := s.written ++ [⟨today, c.buf, out, ok⟩] }

def write (s : DailyLogWriter) (c : Call) : Option DailyLogWriter := do
  let today ← todayUtc c.now
  if today ≠ s.date then
    if c.opens then (startDay pfx keepDays s today c).bind fun s => s.writeOut today c
    else some { s with written := s.written ++ [⟨today, c.buf, [], false⟩] }
  else s.writeOut today c

def run (s : DailyLogWriter) (cs : List Call) : Option DailyLogWriter := Machine.run (write pfx keepDays) s cs

/-- What the file of a date holds. -/
def content (dir : Table Bytes Bytes) (t : Date) : Bytes := (dir.get (logName pfx t.iso)).getD []

/-- What the calls of a date appended. -/
def outOf (written : List Written) (t : Date) : Bytes :=
  (written.filter fun w => w.date = textOf t).flatMap Written.out

/-! ## One call -/

/-- The loop appends a part of the buffer from its start, and all of it if it succeeds. -/
theorem writeAll_spec {buf : Bytes} {os : List WriteOutcome} {out : Bytes} {ok : Bool}
    (h : writeAll buf os = some (out, ok)) : out <+: buf ∧ (ok = true → out = buf) := by
  induction os generalizing buf out with
  | nil =>
    rw [writeAll] at h
    split_ifs at h with hbuf
    obtain ⟨rfl, rfl⟩ := Prod.mk.inj (Option.some.inj h)
    exact ⟨List.nil_prefix, fun _ => hbuf.symm⟩
  | cons o os ih =>
    unfold writeAll at h
    split_ifs at h with hbuf
    cases o with
    | ok n =>
      simp only at h
      split_ifs at h with hzero hlen
      · obtain ⟨rfl, rfl⟩ := Prod.mk.inj (Option.some.inj h)
        exact ⟨List.nil_prefix, nofun⟩
      · obtain ⟨⟨rest, ok'⟩, hrest, heq⟩ := Option.map_eq_some_iff.mp h
        obtain ⟨rfl, rfl⟩ := Prod.mk.inj heq
        obtain ⟨hpre, hall⟩ := ih hrest
        constructor
        · calc buf.take n ++ rest <+: buf.take n ++ buf.drop n := (List.prefix_append_right_inj _).mpr hpre
            _ = buf := List.take_append_drop n buf
        · intro hok
          rw [hall hok, List.take_append_drop]
    | interrupted => exact ih h
    | error =>
      obtain ⟨rfl, rfl⟩ := Prod.mk.inj (Option.some.inj h)
      exact ⟨List.nil_prefix, nofun⟩

/-- The day before which logs are old, for the purge of a call. -/
def cutoffDay (c : Call) : ℤ := (c.purgeNow - keepDays * 86400) / 86400

/-- The clock of a call is in the years of four digits, and the purge reads it less than `keep_days` days after the
date is read. -/
structure Fair (c : Call) : Prop where
  now : 0 ≤ c.now
  nowYear : c.now / 86400 < newYear 10000
  purge : keepDays * 86400 ≤ c.purgeNow
  purgeYear : c.purgeNow / 86400 < newYear 10000
  soon : cutoffDay keepDays c ≤ c.now / 86400

/-- What a call reports, and what it appends: a part of its buffer from its start, and all of it if it returns
`Ok`. -/
structure Answered (c : Call) (w : Written) : Prop where
  date : todayUtc c.now = some w.date
  buf : w.buf = c.buf
  out : w.out <+: c.buf
  ok : w.ok = true → w.out = c.buf

variable {pfx : String} {keepDays : ℕ} {s s' : DailyLogWriter} {c : Call} {date : String} {t : Date}

theorem get_removeAll {removed : List Entry} {name : Bytes} (h : ∀ e ∈ removed, e.name ≠ name)
    (dir : Table Bytes Bytes) : (removeAll dir removed).get name = dir.get name := by
  induction removed generalizing dir with
  | nil => rfl
  | cons e removed ih =>
    have hne : name ≠ e.name := (h e List.mem_cons_self).symm
    calc (removeAll (dir.del e.name) removed).get name = (dir.del e.name).get name :=
          ih (fun x hx => h x (List.mem_cons_of_mem _ hx)) _
      _ = dir.get name := Table.get_del_ne dir hne

theorem year_lt_ten_thousand {d : ℤ} (h0 : 0 ≤ d) (h1 : d < newYear 10000) (ht : t.toDay = d) :
    1970 ≤ t.year ∧ t.year ≤ 9999 := by
  have hfirst : 1970 ≤ t.year := le_year_of_le_toDay (by rw [ht]; exact h0)
  have hlast : t.year < 10000 := year_lt_of_toDay_lt (by rw [ht]; exact h1)
  omega

/-- The date of a call. -/
theorem Fair.today (hc : Fair keepDays c) :
    ∃ u : Date, todayUtc c.now = some (textOf u) ∧ u.toDay = c.now / 86400 ∧ 0 ≤ u.year ∧ u.year ≤ 9999 := by
  have hlast : newYear 10000 = 2932897 := rfl
  have hbound := hc.nowYear
  obtain ⟨u, htext, hu⟩ := @todayUtc_spec c.now hc.now (by omega)
  obtain ⟨hfirst, hyear⟩ := year_lt_ten_thousand (Int.ediv_nonneg hc.now (by decide)) hbound hu
  exact ⟨u, htext, hu, by omega, hyear⟩

theorem purgeOldLogs_unlisted {now : ℤ} {removed : List Entry} (h : purgeOldLogs now none pfx keepDays = some removed) :
    removed = [] := by
  obtain ⟨age, -, h⟩ := Option.bind_eq_some_iff.mp h
  split at h
  · exact (Option.some.inj h).symm
  · obtain ⟨cutoffDate, -, h⟩ := Option.bind_eq_some_iff.mp h
    exact (Option.some.inj h).symm

/-- A purge leaves the logs from the cutoff day on. -/
theorem purge_spares (hc : Fair keepDays c) {removed : List Entry}
    (h : purgeOldLogs c.purgeNow c.listing pfx keepDays = some removed) (h0 : 0 ≤ t.year) (h1 : t.year ≤ 9999)
    (ht : cutoffDay keepDays c ≤ t.toDay) : ∀ e ∈ removed, e.name ≠ logName pfx t.iso := by
  have hlast : newYear 10000 = 2932897 := rfl
  have hbound := hc.purgeYear
  have hage := hc.purge
  obtain ⟨cutoff, -, hday⟩ := @todayUtc_spec (c.purgeNow - keepDays * 86400) (by omega) (by omega)
  obtain ⟨h1970, h9999⟩ := year_lt_ten_thousand (Int.ediv_nonneg (by omega) (by decide)) (by omega) hday
  rintro e he hname
  cases hl : c.listing with
  | none =>
    rw [hl] at h
    rw [purgeOldLogs_unlisted h] at he
    cases he
  | some entries =>
    obtain ⟨removed', hpurge, hmem⟩ := @mem_purgeOldLogs c.purgeNow keepDays cutoff (by omega) hday h1970 h9999 pfx entries
    rw [hl] at h
    obtain rfl := Option.some.inj (h.symm.trans hpurge)
    obtain ⟨-, -, hexp | hlook⟩ := (hmem e).mp he
    · rw [hname, expired_log_iff h0 h1, hday] at hexp
      exact absurd ht (not_le.mpr hexp)
    · obtain ⟨w, -, hw, -, -, hno⟩ := hlook
      exact hno t h0 h1 (logName_injective (hname.symm.trans hw))

theorem content_openLog (dir : Table Bytes Bytes) (name : Bytes) (t : Date) :
    content pfx (openLog dir name) t = content pfx dir t := by
  rw [content, openLog, Table.get_put, content]
  split_ifs with h
  · rw [h]
    rfl
  · rfl

/-- What starting a day does: the file of the date is open, and the logs from the cutoff day on are as they were. -/
theorem startDay_spec (hc : Fair keepDays c) {u : Date} (hu : u.toDay = c.now / 86400) (h0 : 0 ≤ u.year)
    (h1 : u.year ≤ 9999) (h : startDay pfx keepDays s (textOf u) c = some s') :
    s'.date = textOf u ∧ s'.file = some (logName pfx u.iso) ∧ s'.written = s.written ∧
      ∀ t : Date, 0 ≤ t.year → t.year ≤ 9999 → cutoffDay keepDays c ≤ t.toDay →
        content pfx s'.dir t = content pfx s.dir t := by
  obtain ⟨removed, hpurge, h⟩ := Option.bind_eq_some_iff.mp h
  obtain rfl := Option.some.inj h
  have hname : logName pfx (bytesOf (textOf u)) = logName pfx u.iso := by rw [bytesOf_textOf h0 h1]
  refine ⟨rfl, ?_, rfl, fun t ht0 ht1 ht => ?_⟩
  · have hkept : logName pfx u.iso ∉ removed.map Entry.name := by
      intro hmem
      obtain ⟨e, he, heq⟩ := List.mem_map.mp hmem
      exact purge_spares hc hpurge h0 h1 (hu ▸ hc.soon) e he heq
    rw [hname, if_neg hkept]
  · rw [content, get_removeAll (purge_spares hc hpurge ht0 ht1 ht)]
    exact content_openLog s.dir _ t

/-- The file of the writer's date is open. -/
def Opened (pfx : String) (s : DailyLogWriter) : Prop :=
  ∃ u : Date, 0 ≤ u.year ∧ u.year ≤ 9999 ∧ s.date = textOf u ∧ s.file = some (logName pfx u.iso)

theorem outOf_concat (written : List Written) (w : Written) (t : Date) :
    outOf (written ++ [w]) t = outOf written t ++ if w.date = textOf t then w.out else [] := by
  rw [outOf, outOf, List.filter_append, List.flatMap_append]
  split_ifs with h
  · simp [h]
  · simp [h]

/-- What the loop appends goes to the file of the date, and no other. -/
theorem writeOut_spec (hs : s.Opened pfx) (h : s.writeOut s.date c = some s') :
    s'.Opened pfx ∧ (∃ w, s'.written = s.written ++ [w] ∧ w.date = s.date ∧ w.buf = c.buf ∧ w.out <+: c.buf ∧
        (w.ok = true → w.out = c.buf)) ∧
      ∀ t : Date, 0 ≤ t.year → t.year ≤ 9999 → ∀ before,
        content pfx s.dir t = before ++ outOf s.written t → content pfx s'.dir t = before ++ outOf s'.written t := by
  obtain ⟨⟨out, ok⟩, hout, h⟩ := Option.bind_eq_some_iff.mp h
  obtain rfl := Option.some.inj h
  obtain ⟨u, h0, h1, hdate, hfile⟩ := hs
  obtain ⟨hpre, hall⟩ := writeAll_spec hout
  have happend : s.append out = { s with dir := s.dir.put (logName pfx u.iso) (content pfx s.dir u ++ out) } := by
    rw [append, hfile]
    rfl
  rw [happend]
  refine ⟨⟨u, h0, h1, hdate, hfile⟩, ⟨_, rfl, rfl, rfl, hpre, hall⟩, fun t ht0 ht1 before hbefore => ?_⟩
  rw [outOf_concat, ← List.append_assoc, ← hbefore, hdate]
  rw [content, Table.get_put]
  by_cases ht : t = u
  · rw [if_pos (by rw [ht]), if_pos (by rw [ht]), ht]
    rfl
  · have hname : logName pfx t.iso ≠ logName pfx u.iso := fun h =>
      ht (Date.iso_injective ⟨ht0, ht1⟩ ⟨h0, h1⟩ (logName_injective h))
    have htext : textOf u ≠ textOf t := fun h => ht (textOf_injective h).symm
    rw [if_neg hname, if_neg htext, List.append_nil]
    rfl

/-- One call. -/
theorem write_spec (hs : s.Opened pfx) (hc : Fair keepDays c) (h : s.write pfx keepDays c = some s') :
    s'.Opened pfx ∧ (∃ w, s'.written = s.written ++ [w] ∧ Answered c w) ∧
      ∀ t : Date, 0 ≤ t.year → t.year ≤ 9999 → cutoffDay keepDays c ≤ t.toDay → ∀ before,
        content pfx s.dir t = before ++ outOf s.written t → content pfx s'.dir t = before ++ outOf s'.written t := by
  obtain ⟨u, htoday, hu, h0, h1⟩ := hc.today
  obtain ⟨today, hsame, h⟩ := Option.bind_eq_some_iff.mp h
  obtain rfl : textOf u = today := Option.some.inj (htoday.symm.trans hsame)
  split_ifs at h with hrotate hopens
  · obtain ⟨r, hstart, h⟩ := Option.bind_eq_some_iff.mp h
    obtain ⟨hdate, hfile, hwritten, hcontent⟩ := startDay_spec hc hu h0 h1 hstart
    rw [← hdate] at h
    obtain ⟨hopened, ⟨w, hw, hwdate, hbuf, hout, hok⟩, hrest⟩ := writeOut_spec ⟨u, h0, h1, hdate, hfile⟩ h
    refine ⟨hopened, ⟨w, by rw [hw, hwritten], ⟨?_, hbuf, hout, hok⟩⟩, fun t ht0 ht1 ht before hbefore => ?_⟩
    · rw [htoday, hwdate, hdate]
    · exact hrest t ht0 ht1 before (by rw [hcontent t ht0 ht1 ht, hwritten, hbefore])
  · -- the file of the day cannot be opened: the call fails, and the next one tries again
    obtain rfl := Option.some.inj h
    refine ⟨hs, ⟨_, rfl, ⟨htoday, rfl, List.nil_prefix, nofun⟩⟩, fun t _ _ _ before hbefore => ?_⟩
    rw [outOf_concat, ite_self, List.append_nil]
    exact hbefore
  · have hdate : textOf u = s.date := not_not.mp hrotate
    rw [hdate] at h
    obtain ⟨hopened, ⟨w, hw, hwdate, hbuf, hout, hok⟩, hrest⟩ := writeOut_spec hs h
    exact ⟨hopened, ⟨w, hw, ⟨by rw [htoday, hwdate, hdate], hbuf, hout, hok⟩⟩, fun t ht0 ht1 _ => hrest t ht0 ht1⟩

/-- The calls of two days.  The file of the second day cannot be opened at first, and the clock goes back once. -/
def twoDays : List Call :=
  [⟨1749395200, true, 1749395200, none, [65, 66], [.ok 1, .interrupted, .ok 1]⟩,
   ⟨1749455200, false, 1749455200, none, [67], []⟩,
   ⟨1749455201, true, 1749455202, none, [68], [.ok 1]⟩,
   ⟨1749395201, true, 1749395202, none, [69, 70], [.ok 1, .error]⟩]

end DailyLogWriter

end RoundRobin.Logging
