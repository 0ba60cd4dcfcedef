import RoundRobin.Config
import RoundRobin.Lib.IntText

/-!
# RoundRobin.Config.Ports — the listener ports, and what the program starts with

`parse_ports` of `src/config.rs` and the choice of a side in `src/main.rs`.  The ports of an entry are a list, or a
text: one number, or two with a dash between them (`Listed`).  Logging, the addresses and the proxies and targets of
the tunnels, which nothing here tests, are left out.
-/

namespace RoundRobin

open IntText

inductive Ports where
  | range (s : String)
  | list (v : List UInt16)

/-- `MAX_PORTS`. -/
def maxPorts : ℕ := 256

/-- `split_once`. -/
def splitOnce (sep : Char) : List Char → Option (List Char × List Char)
  | [] => none
  | c :: cs => if c = sep then some ([], cs) else (splitOnce sep cs).map fun r => (c :: r.1, r.2)

/-- `s.trim().parse()`. -/
def portFromStr (cs : List Char) : Except String UInt16 :=
  match ofText (2 ^ 16) (trim cs) with
  | .ok n => .ok (UInt16.ofNat n)
  | .error e => .error e.message

/-- `start..=stop`. -/
def portRange (start stop : UInt16) : List UInt16 :=
  (List.range' start.toNat (stop.toNat + 1 - start.toNat)).map UInt16.ofNat

/-- The checks on the two ends of a range. -/
def checkedRange (start stop : UInt16) : Except String (List UInt16) :=
  if start > stop then .error "port range: start > end"
  else
    let count := stop.toNat - start.toNat + 1
    if count > maxPorts then .error s!"port range {start}-{stop} has {count} ports, max {maxPorts}"
    else .ok (portRange start stop)

/-- The ports of an entry, before they are checked. -/
def listPorts : Ports → Except String (List UInt16)
  | .list v => .ok v
  | .range s =>
    match splitOnce '-' s.toList with
    | some (start, stop) => do
      let start ← portFromStr start
      let stop ← portFromStr stop
      checkedRange start stop
    | none => (portFromStr s.toList).map fun p => [p]

/-- `retain` of what was not seen before. -/
def retainNew (seen : List UInt16) : List UInt16 → List UInt16
  | [] => []
  | p :: ps => if p ∈ seen then retainNew seen ps else p :: retainNew (p :: seen) ps

def parsePorts (ports : Ports) : Except String (List UInt16) := do
  let out ← listPorts ports
  let count := out.length
  if count > maxPorts then .error s!"port list has {count} entries, max {maxPorts}"
  else if 0 ∈ out then .error "port 0 is not allowed in reassembler.ports"
  else
    let out := retainNew [] out
    if out = [] then .error "no valid ports in configuration" else .ok out

/-- The ports of a configuration without any. -/
def defaultReassemblerPorts : Ports := .range "52311-52319"

example : parsePorts defaultReassemblerPorts =
    .ok [52311, 52312, 52313, 52314, 52315, 52316, 52317, 52318, 52319] := by rfl

/-! ## What an entry lists -/

/-- What an entry stands for. -/
inductive Listed : Ports → List UInt16 → Prop where
  | list (v : List UInt16) : Listed (.list v) v
  | single (s : String) (p : UInt16) : NumberText s.toList p.toNat → Listed (.range s) [p]
  | range (s : String) (a b : List Char) (start stop : UInt16) : s.toList = a ++ '-' :: b →
      NumberText a start.toNat → NumberText b stop.toNat → start ≤ stop → Listed (.range s) (portRange start stop)

theorem splitOnce_eq_some {sep : Char} {cs a b : List Char} :
    splitOnce sep cs = some (a, b) ↔ cs = a ++ sep :: b ∧ sep ∉ a := by
  induction cs generalizing a with
  | nil => simp [splitOnce]
  | cons c cs ih =>
    rw [splitOnce]
    split_ifs with hc
    · subst hc
      constructor
      · intro h
        obtain ⟨rfl, rfl⟩ := Prod.mk.inj (Option.some.inj h)
        exact ⟨rfl, List.not_mem_nil⟩
      · rintro ⟨heq, hnot⟩
        cases a with
        | nil =>
          obtain ⟨-, rfl⟩ := List.cons.inj heq
          rfl
        | cons x a =>
          obtain ⟨rfl, -⟩ := List.cons.inj heq
          exact absurd List.mem_cons_self hnot
    · rw [Option.map_eq_some_iff]
      constructor
      · rintro ⟨⟨a', b'⟩, hsplit, heq⟩
        obtain ⟨rfl, rfl⟩ := Prod.mk.inj heq
        obtain ⟨rfl, hnot⟩ := ih.mp hsplit
        exact ⟨rfl, fun hmem => (List.mem_cons.mp hmem).elim (fun h => hc h.symm) hnot⟩
      · rintro ⟨heq, hnot⟩
        cases a with
        | nil =>
          obtain ⟨rfl, -⟩ := List.cons.inj heq
          exact absurd rfl hc
        | cons x a =>
          obtain ⟨rfl, rfl⟩ := List.cons.inj heq
          exact ⟨(a, b), ih.mpr ⟨rfl, fun hmem => hnot (List.mem_cons_of_mem _ hmem)⟩, rfl⟩

theorem splitOnce_eq_none {sep : Char} {cs : List Char} : splitOnce sep cs = none ↔ sep ∉ cs := by
  constructor
  · intro h hmem
    obtain ⟨a, b, rfl, hnot⟩ := List.eq_append_cons_of_mem hmem
    rw [splitOnce_eq_some.mpr ⟨rfl, hnot⟩] at h
    cases h
  · intro h
    rw [Option.eq_none_iff_forall_ne_some]
    rintro ⟨a, b⟩ hsplit
    obtain ⟨rfl, -⟩ := splitOnce_eq_some.mp hsplit
    exact h (by simp)

theorem portFromStr_ok {cs : List Char} {p : UInt16} : portFromStr cs = .ok p ↔ NumberText cs p.toNat := by
  unfold portFromStr
  have hread (n : ℕ) := @ofText_trim (2 ^ 16) n (by decide) cs
  cases h : ofText (2 ^ 16) (trim cs) with
  | error e =>
    refine ⟨nofun, fun hp => ?_⟩
    have hok := (hread p.toNat).mpr ⟨hp, p.toNat_lt⟩
    rw [h] at hok
    cases hok
  | ok n =>
    obtain ⟨hn, hlt⟩ := (hread n).mp h
    constructor
    · intro hp
      obtain rfl := Except.ok.inj hp
      rwa [UInt16.toNat_ofNat_of_lt' hlt]
    · intro hp
      have hok := (hread p.toNat).mpr ⟨hp, p.toNat_lt⟩
      rw [h] at hok
      obtain rfl := Except.ok.inj hok
      exact congrArg Except.ok UInt16.ofNat_toNat

/-- There is no dash in the text of a number. -/
theorem numberText_dash {cs : List Char} {n : ℕ} (h : NumberText cs n) : '-' ∉ cs := by
  obtain ⟨before, sign, behind, ds, rfl, hbefore, hbehind, hsign, hds⟩ := h
  have hdash : isWhitespace '-' = false := by decide
  intro hmem
  rcases List.mem_append.mp hmem with hmem | hmem
  · rcases List.mem_append.mp hmem with hmem | hmem
    · exact absurd (hbefore _ hmem) (by simp [hdash])
    · rcases List.mem_append.mp hmem with hmem | hmem
      · rcases hsign with rfl | rfl
        · cases hmem
        · exact absurd (List.mem_singleton.mp hmem) (by decide)
      · obtain ⟨d, hd, heq⟩ := List.mem_map.mp hmem
        exact (digitChar_ne (hds.lt d hd)).2.1 heq
  · exact absurd (hbehind _ hmem) (by simp [hdash])

theorem length_portRange (start stop : UInt16) :
    (portRange start stop).length = stop.toNat + 1 - start.toNat := by
  rw [portRange, List.length_map, List.length_range']

theorem checkedRange_ok {start stop : UInt16} {listed : List UInt16} : checkedRange start stop = .ok listed ↔
    start ≤ stop ∧ (portRange start stop).length ≤ maxPorts ∧ portRange start stop = listed := by
  simp only [checkedRange]
  split_ifs with hgt hcount
  · exact ⟨nofun, fun h => absurd hgt (UInt16.not_lt.mpr h.1)⟩
  · have hle := UInt16.le_iff_toNat_le.mp (UInt16.not_lt.mp hgt)
    refine ⟨nofun, fun h => absurd h.2.1 ?_⟩
    rw [length_portRange]
    omega
  · have hle := UInt16.le_iff_toNat_le.mp (UInt16.not_lt.mp hgt)
    refine ⟨fun h => ⟨UInt16.not_lt.mp hgt, ?_, Except.ok.inj h⟩, fun h => congrArg Except.ok h.2.2⟩
    rw [length_portRange]
    omega

/-- Entries that are not too long are read as what they stand for. -/
theorem listPorts_ok {ports : Ports} {listed : List UInt16} (hlen : listed.length ≤ maxPorts) :
    listPorts ports = .ok listed ↔ Listed ports listed := by
  cases ports with
  | list v =>
    constructor
    · intro h
      obtain rfl := Except.ok.inj h
      exact .list v
    · intro h
      cases h
      rfl
  | range s =>
    simp only [listPorts]
    cases hsplit : splitOnce '-' s.toList with
    | none =>
      have hdash := splitOnce_eq_none.mp hsplit
      constructor
      · intro h
        cases hp : portFromStr s.toList with
        | error e =>
          simp only [hp] at h
          cases h
        | ok p =>
          simp only [hp] at h
          obtain rfl : [p] = listed := Except.ok.inj h
          exact .single s p (portFromStr_ok.mp hp)
      · intro h
        cases h with
        | single _ p hp => simp only [portFromStr_ok.mpr hp]; rfl
        | range _ a b start stop heq => exact absurd (heq ▸ List.mem_append_right a List.mem_cons_self) hdash
    | some r =>
      obtain ⟨a, b⟩ := r
      obtain ⟨heq, hnot⟩ := splitOnce_eq_some.mp hsplit
      constructor
      · intro h
        simp only at h
        cases ha : portFromStr a with
        | error e => rw [ha] at h; cases h
        | ok start =>
          cases hb : portFromStr b with
          | error e => rw [ha, hb] at h; cases h
          | ok stop =>
            rw [ha, hb] at h
            obtain ⟨hle, -, rfl⟩ := checkedRange_ok.mp h
            exact .range s a b start stop heq (portFromStr_ok.mp ha) (portFromStr_ok.mp hb) hle
      · intro h
        cases h with
        | single _ p hp =>
          exact absurd (heq ▸ List.mem_append_right a List.mem_cons_self) (numberText_dash hp)
        | range _ a' b' start stop heq' ha hb hle =>
          have hsame := splitOnce_eq_some.mpr ⟨heq', numberText_dash ha⟩
          rw [hsplit] at hsame
          obtain ⟨rfl, rfl⟩ := Prod.mk.inj (Option.some.inj hsame)
          simp only [portFromStr_ok.mpr ha, portFromStr_ok.mpr hb]
          exact checkedRange_ok.mpr ⟨hle, hlen, rfl⟩

/-! ## The ports that are listened on -/

/-- What is retained was not seen, is there once and in order. -/
theorem retainNew_spec (seen ps : List UInt16) :
    (retainNew seen ps).Nodup ∧ (∀ p, p ∈ retainNew seen ps ↔ p ∈ ps ∧ p ∉ seen) ∧
      (retainNew seen ps).Sublist ps := by
  induction ps generalizing seen with
  | nil => exact ⟨List.nodup_nil, fun p => by simp [retainNew], .slnil⟩
  | cons q ps ih =>
    rw [retainNew]
    split_ifs with hq
    · obtain ⟨hnodup, hmem, hsub⟩ := ih seen
      refine ⟨hnodup, fun p => ?_, hsub.cons q⟩
      rw [hmem, List.mem_cons]
      constructor
      · rintro ⟨hp, hns⟩
        exact ⟨.inr hp, hns⟩
      · rintro ⟨rfl | hp, hns⟩
        · exact absurd hq hns
        · exact ⟨hp, hns⟩
    · obtain ⟨hnodup, hmem, hsub⟩ := ih (q :: seen)
      refine ⟨List.nodup_cons.mpr ⟨fun hin => ?_, hnodup⟩, fun p => ?_, hsub.cons_cons q⟩
      · exact ((hmem q).mp hin).2 List.mem_cons_self
      · rw [List.mem_cons, hmem, List.mem_cons, List.mem_cons, not_or]
        constructor
        · rintro (rfl | ⟨hp, -, hns⟩)
          · exact ⟨.inl rfl, hq⟩
          · exact ⟨.inr hp, hns⟩
        · rintro ⟨rfl | hp, hns⟩
          · exact .inl rfl
          · by_cases hpq : p = q
            · exact .inl hpq
            · exact .inr ⟨hp, hpq, hns⟩

/-- The ports of an entry can all be listened on. -/
structure Usable (listed : List UInt16) : Prop where
  some : listed ≠ []
  few : listed.length ≤ maxPorts
  nonzero : 0 ∉ listed

theorem parsePorts_ok {ports : Ports} {out : List UInt16} :
    parsePorts ports = .ok out ↔ ∃ listed, Listed ports listed ∧ Usable listed ∧ out = retainNew [] listed := by
  have hparse : parsePorts ports = (listPorts ports).bind fun l =>
      if l.length > maxPorts then .error s!"port list has {l.length} entries, max {maxPorts}"
      else if 0 ∈ l then .error "port 0 is not allowed in reassembler.ports"
      else if retainNew [] l = [] then .error "no valid ports in configuration" else .ok (retainNew [] l) := rfl
  have hnil (l : List UInt16) : retainNew [] l = [] ↔ l = [] := by
    constructor
    · intro h
      obtain ⟨-, hmem, -⟩ := retainNew_spec [] l
      rw [List.eq_nil_iff_forall_not_mem]
      intro p hp
      have hin := (hmem p).mpr ⟨hp, List.not_mem_nil⟩
      rw [h] at hin
      cases hin
    · rintro rfl
      rfl
  rw [hparse]
  constructor
  · intro h
    cases hl : listPorts ports with
    | error e => rw [hl] at h; cases h
    | ok listed =>
      rw [hl] at h
      simp only [Except.bind] at h
      split_ifs at h with hlong hzero hempty
      have hfew := not_lt.mp hlong
      exact ⟨listed, (listPorts_ok hfew).mp hl, ⟨fun hno => hempty ((hnil listed).mpr hno), hfew, hzero⟩,
        (Except.ok.inj h).symm⟩
  · rintro ⟨listed, hlisted, ⟨hsome, hfew, hzero⟩, rfl⟩
    rw [(listPorts_ok hfew).mpr hlisted]
    simp only [Except.bind]
    rw [if_neg (not_lt.mpr hfew), if_neg hzero, if_neg fun h => hsome ((hnil listed).mp h)]

theorem retainNew_eq (seen ps : List UInt16) : retainNew seen ps = (ps.filter fun p => p ∉ seen).eraseDups := by
  induction ps generalizing seen with
  | nil => rfl
  | cons q ps ih =>
    rw [retainNew]
    split_ifs with hq
    · rw [List.filter_cons_of_neg (by simpa using hq), ih]
    · rw [List.filter_cons_of_pos (by simpa using hq), List.eraseDups_cons, ih, List.filter_filter]
      congr 3
      funext p
      by_cases hpq : p = q <;> simp [hpq]

/-- **The ports that are accepted.**  An entry is accepted just if it is a list of ports, the text of one or the text
of two with a dash between, the first not above the second; if it lists at least one and at most 256 and not the
port 0.  Each is then listened on once. -/
theorem ports_grammar (ports : Ports) (out : List UInt16) :
    (parsePorts ports = .ok out ↔ ∃ listed, Listed ports listed ∧ Usable listed ∧ out = listed.eraseDups) ∧
      (parsePorts ports = .ok out → out.Nodup ∧ Usable out) := by
  have hall (l : List UInt16) : retainNew [] l = l.eraseDups := by simp [retainNew_eq]
  refine ⟨?_, fun h => ?_⟩
  · simp only [parsePorts_ok, hall]
  · obtain ⟨listed, -, ⟨hsome, hfew, hzero⟩, rfl⟩ := parsePorts_ok.mp h
    obtain ⟨hnodup, hmem, hsub⟩ := retainNew_spec [] listed
    refine ⟨hnodup, fun hnil => hsome ?_, hsub.length_le.trans hfew, fun h0 => hzero (hsub.subset h0)⟩
    rw [List.eq_nil_iff_forall_not_mem]
    intro p hp
    have hin := (hmem p).mpr ⟨hp, List.not_mem_nil⟩
    rw [hnil] at hin
    cases hin

/-- The default entry. -/
theorem ports_grammar_default :
    ∃ out listed, parsePorts defaultReassemblerPorts = .ok out ∧ out.Nodup ∧
      Listed defaultReassemblerPorts listed ∧ out = listed.eraseDups := by
  have hparse : parsePorts defaultReassemblerPorts =
    .ok [52311, 52312, 52313, 52314, 52315, 52316, 52317, 52318, 52319] := by rfl
  obtain ⟨hgrammar, husable⟩ := ports_grammar defaultReassemblerPorts _
  obtain ⟨listed, hlisted, -, hout⟩ := hgrammar.mp hparse
  exact ⟨_, listed, hparse, (husable hparse).1, hlisted, hout⟩

/-! ## What is started -/

/-- The section of the reassembler. -/
structure ReassemblerSection where
  config : ReassemblerConfig
  ports : Ports

/-- `Config`. -/
structure AppConfig where
  mode : String
  splitter : Option SplitterConfig
  reassembler : Option ReassemblerSection

/-- The side that is run, with what it is given. -/
inductive Started where
  | splitter (c : SplitterConfig)
  | reassembler (c : ReassemblerConfig) (ports : List UInt16)

/-- The `match` of `main`. -/
def startUp (cfg : AppConfig) : Except String Started :=
  if cfg.mode = "splitter" then
    match cfg.splitter with
    | none => .error "config missing [splitter] section"
    | some sc => do
      sc.validate
      if sc.tunnel = [] then .error "[splitter] has no [[splitter.tunnel]] entries"
      else .ok (.splitter sc)
  else if cfg.mode = "reassembler" then
    match cfg.reassembler with
    | none => .error "config missing [reassembler] section"
    | some rc => do
      rc.config.validate
      let ports ← parsePorts rc.ports
      .ok (.reassembler rc.config ports)
  else
    let other := cfg.mode
    .error s!"unknown mode: {other}, expected \"splitter\" or \"reassembler\""

theorem bind_ok_iff {α β : Type} {x : Except String α} {f : α → Except String β} {b : β} :
    x.bind f = .ok b ↔ ∃ a, x = .ok a ∧ f a = .ok b := by
  cases x with
  | error e => exact ⟨nofun, fun ⟨a, ha, _⟩ => by cases ha⟩
  | ok a =>
    refine ⟨fun h => ⟨a, rfl, h⟩, ?_⟩
    rintro ⟨a', ha, hf⟩
    obtain rfl := Except.ok.inj ha
    exact hf

theorem SplitterConfig.validate_ok {c : SplitterConfig} : c.validate = .ok () ↔
    Checked c.chunkSize c.dataSendTimeoutSecs c.heartbeatSecs c.reorderWindowBytes ∧
      ∀ t ∈ c.tunnel, t.port ≠ 0 ∧ t.proxyPort ≠ 0 := by
  have hbind : c.validate = (validateShared "splitter" c.chunkSize c.dataSendTimeoutSecs c.heartbeatSecs
      c.reorderWindowBytes).bind fun _ =>
        if c.tunnel.any fun t => t.port = 0 then .error "splitter.tunnel port must not be 0"
        else if c.tunnel.any fun t => t.proxyPort = 0 then .error "splitter.tunnel proxy port must not be 0"
        else .ok () := rfl
  rw [hbind, bind_ok_iff]
  constructor
  · rintro ⟨u, hshared, h⟩
    split_ifs at h with hport hproxy
    refine ⟨validateShared_ok_iff.mp hshared, fun t ht => ⟨fun h0 => hport ?_, fun h0 => hproxy ?_⟩⟩
    · exact List.any_eq_true.mpr ⟨t, ht, decide_eq_true h0⟩
    · exact List.any_eq_true.mpr ⟨t, ht, decide_eq_true h0⟩
  · rintro ⟨hchecked, ht⟩
    refine ⟨(), validateShared_ok_iff.mpr hchecked, ?_⟩
    have hport : (c.tunnel.any fun t => t.port = 0) = false := by simpa using fun t h => (ht t h).1
    have hproxy : (c.tunnel.any fun t => t.proxyPort = 0) = false := by simpa using fun t h => (ht t h).2
    simp only [hport, hproxy, Bool.false_eq_true, if_false]

/-- **What is started.**  The program starts a side just if its mode names it, its section is there, the section's
values are within their bounds, and it has somewhere to go: the splitter at least one tunnel, none with a
port 0; the reassembler a port entry that is accepted.  Otherwise it ends with an error. -/
theorem start_up (cfg : AppConfig) (st : Started) : startUp cfg = .ok st ↔
    (∃ c, st = .splitter c ∧ cfg.mode = "splitter" ∧ cfg.splitter = some c ∧
      Checked c.chunkSize c.dataSendTimeoutSecs c.heartbeatSecs c.reorderWindowBytes ∧ c.tunnel ≠ [] ∧
      ∀ t ∈ c.tunnel, t.port ≠ 0 ∧ t.proxyPort ≠ 0) ∨
    ∃ c ports listed, st = .reassembler c listed.eraseDups ∧ cfg.mode = "reassembler" ∧
      cfg.reassembler = some ⟨c, ports⟩ ∧
      Checked c.chunkSize c.dataSendTimeoutSecs c.heartbeatSecs c.reorderWindowBytes ∧
      Listed ports listed ∧ Usable listed := by
  have hall (l : List UInt16) : retainNew [] l = l.eraseDups := by simp [retainNew_eq]
  rw [startUp]
  split_ifs with hsplitter hreassembler
  · have hmode : cfg.mode ≠ "reassembler" := by rw [hsplitter]; decide
    cases hc : cfg.splitter with
    | none =>
      refine ⟨nofun, ?_⟩
      rintro (⟨c, -, -, hsome, -⟩ | ⟨c, ports, listed, -, hm, -⟩)
      · cases hsome
      · exact absurd hm hmode
    | some sc =>
      have hbind : (do
          sc.validate
          if sc.tunnel = [] then .error "[splitter] has no [[splitter.tunnel]] entries"
          else .ok (.splitter sc) : Except String Started) = sc.validate.bind fun _ =>
            if sc.tunnel = [] then .error "[splitter] has no [[splitter.tunnel]] entries" else .ok (.splitter sc) := rfl
      simp only [hbind, bind_ok_iff]
      constructor
      · rintro ⟨u, hvalid, h⟩
        obtain ⟨hchecked, htunnels⟩ := SplitterConfig.validate_ok.mp hvalid
        split_ifs at h with hnone
        exact .inl ⟨sc, (Except.ok.inj h).symm, hsplitter, rfl, hchecked, hnone, htunnels⟩
      · rintro (⟨c, rfl, -, hsome, hchecked, hnone, htunnels⟩ | ⟨c, ports, listed, -, hm, -⟩)
        · obtain rfl := Option.some.inj hsome
          exact ⟨(), SplitterConfig.validate_ok.mpr ⟨hchecked, htunnels⟩, if_neg hnone⟩
        · exact absurd hm hmode
  · cases hc : cfg.reassembler with
    | none =>
      refine ⟨nofun, ?_⟩
      rintro (⟨c, -, hm, -⟩ | ⟨c, ports, listed, -, -, hsome, -⟩)
      · exact absurd hm hsplitter
      · cases hsome
    | some rc =>
      have hbind : (do
          rc.config.validate
          let ports ← parsePorts rc.ports
          .ok (.reassembler rc.config ports) : Except String Started) = rc.config.validate.bind fun _ =>
            (parsePorts rc.ports).bind fun ports => .ok (.reassembler rc.config ports) := rfl
      simp only [hbind, bind_ok_iff]
      constructor
      · rintro ⟨u, hvalid, out, hparse, h⟩
        obtain ⟨listed, hlisted, husable, rfl⟩ := parsePorts_ok.mp hparse
        refine .inr ⟨rc.config, rc.ports, listed, ?_, hreassembler, rfl, validateShared_ok_iff.mp hvalid, hlisted,
          husable⟩
        rw [← hall]
        exact (Except.ok.inj h).symm
      · rintro (⟨c, -, hm, -⟩ | ⟨c, ports, listed, rfl, -, hsome, hchecked, hlisted, husable⟩)
        · exact absurd hm hsplitter
        · obtain rfl := Option.some.inj hsome
          refine ⟨(), validateShared_ok_iff.mpr hchecked, retainNew [] listed, ?_, by rw [hall]⟩
          exact parsePorts_ok.mpr ⟨listed, hlisted, husable, rfl⟩
  · refine ⟨nofun, ?_⟩
    rintro (⟨c, -, hm, -⟩ | ⟨c, ports, listed, -, hm, -⟩)
    · exact absurd hm hsplitter
    · exact absurd hm hreassembler

end RoundRobin
