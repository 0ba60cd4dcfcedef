import RoundRobin.Frame

/-!
# RoundRobin.FrameStream — the decoder yields exactly the frames of the stream

Parsing inverts `Frame.wire` on both sides (`parse_wire_append`, `parse_sound`), so encodings form a
prefix code.  The decoder only ever sees `buffer ++ unread bytes`: `tryNext_spec` says what one call
returns in terms of that concatenation alone, whatever the reads are.
-/

namespace RoundRobin

open BigEndian

/-! ## One frame -/

theorem Frame.length_wire (f : Frame) : f.wire.length = headerLen + f.payload.length := by
  simp [Frame.wire, headerLen]
  omega

theorem Frame.encodeInto_eq {f : Frame} (h : f.payload.length ≤ maxPayload) (buf : Bytes) :
    f.encodeInto buf = .ok (buf ++ f.wire) := by
  unfold Frame.encodeInto
  rw [if_neg (by omega)]

theorem Frame.encodeInto_ok {f : Frame} {buf e : Bytes} (h : f.encodeInto buf = .ok e) :
    f.payload.length ≤ maxPayload ∧ e = buf ++ f.wire := by
  unfold Frame.encodeInto at h
  split_ifs at h with hlen
  exact ⟨by omega, by simpa using h.symm⟩

namespace FrameDecoder

/-- A buffer that starts with an encoding parses to that frame. -/
theorem parse_wire_append {f : Frame} (h : f.payload.length ≤ maxPayload) (t : Bytes) :
    parse (f.wire ++ t) = .ok (some (f, t)) := by
  have hlen2 : f.payload.length < 256 ^ 2 := by simp only [maxPayload] at h; omega
  have hconn : f.connId.toNat < 256 ^ 4 := f.connId.toNat_lt
  have hseq : f.seq.toNat < 256 ^ 8 := f.seq.toNat_lt
  have hpl : ofBe (((f.wire ++ t).drop 13).take 2) = f.payload.length := by
    have hd : (f.wire ++ t).drop 13 = beBytes 2 f.payload.length ++ (f.payload ++ t) := by
      rw [Frame.wire, List.append_assoc, List.append_assoc, List.drop_left' (by simp)]
    rw [hd, List.take_left' (by simp), ofBe_beBytes_of_lt hlen2]
  have h4 : ofBe ((f.wire ++ t).take 4) = f.connId.toNat := by
    simp [Frame.wire, ofBe_beBytes_of_lt hconn]
  have h8 : ofBe (((f.wire ++ t).drop 4).take 8) = f.seq.toNat := by
    simp [Frame.wire, ofBe_beBytes_of_lt hseq]
  have h12 : (f.wire ++ t).getD 12 0 = f.flags := by
    simp [Frame.wire, List.getElem?_append]
  have h15 : (f.wire ++ t).drop headerLen = f.payload ++ t := by
    rw [Frame.wire, List.append_assoc, List.drop_left' (by simp [headerLen])]
  have hl : (f.wire ++ t).length = headerLen + f.payload.length + t.length := by
    rw [List.length_append, Frame.length_wire]
  unfold parse
  rw [if_pos (by omega)]
  simp only [hpl, h4, h8, h12, h15]
  rw [if_neg (by omega), if_pos (by omega)]
  simp

/-- What parses as a frame is that frame's encoding followed by the rest. -/
theorem parse_sound {b : Bytes} {f : Frame} {t : Bytes} (h : parse b = .ok (some (f, t))) :
    f.payload.length ≤ maxPayload ∧ b = f.wire ++ t := by
  unfold parse at h
  dsimp only at h
  split_ifs at h with h15 hbig hlen
  · simp only [Except.ok.injEq, Option.some.injEq, Prod.mk.injEq] at h
    obtain ⟨rfl, rfl⟩ := h
    have hb15 : 15 ≤ b.length := h15
    set pl := ofBe ((b.drop 13).take 2) with hpl
    have hpay : ((b.drop headerLen).take pl).length = pl := by
      rw [List.length_take, List.length_drop]
      omega
    have c4 : beBytes 4 (UInt32.ofNat (ofBe (b.take 4))).toNat = b.take 4 := by
      have hlt := ofBe_lt (b.take 4)
      have hl : (b.take 4).length = 4 := by simp; omega
      rw [hl] at hlt
      rw [UInt32.toNat_ofNat_of_lt' hlt]
      simpa [hl] using beBytes_ofBe (b.take 4)
    have c8 : beBytes 8 (UInt64.ofNat (ofBe ((b.drop 4).take 8))).toNat = (b.drop 4).take 8 := by
      have hlt := ofBe_lt ((b.drop 4).take 8)
      have hl : ((b.drop 4).take 8).length = 8 := by simp; omega
      rw [hl] at hlt
      rw [UInt64.toNat_ofNat_of_lt' hlt]
      simpa [hl] using beBytes_ofBe ((b.drop 4).take 8)
    have c2 : beBytes 2 pl = (b.drop 13).take 2 := by
      have hl : ((b.drop 13).take 2).length = 2 := by simp; omega
      simpa [hl] using beBytes_ofBe ((b.drop 13).take 2)
    have c1 : [b.getD 12 0] = (b.drop 12).take 1 := by
      have hlt : 12 < b.length := by omega
      have hget : b.getD 12 0 = b[12] := by simp [hlt]
      rw [hget, List.drop_eq_getElem_cons hlt]
      rfl
    refine ⟨by simp only [hpay]; omega, ?_⟩
    simp only [Frame.wire, hpay, c4, c8, c2, c1, List.append_assoc, List.take_append_drop]
    -- the five slices are consecutive
    have e13 : (b.drop 13).take 2 ++ b.drop headerLen = b.drop 13 := by
      have := List.take_append_drop 2 (b.drop 13)
      rwa [List.drop_drop] at this
    have e12 : (b.drop 12).take 1 ++ b.drop 13 = b.drop 12 := by
      have := List.take_append_drop 1 (b.drop 12)
      rwa [List.drop_drop] at this
    have e4 : (b.drop 4).take 8 ++ b.drop 12 = b.drop 4 := by
      have := List.take_append_drop 8 (b.drop 4)
      rwa [List.drop_drop] at this
    rw [e13, e12, e4, List.take_append_drop]
  · simp at h
  · simp at h

theorem parse_ne_error (b : Bytes) (e : FrameError) : parse b ≠ .error e := by
  unfold parse
  dsimp only
  have hlt : ofBe ((b.drop 13).take 2) ≤ maxPayload := by
    have h := ofBe_lt ((b.drop 13).take 2)
    have hl : ((b.drop 13).take 2).length ≤ 2 := List.length_take_le _ _
    have h2 : 256 ^ ((b.drop 13).take 2).length ≤ 256 ^ 2 := Nat.pow_le_pow_right (by norm_num) hl
    simp only [maxPayload]
    omega
  split_ifs <;> first | omega | simp

/-- No encoding starts a buffer that needs more bytes, and such a buffer is far below the bound. -/
theorem parse_none {b : Bytes} (h : parse b = .ok none) :
    b.length < headerLen + maxPayload ∧
      ∀ f : Frame, f.payload.length ≤ maxPayload → ¬ f.wire <+: b := by
  refine ⟨?_, ?_⟩
  · unfold parse at h
    dsimp only at h
    split_ifs at h
    · simp at h
    all_goals omega
  · rintro f hf ⟨t, rfl⟩
    rw [parse_wire_append hf t] at h
    simp at h

/-- The overflow check is passed whenever the parse needs more bytes. -/
theorem space_of_parse_none {b : Bytes} (h : parse b = .ok none) :
    maxDecoderBuf - b.length ≠ 0 := by
  have hlen := (parse_none h).1
  have hbuf : headerLen + maxPayload < maxDecoderBuf := by decide
  omega

theorem parse_append {b : Bytes} {f : Frame} {t : Bytes} (h : parse b = .ok (some (f, t)))
    (r : Bytes) : parse (b ++ r) = .ok (some (f, t ++ r)) := by
  obtain ⟨hf, rfl⟩ := parse_sound h
  rw [List.append_assoc]
  exact parse_wire_append hf (t ++ r)

/-! ## One call of `tryNext` -/

/-- The bytes a decoder has not turned into frames yet. -/
def unread (d : FrameDecoder) (reads : List Bytes) : Bytes := d.buf ++ reads.flatten

/-- One call of `tryNext` depends only on the unread bytes, not on how they are split. -/
theorem tryNext_spec (d : FrameDecoder) (reads : List Bytes) (hne : ∀ r ∈ reads, r ≠ []) :
    (∃ f t, parse (d.unread reads) = .ok (some (f, t)) ∧ (d.tryNext reads).result = .ok (some f) ∧
        (d.tryNext reads).dec.unread (d.tryNext reads).reads = t ∧
        ∀ r ∈ (d.tryNext reads).reads, r ≠ []) ∨
      (parse (d.unread reads) = .ok none ∧
        (d.tryNext reads).result = (⟨d.unread reads⟩ : FrameDecoder).atEof) := by
  induction reads generalizing d with
  | nil =>
    have hu : d.unread [] = d.buf := by simp [unread]
    rw [hu]
    cases hp : parse d.buf with
    | error e => exact absurd hp (parse_ne_error _ _)
    | ok o =>
      cases o with
      | none =>
        have hs : maxDecoderBuf - d.buf.length ≠ 0 := space_of_parse_none hp
        right
        simp [tryNext, hp, hs]
      | some p => exact .inl ⟨p.1, p.2, by simp [tryNext, hp, unread]⟩
  | cons r rs ih =>
    cases hp : parse d.buf with
    | error e => exact absurd hp (parse_ne_error _ _)
    | ok o =>
      cases o with
      | none =>
        have hs : maxDecoderBuf - d.buf.length ≠ 0 := space_of_parse_none hp
        have hr : r.length ≠ 0 := by simpa using hne r (by simp)
        have hstep : d.tryNext (r :: rs) = tryNext ⟨d.buf ++ r⟩ rs := by
          simp [tryNext, hp, hs, hr]
        have hu : d.unread (r :: rs) = (⟨d.buf ++ r⟩ : FrameDecoder).unread rs := by simp [unread]
        rw [hstep, hu]
        exact ih ⟨d.buf ++ r⟩ (fun x hx => hne x (by simp [hx]))
      | some p =>
        refine .inl ⟨p.1, p.2 ++ (r :: rs).flatten, ?_, ?_, ?_, ?_⟩
        · exact parse_append hp _
        · simp [tryNext, hp]
        · simp [tryNext, hp, unread]
        · simpa [tryNext, hp] using hne

/-- A returned frame uses up unread bytes. -/
theorem tryNext_unread_lt {d : FrameDecoder} {reads : List Bytes} {f : Frame}
    (h : (d.tryNext reads).result = .ok (some f)) :
    ((d.tryNext reads).dec.unread (d.tryNext reads).reads).length < (d.unread reads).length := by
  have hparse : ∀ {b t : Bytes} {g : Frame}, parse b = .ok (some (g, t)) → t.length < b.length := by
    intro b t g hp
    obtain ⟨-, rfl⟩ := parse_sound hp
    simp [Frame.length_wire, headerLen]
  have heof : ∀ d : FrameDecoder, d.atEof ≠ .ok (some f) := by
    intro d
    unfold atEof
    split_ifs <;> simp
  induction reads generalizing d with
  | nil =>
    cases hp : parse d.buf with
    | error e => exact absurd hp (parse_ne_error _ _)
    | ok o =>
      cases o with
      | none =>
        have hs := space_of_parse_none hp
        simp only [tryNext, hp, hs, if_false] at h
        exact absurd h (heof d)
      | some p => simpa [tryNext, hp, unread] using hparse hp
  | cons r rs ih =>
    cases hp : parse d.buf with
    | error e => exact absurd hp (parse_ne_error _ _)
    | ok o =>
      cases o with
      | none =>
        have hs := space_of_parse_none hp
        by_cases hr : r.length = 0
        · simp only [tryNext, hp, hs, hr, if_false, if_true] at h
          exact absurd h (heof d)
        · have hstep : d.tryNext (r :: rs) = tryNext ⟨d.buf ++ r⟩ rs := by
            simp only [tryNext, hp, hs, hr, if_false]
          have hu : d.unread (r :: rs) = (⟨d.buf ++ r⟩ : FrameDecoder).unread rs := by
            simp [unread]
          rw [hstep] at h ⊢
          rw [hu]
          exact ih h
      | some p => simpa [tryNext, hp, unread] using hparse hp

/-! ## The whole stream -/

/-- Call `tryNext` until it no longer returns a frame: the frames, and how the stream ended. -/
def decodeAll (d : FrameDecoder) (reads : List Bytes) : List Frame × Except FrameError Unit :=
  match _h : (d.tryNext reads).result with
  | .ok (some f) =>
    let p := (d.tryNext reads).dec.decodeAll (d.tryNext reads).reads
    (f :: p.1, p.2)
  | .ok none => ([], .ok ())
  | .error e => ([], .error e)
termination_by (d.unread reads).length
decreasing_by exact tryNext_unread_lt _h

end FrameDecoder

/-- The encodings of a list of frames, without the length checks. -/
def Frame.wires (fs : List Frame) : Bytes := (fs.map Frame.wire).flatten

/-- Every payload fits the length field. -/
def Frame.Encodable (fs : List Frame) : Prop := ∀ f ∈ fs, f.payload.length ≤ maxPayload

theorem Frame.foldlM_encodeInto {fs : List Frame} {buf e : Bytes} :
    fs.foldlM (fun buf f => f.encodeInto buf) buf = .ok e ↔
      Frame.Encodable fs ∧ e = buf ++ Frame.wires fs := by
  induction fs generalizing buf with
  | nil => simp [Frame.Encodable, Frame.wires, pure, Except.pure, eq_comm]
  | cons f fs ih =>
    rw [List.foldlM_cons]
    constructor
    · intro h
      cases hf : f.encodeInto buf with
      | error err => rw [hf] at h; cases h
      | ok b =>
        rw [hf] at h
        obtain ⟨hlen, rfl⟩ := Frame.encodeInto_ok hf
        obtain ⟨hfs, rfl⟩ := ih.mp h
        refine ⟨?_, by simp [Frame.wires]⟩
        simpa [Frame.Encodable] using ⟨hlen, hfs⟩
    · rintro ⟨hok, rfl⟩
      rw [Frame.encodeInto_eq (hok f (by simp))]
      exact ih.mpr ⟨fun g hg => hok g (by simp [hg]), by simp [Frame.wires]⟩

theorem Frame.encodeAll_ok {fs : List Frame} {e : Bytes} :
    Frame.encodeAll fs = .ok e ↔ Frame.Encodable fs ∧ e = Frame.wires fs := by
  have h : fs.foldlM (fun buf f => f.encodeInto buf) [] = .ok e ↔
      Frame.Encodable fs ∧ e = [] ++ Frame.wires fs := Frame.foldlM_encodeInto
  simpa [Frame.encodeAll] using h

namespace FrameDecoder

/-- The decoder splits its unread bytes into encodings and a tail that does not parse. -/
theorem decodeAll_spec (d : FrameDecoder) (reads : List Bytes) (hne : ∀ r ∈ reads, r ≠ []) :
    ∃ fs t, d.unread reads = Frame.wires fs ++ t ∧ Frame.Encodable fs ∧ parse t = .ok none ∧
      d.decodeAll reads = (fs, if t = [] then .ok () else .error (.eofMidFrame t.length)) := by
  induction hn : (d.unread reads).length using Nat.strong_induction_on generalizing d reads with
  | _ n ih =>
    subst hn
    rcases tryNext_spec d reads hne with ⟨f, t, hp, hres, hun, hne'⟩ | ⟨hp, hres⟩
    · obtain ⟨fs, u, hu, hfs, hpu, hdec⟩ := ih _ (tryNext_unread_lt hres) _ _ hne' rfl
      obtain ⟨hf, hwire⟩ := parse_sound hp
      rw [hun] at hu
      refine ⟨f :: fs, u, ?_, ?_, hpu, ?_⟩
      · rw [hwire, hu]
        simp [Frame.wires]
      · simpa [Frame.Encodable] using ⟨hf, hfs⟩
      · rw [decodeAll]
        split
        · rename_i g hg
          rw [hres] at hg
          cases hg
          simp [hdec]
        · rename_i hg; rw [hres] at hg; cases hg
        · rename_i e hg; rw [hres] at hg; cases hg
    · refine ⟨[], d.unread reads, by simp [Frame.wires], by simp [Frame.Encodable], hp, ?_⟩
      rw [decodeAll]
      by_cases hemp : d.unread reads = []
      · have hok : (d.tryNext reads).result = .ok none := by rw [hres]; simp [atEof, hemp]
        split
        · rename_i g hg; rw [hok] at hg; cases hg
        · simp [hemp]
        · rename_i e hg; rw [hok] at hg; cases hg
      · have herr : (d.tryNext reads).result = .error (.eofMidFrame (d.unread reads).length) := by
          rw [hres]; simp [atEof, hemp]
        split
        · rename_i g hg; rw [herr] at hg; cases hg
        · rename_i hg; rw [herr] at hg; cases hg
        · rename_i e hg; rw [herr] at hg; cases hg; simp [hemp]

/-- Encodings are a prefix code: nothing but a prefix of `fs` can be read off a stream that is
`fs` followed by a tail that does not parse. -/
theorem wires_cut {fs fs' : List Frame} {t : Bytes} (hfs : Frame.Encodable fs)
    (hfs' : Frame.Encodable fs') (ht : parse t = .ok none)
    (h : Frame.wires fs' <+: Frame.wires fs ++ t) : fs' <+: fs := by
  induction fs' generalizing fs with
  | nil => exact List.nil_prefix
  | cons f fs' ih =>
    have hf := hfs' f (by simp)
    obtain ⟨u, hu⟩ := h
    have hu' : f.wire ++ (Frame.wires fs' ++ u) = Frame.wires fs ++ t := by
      rw [← hu]; simp [Frame.wires]
    cases fs with
    | nil =>
      have hw : f.wire <+: t := ⟨Frame.wires fs' ++ u, by simpa [Frame.wires] using hu'⟩
      exact absurd hw ((parse_none ht).2 f hf)
    | cons g fs =>
      have hg := hfs g (by simp)
      have hu'' : f.wire ++ (Frame.wires fs' ++ u) = g.wire ++ (Frame.wires fs ++ t) := by
        rw [hu']; simp [Frame.wires]
      have hp := parse_wire_append hf (Frame.wires fs' ++ u)
      rw [hu'', parse_wire_append hg] at hp
      simp only [Except.ok.injEq, Option.some.injEq, Prod.mk.injEq] at hp
      obtain ⟨rfl, hrest⟩ := hp
      have hpre : fs' <+: fs := ih (fun x hx => hfs x (by simp [hx]))
        (fun x hx => hfs' x (by simp [hx])) ⟨u, hrest.symm⟩
      exact List.cons_prefix_cons.mpr ⟨rfl, hpre⟩

/-- The header check and the buffer bound never fire, whatever was read before. -/
theorem tryNext_error_eof (d : FrameDecoder) (reads : List Bytes) {e : FrameError}
    (h : (d.tryNext reads).result = .error e) : ∃ n, e = .eofMidFrame n := by
  have heof : ∀ d : FrameDecoder, d.atEof = .error e → ∃ n, e = .eofMidFrame n := by
    intro d hd
    unfold atEof at hd
    split_ifs at hd
    exact ⟨d.buf.length, by simpa using hd.symm⟩
  induction reads generalizing d with
  | nil =>
    cases hp : parse d.buf with
    | error e => exact absurd hp (parse_ne_error _ _)
    | ok o =>
      cases o with
      | none =>
        simp only [tryNext, hp, space_of_parse_none hp, if_false] at h
        exact heof d h
      | some p => simp [tryNext, hp] at h
  | cons r rs ih =>
    cases hp : parse d.buf with
    | error e => exact absurd hp (parse_ne_error _ _)
    | ok o =>
      cases o with
      | none =>
        by_cases hr : r.length = 0
        · simp only [tryNext, hp, space_of_parse_none hp, hr, if_false, if_true] at h
          exact heof d h
        · simp only [tryNext, hp, space_of_parse_none hp, hr, if_false] at h
          exact ih _ h
      | some p => simp [tryNext, hp] at h

theorem new_unread (reads : List Bytes) : new.unread reads = reads.flatten := by
  simp [new, unread]

theorem wires_append (fs gs : List Frame) :
    Frame.wires (fs ++ gs) = Frame.wires fs ++ Frame.wires gs := by
  simp [Frame.wires]

theorem wires_eq_nil {fs : List Frame} (h : Frame.wires fs = []) : fs = [] := by
  cases fs with
  | nil => rfl
  | cons f fs =>
    have hl : (f.wire ++ Frame.wires fs).length = 0 := by
      rw [show f.wire ++ Frame.wires fs = Frame.wires (f :: fs) by simp [Frame.wires], h]; rfl
    rw [List.length_append, Frame.length_wire] at hl
    simp [headerLen] at hl

/-- Concatenated encodings decode to their list. -/
theorem decodeAll_wires {reads : List Bytes} (hne : ∀ r ∈ reads, r ≠ []) {gs : List Frame}
    (hgs : Frame.Encodable gs) (h : reads.flatten = Frame.wires gs) :
    new.decodeAll reads = (gs, .ok ()) := by
  obtain ⟨fs, t, hb, hfs, ht, hdec⟩ := decodeAll_spec new reads hne
  rw [new_unread] at hb
  have hpre : gs <+: fs := wires_cut hfs hgs ht ⟨[], by rw [← hb, h]; simp⟩
  obtain ⟨us, rfl⟩ := hpre
  have hnil : Frame.wires us = [] ∧ t = [] := by
    rw [hb, wires_append] at h
    simpa using h
  obtain rfl := wires_eq_nil hnil.1
  simpa [hnil.2] using hdec

theorem wires_take_le (gs : List Frame) (i : ℕ) : Frame.wires (gs.take i) <+: Frame.wires gs := by
  conv_rhs => rw [← List.take_append_drop i gs, wires_append]
  exact List.prefix_append _ _

/-- A cut stream yields the frames wholly before the cut. -/
theorem decodeAll_cut {reads : List Bytes} (hne : ∀ r ∈ reads, r ≠ []) {gs : List Frame}
    (hgs : Frame.Encodable gs) {cut : ℕ} (hcut : reads.flatten = (Frame.wires gs).take cut) :
    ∃ j, (new.decodeAll reads).1 = gs.take j ∧ (Frame.wires (gs.take j)).length ≤ cut ∧
      ∀ i, j < i → i ≤ gs.length → cut < (Frame.wires (gs.take i)).length := by
  obtain ⟨fs, t, hb, hfs, ht, hdec⟩ := decodeAll_spec new reads hne
  rw [new_unread] at hb
  have hwpre : Frame.wires fs <+: Frame.wires gs :=
    (List.prefix_append _ t).trans (hb ▸ hcut ▸ List.take_prefix cut _)
  have hnone : parse ([] : Bytes) = .ok none := rfl
  have hpre : fs <+: gs := wires_cut hgs hfs hnone (by simpa using hwpre)
  obtain ⟨us, rfl⟩ := hpre
  refine ⟨fs.length, by simp [hdec], ?_, ?_⟩
  · have hl := congrArg List.length hb
    rw [hcut, List.length_take, List.length_append] at hl
    rw [List.take_left]
    omega
  · intro i hi hile
    have hok : Frame.Encodable ((fs ++ us).take i) := fun f hf => hgs f (List.mem_of_mem_take hf)
    -- otherwise one more whole frame lies before the cut and the decoder would have returned it
    by_contra hlt
    have hw : Frame.wires ((fs ++ us).take i) <+: Frame.wires fs ++ t := by
      rw [← hb, hcut]
      exact List.prefix_take_iff.mpr ⟨wires_take_le _ i, by omega⟩
    have hle := (wires_cut hfs hok ht hw).length_le
    rw [List.length_take] at hle
    omega

/-- **Exact stream decoding.**  However the reader splits the stream, the frames returned are the
longest list whose encodings are a prefix of it, and the stream ends cleanly iff nothing is left.
So concatenated encodings decode to exactly their list, a cut stream yields the frames wholly before
the cut, and the only error a call can return is the mid-frame EOF. -/
theorem decodeAll_exact (reads : List Bytes) (hne : ∀ r ∈ reads, r ≠ []) :
    (∃ fs e, Frame.encodeAll fs = .ok e ∧ e <+: reads.flatten ∧
      (∀ fs' e', Frame.encodeAll fs' = .ok e' → e' <+: reads.flatten → fs' <+: fs) ∧
      new.decodeAll reads = (fs, if e = reads.flatten then .ok ()
        else .error (.eofMidFrame (reads.flatten.length - e.length)))) ∧
    (∀ fs, (∀ f ∈ fs, f.payload.length ≤ 65535) → ∃ e, Frame.encodeAll fs = .ok e ∧
      (reads.flatten = e → new.decodeAll reads = (fs, .ok ()))) ∧
    (∀ fs e cut, Frame.encodeAll fs = .ok e → reads.flatten = e.take cut →
      ∃ j e', (new.decodeAll reads).1 = fs.take j ∧ Frame.encodeAll (fs.take j) = .ok e' ∧
        e'.length ≤ cut ∧ ∀ i, j < i → i ≤ fs.length →
          ∃ e'', Frame.encodeAll (fs.take i) = .ok e'' ∧ cut < e''.length) ∧
    (∀ d rs e, (FrameDecoder.tryNext d rs).result = .error e →
      (∀ n, e ≠ .payloadTooLarge n) ∧ e ≠ .bufferOverflow) := by
  obtain ⟨fs, t, hb, hfs, ht, hdec⟩ := decodeAll_spec new reads hne
  rw [new_unread] at hb
  refine ⟨⟨fs, Frame.wires fs, Frame.encodeAll_ok.mpr ⟨hfs, rfl⟩, ⟨t, hb.symm⟩, ?_, ?_⟩, ?_, ?_, ?_⟩
  · intro fs' e' he' hpre
    obtain ⟨hfs', rfl⟩ := Frame.encodeAll_ok.mp he'
    rw [hb] at hpre
    exact wires_cut hfs hfs' ht hpre
  · have hlen : reads.flatten.length - (Frame.wires fs).length = t.length := by rw [hb]; simp
    have htnil : Frame.wires fs = reads.flatten ↔ t = [] := by rw [hb]; simp
    rw [hdec, hlen]
    simp only [htnil]
  · intro gs hgs
    exact ⟨_, Frame.encodeAll_ok.mpr ⟨hgs, rfl⟩, fun hgb => decodeAll_wires hne hgs hgb⟩
  · intro gs e cut he hcut
    obtain ⟨hgs, rfl⟩ := Frame.encodeAll_ok.mp he
    obtain ⟨j, hj, hle, hmax⟩ := decodeAll_cut hne hgs hcut
    have hok : ∀ i, Frame.encodeAll (gs.take i) = .ok (Frame.wires (gs.take i)) := fun i =>
      Frame.encodeAll_ok.mpr ⟨fun f hf => hgs f (List.mem_of_mem_take hf), rfl⟩
    exact ⟨j, _, hj, hok j, hle, fun i hi hile => ⟨_, hok i, hmax i hi hile⟩⟩
  · intro d rs e he
    obtain ⟨n, rfl⟩ := tryNext_error_eof d rs he
    exact ⟨by simp, by simp⟩

/-- Two frames in three reads that cut both headers. -/
theorem decodeAll_exact_two_frames :
    new.decodeAll [[0, 0, 0, 7, 0, 0, 0], [0, 0, 0, 0, 1, 2, 0, 1, 65, 0, 0], [0, 7, 0, 0, 0, 0, 0, 0,
      0, 2, 4, 0, 0]] = ([Frame.data 7 1 [65], Frame.fin 7 2], .ok ()) := by
  obtain ⟨-, h, -, -⟩ := decodeAll_exact [[0, 0, 0, 7, 0, 0, 0], [0, 0, 0, 0, 1, 2, 0, 1, 65, 0, 0],
    [0, 7, 0, 0, 0, 0, 0, 0, 0, 2, 4, 0, 0]] (by decide)
  obtain ⟨e, he, hdec⟩ := h [Frame.data 7 1 [65], Frame.fin 7 2] (by decide)
  refine hdec ?_
  have hw : Frame.encodeAll [Frame.data 7 1 [65], Frame.fin 7 2] = .ok [0, 0, 0, 7, 0, 0, 0, 0, 0, 0,
      0, 1, 2, 0, 1, 65, 0, 0, 0, 7, 0, 0, 0, 0, 0, 0, 0, 2, 4, 0, 0] := by decide
  rw [hw] at he
  exact (Except.ok.inj he)

end FrameDecoder

end RoundRobin
