import FastJsonSchema.Formats.UriSplit

/-!
# The scanners of URI references

Every scanner below `parse_authority` recognises its rule. The loops over characters of a class,
encoded characters and UTF-8 sequences are one scanner with the class as a parameter (`pctUnit`),
whose repetition spans `unit p`. A path is a run of such loops: what a loop takes is the segment
that the grammar takes, since it stops in front of what it cannot take (`append_inj_of_stuck`).
-/

namespace FastJsonSchema.Formats

open Ruby Scan Words Rfc3986

open Text.Utf8 (nonAscii isAscii)

open scoped Computability

variable {p q : UInt8 → Bool} {u : Bool} {a b s t w x y z : Bytes} {c : UInt8} {i n : ℕ}

/-! ## Characters -/

theorem consumePctEncoded_consumes : Consumes consumePctEncoded pctEncoded fun _ => True where
  ends w _ := by
    rw [consumePctEncoded]
    refine .ite (fun _ => .ok (.inl rfl)) fun hlen => ?_
    match w, hlen with
    | a :: b :: c :: t, _ =>
      simp only [byte_zero_cons, byte_succ_cons, ok_bind]
      refine .ite (fun _ => .ok (.inl rfl)) fun ha => ?_
      refine .ite (fun _ => .ok (.inl rfl)) fun hb => ?_
      refine .ite (fun _ => .ok (.inl rfl)) fun hc => ?_
      refine .ok (.inr ⟨[a, b, c], t, rfl, ?_, rfl⟩)
      rw [pctEncoded, hexdig, cons_mem_char_mul, cons_mem_letter_mul, singleton_mem_letter]
      simp only [Bool.not_eq_true', Bool.not_eq_false] at hb hc
      exact ⟨not_not.1 ha, hb, hc⟩
    | [], hlen => simp at hlen
    | [_], hlen => simp at hlen
    | [_, _], hlen => simp at hlen
  complete x hx y _ := by
    obtain ⟨a, t, rfl, ha, ht⟩ := mem_letter_mul.1 hx
    obtain ⟨b, t, rfl, hb, c, rfl, hc⟩ := mem_letter_mul.1 ht
    obtain rfl : a = chr '%' := by simpa using ha
    simp [consumePctEncoded, hb, hc]

theorem consumeUtf8_consumes : Consumes (consumeUtf8 u) (utf8NonAscii u) fun _ => True where
  ends w hne := by
    obtain ⟨c, t, rfl⟩ := List.exists_cons_of_ne_nil hne
    rw [consumeUtf8]
    refine .ite (fun _ => .ok (.inl rfl)) fun hu => ?_
    obtain rfl : u = true := by simpa using hu
    rw [byte_zero_cons, ok_bind]
    refine .ite (fun _ => .ok (.inl rfl)) fun _ => ?_
    refine (utf8SeqLen_consumes.ends _ hne).bind ?_
    rintro n (rfl | ⟨x, y, hw, hx, rfl⟩)
    · exact .ok (.inl rfl)
    · by_cases hlen : x.length ≥ 2
      · rw [if_pos hlen]
        exact .ok (.inr ⟨x, y, hw, mem_nonAscii_of_scalar hx hlen, rfl⟩)
      · rw [if_neg hlen]
        exact .ok (.inl rfl)
  complete x hx y _ := by
    cases u with
    | false => exact absurd hx (Language.notMem_zero x)
    | true =>
      obtain ⟨c, t, rfl, hc, hlen⟩ := head_nonAscii hx
      have hseq := utf8SeqLen_consumes.complete _ (Text.Utf8.nonAscii_le_scalar hx) y trivial
      rw [List.cons_append] at hseq ⊢
      simp only [consumeUtf8, Bool.not_true, Bool.false_eq_true, if_false, byte_zero_cons, ok_bind,
        if_neg hc, hseq, if_pos hlen]

/-- A character of a class, an encoded one, or a UTF-8 sequence. -/
def pctUnit (p : UInt8 → Bool) (allowUtf8 : Bool) (s : Bytes) : Result ℕ := do
  let c ← byte s 0
  if c < 0x80 then
    if p c then .ok 1 else
    if c = chr '%' then consumePctEncoded s else
    .ok 0
  else consumeUtf8 allowUtf8 s

theorem pctUnit_consumes (hp : ∀ c, p c = true → c < 0x80) (hpct : p (chr '%') = false) :
    Consumes (pctUnit p u) (unit p u) fun _ => True where
  ends w hne := by
    obtain ⟨c, t, rfl⟩ := List.exists_cons_of_ne_nil hne
    rw [pctUnit, byte_zero_cons, ok_bind]
    refine .ite (fun _ => .ite (fun hc => ?_) fun _ => .ite (fun _ => ?_) fun _ => ?_) fun _ => ?_
    · exact .ok (.inr ⟨[c], t, rfl, .inl (.inl (singleton_mem_letter.2 hc)), rfl⟩)
    · refine (consumePctEncoded_consumes.ends _ hne).mono ?_
      rintro n (rfl | ⟨x, y, hw, hx, rfl⟩)
      · exact .inl rfl
      · exact .inr ⟨x, y, hw, .inl (.inr hx), rfl⟩
    · exact .ok (.inl rfl)
    · refine (consumeUtf8_consumes.ends _ hne).mono ?_
      rintro n (rfl | ⟨x, y, hw, hx, rfl⟩)
      · exact .inl rfl
      · exact .inr ⟨x, y, hw, .inr hx, rfl⟩
  complete x hx y _ := by
    rcases hx with (⟨c, rfl, hc⟩ | hx) | hx
    · simp [pctUnit, hp c hc, hc]
    · have hall := consumePctEncoded_consumes.complete x hx y trivial
      obtain ⟨c, t, rfl, hc, -⟩ := mem_letter_mul.1 hx
      obtain rfl : c = chr '%' := by simpa using hc
      have hlow : chr '%' < 0x80 := by decide
      rw [List.cons_append] at hall ⊢
      simpa [pctUnit, hpct, hlow] using hall
    · have hall := consumeUtf8_consumes.complete x hx y trivial
      cases u with
      | false => exact absurd hx (Language.notMem_zero x)
      | true =>
        obtain ⟨c, t, rfl, hc, -⟩ := head_nonAscii hx
        rw [List.cons_append] at hall ⊢
        rw [pctUnit, byte_zero_cons, ok_bind, if_neg hc, hall]

theorem consumePchar_eq : consumePchar u = pctUnit isPchar u := by
  funext s
  rw [consumePchar, pctUnit]
  cases byte s 0 with
  | error e => rfl
  | ok c =>
    simp only [ok_bind, isPchar, Bool.or_eq_true, beq_iff_eq]
    split_ifs <;> simp_all

theorem consumePcharNc_eq : consumePcharNc u = pctUnit isPcharNc u := by
  have hcolon : isPcharNc (chr ':') = false := by decide
  funext s
  rw [consumePcharNc, consumePchar_eq, pctUnit, pctUnit]
  cases byte s 0 with
  | error e => rfl
  | ok c =>
    simp only [ok_bind]
    by_cases hc : c = chr ':'
    · subst hc
      rw [if_pos rfl, if_pos (by decide), hcolon, if_neg Bool.false_ne_true, if_neg (by decide)]
    · have hclass : isPchar c = isPcharNc c := by
        rw [isPchar, isPcharNc, beq_eq_false_iff_ne.2 hc, Bool.or_false]
      rw [if_neg hc, hclass]

theorem consumeQueryChar_eq : consumeQueryChar u = pctUnit isQuery u := by
  funext s
  rw [consumeQueryChar, consumePchar_eq, pctUnit, pctUnit]
  cases byte s 0 with
  | error e => rfl
  | ok c =>
    simp only [ok_bind]
    by_cases hc : c = chr '/' ∨ c = chr '?'
    · rw [if_pos hc]
      rcases hc with rfl | rfl <;> rfl
    · have hclass : isQuery c = isPchar c := by
        rw [not_or] at hc
        rw [isQuery, beq_eq_false_iff_ne.2 hc.1, beq_eq_false_iff_ne.2 hc.2, Bool.or_false,
          Bool.or_false]
      rw [if_neg hc, hclass]

theorem window_drop (h : i ≤ s.length) : window s i s.length = .ok (s.drop i) := by
  rw [window_eq h le_rfl, List.take_length]

/-- The loops that test the class themselves. -/
theorem pctRun_eq : pctRun p u = many (pctUnit p u) := by
  funext s
  rw [pctRun, many]
  congr 1
  funext i
  by_cases hi : i < s.length
  · have hbyte : byte (s.drop i) 0 = byte s i := by simp [byte]
    have hpos : 1 ≤ s.length - i := by omega
    rw [if_pos hi, if_pos hi, byte_eq hi, ok_bind]
    rw [byte_eq hi] at hbyte
    simp only [consume, window_drop hi.le, ok_bind, pctUnit, hbyte, apply_ite Except.ok]
    split_ifs <;> simp [hpos]
  · rw [if_neg hi, if_neg hi]

theorem isUnreserved_lt (c : UInt8) : isUnreserved c = true → c < 0x80 :=
  lt_of_or (lt_of_or (isAlpha_lt c) (isDigit_lt c)) (lt_of_contains (by decide))

theorem isSubDelim_lt (c : UInt8) : isSubDelim c = true → c < 0x80 := lt_of_contains (by decide)

theorem isRegName_lt (c : UInt8) : isRegName c = true → c < 0x80 :=
  lt_of_or (isUnreserved_lt c) (isSubDelim_lt c)

theorem isPchar_lt : ∀ c, isPchar c = true → c < 0x80 :=
  lt_of_or_chr (lt_of_or_chr isRegName_lt (by decide)) (by decide)

theorem isPcharNc_lt : ∀ c, isPcharNc c = true → c < 0x80 := lt_of_or_chr isRegName_lt (by decide)

theorem regName_consumes : Consumes (pctUnit isRegName u) (unit isRegName u) fun _ => True :=
  pctUnit_consumes isRegName_lt (by decide)

theorem userinfo_consumes : Consumes (pctUnit isUserinfo u) (unit isUserinfo u) fun _ => True :=
  pctUnit_consumes (lt_of_or_chr isRegName_lt (by decide)) (by decide)

theorem pchar_consumes : Consumes (pctUnit isPchar u) (unit isPchar u) fun _ => True :=
  pctUnit_consumes isPchar_lt (by decide)

theorem query_consumes : Consumes (pctUnit isQuery u) (unit isQuery u) fun _ => True :=
  pctUnit_consumes (lt_of_or_chr (lt_of_or_chr isPchar_lt (by decide)) (by decide)) (by decide)

theorem parseRegName_spans : Spans (parseRegName u) (regName u) := by
  have h : parseRegName u = many (pctUnit isRegName u) := pctRun_eq
  rw [h, regName_eq]
  exact regName_consumes.many_spans unit_ne_nil (fun _ _ _ => trivial) trivial

theorem parseUserinfo_spans : Spans (parseUserinfo u) (userinfo u) := by
  have h : parseUserinfo u = many (pctUnit isUserinfo u) := pctRun_eq
  rw [h, userinfo_eq]
  exact userinfo_consumes.many_spans unit_ne_nil (fun _ _ _ => trivial) trivial

theorem parseQueryOrFragment_spans : Spans (parseQueryOrFragment u) (query u) := by
  rw [parseQueryOrFragment, consumeQueryChar_eq, query_eq]
  exact query_consumes.many_spans unit_ne_nil (fun _ _ _ => trivial) trivial

/-! ## Paths -/

theorem stuck_of_starts {k : Char} (hk : p (chr k) = false)
    (hlow : chr k < 0x80) (hpct : chr k ≠ chr '%') (ht : Starts (· == chr k) t) :
    Stuck (pctUnit p u) t := by
  cases t with
  | nil => exact .inl rfl
  | cons c t =>
    obtain rfl : c = chr k := by simpa using ht
    refine .inr ?_
    rw [pctUnit, byte_zero_cons, ok_bind, if_pos hlow, hk, if_neg Bool.false_ne_true, if_neg hpct]

/-- What a loop over a segment takes is the segment in front of a slash. -/
theorem append_inj_of_stuck (hp : ∀ c, p c = true → c < 0x80) (hpct : p (chr '%') = false)
    (hslash : p (chr '/') = false) (hx : x ∈ (unit p u)∗) (hy : Stuck (pctUnit p u) y)
    (hw : w ∈ (unit p u)∗) (hz : z ∈ pathAbempty u) (h : x ++ y = w ++ z) : x = w ∧ y = z := by
  have hz : Stuck (pctUnit p u) z :=
    stuck_of_starts hslash (by decide) (by decide) (starts_kstar_letter_mul z hz)
  exact (pctUnit_consumes hp hpct).append_inj unit_ne_nil (fun _ => trivial) hx hy hw hz h

theorem append_mem_path_iff (hp : ∀ c, p c = true → c < 0x80) (hpct : p (chr '%') = false)
    (hslash : p (chr '/') = false) (hx : x ∈ (unit p u)∗) (hy : Stuck (pctUnit p u) y) :
    x ++ y ∈ (unit p u)∗ * pathAbempty u ↔ y ∈ pathAbempty u := by
  constructor
  · rintro ⟨w, hw, z, hz, h⟩
    obtain ⟨rfl, rfl⟩ := append_inj_of_stuck hp hpct hslash hx hy hw hz h.symm
    exact hz
  · exact fun hy => ⟨x, hx, y, hy, rfl⟩

theorem append_mem_path1_iff (hp : ∀ c, p c = true → c < 0x80) (hpct : p (chr '%') = false)
    (hslash : p (chr '/') = false) (hx : x ∈ (unit p u)∗) (hy : Stuck (pctUnit p u) y) :
    x ++ y ∈ many1 (unit p u) * pathAbempty u ↔ x ≠ [] ∧ y ∈ pathAbempty u := by
  constructor
  · rintro ⟨w, hw, z, hz, h⟩
    obtain ⟨hw, hne⟩ := (mem_many1_iff unit_ne_nil).1 hw
    obtain ⟨rfl, rfl⟩ := append_inj_of_stuck hp hpct hslash hx hy hw hz h.symm
    exact ⟨hne, hz⟩
  · rintro ⟨hne, hy⟩
    exact ⟨x, (mem_many1_iff unit_ne_nil).2 ⟨hx, hne⟩, y, hy, rfl⟩

theorem parseSegment_ends (s : Bytes) : ∃ x y, s = x ++ y ∧ x ∈ (unit isPchar u)∗ ∧
    Stuck (pctUnit isPchar u) y ∧ parseSegment u s = .ok x.length := by
  rw [parseSegment, consumePchar_eq]
  exact pchar_consumes.many_ends s

/-- A slash and a segment leave what the rest of the path has to be. -/
theorem slash_mem_pathAbempty_iff (hx : x ∈ (unit isPchar u)∗) (hy : Stuck (pctUnit isPchar u) y) :
    chr '/' :: (x ++ y) ∈ pathAbempty u ↔ y ∈ pathAbempty u := by
  have hstep : pathAbempty u = 1 + char '/' * (segment u * pathAbempty u) := by
    rw [pathAbempty, ← mul_assoc, Language.one_add_self_mul_kstar_eq_kstar]
  conv_lhs => rw [hstep, Language.mem_add, or_iff_right (by simp), cons_mem_char_mul,
    Rfc3986.segment, pchar_eq]
  rw [append_mem_path_iff isPchar_lt (by decide) (by decide) hx hy]
  simp only [true_and]

theorem slashSegments_ends (a b : Bytes) : Ends (slashSegments u (a ++ b) a.length) fun n =>
    n ≤ (a ++ b).length ∧ (n = (a ++ b).length ↔ b ∈ pathAbempty u) := by
  -- the part of the path that is taken, with a slash or nothing after it
  let I : ℕ → Prop := fun i => ∃ x y, a ++ b = x ++ y ∧ (b ∈ pathAbempty u ↔ y ∈ pathAbempty u) ∧
    i = x.length
  refine Ends.loop (I := I) (fun i => (a ++ b).length - i) ?_ ⟨a, b, rfl, Iff.rfl, rfl⟩ (by omega)
  rintro i ⟨x, y, hab, hiff, rfl⟩
  rw [hab, peek_suffix rfl rfl, ok_bind]
  refine .ite (fun hslash => ?_) fun hslash => ?_
  · obtain ⟨t, rfl⟩ := exists_cons_of_head hslash
    obtain ⟨v, r, rfl, hv, hr, htake⟩ := parseSegment_ends (u := u) t
    rw [consume_eq (window_behind rfl rfl) htake (by simp), ok_bind]
    refine .ok ⟨⟨x ++ chr '/' :: v, r, by simp [hab], ?_, by simp; omega⟩, ?_⟩
    · rw [hiff, slash_mem_pathAbempty_iff hv hr]
    · simp only [List.length_append, List.length_cons] at *
      omega
  · refine .ok ⟨by simp, ?_⟩
    rw [hiff]
    cases y with
    | nil => simp [pathAbempty, Language.nil_mem_kstar]
    | cons c t =>
      refine iff_of_false (by simp) fun hc => hslash ?_
      simpa using starts_kstar_letter_mul _ hc

theorem parsePathAbempty_spans : Spans (parsePathAbempty u) (pathAbempty u) :=
  fun w => slashSegments_ends [] w

/-- A path after its first segment. -/
theorem path1_ends (hp : ∀ c, p c = true → c < 0x80) (hpct : p (chr '%') = false)
    (hslash : p (chr '/') = false) (a : Bytes) (hx : x ∈ (unit p u)∗)
    (hy : Stuck (pctUnit p u) y) (hne : x ≠ []) :
    Ends (slashSegments u (a ++ (x ++ y)) (a.length + x.length)) fun n =>
      n ≤ (a ++ (x ++ y)).length ∧
        (n = (a ++ (x ++ y)).length ↔ x ++ y ∈ many1 (unit p u) * pathAbempty u) := by
  have h := slashSegments_ends (u := u) (a ++ x) y
  rw [List.append_assoc, List.length_append] at h
  rw [append_mem_path1_iff hp hpct hslash hx hy]
  simpa only [ne_eq, hne, not_false_eq_true, true_and] using h

theorem parsePathAbsolute_ends (t : Bytes) : Ends (parsePathAbsolute u (chr '/' :: t)) fun n =>
    n ≤ (chr '/' :: t).length ∧ (n = (chr '/' :: t).length ↔ chr '/' :: t ∈ pathAbsolute u) := by
  obtain ⟨x, y, rfl, hx, hy, htake⟩ := parseSegment_ends (u := u) t
  have hnz : parseSegmentNz u (x ++ y) = .ok x.length := by
    rw [parseSegmentNz, htake, ok_bind]
    split_ifs with h
    · rfl
    · rw [Nat.eq_zero_of_not_pos h]
  have hpeek : peek (· == chr '/') (chr '/' :: (x ++ y)) 0 (chr '/' :: (x ++ y)).length
      = .ok true := by
    simp [peek]
  have hwindow : window (chr '/' :: (x ++ y)) 1 (chr '/' :: (x ++ y)).length = .ok (x ++ y) :=
    window_suffix (x := [chr '/']) rfl rfl
  rw [parsePathAbsolute, hpeek, ok_bind, if_neg (by simp), consume_eq hwindow hnz (by simp),
    ok_bind, pathAbsolute, cons_mem_char_mul, mem_optional, segmentNz, pchar_eq]
  simp only [true_and]
  refine .ite (fun hzero => ?_) fun hne => ?_
  · obtain rfl : x = [] := List.length_eq_zero_iff.1 hzero
    refine .ok ⟨by simp, ?_⟩
    rw [append_mem_path1_iff isPchar_lt (by decide) (by decide) hx hy]
    simp
  · have hne : x ≠ [] := by simpa using hne
    refine (path1_ends isPchar_lt (by decide) (by decide) [chr '/'] hx hy hne).mono ?_
    rintro n ⟨hle, hiff⟩
    refine ⟨hle, ?_⟩
    rw [or_iff_right (by simp [hne])]
    exact hiff

/-- A path that has to start with a segment: what is not empty has to be consumed. -/
theorem pathFirst_ends (hp : ∀ c, p c = true → c < 0x80) (hpct : p (chr '%') = false)
    (hslash : p (chr '/') = false) (hs : s ≠ []) :
    Ends (do
      let nz ← (do
        let pos ← many (pctUnit p u) s
        .ok (if pos > 0 then pos else 0) : Result ℕ)
      if nz = 0 then .ok 0 else slashSegments u s nz) fun n =>
      n ≤ s.length ∧ (n = s.length ↔ s ∈ many1 (unit p u) * pathAbempty u) := by
  obtain ⟨x, y, rfl, hx, hy, htake⟩ := (pctUnit_consumes (u := u) hp hpct).many_ends s
  have hnz : (if x.length > 0 then x.length else 0) = x.length := by
    split_ifs with h
    · rfl
    · rw [Nat.eq_zero_of_not_pos h]
  rw [htake, ok_bind, hnz, ok_bind]
  refine .ite (fun hzero => ?_) fun hne => ?_
  · obtain rfl : x = [] := List.length_eq_zero_iff.1 hzero
    refine .ok ⟨Nat.zero_le _, ?_⟩
    rw [append_mem_path1_iff hp hpct hslash hx hy]
    refine iff_of_false ?_ (by simp)
    simpa [eq_comm] using hs
  · have hne : x ≠ [] := by simpa using hne
    simpa using path1_ends hp hpct hslash [] hx hy hne

theorem parsePathRootless_ends (hs : s ≠ []) : Ends (parsePathRootless u s) fun n =>
    n ≤ s.length ∧ (n = s.length ↔ s ∈ pathRootless u) := by
  rw [pathRootless, segmentNz, pchar_eq]
  simpa only [parsePathRootless, parseSegmentNz, parseSegment, consumePchar_eq] using
    pathFirst_ends isPchar_lt (by decide) (by decide) hs

theorem parsePathNoscheme_ends (hs : s ≠ []) : Ends (parsePathNoscheme u s) fun n =>
    n ≤ s.length ∧ (n = s.length ↔ s ∈ pathNoscheme u) := by
  rw [pathNoscheme, segmentNzNc_eq]
  simpa only [parsePathNoscheme, parseSegmentNzNc, consumePcharNc_eq] using
    pathFirst_ends isPcharNc_lt (by decide) (by decide) hs

end FastJsonSchema.Formats
