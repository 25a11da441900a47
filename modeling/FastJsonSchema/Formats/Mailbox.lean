import FastJsonSchema.Formats.AddrSpec

/-!
# The local part of a mail address

`parse_dot_atom` and `parse_quoted_string` go on as long as they can. That finds the local part of
an address in front of its at sign, since neither goes on over one that ends a local part
(`parseLocalPart_consumes`).
-/

namespace FastJsonSchema.Formats

open Ruby Scan Words

open scoped Computability

variable {p q : UInt8 → Bool} {k : Char} {u tr : Bool} {a b r s t v w x y z : Bytes} {c : UInt8}
  {i j n : ℕ}

/-! ## Characters -/

theorem atext_eq : atext u = charOf isAtext u := by
  have h : letter isAtext =
      letter isAlpha + letter isDigit + oneOf "!#$%&'*+-/=?^_\x60\x7b|\x7d~" := by
    rw [oneOf, ← letter_or, ← letter_or]
    rfl
  rw [atext, charOf, h, alpha_eq, digit]

theorem dcontent_eq : dcontent u = charOf isDcontent u := by
  have h : letter isDcontent = range '!' 'Z' + range '^' '~' := letter_or
  rw [dcontent, charOf, h]

theorem qtext_eq : qtext = letter isQtext := by
  rw [qtext, char, range, range, ← letter_or, ← letter_or]
  rfl

theorem wsp_eq : wsp = letter isWsp := letter_or.symm

theorem vchar_eq : vchar = letter isVchar := rfl

theorem isAtext_lt (c : UInt8) : isAtext c = true → c < 0x80 :=
  lt_of_or (lt_of_or (isAlpha_lt c) (isDigit_lt c)) (lt_of_contains (by decide))

theorem isDcontent_lt (c : UInt8) : isDcontent c = true → c < 0x80 := by
  refine lt_of_or (fun hc => ?_) fun hc => ?_ <;>
    rw [Bool.and_eq_true, decide_eq_true_eq, decide_eq_true_eq] at hc
  · exact UInt8.lt_of_le_of_lt hc.2 (by decide)
  · exact UInt8.lt_of_le_of_lt hc.2 (by decide)

theorem atext_consumes : Consumes (consumeAtext u) (atext u) fun _ => True := by
  rw [atext_eq]
  exact classChar_consumes isAtext_lt

theorem dcontent_consumes : Consumes (classChar isDcontent u) (dcontent u) fun _ => True := by
  rw [dcontent_eq]
  exact classChar_consumes isDcontent_lt

theorem atext_ne_nil : ∀ w ∈ atext u, w ≠ [] := by
  rw [atext_eq]
  exact charOf_ne_nil

theorem dcontent_ne_nil : ∀ w ∈ dcontent u, w ≠ [] := by
  rw [dcontent_eq]
  exact charOf_ne_nil

theorem consumeQuoted_consumes : Consumes (consumeQuoted u) (qcontent u) fun _ => True where
  ends w hne := by
    obtain ⟨c, t, rfl⟩ := List.exists_cons_of_ne_nil hne
    rw [qcontent, qtext_eq, wsp_eq, vchar_eq, consumeQuoted, byte_zero_cons, ok_bind]
    refine .ite (fun hc => ?_) fun _ => .ite (fun hc => ?_) fun _ => .ite (fun hc => ?_) fun _ => ?_
    · refine .ite (fun _ => .ok (.inl rfl)) fun hlen => ?_
      obtain ⟨d, t, rfl⟩ := List.exists_cons_of_ne_nil (l := t) (by simpa using hlen)
      rw [byte_succ_cons, byte_zero_cons, ok_bind]
      by_cases hd : (!isVchar d && !isWsp d) = true
      · rw [if_pos hd]
        exact .ok (.inl rfl)
      · rw [if_neg hd]
        refine .ok (.inr ⟨[c, d], t, rfl, .inl (.inr (cons_mem_char_mul.2 ⟨hc, ?_⟩)), rfl⟩)
        rw [Language.mem_add, singleton_mem_letter, singleton_mem_letter]
        cases hv : isVchar d with
        | true => exact .inl rfl
        | false => exact .inr (by simpa [hv] using hd)
    · have hmem : [c] ∈ letter isQtext + letter isWsp := by
        rw [Language.mem_add, singleton_mem_letter, singleton_mem_letter]
        exact Bool.or_eq_true_iff.1 hc
      exact .ok (.inr ⟨[c], t, rfl, .inl (.inl hmem), rfl⟩)
    · obtain ⟨rfl, hhigh⟩ : u = true ∧ 0x80 ≤ c := by simpa using hc
      refine (utf8SeqLen_high_ends (UInt8.not_lt.2 hhigh)).mono ?_
      rintro n (rfl | ⟨x, y, hw, hx, rfl⟩)
      · exact .inl rfl
      · exact .inr ⟨x, y, hw, .inr hx, rfl⟩
    · exact .ok (.inl rfl)
  complete x hx y _ := by
    rw [qcontent, qtext_eq, wsp_eq, vchar_eq] at hx
    have hclass : ∀ c, (isQtext c || isWsp c) = true → c ≠ chr backslash :=
      forall_byte (by decide +kernel)
    have hone : ∀ c, (isQtext c || isWsp c) = true → consumeQuoted u ([c] ++ y) = .ok 1 := by
      intro c hc
      rw [List.singleton_append, consumeQuoted, byte_zero_cons, ok_bind, if_neg (hclass c hc),
        if_pos hc]
    rcases hx with ((⟨c, rfl, hc⟩ | ⟨c, rfl, hc⟩) | hx) | hx
    · exact hone c (by rw [hc, Bool.true_or])
    · exact hone c (by rw [hc, Bool.or_true])
    · obtain ⟨c, t, rfl, hc, hd⟩ := mem_letter_mul.1 hx
      obtain rfl : c = chr backslash := by simpa using hc
      obtain ⟨d, rfl, hnext⟩ : ∃ d, t = [d] ∧ (!isVchar d && !isWsp d) = false := by
        rcases hd with ⟨d, rfl, hd⟩ | ⟨d, rfl, hd⟩ <;> exact ⟨d, rfl, by simp [hd]⟩
      rw [List.cons_append, List.singleton_append, consumeQuoted, byte_zero_cons, ok_bind,
        if_pos rfl, if_neg (by simp), byte_succ_cons, byte_zero_cons, ok_bind, hnext]
      rfl
    · cases u with
      | false => exact absurd hx (Language.notMem_zero x)
      | true =>
        have hseq := utf8SeqLen_consumes.complete x (Text.Utf8.nonAscii_le_scalar hx) y trivial
        obtain ⟨c, t, rfl, hc, -⟩ := head_nonAscii hx
        have hhigh : ∀ c : UInt8, ¬ c < 0x80 → (isQtext c || isWsp c) = false ∧ c ≠ chr backslash :=
          forall_byte (by decide +kernel)
        rw [List.cons_append] at hseq ⊢
        rw [consumeQuoted, byte_zero_cons, ok_bind, if_neg (hhigh c hc).2, (hhigh c hc).1,
          if_neg Bool.false_ne_true, if_pos (by simpa using UInt8.not_lt.1 hc), hseq]

/-! ## Quoted strings -/

theorem stuck_dquote : Stuck (consumeQuoted u) (chr dquote :: t) := by
  refine .inr ?_
  have hclass : (isQtext (chr dquote) || isWsp (chr dquote)) = false := by decide
  have hlow : ¬ (0x80 : UInt8) ≤ chr dquote := by decide
  rw [consumeQuoted, byte_zero_cons, ok_bind, if_neg (by decide), hclass,
    if_neg Bool.false_ne_true, if_neg (by simp [hlow])]

theorem qcontent_ne_nil : ∀ w ∈ qcontent u, w ≠ [] := by
  intro w hw
  rw [qcontent, qtext_eq, wsp_eq] at hw
  rcases hw with ((⟨c, rfl, -⟩ | ⟨c, rfl, -⟩) | hw) | hw
  · simp
  · simp
  · obtain ⟨c, t, rfl, -⟩ := mem_letter_mul.1 hw
    simp
  · exact utf8NonAscii_ne_nil w hw

/-- The loop stops at a quote, at the end, or at what cannot stand between the quotes. -/
theorem quotedLoop_ends (t : Bytes) :
    Ends (manyUntil (· == chr dquote) (consumeQuoted u) (chr dquote :: t) 1) fun o =>
      ∃ x y, t = x ++ y ∧ x ∈ (qcontent u)∗ ∧ Stuck (consumeQuoted u) y ∧
        (o = some (1 + x.length) ∨ o = none ∧ y.head?.any (· == chr dquote) = false) := by
  refine (consumeQuoted_consumes.manyUntil_ends [chr dquote] t rfl).mono ?_
  rintro o ⟨x, y, rfl, hx, ⟨rfl, hy⟩ | ⟨rfl, hy, hhead⟩⟩
  · refine ⟨x, y, rfl, hx, ?_, .inl rfl⟩
    cases y with
    | nil => exact .inl rfl
    | cons c y =>
      obtain rfl : c = chr dquote := by simpa using hy
      exact stuck_dquote
  · refine ⟨x, y, rfl, hx, hy, .inr ⟨rfl, ?_⟩⟩
    cases y with
    | nil => rfl
    | cons c y => simpa using hhead

theorem parseQuotedString_consumes :
    Consumes (parseQuotedString u) (quotedString u) fun _ => True where
  ends w hne := by
    obtain ⟨c, t, rfl⟩ := List.exists_cons_of_ne_nil hne
    rw [parseQuotedString]
    refine .ite (fun _ => .ok (.inl rfl)) fun _ => ?_
    rw [byte_zero_cons, ok_bind]
    refine .ite (fun _ => .ok (.inl rfl)) fun hc => ?_
    obtain rfl : c = chr dquote := not_not.1 hc
    obtain ⟨o, ho, x, y, rfl, hx, -, rfl | ⟨rfl, -⟩⟩ := quotedLoop_ends (u := u) t
    · have hpeek : peek (· == chr dquote) (chr dquote :: (x ++ y)) (1 + x.length)
          (chr dquote :: (x ++ y)).length = .ok (y.head?.any (· == chr dquote)) :=
        peek_suffix (x := chr dquote :: x) (by rw [List.length_cons, Nat.add_comm]) rfl
      rw [ho, ok_bind]
      dsimp only
      rw [hpeek, ok_bind]
      by_cases hy : y.head?.any (· == chr dquote) = true
      · obtain ⟨y, rfl⟩ : ∃ r, y = chr dquote :: r := by
          cases y with
          | nil => simp at hy
          | cons c y => exact ⟨y, by simpa using hy⟩
        rw [if_pos hy]
        refine .ok (.inr ⟨chr dquote :: (x ++ [chr dquote]), y, by simp, ?_, ?_⟩)
        · exact cons_mem_char_mul.2 ⟨rfl, x, hx, _, singleton_mem_letter.2 (by simp), rfl⟩
        · simp
          omega
      · rw [if_neg hy]
        exact .ok (.inl rfl)
    · rw [ho]
      exact .ok (.inl rfl)
  complete w hw y _ := by
    obtain ⟨c, t, rfl, hc, v, hv, _, ⟨d, rfl, hd⟩, rfl⟩ := mem_letter_mul.1 hw
    obtain rfl : c = chr dquote := by simpa using hc
    obtain rfl : d = chr dquote := by simpa using hd
    obtain ⟨o, ho, x, r, hsplit, hx, hr, hor⟩ := quotedLoop_ends (u := u) (v ++ [chr dquote] ++ y)
    have hsplit : x ++ r = v ++ chr dquote :: y := by simpa using hsplit.symm
    obtain ⟨rfl, rfl⟩ := consumeQuoted_consumes.append_inj qcontent_ne_nil (fun _ => trivial) hx hr
      hv stuck_dquote hsplit
    obtain rfl : o = some (1 + x.length) := by simpa using hor
    have hpeek : peek (· == chr dquote) (chr dquote :: (x ++ [chr dquote] ++ y)) (1 + x.length)
        (chr dquote :: (x ++ [chr dquote] ++ y)).length = .ok true := by
      have := peek_suffix (p := (· == chr dquote)) (x := chr dquote :: x) (y := chr dquote :: y)
        (i := 1 + x.length) (by rw [List.length_cons, Nat.add_comm]) rfl
      simpa using this
    change parseQuotedString u (chr dquote :: (x ++ [chr dquote] ++ y)) = _
    have hlen : ¬(chr dquote :: (x ++ [chr dquote] ++ y)).length < 2 := by
      simp only [List.length_cons, List.length_append]
      omega
    rw [parseQuotedString, if_neg hlen, byte_zero_cons, ok_bind, if_neg (by simp), ho, ok_bind]
    dsimp only
    rw [hpeek, ok_bind, if_pos rfl]
    simp
    omega

/-! ## Dot-atoms -/

/-- The atoms after the first one. -/
def dotTail (u : Bool) : Language UInt8 := (char '.' * many1 (atext u))∗

/-- What may follow a dot-atom that `parse_dot_atom` finds. -/
structure Follows (u tr : Bool) (z : Bytes) : Prop where
  stuck : Stuck (consumeAtext u) z
  dot : z.head?.any (· == chr '.') = true → tr = true ∧ z = [chr '.']

theorem stuck_dot (ht : Starts (· == chr '.') t) : Stuck (consumeAtext u) t :=
  stuck_classChar (by decide) (by decide) ht

theorem Follows.stuck_append (h : Follows u tr z) (hv : v ∈ dotTail u) :
    Stuck (consumeAtext u) (v ++ z) := by
  cases v with
  | nil => exact h.stuck
  | cons c v =>
    refine stuck_dot ?_
    rw [List.cons_append, starts_cons]
    simpa using starts_kstar_letter_mul _ hv

theorem dot_mem_dotTail (hv : chr '.' :: v ∈ dotTail u) :
    ∃ b r, v = b ++ r ∧ b ∈ (atext u)∗ ∧ b ≠ [] ∧ r ∈ dotTail u := by
  rcases mem_kstar_iff.1 hv with h | ⟨_, hw, -, r, hr, h⟩
  · cases h
  · obtain ⟨c, b, rfl, -, hb⟩ := mem_letter_mul.1 hw
    obtain ⟨hb, hne⟩ := (mem_many1_iff atext_ne_nil).1 hb
    exact ⟨b, r, (List.cons.inj h).2, hb, hne, hr⟩

theorem append_mem_dotAtomText (hx : x ∈ dotAtomText u) (hb : b ∈ (atext u)∗) (hne : b ≠ []) :
    x ++ chr '.' :: b ∈ dotAtomText u := by
  obtain ⟨a, ha, v, hv, rfl⟩ := hx
  refine ⟨a, ha, v ++ chr '.' :: b, append_mem_kstar_right hv ?_, by simp⟩
  exact cons_mem_char_mul.2 ⟨rfl, (mem_many1_iff atext_ne_nil).2 ⟨hb, hne⟩⟩

theorem parseAtextRun_ends (s : Bytes) : ∃ x y, s = x ++ y ∧ x ∈ (atext u)∗ ∧
    Stuck (consumeAtext u) y ∧ parseAtextRun u s = .ok x.length :=
  atext_consumes.many_ends s

/-- The first atom of a dot-atom with what may follow it is the one that is taken. -/
theorem first_atom (hx : x ∈ (atext u)∗) (hy : Stuck (consumeAtext u) y)
    (h : x ++ y = w ++ z) (hw : w ∈ dotAtomText u) (hz : Follows u tr z) :
    x ≠ [] ∧ ∃ v ∈ dotTail u, y = v ++ z := by
  obtain ⟨b, hb, v, hv, rfl⟩ := hw
  obtain ⟨hb, hne⟩ := (mem_many1_iff atext_ne_nil).1 hb
  obtain ⟨rfl, rfl⟩ := atext_consumes.append_inj atext_ne_nil (fun _ => trivial) hx hy hb
    (hz.stuck_append hv) (h.trans (List.append_assoc b v z))
  exact ⟨hne, v, hv, rfl⟩

/-- The atom after a dot is the one that is taken, unless the dot is a trailing one. -/
theorem next_atom (ha : a ∈ (atext u)∗) (hr : Stuck (consumeAtext u) r) (hz : Follows u tr z)
    (h : ∃ v ∈ dotTail u, chr '.' :: (a ++ r) = v ++ z) :
    (tr = true ∧ z = [chr '.'] ∧ a = [] ∧ r = []) ∨ a ≠ [] ∧ ∃ v ∈ dotTail u, r = v ++ z := by
  obtain ⟨v, hv, heq⟩ := h
  cases v with
  | nil =>
    obtain rfl : chr '.' :: (a ++ r) = z := heq
    obtain ⟨htr, hsingle⟩ := hz.dot (by simp)
    obtain ⟨rfl, rfl⟩ := List.append_eq_nil_iff.1 (List.cons.inj hsingle).2
    exact .inl ⟨htr, rfl, rfl, rfl⟩
  | cons c v =>
    obtain ⟨rfl, htail⟩ := List.cons.inj heq
    obtain ⟨b, m, rfl, hb, hne, hm⟩ := dot_mem_dotTail hv
    obtain ⟨rfl, rfl⟩ := atext_consumes.append_inj atext_ne_nil (fun _ => trivial) ha hr hb
      (hz.stuck_append hm) (htail.trans (List.append_assoc b m z))
    exact .inr ⟨hne, m, hm, rfl⟩

/-- The result of `parse_dot_atom`: 0, the end of a dot-atom, or the end after a trailing dot; where
a dot-atom has what may follow it after it, its end. -/
structure DotAtom (u tr : Bool) (s : Bytes) (n : ℕ) : Prop where
  sound : n = 0 ∨ ∃ x y, s = x ++ y ∧ x ∈ dotAtomText u ∧
    (n = x.length ∨ tr = true ∧ y = [chr '.'] ∧ n = s.length)
  complete : ∀ w z, s = w ++ z → w ∈ dotAtomText u → Follows u tr z →
    n = if z = [chr '.'] then s.length else w.length

/-- The state of the loop: the dot-atom so far, and what is left of one that may be found. -/
def DotLoop (u tr : Bool) (s : Bytes) (i : ℕ) : Prop :=
  ∃ x y, s = x ++ y ∧ x ∈ dotAtomText u ∧ i = x.length ∧
    ∀ w z, s = w ++ z → w ∈ dotAtomText u → Follows u tr z → ∃ v ∈ dotTail u, y = v ++ z

theorem parseDotAtom_ends (s : Bytes) : Ends (parseDotAtom u tr s) (DotAtom u tr s) := by
  obtain ⟨x, y, rfl, hx, hy, hrun⟩ := parseAtextRun_ends (u := u) s
  have hfirst : ∀ w z, x ++ y = w ++ z → w ∈ dotAtomText u → Follows u tr z →
      x ≠ [] ∧ ∃ v ∈ dotTail u, y = v ++ z := fun w z => first_atom hx hy
  rw [parseDotAtom, hrun, ok_bind]
  refine .ite (fun hzero => ?_) fun hpos => ?_
  · obtain rfl : x = [] := List.length_eq_zero_iff.1 hzero
    exact .ok ⟨.inl rfl, fun w z h hw hz => absurd rfl (hfirst w z h hw hz).1⟩
  have hne : x ≠ [] := fun h => hpos (by rw [h]; rfl)
  have hatom : x ∈ dotAtomText u :=
    ⟨x, (mem_many1_iff atext_ne_nil).2 ⟨hx, hne⟩, [], Language.nil_mem_kstar _, by simp⟩
  refine Ends.loop (I := DotLoop u tr (x ++ y)) (fun i => (x ++ y).length - i) ?_
    ⟨x, y, rfl, hatom, rfl, fun w z h hw hz => (hfirst w z h hw hz).2⟩ (by omega)
  clear hfirst hrun hx hy hatom hne hpos
  generalize x ++ y = s
  rintro i ⟨x, y, rfl, hx, rfl, hrest⟩
  rw [peek_suffix rfl rfl, ok_bind]
  refine .ite (fun hdot => ?_) fun hdot => ?_
  · obtain ⟨t, rfl⟩ := exists_cons_of_head hdot
    obtain ⟨a, r, rfl, ha, hr, hrun⟩ := parseAtextRun_ends (u := u) t
    have hatom : ∀ w z, x ++ chr '.' :: (a ++ r) = w ++ z → w ∈ dotAtomText u → Follows u tr z →
        (tr = true ∧ z = [chr '.'] ∧ a = [] ∧ r = []) ∨
          a ≠ [] ∧ ∃ v ∈ dotTail u, r = v ++ z := fun w z h hw hz =>
      next_atom ha hr hz (hrest w z h hw hz)
    rw [consume_eq (window_behind rfl rfl) hrun (by simp), ok_bind]
    refine .ite (fun hzero => ?_) fun hpos => ?_
    · obtain rfl : a = [] := List.length_eq_zero_iff.1 hzero
      refine .ok ⟨?_, fun w z h hw hz => ?_⟩
      · by_cases hlast : (tr && x.length + 1 == (x ++ chr '.' :: ([] ++ r)).length) = true
        · obtain ⟨htr, hlen⟩ := Bool.and_eq_true_iff.1 hlast
          obtain rfl : r = [] := by simpa using hlen
          exact .inr ⟨x, _, rfl, hx, .inr ⟨htr, rfl, if_pos hlast⟩⟩
        · exact .inl (if_neg hlast)
      · obtain ⟨htr, rfl, -, rfl⟩ | ⟨hne, -⟩ := hatom w z h hw hz
        · rw [if_pos rfl, if_pos]
          simp [htr]
        · exact absurd rfl hne
    · have hne : a ≠ [] := fun h => hpos (by rw [h]; rfl)
      refine .ok ⟨⟨x ++ chr '.' :: a, r, by simp, append_mem_dotAtomText hx ha hne, ?_,
        fun w z h hw hz => ?_⟩, ?_⟩
      · simp
        omega
      · exact ((hatom w z h hw hz).resolve_left fun h => hne h.2.2.1).2
      · simp only [List.length_append, List.length_cons]
        omega
  · refine .ok ⟨.inr ⟨x, y, rfl, hx, .inl rfl⟩, fun w z h hw hz => ?_⟩
    obtain ⟨v, hv, rfl⟩ := hrest w z h hw hz
    cases v with
    | nil =>
      obtain rfl : x = w := List.append_cancel_right h
      rw [if_neg]
      rintro rfl
      simp at hdot
    | cons c v =>
      refine absurd ?_ hdot
      simpa using starts_kstar_letter_mul _ hv

/-! ## The local part -/

theorem head_of_dotAtomText (hw : w ∈ dotAtomText u) : ∃ c t, w = c :: t ∧ c ≠ chr dquote ∧
    c ≠ chr '[' := by
  obtain ⟨a, ⟨b, hb, r, -, rfl⟩, v, -, rfl⟩ := hw
  obtain ⟨c, t, rfl⟩ := List.exists_cons_of_ne_nil (atext_ne_nil b hb)
  refine ⟨c, t ++ r ++ v, by simp, ?_⟩
  rw [atext_eq] at hb
  rcases hb with hb | hb
  · have hc : isAtext c = true := (cons_mem_letter.1 hb).2
    constructor <;> rintro rfl <;> exact absurd hc (by decide)
  · have hc := utf8NonAscii_le hb c List.mem_cons_self
    constructor <;> rintro rfl <;> exact absurd hc (by decide)

theorem follows_of_starts (ht : Starts (· == chr '@') t) : Follows u tr t where
  stuck := stuck_classChar (by decide) (by decide) ht
  dot h := by
    cases t with
    | nil => simp at h
    | cons c t =>
      obtain rfl : c = chr '@' := by simpa using ht
      exact absurd h (by simp; decide)

theorem follows_nil : Follows u tr [] := ⟨.inl rfl, fun h => by simp at h⟩

theorem parseLocalPart_consumes :
    Consumes (parseLocalPart u) (localPart u) fun y => Starts (· == chr '@') y where
  ends w hne := by
    obtain ⟨c, t, rfl⟩ := List.exists_cons_of_ne_nil hne
    rw [parseLocalPart, if_neg (by simp), byte_zero_cons, ok_bind]
    refine .ite (fun _ => ?_) fun _ => ?_
    · refine (parseQuotedString_consumes.ends _ hne).mono ?_
      rintro n (rfl | ⟨x, y, hw, hx, rfl⟩)
      · exact .inl rfl
      · exact .inr ⟨x, y, hw, .inr hx, rfl⟩
    · refine (parseDotAtom_ends (c :: t)).mono ?_
      rintro n ⟨rfl | ⟨x, y, hw, hx, rfl | ⟨h, -⟩⟩, -⟩
      · exact .inl rfl
      · exact .inr ⟨x, y, hw, .inl hx, rfl⟩
      · cases h
  complete x hx y hy := by
    rcases hx with hx | hx
    · obtain ⟨n, hn, -, hall⟩ : Ends (parseDotAtom u false (x ++ y)) (DotAtom u false (x ++ y)) :=
        parseDotAtom_ends _
      have hfollows : Follows u false y := follows_of_starts hy
      have hlast : y ≠ [chr '.'] := by
        rintro rfl
        exact absurd hy (by simp; decide)
      rw [hall x y rfl hx hfollows, if_neg hlast] at hn
      obtain ⟨c, t, rfl, hc, -⟩ := head_of_dotAtomText hx
      rw [List.cons_append] at hn ⊢
      rw [parseLocalPart, if_neg (by simp), byte_zero_cons, ok_bind, if_neg hc, hn]
    · have hall := parseQuotedString_consumes.complete x hx y trivial
      obtain ⟨c, t, rfl, hc, -⟩ := mem_letter_mul.1 hx
      obtain rfl : c = chr dquote := by simpa using hc
      rw [List.cons_append] at hall ⊢
      rw [parseLocalPart, if_neg (by simp), byte_zero_cons, ok_bind, if_pos rfl, hall]

end FastJsonSchema.Formats
