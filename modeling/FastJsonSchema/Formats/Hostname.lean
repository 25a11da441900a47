import FastJsonSchema.Formats.Utf8

/-!
# Host names

The parser of `formats/utils/hostname_parser.c` and the host names that it decides: labels of 1 to
63 bytes with dots between them and at most one after them, 253 bytes in all
(`parseHostname_decides`).
-/

namespace FastJsonSchema.Formats

open Ruby Scan Words

open Text.Utf8 (isAscii)

open scoped Computability

/-- `is_let_dig_hyp` -/
def isLetDigHyp (c : UInt8) : Bool := isLetDig c || c == chr '-'

/-- `consume_label_char` -/
def consumeLabelChar (allowUtf8 allowHyphen : Bool) : Bytes → Result ℕ :=
  classChar (if allowHyphen then isLetDigHyp else isLetDig) allowUtf8

/-- `MAX_HOSTNAME_LEN` -/
def maxHostnameLen : ℕ := 253

/-- `MAX_LABEL_LEN` -/
def maxLabelLen : ℕ := 63

/-- The loop of `parse_label` over the place and the start of the last character, with nothing where
the code returns 0. -/
def labelLoop (allowUtf8 : Bool) (s : Bytes) (first : ℕ) : Result (Option (ℕ × ℕ)) :=
  loop (fun (pos, lastCharStart) => do
    if ← peek (fun c => !(c == chr '.')) s pos s.length then
      let n ← consume (consumeLabelChar allowUtf8 true) s pos s.length
      if n = 0 then .ok (.done none) else
      if pos + n > maxLabelLen then .ok (.done none) else
      .ok (.next (pos + n, pos))
    else .ok (.done (some (pos, lastCharStart)))) (s.length + 1) (first, 0)

/-- `parse_label` -/
def parseLabel (allowUtf8 : Bool) (s : Bytes) : Result ℕ := do
  if s.length = 0 then .ok 0 else
  let first ← consumeLabelChar allowUtf8 false s
  if first = 0 then .ok 0 else
  match ← labelLoop allowUtf8 s first with
  | none => .ok 0
  | some (pos, lastCharStart) =>
    let lastStart := if lastCharStart ≠ 0 then lastCharStart else 0
    if ← (if pos > first then do .ok ((← byte s lastStart) == chr '-') else .ok false) then .ok 0
    else .ok pos

/-- `parse_hostname` -/
def parseHostname (allowUtf8 : Bool) (s : Bytes) : Result Bool := do
  if s.length = 0 then .ok false else
  if s.length > maxHostnameLen then .ok false else
  loop (fun pos => do
    if pos < s.length then
      let labelLen ← consume (parseLabel allowUtf8) s pos s.length
      if labelLen = 0 then .ok (.done false) else
      let pos := pos + labelLen
      if pos = s.length then .ok (.done true) else
      if (← byte s pos) ≠ chr '.' then .ok (.done false) else
      if pos + 1 = s.length then .ok (.done true) else
      .ok (.next (pos + 1))
    else .ok (.done true)) (s.length + 1) 0

/-! ## The grammar -/

/-- The words with no hyphen at either end. -/
def unhyphenated : Language UInt8 :=
  {w | w.head? ≠ some (chr '-') ∧ w.getLast? ≠ some (chr '-')}

/-- A label: letters, digits and hyphens, with no hyphen at either end. -/
def label (u : Bool) : Language UInt8 :=
  (charOf isLetDigHyp u)∗ ⊓ unhyphenated ⊓ ofLength 1 maxLabelLen

/-- The labels after the first one, and the dot after them. -/
def labels (u : Bool) : Language UInt8 := (char '.' * label u)∗ * optional (char '.')

/-- A host name. -/
def hostname (u : Bool) : Language UInt8 := (label u * labels u) ⊓ ofLength 1 maxHostnameLen

variable {u : Bool} {a b s t v w x y z : Bytes} {c : UInt8} {i n : ℕ}

theorem isLetDigHyp_lt : ∀ c, isLetDigHyp c = true → c < 0x80 :=
  lt_of_or_chr isLetDig_lt (by decide)

theorem letDigHyp_consumes :
    Consumes (consumeLabelChar u true) (charOf isLetDigHyp u) fun _ => True :=
  classChar_consumes isLetDigHyp_lt

theorem letDig_consumes : Consumes (consumeLabelChar u false) (charOf isLetDig u) fun _ => True :=
  classChar_consumes isLetDig_lt

theorem charOf_letDig_le : charOf isLetDig u ≤ charOf isLetDigHyp u := by
  rintro w (⟨c, rfl, hc⟩ | hw)
  · exact .inl ⟨c, rfl, by rw [isLetDigHyp, hc, Bool.true_or]⟩
  · exact .inr hw

/-- A character starts with a hyphen exactly when it ends with one, and then it is no `let-dig`. -/
theorem head_charOf (hw : w ∈ charOf isLetDigHyp u) :
    (w.head? = some (chr '-') ↔ w.getLast? = some (chr '-')) ∧
      (w.head? = some (chr '-') ↔ w ∉ charOf isLetDig u) := by
  have hdash : isLetDig (chr '-') = false := by decide
  rcases hw with ⟨c, rfl, hc⟩ | hw
  · refine ⟨Iff.rfl, ?_⟩
    have hascii : [c] ∉ utf8NonAscii u := fun h => by
      have := utf8NonAscii_le h c List.mem_cons_self
      simp [isAscii, isLetDigHyp_lt c hc] at this
    rw [charOf, Language.mem_add, or_iff_left hascii, singleton_mem_letter]
    simp only [List.head?_cons, Option.some.injEq]
    constructor
    · rintro rfl
      simp [hdash]
    · intro hno
      simpa [isLetDigHyp, hno] using hc
  · have hne := utf8NonAscii_ne_nil w hw
    have hhigh : ∀ c ∈ w, c ≠ chr '-' := by
      rintro c hc rfl
      exact absurd (utf8NonAscii_le hw _ hc) (by decide)
    have hhead : w.head? ≠ some (chr '-') := fun h => hhigh _ (List.mem_of_mem_head? h) rfl
    have hlast : w.getLast? ≠ some (chr '-') := fun h => hhigh _ (List.mem_of_getLast? h) rfl
    exact ⟨iff_of_false hhead hlast, iff_of_false hhead (not_not.2 (.inr hw))⟩

theorem free_charOf (hw : w ∈ (charOf isLetDigHyp u)∗) : Free (· == chr '.') w := by
  have hle : charOf isLetDigHyp u ≤ within fun c => isLetDigHyp c || !isAscii c := by
    refine add_le (letter_le_within fun c hc => by simp [hc]) (utf8NonAscii_le.trans ?_)
    exact within_mono fun c hc => by simp [hc]
  exact free_of_le ((isSubmonoid_within _).kstar hle) (beq_chr_of_class (by decide)) hw

theorem free_label (hw : w ∈ label u) : Free (· == chr '.') w := free_charOf hw.1.1

theorem mem_label_iff : w ∈ label u ↔ w ∈ (charOf isLetDigHyp u)∗ ∧
    w.head? ≠ some (chr '-') ∧ w.getLast? ≠ some (chr '-') ∧ 1 ≤ w.length ∧
      w.length ≤ maxLabelLen :=
  ⟨fun ⟨⟨h, hh, hl⟩, hlen⟩ => ⟨h, hh, hl, hlen⟩, fun ⟨h, hh, hl, hlen⟩ => ⟨⟨h, hh, hl⟩, hlen⟩⟩

theorem stuck_label (hy : Starts (· == chr '.') y) : Stuck (consumeLabelChar u true) y :=
  stuck_classChar (by decide) (by decide) hy

/-- What the loop of `parse_label` has taken: the characters so far and where the last one is. -/
structure LabelLoop (u : Bool) (x : Bytes) (first pos last : ℕ) (a b : Bytes) : Prop where
  split : x = a ++ b
  chars : a ∈ (charOf isLetDigHyp u)∗
  pos_eq : pos = a.length
  head : a.head? ≠ some (chr '-')
  short : pos ≤ maxLabelLen
  nonempty : a ≠ []
  last_char : (pos = first ∧ a.getLast? ≠ some (chr '-')) ∨ (first < pos ∧
    ∃ v w, a = v ++ w ∧ last = v.length ∧ w ∈ charOf isLetDigHyp u)

/-- The check for a hyphen at the end looks at the last character. -/
theorem LabelLoop.last_check {first pos last : ℕ} (h : LabelLoop u x first pos last x []) :
    (if pos > first then do .ok ((← byte (x ++ y) last) == chr '-') else .ok false : Result Bool)
      = .ok (x.getLast? == some (chr '-')) := by
  rcases h.last_char with ⟨hfirst, hlast⟩ | ⟨hmore, v, w, hx, rfl, hw⟩
  · rw [if_neg (by omega), beq_eq_false_iff_ne.2 hlast]
  · have hne : w ≠ [] := charOf_ne_nil w hw
    have hends := (head_charOf hw).1
    obtain ⟨c, w, rfl⟩ := List.exists_cons_of_ne_nil hne
    rw [List.head?_cons, Option.some.injEq] at hends
    rw [if_pos hmore, hx, List.append_assoc, List.cons_append, byte_append rfl, ok_bind,
      List.getLast?_append_of_ne_nil _ hne]
    congr 1
    rw [Bool.eq_iff_iff, beq_iff_eq, beq_iff_eq, hends]

/-- The loop of `parse_label` on a window with `x` up to the first dot. -/
theorem labelLoop_ends {first : ℕ} (hx : Free (· == chr '.') x) (hy : Starts (· == chr '.') y)
    (hstart : LabelLoop u x first first 0 a b) : Ends (labelLoop u (x ++ y) first) fun o =>
      (o = none ∧ x ∉ label u) ∨
        ∃ pos last, o = some (pos, last) ∧ LabelLoop u x first pos last x [] := by
  let I : ℕ × ℕ → Prop := fun i => ∃ a b, LabelLoop u x first i.1 i.2 a b
  refine Ends.loop (I := I) (fun i => (x ++ y).length - i.1) ?_ ⟨a, b, hstart⟩ (by omega)
  rintro ⟨pos, last⟩ ⟨a, b, h⟩
  obtain ⟨rfl, ha, rfl, hhead, hshort, hne, hlast⟩ := h
  dsimp only
  rw [List.append_assoc, peek_suffix rfl rfl, ok_bind]
  cases b with
  | nil =>
    have hstop : ([] ++ y).head?.any (fun c => !(c == chr '.')) = false := by
      cases y with
      | nil => rfl
      | cons c y =>
        obtain rfl : c = chr '.' := by simpa using hy
        rfl
    rw [hstop, if_neg Bool.false_ne_true]
    refine .ok (.inr ⟨_, _, rfl, ?_⟩)
    simp only [List.append_nil]
    exact ⟨by simp, ha, rfl, hhead, hshort, hne, hlast⟩
  | cons c b =>
    have hc : (c == chr '.') = false := hx c (by simp)
    obtain ⟨n, hn, hcase⟩ := letDigHyp_consumes (u := u).ends (c :: b ++ y) (by simp)
    have hle : n ≤ (c :: b ++ y).length :=
      (letDigHyp_consumes.le (c :: b ++ y) (by simp)).of_eq_ok hn
    rw [if_pos (by simp [hc]), consume_eq (window_suffix rfl rfl) hn hle, ok_bind]
    refine .ite (fun hzero => .ok (.inl ⟨rfl, fun hmem => ?_⟩)) fun hpos => ?_
    · subst hzero
      have hall := (mem_label_iff.1 hmem).1
      have hcut := (letDigHyp_consumes.append_inj charOf_ne_nil (fun _ => trivial) ha (.inr hn) hall
        (stuck_label hy) (List.append_assoc a (c :: b) y).symm).1
      simp at hcut
    · obtain ⟨w, r, hwr, hw, rfl⟩ := hcase.resolve_left hpos
      -- the character does not go over the dot
      have hle : charOf isLetDigHyp u ≤ (charOf isLetDigHyp u)∗ := le_kstar
      obtain ⟨t, hbt, rfl⟩ := exists_rest_of_free (free_append.1 hx).2 hy (free_charOf (hle hw)) hwr
      refine .ite (fun hlong => .ok (.inl ⟨rfl, fun hmem => ?_⟩)) fun hfits => ?_
      · have hlen := (mem_label_iff.1 hmem).2.2.2.2
        rw [hbt, List.length_append, List.length_append] at hlen
        omega
      · have hwpos : 0 < w.length := Nat.pos_of_ne_zero hpos
        refine .ok ⟨⟨a ++ w, t, ⟨by simp [hbt], append_mem_kstar_right ha hw, by simp, ?_,
          Nat.not_lt.1 hfits, by simp [hne], .inr ⟨?_, a, w, rfl, rfl, hw⟩⟩⟩, ?_⟩
        · rwa [List.head?_append_of_ne_nil _ hne]
        · rcases hlast with ⟨hfirst, -⟩ | ⟨hfirst, -⟩
          · omega
          · omega
        · rw [hbt]
          simp only [List.length_append]
          omega

theorem nil_notMem_label : [] ∉ label u := fun h => by
  have := (mem_label_iff.1 h).2.2.2.1
  simp at this

/-- The first character of a label is one that a label may start with. -/
theorem first_of_label (hw : w ∈ label u) :
    ∃ v t, w = v ++ t ∧ v ≠ [] ∧ v ∈ charOf isLetDig u := by
  obtain ⟨hall, hhead, -, hpos, -⟩ := mem_label_iff.1 hw
  rcases mem_kstar_iff.1 hall with rfl | ⟨v, hv, hne, t, -, rfl⟩
  · simp at hpos
  refine ⟨v, t, rfl, hne, ?_⟩
  by_contra hno
  apply hhead
  rw [List.head?_append_of_ne_nil _ hne]
  exact (head_charOf hv).2.2 hno

theorem parseLabel_ends (hx : Free (· == chr '.') x) (hy : Starts (· == chr '.') y) :
    Ends (parseLabel u (x ++ y)) fun n =>
      (n = x.length ∧ x ∈ label u) ∨ (n = 0 ∧ x ∉ label u) := by
  rw [parseLabel]
  refine .ite (fun hzero => ?_) fun hlen => ?_
  · obtain ⟨rfl, rfl⟩ := List.append_eq_nil_iff.1 (List.length_eq_zero_iff.1 hzero)
    exact .ok (.inr ⟨rfl, nil_notMem_label⟩)
  have hne : x ++ y ≠ [] := fun h => hlen (by rw [h]; rfl)
  obtain ⟨first, hfirst, hcase⟩ := (letDig_consumes (u := u)).ends (x ++ y) hne
  rw [hfirst, ok_bind]
  refine .ite (fun hzero => .ok (.inr ⟨rfl, fun hmem => ?_⟩)) fun hpos => ?_
  · -- the first character of a label is taken
    obtain ⟨v, t, rfl, hvne, hv⟩ := first_of_label hmem
    apply hvne
    exact letDig_consumes.eq_nil_of_zero (hzero ▸ hfirst) hv trivial (List.append_assoc v t y)
  obtain ⟨v, r, hvr, hv, rfl⟩ := hcase.resolve_left hpos
  have hdig : v ∈ charOf isLetDigHyp u := charOf_letDig_le hv
  have hle : charOf isLetDigHyp u ≤ (charOf isLetDigHyp u)∗ := le_kstar
  obtain ⟨t, rfl, rfl⟩ := exists_rest_of_free hx hy (free_charOf (hle hdig)) hvr
  have hvne : v ≠ [] := charOf_ne_nil v hdig
  have hhead : v.head? ≠ some (chr '-') := fun h => (head_charOf hdig).2.1 h hv
  have hlast : v.getLast? ≠ some (chr '-') := fun h => hhead ((head_charOf hdig).1.2 h)
  have hshort : v.length ≤ maxLabelLen := (length_charOf v hdig).trans (by decide)
  obtain ⟨o, ho, ⟨rfl, hno⟩ | ⟨pos, last, rfl, hloop⟩⟩ := labelLoop_ends hx hy
    ⟨rfl, hle hdig, rfl, hhead, hshort, hvne, .inl ⟨rfl, hlast⟩⟩
  · rw [ho]
    exact .ok (.inr ⟨rfl, hno⟩)
  have hcheck := hloop.last_check (y := y)
  obtain ⟨-, hall, rfl, hhead, hshort, hne, -⟩ := hloop
  generalize v ++ t = x at *
  have hmem : x.getLast? ≠ some (chr '-') → x ∈ label u := fun h =>
    mem_label_iff.2 ⟨hall, hhead, h, List.length_pos_iff.2 hne, hshort⟩
  have hstart : (if last ≠ 0 then last else 0) = last := by
    split_ifs with h
    · rfl
    · exact (not_not.1 h).symm
  rw [ho, ok_bind]
  dsimp only
  rw [hstart, hcheck, ok_bind]
  refine .ite (fun hdash => .ok (.inr ⟨rfl, fun h => ?_⟩)) fun hdash => .ok (.inl ⟨rfl, hmem ?_⟩)
  · exact (mem_label_iff.1 h).2.2.1 (beq_iff_eq.1 hdash)
  · simpa using hdash

/-- A host name is cut at its first dot. -/
theorem append_mem_labels_iff (hx : Free (· == chr '.') x) (hy : Starts (· == chr '.') y) :
    x ++ y ∈ label u * labels u ↔ x ∈ label u ∧ y ∈ labels u := by
  refine append_mem_mul_iff hx hy (fun _ h => free_label h) ?_
  rintro m ⟨v, hv, w, hw, rfl⟩
  have hv := starts_kstar_letter_mul v hv
  cases v with
  | nil =>
    rcases hw with hw | ⟨c, rfl, hc⟩
    · rw [(hw : w = [])]
      exact starts_nil
    · exact starts_cons.2 hc
  | cons c v => simpa using hv

theorem nil_mem_labels : [] ∈ labels u :=
  nil_mem_mul.2 ⟨Language.nil_mem_kstar _, mem_optional.2 (.inl rfl)⟩

theorem dot_mem_labels_iff : chr '.' :: t ∈ labels u ↔ t = [] ∨ t ∈ label u * labels u := by
  constructor
  · rintro ⟨v, hv, w, hw, h⟩
    have h : v ++ w = chr '.' :: t := h
    rcases mem_kstar_iff.1 hv with rfl | ⟨_, hl, -, r, hr, rfl⟩
    · rcases hw with hw | ⟨c, rfl, -⟩
      · obtain rfl : w = [] := hw
        cases h
      · exact .inl (List.cons.inj h).2.symm
    · obtain ⟨c, l, rfl, -, hl⟩ := mem_letter_mul.1 hl
      obtain rfl : l ++ r ++ w = t := (List.cons.inj h).2
      exact .inr ⟨l, hl, r ++ w, ⟨r, hr, w, hw, rfl⟩, by simp⟩
  · rintro (rfl | ⟨l, hl, _, ⟨r, hr, w, hw, rfl⟩, rfl⟩)
    · exact ⟨[], Language.nil_mem_kstar _, _, .inr (singleton_mem_letter.2 (by simp)), rfl⟩
    · have hdot : chr '.' :: l ∈ char '.' * label u := cons_mem_char_mul.2 ⟨rfl, hl⟩
      exact ⟨chr '.' :: l ++ r, append_mem_kstar hdot hr, w, hw, by simp⟩

/-- **Host names.** `parse_hostname` decides the host names of the grammar. -/
theorem parseHostname_decides (u : Bool) : Decides (parseHostname u) (hostname u) := by
  intro s
  have hmem : s ∈ hostname u ↔ s ∈ label u * labels u ∧ 1 ≤ s.length ∧
      s.length ≤ maxHostnameLen := Iff.rfl
  rw [hmem, parseHostname]
  refine .ite (fun hzero => .ok (iff_of_false Bool.false_ne_true ?_)) fun hlen => ?_
  · rintro ⟨-, hpos, -⟩
    omega
  refine .ite (fun hlong => .ok (iff_of_false Bool.false_ne_true ?_)) fun hshort => ?_
  · rintro ⟨-, -, hle⟩
    omega
  rw [and_iff_left ⟨by omega, by omega⟩]
  -- what is left is a host name exactly when the whole is one
  let I : ℕ → Prop := fun i => ∃ a b, s = a ++ b ∧ i = a.length ∧ b ≠ [] ∧
    (s ∈ label u * labels u ↔ b ∈ label u * labels u)
  have hne : s ≠ [] := fun h => hlen (by rw [h]; rfl)
  refine Ends.loop (I := I) (fun i => s.length - i) ?_ ⟨[], s, rfl, rfl, hne, Iff.rfl⟩ (by omega)
  rintro i ⟨a, b, rfl, rfl, hb, hiff⟩
  obtain ⟨x, y, rfl, hx, hy⟩ := exists_split (· == chr '.') b
  have hlt : a.length < (a ++ (x ++ y)).length := by
    have := List.length_pos_iff.2 hb
    rw [List.length_append]
    omega
  have hwindow : window (a ++ (x ++ y)) a.length (a ++ (x ++ y)).length = .ok (x ++ y) :=
    window_suffix rfl rfl
  rw [append_mem_labels_iff hx hy] at hiff
  rw [hiff, if_pos hlt]
  obtain ⟨n, hn, ⟨rfl, hlabel⟩ | ⟨rfl, hlabel⟩⟩ := parseLabel_ends (u := u) hx hy
  · have hxpos : x.length ≠ 0 := fun h => by
      rw [List.length_eq_zero_iff.1 h] at hlabel
      exact nil_notMem_label hlabel
    rw [consume_eq hwindow hn (by simp), ok_bind, if_neg hxpos, and_iff_right hlabel]
    dsimp only
    cases y with
    | nil =>
      rw [if_pos (by simp)]
      exact .ok (iff_of_true rfl nil_mem_labels)
    | cons c t =>
      obtain rfl : c = chr '.' := by simpa using hy
      have hbyte : byte (a ++ (x ++ chr '.' :: t)) (a.length + x.length) = .ok (chr '.') := by
        rw [← List.append_assoc]
        exact byte_append (by simp)
      rw [if_neg (by simp), hbyte, ok_bind, if_neg (by simp), dot_mem_labels_iff]
      refine .ite (fun hend => .ok (iff_of_true rfl (.inl ?_))) fun hmore => ?_
      · refine List.length_eq_zero_iff.1 ?_
        simp only [List.length_append, List.length_cons] at hend
        omega
      · have ht : t ≠ [] := by
          rintro rfl
          simp [Nat.add_assoc] at hmore
        rw [or_iff_right ht]
        refine .ok ⟨⟨a ++ x ++ [chr '.'], t, by simp, by simp [Nat.add_assoc], ht, ?_⟩, ?_⟩
        · rw [hiff, and_iff_right hlabel, dot_mem_labels_iff, or_iff_right ht]
        · simp only [List.length_append, List.length_cons] at hlt ⊢
          omega
  · rw [consume_eq hwindow hn (Nat.zero_le _), ok_bind, if_pos rfl]
    exact .ok (iff_of_false Bool.false_ne_true fun h => hlabel h.1)

/-- The labels of a host name. -/
theorem mem_hostname_iff : s ∈ hostname u ↔ 1 ≤ s.length ∧ s.length ≤ maxHostnameLen ∧
    ∃ ls, ls ≠ [] ∧ (∀ l ∈ ls, l ∈ label u) ∧
      (s = [chr '.'].intercalate ls ∨ s = [chr '.'].intercalate ls ++ [chr '.']) := by
  have hdot : ∀ v, v ∈ char '.' ↔ v = [chr '.'] := by
    intro v
    constructor
    · rintro ⟨c, rfl, hc⟩
      rw [beq_iff_eq.1 hc]
    · rintro rfl
      exact singleton_mem_letter.2 (by simp)
  have hmem : s ∈ hostname u ↔ s ∈ label u * labels u ∧ 1 ≤ s.length ∧
      s.length ≤ maxHostnameLen := Iff.rfl
  have hsplit : label u * labels u
      = label u * (char '.' * label u)∗ * optional (char '.') := (mul_assoc _ _ _).symm
  rw [hmem, hsplit, mem_mul_optional, and_comm, and_assoc]
  refine and_congr_right fun _ => and_congr_right fun _ => ?_
  constructor
  · rintro (h | ⟨v, hv, d, hd, rfl⟩)
    · obtain ⟨ls, hne, hls, hs⟩ := (mem_mul_kstar_iff hdot).1 h
      exact ⟨ls, hne, hls, .inl hs⟩
    · obtain ⟨ls, hne, hls, rfl⟩ := (mem_mul_kstar_iff hdot).1 hv
      obtain rfl := (hdot d).1 hd
      exact ⟨ls, hne, hls, .inr rfl⟩
  · rintro ⟨ls, hne, hls, rfl | rfl⟩
    · exact .inl ((mem_mul_kstar_iff hdot).2 ⟨ls, hne, hls, rfl⟩)
    · exact .inr ⟨_, (mem_mul_kstar_iff hdot).2 ⟨ls, hne, hls, rfl⟩, _, (hdot _).2 rfl, rfl⟩

/-- **The labels of a host name.** `parse_hostname` accepts the strings of 1 to 253 bytes that are
labels with dots between them, and at most one dot after them: each label has 1 to 63 bytes, which
are letters, digits, hyphens and, with `allow_utf8`, UTF-8 sequences outside of ASCII, and neither
starts nor ends with a hyphen. -/
theorem parseHostname_iff (u : Bool) (s : Bytes) : parseHostname u s = .ok true ↔
    1 ≤ s.length ∧ s.length ≤ 253 ∧ ∃ ls : List Bytes, ls ≠ [] ∧
      (∀ l ∈ ls, l ∈ (letDig + char '-' + utf8NonAscii u)∗ ∧ l.head? ≠ some (chr '-') ∧
        l.getLast? ≠ some (chr '-') ∧ 1 ≤ l.length ∧ l.length ≤ 63) ∧
      (s = [chr '.'].intercalate ls ∨ s = [chr '.'].intercalate ls ++ [chr '.']) := by
  have hchars : letDig + char '-' + utf8NonAscii u = charOf isLetDigHyp u := by
    rw [letDig_eq, char, ← letter_or]
    rfl
  rw [(parseHostname_decides u).eq_ok, mem_hostname_iff, hchars]
  simp only [mem_label_iff]
  rfl

end FastJsonSchema.Formats
