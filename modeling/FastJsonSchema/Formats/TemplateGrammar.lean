import FastJsonSchema.Formats.UriTemplate

/-!
# The grammar of URI templates

The rules of RFC 6570, section 2, where a literal outside of ASCII is any UTF-8 sequence, and the
proof that `parse_uri_template` decides them (`parseUriTemplate_decides`). Each scanner takes the
word of its rule that is followed by a delimiter of the rules around it. The loops over the
characters of a name and over the variables fail where a separator is followed by nothing; their
invariant says of every word of the rule that it goes on from what is taken so far.
-/

namespace FastJsonSchema.Formats

open Ruby Scan Words

open scoped Computability

namespace Rfc6570

/-- `pct-encoded` -/
abbrev pctEncoded : Language UInt8 := Rfc3986.pctEncoded

/-- `literals` -/
def literals : Language UInt8 :=
  char '!' + range '#' '$' + char '&' + range '(' ';' + char '=' + range '?' '[' + char ']'
    + char '_' + range 'a' 'z' + char '~' + pctEncoded + utf8NonAscii true

/-- `operator` -/
def operator : Language UInt8 := oneOf "+#" + oneOf "./;?&" + oneOf "=,!@|"

/-- `varchar` -/
def varchar : Language UInt8 := alpha + digit + char '_' + pctEncoded

/-- `varname` -/
def varname : Language UInt8 := varchar * (optional (char '.') * varchar)∗

/-- `max-length` -/
def maxLength : Language UInt8 := range '1' '9' * (digit∗ ⊓ ofLength 0 3)

/-- `modifier-level4` -/
def modifier : Language UInt8 := char ':' * maxLength + char '*'

/-- `varspec` -/
def varspec : Language UInt8 := varname * optional modifier

/-- `variable-list` -/
def variableList : Language UInt8 := varspec * (char ',' * varspec)∗

/-- `expression` -/
def expression : Language UInt8 :=
  char '\x7b' * (optional operator * (variableList * char '\x7d'))

/-- `URI-Template` -/
def uriTemplate : Language UInt8 := (literals + expression)∗

end Rfc6570

open Rfc6570

variable {a b r s t u v w x y z : Bytes} {c : UInt8} {k : Char} {n : ℕ}

/-! ## Characters -/

/-- What may follow a `varname`. -/
def isNameEnd (c : UInt8) : Bool := (str ":*,\x7d").contains c

/-- What may follow a `varspec`. -/
def isSpecEnd (c : UInt8) : Bool := (str ",\x7d").contains c

/-- How the classes of the scanner lie to those of the grammar, and to each other. -/
structure Classes (c : UInt8) : Prop where
  literal : isLiteralAscii c = (c == chr '!' || (chr '#' ≤ c && c ≤ chr '$')
    || c == chr '&' || (chr '(' ≤ c && c ≤ chr ';') || c == chr '='
    || (chr '?' ≤ c && c ≤ chr '[') || c == chr ']' || c == chr '_'
    || (chr 'a' ≤ c && c ≤ chr 'z') || c == chr '~')
  ascii : isLiteralAscii c = true → c < 0x80
  operator : isOperator c
    = ((str "+#").contains c || (str "./;?&").contains c || (str "=,!@|").contains c)
  varchar : (isVarcharAscii c || c == chr '%') = true → isNameEnd c = false ∧ isOperator c = false
  specEnd : isSpecEnd c = true →
    isDigit c = false ∧ isNameEnd c = true ∧ (c == chr ':' || c == chr '*') = false
  modifier : (c == chr ':' || c == chr '*') = true → isNameEnd c = true

theorem classes (c : UInt8) : Classes c := by
  have hall := forall_byte (P := fun c => (isLiteralAscii c = (c == chr '!'
      || (chr '#' ≤ c && c ≤ chr '$') || c == chr '&' || (chr '(' ≤ c && c ≤ chr ';')
      || c == chr '=' || (chr '?' ≤ c && c ≤ chr '[') || c == chr ']' || c == chr '_'
      || (chr 'a' ≤ c && c ≤ chr 'z') || c == chr '~'))
    ∧ (isLiteralAscii c = true → c < 0x80)
    ∧ (isOperator c
      = ((str "+#").contains c || (str "./;?&").contains c || (str "=,!@|").contains c))
    ∧ ((isVarcharAscii c || c == chr '%') = true → isNameEnd c = false ∧ isOperator c = false)
    ∧ (isSpecEnd c = true →
      isDigit c = false ∧ isNameEnd c = true ∧ (c == chr ':' || c == chr '*') = false)
    ∧ ((c == chr ':' || c == chr '*') = true → isNameEnd c = true)) (by decide +kernel) c
  obtain ⟨hliteral, hascii, hoperator, hvarchar, hspecEnd, hmodifier⟩ := hall
  exact ⟨hliteral, hascii, hoperator, hvarchar, hspecEnd, hmodifier⟩

theorem literals_eq : literals = Rfc3986.unit isLiteralAscii true := by
  rw [Rfc3986.unit, funext fun c => (classes c).literal]
  simp only [letter_or]
  rfl

theorem consumeLiteralByte_eq : consumeLiteralByte = pctUnit isLiteralAscii true := by
  funext s
  have hpct : isLiteralAscii (chr '%') = false := by decide
  cases s with
  | nil => rfl
  | cons c t =>
    rw [consumeLiteralByte, pctUnit, byte_zero_cons, ok_bind, ok_bind]
    by_cases hlow : c < 0x80
    · rw [if_pos hlow, if_pos hlow]
      by_cases hc : c = chr '%'
      · rw [if_pos hc, hc, hpct, if_neg Bool.false_ne_true, if_pos rfl]
      · rw [if_neg hc, if_neg hc]
        cases isLiteralAscii c <;> rfl
    · rw [if_neg hlow, if_neg hlow, consumeUtf8, byte_zero_cons, ok_bind, if_neg hlow]
      rfl

theorem isLiteralAscii_lt (c : UInt8) (hc : isLiteralAscii c = true) : c < 0x80 :=
  (classes c).ascii hc

theorem literal_consumes : Consumes consumeLiteralByte literals fun _ => True := by
  rw [consumeLiteralByte_eq, literals_eq]
  exact pctUnit_consumes isLiteralAscii_lt (by decide)

theorem literals_ne_nil : ∀ w ∈ literals, w ≠ [] := by
  rw [literals_eq]
  exact Rfc3986.unit_ne_nil

theorem operator_eq : operator = letter isOperator := by
  rw [funext fun c => (classes c).operator]
  simp only [letter_or]
  rfl

theorem varchar_eq : varchar = letter isVarcharAscii + pctEncoded := by
  rw [varchar, alpha_eq, digit, char, ← letter_or, ← letter_or]
  rfl

theorem parseVarchar_consumes : Consumes parseVarchar varchar fun _ => True where
  ends w hne := by
    obtain ⟨c, t, rfl⟩ := List.exists_cons_of_ne_nil hne
    rw [parseVarchar, if_neg (by simp), byte_zero_cons, ok_bind, varchar_eq]
    refine .ite (fun _ => ?_) fun _ => .ite (fun hc => ?_) fun _ => .ok (.inl rfl)
    · refine (consumePctEncoded_consumes.ends _ hne).mono ?_
      rintro n (rfl | ⟨x, y, hw, hx, rfl⟩)
      · exact .inl rfl
      · exact .inr ⟨x, y, hw, .inr hx, rfl⟩
    · exact .ok (.inr ⟨[c], t, rfl, .inl (singleton_mem_letter.2 hc), rfl⟩)
  complete x hx y _ := by
    rw [varchar_eq] at hx
    rcases hx with ⟨c, rfl, hc⟩ | hx
    · have hne : c ≠ chr '%' := by
        rintro rfl
        exact absurd hc (by decide)
      simp [parseVarchar, hne, hc]
    · have hall := consumePctEncoded_consumes.complete x hx y trivial
      obtain ⟨c, t, rfl, hc, -⟩ := mem_letter_mul.1 hx
      obtain rfl : c = chr '%' := by simpa using hc
      rw [List.cons_append] at hall ⊢
      rw [parseVarchar, if_neg (by simp), byte_zero_cons, ok_bind, if_pos rfl, hall]

/-- A `varchar` starts with a letter, a digit, an underscore or a percent sign. -/
theorem head_varchar (hw : w ∈ varchar) :
    ∃ c t, w = c :: t ∧ (isVarcharAscii c || c == chr '%') = true := by
  rw [varchar_eq] at hw
  rcases hw with ⟨c, rfl, hc⟩ | hw
  · exact ⟨c, [], rfl, by rw [hc, Bool.true_or]⟩
  · obtain ⟨c, t, rfl, hc, -⟩ := mem_letter_mul.1 hw
    exact ⟨c, t, rfl, by rw [hc, Bool.or_true]⟩

theorem varchar_ne_nil : ∀ w ∈ varchar, w ≠ [] := by
  intro w hw
  obtain ⟨c, t, rfl, -⟩ := head_varchar hw
  simp

/-! ## Names and variables -/

/-- A `varchar` of a name after the first one, with the dot before it or without. -/
def nameItem : Language UInt8 := optional (char '.') * varchar

theorem mem_nameItem_iff : w ∈ nameItem ↔ w ∈ varchar ∨ ∃ v ∈ varchar, w = chr '.' :: v := by
  rw [nameItem, mem_optional_mul]
  refine or_congr_right ?_
  constructor
  · intro hw
    obtain ⟨c, v, rfl, hc, hv⟩ := mem_letter_mul.1 hw
    exact ⟨v, hv, by rw [beq_iff_eq.1 hc]⟩
  · rintro ⟨v, hv, rfl⟩
    exact cons_mem_char_mul.2 ⟨rfl, hv⟩

/-- After a dot an item is the dot and a `varchar`. -/
theorem nameItem_of_dot (hw : w ∈ nameItem) (h : chr '.' :: t = w ++ z) :
    ∃ v ∈ varchar, w = chr '.' :: v ∧ t = v ++ z := by
  rcases mem_nameItem_iff.1 hw with hw | ⟨v, hv, rfl⟩
  · obtain ⟨d, v, rfl, hd⟩ := head_varchar hw
    rw [← (List.cons.inj h).1] at hd
    exact absurd hd (by decide)
  · exact ⟨v, hv, rfl, (List.cons.inj h).2⟩

/-- Before any other byte it is a `varchar`. -/
theorem nameItem_of_not_dot {c : UInt8} (hc : c ≠ chr '.') (hw : w ∈ nameItem)
    (h : c :: t = w ++ z) : w ∈ varchar := by
  rcases mem_nameItem_iff.1 hw with hw | ⟨v, -, rfl⟩
  · exact hw
  · exact absurd (List.cons.inj h).1 hc

theorem not_nameEnd_of_varchar (c : UInt8) (hc : (isVarcharAscii c || c == chr '%') = true) :
    isNameEnd c = false :=
  ((classes c).varchar hc).1

/-- The round of `parse_varname` behind a dot, which a `varchar` has to follow. -/
theorem nameRound_dot (b t : Bytes) :
    Ends (do
      let n ← consume parseVarchar (b ++ chr '.' :: t) (b.length + 1) (b ++ chr '.' :: t).length
      .ok (if n = 0 then .done 0 else .next (b.length + 1 + n)))
      (ItemRound nameItem (fun _ => True) (Starts isNameEnd) b.length (chr '.' :: t)) := by
  obtain ⟨n, hn, hcase⟩ : Ends (parseVarchar t) fun n =>
      n = 0 ∨ ∃ x y, t = x ++ y ∧ x ∈ varchar ∧ n = x.length := by
    cases t with
    | nil => exact .ok (.inl rfl)
    | cons d t => exact parseVarchar_consumes.ends _ (by simp)
  have hle : n ≤ t.length := (parseVarchar_ends t).of_eq_ok hn
  have hend : ¬ Starts isNameEnd (chr '.' :: t) := by
    rw [starts_cons]
    decide
  rw [consume_eq (window_behind rfl rfl) hn hle, ok_bind]
  by_cases hzero : n = 0
  · rw [if_pos hzero]
    refine .ok ⟨fun v hv _ z _ h => ?_, .inr ⟨rfl, hend⟩⟩
    obtain ⟨v', hv', -, heq⟩ := nameItem_of_dot hv h
    exact varchar_ne_nil v' hv' (parseVarchar_consumes.eq_nil_of_zero (hzero ▸ hn) hv' trivial heq)
  · rw [if_neg hzero]
    obtain ⟨x, y, rfl, hx, rfl⟩ := hcase.resolve_left hzero
    refine .ok ⟨hend, chr '.' :: x, y, rfl, mem_nameItem_iff.2 (.inr ⟨x, hx, rfl⟩), by simp,
      by rw [List.length_cons]; omega, fun v hv z _ h => ?_⟩
    obtain ⟨v', hv', rfl, heq⟩ := nameItem_of_dot hv h
    rw [parseVarchar_consumes.eq_of_taken hn rfl hv' trivial heq]

/-- The round of `parse_varname` before a byte that is no dot. -/
theorem nameRound_varchar (b t : Bytes) {c : UInt8} (hc : c ≠ chr '.') :
    Ends (do
      let n ← consume parseVarchar (b ++ c :: t) b.length (b ++ c :: t).length
      .ok (if n = 0 then .done b.length else .next (b.length + n)))
      (ItemRound nameItem (fun _ => True) (Starts isNameEnd) b.length (c :: t)) := by
  obtain ⟨n, hn, hcase⟩ := parseVarchar_consumes.ends (c :: t) (by simp)
  have hle : n ≤ (c :: t).length := (parseVarchar_ends (c :: t)).of_eq_ok hn
  rw [consume_eq (window_suffix rfl rfl) hn hle, ok_bind]
  by_cases hzero : n = 0
  · rw [if_pos hzero]
    refine .ok ⟨fun v hv hne z _ h => hne ?_, .inl rfl⟩
    exact parseVarchar_consumes.eq_nil_of_zero (hzero ▸ hn) (nameItem_of_not_dot hc hv h) trivial h
  · rw [if_neg hzero]
    obtain ⟨x, y, hxy, hx, rfl⟩ := hcase.resolve_left hzero
    refine .ok ⟨?_, x, y, hxy, mem_nameItem_iff.2 (.inl hx), varchar_ne_nil x hx, rfl,
      fun v hv z _ h => parseVarchar_consumes.eq_of_taken hn hxy (nameItem_of_not_dot hc hv h)
        trivial h⟩
    obtain ⟨d, x, rfl, hd⟩ := head_varchar hx
    rw [hxy, List.cons_append, starts_cons, not_nameEnd_of_varchar d hd]
    exact Bool.false_ne_true

/-- A name is read up to what may follow it. -/
theorem parseVarname_consumes : Consumes parseVarname varname (Starts isNameEnd) := by
  refine parseVarchar_consumes.first_items varchar_ne_nil (fun _ _ _ _ => trivial) (fun _ => rfl) ?_
  rintro w b r rfl
  cases r with
  | nil =>
    rw [if_neg (by simp)]
    refine .ok ⟨fun v _ hne z _ h => hne (List.append_eq_nil_iff.1 h.symm).1, .inl rfl⟩
  | cons c t =>
    rw [if_pos (by simp), byte_append rfl, ok_bind]
    refine .ite (fun hc => ?_) fun hc => nameRound_varchar b t hc
    rw [hc]
    exact nameRound_dot b t

theorem mem_maxLength_iff : w ∈ maxLength ↔ ∃ c ds, w = c :: ds ∧
    (chr '1' ≤ c ∧ c ≤ chr '9') ∧ (∀ d ∈ ds, isDigit d = true) ∧ ds.length ≤ 3 := by
  rw [maxLength, range, mem_letter_mul]
  simp only [digit, kstar_letter, Bool.and_eq_true, decide_eq_true_eq]
  constructor
  · rintro ⟨c, ds, rfl, hc, hds, -, hlen⟩
    exact ⟨c, ds, rfl, hc, hds, hlen⟩
  · rintro ⟨c, ds, rfl, hc, hds, hlen⟩
    exact ⟨c, ds, rfl, hc, hds, Nat.zero_le _, hlen⟩

theorem not_digit_of_specEnd (c : UInt8) (hc : isSpecEnd c = true) : isDigit c = false :=
  ((classes c).specEnd hc).1

theorem parseModifier_consumes : Consumes parseModifier modifier (Starts isSpecEnd) where
  ends w hne := by
    obtain ⟨c, t, rfl⟩ := List.exists_cons_of_ne_nil hne
    rw [parseModifier, if_neg (by simp), byte_zero_cons, ok_bind]
    refine .ite (fun hc => .ok (.inr ⟨[c], t, rfl, .inr ?_, rfl⟩)) fun _ => ?_
    · exact singleton_mem_letter.2 (beq_iff_eq.2 hc)
    refine .ite (fun hc => ?_) fun _ => .ok (.inl rfl)
    subst hc
    refine .ite (fun _ => .ok (.inl rfl)) fun hlen => ?_
    obtain ⟨d, t, rfl⟩ := List.exists_cons_of_length_pos (l := t) (by
      rw [List.length_cons] at hlen
      omega)
    rw [byte_succ_cons, byte_zero_cons, ok_bind]
    refine .ite (fun _ => .ok (.inl rfl)) fun hd => ?_
    obtain ⟨x, y, rfl, hx, hy⟩ := exists_run isDigit t
    have hskip := skipWhile_run_end (a := [chr ':', d]) hx hy (i := 2) rfl rfl
    rw [show [chr ':', d] ++ (x ++ y) = chr ':' :: d :: (x ++ y) from rfl] at hskip
    rw [hskip, ok_bind]
    dsimp only
    split_ifs with hdigits
    · exact .ok (.inl rfl)
    · refine .ok (.inr ⟨chr ':' :: d :: x, y, rfl, .inl (cons_mem_char_mul.2 ⟨rfl, ?_⟩), ?_⟩)
      · refine mem_maxLength_iff.2 ⟨d, x, rfl, ?_, hx, by omega⟩
        rw [not_or, UInt8.not_lt, gt_iff_lt, UInt8.not_lt] at hd
        exact hd
      · rw [List.length_cons, List.length_cons]
        omega
  complete x hx y hy := by
    rcases hx with hx | ⟨c, rfl, hc⟩
    · obtain ⟨c, t, rfl, hc, ht⟩ := mem_letter_mul.1 hx
      obtain rfl : c = chr ':' := by simpa using hc
      obtain ⟨d, ds, rfl, hd, hds, hlen⟩ := mem_maxLength_iff.1 ht
      have hstar : chr ':' ≠ chr '*' := by decide
      have hstop : Starts (fun c => !isDigit c) y := fun c hc => by
        simpa using not_digit_of_specEnd c (hy c hc)
      have hskip := skipWhile_run_end (a := [chr ':', d]) hds hstop (i := 2) rfl rfl
      rw [show [chr ':', d] ++ (ds ++ y) = chr ':' :: d :: (ds ++ y) from rfl] at hskip
      rw [List.cons_append, List.cons_append, parseModifier, if_neg (by simp), byte_zero_cons,
        ok_bind, if_neg hstar, if_pos rfl, if_neg (by simp), byte_succ_cons, byte_zero_cons,
        ok_bind, if_neg (by rw [not_or, UInt8.not_lt, gt_iff_lt, UInt8.not_lt]; exact hd), hskip,
        ok_bind]
      dsimp only
      rw [if_neg (by omega), List.length_cons, List.length_cons, Nat.add_comm 2]
    · obtain rfl : c = chr '*' := by simpa using hc
      rw [List.singleton_append, parseModifier, if_neg (by simp), byte_zero_cons, ok_bind,
        if_pos rfl]
      rfl

theorem head_modifier (hw : w ∈ modifier) :
    ∃ c t, w = c :: t ∧ (c == chr ':' || c == chr '*') = true := by
  rcases hw with hw | ⟨c, rfl, hc⟩
  · obtain ⟨c, t, rfl, hc, -⟩ := mem_letter_mul.1 hw
    exact ⟨c, t, rfl, by simp [beq_iff_eq.1 hc]⟩
  · exact ⟨c, [], rfl, by simp [beq_iff_eq.1 hc]⟩

theorem specEnd_facts (c : UInt8) (hc : isSpecEnd c = true) :
    isNameEnd c = true ∧ (c == chr ':' || c == chr '*') = false :=
  ((classes c).specEnd hc).2

theorem nameEnd_of_modifier (c : UInt8) (hc : (c == chr ':' || c == chr '*') = true) :
    isNameEnd c = true :=
  (classes c).modifier hc

theorem nil_notMem_varname : ∀ w ∈ varname, w ≠ [] := by
  rintro _ ⟨x, hx, y, -, rfl⟩ h
  exact varchar_ne_nil x hx (List.append_eq_nil_iff.1 h).1

theorem parseVarspec_consumes : Consumes parseVarspec varspec (Starts isSpecEnd) where
  ends w hne := by
    obtain ⟨n, hn, hcase⟩ := parseVarname_consumes.ends w hne
    rw [parseVarspec, hn, ok_bind]
    refine .ite (fun _ => .ok (.inl rfl)) fun hpos => ?_
    obtain ⟨x, y, rfl, hx, rfl⟩ := hcase.resolve_left hpos
    rw [peek_suffix rfl rfl, ok_bind]
    refine .ite (fun hmod => ?_) fun _ =>
      .ok (.inr ⟨x, y, rfl, mem_mul_optional.2 (.inl hx), rfl⟩)
    have hy : y ≠ [] := by
      rintro rfl
      simp at hmod
    obtain ⟨m, hm, hcase⟩ := parseModifier_consumes.ends y hy
    have hle : m ≤ y.length := (parseModifier_ends y).of_eq_ok hm
    rw [consume_eq (window_suffix rfl rfl) hm hle, ok_bind]
    split_ifs with hzero
    · exact .ok (.inl rfl)
    · obtain ⟨u, z, rfl, hu, rfl⟩ := hcase.resolve_left hzero
      exact .ok (.inr ⟨x ++ u, z, by simp, mem_mul_optional.2 (.inr ⟨x, hx, u, hu, rfl⟩),
        by simp⟩)
  complete w hw y hy := by
    rcases mem_mul_optional.1 hw with hw | ⟨x, hx, m, hm, rfl⟩
    · have hend : Starts isNameEnd y := fun c hc => (specEnd_facts c (hy c hc)).1
      have hpeek : y.head?.any (fun c => c == chr ':' || c == chr '*') = false := by
        cases y with
        | nil => rfl
        | cons c y => simpa using (specEnd_facts c (starts_cons.1 hy)).2
      have hpos : w.length ≠ 0 := fun h => nil_notMem_varname w hw (List.length_eq_zero_iff.1 h)
      rw [parseVarspec, parseVarname_consumes.complete w hw y hend, ok_bind, if_neg hpos,
        peek_suffix rfl rfl, ok_bind, hpeek]
      rfl
    · obtain ⟨c, t, rfl, hc⟩ := head_modifier hm
      have hend : Starts isNameEnd (c :: t ++ y) := starts_cons.2 (nameEnd_of_modifier c hc)
      have hpos : x.length ≠ 0 := fun h => nil_notMem_varname x hx (List.length_eq_zero_iff.1 h)
      show parseVarspec (x ++ (c :: t) ++ y) = .ok (x ++ (c :: t)).length
      rw [List.append_assoc, parseVarspec, parseVarname_consumes.complete x hx _ hend, ok_bind,
        if_neg hpos, peek_suffix rfl rfl, ok_bind, if_pos (by simpa using hc),
        consume_eq (window_suffix rfl rfl) (parseModifier_consumes.complete _ hm y hy) (by simp),
        ok_bind, if_neg (by simp), List.length_append]

/-! ## Lists of variables and expressions -/

/-- A variable of a list after the first one, with the comma before it. -/
def listItem : Language UInt8 := char ',' * varspec

theorem mem_listItem_iff : w ∈ listItem ↔ ∃ v ∈ varspec, w = chr ',' :: v := by
  rw [listItem, char, mem_letter_mul]
  constructor
  · rintro ⟨c, v, rfl, hc, hv⟩
    exact ⟨v, hv, by rw [beq_iff_eq.1 hc]⟩
  · rintro ⟨v, hv, rfl⟩
    exact ⟨_, v, rfl, beq_self_eq_true _, hv⟩

theorem varspec_ne_nil : ∀ w ∈ varspec, w ≠ [] := by
  rintro _ ⟨x, hx, y, -, rfl⟩ h
  exact nil_notMem_varname x hx (List.append_eq_nil_iff.1 h).1

theorem parseVarspec_sound (t : Bytes) : Ends (parseVarspec t) fun n =>
    n ≤ t.length ∧ (n = 0 ∨ ∃ x y, t = x ++ y ∧ x ∈ varspec ∧ n = x.length) := by
  cases t with
  | nil => exact .ok ⟨le_rfl, .inl rfl⟩
  | cons c t =>
    obtain ⟨n, hn, hcase⟩ := parseVarspec_consumes.ends (c :: t) (by simp)
    exact ⟨n, hn, (parseVarspec_ends _).of_eq_ok hn, hcase⟩

theorem parseVariableList_consumes :
    Consumes parseVariableList variableList (Starts (· == chr '\x7d')) := by
  refine parseVarspec_consumes.first_items varspec_ne_nil ?_ (fun _ => rfl) ?_
  · intro q hq y hy
    rcases mem_kstar_iff.1 hq with rfl | ⟨v, hv, -, q, -, rfl⟩
    · intro c hc
      rw [beq_iff_eq.1 (hy c hc)]
      decide
    · obtain ⟨c, v, rfl, hc, -⟩ := mem_letter_mul.1 hv
      rw [List.append_assoc, List.cons_append, starts_cons, beq_iff_eq.1 hc]
      decide
  rintro w b r rfl
  have hcomma : ∀ v ∈ listItem, ∀ z, r = v ++ z → ∃ v' ∈ varspec, v = chr ',' :: v' ∧
      r = chr ',' :: (v' ++ z) := by
    intro v hv z h
    obtain ⟨v', hv', rfl⟩ := mem_listItem_iff.1 hv
    exact ⟨v', hv', rfl, h⟩
  rw [peek_suffix rfl rfl, ok_bind]
  refine .ite (fun hc => ?_) fun hc => .ok ⟨fun v hv _ z _ h => ?_, .inl rfl⟩
  swap
  · obtain ⟨v', -, -, rfl⟩ := hcomma v hv z h
    simp at hc
  obtain ⟨t, rfl⟩ := exists_cons_of_head hc
  have hend : ¬ Starts (· == chr '\x7d') (chr ',' :: t) := by
    rw [starts_cons]
    decide
  obtain ⟨m, hm, hle, hcase⟩ := parseVarspec_sound t
  rw [consume_eq (window_behind rfl rfl) hm hle, ok_bind]
  by_cases hzero : m = 0
  · rw [if_pos hzero]
    refine .ok ⟨fun v hv _ z hz h => ?_, .inr ⟨rfl, hend⟩⟩
    obtain ⟨v', hv', rfl, heq⟩ := hcomma v hv z h
    exact varspec_ne_nil v' hv'
      (parseVarspec_consumes.eq_nil_of_zero (hzero ▸ hm) hv' hz (List.cons.inj heq).2)
  · rw [if_neg hzero]
    obtain ⟨x, y, rfl, hx, rfl⟩ := hcase.resolve_left hzero
    refine .ok ⟨hend, chr ',' :: x, y, rfl, mem_listItem_iff.2 ⟨x, hx, rfl⟩, by simp,
      by rw [List.length_cons]; omega, fun v hv z hz h => ?_⟩
    obtain ⟨v', hv', rfl, heq⟩ := hcomma v hv z h
    rw [parseVarspec_consumes.eq_of_taken hm rfl hv' hz (List.cons.inj heq).2]

theorem head_variableList (hw : w ∈ variableList) :
    ∃ c t, w = c :: t ∧ (isVarcharAscii c || c == chr '%') = true := by
  obtain ⟨_, ⟨_, ⟨v, hv, q, -, rfl⟩, m, -, rfl⟩, t, -, rfl⟩ := hw
  obtain ⟨c, v, rfl, hc⟩ := head_varchar hv
  exact ⟨c, v ++ q ++ m ++ t, rfl, hc⟩

theorem not_operator_of_varchar (c : UInt8) (hc : (isVarcharAscii c || c == chr '%') = true) :
    isOperator c = false :=
  ((classes c).varchar hc).2

/-- The variables of an expression and the brace after them. -/
abbrev listEnd : Language UInt8 := variableList * char '\x7d'

/-- The part of `parse_expression` after the operator. -/
def parseListEnd (s : Bytes) (pos : ℕ) : Result ℕ := do
  let vl ← consume parseVariableList s pos s.length
  if vl = 0 then .ok 0 else
  let pos := pos + vl
  .ok (if ← peek (· == chr '\x7d') s pos s.length then pos + 1 else 0)

theorem parseListEnd_sound (hs : s = a ++ r) : Ends (parseListEnd s a.length) fun n =>
    n = 0 ∨ ∃ x y, r = x ++ y ∧ x ∈ listEnd ∧ n = a.length + x.length := by
  subst hs
  obtain ⟨n, hn, hcase⟩ : Ends (parseVariableList r) fun n =>
      n = 0 ∨ ∃ x y, r = x ++ y ∧ x ∈ variableList ∧ n = x.length := by
    cases r with
    | nil => exact .ok (.inl rfl)
    | cons c t => exact parseVariableList_consumes.ends _ (by simp)
  have hle : n ≤ r.length := (parseVariableList_ends r).of_eq_ok hn
  rw [parseListEnd, consume_eq (window_suffix rfl rfl) hn hle, ok_bind]
  refine .ite (fun _ => .ok (.inl rfl)) fun hpos => ?_
  obtain ⟨x, y, rfl, hx, rfl⟩ := hcase.resolve_left hpos
  have hlen : a.length + x.length = (a ++ x).length := List.length_append.symm
  dsimp only
  rw [← List.append_assoc, peek_suffix hlen rfl, ok_bind]
  refine .ok ?_
  split_ifs with hbrace
  · obtain ⟨z, rfl⟩ : ∃ z, y = chr '\x7d' :: z := by
      cases y with
      | nil => simp at hbrace
      | cons c z => exact ⟨z, by rw [show c = chr '\x7d' by simpa using hbrace]⟩
    refine .inr ⟨x ++ [chr '\x7d'], z, by simp, ?_, by simp [Nat.add_assoc]⟩
    exact Language.append_mem_mul hx (singleton_mem_letter.2 (beq_self_eq_true _))
  · exact .inl rfl

theorem parseListEnd_complete (hx : x ∈ listEnd) :
    parseListEnd (a ++ (x ++ y)) a.length = .ok (a.length + x.length) := by
  obtain ⟨v, hv, _, ⟨c, rfl, hc⟩, rfl⟩ := hx
  obtain rfl := beq_iff_eq.1 hc
  have hn : parseVariableList (v ++ (chr '\x7d' :: y)) = .ok v.length :=
    parseVariableList_consumes.complete v hv _ (starts_cons.2 (beq_self_eq_true _))
  obtain ⟨d, t, hd, -⟩ := head_variableList hv
  have hpos : v.length ≠ 0 := by simp [hd]
  have hlen : a.length + v.length = (a ++ v).length := List.length_append.symm
  show parseListEnd (a ++ (v ++ [chr '\x7d'] ++ y)) a.length
    = .ok (a.length + (v ++ [chr '\x7d']).length)
  rw [List.append_assoc, List.singleton_append, parseListEnd,
    consume_eq (window_suffix rfl rfl) hn (by simp), ok_bind, if_neg hpos]
  dsimp only
  rw [← List.append_assoc, peek_suffix hlen rfl, ok_bind]
  simp [Nat.add_assoc]

theorem mem_expression_iff : w ∈ expression ↔ (∃ x ∈ listEnd, w = chr '\x7b' :: x) ∨
    ∃ d, isOperator d = true ∧ ∃ x ∈ listEnd, w = chr '\x7b' :: d :: x := by
  rw [expression, operator_eq, char, mem_letter_mul]
  constructor
  · rintro ⟨c, t, rfl, hc, ht⟩
    obtain rfl := beq_iff_eq.1 hc
    rcases mem_optional_mul.1 ht with ht | ht
    · exact .inl ⟨t, ht, rfl⟩
    · obtain ⟨d, x, rfl, hd, hx⟩ := mem_letter_mul.1 ht
      exact .inr ⟨d, hd, x, hx, rfl⟩
  · rintro (⟨x, hx, rfl⟩ | ⟨d, hd, x, hx, rfl⟩)
    · exact ⟨_, x, rfl, beq_self_eq_true _, mem_optional_mul.2 (.inl hx)⟩
    · exact ⟨_, d :: x, rfl, beq_self_eq_true _,
        mem_optional_mul.2 (.inr (cons_mem_letter_mul.2 ⟨hd, hx⟩))⟩

theorem parseExpression_eq (ht : t ≠ []) : parseExpression (chr '\x7b' :: t) =
    parseListEnd (chr '\x7b' :: t) (if t.head?.any isOperator then 2 else 1) := by
  obtain ⟨c, t, rfl⟩ := List.exists_cons_of_ne_nil ht
  have hpeek : peek isOperator ([chr '\x7b'] ++ c :: t) 1 _ = _ := peek_suffix rfl rfl
  rw [List.singleton_append] at hpeek
  rw [parseExpression, if_neg (by simp), byte_zero_cons, ok_bind, if_neg (by simp), hpeek, ok_bind]
  rfl

theorem parseExpression_consumes : Consumes parseExpression expression fun _ => True where
  ends w hne := by
    obtain ⟨c, t, rfl⟩ := List.exists_cons_of_ne_nil hne
    by_cases hlen : (c :: t).length < 2
    · rw [parseExpression, if_pos hlen]
      exact .ok (.inl rfl)
    by_cases hc : c = chr '\x7b'
    swap
    · rw [parseExpression, if_neg hlen, byte_zero_cons, ok_bind, if_pos hc]
      exact .ok (.inl rfl)
    subst hc
    have ht : t ≠ [] := by
      rintro rfl
      simp at hlen
    rw [parseExpression_eq ht]
    split_ifs with hop
    · obtain ⟨d, t, rfl⟩ := List.exists_cons_of_ne_nil ht
      have hd : isOperator d = true := by simpa using hop
      refine (parseListEnd_sound (a := [chr '\x7b', d]) (r := t) rfl).mono ?_
      rintro n (rfl | ⟨x, y, rfl, hx, rfl⟩)
      · exact .inl rfl
      · refine .inr ⟨chr '\x7b' :: d :: x, y, rfl, ?_, ?_⟩
        · exact mem_expression_iff.2 (.inr ⟨d, hd, x, hx, rfl⟩)
        · simp only [List.length_cons, List.length_nil]
          omega
    · refine (parseListEnd_sound (a := [chr '\x7b']) (r := t) rfl).mono ?_
      rintro n (rfl | ⟨x, y, rfl, hx, rfl⟩)
      · exact .inl rfl
      · refine .inr ⟨chr '\x7b' :: x, y, rfl, mem_expression_iff.2 (.inl ⟨x, hx, rfl⟩), ?_⟩
        simp only [List.length_cons, List.length_nil]
        omega
  complete w hw y _ := by
    rcases mem_expression_iff.1 hw with ⟨x, hx, rfl⟩ | ⟨d, hd, x, hx, rfl⟩
    · obtain ⟨v, hv, e, -, rfl⟩ := id hx
      obtain ⟨c, v, rfl, hc⟩ := head_variableList hv
      have hop : isOperator c = false := not_operator_of_varchar c hc
      have hall := parseListEnd_complete (a := [chr '\x7b']) (y := y) hx
      show parseExpression (chr '\x7b' :: (c :: v ++ e ++ y)) = _
      rw [parseExpression_eq (by simp)]
      simpa [hop, Nat.add_comm] using hall
    · have hall := parseListEnd_complete (a := [chr '\x7b', d]) (y := y) hx
      have hlen : (chr '\x7b' :: d :: x).length = [chr '\x7b', d].length + x.length := by
        simp only [List.length_cons, List.length_nil]
        omega
      rw [List.cons_append, List.cons_append, parseExpression_eq (by simp), hlen]
      simpa [hd] using hall

/-! ## Templates -/

theorem not_literal_brace : chr '\x7b' :: t ∉ literals := by
  intro h
  have hall := literal_consumes.complete _ h [] trivial
  rw [List.append_nil] at hall
  have hzero : consumeLiteralByte (chr '\x7b' :: t) = .ok 0 := rfl
  rw [hzero] at hall
  cases hall

theorem head_expression (hw : w ∈ expression) : ∃ t, w = chr '\x7b' :: t := by
  rcases mem_expression_iff.1 hw with ⟨x, -, rfl⟩ | ⟨d, -, x, -, rfl⟩
  · exact ⟨x, rfl⟩
  · exact ⟨d :: x, rfl⟩

theorem literal_append_iff (hx : x ∈ literals) : x ++ r ∈ uriTemplate ↔ r ∈ uriTemplate := by
  refine append_mem_kstar_iff (.inl hx) fun v hv _ z _ h => ?_
  rcases hv with hv | hv
  · exact literal_consumes.eq_of_append_eq (fun _ => trivial) hx hv h
  · obtain ⟨t, rfl⟩ := head_expression hv
    obtain ⟨c, x, rfl⟩ := List.exists_cons_of_ne_nil (literals_ne_nil x hx)
    rw [(List.cons.inj h).1] at hx
    exact absurd hx not_literal_brace

theorem literals_append_iff (hx : x ∈ literals∗) : x ++ r ∈ uriTemplate ↔ r ∈ uriTemplate := by
  refine kstar_induction (P := fun x => x ++ r ∈ uriTemplate ↔ r ∈ uriTemplate) Iff.rfl ?_ hx
  intro u hu _ t _ ih
  rw [List.append_assoc, literal_append_iff hu, ih]

theorem expression_append_iff (hx : x ∈ expression) :
    x ++ r ∈ uriTemplate ↔ r ∈ uriTemplate := by
  refine append_mem_kstar_iff (.inr hx) fun v hv hne z _ h => ?_
  rcases hv with hv | hv
  · obtain ⟨t, rfl⟩ := head_expression hx
    obtain ⟨c, v, rfl⟩ := List.exists_cons_of_ne_nil hne
    rw [← (List.cons.inj h).1] at hv
    exact absurd hv not_literal_brace
  · exact parseExpression_consumes.eq_of_append_eq (fun _ => trivial) hx hv h

/-- What a round takes off a template. -/
theorem parseTemplatePart_takes (hs : s ≠ []) : Ends (parseTemplatePart s) fun n =>
    (n = 0 ∧ s ∉ uriTemplate) ∨ ∃ x y, s = x ++ y ∧ x ≠ [] ∧ n = x.length ∧
      (s ∈ uriTemplate ↔ y ∈ uriTemplate) := by
  obtain ⟨c, t, rfl⟩ := List.exists_cons_of_ne_nil hs
  rw [parseTemplatePart, byte_zero_cons, ok_bind]
  refine .ite (fun hc => ?_) fun hc => ?_
  · subst hc
    obtain ⟨n, hn, hcase⟩ := parseExpression_consumes.ends _ hs
    refine ⟨n, hn, ?_⟩
    by_cases hzero : n = 0
    · refine .inl ⟨hzero, fun hall => ?_⟩
      rcases mem_kstar_iff.1 hall with h | ⟨u, hu | hu, hne, r, -, h⟩
      · cases h
      · obtain ⟨d, u, rfl⟩ := List.exists_cons_of_ne_nil hne
        rw [← (List.cons.inj h).1] at hu
        exact not_literal_brace hu
      · exact hne (parseExpression_consumes.eq_nil_of_zero (hzero ▸ hn) hu trivial h)
    · obtain ⟨x, y, h, hx, rfl⟩ := hcase.resolve_left hzero
      refine .inr ⟨x, y, h, fun hnil => hzero (by simp [hnil]), rfl, ?_⟩
      rw [h, expression_append_iff hx]
  · refine (literal_consumes.manyUntil_ends [] (c :: t) rfl).bind fun o ho => ?_
    obtain ⟨x, y, h, hx, ⟨rfl, hy⟩ | ⟨rfl, hstuck, hy⟩⟩ := ho
    · refine .ok (.inr ⟨x, y, h, ?_, Nat.zero_add _, by rw [h, literals_append_iff hx]⟩)
      rintro rfl
      rw [List.nil_append] at h
      rw [← h, starts_cons] at hy
      exact hc (beq_iff_eq.1 hy)
    · refine .ok (.inl ⟨rfl, ?_⟩)
      rw [h, literals_append_iff hx]
      intro hall
      rcases mem_kstar_iff.1 hall with rfl | ⟨u, hu | hu, hne, r, -, rfl⟩
      · simp at hy
      · rcases hstuck with hnil | hzero
        · exact hne (List.append_eq_nil_iff.1 hnil).1
        · exact hne (literal_consumes.eq_nil_of_zero hzero hu trivial rfl)
      · obtain ⟨v, rfl⟩ := head_expression hu
        simp at hy

theorem parseUriTemplate_decides : Decides parseUriTemplate uriTemplate :=
  every_decides (Language.nil_mem_kstar _) fun _ => parseTemplatePart_takes

/-- The templates are the words of the grammar. -/
theorem parseUriTemplate_iff (s : Bytes) : parseUriTemplate s = .ok true ↔ s ∈ uriTemplate :=
  parseUriTemplate_decides.eq_ok

end FastJsonSchema.Formats
