import FastJsonSchema.Formats.UriGrammar

/-!
# Splitting a URI reference at its delimiters

The words of each rule are free of the delimiters that end them, so that membership in a rule is
decided on the parts between the first delimiters. The host is one such part: a language `H` of
hosts enters `authority` only through whether that part is in `H`.
-/

namespace FastJsonSchema.Formats.Rfc3986

open Ruby Scan Words

open Text.Utf8 (nonAscii isAscii nonAscii_le_within)

open scoped Computability

variable {H L M : Language UInt8} {u : Bool} {p q : UInt8 → Bool} {w x y z h r t : Bytes}

/-! ## The bytes of the rules -/

/-- A byte of a URI: unreserved, a sub-delimiter, outside of ASCII or one of the others. -/
def urlByte (others : String) (c : UInt8) : Bool :=
  isUnreserved c || isSubDelim c || (str others).contains c || !isAscii c

/-- A character of a class, an encoded one, or a sequence that `allow_utf8` adds. -/
def unit (p : UInt8 → Bool) (u : Bool) : Language UInt8 := letter p + pctEncoded + utf8NonAscii u

theorem pathEnd_of_class (hquestion : q (chr '?') = false) (hhash : q (chr '#') = false) :
    ∀ c, q c = true → isPathEnd c = false := fun c hc => by
  rw [isPathEnd, beq_chr_of_class hquestion c hc, beq_chr_of_class hhash c hc, Bool.or_false]

theorem isUnreserved_of_isHex (c : UInt8) (hc : isHex c = true) : isUnreserved c = true := by
  have hsub : ∀ c, isHex c = true → (isAlpha c || isDigit c) = true :=
    forall_byte (by decide +kernel)
  rw [isUnreserved, hsub c hc, Bool.true_or]

theorem isUnreserved_of_isDigit (c : UInt8) (hc : isDigit c = true) : isUnreserved c = true := by
  rw [isUnreserved, hc, Bool.or_true, Bool.true_or]

theorem urlByte_of_isUnreserved {others : String} {c : UInt8} (hc : isUnreserved c = true) :
    urlByte others c = true := by
  simp [urlByte, hc]

theorem urlByte_of_isSubDelim {others : String} {c : UInt8} (hc : isSubDelim c = true) :
    urlByte others c = true := by
  simp [urlByte, hc]

/-- The bytes of a rule are bytes of another one that adds more of the delimiters. -/
theorem urlByte_mono {a b : String} (h : (str a).all (urlByte b) = true) (c : UInt8)
    (hc : urlByte a c = true) : urlByte b c = true := by
  rw [urlByte, Bool.or_eq_true, Bool.or_eq_true, Bool.or_eq_true] at hc
  rcases hc with ((hc | hc) | hc) | hc
  · exact urlByte_of_isUnreserved hc
  · exact urlByte_of_isSubDelim hc
  · exact List.all_eq_true.1 h c (by simpa using hc)
  · simp only [urlByte, hc, Bool.or_true]

theorem unreserved_eq : unreserved u = letter isUnreserved + utf8NonAscii u := by
  rw [unreserved, alpha_eq, digit, oneOf, ← letter_or, ← letter_or]
  rfl

/-- `reg-name` without repetition. -/
def isRegName (c : UInt8) : Bool := isUnreserved c || isSubDelim c

/-- `userinfo` without repetition. -/
def isUserinfo (c : UInt8) : Bool := isUnreserved c || isSubDelim c || c == chr ':'

/-- `pchar` -/
def isPchar (c : UInt8) : Bool := isUnreserved c || isSubDelim c || c == chr ':' || c == chr '@'

/-- `pchar` without the colon -/
def isPcharNc (c : UInt8) : Bool := isUnreserved c || isSubDelim c || c == chr '@'

/-- A character of a query. -/
def isQuery (c : UInt8) : Bool := isPchar c || c == chr '/' || c == chr '?'

theorem regName_eq : regName u = (unit isRegName u)∗ := by
  have : letter isRegName = letter isUnreserved + subDelims := letter_or
  rw [regName, unit, unreserved_eq, this]
  congr 1
  abel

theorem userinfo_eq : userinfo u = (unit isUserinfo u)∗ := by
  have : letter isUserinfo = letter isUnreserved + subDelims + char ':' := by
    rw [subDelims, oneOf, char, ← letter_or, ← letter_or]
    rfl
  rw [userinfo, unit, unreserved_eq, this]
  congr 1
  abel

theorem pchar_eq : pchar u = unit isPchar u := by
  have : letter isPchar = letter isUnreserved + subDelims + char ':' + char '@' := by
    rw [subDelims, oneOf, char, char, ← letter_or, ← letter_or, ← letter_or]
    rfl
  rw [pchar, unit, unreserved_eq, this]
  abel

theorem segmentNzNc_eq : segmentNzNc u = many1 (unit isPcharNc u) := by
  have : letter isPcharNc = letter isUnreserved + subDelims + char '@' := by
    rw [subDelims, oneOf, char, ← letter_or, ← letter_or]
    rfl
  rw [segmentNzNc, unit, unreserved_eq, this]
  congr 1
  abel

theorem query_eq : query u = (unit isQuery u)∗ := by
  have : letter isQuery = letter isPchar + char '/' + char '?' := by
    rw [char, char, ← letter_or, ← letter_or]
    rfl
  rw [query, pchar_eq, unit, unit, this]
  congr 1
  abel

theorem pctEncoded_le {others : String} (hpct : urlByte others (chr '%') = true) :
    pctEncoded ≤ within (urlByte others) := by
  have hW := isSubmonoid_within (urlByte others)
  have hhex : hexdig ≤ within (urlByte others) :=
    letter_le_within fun c hc => urlByte_of_isUnreserved (isUnreserved_of_isHex c hc)
  exact hW.mul (char_le hpct) (hW.mul hhex hhex)

theorem unit_le {others : String} (hp : ∀ c, p c = true → urlByte others c = true)
    (hpct : urlByte others (chr '%') = true) : unit p u ≤ within (urlByte others) := by
  rintro w ((hw | hw) | hw)
  · exact letter_le_within hp hw
  · exact pctEncoded_le hpct hw
  · intro a ha
    simp only [urlByte, utf8NonAscii_le hw a ha, Bool.or_true]

theorem urlByte_of_isRegName {others : String} (c : UInt8) (hc : isRegName c = true) :
    urlByte others c = true := by
  rw [isRegName, Bool.or_eq_true] at hc
  exact hc.elim urlByte_of_isUnreserved urlByte_of_isSubDelim

/-- A class of the characters of a `reg-name` and one more. -/
theorem urlByte_of_or {others : String} {k : Char} (hp : ∀ c, p c = true → urlByte others c = true)
    (hk : urlByte others (chr k) = true) (c : UInt8) (hc : (p c || c == chr k) = true) :
    urlByte others c = true := by
  rw [Bool.or_eq_true] at hc
  exact hc.elim (hp c) (of_beq_chr hk c)

theorem urlByte_of_isPchar (c : UInt8) (hc : isPchar c = true) : urlByte "%:@" c = true :=
  urlByte_of_or (urlByte_of_or urlByte_of_isRegName (by decide)) (by decide) c hc

theorem urlByte_of_isPcharNc (c : UInt8) (hc : isPcharNc c = true) : urlByte "%@" c = true :=
  urlByte_of_or urlByte_of_isRegName (by decide) c hc

theorem regName_le : regName u ≤ within (urlByte "%") := by
  rw [regName_eq]
  exact (isSubmonoid_within _).kstar (unit_le urlByte_of_isRegName (by decide))

theorem userinfo_le : userinfo u ≤ within (urlByte "%:") := by
  rw [userinfo_eq]
  exact (isSubmonoid_within _).kstar
    (unit_le (urlByte_of_or urlByte_of_isRegName (by decide)) (by decide))

theorem pchar_le : pchar u ≤ within (urlByte "%:@") := by
  rw [pchar_eq]
  exact unit_le urlByte_of_isPchar (by decide)

theorem query_le : query u ≤ within (urlByte "%:@/?") := by
  rw [query_eq]
  refine (isSubmonoid_within _).kstar (unit_le (urlByte_of_or (urlByte_of_or ?_ (by decide))
    (by decide)) (by decide))
  exact fun c hc => urlByte_mono (by decide) c (urlByte_of_isPchar c hc)

theorem ipv6_le : ipv6 ≤ within isIpv6Byte := fun _ hw => bytes_of_parseIpv6 hw

theorem ipvFuture_le : ipvFuture ≤ within (urlByte ":") := by
  have hW := isSubmonoid_within (urlByte ":")
  have hhex : hexdig ≤ within (urlByte ":") :=
    letter_le_within fun c hc => urlByte_of_isUnreserved (isUnreserved_of_isHex c hc)
  have htail : unreserved false + subDelims + char ':' ≤ within (urlByte ":") := by
    rw [unreserved_eq, subDelims, oneOf, char]
    rintro w (((hw | hw) | hw) | hw)
    · exact letter_le_within (fun c hc => urlByte_of_isUnreserved hc) hw
    · exact absurd hw (Language.notMem_zero w)
    · exact letter_le_within (fun c hc => urlByte_of_isSubDelim hc) hw
    · exact letter_le_within (of_beq_chr (by decide)) hw
  have hv : char 'v' + char 'V' ≤ within (urlByte ":") :=
    add_le (char_le (by decide)) (char_le (by decide))
  exact hW.mul hv (hW.mul (hW.mul hhex (hW.kstar hhex)) (hW.mul (char_le (by decide))
    (hW.mul htail (hW.kstar htail))))

theorem urlByte_of_isIpv6Byte (c : UInt8) (hc : isIpv6Byte c = true) : urlByte ":" c = true := by
  rw [isIpv6Byte, Bool.or_eq_true] at hc
  rcases hc with hc | hc
  · exact urlByte_of_isUnreserved (isUnreserved_of_isHex c hc)
  · have hall : (str ":.").all (urlByte ":") = true := by decide
    exact List.all_eq_true.1 hall c (by simpa using hc)

/-- What is between the brackets of a host. -/
theorem literalBody_le : ipv6 + ipvFuture ≤ within (urlByte ":") :=
  add_le (ipv6_le.trans (within_mono urlByte_of_isIpv6Byte)) ipvFuture_le

theorem host_le : host u ≤ within (urlByte "%:[]") := by
  have hW := isSubmonoid_within (urlByte "%:[]")
  refine add_le (add_le ?_ ?_) ?_
  · exact hW.mul (char_le (by decide)) (hW.mul
      (literalBody_le.trans (within_mono (urlByte_mono (by decide)))) (char_le (by decide)))
  · refine ipv4Address_le.trans (within_mono fun c hc => ?_)
    rw [isIpv4Byte, Bool.or_eq_true] at hc
    exact hc.elim (fun hc => urlByte_of_isUnreserved (isUnreserved_of_isDigit c hc))
      (of_beq_chr (by decide) c)
  · exact regName_le.trans (within_mono (urlByte_mono (by decide)))

/-! ## The split of an authority -/

section Authority

variable (hH : H ≤ host u)

/-- `[ ":" port ]` -/
def portPart : Language UInt8 := optional (char ':' * port)

theorem starts_portPart : ∀ m ∈ portPart, Starts (· == chr ':') m := starts_optional_letter_mul

/-- The hosts in brackets are those that start with one. -/
theorem mem_host_bracket (hw : chr '[' :: w ∈ host u) :
    ∃ b, w = b ++ [chr ']'] ∧ Free (· == chr ']') b := by
  rcases hw with (hw | hw) | hw
  · obtain ⟨-, b, hb, _, ⟨c, rfl, hc⟩, rfl⟩ := cons_mem_char_mul.1 hw
    obtain rfl : c = chr ']' := by simpa using hc
    exact ⟨b, rfl, free_of_le literalBody_le (beq_chr_of_class (by decide)) hb⟩
  · exact absurd (ipv4Address_le hw _ List.mem_cons_self) (by decide)
  · exact absurd (regName_le hw _ List.mem_cons_self) (by decide)

/-- A host that is not in brackets has no colon. -/
theorem free_host (hw : w ∈ host u) (hbracket : w.head?.any (· == chr '[') = false) :
    Free (· == chr ':') w := by
  rcases hw with (hw | hw) | hw
  · obtain ⟨a, t, rfl, ha, -⟩ := mem_letter_mul.1 hw
    simp [ha] at hbracket
  · exact free_of_le ipv4Address_le (beq_chr_of_class (by decide)) hw
  · exact free_of_le regName_le (beq_chr_of_class (by decide)) hw

/-- An authority without userinfo. -/
theorem mem_authority_iff (hw : Free (· == chr '@') w) :
    w ∈ authority H u ↔ w ∈ hostPort H := by
  rw [authority, mem_optional_mul]
  constructor
  · rintro (hw' | ⟨_, ⟨k, -, _, ⟨a, rfl, ha⟩, rfl⟩, m, -, rfl⟩)
    · exact hw'
    · obtain rfl : a = chr '@' := by simpa using ha
      simp at hw
  · exact .inl

include hH

theorem bracket_mem_hostPort_iff (hx : Free (· == chr ']') x) :
    chr '[' :: (x ++ chr ']' :: r) ∈ hostPort H ↔
      chr '[' :: (x ++ [chr ']']) ∈ H ∧ r ∈ portPart := by
  constructor
  · rintro ⟨h, hh, m, hm, heq⟩
    cases h with
    | nil =>
      change m = _ at heq
      have := starts_portPart m hm
      rw [heq] at this
      exact absurd (starts_cons.1 this) (by decide)
    | cons a h =>
      obtain ⟨rfl, htail⟩ := List.cons.inj heq
      obtain ⟨b, rfl, hb⟩ := mem_host_bracket (hH hh)
      have hsplit : b ++ chr ']' :: m = x ++ chr ']' :: r := by simpa using htail
      obtain ⟨rfl, hrest⟩ := append_inj_of_free hb (by simp) hx (by simp) hsplit
      obtain rfl := (List.cons.inj hrest).2
      exact ⟨hh, hm⟩
  · rintro ⟨hx, hr⟩
    exact ⟨_, hx, r, hr, by simp⟩

theorem bracket_notMem_hostPort (hx : Free (· == chr ']') x) : chr '[' :: x ∉ hostPort H := by
  rintro ⟨h, hh, m, hm, heq⟩
  cases h with
  | nil =>
    change m = _ at heq
    have := starts_portPart m hm
    rw [heq] at this
    exact absurd (starts_cons.1 this) (by decide)
  | cons a h =>
    obtain ⟨rfl, htail⟩ := List.cons.inj heq
    obtain ⟨b, rfl, -⟩ := mem_host_bracket (hH hh)
    subst htail
    simp at hx

theorem append_mem_hostPort_iff (hx : Free (· == chr ':') x) (hr : Starts (· == chr ':') r)
    (hbracket : (x ++ r).head?.any (· == chr '[') = false) :
    x ++ r ∈ hostPort H ↔ x ∈ H ∧ r ∈ portPart := by
  constructor
  · rintro ⟨h, hh, m, hm, heq⟩
    have hfree : Free (· == chr ':') h := by
      refine free_host (hH hh) ?_
      cases h with
      | nil => rfl
      | cons a h =>
        rw [← heq] at hbracket
        exact hbracket
    obtain ⟨rfl, rfl⟩ := append_inj_of_free hfree (starts_portPart m hm) hx hr heq
    exact ⟨hh, hm⟩
  · rintro ⟨hxH, hr⟩
    exact ⟨x, hxH, r, hr, rfl⟩

theorem hostPort_le : hostPort H ≤ within (urlByte "%:[]") := by
  have hW := isSubmonoid_within (urlByte "%:[]")
  have hport : port ≤ within (urlByte "%:[]") :=
    hW.kstar (letter_le_within fun c hc => urlByte_of_isUnreserved (isUnreserved_of_isDigit c hc))
  exact hW.mul (hH.trans host_le) (hW.optional (hW.mul (char_le (by decide)) hport))

theorem append_mem_authority_iff (hx : Free (· == chr '@') x) :
    x ++ chr '@' :: r ∈ authority H u ↔ x ∈ userinfo u ∧ r ∈ hostPort H := by
  have hfree : ∀ m ∈ hostPort H, Free (· == chr '@') m := fun m hm =>
    free_of_le (hostPort_le hH) (beq_chr_of_class (by decide)) hm
  rw [authority, mem_optional_mul]
  constructor
  · rintro (hw | ⟨_, ⟨k, hk, _, ⟨a, rfl, ha⟩, rfl⟩, m, hm, heq⟩)
    · exact absurd (hfree _ hw) (by simp)
    · obtain rfl : a = chr '@' := by simpa using ha
      have hk' : Free (· == chr '@') k :=
        free_of_le userinfo_le (beq_chr_of_class (by decide)) hk
      have hsplit : k ++ chr '@' :: m = x ++ chr '@' :: r := by simpa using heq
      obtain ⟨rfl, hrest⟩ := append_inj_of_free hk' (by simp) hx (by simp) hsplit
      obtain rfl := (List.cons.inj hrest).2
      exact ⟨hk, hm⟩
  · rintro ⟨hxu, hr⟩
    have hat : [chr '@'] ∈ char '@' := cons_mem_letter.2 ⟨rfl, by simp⟩
    exact .inr ⟨x ++ [chr '@'], ⟨x, hxu, _, hat, rfl⟩, r, hr, by simp⟩

theorem authority_le : authority H u ≤ within (urlByte "%:[]@") := by
  have hW := isSubmonoid_within (urlByte "%:[]@")
  exact hW.mul (hW.optional (hW.mul (userinfo_le.trans (within_mono (urlByte_mono (by decide))))
    (char_le (by decide)))) ((hostPort_le hH).trans (within_mono (urlByte_mono (by decide))))

end Authority

/-! ## The split of a reference -/

theorem pathAbempty_le : pathAbempty u ≤ within (urlByte "%:@/") := by
  have hW := isSubmonoid_within (urlByte "%:@/")
  have hpchar : pchar u ≤ within (urlByte "%:@/") :=
    pchar_le.trans (within_mono (urlByte_mono (by decide)))
  exact hW.kstar (hW.mul (char_le (by decide)) (hW.kstar hpchar))

theorem segmentNz_le : segmentNz u ≤ within (urlByte "%:@") :=
  (isSubmonoid_within _).mul pchar_le ((isSubmonoid_within _).kstar pchar_le)

theorem segmentNzNc_le : segmentNzNc u ≤ within (urlByte "%@") := by
  rw [segmentNzNc_eq]
  have hunit : unit isPcharNc u ≤ within (urlByte "%@") :=
    unit_le urlByte_of_isPcharNc (by decide)
  exact (isSubmonoid_within _).mul hunit ((isSubmonoid_within _).kstar hunit)

/-- A word of a path that is not one of `//`. -/
theorem head_many1 (hL : L ≤ within q) (hne : ∀ w ∈ L, w ≠ []) (hw : w ∈ many1 L * M) :
    ∃ a t, w = a :: t ∧ q a = true := by
  obtain ⟨_, ⟨x, hx, y, -, rfl⟩, z, -, rfl⟩ := hw
  obtain ⟨a, t, rfl⟩ := List.exists_cons_of_ne_nil (hne x hx)
  exact ⟨a, t ++ y ++ z, by simp, hL hx a List.mem_cons_self⟩

theorem unit_ne_nil : ∀ w ∈ unit p u, w ≠ [] := by
  rintro w ((⟨a, rfl, -⟩ | hw) | hw)
  · simp
  · obtain ⟨a, t, rfl, -⟩ := mem_letter_mul.1 hw
    simp
  · cases u with
    | false => exact absurd hw (Language.notMem_zero w)
    | true =>
      rintro rfl
      have := (Text.Utf8.mem_nonAscii_iff.1 hw).2
      simp at this

theorem head_pathRootless (hw : w ∈ pathRootless u) : ∃ a t, w = a :: t ∧ a ≠ chr '/' := by
  rw [pathRootless, segmentNz, pchar_eq] at hw
  obtain ⟨a, t, rfl, ha⟩ := head_many1 (unit_le urlByte_of_isPchar (by decide)) unit_ne_nil hw
  refine ⟨a, t, rfl, ?_⟩
  rintro rfl
  exact absurd ha (by decide)

theorem head_pathNoscheme (hw : w ∈ pathNoscheme u) : ∃ a t, w = a :: t ∧ a ≠ chr '/' := by
  rw [pathNoscheme, segmentNzNc_eq] at hw
  obtain ⟨a, t, rfl, ha⟩ := head_many1 (unit_le urlByte_of_isPcharNc (by decide)) unit_ne_nil hw
  refine ⟨a, t, rfl, ?_⟩
  rintro rfl
  exact absurd ha (by decide)

theorem slashes_notMem_pathAbsolute : chr '/' :: chr '/' :: w ∉ pathAbsolute u := by
  intro hw
  rcases mem_optional.1 (cons_mem_char_mul.1 hw).2 with hw | hw
  · cases hw
  · obtain ⟨a, t, hcons, ha⟩ := head_pathRootless hw
    exact ha (List.cons.inj hcons).1.symm

/-- The paths of a URI that do not start with an authority. -/
def plainPath (isRelative u : Bool) : Language UInt8 :=
  pathAbsolute u + (if isRelative then pathNoscheme u else pathRootless u) + 1

/-- `hier-part` or `relative-part` -/
def part (H : Language UInt8) (isRelative u : Bool) : Language UInt8 :=
  netPath H u + plainPath isRelative u

theorem hierPart_eq : hierPart H u = part H false u := by
  rw [hierPart, part, plainPath, if_neg (by simp), add_assoc, add_assoc,
    ← add_assoc (pathAbsolute u)]

theorem relativePart_eq : relativePart H u = part H true u := by
  rw [relativePart, part, plainPath, if_pos rfl, add_assoc, add_assoc,
    ← add_assoc (pathAbsolute u)]

theorem slashes_notMem_plainPath {rel : Bool} : chr '/' :: chr '/' :: w ∉ plainPath rel u := by
  rintro ((hw | hw) | hw)
  · exact slashes_notMem_pathAbsolute hw
  · cases rel with
    | false =>
      obtain ⟨a, t, hcons, ha⟩ := head_pathRootless hw
      exact ha (List.cons.inj hcons).1.symm
    | true =>
      obtain ⟨a, t, hcons, ha⟩ := head_pathNoscheme hw
      exact ha (List.cons.inj hcons).1.symm
  · cases hw

theorem slashes_mem_part_iff {rel : Bool} (hH : H ≤ host u) (hx : Free (· == chr '/') x)
    (hr : Starts (· == chr '/') r) : chr '/' :: chr '/' :: (x ++ r) ∈ part H rel u ↔
      x ∈ authority H u ∧ r ∈ pathAbempty u := by
  rw [part, Language.mem_add, or_iff_left slashes_notMem_plainPath, netPath, cons_mem_char_mul,
    cons_mem_char_mul]
  simp only [true_and]
  exact append_mem_mul_iff hx hr
    (fun k hk => free_of_le (authority_le hH) (beq_chr_of_class (by decide)) hk)
    starts_kstar_letter_mul

theorem mem_part_iff {rel : Bool} (hw : ∀ t, w ≠ chr '/' :: chr '/' :: t) :
    w ∈ part H rel u ↔ w ∈ plainPath rel u := by
  rw [part, Language.mem_add, or_iff_right]
  rintro hnet
  obtain ⟨a, t, rfl, ha, ht⟩ := mem_letter_mul.1 hnet
  obtain ⟨b, t, rfl, hb, -⟩ := mem_letter_mul.1 ht
  obtain rfl : a = chr '/' := by simpa using ha
  obtain rfl : b = chr '/' := by simpa using hb
  exact hw t rfl

theorem part_le {rel : Bool} (hH : H ≤ host u) : part H rel u ≤ within (urlByte "%:@/[]") := by
  have hW := isSubmonoid_within (urlByte "%:@/[]")
  have hslash : char '/' ≤ within (urlByte "%:@/[]") := char_le (by decide)
  have hempty : pathAbempty u ≤ within (urlByte "%:@/[]") :=
    pathAbempty_le.trans (within_mono (urlByte_mono (by decide)))
  have hnz : segmentNz u ≤ within (urlByte "%:@/[]") :=
    segmentNz_le.trans (within_mono (urlByte_mono (by decide)))
  have hnc : segmentNzNc u ≤ within (urlByte "%:@/[]") :=
    segmentNzNc_le.trans (within_mono (urlByte_mono (by decide)))
  have hauthority : authority H u ≤ within (urlByte "%:@/[]") :=
    (authority_le hH).trans (within_mono (urlByte_mono (by decide)))
  refine add_le (hW.mul hslash (hW.mul hslash (hW.mul hauthority hempty)))
    (add_le (add_le (hW.mul hslash (hW.optional (hW.mul hnz hempty))) ?_) hW.one_le)
  cases rel with
  | false => exact hW.mul hnz hempty
  | true => exact hW.mul hnc hempty

/-- `[ "#" fragment ]` -/
def fragmentPart (u : Bool) : Language UInt8 := optional (char '#' * query u)

theorem starts_queryFragment : ∀ m ∈ queryFragment u, Starts isPathEnd m := by
  rintro m hm
  rcases mem_optional_mul.1 hm with hm | ⟨k, hk, t, -, rfl⟩
  · have := starts_optional_letter_mul m hm
    cases m with
    | nil => exact starts_nil
    | cons a m =>
      rw [starts_cons] at this ⊢
      simp only [isPathEnd, this, Bool.or_true]
  · obtain ⟨a, s, rfl, ha, -⟩ := mem_letter_mul.1 hk
    simp only [List.cons_append, starts_cons, isPathEnd]
    exact Bool.or_eq_true_iff.2 (.inl ha)

theorem append_mem_part_mul_iff {rel : Bool} (hH : H ≤ host u) (hx : Free isPathEnd x)
    (hr : Starts isPathEnd r) :
    x ++ r ∈ part H rel u * queryFragment u ↔ x ∈ part H rel u ∧ r ∈ queryFragment u :=
  append_mem_mul_iff hx hr
    (fun k hk => free_of_le (part_le hH) (pathEnd_of_class (by decide) (by decide)) hk)
    starts_queryFragment

theorem question_mem_queryFragment_iff (hx : Free (· == chr '#') x)
    (hr : Starts (· == chr '#') r) :
    chr '?' :: (x ++ r) ∈ queryFragment u ↔ x ∈ query u ∧ r ∈ fragmentPart u := by
  have hquery : ∀ k ∈ query u, Free (· == chr '#') k := fun k hk =>
    free_of_le query_le (beq_chr_of_class (by decide)) hk
  rw [queryFragment, mem_optional_mul, mul_assoc, cons_mem_char_mul, or_iff_right, fragmentPart]
  · simp only [true_and]
    exact append_mem_mul_iff hx hr hquery starts_optional_letter_mul
  · intro h
    exact absurd (starts_cons.1 (starts_optional_letter_mul _ h)) (by decide)

theorem mem_queryFragment_iff (hw : w.head?.any (· == chr '?') = false) :
    w ∈ queryFragment u ↔ w ∈ fragmentPart u := by
  rw [queryFragment, mem_optional_mul, mul_assoc, or_iff_left, fragmentPart]
  intro h
  obtain ⟨a, t, rfl, ha, -⟩ := mem_letter_mul.1 h
  simp [ha] at hw

end FastJsonSchema.Formats.Rfc3986
