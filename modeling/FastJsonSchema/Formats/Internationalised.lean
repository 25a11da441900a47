import FastJsonSchema.Formats.Hostname
import FastJsonSchema.Formats.MailDomain
import FastJsonSchema.Formats.UriReference

/-!
# The internationalised modes

A grammar with a flag that adds UTF-8 sequences to it is conservative (`Conserves`) when it
restricts to the grammar without them on ASCII and has well-formed words only. The operations on
grammars keep that, so it holds of the references, the mail addresses and the host names by their
rules, and with it of the parsers that decide them (`parsers_conservative`).
-/

namespace FastJsonSchema.Formats

open Ruby Scan Words Rfc3986

open Text.Utf8 (nonAscii isAscii wellFormed within_isAscii_le_wellFormed nonAscii_le_wellFormed
  nonAscii_le_within)

open scoped Computability

/-- The grammar with the flag restricts to the one without it on ASCII, and its words are
well-formed. -/
structure Conserves (L : Bool → Language UInt8) : Prop where
  restrict : L true ⊓ within isAscii = L false
  wellFormed : L true ≤ wellFormed

namespace Conserves

variable {K L : Bool → Language UInt8} {M : Language UInt8}

theorem false_le (h : Conserves L) : L false ≤ within isAscii := by
  rw [← h.restrict]
  exact inf_le_right

theorem const (hM : M ≤ within isAscii) : Conserves fun _ => M where
  restrict := inf_within_of_le hM
  wellFormed := hM.trans within_isAscii_le_wellFormed

theorem add (hK : Conserves K) (hL : Conserves L) : Conserves fun u => K u + L u where
  restrict := by rw [inf_within_add, hK.restrict, hL.restrict]
  wellFormed := add_le hK.wellFormed hL.wellFormed

theorem mul (hK : Conserves K) (hL : Conserves L) : Conserves fun u => K u * L u where
  restrict := by rw [inf_within_mul, hK.restrict, hL.restrict]
  wellFormed := (isSubmonoid_kstar _).mul hK.wellFormed hL.wellFormed

theorem kstar (hL : Conserves L) : Conserves fun u => (L u)∗ where
  restrict := by rw [inf_within_kstar, hL.restrict]
  wellFormed := (isSubmonoid_kstar _).kstar hL.wellFormed

theorem many1 (hL : Conserves L) : Conserves fun u => many1 (L u) := hL.mul hL.kstar

theorem optional (hL : Conserves L) : Conserves fun u => optional (L u) where
  restrict := by rw [inf_within_optional, hL.restrict]
  wellFormed := (isSubmonoid_kstar _).optional hL.wellFormed

theorem inf (hL : Conserves L) : Conserves fun u => L u ⊓ M where
  restrict := by rw [inf_right_comm, hL.restrict]
  wellFormed := inf_le_left.trans hL.wellFormed

theorem sub (hL : Conserves L) : Conserves fun u => L u - M where
  restrict := by rw [inf_within_sub, hL.restrict]
  wellFormed := fun _ hw => hL.wellFormed hw.1

end Conserves

open Conserves

theorem utf8NonAscii_conserves : Conserves utf8NonAscii where
  restrict := by
    refine le_antisymm ?_ bot_le
    rintro w ⟨hw, hascii⟩
    obtain ⟨c, t, rfl, hc, -⟩ := head_nonAscii hw
    have hlow : isAscii c = true := hascii c List.mem_cons_self
    exact absurd (by simpa [isAscii] using hlow) hc
  wellFormed := nonAscii_le_wellFormed

/-! ## ASCII rules -/

variable {p : UInt8 → Bool} {k : Char}

theorem ascii_char (hk : isAscii (chr k) = true) : Conserves fun _ => char k := const (char_le hk)

theorem ascii_letter (hp : ∀ c, p c = true → c < 0x80) : Conserves fun _ => letter p :=
  const (letter_le_within fun c hc => by simpa [isAscii] using hp c hc)

theorem ascii_range {a b : Char} (hb : isAscii (chr b) = true) : Conserves fun _ => range a b := by
  refine ascii_letter fun c hc => ?_
  have hle : c ≤ chr b := (by simpa using hc : chr a ≤ c ∧ c ≤ chr b).2
  exact UInt8.lt_of_le_of_lt hle (by simpa [isAscii] using hb)

theorem ascii_oneOf {s : String} (hs : (str s).all isAscii = true) : Conserves fun _ => oneOf s :=
  const (letter_le_within fun c hc => List.all_eq_true.1 hs c (by simpa using hc))

theorem ascii_one : Conserves fun _ => 1 := const (isSubmonoid_within _).one_le

theorem ascii_alpha : Conserves fun _ => alpha :=
  (ascii_range (by decide)).add (ascii_range (by decide))

theorem ascii_digit : Conserves fun _ => digit := ascii_range (a := '0') (b := '9') (by decide)

theorem ascii_hexdig : Conserves fun _ => hexdig := ascii_letter isHex_lt

theorem isIpv6Byte_lt (c : UInt8) (hc : isIpv6Byte c = true) : isAscii c = true := by
  rw [isAscii, decide_eq_true_eq]
  exact lt_of_or (isHex_lt c) (lt_of_contains (by decide)) hc

theorem ascii_ipv4Address : Conserves fun _ => ipv4Address := by
  have hbyte : ∀ c, isIpv4Byte c = true → isAscii c = true := fun c hc =>
    isIpv6Byte_lt c (isIpv6Byte_of_isIpv4Byte c hc)
  exact const (ipv4Address_le.trans (within_mono hbyte))

theorem ascii_ipv6 : Conserves fun _ => ipv6 := const (ipv6_le.trans (within_mono isIpv6Byte_lt))

/-! ## References -/

theorem unreserved_conserves : Conserves unreserved :=
  ((ascii_alpha.add ascii_digit).add (ascii_oneOf (by decide))).add utf8NonAscii_conserves

theorem ascii_subDelims : Conserves fun _ => subDelims := ascii_oneOf (by decide)

theorem ascii_pctEncoded : Conserves fun _ => pctEncoded :=
  (ascii_char (by decide)).mul (ascii_hexdig.mul ascii_hexdig)

theorem pchar_conserves : Conserves pchar :=
  (((unreserved_conserves.add ascii_pctEncoded).add ascii_subDelims).add
    (ascii_char (by decide))).add (ascii_char (by decide))

theorem segmentNz_conserves : Conserves segmentNz := pchar_conserves.many1

theorem segmentNzNc_conserves : Conserves segmentNzNc :=
  (((unreserved_conserves.add ascii_pctEncoded).add ascii_subDelims).add
    (ascii_char (by decide))).many1

theorem pathAbempty_conserves : Conserves pathAbempty :=
  ((ascii_char (by decide)).mul pchar_conserves.kstar).kstar

theorem query_conserves : Conserves query :=
  ((pchar_conserves.add (ascii_char (by decide))).add (ascii_char (by decide))).kstar

theorem userinfo_conserves : Conserves userinfo :=
  (((unreserved_conserves.add ascii_pctEncoded).add ascii_subDelims).add
    (ascii_char (by decide))).kstar

theorem regName_conserves : Conserves regName :=
  ((unreserved_conserves.add ascii_pctEncoded).add ascii_subDelims).kstar

theorem ascii_ipvFuture : Conserves fun _ => ipvFuture :=
  ((ascii_char (by decide)).add (ascii_char (by decide))).mul
    (ascii_hexdig.many1.mul ((ascii_char (by decide)).mul
      (((const unreserved_conserves.false_le).add ascii_subDelims).add
        (ascii_char (by decide))).many1))

theorem ascii_ipLiteral : Conserves fun _ => ipLiteral :=
  (ascii_char (by decide)).mul ((ascii_ipv6.add ascii_ipvFuture).mul (ascii_char (by decide)))

theorem readHost_conserves : Conserves readHost :=
  ((ascii_ipLiteral.add ascii_ipv4Address).add regName_conserves).sub

theorem netPath_conserves : Conserves fun u => netPath (readHost u) u :=
  (ascii_char (by decide)).mul ((ascii_char (by decide)).mul
    (((userinfo_conserves.mul (ascii_char (by decide))).optional.mul
      (readHost_conserves.mul ((ascii_char (by decide)).mul ascii_digit.kstar).optional)).mul
        pathAbempty_conserves))

theorem pathAbsolute_conserves : Conserves pathAbsolute :=
  (ascii_char (by decide)).mul (segmentNz_conserves.mul pathAbempty_conserves).optional

theorem hierPart_conserves : Conserves fun u => hierPart (readHost u) u :=
  ((netPath_conserves.add pathAbsolute_conserves).add
    (segmentNz_conserves.mul pathAbempty_conserves)).add ascii_one

theorem relativePart_conserves : Conserves fun u => relativePart (readHost u) u :=
  ((netPath_conserves.add pathAbsolute_conserves).add
    (segmentNzNc_conserves.mul pathAbempty_conserves)).add ascii_one

theorem queryFragment_conserves : Conserves queryFragment :=
  ((ascii_char (by decide)).mul query_conserves).optional.mul
    ((ascii_char (by decide)).mul query_conserves).optional

theorem ascii_scheme : Conserves fun _ => scheme :=
  ascii_alpha.mul ((ascii_alpha.add ascii_digit).add (ascii_oneOf (by decide))).kstar

theorem uriOver_conserves : Conserves fun u => uriOver (readHost u) u :=
  ascii_scheme.mul ((ascii_char (by decide)).mul
    (hierPart_conserves.mul queryFragment_conserves))

theorem reference_conserves (requireScheme : Bool) :
    Conserves fun u => reference requireScheme (readHost u) u := by
  cases requireScheme with
  | true => exact uriOver_conserves
  | false => exact uriOver_conserves.add (relativePart_conserves.mul queryFragment_conserves)

/-! ## Mail addresses and host names -/

theorem charOf_conserves (hp : ∀ c, p c = true → c < 0x80) : Conserves (charOf p) :=
  (ascii_letter hp).add utf8NonAscii_conserves

theorem dotAtomText_conserves : Conserves dotAtomText := by
  have hatext : Conserves atext :=
    ((ascii_alpha.add ascii_digit).add (ascii_oneOf (by decide))).add utf8NonAscii_conserves
  exact hatext.many1.mul ((ascii_char (by decide)).mul hatext.many1).kstar

theorem quotedString_conserves : Conserves quotedString := by
  have hqtext : Conserves fun _ => qtext :=
    ((ascii_char (by decide)).add (ascii_range (by decide))).add (ascii_range (by decide))
  have hwsp : Conserves fun _ => wsp := (ascii_char (by decide)).add (ascii_char (by decide))
  have hpair : Conserves fun _ => char backslash * (vchar + wsp) :=
    (ascii_char (by decide)).mul ((ascii_range (by decide)).add hwsp)
  have hqcontent : Conserves qcontent := ((hqtext.add hwsp).add hpair).add utf8NonAscii_conserves
  exact (ascii_char (by decide)).mul (hqcontent.kstar.mul (ascii_char (by decide)))

theorem isLdh_lt (c : UInt8) (hc : isLdh c = true) : isAscii c = true := by
  rw [isAscii, decide_eq_true_eq]
  exact lt_of_or_chr isLetDig_lt (by decide) c hc

theorem literalBody_conserves : Conserves literalBody := by
  have htag : Conserves fun _ => tag :=
    const fun w hw c hc => isLdh_lt c (ldhStr_le hw.1 c hc)
  have hcontent : Conserves dcontent :=
    ((ascii_range (by decide)).add (ascii_range (by decide))).add utf8NonAscii_conserves
  have hsix : Conserves fun _ => ipv6Literal := by
    refine const ?_
    rintro _ ⟨x, rfl, hx⟩
    have htag : ∀ c ∈ str "IPv6:", isAscii c = true := List.all_eq_true.1 (by decide)
    exact List.forall_mem_append.2
      ⟨htag, fun c hc => isIpv6Byte_lt c (bytes_of_parseIpv6 hx c hc)⟩
  exact (ascii_ipv4Address.add hsix).add (htag.mul ((ascii_char (by decide)).mul hcontent.many1))

theorem domain_conserves : Conserves domain :=
  (dotAtomText_conserves.mul (ascii_char (by decide)).optional).add
    ((ascii_char (by decide)).mul (literalBody_conserves.mul (ascii_char (by decide))))

theorem addrSpec_conserves : Conserves addrSpec :=
  (dotAtomText_conserves.add quotedString_conserves).inf.mul
    ((ascii_char (by decide)).mul domain_conserves.inf)

theorem hostname_conserves : Conserves hostname := by
  have hlabel : Conserves label := (charOf_conserves isLetDigHyp_lt).kstar.inf.inf
  exact (hlabel.mul (((ascii_char (by decide)).mul hlabel).kstar.mul
    (ascii_char (by decide)).optional)).inf

/-! ## The parsers -/

/-- A parser with the flag extends the one without it: what is accepted without it is ASCII, on
ASCII both give the same answer, and what is accepted with it is well-formed. -/
structure Conservative (parse : Bool → Bytes → Result Bool) : Prop where
  ascii : ∀ s, parse false s = .ok true → ∀ c ∈ s, c < 0x80
  same : ∀ s, (∀ c ∈ s, c < 0x80) → parse true s = parse false s
  wellFormed : ∀ s, parse true s = .ok true →
    ∃ cs : List Char, s = cs.flatMap String.utf8EncodeChar

theorem Conservative.of_decides {parse : Bool → Bytes → Result Bool} {L : Bool → Language UInt8}
    (hparse : ∀ u, Decides (parse u) (L u)) (h : Conserves L) : Conservative parse where
  ascii s hs c hc := by
    have hascii := h.false_le ((hparse false).eq_ok.1 hs) c hc
    simpa [isAscii] using hascii
  same s hs := by
    have hascii : s ∈ within isAscii := fun c hc => by simpa [isAscii] using hs c hc
    have hiff : s ∈ L true ↔ s ∈ L false := by
      rw [← h.restrict, Language.mem_inf, and_iff_left hascii]
    obtain ⟨b, hb, hbL⟩ := hparse true s
    obtain ⟨d, hd, hdL⟩ := hparse false s
    rw [hb, hd, Bool.eq_iff_iff.2 (hbL.trans (hiff.trans hdL.symm))]
  wellFormed s hs := Text.Utf8.mem_wellFormed_iff.1 (h.wellFormed ((hparse true).eq_ok.1 hs))

/-- **The internationalised modes.** They are conservative extensions of the ASCII ones. -/
theorem parsers_conservative :
    (∀ requireScheme, Conservative fun allowUtf8 => parseUriReference requireScheme allowUtf8) ∧
      Conservative parseAddrSpec ∧ Conservative parseHostname :=
  ⟨fun requireScheme => .of_decides (parseUriReference_decides requireScheme)
      (reference_conserves requireScheme),
    .of_decides parseAddrSpec_decides addrSpec_conserves,
    .of_decides parseHostname_decides hostname_conserves⟩

end FastJsonSchema.Formats
