import FastJsonSchema.Formats.Internationalised
import FastJsonSchema.Scan.Replace

/-!
# IRIs and URIs

A UTF-8 sequence that `allow_utf8` adds stands where percent triples may stand, so an IRI becomes a
URI when the bytes outside of ASCII are percent-encoded, and what becomes a URI so is an IRI when
it is well-formed (`parseUriReference_percentEncode`). A rule has this property (`Escapable`) when
its words are brought to words of the rule without the flag, and when the triples of a UTF-8
sequence may be replaced by the sequence. The delimiters of a reference are not part of a triple,
so the property goes from the rules to what they make up.
-/

namespace FastJsonSchema.Formats

open Ruby Scan Words Rfc3986

open Text.Utf8 (nonAscii isAscii nonAscii_le_within scalar wellFormed mem_scalar_iff
  mem_nonAscii_iff)

open scoped Computability

variable {p d : UInt8 → Bool} {k : Char} {a b c : UInt8} {e q r s w x y : Bytes} {u : Bool}

/-- The upper-case hexadecimal digit of a number below 16. -/
def hexUpper (n : UInt8) : UInt8 := if n < 10 then chr '0' + n else chr 'A' + (n - 10)

/-- A byte, as a percent triple when it is outside of ASCII. -/
def percentByte (c : UInt8) : Bytes :=
  if isAscii c then [c] else [chr '%', hexUpper (c / 16), hexUpper (c % 16)]

/-- The bytes outside of ASCII percent-encoded. -/
def percentEncode (s : Bytes) : Bytes := s.flatMap percentByte

example : percentEncode (str "ü.") = str "%C3%BC." := by decide

/-- A byte of a percent triple. -/
def isTripleByte (c : UInt8) : Bool := c == chr '%' || isHex c

/-- A byte of ASCII other than the percent sign. -/
def isPlain (c : UInt8) : Bool := isAscii c && !(c == chr '%')

/-! ## Triples -/

theorem percentEncode_append : percentEncode (s ++ r) = percentEncode s ++ percentEncode r :=
  List.flatMap_append

theorem percentByte_high (hc : (!isAscii c) = true) :
    ∃ a b, percentByte c = [chr '%', a, b] ∧ isHex a = true ∧ isHex b = true := by
  have hhex : ∀ c, (isHex (hexUpper (c / 16)) && isHex (hexUpper (c % 16))) = true :=
    forall_byte (by decide +kernel)
  obtain ⟨ha, hb⟩ := Bool.and_eq_true_iff.1 (hhex c)
  refine ⟨_, _, ?_, ha, hb⟩
  rw [percentByte, if_neg (by simpa using hc)]

theorem percentEncode_ascii (hs : s ∈ within isAscii) : percentEncode s = s := by
  induction s with
  | nil => rfl
  | cons c s ih =>
    obtain ⟨hc, hs⟩ := List.forall_mem_cons.1 hs
    rw [percentEncode, List.flatMap_cons, percentByte, if_pos hc]
    exact congrArg (c :: ·) (ih hs)

theorem percentEncode_high (hs : s ∈ within fun c => !isAscii c) :
    percentEncode s ∈ pctEncoded∗ := by
  induction s with
  | nil => exact Language.nil_mem_kstar _
  | cons c s ih =>
    obtain ⟨hc, hs⟩ := List.forall_mem_cons.1 hs
    obtain ⟨a, b, habc, ha, hb⟩ := percentByte_high hc
    rw [percentEncode, List.flatMap_cons, habc]
    refine append_mem_kstar ?_ (ih hs)
    rw [pctEncoded, hexdig, cons_mem_char_mul, cons_mem_letter_mul, singleton_mem_letter]
    exact ⟨rfl, ha, hb⟩

theorem pctEncoded_le_within : pctEncoded ≤ within isTripleByte := by
  have hW := isSubmonoid_within isTripleByte
  have hhex : hexdig ≤ within isTripleByte :=
    letter_le_within fun c hc => by rw [isTripleByte, hc, Bool.or_true]
  exact hW.mul (char_le (by decide)) (hW.mul hhex hhex)

theorem isAscii_of_isPlain (c : UInt8) (hc : isPlain c = true) : isAscii c = true :=
  (Bool.and_eq_true_iff.1 hc).1

/-- `e` is a UTF-8 sequence in percent triples. -/
def Encoding (e q : Bytes) : Prop := q ∈ nonAscii ∧ e = percentEncode q

theorem Encoding.cons (h : Encoding e q) : ∃ c t a b, q = c :: t ∧ (!isAscii c) = true ∧
    t ∈ within (fun c => !isAscii c) ∧ e = chr '%' :: a :: b :: percentEncode t := by
  obtain ⟨hq, rfl⟩ := h
  obtain ⟨c, t, rfl, -⟩ := head_nonAscii hq
  obtain ⟨hc, ht⟩ := List.forall_mem_cons.1 (nonAscii_le_within hq)
  obtain ⟨a, b, habc, -⟩ := percentByte_high hc
  refine ⟨c, t, a, b, rfl, hc, ht, ?_⟩
  rw [percentEncode, List.flatMap_cons, habc]
  rfl

/-- A delimiter that is no byte of a triple is none of an encoding. -/
theorem Encoding.free (hd : ∀ c, isTripleByte c = true → d c = false) (e q : Bytes)
    (h : Encoding e q) : e ≠ [] ∧ Free d e := by
  constructor
  · obtain ⟨c, t, a, b, -, -, -, rfl⟩ := h.cons
    simp
  · obtain ⟨hq, rfl⟩ := h
    exact free_of_le ((isSubmonoid_within _).kstar pctEncoded_le_within) hd
      (percentEncode_high (nonAscii_le_within hq))

theorem Encoding.not_plain (e q : Bytes) (h : Encoding e q) : ∃ a ∈ e, isPlain a = false := by
  obtain ⟨c, t, a, b, -, -, -, rfl⟩ := h.cons
  exact ⟨chr '%', List.mem_cons_self, by decide⟩

/-! ## Rules -/

/-- Encoding the words of the rule with the flag leads to words of the one without it, and the
triples of a sequence may be replaced by the sequence. -/
structure Escapable (L : Bool → Language UInt8) : Prop where
  encode : L true ≤ encodedIn percentByte (L false)
  decode : Closed Encoding (L true)

namespace Escapable

variable {K L : Bool → Language UInt8} {M : Language UInt8}

theorem const (hM : M ≤ within isPlain) : Escapable fun _ => M where
  encode w hw := by
    have hascii := percentEncode_ascii (within_mono isAscii_of_isPlain (hM hw))
    change percentEncode w ∈ M
    rw [hascii]
    exact hw
  decode := .of_le Encoding.not_plain hM

theorem add (hK : Escapable K) (hL : Escapable L) : Escapable fun u => K u + L u where
  encode := add_le (hK.encode.trans (encodedIn_mono fun _ h => .inl h))
    (hL.encode.trans (encodedIn_mono fun _ h => .inr h))
  decode := hK.decode.add hL.decode

theorem optional (hL : Escapable L) : Escapable fun u => optional (L u) where
  encode := optional_le_encodedIn hL.encode
  decode := .optional (Encoding.free (d := fun _ => false) fun _ _ => rfl) hL.decode

/-- A delimiter and a rule. -/
theorem char_mul (hk : isPlain (chr k) = true) (ht : isTripleByte (chr k) = false)
    (hL : Escapable L) : Escapable fun u => char k * L u where
  encode := mul_le_encodedIn (const (char_le hk)).encode hL.encode
  decode := .letter_mul (Encoding.free (beq_chr_of_class ht)) hL.decode

/-- Two rules, the second of which starts with a delimiter. -/
theorem mul (hd : ∀ c, isTripleByte c = true → d c = false) (hK : Escapable K) (hL : Escapable L)
    (hstarts : ∀ m ∈ L true, Starts d m) : Escapable fun u => K u * L u where
  encode := mul_le_encodedIn hK.encode hL.encode
  decode := .mul (Encoding.free hd) hK.decode hL.decode hstarts

/-- Repetitions of a rule that starts with a delimiter. -/
theorem kstar (hd : ∀ c, isTripleByte c = true → d c = false) (hL : Escapable L)
    (hstarts : ∀ w ∈ L true, Starts d w) : Escapable fun u => (L u)∗ where
  encode := kstar_le_encodedIn (hL.encode.trans (encodedIn_mono le_kstar))
  decode := .kstar (Encoding.free hd) hL.decode hstarts

/-- A well-formed word is one of the rule when its encoding is one. -/
theorem of_percentEncode (hL : Escapable L) (hs : s ∈ wellFormed)
    (h : percentEncode s ∈ L true) : s ∈ L true := by
  refine kstar_induction (P := fun s => ∀ x, x ++ percentEncode s ∈ L true → x ++ s ∈ L true)
    (fun x hx => hx) ?_ hs [] h
  intro v hv _ t _ ih x hx
  rw [percentEncode_append] at hx
  rw [← List.append_assoc]
  apply ih
  rw [List.append_assoc]
  by_cases hlen : 2 ≤ v.length
  · exact hL.decode ⟨mem_nonAscii_of_scalar hv hlen, rfl⟩ hx
  · have hascii : v ∈ within isAscii := by
      cases mem_scalar_iff.1 hv with
      | one h =>
        refine List.forall_mem_singleton.2 ?_
        simpa [isAscii, UInt8.lt_iff_toNat_lt] using Nat.lt_succ_of_le h
      | two | three | four => simp at hlen
    rwa [percentEncode_ascii hascii] at hx

end Escapable

open Escapable

/-! ## Characters -/

/-- The percent sign is the first byte of a triple. -/
theorem percent_head (x y : Bytes) (h : x ++ chr '%' :: y ∈ unit p u) : x = [] := by
  cases x with
  | nil => rfl
  | cons a x =>
    have hmem : chr '%' ∈ x ++ chr '%' :: y := by simp
    rcases h with (h | h) | h
    · have hnil := (cons_mem_letter.1 h).1
      simp at hnil
    · have hhex : x ++ chr '%' :: y ∈ within isHex := (isSubmonoid_within isHex).mul
        (letter_le_within fun _ h => h) (letter_le_within fun _ h => h) (cons_mem_char_mul.1 h).2
      exact absurd (hhex _ hmem) (by decide)
    · exact absurd (utf8NonAscii_le h _ (List.mem_cons_of_mem a hmem)) (by decide)

section Units

variable (hp : ∀ c, p c = true → isPlain c = true)

include hp

/-- A triple in front of characters is one of them. -/
theorem mem_units_of_triple (h : chr '%' :: a :: b :: r ∈ (unit p u)∗) : r ∈ (unit p u)∗ := by
  rcases mem_kstar_iff.1 h with hnil | ⟨v, hv, -, t, ht, heq⟩
  · cases hnil
  · rcases hv with (⟨c, rfl, hc⟩ | hv) | hv
    · obtain rfl : chr '%' = c := (List.cons.inj heq).1
      exact absurd (hp _ hc) (by decide)
    · obtain ⟨a', v, rfl, -, hv⟩ := mem_letter_mul.1 hv
      obtain ⟨b', v, rfl, -, c', rfl, -⟩ := mem_letter_mul.1 hv
      simp only [List.cons_append, List.nil_append, List.cons.injEq] at heq
      obtain ⟨-, -, -, rfl⟩ := heq
      exact ht
    · cases v with
      | nil => exact absurd rfl (utf8NonAscii_ne_nil _ hv)
      | cons c v =>
        obtain rfl : chr '%' = c := (List.cons.inj heq).1
        exact absurd (utf8NonAscii_le hv _ List.mem_cons_self) (by decide)

theorem mem_units_of_percentEncode (hs : s ∈ within fun c => !isAscii c)
    (h : percentEncode s ++ r ∈ (unit p u)∗) : r ∈ (unit p u)∗ := by
  induction s with
  | nil => exact h
  | cons c s ih =>
    obtain ⟨hc, hs⟩ := List.forall_mem_cons.1 hs
    obtain ⟨a, b, habc, -⟩ := percentByte_high hc
    rw [percentEncode, List.flatMap_cons, habc, List.append_assoc] at h
    exact ih hs (mem_units_of_triple hp h)

theorem units_escapable : Escapable fun u => (unit p u)∗ where
  encode := by
    apply kstar_le_encodedIn
    intro w hw
    have hkeep : ∀ w ∈ within isAscii, w ∈ unit p false → w.flatMap percentByte ∈
        (unit p false)∗ := by
      intro w hascii hw
      change percentEncode w ∈ (unit p false)∗
      rw [percentEncode_ascii hascii]
      exact (le_kstar : unit p false ≤ (unit p false)∗) hw
    rcases hw with (hw | hw) | hw
    · exact hkeep w (letter_le_within (fun c hc => isAscii_of_isPlain c (hp c hc)) hw)
        (.inl (.inl hw))
    · exact hkeep w (ascii_pctEncoded.false_le hw) (.inl (.inr hw))
    · have hle : pctEncoded ≤ unit p false := fun _ h => .inl (.inr h)
      exact kstar_mono hle (percentEncode_high (nonAscii_le_within hw))
  decode := by
    intro x e q y h hw
    obtain ⟨c, t, a, b, -, -, ht, rfl⟩ := h.cons
    obtain ⟨hx, hy⟩ := append_cons_mem_kstar percent_head hw
    have hy := mem_units_of_percentEncode hp ht (mem_units_of_triple hp hy)
    have hqy : q ++ y ∈ (unit p true)∗ := append_mem_kstar (.inr h.1) hy
    exact (isSubmonoid_kstar _).mul_le (Language.append_mem_mul hx hqy)

theorem many1_units_escapable : Escapable fun u => many1 (unit p u) where
  encode w hw := by
    obtain ⟨hw, hne⟩ := (mem_many1_iff unit_ne_nil).1 hw
    refine (mem_many1_iff unit_ne_nil).2 ⟨(units_escapable hp).encode hw, ?_⟩
    obtain ⟨c, w, rfl⟩ := List.exists_cons_of_ne_nil hne
    rw [List.flatMap_cons, percentByte]
    split_ifs <;> simp
  decode := by
    intro x e q y h hw
    obtain ⟨hw, -⟩ := (mem_many1_iff unit_ne_nil).1 hw
    refine (mem_many1_iff unit_ne_nil).2 ⟨(units_escapable hp).decode h hw, ?_⟩
    obtain ⟨c, t, a, b, rfl, -⟩ := h.cons
    simp

end Units

/-! ## Hosts -/

/-- What an encoding starts with, of ASCII without percent signs, the word starts with. -/
theorem append_of_percentEncode (hx : x ∈ within isPlain) (h : percentEncode w = x ++ y) :
    ∃ r, w = x ++ r ∧ percentEncode r = y := by
  induction x generalizing w with
  | nil => exact ⟨w, rfl, h⟩
  | cons a x ih =>
    obtain ⟨ha, hrest⟩ := List.forall_mem_cons.1 hx
    cases w with
    | nil => cases h
    | cons c w =>
      rw [percentEncode, List.flatMap_cons] at h
      cases hc : isAscii c with
      | true =>
        rw [percentByte, if_pos hc] at h
        obtain ⟨rfl, htail⟩ := List.cons.inj h
        obtain ⟨r, rfl, hr⟩ := ih hrest htail
        exact ⟨r, rfl, hr⟩
      | false =>
        obtain ⟨b, b', hb, -⟩ := percentByte_high (c := c) (by rw [hc]; rfl)
        rw [hb] at h
        obtain rfl : chr '%' = a := (List.cons.inj h).1
        exact absurd ha (by decide)

theorem isPlain_of_isIpv4Byte (c : UInt8) (hc : isIpv4Byte c = true) : isPlain c = true := by
  have hbyte : ∀ c, (!isIpv4Byte c || isPlain c) = true := forall_byte (by decide +kernel)
  simpa [hc] using hbyte c

/-- An address and what stops `parse_host` after it are kept. -/
theorem ipv4Prefixed_of_percentEncode (h : percentEncode w ∈ ipv4Prefixed) :
    w ∈ ipv4Prefixed := by
  obtain ⟨x, c, y, heq, hx, hc⟩ := h
  have hplain : x ∈ within isPlain := fun a ha => isPlain_of_isIpv4Byte a (ipv4Address_le hx a ha)
  obtain ⟨r, rfl, hr⟩ := append_of_percentEncode hplain heq
  cases r with
  | nil => cases hr
  | cons b r =>
    refine ⟨x, b, r, rfl, hx, ?_⟩
    rw [percentEncode, List.flatMap_cons] at hr
    cases hb : isAscii b with
    | true =>
      rw [percentByte, if_pos hb] at hr
      obtain rfl : b = c := (List.cons.inj hr).1
      exact hc
    | false =>
      rw [← Bool.not_eq_true]
      intro hbyte
      have hascii := isAscii_of_isPlain b (isPlain_of_isIpv4Byte b hbyte)
      rw [hb] at hascii
      cases hascii

theorem ipv4Prefixed_of_encoding (h : Encoding e q) (hw : x ++ (q ++ y) ∈ ipv4Prefixed) :
    x ++ (e ++ y) ∈ ipv4Prefixed := by
  obtain ⟨c, t, a, b, rfl, hc, -, rfl⟩ := h.cons
  obtain ⟨v, d, z, heq, hv, hd⟩ := hw
  rcases List.append_eq_append_iff.1 heq with ⟨s, rfl, hs⟩ | ⟨s, rfl, hs⟩
  · cases s with
    | nil =>
      rw [List.append_nil] at hv
      exact ⟨x, chr '%', _, rfl, hv, by decide⟩
    | cons c' s =>
      obtain rfl : c = c' := (List.cons.inj hs).1
      have hbyte := ipv4Address_le hv c (by simp)
      rw [isAscii_of_isPlain c (isPlain_of_isIpv4Byte c hbyte)] at hc
      cases hc
  · cases s with
    | nil =>
      rw [List.append_nil]
      exact ⟨v, chr '%', _, rfl, hv, by decide⟩
    | cons d' s =>
      obtain rfl : d = d' := (List.cons.inj hs).1
      refine ⟨v, d, s ++ (chr '%' :: a :: b :: percentEncode t ++ y), ?_, hv, hd⟩
      rw [List.append_assoc, List.cons_append]

theorem plain_of_class (hlt : ∀ c, p c = true → c < 0x80) (hpct : p (chr '%') = false) (c : UInt8)
    (hc : p c = true) : isPlain c = true := by
  rw [isPlain, Bool.and_eq_true, Bool.not_eq_true']
  exact ⟨by simpa [isAscii] using hlt c hc, beq_chr_of_class hpct c hc⟩

theorem regName_escapable : Escapable regName := by
  have hregName : regName = fun u => (unit isRegName u)∗ := funext fun _ => regName_eq
  rw [hregName]
  exact units_escapable (plain_of_class isRegName_lt (by decide))

theorem readHost_escapable : Escapable readHost := by
  have hW := isSubmonoid_within (urlByte ":[]")
  have hbytes : ipLiteral ≤ within (urlByte ":[]") := hW.mul (char_le (by decide))
    (hW.mul (literalBody_le.trans (within_mono (urlByte_mono (by decide)))) (char_le (by decide)))
  have hliteral : ipLiteral ≤ within isPlain := by
    intro w hw c hc
    rw [isPlain, Bool.and_eq_true, Bool.not_eq_true']
    exact ⟨ascii_ipLiteral.false_le hw c hc, beq_chr_of_class (by decide) c (hbytes hw c hc)⟩
  have haddress : ipv4Address ≤ within isPlain :=
    ipv4Address_le.trans (within_mono isPlain_of_isIpv4Byte)
  have hhost : Escapable host := ((const hliteral).add (const haddress)).add regName_escapable
  constructor
  · rintro w ⟨hw, hnot⟩
    exact ⟨hhost.encode hw, fun h => hnot (ipv4Prefixed_of_percentEncode h)⟩
  · rintro x e q y h ⟨hw, hnot⟩
    exact ⟨hhost.decode h hw, fun hmem => hnot (ipv4Prefixed_of_encoding h hmem)⟩

/-! ## References -/

theorem pchar_plain : ∀ c, isPchar c = true → isPlain c = true :=
  plain_of_class isPchar_lt (by decide)

theorem segmentNz_escapable : Escapable segmentNz := by
  have hsegment : segmentNz = fun u => many1 (unit isPchar u) := funext fun _ => by
    rw [segmentNz, pchar_eq]
  rw [hsegment]
  exact many1_units_escapable pchar_plain

theorem segmentNzNc_escapable : Escapable segmentNzNc := by
  have hsegment : segmentNzNc = fun u => many1 (unit isPcharNc u) := funext fun _ => segmentNzNc_eq
  rw [hsegment]
  exact many1_units_escapable (plain_of_class isPcharNc_lt (by decide))

theorem query_escapable : Escapable query := by
  have hquery : query = fun u => (unit isQuery u)∗ := funext fun _ => query_eq
  rw [hquery]
  exact units_escapable (plain_of_class
    (lt_of_or_chr (lt_of_or_chr isPchar_lt (by decide)) (by decide)) (by decide))

theorem userinfo_escapable : Escapable userinfo := by
  have huserinfo : userinfo = fun u => (unit isUserinfo u)∗ := funext fun _ => userinfo_eq
  rw [huserinfo]
  exact units_escapable (plain_of_class (lt_of_or_chr isRegName_lt (by decide)) (by decide))

theorem pathAbempty_escapable : Escapable pathAbempty := by
  have hsegment : Escapable Rfc3986.segment := by
    have heq : Rfc3986.segment = fun u => (unit isPchar u)∗ := funext fun _ => by
      rw [Rfc3986.segment, pchar_eq]
    rw [heq]
    exact units_escapable pchar_plain
  exact (hsegment.char_mul (by decide) (by decide)).kstar (beq_chr_of_class (by decide))
    starts_letter_mul

/-- A first segment and the rest of a path. -/
theorem path_escapable {L : Bool → Language UInt8} (hL : Escapable L) :
    Escapable fun u => L u * pathAbempty u :=
  .mul (beq_chr_of_class (by decide)) hL pathAbempty_escapable starts_kstar_letter_mul

theorem authority_escapable : Escapable fun u => authority (readHost u) u := by
  have hport : Escapable fun _ => Words.optional (char ':' * port) :=
    (const ((isSubmonoid_within isPlain).kstar (letter_le_within (q := isPlain)
      (plain_of_class isDigit_lt (by decide))))).char_mul (by decide) (by decide) |>.optional
  have hhost : Escapable fun u => hostPort (readHost u) :=
    .mul (beq_chr_of_class (by decide)) readHost_escapable hport starts_optional_letter_mul
  have heq : (fun u => authority (readHost u) u) =
      fun u => hostPort (readHost u) + userinfo u * (char '@' * hostPort (readHost u)) := by
    funext u
    rw [authority, Words.optional, add_mul, one_mul, mul_assoc]
  rw [heq]
  exact hhost.add (.mul (beq_chr_of_class (by decide)) userinfo_escapable
    (hhost.char_mul (by decide) (by decide)) starts_letter_mul)

theorem netPath_escapable : Escapable fun u => netPath (readHost u) u :=
  ((path_escapable authority_escapable).char_mul (by decide) (by decide)).char_mul (by decide)
    (by decide)

theorem pathAbsolute_escapable : Escapable pathAbsolute :=
  (path_escapable segmentNz_escapable).optional.char_mul (by decide) (by decide)

theorem one_escapable : Escapable fun _ => 1 := const (isSubmonoid_within isPlain).one_le

/-- A part in front of the query and the fragment. -/
theorem queryFragment_escapable {L : Bool → Language UInt8} (hL : Escapable L) :
    Escapable fun u => L u * queryFragment u := by
  have hquery : Escapable queryFragment :=
    .mul (beq_chr_of_class (by decide)) (query_escapable.char_mul (by decide) (by decide)).optional
      (query_escapable.char_mul (by decide) (by decide)).optional starts_optional_letter_mul
  exact .mul (pathEnd_of_class (by decide) (by decide)) hL hquery starts_queryFragment

theorem uriOver_escapable : Escapable fun u => uriOver (readHost u) u := by
  have hlow : ∀ c, isSchemeChar c = true → c < 0x80 := fun c =>
    lt_of_or (lt_of_or (isAlpha_lt c) (isDigit_lt c)) (lt_of_contains (by decide))
  have hscheme : scheme ≤ within isPlain :=
    scheme_le.trans (within_mono (plain_of_class hlow (by decide)))
  have hpart : Escapable fun u => hierPart (readHost u) u :=
    ((netPath_escapable.add pathAbsolute_escapable).add
      (path_escapable segmentNz_escapable)).add one_escapable
  exact .mul (beq_chr_of_class (by decide)) (const hscheme)
    ((queryFragment_escapable hpart).char_mul (by decide) (by decide)) starts_letter_mul

theorem reference_escapable (requireScheme : Bool) :
    Escapable fun u => reference requireScheme (readHost u) u := by
  have hpart : Escapable fun u => relativePart (readHost u) u :=
    ((netPath_escapable.add pathAbsolute_escapable).add
      (path_escapable segmentNzNc_escapable)).add one_escapable
  cases requireScheme with
  | true => exact uriOver_escapable
  | false => exact uriOver_escapable.add (queryFragment_escapable hpart)

/-- **IRIs are the well-formed strings that percent-encoding makes URIs.** -/
theorem parseUriReference_percentEncode (requireScheme : Bool) (s : Bytes) :
    parseUriReference requireScheme true s = .ok true ↔
      (∃ cs : List Char, s = cs.flatMap String.utf8EncodeChar) ∧
        parseUriReference requireScheme false (percentEncode s) = .ok true := by
  have hconserves := reference_conserves requireScheme
  have hencodable := reference_escapable requireScheme
  rw [(parseUriReference_decides requireScheme true).eq_ok,
    (parseUriReference_decides requireScheme false).eq_ok, ← Text.Utf8.mem_wellFormed_iff]
  constructor
  · intro hs
    exact ⟨hconserves.wellFormed hs, hencodable.encode hs⟩
  · rintro ⟨hs, h⟩
    have hle : reference requireScheme (readHost false) false ≤
        reference requireScheme (readHost true) true := hconserves.restrict ▸ inf_le_left
    exact hencodable.of_percentEncode hs (hle h)

end FastJsonSchema.Formats
