import FastJsonSchema.Formats.MailDomain

/-!
# Address literals with the tag of IPv6

`parse_ipv6_literal` takes the tag in one spelling. A literal with another spelling is a
`General-address-literal`, whatever follows its colon (`mem_literalBody_iff`).
-/

namespace FastJsonSchema.Formats

open Ruby Scan Words

open scoped Computability

variable {T x : Bytes} {u : Bool}

/-- The tag of an IPv6 address, in any case of its letters. -/
def ipv6Tag : Language UInt8 := oneOf "Ii" * (oneOf "Pp" * (oneOf "Vv" * char '6'))

theorem mem_ipv6Tag_iff : T ∈ ipv6Tag ↔ ∃ a ∈ str "Ii", ∃ b ∈ str "Pp", ∃ c ∈ str "Vv",
    T = [a, b, c, chr '6'] := by
  simp only [ipv6Tag, oneOf, mem_letter_mul, List.contains_iff_mem]
  constructor
  · rintro ⟨a, _, rfl, ha, b, _, rfl, hb, c, _, rfl, hc, d, rfl, hd⟩
    exact ⟨a, ha, b, hb, c, hc, by rw [beq_iff_eq.1 hd]⟩
  · rintro ⟨a, ha, b, hb, c, hc, rfl⟩
    exact ⟨a, _, rfl, ha, b, _, rfl, hb, c, _, rfl, hc, _, rfl, beq_self_eq_true _⟩

theorem ldhStr_of_ipv6Tag (hT : T ∈ ipv6Tag) : T ∈ ldhStr ∧ ∃ c ∈ T, isAlpha c = true := by
  obtain ⟨a, ha, b, hb, c, hc, rfl⟩ := mem_ipv6Tag_iff.1 hT
  have hI : ∀ a ∈ str "Ii", isAlpha a = true := List.all_eq_true.1 (by decide)
  have hP : ∀ b ∈ str "Pp", isLdh b = true := List.all_eq_true.1 (by decide)
  have hV : ∀ c ∈ str "Vv", isLdh c = true := List.all_eq_true.1 (by decide)
  have hsix : isLdh (chr '6') = true := by decide
  have hfirst : [a] ∈ letDig := by
    rw [letDig_eq, singleton_mem_letter, isLetDig, hI a ha, Bool.true_or]
  refine ⟨⟨[a], hfirst, [b, c, chr '6'], mem_ldhTail_iff.2 ⟨?_, ?_⟩, rfl⟩, a, List.mem_cons_self,
    hI a ha⟩
  · exact List.forall_mem_cons.2 ⟨hP b hb, List.forall_mem_cons.2 ⟨hV c hc,
      List.forall_mem_singleton.2 hsix⟩⟩
  · rw [show [b, c, chr '6'].getLast? = some (chr '6') from rfl]
    decide

theorem mem_tag_iff (hT : T ∈ ipv6Tag) : T ∈ tag ↔ T ≠ str "IPv6" :=
  ⟨fun h => h.2.2, fun h => ⟨(ldhStr_of_ipv6Tag hT).1, (ldhStr_of_ipv6Tag hT).2, h⟩⟩

theorem append_notMem_ipv4Address (hT : T ∈ ipv6Tag) : T ++ x ∉ ipv4Address := by
  obtain ⟨-, c, hc, hletter⟩ := ldhStr_of_ipv6Tag hT
  intro h
  have hbyte := ipv4Address_le h c (List.mem_append_left x hc)
  clear hc
  revert c
  exact forall_byte (by decide +kernel)

theorem append_mem_ipv6Literal_iff (hT : T ∈ ipv6Tag) :
    T ++ chr ':' :: x ∈ ipv6Literal ↔ T = str "IPv6" ∧ parseIpv6 x = .ok true := by
  obtain ⟨a, -, b, -, c, -, rfl⟩ := mem_ipv6Tag_iff.1 hT
  constructor
  · rintro ⟨z, h, hz⟩
    have hcut : [a, b, c, chr '6'] ++ chr ':' :: x = str "IPv6" ++ chr ':' :: z := h
    obtain ⟨htag, htail⟩ := List.append_inj hcut rfl
    rw [(List.cons.inj htail).2]
    exact ⟨htag, hz⟩
  · rintro ⟨htag, hx⟩
    exact ⟨x, by rw [htag]; rfl, hx⟩

/-- With another spelling of the tag, the body is that of a `General-address-literal`. -/
theorem mem_literalBody_iff (hT : T ∈ ipv6Tag) : T ++ chr ':' :: x ∈ literalBody u ↔
    (T = str "IPv6" ∧ parseIpv6 x = .ok true) ∨ (T ≠ str "IPv6" ∧ x ∈ many1 (dcontent u)) := by
  have hfree : Free (· == chr ':') T := fun c hc =>
    beq_chr_of_class (by decide) c (ldhStr_le (ldhStr_of_ipv6Tag hT).1 c hc)
  have hcolon : Starts (· == chr ':') (chr ':' :: x) := starts_cons.2 (beq_self_eq_true _)
  rw [literalBody, Language.mem_add, Language.mem_add, or_iff_right (append_notMem_ipv4Address hT),
    append_mem_ipv6Literal_iff hT, append_mem_generalAddressLiteral_iff hfree hcolon,
    mem_tag_iff hT, mem_many1_iff dcontent_ne_nil]
  refine or_congr_right (and_congr_right fun _ => ?_)
  constructor
  · rintro ⟨t, h, hne, ht⟩
    rw [(List.cons.inj h).2]
    exact ⟨ht, hne⟩
  · rintro ⟨hx, hne⟩
    exact ⟨x, rfl, hne, hx⟩

theorem mem_domain_iff {w : Bytes} :
    chr '[' :: (w ++ [chr ']']) ∈ domain u ↔ w ∈ literalBody u := by
  rw [domain, Language.mem_add, cons_mem_char_mul]
  constructor
  · rintro (⟨a, ha, b, -, h⟩ | ⟨-, l, hl, _, ⟨c, rfl, hc⟩, h⟩)
    · obtain ⟨c, t, rfl, -, hc⟩ := head_of_dotAtomText ha
      exact absurd (List.cons.inj h).1 hc
    · rwa [← (List.append_inj' h rfl).1]
  · intro hw
    exact .inr ⟨rfl, Language.append_mem_mul hw (singleton_mem_letter.2 (beq_self_eq_true _))⟩

theorem mem_localPart_u : str "u" ∈ localPart u := by
  have hatext : str "u" ∈ atext u := by
    rw [atext_eq]
    exact .inl (singleton_mem_letter.2 (by decide))
  have hmany : str "u" ∈ many1 (atext u) :=
    ⟨_, hatext, [], Language.nil_mem_kstar _, List.append_nil _⟩
  exact .inl ⟨_, hmany, [], Language.nil_mem_kstar _, List.append_nil _⟩

/-- The tag, a colon and the body in brackets, after the local part `u`. -/
theorem parseAddrSpec_tagged (hT : T ∈ ipv6Tag) :
    parseAddrSpec u (str "u@[" ++ T ++ str ":" ++ x ++ str "]") = .ok true ↔ x.length ≤ 248 ∧
      ((T = str "IPv6" ∧ parseIpv6 x = .ok true) ∨
        (T ≠ str "IPv6" ∧ x ∈ many1 (dcontent u))) := by
  have hlen : T.length = 4 := by
    obtain ⟨a, -, b, -, c, -, rfl⟩ := mem_ipv6Tag_iff.1 hT
    rfl
  have hopen : str "u@[" = str "u" ++ [chr '@', chr '['] := by decide
  have hcolon : str ":" = [chr ':'] := by decide
  have hclose : str "]" = [chr ']'] := by decide
  have hsplit : str "u@[" ++ T ++ str ":" ++ x ++ str "]" =
      str "u" ++ chr '@' :: chr '[' :: (T ++ chr ':' :: x ++ [chr ']']) := by
    rw [hopen, hcolon, hclose]
    simp
  rw [(parseAddrSpec_decides u).eq_ok, mem_addrSpec_iff, hsplit,
    isAddrSpec_append_iff mem_localPart_u (by decide), mem_domain_iff, mem_literalBody_iff hT]
  · have hlength : (chr '[' :: (T ++ chr ':' :: x ++ [chr ']'])).length = x.length + 7 := by
      simp only [List.length_cons, List.length_append, List.length_nil, hlen]
      omega
    rw [hlength, maxDomain]
    constructor
    · rintro ⟨-, hbody, -, hlong⟩
      exact ⟨by omega, hbody⟩
    · rintro ⟨hshort, hbody⟩
      exact ⟨rfl, hbody, by omega, by omega⟩
  · intro l d h hl
    have hlocal := parseLocalPart_consumes.complete l hl (chr '@' :: d) (by simp)
    rw [← h, parseLocalPart_consumes.complete _ mem_localPart_u _ (by simp)] at hlocal
    exact Except.ok.inj hlocal

theorem dcontent_of_parseIpv6 (hx : parseIpv6 x = .ok true) : x ∈ many1 (dcontent u) := by
  rw [mem_many1_iff dcontent_ne_nil, dcontent_eq]
  constructor
  · have hbytes : x ∈ (letter isDcontent)∗ := by
      rw [kstar_letter]
      intro c hc
      have hbyte := bytes_of_parseIpv6 hx c hc
      clear hc
      revert c
      exact forall_byte (by decide +kernel)
    have hle : letter isDcontent ≤ charOf isDcontent u := le_self_add
    exact kstar_mono hle hbytes
  · rintro rfl
    exact absurd hx (by decide)

/-- Only a group count that wraps lets an address be longer than a domain. -/
theorem length_of_parseIpv6 (hx : parseIpv6 x = .ok true) : 248 < x.length ↔ x ∈ wrapped := by
  constructor
  · intro hlong
    rcases parseIpv6_eq_true_iff_or.1 hx with h | h | h
    · have := length_of_ipv6Address h
      omega
    · have := length_of_trailingColon h
      omega
    · exact h
  · intro h
    have := length_of_wrapped h
    omega

/-- **Literals with the tag of IPv6.** Such a literal is taken exactly when its body is an IPv6
address, if the tag is spelled `IPv6`; with another spelling the body may be any text that a
`General-address-literal` allows. -/
theorem parseAddrSpec_tagged_iff (u : Bool) (x : Bytes) (hT : T ∈ ipv6Tag) :
    (parseAddrSpec u (str "u@[" ++ T ++ str ":" ++ x ++ str "]") = .ok true ↔
        parseIpv6 x = .ok true) ↔
      x ∉ wrapped ∧ (T = str "IPv6" ∨ x ∈ ipv6Address ∨ x ∈ trailingColon ∨
        x ∉ many1 (dcontent u) ∨ 248 < x.length) := by
  have haddress : x ∈ ipv6Address → parseIpv6 x = .ok true := fun h =>
    parseIpv6_eq_true_iff_or.2 (.inl h)
  have htrailing : x ∈ trailingColon → parseIpv6 x = .ok true := fun h =>
    parseIpv6_eq_true_iff_or.2 (.inr (.inl h))
  rw [parseAddrSpec_tagged hT]
  by_cases hx : parseIpv6 x = .ok true
  · have hbody : x ∈ many1 (dcontent u) := dcontent_of_parseIpv6 hx
    have hcases := parseIpv6_eq_true_iff_or.1 hx
    rw [← length_of_parseIpv6 hx] at hcases ⊢
    rw [← Nat.not_le] at hcases ⊢
    tauto
  · have hwrapped : x ∉ wrapped := fun h => hx (parseIpv6_eq_true_iff_or.2 (.inr (.inr h)))
    rw [← Nat.not_le]
    tauto

/-- With the tag in lower case the body `::1` is taken too. -/
theorem parseAddrSpec_tagged_iff_lower :
    (parseAddrSpec false (str "u@[" ++ str "ipv6" ++ str ":" ++ str "::1" ++ str "]") = .ok true ↔
        parseIpv6 (str "::1") = .ok true) ↔
      str "::1" ∉ wrapped ∧ (str "ipv6" = str "IPv6" ∨ str "::1" ∈ ipv6Address ∨
        str "::1" ∈ trailingColon ∨ str "::1" ∉ many1 (dcontent false) ∨
        248 < List.length (str "::1")) :=
  parseAddrSpec_tagged_iff false (str "::1") (mem_ipv6Tag_iff.2
    ⟨chr 'i', by decide, chr 'p', by decide, chr 'v', by decide, by decide⟩)

/-- `zzz` is not an address, but a literal with the tag in lower case takes it. -/
theorem parseAddrSpec_lowerTag : parseAddrSpec false (str "u@[ipv6:zzz]") = .ok true ∧
    parseIpv6 (str "zzz") ≠ .ok true := by
  decide

end FastJsonSchema.Formats
