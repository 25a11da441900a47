import FastJsonSchema.Formats.Ipv6Address

/-!
# Mail addresses

The parsers of `formats/utils/addr_spec_parser.c`, and the rules of the addresses that it takes: a
local part of at most 64 bytes, an at sign and a domain of at most 255 bytes. `Ldh-str` is the rule
that the comment on `parse_ldh_str` gives.
-/

namespace FastJsonSchema.Formats

open Ruby Scan Words

open scoped Computability

/-- `DQUOTE` -/
def dquote : Char := '\x22'

/-- The backslash. -/
def backslash : Char := '\x5c'

/-- `is_atext` -/
def isAtext (c : UInt8) : Bool :=
  isAlpha c || isDigit c || (str "!#$%&'*+-/=?^_\x60\x7b|\x7d~").contains c

/-- `is_qtext` -/
def isQtext (c : UInt8) : Bool := c == 33 || 35 ≤ c && c ≤ 91 || 93 ≤ c && c ≤ 126

/-- `is_dcontent` -/
def isDcontent (c : UInt8) : Bool := 33 ≤ c && c ≤ 90 || 94 ≤ c && c ≤ 126

/-- `is_vchar` -/
def isVchar (c : UInt8) : Bool := 0x21 ≤ c && c ≤ 0x7E

/-- `is_wsp` -/
def isWsp (c : UInt8) : Bool := c == chr ' ' || c == chr '\t'

/-- `consume_atext` -/
def consumeAtext : Bool → Bytes → Result ℕ := classChar isAtext

/-- `parse_atext_run` -/
def parseAtextRun (allowUtf8 : Bool) : Bytes → Result ℕ := many (consumeAtext allowUtf8)

/-- `parse_dot_atom` -/
def parseDotAtom (allowUtf8 allowTrailingDot : Bool) (s : Bytes) : Result ℕ := do
  let first ← parseAtextRun allowUtf8 s
  if first = 0 then .ok 0 else
  loop (fun pos => do
    if ← peek (· == chr '.') s pos s.length then
      let next ← consume (parseAtextRun allowUtf8) s (pos + 1) s.length
      if next = 0 then
        .ok (.done (if allowTrailingDot && pos + 1 == s.length then s.length else 0))
      else .ok (.next (pos + 1 + next))
    else .ok (.done pos)) (s.length + 1) first

/-- The body of the loop of `parse_quoted_string`, with 0 where the code returns 0. -/
def consumeQuoted (allowUtf8 : Bool) (s : Bytes) : Result ℕ := do
  let c ← byte s 0
  if c = chr backslash then
    if 1 ≥ s.length then .ok 0 else
    let next ← byte s 1
    .ok (if !isVchar next && !isWsp next then 0 else 2)
  else if isQtext c || isWsp c then .ok 1
  else if allowUtf8 && 0x80 ≤ c then utf8SeqLen s
  else .ok 0

/-- `parse_quoted_string` -/
def parseQuotedString (allowUtf8 : Bool) (s : Bytes) : Result ℕ := do
  if s.length < 2 then .ok 0 else
  if (← byte s 0) ≠ chr dquote then .ok 0 else
  match ← manyUntil (· == chr dquote) (consumeQuoted allowUtf8) s 1 with
  | none => .ok 0
  | some pos => .ok (if ← peek (· == chr dquote) s pos s.length then pos + 1 else 0)

/-- `parse_local_part` -/
def parseLocalPart (allowUtf8 : Bool) (s : Bytes) : Result ℕ := do
  if s.length = 0 then .ok 0 else
  if (← byte s 0) = chr dquote then parseQuotedString allowUtf8 s else
  parseDotAtom allowUtf8 false s

/-- `parse_ipv6_literal` -/
def parseIpv6Literal (s : Bytes) : Result Bool := do
  if s.length < 5 then .ok false else
  if (← window s 0 5) ≠ str "IPv6:" then .ok false else
  parseIpv6 (← window s 5 s.length)

/-- `parse_ldh_str` -/
def parseLdhStr (s : Bytes) : Result Bool := do
  if s.length = 0 then .ok false else
  if !isLetDig (← byte s 0) then .ok false else
  if (← find (fun c => !isLetDig c && !(c == chr '-')) s 0 s.length).isSome then .ok false else
  if (← byte s (s.length - 1)) = chr '-' then .ok false else
  .ok true

/-- `parse_general_address_literal` -/
def parseGeneralAddressLiteral (allowUtf8 : Bool) (s : Bytes) : Result Bool := do
  match ← find (· == chr ':') s 0 s.length with
  | none => .ok false
  | some colon =>
    if colon = 0 ∨ colon ≥ s.length - 1 then .ok false else
    if !(← parseLdhStr (← window s 0 colon)) then .ok false else
    if ← (if colon = 4 then do .ok ((← window s 0 4) == str "IPv6") else .ok false) then
      .ok false else
    if (← find isAlpha s 0 colon).isNone then .ok false else
    if colon + 1 ≥ s.length then .ok false else
    every (classChar isDcontent allowUtf8) s (colon + 1)

/-- `parse_domain_literal_body` -/
def parseDomainLiteralBody (allowUtf8 : Bool) (s : Bytes) : Result Bool := do
  if ← parseIpv4 s then .ok true else
  if ← parseIpv6Literal s then .ok true else
  parseGeneralAddressLiteral allowUtf8 s

/-- `parse_domain_literal` -/
def parseDomainLiteral (allowUtf8 : Bool) (s : Bytes) : Result ℕ := do
  if s.length < 2 then .ok 0 else
  if (← byte s 0) ≠ chr '[' then .ok 0 else
  match ← find (· == chr ']') s 1 s.length with
  | none => .ok 0
  | some stop =>
    if !(← parseDomainLiteralBody allowUtf8 (← window s 1 stop)) then .ok 0 else
    .ok (stop + 1)

/-- `parse_domain` -/
def parseDomain (allowUtf8 : Bool) (s : Bytes) : Result ℕ := do
  if s.length = 0 then .ok 0 else
  if (← byte s 0) = chr '[' then parseDomainLiteral allowUtf8 s else
  parseDotAtom allowUtf8 true s

/-- `MAX_LOCAL_PART` -/
def maxLocalPart : ℕ := 64

/-- `MAX_DOMAIN` -/
def maxDomain : ℕ := 255

/-- `parse_addr_spec` -/
def parseAddrSpec (allowUtf8 : Bool) (s : Bytes) : Result Bool := do
  if s.length = 0 then .ok false else
  let localLen ← parseLocalPart allowUtf8 s
  if localLen = 0 then .ok false else
  if localLen > maxLocalPart then .ok false else
  if localLen ≥ s.length then .ok false else
  if (← byte s localLen) ≠ chr '@' then .ok false else
  let domainOff := localLen + 1
  let domainLen := s.length - domainOff
  if domainLen = 0 then .ok false else
  if domainLen > maxDomain then .ok false else
  let consumed ← consume (parseDomain allowUtf8) s domainOff s.length
  if consumed = 0 then .ok false else
  if consumed ≠ domainLen then .ok false else
  .ok true

/-! ## The grammar -/

/-- `atext` -/
def atext (u : Bool) : Language UInt8 :=
  alpha + digit + oneOf "!#$%&'*+-/=?^_\x60\x7b|\x7d~" + utf8NonAscii u

/-- `dot-atom-text` -/
def dotAtomText (u : Bool) : Language UInt8 := many1 (atext u) * (char '.' * many1 (atext u))∗

/-- `qtext` -/
def qtext : Language UInt8 := char '!' + range '#' '[' + range ']' '~'

/-- `VCHAR` -/
def vchar : Language UInt8 := range '!' '~'

/-- `WSP` -/
def wsp : Language UInt8 := char ' ' + char '\t'

/-- What stands between the quotes of a `quoted-string`. -/
def qcontent (u : Bool) : Language UInt8 :=
  qtext + wsp + char backslash * (vchar + wsp) + utf8NonAscii u

/-- `quoted-string` -/
def quotedString (u : Bool) : Language UInt8 := char dquote * ((qcontent u)∗ * char dquote)

/-- The local part. -/
def localPart (u : Bool) : Language UInt8 := dotAtomText u + quotedString u

/-- `Ldh-str` -/
def ldhStr : Language UInt8 := letDig * ((char '-')∗ * letDig)∗

/-- A `Standardized-tag`: with a letter, and not that of an IPv6 address. -/
def tag : Language UInt8 := {w | w ∈ ldhStr ∧ (∃ c ∈ w, isAlpha c) ∧ w ≠ str "IPv6"}

/-- `dcontent` -/
def dcontent (u : Bool) : Language UInt8 := range '!' 'Z' + range '^' '~' + utf8NonAscii u

/-- `IPv6-address-literal`, over the addresses that `parse_ipv6` takes. -/
def ipv6Literal : Language UInt8 := {w | ∃ x, w = str "IPv6:" ++ x ∧ parseIpv6 x = .ok true}

/-- `General-address-literal` -/
def generalAddressLiteral (u : Bool) : Language UInt8 := tag * (char ':' * many1 (dcontent u))

/-- The body of a `domain-literal`. -/
def literalBody (u : Bool) : Language UInt8 :=
  ipv4Address + ipv6Literal + generalAddressLiteral u

/-- The domain. -/
def domain (u : Bool) : Language UInt8 :=
  dotAtomText u * optional (char '.') + char '[' * (literalBody u * char ']')

/-- `addr-spec` -/
def addrSpec (u : Bool) : Language UInt8 :=
  (localPart u ⊓ ofLength 0 maxLocalPart) * (char '@' * (domain u ⊓ ofLength 1 maxDomain))

end FastJsonSchema.Formats
