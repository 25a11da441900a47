import FastJsonSchema.Formats.Ipv6

/-!
# URI references

The parsers of `formats/utils/uri_parser.c`. A parser is given its window and reports the bytes
that it consumed, 0 when it fails; `allowUtf8` admits UTF-8 sequences outside of ASCII.
-/

namespace FastJsonSchema.Formats

open Ruby Scan

/-- `is_unreserved` -/
def isUnreserved (c : UInt8) : Bool := isAlpha c || isDigit c || (str "-._~").contains c

/-- `is_sub_delim` -/
def isSubDelim (c : UInt8) : Bool := (str "!$&'()*+,;=").contains c

/-- `is_scheme_char` -/
def isSchemeChar (c : UInt8) : Bool := isAlpha c || isDigit c || (str "+-.").contains c

/-- `consume_pct_encoded` -/
def consumePctEncoded (s : Bytes) : Result ℕ := do
  if s.length < 3 then .ok 0 else
  if (← byte s 0) ≠ chr '%' then .ok 0 else
  if !isHex (← byte s 1) then .ok 0 else
  if !isHex (← byte s 2) then .ok 0 else
  .ok 3

/-- `consume_utf8` -/
def consumeUtf8 (allowUtf8 : Bool) (s : Bytes) : Result ℕ := do
  if !allowUtf8 then .ok 0 else
  if (← byte s 0) < 0x80 then .ok 0 else
  let n ← utf8SeqLen s
  .ok (if n ≥ 2 then n else 0)

/-- `consume_pchar` -/
def consumePchar (allowUtf8 : Bool) (s : Bytes) : Result ℕ := do
  let c ← byte s 0
  if c < 0x80 then
    if isUnreserved c then .ok 1 else
    if isSubDelim c then .ok 1 else
    if c = chr ':' ∨ c = chr '@' then .ok 1 else
    if c = chr '%' then consumePctEncoded s else
    .ok 0
  else consumeUtf8 allowUtf8 s

/-- `consume_pchar_nc` -/
def consumePcharNc (allowUtf8 : Bool) (s : Bytes) : Result ℕ := do
  if (← byte s 0) = chr ':' then .ok 0 else consumePchar allowUtf8 s

/-- `parse_scheme` -/
def parseScheme (s : Bytes) : Result ℕ := do
  if s.length = 0 then .ok 0 else
  if !isAlpha (← byte s 0) then .ok 0 else
  skipWhile isSchemeChar s 1 s.length

/-- The bytes after the dot of an `IPvFuture`. -/
def isFutureChar (c : UInt8) : Bool := isUnreserved c || isSubDelim c || c == chr ':'

/-- `parse_ipv_future` -/
def parseIpvFuture (s : Bytes) : Result ℕ := do
  if s.length < 4 then .ok 0 else
  let v ← byte s 0
  if v ≠ chr 'v' ∧ v ≠ chr 'V' then .ok 0 else
  let pos ← skipWhile isHex s 1 s.length
  if pos = 1 then .ok 0 else
  if !(← peek (· == chr '.') s pos s.length) then .ok 0 else
  let tailStart := pos + 1
  let pos ← skipWhile isFutureChar s tailStart s.length
  if pos = tailStart then .ok 0 else
  .ok pos

/-- `parse_ip_literal` -/
def parseIpLiteral (s : Bytes) : Result ℕ := do
  if s.length < 2 then .ok 0 else
  if (← byte s 0) ≠ chr '[' then .ok 0 else
  match ← find (· == chr ']') s 1 s.length with
  | none => .ok 0
  | some stop =>
    if ← peek (fun c => c == chr 'v' || c == chr 'V') s 1 stop then
      .ok (if (← consume parseIpvFuture s 1 stop) = stop - 1 then stop + 1 else 0)
    else .ok (if ← parseIpv6 (← window s 1 stop) then stop + 1 else 0)

/-- The loop of `parse_reg_name` and `parse_userinfo`. -/
def pctRun (p : UInt8 → Bool) (allowUtf8 : Bool) (s : Bytes) : Result ℕ :=
  loop (fun pos => do
    if pos < s.length then
      let c ← byte s pos
      if c < 0x80 then
        if p c then .ok (.next (pos + 1)) else
        if c = chr '%' then
          let n ← consume consumePctEncoded s pos s.length
          .ok (if n = 0 then .done pos else .next (pos + n))
        else .ok (.done pos)
      else
        let n ← consume (consumeUtf8 allowUtf8) s pos s.length
        .ok (if n = 0 then .done pos else .next (pos + n))
    else .ok (.done pos)) (s.length + 1) 0

/-- `parse_reg_name` -/
def parseRegName : Bool → Bytes → Result ℕ := pctRun fun c => isUnreserved c || isSubDelim c

/-- `parse_host` -/
def parseHost (allowUtf8 : Bool) (s : Bytes) : Result ℕ := do
  if s.length = 0 then .ok 0 else
  if (← byte s 0) = chr '[' then parseIpLiteral s else
  let digitDotRun ← skipWhile (fun c => isDigit c || c == chr '.') s 0 s.length
  if ← (if digitDotRun > 0 then do parseIpv4 (← window s 0 digitDotRun) else .ok false) then
    .ok digitDotRun
  else parseRegName allowUtf8 s

/-- `parse_port` -/
def parsePort (s : Bytes) : Result ℕ := skipWhile isDigit s 0 s.length

/-- `parse_userinfo` -/
def parseUserinfo : Bool → Bytes → Result ℕ :=
  pctRun fun c => isUnreserved c || isSubDelim c || c == chr ':'

/-- `parse_authority`: the end of the host that starts at `pos`, nothing when the code returns 0. -/
def authorityHost (allowUtf8 : Bool) (s : Bytes) (pos authEnd : ℕ) : Result (Option ℕ) := do
  if ← peek (· == chr '[') s pos authEnd then
    let lit ← consume parseIpLiteral s pos authEnd
    .ok (if lit = 0 then none else some (pos + lit))
  else
    let hostEnd ← skipWhile (fun c => !(c == chr ':')) s pos authEnd
    let hostLen ← consume (parseHost allowUtf8) s pos hostEnd
    .ok (if hostLen ≠ hostEnd - pos then none else some hostEnd)

/-- `parse_authority`: the port after the host that ends at `pos`, and the end of the authority. -/
def authorityPort (s : Bytes) (pos authEnd : ℕ) : Result ℕ := do
  if ← peek (· == chr ':') s pos authEnd then
    let portLen ← consume parsePort s (pos + 1) authEnd
    .ok (if pos + 1 + portLen ≠ authEnd then 0 else authEnd)
  else .ok (if pos ≠ authEnd then 0 else pos)

/-- The bytes that end an authority. -/
def isAuthorityEnd (c : UInt8) : Bool := c == chr '/' || c == chr '?' || c == chr '#'

/-- `parse_authority` -/
def parseAuthority (allowUtf8 : Bool) (s : Bytes) : Result ℕ := do
  let authEnd := (← find isAuthorityEnd s 0 s.length).getD s.length
  let start ←
    match ← find (· == chr '@') s 0 authEnd with
    | none => .ok (some 0)
    | some atPos => do
      let n ← consume (parseUserinfo allowUtf8) s 0 atPos
      .ok (if n ≠ atPos then none else some (atPos + 1))
  match start with
  | none => .ok 0
  | some pos =>
    match ← authorityHost allowUtf8 s pos authEnd with
    | none => .ok 0
    | some pos => authorityPort s pos authEnd

/-- `parse_segment` -/
def parseSegment (allowUtf8 : Bool) : Bytes → Result ℕ := many (consumePchar allowUtf8)

/-- `parse_segment_nz` -/
def parseSegmentNz (allowUtf8 : Bool) (s : Bytes) : Result ℕ := do
  let pos ← parseSegment allowUtf8 s
  .ok (if pos > 0 then pos else 0)

/-- `parse_segment_nz_nc` -/
def parseSegmentNzNc (allowUtf8 : Bool) (s : Bytes) : Result ℕ := do
  let pos ← many (consumePcharNc allowUtf8) s
  .ok (if pos > 0 then pos else 0)

/-- The loop over the segments of a path, each after a slash. -/
def slashSegments (allowUtf8 : Bool) (s : Bytes) (pos : ℕ) : Result ℕ :=
  loop (fun pos => do
    if ← peek (· == chr '/') s pos s.length then
      let n ← consume (parseSegment allowUtf8) s (pos + 1) s.length
      .ok (.next (pos + 1 + n))
    else .ok (.done pos)) (s.length + 1) pos

/-- `parse_path_abempty` -/
def parsePathAbempty (allowUtf8 : Bool) (s : Bytes) : Result ℕ := slashSegments allowUtf8 s 0

/-- `parse_path_absolute` -/
def parsePathAbsolute (allowUtf8 : Bool) (s : Bytes) : Result ℕ := do
  if !(← peek (· == chr '/') s 0 s.length) then .ok 0 else
  let nz ← consume (parseSegmentNz allowUtf8) s 1 s.length
  if nz = 0 then .ok 1 else
  slashSegments allowUtf8 s (1 + nz)

/-- `parse_path_rootless` -/
def parsePathRootless (allowUtf8 : Bool) (s : Bytes) : Result ℕ := do
  let nz ← parseSegmentNz allowUtf8 s
  if nz = 0 then .ok 0 else
  slashSegments allowUtf8 s nz

/-- `parse_path_noscheme` -/
def parsePathNoscheme (allowUtf8 : Bool) (s : Bytes) : Result ℕ := do
  let nz ← parseSegmentNzNc allowUtf8 s
  if nz = 0 then .ok 0 else
  slashSegments allowUtf8 s nz

/-- The body of the loop of `parse_query_or_fragment`. -/
def consumeQueryChar (allowUtf8 : Bool) (s : Bytes) : Result ℕ := do
  let c ← byte s 0
  if c = chr '/' ∨ c = chr '?' then .ok 1 else consumePchar allowUtf8 s

/-- `parse_query_or_fragment` -/
def parseQueryOrFragment (allowUtf8 : Bool) : Bytes → Result ℕ :=
  many (consumeQueryChar allowUtf8)

/-- The bytes that end a path. -/
def isPathEnd (c : UInt8) : Bool := c == chr '?' || c == chr '#'

/-- `parse_hier_or_relative_part`, after `//`. -/
def authorityAndPath (allowUtf8 : Bool) (s : Bytes) (pathEnd : ℕ) : Result (Option ℕ) := do
  let authEnd := (← find (· == chr '/') s 2 pathEnd).getD pathEnd
  let authLen ← consume (parseAuthority allowUtf8) s 2 authEnd
  if authLen ≠ authEnd - 2 then .ok none else
  let pathLen ← consume (parsePathAbempty allowUtf8) s authEnd pathEnd
  .ok (if authEnd + pathLen ≠ pathEnd then none else some pathEnd)

/-- `parse_hier_or_relative_part`, with nothing for -1. -/
def parseHierOrRelativePart (allowUtf8 isRelative : Bool) (s : Bytes) : Result (Option ℕ) := do
  if s.length = 0 then .ok (some 0) else
  let pathEnd := (← find isPathEnd s 0 s.length).getD s.length
  let whole (n : ℕ) : Option ℕ := if n ≠ pathEnd then none else some n
  if ← (if pathEnd ≥ 2 then do
      if (← byte s 0) = chr '/' then .ok ((← byte s 1) == chr '/') else .ok false
    else .ok false) then authorityAndPath allowUtf8 s pathEnd else
  if ← peek (· == chr '/') s 0 pathEnd then
    .ok (whole (← consume (parsePathAbsolute allowUtf8) s 0 pathEnd)) else
  if pathEnd = 0 then .ok (some 0) else
  if isRelative then .ok (whole (← consume (parsePathNoscheme allowUtf8) s 0 pathEnd)) else
  .ok (whole (← consume (parsePathRootless allowUtf8) s 0 pathEnd))

/-- The end of `try_parse_full_uri` and of `try_parse_relative_ref`: the fragment at `pos`, and
whether the input is consumed. -/
def fragmentAt (allowUtf8 : Bool) (s : Bytes) (pos : ℕ) : Result Bool := do
  if ← peek (· == chr '#') s pos s.length then
    let n ← consume (parseQueryOrFragment allowUtf8) s (pos + 1) s.length
    .ok (pos + 1 + n == s.length)
  else .ok (pos == s.length)

/-- The query at `pos`, and the fragment after it. -/
def queryAt (allowUtf8 : Bool) (s : Bytes) (pos : ℕ) : Result Bool := do
  if ← peek (· == chr '?') s pos s.length then
    let qEnd := (← find (· == chr '#') s (pos + 1) s.length).getD s.length
    let n ← consume (parseQueryOrFragment allowUtf8) s (pos + 1) qEnd
    if pos + 1 + n ≠ qEnd then .ok false else fragmentAt allowUtf8 s qEnd
  else fragmentAt allowUtf8 s pos

/-- `try_parse_full_uri` -/
def tryParseFullUri (allowUtf8 : Bool) (s : Bytes) : Result Bool := do
  let schemeLen ← parseScheme s
  if schemeLen = 0 then .ok false else
  if !(← peek (· == chr ':') s schemeLen s.length) then .ok false else
  let pos := schemeLen + 1
  match ← parseHierOrRelativePart allowUtf8 false (← window s pos s.length) with
  | none => .ok false
  | some hp => queryAt allowUtf8 s (pos + hp)

/-- `try_parse_relative_ref` -/
def tryParseRelativeRef (allowUtf8 : Bool) (s : Bytes) : Result Bool := do
  match ← parseHierOrRelativePart allowUtf8 true s with
  | none => .ok false
  | some rp => queryAt allowUtf8 s rp

/-- `parse_uri_reference` -/
def parseUriReference (requireScheme allowUtf8 : Bool) (s : Bytes) : Result Bool := do
  if s.length = 0 then .ok (!requireScheme) else
  if ← tryParseFullUri allowUtf8 s then .ok true else
  if requireScheme then .ok false else
  tryParseRelativeRef allowUtf8 s

example : parseUriReference true false (str "http://1.2.3.4abc") = .ok false := by decide

end FastJsonSchema.Formats
