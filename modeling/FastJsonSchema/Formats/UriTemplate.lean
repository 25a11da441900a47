import FastJsonSchema.Formats.UriScan

/-!
# URI templates

The parsers of `formats/utils/uri_template_parser.c`, which shares `consume_pct_encoded` with the
URI references. Each stays within its window (`parseUriTemplate_ends`).
-/

namespace FastJsonSchema.Formats

open Ruby Scan

/-- `is_varchar_ascii` -/
def isVarcharAscii (c : UInt8) : Bool := isAlpha c || isDigit c || c == chr '_'

/-- `is_operator` -/
def isOperator (c : UInt8) : Bool := (str "+#./;?&=,!@|").contains c

/-- `is_literal_ascii` -/
def isLiteralAscii (c : UInt8) : Bool :=
  c == 0x21 || 0x23 ≤ c && c ≤ 0x24 || c == 0x26 || 0x28 ≤ c && c ≤ 0x3B || c == 0x3D ||
    0x3F ≤ c && c ≤ 0x5B || c == 0x5D || c == 0x5F || 0x61 ≤ c && c ≤ 0x7A || c == 0x7E

/-- `consume_literal_byte` -/
def consumeLiteralByte (s : Bytes) : Result ℕ := do
  let c ← byte s 0
  if c < 0x80 then
    if c = chr '%' then consumePctEncoded s else
    .ok (if isLiteralAscii c then 1 else 0)
  else
    let n ← utf8SeqLen s
    .ok (if n ≥ 2 then n else 0)

/-- `parse_literals_run` -/
def parseLiteralsRun (s : Bytes) : Result ℕ := do
  match ← manyUntil (· == chr '\x7b') consumeLiteralByte s 0 with
  | none => .ok 0
  | some pos => .ok pos

/-- `parse_varchar` -/
def parseVarchar (s : Bytes) : Result ℕ := do
  if s.length = 0 then .ok 0 else
  let c ← byte s 0
  if c = chr '%' then consumePctEncoded s else
  if isVarcharAscii c then .ok 1 else
  .ok 0

/-- `parse_varname` -/
def parseVarname (s : Bytes) : Result ℕ := do
  let first ← parseVarchar s
  if first = 0 then .ok 0 else
  loop (fun pos => do
    if pos < s.length then
      if (← byte s pos) = chr '.' then
        let n ← consume parseVarchar s (pos + 1) s.length
        .ok (if n = 0 then .done 0 else .next (pos + 1 + n))
      else
        let n ← consume parseVarchar s pos s.length
        .ok (if n = 0 then .done pos else .next (pos + n))
    else .ok (.done pos)) (s.length + 1) first

/-- `parse_modifier` -/
def parseModifier (s : Bytes) : Result ℕ := do
  if s.length = 0 then .ok 0 else
  let c ← byte s 0
  if c = chr '*' then .ok 1 else
  if c = chr ':' then
    if s.length < 2 then .ok 0 else
    let first ← byte s 1
    if first < chr '1' ∨ first > chr '9' then .ok 0 else
    let pos ← skipWhile isDigit s 2 s.length
    let digits := pos - 1
    .ok (if digits < 1 ∨ digits > 4 then 0 else pos)
  else .ok 0

/-- `parse_varspec` -/
def parseVarspec (s : Bytes) : Result ℕ := do
  let pos ← parseVarname s
  if pos = 0 then .ok 0 else
  if ← peek (fun c => c == chr ':' || c == chr '*') s pos s.length then
    let m ← consume parseModifier s pos s.length
    .ok (if m = 0 then 0 else pos + m)
  else .ok pos

/-- `parse_variable_list` -/
def parseVariableList (s : Bytes) : Result ℕ := do
  let n ← parseVarspec s
  if n = 0 then .ok 0 else
  loop (fun pos => do
    if ← peek (· == chr ',') s pos s.length then
      let m ← consume parseVarspec s (pos + 1) s.length
      .ok (if m = 0 then .done 0 else .next (pos + 1 + m))
    else .ok (.done pos)) (s.length + 1) n

/-- `parse_expression` -/
def parseExpression (s : Bytes) : Result ℕ := do
  if s.length < 2 then .ok 0 else
  if (← byte s 0) ≠ chr '\x7b' then .ok 0 else
  let pos := if ← peek isOperator s 1 s.length then 2 else 1
  let vl ← consume parseVariableList s pos s.length
  if vl = 0 then .ok 0 else
  let pos := pos + vl
  .ok (if ← peek (· == chr '\x7d') s pos s.length then pos + 1 else 0)

/-- The body of the loop of `parse_uri_template`. -/
def parseTemplatePart (s : Bytes) : Result ℕ := do
  if (← byte s 0) = chr '\x7b' then parseExpression s else parseLiteralsRun s

/-- `parse_uri_template` -/
def parseUriTemplate (s : Bytes) : Result Bool := every parseTemplatePart s 0

variable {s : Bytes}

theorem consumePctEncoded_ends (hs : s ≠ []) :
    Ends (consumePctEncoded s) fun n => n ≤ s.length := consumePctEncoded_consumes.bounded s hs

theorem utf8SeqLen_bounded : Bounded utf8SeqLen := utf8SeqLen_consumes.bounded

theorem consumeLiteralByte_bounded : Bounded consumeLiteralByte := by
  intro s hs
  have hpos := List.length_pos_iff.2 hs
  refine (byte_ends hpos).bind fun c _ => ?_
  refine .ite (fun _ => .ite (fun _ => consumePctEncoded_ends hs) fun _ => .ok ?_) fun _ => ?_
  · split_ifs <;> omega
  · refine (utf8SeqLen_bounded s hs).bind fun n hn => .ok ?_
    split_ifs <;> omega

theorem parseLiteralsRun_ends (s : Bytes) : Ends (parseLiteralsRun s) fun n => n ≤ s.length := by
  refine (consumeLiteralByte_bounded.manyUntil_ends s (Nat.zero_le _)).bind fun o ho => ?_
  cases o with
  | none => exact .ok (Nat.zero_le _)
  | some pos => exact .ok (ho pos rfl).2

theorem parseVarchar_ends (s : Bytes) : Ends (parseVarchar s) fun n => n ≤ s.length := by
  refine .ite (fun _ => .ok (Nat.zero_le _)) fun hlen => ?_
  have hpos : 0 < s.length := Nat.pos_of_ne_zero hlen
  refine (byte_ends hpos).bind fun c _ => ?_
  refine .ite (fun _ => consumePctEncoded_ends (List.length_pos_iff.1 hpos)) fun _ => ?_
  exact .ite (fun _ => .ok hpos) fun _ => .ok (Nat.zero_le _)

theorem parseVarname_ends (s : Bytes) : Ends (parseVarname s) fun n => n ≤ s.length := by
  refine (parseVarchar_ends s).bind fun first hfirst => ?_
  refine .ite (fun _ => .ok (Nat.zero_le _)) fun _ => ?_
  refine Ends.loop (I := fun i => i ≤ s.length) (fun i => s.length - i) ?_ hfirst (by omega)
  intro i hi
  refine .ite (fun hlt => ?_) fun _ => .ok hi
  refine (byte_ends hlt).bind fun c _ => .ite (fun _ => ?_) fun _ => ?_
  · refine (consume_suffix_ends hlt (parseVarchar_ends _)).bind fun n hn => .ok ?_
    split_ifs
    · exact Nat.zero_le _
    · refine ⟨hn, ?_⟩
      dsimp only
      omega
  · refine (consume_suffix_ends hlt.le (parseVarchar_ends _)).bind fun n hn => .ok ?_
    split_ifs
    · exact hi
    · refine ⟨hn, ?_⟩
      dsimp only
      omega

theorem parseModifier_ends (s : Bytes) : Ends (parseModifier s) fun n => n ≤ s.length := by
  refine .ite (fun _ => .ok (Nat.zero_le _)) fun hlen => ?_
  have hpos : 0 < s.length := Nat.pos_of_ne_zero hlen
  refine (byte_ends hpos).bind fun c _ => .ite (fun _ => .ok hpos) fun _ => ?_
  refine .ite (fun _ => .ite (fun _ => .ok (Nat.zero_le _)) fun htwo => ?_)
    fun _ => .ok (Nat.zero_le _)
  refine (byte_ends (by omega)).bind fun first _ => .ite (fun _ => .ok (Nat.zero_le _)) fun _ => ?_
  refine (skipWhile_ends (Nat.not_lt.1 htwo) le_rfl).bind fun pos hle => .ok ?_
  split_ifs <;> omega

theorem parseVarspec_ends (s : Bytes) : Ends (parseVarspec s) fun n => n ≤ s.length := by
  refine (parseVarname_ends s).bind fun pos hpos => .ite (fun _ => .ok (Nat.zero_le _)) fun _ => ?_
  refine (peek_ends le_rfl).bind fun b _ => .ite (fun _ => ?_) fun _ => .ok hpos
  refine (consume_suffix_ends hpos (parseModifier_ends _)).bind fun m hm => .ok ?_
  split_ifs <;> omega

theorem parseVariableList_ends (s : Bytes) : Ends (parseVariableList s) fun n => n ≤ s.length := by
  refine (parseVarspec_ends s).bind fun n hn => .ite (fun _ => .ok (Nat.zero_le _)) fun _ => ?_
  refine Ends.loop (I := fun i => i ≤ s.length) (fun i => s.length - i) ?_ hn (by omega)
  intro i hi
  refine (peek_ends le_rfl).bind fun b hb => .ite (fun hcomma => ?_) fun _ => .ok hi
  have hlt : i < s.length := hb hcomma
  refine (consume_suffix_ends hlt (parseVarspec_ends _)).bind fun m hm => .ok ?_
  split_ifs
  · exact Nat.zero_le _
  · refine ⟨hm, ?_⟩
    dsimp only
    omega

theorem parseExpression_ends (s : Bytes) : Ends (parseExpression s) fun n => n ≤ s.length := by
  refine .ite (fun _ => .ok (Nat.zero_le _)) fun hlen => ?_
  refine (byte_ends (by omega)).bind fun c _ => .ite (fun _ => .ok (Nat.zero_le _)) fun _ => ?_
  refine (peek_ends le_rfl).bind fun b _ => ?_
  have hpos : (if b = true then 2 else 1) ≤ s.length := by
    split_ifs <;> omega
  refine (consume_suffix_ends hpos (parseVariableList_ends _)).bind fun vl hvl => ?_
  refine .ite (fun _ => .ok (Nat.zero_le _)) fun _ => ?_
  refine (peek_ends le_rfl).bind fun d hd => .ok ?_
  cases d with
  | false => exact Nat.zero_le _
  | true => exact hd rfl

theorem parseTemplatePart_bounded : Bounded parseTemplatePart := by
  intro s hs
  refine (byte_ends (List.length_pos_iff.2 hs)).bind fun c _ => ?_
  exact .ite (fun _ => parseExpression_ends s) fun _ => parseLiteralsRun_ends s

theorem parseUriTemplate_ends (s : Bytes) : Ends (parseUriTemplate s) fun _ => True :=
  parseTemplatePart_bounded.every_ends s (Nat.zero_le _)

end FastJsonSchema.Formats
