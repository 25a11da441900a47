import FastJsonSchema.Formats.Utf8

/-!
# JSON pointers

The parsers of `formats/utils/json_pointer_parser.c` and of `formats/relative_json_pointer.c`.
-/

namespace FastJsonSchema.Formats

open Ruby Scan

/-- The body of the inner loop of `parse_json_pointer`, with 0 where the code returns false. -/
def consumeTokenChar (s : Bytes) : Result ℕ := do
  let c ← byte s 0
  if c = chr '~' then
    if 1 ≥ s.length then .ok 0 else
    let next ← byte s 1
    .ok (if next ≠ chr '0' ∧ next ≠ chr '1' then 0 else 2)
  else if c < 0x80 then .ok 1
  else utf8SeqLen s

/-- `parse_json_pointer` -/
def parseJsonPointer (s : Bytes) : Result Bool :=
  loop (fun pos => do
    if pos < s.length then
      if (← byte s pos) ≠ chr '/' then .ok (.done false) else
      match ← manyUntil (· == chr '/') consumeTokenChar s (pos + 1) with
      | none => .ok (.done false)
      | some pos => .ok (.next pos)
    else .ok (.done true)) (s.length + 1) 0

/-- The integer prefix of `parse_relative_json_pointer`, with nothing where the code returns
false. -/
def integerPrefix (s : Bytes) : Result (Option ℕ) := do
  let first ← byte s 0
  if first = chr '0' then .ok (some 1) else
  if chr '1' ≤ first ∧ first ≤ chr '9' then
    .ok (some (← skipWhile isDigit s 1 s.length))
  else .ok none

/-- `parse_relative_json_pointer` -/
def parseRelativeJsonPointer (s : Bytes) : Result Bool := do
  if s.length = 0 then .ok false else
  match ← integerPrefix s with
  | none => .ok false
  | some pos =>
    if pos = s.length then .ok true else
    if (← byte s pos) = chr '#' then .ok (pos + 1 == s.length) else
    parseJsonPointer (← window s pos s.length)

variable {s : Bytes}

theorem consumeTokenChar_bounded : Bounded consumeTokenChar := by
  intro s hs
  have hpos : 0 < s.length := List.length_pos_iff.2 hs
  refine (byte_ends hpos).bind fun c _ => .ite (fun _ => ?_) fun _ => ?_
  · refine .ite (fun _ => .ok (Nat.zero_le _)) fun hlen => ?_
    refine (byte_ends (by omega)).bind fun next _ => .ok ?_
    split_ifs <;> omega
  · exact .ite (fun _ => .ok hpos) fun _ => utf8SeqLen_consumes.bounded s hs

theorem parseJsonPointer_ends (s : Bytes) : Ends (parseJsonPointer s) fun _ => True := by
  refine Ends.loop (I := fun i => i ≤ s.length) (fun i => s.length - i) ?_ (Nat.zero_le _)
    (by omega)
  intro i hi
  refine .ite (fun hlt => ?_) fun _ => .ok trivial
  refine (byte_ends hlt).bind fun c _ => .ite (fun _ => .ok trivial) fun _ => ?_
  refine (consumeTokenChar_bounded.manyUntil_ends s hlt).bind fun o ho => ?_
  cases o with
  | none => exact .ok trivial
  | some pos =>
    obtain ⟨hlow, hhigh⟩ := ho pos rfl
    refine .ok ⟨hhigh, ?_⟩
    dsimp only
    omega

theorem integerPrefix_ends (hs : s ≠ []) :
    Ends (integerPrefix s) fun o => ∀ pos ∈ o, pos ≤ s.length := by
  have hpos : 0 < s.length := List.length_pos_iff.2 hs
  refine (byte_ends hpos).bind fun first _ => .ite (fun _ => .ok ?_) fun _ => .ite (fun _ => ?_)
    fun _ => .ok ?_
  · rintro pos ⟨⟩
    exact hpos
  · refine (skipWhile_ends hpos le_rfl).bind fun pos h => .ok ?_
    rintro k ⟨⟩
    exact h.2
  · rintro pos ⟨⟩

theorem parseRelativeJsonPointer_ends (s : Bytes) :
    Ends (parseRelativeJsonPointer s) fun _ => True := by
  refine .ite (fun _ => .ok trivial) fun hlen => ?_
  have hs : s ≠ [] := fun h => hlen (by rw [h]; rfl)
  refine (integerPrefix_ends hs).bind fun o ho => ?_
  cases o with
  | none => exact .ok trivial
  | some pos =>
    have hle : pos ≤ s.length := ho pos rfl
    refine .ite (fun _ => .ok trivial) fun hne => ?_
    refine (byte_ends (by omega)).bind fun c _ => .ite (fun _ => .ok trivial) fun _ => ?_
    rw [window_eq hle le_rfl]
    exact parseJsonPointer_ends _

end FastJsonSchema.Formats
