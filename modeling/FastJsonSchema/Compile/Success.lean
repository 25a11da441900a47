import FastJsonSchema.Compile.Faults

/-!
# When a schema compiles

A document compiles if and only if the keywords of each of its positions are accepted
(`Position.Sound`) and the `$ref` of each is found in the reference table
(`compileSchema_ok_iff`): then the lists of its errors are empty.
-/

namespace FastJsonSchema

open Ruby Traversal

/-- The keywords of a position are accepted: those of its own, and its patterns. -/
structure Position.Sound (rt : Runtime) (p : Position) : Prop where
  own : ∃ cs, p.own rt = .ok cs
  patterns : p.ValidPatterns rt

namespace Position

variable {rt : Runtime} {p : Position}

/-- What an object has of its own, from its format and its type. -/
theorem own_eq_ok (hp : p.value = .hash p.members) (hm : p.members ≠ []) {cs : CompiledSchema} :
    p.own rt = .ok cs ↔ ∃ format, formatFields (p.resolved rt).2.customFormats
      (Value.aref p.members formatStr) = .ok format ∧
        ∃ type, typeValidationFunction p.members = .ok type ∧
          ownFields (p.resolved rt).1 p.members format type = cs := by
  obtain ⟨kv, kvs, hkvs⟩ := List.exists_cons_of_ne_nil hm
  unfold own
  rw [hp, hkvs]
  simp only [bind_eq_ok]
  exact exists_congr fun format => and_congr_right fun _ =>
    exists_congr fun type => and_congr_right fun _ => ⟨Except.ok.inj, congrArg Except.ok⟩

/-- The keywords of its own that a position is rejected for are its format and its type. -/
theorem exists_own_iff : (∃ cs, p.own rt = .ok cs) ↔
    (∃ format, formatFields (p.resolved rt).2.customFormats (Value.aref p.members formatStr)
      = .ok format) ∧ ∃ type, typeValidationFunction p.members = .ok type := by
  by_cases hm : p.members = []
  · rw [hm]
    refine iff_of_true ?_ ⟨⟨_, rfl⟩, _, rfl⟩
    unfold own
    unfold members at hm
    split
    · exact ⟨_, rfl⟩
    next kv kvs hv =>
      rw [hv] at hm
      cases hm
    · exact ⟨_, rfl⟩
  · have hv : p.value = .hash p.members := by
      cases hv : p.value with
      | hash kvs => rw [members, hv]
      | _ => exact absurd (by rw [members, hv]) hm
    simp only [own_eq_ok hv hm]
    constructor
    · rintro ⟨_, format, hformat, type, htype, -⟩
      exact ⟨⟨format, hformat⟩, type, htype⟩
    · rintro ⟨⟨format, hformat⟩, type, htype⟩
      exact ⟨_, format, hformat, type, htype, rfl⟩

/-- A position is accepted when the first pass rejects it for nothing. -/
theorem sound_iff : p.Sound rt ↔ ∀ e, ¬ p.Rejects rt e := by
  constructor
  · intro h e he
    obtain ⟨⟨format, hformat⟩, type, htype⟩ := exists_own_iff.1 h.own
    cases he with
    | format he => exact nomatch hformat.symm.trans he
    | type he => exact nomatch htype.symm.trans he
    | pattern hp => exact hp h.patterns
  · intro h
    refine ⟨exists_own_iff.2 ⟨?_, ?_⟩, ?_⟩
    · exact exists_ok_iff_forall_ne.2 fun e he => h e (.format he)
    · exact exists_ok_iff_forall_ne.2 fun e he => h e (.type he)
    · exact by_contra fun hp => h _ (.pattern hp rfl)

end Position

/-! ## Documents -/

section Documents

variable {rt : Runtime} {customFormats : Option (List (RString × ℕ))} {doc : Value}

/-- **When a document compiles**: its positions are sound, and their references are found. -/
theorem compileSchema_ok_iff : (∃ root, compileSchema rt customFormats doc = .ok root) ↔
    (∀ p ∈ positionsOf rt customFormats doc, p.Sound rt) ∧
      ∀ p ∈ positionsOf rt customFormats doc,
        ∃ o, p.target rt (keysOf rt customFormats doc).reverse = .ok o := by
  have hswap : ∀ P : Position → CompileError → Prop,
      (∀ e, ¬ ∃ p ∈ positionsOf rt customFormats doc, P p e) ↔
        ∀ p ∈ positionsOf rt customFormats doc, ∀ e, ¬ P p e := by
    intro P
    simp only [not_exists, not_and]
    exact ⟨fun h p hp e => h e p hp, fun h e p hp => h p hp e⟩
  rw [compileSchema_first.exists_ok_iff, List.append_eq_nil_iff, List.eq_nil_iff_forall_not_mem,
    List.eq_nil_iff_forall_not_mem]
  simp only [mem_faultsOf, mem_unresolvedOf, hswap, Position.sound_iff, exists_ok_iff_forall_ne]

end Documents

end FastJsonSchema
