import FastJsonSchema.Traversal.Modes
import FastJsonSchema.Validate.Validate

/-!
# `validate` and `valid?` agree

`validate` runs the evaluator in the loud mode, `valid?` runs it under `is_valid` in the quiet mode.
-/

namespace FastJsonSchema

open Ruby Traversal

variable {rt : Runtime} {heap : Addr → Option CompiledSchema} {overrun : Overrun}
  {cs : CompiledSchema} {v : Value} {r : Result Token Site RubyError}

/-- **`validate` yields an error exactly when `valid?` returns false**, whenever `validate` returns
without having left `context->path`; in particular `valid?` returns then. -/
theorem valids_of_validates (h : Validates rt heap overrun cs v r) (hd : r.1 = .done)
    (hs : (machine rt heap overrun).Safe r.2) :
    ∃ r' b, Valids rt heap overrun cs v r' ∧ r'.verdict = some b ∧
      (r.2.errors ≠ [] ↔ b = false) :=
  Machine.guards_of_runs rfl h hs hd

/-- The schema `{"items": {"not": {"not": false}}}`. -/
def itemsNotNotFalse : CompiledSchema :=
  { CompiledSchema.plain [] rootPathStr with
    itemsSchema := some { CompiledSchema.plain [str "items"] (str "#/items") with
      notSchema := some { CompiledSchema.plain [str "items", str "not"] (str "#/items/not") with
        notSchema := some { CompiledSchema.create [str "items", str "not", str "not"]
          (str "#/items/not/not") with validationFunction := some .falseValidate } } } }

/-- Below the element the inner `not` is kept because its schema fails, so the outer one is not. -/
theorem valids_of_validates_itemsNotNotFalse :
    ∃ r r' b, Validates .bare (fun _ => none) (fun _ _ => none) itemsNotNotFalse (.arr [.nil]) r ∧
      r.2.errors.length = 1 ∧
        Valids .bare (fun _ => none) (fun _ _ => none) itemsNotNotFalse (.arr [.nil]) r' ∧
          r'.verdict = some b ∧ (r.2.errors ≠ [] ↔ b = false) := by
  obtain ⟨r, h, hd, hs, hlength⟩ : ∃ r,
      Validates .bare (fun _ => none) (fun _ _ => none) itemsNotNotFalse (.arr [.nil]) r ∧
        r.1 = .done ∧ (machine .bare (fun _ => none) fun _ _ => none).Safe r.2 ∧
          r.2.errors.length = 1 := ⟨_, ⟨4, rfl, by decide⟩, by decide, by decide, by decide⟩
  obtain ⟨r', b, hr', hb, hiff⟩ := valids_of_validates h hd hs
  exact ⟨r, r', b, h, hlength, hr', hb, hiff⟩

end FastJsonSchema
