import FastJsonSchema.Ruby.Equality
import FastJsonSchema.Traversal.Verdict
import FastJsonSchema.Validate.Sizes

/-!
# Unique items

`uniqueItems` goes by `eql?` and `const` by `==`: they part on arrays in which the only equal
elements write a number once as an integer and once as a float (`uniqueItems_reports_iff`).
-/

namespace FastJsonSchema

open Ruby Traversal

variable {cs : CompiledSchema} {d : Datum} {xs : List Value} {c v : Value}

/-- `validate_const` accepts a value: it reports nothing. -/
def constAccepts (c v : Value) : Bool :=
  (validateConst (CompiledSchema.plain [] rootPathStr) (.root v) c).passes

theorem constAccepts_eq (c v : Value) : constAccepts c v = Value.equal false c v := by
  rw [constAccepts, validateConst, yieldError, Prog.passes_failWhen, Bool.not_not]
  rfl

/-- Two elements, the first one before the second one, that are related. -/
def Duplicates (r : Value → Value → Bool) (xs : List Value) : Prop :=
  ∃ i j : ℕ, ∃ x y, i < j ∧ xs[i]? = some x ∧ xs[j]? = some y ∧ r x y = true

theorem not_duplicates_iff {r : Value → Value → Bool} :
    ¬ Duplicates r xs ↔ xs.Pairwise fun x y => r x y = false := by
  rw [List.pairwise_iff_getElem]
  constructor
  · intro h i j hi hj hij
    by_contra hr
    exact h ⟨i, j, xs[i], xs[j], hij, List.getElem?_eq_getElem hi, List.getElem?_eq_getElem hj,
      by simpa using hr⟩
  · rintro h ⟨i, j, x, y, hij, hx, hy, hr⟩
    obtain ⟨hi, rfl⟩ := List.getElem?_eq_some_iff.1 hx
    obtain ⟨hj, rfl⟩ := List.getElem?_eq_some_iff.1 hy
    rw [h i j hi hj hij] at hr
    cases hr

/-- The check of `uniqueItems` in `validate_array`. -/
def checkUniqueItems (cs : CompiledSchema) (d : Datum) (xs : List Value) : Code :=
  .when (cs.uniqueItemsVal = some true ∧ (Value.uniq xs).length < xs.length)
    (yieldError cs d (str "uniqueItems"))

theorem Duplicates.mono {r r' : Value → Value → Bool} (h : Duplicates r xs)
    (hr : ∀ x ∈ xs, ∀ y ∈ xs, r x y = true → r' x y = true) : Duplicates r' xs := by
  obtain ⟨i, j, x, y, hij, hx, hy, hxy⟩ := h
  exact ⟨i, j, x, y, hij, hx, hy,
    hr x (List.mem_of_getElem? hx) y (List.mem_of_getElem? hy) hxy⟩

/-- `uniq` gives a shorter array when two elements are `eql?`. -/
theorem length_uniq_lt_iff (hxs : ∀ x ∈ xs, Value.IsJson x) :
    (Value.uniq xs).length < xs.length ↔ Duplicates (Value.equal true) xs := by
  have hle := Value.length_uniq_le xs
  have hlt : (Value.uniq xs).length < xs.length ↔
      Duplicates (fun x y => Value.equal true y x) xs := by
    rw [← not_iff_not, not_duplicates_iff, ← Value.length_uniq_eq_iff]
    omega
  rw [hlt]
  constructor
  · exact fun h => h.mono fun x hx y hy => Value.equal_symm (hxs y hy) (hxs x hx)
  · exact fun h => h.mono fun x hx y hy => Value.equal_symm (hxs x hx) (hxs y hy)

theorem checkUniqueItems_reports_iff {rt : Runtime} {heap : Addr → Option CompiledSchema}
    {overrun : Overrun} (hval : cs.uniqueItemsVal = some true) (hxs : ∀ x ∈ xs, Value.IsJson x) :
    (machine rt heap overrun).Reports (checkUniqueItems cs d xs) (Duplicates constAccepts xs)
        ⟨cs.path, d, str "uniqueItems"⟩ ↔
      Duplicates (Value.equal true) xs ∨ ¬ Duplicates (Value.equal false) xs := by
  have hconst : constAccepts = Value.equal false := by
    funext c v
    exact constAccepts_eq c v
  have hmono : Duplicates (Value.equal true) xs → Duplicates (Value.equal false) xs := fun h =>
    h.mono fun x hx y hy => Value.equal_of_strict (hxs x hx) (hxs y hy)
  rw [checkUniqueItems, yieldError, Machine.reports_failWhen_iff ready_start, hconst,
    decide_eq_true_iff, hval, length_uniq_lt_iff hxs]
  simp only [true_and]
  tauto

/-- The schema `{"uniqueItems": true}`. -/
def uniqueItems : CompiledSchema :=
  { CompiledSchema.plain [] rootPathStr with uniqueItemsVal := some true }

/-- The array `[1, 1]`. -/
def ones : Datum := .root (.arr [.int 1, .int 1])

end FastJsonSchema
