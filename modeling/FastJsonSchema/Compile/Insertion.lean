import FastJsonSchema.Compile.Success

/-!
# Adding a member

A member with a new key leaves the members under the other keys as they are, and the children that
a position has by its keywords depend on the members under the keywords only.
-/

namespace FastJsonSchema

open Ruby

/-- `kvs'` is `kvs` with the member `k : v` added. -/
def Inserted (k : RString) (v : Value) (kvs kvs' : List (Value × Value)) : Prop :=
  ∃ l₁ l₂, kvs = l₁ ++ l₂ ∧ kvs' = l₁ ++ (.str k, v) :: l₂

namespace Inserted

variable {k k' : RString} {v : Value} {kvs kvs' : List (Value × Value)}

theorem get_of_ne (h : Inserted k v kvs kvs') (hne : k' ≠ k) :
    Value.get kvs' k' = Value.get kvs k' := by
  obtain ⟨l₁, l₂, rfl, rfl⟩ := h
  have hskip : (Value.str k).isStr k' = false := by simpa [Value.isStr] using hne.symm
  rw [Value.get, Value.get, List.find?_append, List.find?_append,
    List.find?_cons_of_neg (by rw [hskip]; simp)]

theorem get_self (h : Inserted k v kvs kvs') (hnew : Value.get kvs k = none) :
    Value.get kvs' k = some v := by
  obtain ⟨l₁, l₂, rfl, rfl⟩ := h
  rw [Value.get, Option.map_eq_none_iff, List.find?_append, Option.or_eq_none_iff] at hnew
  rw [Value.get, List.find?_append, hnew.1, List.find?_cons_of_pos (by simp [Value.isStr])]
  rfl

theorem ne_nil (h : Inserted k v kvs kvs') : kvs' ≠ [] := by
  obtain ⟨l₁, l₂, rfl, rfl⟩ := h
  simp

theorem stringEntries (h : Inserted k v kvs kvs') : ∃ l₁ l₂,
    Value.stringEntries kvs = l₁ ++ l₂ ∧ Value.stringEntries kvs' = l₁ ++ (k, v) :: l₂ := by
  obtain ⟨l₁, l₂, rfl, rfl⟩ := h
  exact ⟨_, _, List.filterMap_append, by
    rw [Value.stringEntries, List.filterMap_append, List.filterMap_cons]⟩

/-- The member of a keyword is not one of an unknown keyword. -/
theorem unknownMembers (h : Inserted k v kvs kvs') (hk : isKnownKeyword k = true) :
    FastJsonSchema.unknownMembers kvs' = FastJsonSchema.unknownMembers kvs := by
  obtain ⟨l₁, l₂, h₁, h₂⟩ := h.stringEntries
  rw [FastJsonSchema.unknownMembers, FastJsonSchema.unknownMembers, h₁, h₂, List.filter_append,
    List.filter_append, List.filter_cons_of_neg (by simp [hk])]

end Inserted

/-! ## The same members -/

/-- The keywords of the fields that a schema has of its own, but for `type`. -/
def ownKeywords : List RString :=
  [idStr, refStr, constStr, enumStr, multipleOfStr, maximumStr, exclusiveMaximumStr, minimumStr,
   exclusiveMinimumStr, maxLengthStr, minLengthStr, patternStr, formatStr, maxItemsStr, minItemsStr,
   uniqueItemsStr, maxContainsStr, minContainsStr, maxPropertiesStr, minPropertiesStr, requiredStr]

theorem ownKeywords_known : ∀ k ∈ ownKeywords, k ∈ knownKeywords ∧ k ≠ typeStr := by decide

section Own

variable {kvs kvs' : List (Value × Value)}
  (h : ∀ k ∈ ownKeywords, Value.get kvs' k = Value.get kvs k)

include h

theorem readScope_congr (rt : Runtime) (cs : CompiledSchema) (ctx : CompileContext) :
    readScope rt cs kvs' ctx = readScope rt cs kvs ctx := by
  have hstring : ∀ k ∈ ownKeywords, stringKeyword kvs' k = stringKeyword kvs k := fun k hk => by
    rw [stringKeyword, stringKeyword, Value.aref, Value.aref, h k hk]
  rw [readScope, readScope, hstring idStr (by decide), hstring refStr (by decide)]

theorem ownFields_congr (cs : CompiledSchema) (format : FormatFields)
    (type : TypeValidationFunction × List TypeFlag) :
    Position.ownFields cs kvs' format type = Position.ownFields cs kvs format type := by
  have haref : ∀ k ∈ ownKeywords, Value.aref kvs' k = Value.aref kvs k := fun k hk => by
    rw [Value.aref, Value.aref, h k hk]
  have hnum : ∀ k ∈ ownKeywords, numberKeyword kvs' k = numberKeyword kvs k := fun k hk => by
    rw [numberKeyword, numberKeyword, haref k hk]
  have harr : ∀ k ∈ ownKeywords, arrayKeyword kvs' k = arrayKeyword kvs k := fun k hk => by
    rw [arrayKeyword, arrayKeyword, haref k hk]
  have hstring : stringKeyword kvs' patternStr = stringKeyword kvs patternStr := by
    rw [stringKeyword, stringKeyword, haref patternStr (by decide)]
  have hbool : boolKeyword kvs' uniqueItemsStr = boolKeyword kvs uniqueItemsStr := by
    rw [boolKeyword, boolKeyword, haref uniqueItemsStr (by decide)]
  unfold Position.ownFields
  rw [h constStr (by decide), harr enumStr (by decide), hnum multipleOfStr (by decide),
    hnum maximumStr (by decide), hnum exclusiveMaximumStr (by decide),
    hnum minimumStr (by decide), hnum exclusiveMinimumStr (by decide),
    hnum maxLengthStr (by decide), hnum minLengthStr (by decide), hstring,
    hnum maxItemsStr (by decide), hnum minItemsStr (by decide), hbool,
    hnum maxContainsStr (by decide), hnum minContainsStr (by decide),
    hnum maxPropertiesStr (by decide), hnum minPropertiesStr (by decide),
    harr requiredStr (by decide)]

end Own

/-- The members under all keywords but `type` are the same. -/
def SameKeywords (kvs kvs' : List (Value × Value)) : Prop :=
  ∀ k ∈ knownKeywords, k ≠ typeStr → Value.get kvs' k = Value.get kvs k

namespace SameKeywords

variable {kvs kvs' : List (Value × Value)} {rt : Runtime}

theorem aref (h : SameKeywords kvs kvs') {k : RString} (hk : k ∈ knownKeywords)
    (hne : k ≠ typeStr) :
    Value.aref kvs' k = Value.aref kvs k := by
  rw [Value.aref, Value.aref, h k hk hne]

variable (h : SameKeywords kvs kvs')

include h

theorem own : ∀ k ∈ ownKeywords, Value.get kvs' k = Value.get kvs k := fun k hk =>
  h k (ownKeywords_known k hk).1 (ownKeywords_known k hk).2

theorem readScope (cs : CompiledSchema) (ctx : CompileContext) :
    FastJsonSchema.readScope rt cs kvs' ctx = FastJsonSchema.readScope rt cs kvs ctx :=
  readScope_congr h.own rt cs ctx

theorem one (parent : CompiledSchema) (ctx : CompileContext) {k : RString}
    (hk : k ∈ knownKeywords) (hne : k ≠ typeStr) :
    Position.one parent kvs' ctx k = Position.one parent kvs ctx k := by
  rw [Position.one, Position.one, h.aref hk hne]

theorem many (parent : CompiledSchema) (ctx : CompileContext) {k : RString}
    (hk : k ∈ knownKeywords) (hne : k ≠ typeStr) :
    Position.many parent kvs' ctx k = Position.many parent kvs ctx k := by
  rw [Position.many, Position.many, h.aref hk hne]

theorem named (parent : CompiledSchema) (ctx : CompileContext) (value : Value → Value)
    {k : RString} (hk : k ∈ knownKeywords) (hne : k ≠ typeStr) :
    Position.named parent kvs' ctx k value = Position.named parent kvs ctx k value := by
  rw [Position.named, Position.named, h.aref hk hne]

theorem applicatorsOf (parent : CompiledSchema) (ctx : CompileContext) :
    Position.applicatorsOf parent kvs' ctx = Position.applicatorsOf parent kvs ctx := by
  unfold Position.applicatorsOf
  congr 1
  all_goals
    first
    | exact h.one parent ctx (by decide) (by decide)
    | exact h.many parent ctx (by decide) (by decide)
    | exact h.named parent ctx _ (by decide) (by decide)

theorem ownFields (cs : CompiledSchema) (format : FormatFields)
    (type : TypeValidationFunction × List TypeFlag) :
    Position.ownFields cs kvs' format type = Position.ownFields cs kvs format type :=
  ownFields_congr h.own cs format type

end SameKeywords

end FastJsonSchema
