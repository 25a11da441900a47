import FastJsonSchema.Schema.Applicators
import FastJsonSchema.Traversal.Verdict
import FastJsonSchema.Validate.Context

/-!
# What a schema means

`denote` is the meaning of a compiled schema without references, in the terms of Draft 7: a Boolean
of the value, by recursion on the schema. The checks of a single value are taken from the
evaluator as they are; the combinators and the applicators of arrays and objects have the meaning
of `Applicators.holds`. The verdict of `is_valid` is this meaning (`valids_denote`).
-/

namespace FastJsonSchema

open Ruby Traversal

namespace Applicators

/-- `maxContains` -/
def countAtMost : Option Value → ℕ → Bool
  | some (.int m), n => n ≤ m
  | _, _ => true

/-- `minContains`, which is one by default. -/
def countAtLeast : Option Value → ℕ → Bool
  | some (.int m), n => m ≤ n
  | _, n => 1 ≤ n

section Meaning

variable (rt : Runtime) (cs : CompiledSchema) (a : Applicators (Value → Bool))

/-- `if`, `then` and `else`: the selected branch holds, if there is one. -/
def conditional (v : Value) : Bool :=
  match a.ifSchema with
  | none => true
  | some p => (if p v then a.thenSchema else a.elseSchema).all (· v)

/-- `not`, `allOf`, `anyOf` and `oneOf` -/
def combination (v : Value) : Bool :=
  a.notSchema.all (fun p => !p v) && a.allOf.all (·.all (· v)) && a.anyOf.all (·.any (· v))
    && a.oneOf.all (·.countP (· v) == 1)

/-- `items` and `additionalItems`: a list of schemas is for the first elements, and
`additionalItems` for the elements after them. -/
def elements (xs : List Value) : Bool :=
  match a.items, a.itemsList with
  | some p, _ => xs.all p
  | none, some ps =>
    (xs.zip ps).all (fun x => x.2 x.1) && a.additionalItems.all (xs.drop ps.length).all
  | none, none => true

/-- `contains`: the number of valid elements is at most `maxContains` and at least `minContains`. -/
def containing (xs : List Value) : Bool :=
  a.contains.all fun p =>
    countAtMost cs.maxContainsVal (xs.countP p) && countAtLeast cs.minContainsVal (xs.countP p)

/-- The schemas of `patternProperties` whose pattern matches a name. -/
def matching (k : RString) : List (Value → Bool) :=
  ((a.patternProperties.getD []).filter fun p => (rt.regMatch p.1 k).toOption == some true).map
    (·.2)

/-- One property: its name against `propertyNames`, its value against `properties` and every
matching schema of `patternProperties`, and against `additionalProperties` if there is neither. -/
def property (k : RString) (v : Value) : Bool :=
  a.propertyNames.all (· (.str k)) && ((a.properties.getD []).lookup k).all (· v)
    && (a.matching rt k).all (· v)
    && (((a.properties.getD []).lookup k).isSome || !(a.matching rt k).isEmpty
      || a.additionalProperties.all (· v))

/-- `dependencies`: the schema of a property that is present. -/
def depending (kvs : List (Value × Value)) : Bool :=
  (a.dependencies.getD []).all fun p =>
    !(Value.lookup kvs (.str p.1)).isSome || p.2 (.hash kvs)

/-- The applicators of arrays and of objects. -/
def parts : Value → Bool
  | .arr xs => a.elements xs && a.containing cs xs
  | .hash kvs => a.depending kvs && (Value.stringEntries kvs).all fun kv => a.property rt kv.1 kv.2
  | _ => true

/-- The applicators hold of a value. -/
def holds (v : Value) : Bool := a.parts rt cs v && a.conditional v && a.combination v

end Meaning

end Applicators

section Leaf

variable (rt : Runtime) (cs : CompiledSchema)

/-- Whether the `type` keyword admits arrays or objects: `own` is the function of that one type. -/
def admits (flag : TypeFlag) (own : TypeValidationFunction) : Bool :=
  match cs.typeValidationFunction with
  | some .validateByDataType => true
  | some .validateByTypeList => flag ∈ cs.typeFlags
  | f => f == some own

/-- The check of the type, with the keywords of the type that are about the value alone. -/
def typeHolds (v : Value) : Bool :=
  match v with
  | .arr xs => admits cs .array .validateArray && (validateArraySizes cs (.root v) xs).passes
  | .hash kvs => admits cs .object .validateObject && (validateObjectSizes cs (.root v) kvs).passes
  | _ => (validateType rt cs (.root v)).passes

/-- The checks of the value itself: its type, the keywords of its type, `const` and `enum`. -/
def leafHolds (v : Value) : Bool :=
  typeHolds rt cs v && cs.constVal.all (fun c => Value.equal false c v)
    && cs.enumVal.all fun e => Value.includes e v

/-- The meaning of a schema, given those of its children. -/
def meaning (a : Applicators (Value → Bool)) (v : Value) : Bool :=
  match cs.validationFunction with
  | some .noOpValidate => true
  | some .validate => leafHolds rt cs v && a.holds rt cs v
  | _ => false

mutual

/-- The meaning of a compiled schema. -/
def denote : CompiledSchema → Value → Bool
  | cs@{
      ifSchema, thenSchema, elseSchema, notSchema, itemsSchema, additionalItemsSchema,
      containsSchema, propertyNamesSchema, additionalPropertiesSchema, allOfVal, anyOfVal, oneOfVal,
      itemsVal, propertiesVal, patternPropertiesVal, dependenciesVal, .. } =>
    meaning rt cs {
      ifSchema := denoteOpt ifSchema
      thenSchema := denoteOpt thenSchema
      elseSchema := denoteOpt elseSchema
      notSchema := denoteOpt notSchema
      allOf := denoteArray allOfVal
      anyOf := denoteArray anyOfVal
      oneOf := denoteArray oneOfVal
      items := denoteOpt itemsSchema
      itemsList := denoteArray itemsVal
      additionalItems := denoteOpt additionalItemsSchema
      contains := denoteOpt containsSchema
      propertyNames := denoteOpt propertyNamesSchema
      properties := denoteHash propertiesVal
      patternProperties := denoteHash patternPropertiesVal
      additionalProperties := denoteOpt additionalPropertiesSchema
      dependencies := denoteHash dependenciesVal }

/-- The meaning of a child, if there is one. -/
def denoteOpt : Option CompiledSchema → Option (Value → Bool)
  | none => none
  | some cs => some (denote cs)

/-- The meanings of a list. -/
def denoteList : List CompiledSchema → List (Value → Bool)
  | [] => []
  | cs :: rest => denote cs :: denoteList rest

/-- The meanings of an unset or set list. -/
def denoteArray : Option (List CompiledSchema) → Option (List (Value → Bool))
  | none => none
  | some css => some (denoteList css)

/-- The meanings of a map. -/
def denoteEntries : List (RString × CompiledSchema) → List (RString × (Value → Bool))
  | [] => []
  | (key, cs) :: rest => (key, denote cs) :: denoteEntries rest

/-- The meanings of an unset or set map. -/
def denoteHash :
    Option (List (RString × CompiledSchema)) → Option (List (RString × (Value → Bool)))
  | none => none
  | some m => some (denoteEntries m)

end

theorem denoteOpt_eq (o : Option CompiledSchema) : denoteOpt rt o = o.map (denote rt) := by
  cases o <;> rfl

theorem denoteList_eq (css : List CompiledSchema) : denoteList rt css = css.map (denote rt) := by
  induction css with
  | nil => rfl
  | cons cs rest ih => rw [denoteList, ih, List.map_cons]

theorem denoteArray_eq (o : Option (List CompiledSchema)) :
    denoteArray rt o = o.map (·.map (denote rt)) := by
  cases o with
  | none => rfl
  | some css => rw [denoteArray, denoteList_eq, Option.map_some]

theorem denoteEntries_eq (m : List (RString × CompiledSchema)) :
    denoteEntries rt m = m.map fun p => (p.1, denote rt p.2) := by
  induction m with
  | nil => rfl
  | cons p rest ih => rw [denoteEntries, ih, List.map_cons]

theorem denoteHash_eq (o : Option (List (RString × CompiledSchema))) :
    denoteHash rt o = o.map (·.map fun p => (p.1, denote rt p.2)) := by
  cases o with
  | none => rfl
  | some m => rw [denoteHash, denoteEntries_eq, Option.map_some]

/-- **The meaning of a schema** is that of its keywords over the meanings of its children. -/
theorem denote_eq : denote rt cs = meaning rt cs (cs.applicators.map (denote rt)) := by
  cases cs
  rw [denote]
  simp only [denoteOpt_eq, denoteArray_eq, denoteHash_eq]
  rfl

end Leaf

end FastJsonSchema
