import FastJsonSchema.Schema.Applicators
import FastJsonSchema.Traversal.Mirrors
import FastJsonSchema.Validate.Calls

/-!
# Schemas with the same keywords

Two compiled schemas with the same fields of their own, up to `type`, and with related schemas under
their keywords make the same checks, with related calls (`validate_mirrors`, `body_mirrors`). The
nested schemas do not matter: they are in the tree for the sake of the references to them.
-/

namespace FastJsonSchema

open Ruby Traversal

/-- What a schema has of its own, without the dispatch by type. -/
def CompiledSchema.untyped (cs : CompiledSchema) : CompiledSchema :=
  { cs.own with typeValidationFunction := none, typeFlags := [] }

/-- The same fields but for `type`, and related schemas under the keywords. -/
structure SameUpToType (R : CompiledSchema → CompiledSchema → Prop) (cs cs' : CompiledSchema) :
    Prop where
  untyped : cs'.untyped = cs.untyped
  applicators : cs.applicators.Rel R cs'.applicators

/-- Calls of related schemas about the same value. -/
def SameDatum (R : CompiledSchema → CompiledSchema → Prop) (c c' : Call) : Prop :=
  R c.1 c'.1 ∧ c'.2 = c.2

/-! ## Loops -/

section Loops

variable {S : Call → Call → Prop} {calls calls' : List Call} {k k' : ℕ → Code} {p p' : Code}

theorem converted_mirrors {α : Type} (x : Except RubyError α) {f g : α → Code}
    (h : ∀ a, (f a).Mirrors S (g a)) : (converted x f).Mirrors S (converted x g) := by
  cases x with
  | ok a => exact h a
  | error e => exact .raise e

theorem countValid_mirrors (hc : List.Forall₂ S calls calls') (hk : ∀ n, (k n).Mirrors S (k' n)) :
    ∀ n, (countValid calls n k).Mirrors S (countValid calls' n k') := by
  induction hc with
  | nil => exact hk
  | cons hc _ ih => exact fun n => .guarded hc fun b => ih _

theorem untilValid_mirrors (hc : List.Forall₂ S calls calls') (hp : p.Mirrors S p') :
    (untilValid calls p).Mirrors S (untilValid calls' p') := by
  induction hc with
  | nil => exact hp
  | cons hc _ ih =>
    refine .guarded hc fun b => ?_
    cases b with
    | true => exact .skip
    | false => exact ih

theorem countUpToTwo_mirrors (hc : List.Forall₂ S calls calls') (hk : ∀ n, (k n).Mirrors S (k' n)) :
    ∀ n, (countUpToTwo calls n k).Mirrors S (countUpToTwo calls' n k') := by
  induction hc with
  | nil => exact hk
  | cons hc _ ih =>
    refine fun n => .guarded hc fun b => ?_
    cases b with
    | false => exact ih n
    | true =>
      rw [if_pos rfl, if_pos rfl]
      split_ifs
      · exact hk _
      · exact ih _

theorem ifSet_mirrors {α β : Type} {T : α → β → Prop} {o : Option α} {o' : Option β}
    {f : α → Code} {g : β → Code} (h : Option.Rel T o o')
    (hfg : ∀ a b, T a b → (f a).Mirrors S (g b)) : (ifSet o f).Mirrors S (ifSet o' g) := by
  cases h with
  | none => exact .skip
  | some h => exact hfg _ _ h

end Loops

section Schemas

variable {rt : Runtime} {R : CompiledSchema → CompiledSchema → Prop}
  (hpath : ∀ c c', R c c' → c'.path = c.path) {cs cs' : CompiledSchema} {d : Datum}

theorem yieldError_mirrors {S : Call → Call → Prop} (h : cs'.path = cs.path) (type : RString) :
    (yieldError cs d type).Mirrors S (yieldError cs' d type) := by
  rw [yieldError, yieldError, h]
  exact .fail _

theorem violation_mirrors {S : Call → Call → Prop} (h : cs'.path = cs.path) {b : Bool}
    {type : RString} :
    (Prog.when b (yieldError cs d type)).Mirrors S (.when b (yieldError cs' d type)) :=
  .when fun _ => yieldError_mirrors h type

/-- The calls of related lists of schemas. -/
theorem calls_mirrors {l l' : List CompiledSchema} (h : List.Forall₂ R l l') :
    List.Forall₂ (SameDatum R) (l.map (·, d)) (l'.map (·, d)) := by
  rw [List.forall₂_map_left_iff, List.forall₂_map_right_iff]
  exact h.imp fun _ _ hr => ⟨hr, rfl⟩

theorem SameUpToType.path (h : SameUpToType R cs cs') : cs'.path = cs.path :=
  (congrArg CompiledSchema.path h.untyped :)

/-- A check that reads only what a schema has of its own but for `type`, and makes no calls. -/
theorem leaf_mirrors {S : Call → Call → Prop} {g : CompiledSchema → Code}
    (h : SameUpToType R cs cs') (hg : ∀ cs, g cs = g cs.untyped)
    (hcalls : (g cs).CallsIn fun _ => False) : (g cs).Mirrors S (g cs') := by
  have heq : g cs' = g cs := by rw [hg cs', h.untyped, ← hg]
  rw [heq]
  exact .refl (hcalls.mono fun _ => False.elim)

/-! ## Arrays -/

section Array

theorem validateItems_mirrors {items items' : CompiledSchema} (h : R items items')
    (xs : List Value) :
    (validateItems d items xs).Mirrors (SameDatum R) (validateItems d items' xs) := by
  refine .each_map (T := Eq) (List.forall₂_same.2 fun _ _ => rfl) ?_
  rintro x _ rfl
  exact ⟨rfl, .call ⟨h, rfl⟩⟩

theorem validateWithMultipleItemsSchema_mirrors {l l' : List CompiledSchema}
    (h : List.Forall₂ R l l') (xs : List Value) :
    (validateWithMultipleItemsSchema d l xs).Mirrors (SameDatum R)
      (validateWithMultipleItemsSchema d l' xs) := by
  have hzip : ∀ ys : List (Token × Datum), List.Forall₂
      (fun x y : (Token × Datum) × CompiledSchema => x.1 = y.1 ∧ R x.2 y.2)
        (ys.zip l) (ys.zip l') := by
    induction h with
    | nil =>
      rintro (_ | ⟨y, ys⟩)
      · exact .nil
      · exact .nil
    | cons h _ ih =>
      rintro (_ | ⟨y, ys⟩)
      · exact .nil
      · exact .cons ⟨rfl, h⟩ (ih ys)
  refine .each_map (hzip _) ?_
  rintro ⟨x, c⟩ ⟨y, c'⟩ ⟨hxy, hr⟩
  obtain rfl : x = y := hxy
  exact ⟨rfl, .call ⟨hr, rfl⟩⟩

theorem validateAdditionalItems_mirrors {l l' : List CompiledSchema} {c c' : CompiledSchema}
    (hl : l.length = l'.length) (h : R c c') (xs : List Value) :
    (validateAdditionalItems d l c xs).Mirrors (SameDatum R)
      (validateAdditionalItems d l' c' xs) := by
  rw [validateAdditionalItems, validateAdditionalItems, hl]
  refine .each_map (T := Eq) (List.forall₂_same.2 fun _ _ => rfl) ?_
  rintro x _ rfl
  exact ⟨rfl, .call ⟨h, rfl⟩⟩

include hpath

theorem validateContains_mirrors (h : SameUpToType R cs cs') {c c' : CompiledSchema} (hc : R c c')
    (xs : List Value) :
    (validateContains cs d c xs).Mirrors (SameDatum R) (validateContains cs' d c' xs) := by
  have hmax : cs'.maxContainsVal = cs.maxContainsVal :=
    (congrArg CompiledSchema.maxContainsVal h.untyped :)
  have hmin : cs'.minContainsVal = cs.minContainsVal :=
    (congrArg CompiledSchema.minContainsVal h.untyped :)
  rw [validateContains, validateContains, hmax, hmin]
  refine countValid_mirrors ?_ (fun n => .seq ?_ (.seq ?_ .skip)) 0
  · rw [List.forall₂_map_left_iff, List.forall₂_map_right_iff]
    exact List.forall₂_same.2 fun x _ => ⟨hc, rfl⟩
  · split
    · exact converted_mirrors _ fun m => violation_mirrors h.path
    · exact .skip
  · split
    · exact converted_mirrors _ fun m => violation_mirrors h.path
    · exact violation_mirrors (hpath c c' hc)

theorem validateArray_mirrors (h : SameUpToType R cs cs') :
    (validateArray cs d).Mirrors (SameDatum R) (validateArray cs' d) := by
  have hitems : Option.Rel R cs.itemsSchema cs'.itemsSchema := h.applicators.items
  have hlist : Option.Rel (List.Forall₂ R) cs.itemsVal cs'.itemsVal := h.applicators.itemsList
  have hadditional : Option.Rel R cs.additionalItemsSchema cs'.additionalItemsSchema :=
    h.applicators.additionalItems
  have hcontains : Option.Rel R cs.containsSchema cs'.containsSchema := h.applicators.contains
  unfold validateArray
  split
  case h_2 => exact yieldError_mirrors h.path _
  case h_1 xs _ =>
  refine .seq ?_ (.seq ?_ (.seq ?_ .skip))
  · exact leaf_mirrors (g := fun cs => validateArraySizes cs d xs) h (fun _ => rfl)
      (validateArraySizes_calls _ xs)
  · generalize cs.itemsSchema = o, cs'.itemsSchema = o' at hitems
    generalize cs.itemsVal = l, cs'.itemsVal = l' at hlist
    generalize cs.additionalItemsSchema = a, cs'.additionalItemsSchema = a' at hadditional
    cases hitems with
    | some hr => exact validateItems_mirrors hr xs
    | none =>
      cases hlist with
      | none => exact .skip
      | some hl =>
        refine .seq (validateWithMultipleItemsSchema_mirrors hl xs) ?_
        cases hadditional with
        | none => exact .skip
        | some hr =>
          dsimp only
          rw [hl.length_eq]
          exact .when fun _ => validateAdditionalItems_mirrors hl.length_eq hr xs
  · generalize cs.containsSchema = o, cs'.containsSchema = o' at hcontains
    cases hcontains with
    | none => exact .skip
    | some hr => exact validateContains_mirrors hpath h hr xs

end Array

/-! ## Objects -/

section Object

open Applicators

/-- The schemas of a name in maps with related schemas. -/
theorem schemaOf_rel {m m' : Option (List (RString × CompiledSchema))}
    (h : Option.Rel (List.Forall₂ (Entry R)) m m') (k : RString) :
    Option.Rel R (schemaOf m k) (schemaOf m' k) := by
  have hlookup : ∀ {l l' : List (RString × CompiledSchema)}, List.Forall₂ (Entry R) l l' →
      Option.Rel R (l.lookup k) (l'.lookup k) := by
    intro l l' h
    induction h with
    | nil => exact .none
    | @cons e e' l l' he _ ih =>
      obtain ⟨key, c⟩ := e
      obtain ⟨key', c'⟩ := e'
      obtain ⟨hkey, hr⟩ := he
      obtain rfl : key = key' := hkey
      rw [List.lookup_cons, List.lookup_cons]
      cases k == key with
      | true => exact .some hr
      | false => exact ih
  exact hlookup (forall₂_getD h)

theorem patterns_rel (h : SameUpToType R cs cs') :
    List.Forall₂ (Entry R) cs.patterns cs'.patterns := forall₂_getD h.applicators.patternProperties

/-- The same names are validated by `properties` and `patternProperties`. -/
theorem validated_mirrors (h : SameUpToType R cs cs') (k : RString) :
    validated rt cs' k = validated rt cs k := by
  have hproperty : (schemaOf cs'.propertiesVal k).isSome
      = (schemaOf cs.propertiesVal k).isSome := by
    have hr : Option.Rel R (schemaOf cs.propertiesVal k) (schemaOf cs'.propertiesVal k) :=
      schemaOf_rel h.applicators.properties k
    generalize schemaOf cs.propertiesVal k = o, schemaOf cs'.propertiesVal k = o' at hr ⊢
    cases hr <;> rfl
  have hpatterns : ∀ {l l' : List (RString × CompiledSchema)}, List.Forall₂ (Entry R) l l' →
      l'.any (fun p => (rt.regMatch p.1 k).toOption == some true)
        = l.any fun p => (rt.regMatch p.1 k).toOption == some true := by
    intro l l' h
    induction h with
    | nil => rfl
    | cons he _ ih => rw [List.any_cons, List.any_cons, ih, he.1]
  rw [validated, validated, hproperty, hpatterns (patterns_rel h)]

theorem validateObjectProperty_mirrors (h : SameUpToType R cs cs') (k : RString) (v : Value) :
    (validateObjectProperty rt cs d k v).Mirrors (SameDatum R)
      (validateObjectProperty rt cs' d k v) := by
  have hnames : Option.Rel R cs.propertyNamesSchema cs'.propertyNamesSchema :=
    h.applicators.propertyNames
  have hproperty : Option.Rel R (schemaOf cs.propertiesVal k) (schemaOf cs'.propertiesVal k) :=
    schemaOf_rel h.applicators.properties k
  have hadditional : Option.Rel R cs.additionalPropertiesSchema cs'.additionalPropertiesSchema :=
    h.applicators.additionalProperties
  rw [validateObjectProperty, validateObjectProperty, validated_mirrors h]
  refine .seq ?_ (.seq ?_ (.seq (.block ?_) (.seq ?_ .skip)))
  · generalize cs.propertyNamesSchema = o, cs'.propertyNamesSchema = o' at hnames
    cases hnames with
    | none => exact .skip
    | some hr => exact .call ⟨hr, rfl⟩
  · generalize schemaOf cs.propertiesVal k = o, schemaOf cs'.propertiesVal k = o' at hproperty
    cases hproperty with
    | none => exact .skip
    | some hr => exact .call ⟨hr, rfl⟩
  · rw [List.forall₂_map_left_iff, List.forall₂_map_right_iff]
    refine (patterns_rel h).imp fun e e' he => ?_
    rw [he.1]
    exact converted_mirrors _ fun m => .when fun _ => .call ⟨he.2, rfl⟩
  · generalize cs.additionalPropertiesSchema = o, cs'.additionalPropertiesSchema = o'
      at hadditional
    cases hadditional with
    | none => exact .skip
    | some hr => exact .when fun _ => .call ⟨hr, rfl⟩

theorem validateObject_mirrors (h : SameUpToType R cs cs') :
    (validateObject rt cs d).Mirrors (SameDatum R) (validateObject rt cs' d) := by
  have hdependencies : List.Forall₂ (Entry R) (cs.dependenciesVal.getD [])
      (cs'.dependenciesVal.getD []) := forall₂_getD h.applicators.dependencies
  unfold validateObject
  split
  case h_2 => exact yieldError_mirrors h.path _
  case h_1 kvs _ =>
  refine .seq ?_ (.seq (.block ?_) (.seq ?_ .skip))
  · exact leaf_mirrors (g := fun cs => validateObjectSizes cs d kvs) h (fun _ => rfl)
      (validateObjectSizes_calls _ kvs)
  · rw [List.forall₂_map_left_iff, List.forall₂_map_right_iff]
    refine hdependencies.imp fun e e' he => ?_
    rw [he.1]
    exact .when fun _ => .call ⟨he.2, rfl⟩
  · refine .each_map (T := Eq) (List.forall₂_same.2 fun _ _ => rfl) ?_
    rintro kv _ rfl
    exact ⟨rfl, validateObjectProperty_mirrors h kv.1 kv.2⟩

end Object

/-! ## A whole schema -/

section Schema

theorem validateInteger_mirrors {S : Call → Call → Prop} (h : SameUpToType R cs cs') :
    (validateInteger rt cs d).Mirrors S (validateInteger rt cs' d) :=
  leaf_mirrors (g := fun cs => validateInteger rt cs d) h (fun _ => rfl) (validateInteger_calls _)

theorem validateNumber_mirrors {S : Call → Call → Prop} (h : SameUpToType R cs cs') :
    (validateNumber rt cs d).Mirrors S (validateNumber rt cs' d) :=
  leaf_mirrors (g := fun cs => validateNumber rt cs d) h (fun _ => rfl) (validateNumber_calls _)

theorem validateString_mirrors {S : Call → Call → Prop} (h : SameUpToType R cs cs') :
    (validateString rt cs d).Mirrors S (validateString rt cs' d) :=
  leaf_mirrors (g := fun cs => validateString rt cs d) h (fun _ => rfl) (validateString_calls _)

theorem validateNull_mirrors {S : Call → Call → Prop} (h : SameUpToType R cs cs') :
    (validateNull cs d).Mirrors S (validateNull cs' d) :=
  leaf_mirrors (g := fun cs => validateNull cs d) h (fun _ => rfl) (validateNull_calls _)

theorem validateBool_mirrors {S : Call → Call → Prop} (h : SameUpToType R cs cs') :
    (validateBool cs d).Mirrors S (validateBool cs' d) :=
  leaf_mirrors (g := fun cs => validateBool cs d) h (fun _ => rfl) (validateBool_calls _)

include hpath

theorem validateByDataType_mirrors (h : SameUpToType R cs cs') :
    (validateByDataType rt cs d).Mirrors (SameDatum R) (validateByDataType rt cs' d) := by
  unfold validateByDataType
  split
  · exact validateInteger_mirrors h
  · exact validateNumber_mirrors h
  · exact validateString_mirrors h
  · exact validateObject_mirrors h
  · exact validateArray_mirrors hpath h
  · exact .skip

theorem validateByTypeList_mirrors (h : SameUpToType R cs cs')
    (hflags : cs'.typeFlags = cs.typeFlags) :
    (validateByTypeList rt cs d).Mirrors (SameDatum R) (validateByTypeList rt cs' d) := by
  unfold validateByTypeList
  dsimp only
  rw [hflags]
  split
  · split_ifs
    · exact validateNull_mirrors h
    · exact yieldError_mirrors h.path _
  · split_ifs
    · exact validateBool_mirrors h
    · exact yieldError_mirrors h.path _
  · split_ifs
    · exact validateInteger_mirrors h
    · exact validateNumber_mirrors h
    · exact yieldError_mirrors h.path _
  · split_ifs
    · exact validateNumber_mirrors h
    · exact yieldError_mirrors h.path _
  · split_ifs
    · exact validateString_mirrors h
    · exact yieldError_mirrors h.path _
  · split_ifs
    · exact validateObject_mirrors h
    · exact yieldError_mirrors h.path _
  · split_ifs
    · exact validateArray_mirrors hpath h
    · exact yieldError_mirrors h.path _
  · exact .skip

theorem validateType_mirrors (h : SameUpToType R cs cs')
    (htype : cs'.typeValidationFunction = cs.typeValidationFunction)
    (hflags : cs'.typeFlags = cs.typeFlags) :
    (validateType rt cs d).Mirrors (SameDatum R) (validateType rt cs' d) := by
  unfold validateType
  rw [htype]
  split
  · exact validateNull_mirrors h
  · exact validateBool_mirrors h
  · exact validateString_mirrors h
  · exact validateInteger_mirrors h
  · exact validateNumber_mirrors h
  · exact validateArray_mirrors hpath h
  · exact validateObject_mirrors h
  · exact validateByDataType_mirrors hpath h
  · exact validateByTypeList_mirrors hpath h hflags
  · exact .skip
  · exact .crash

theorem runBranch_mirrors {c c' : CompiledSchema} (h : R c c') (type : RString) :
    (runBranch d c type).Mirrors (SameDatum R) (runBranch d c' type) :=
  .guarded ⟨h, rfl⟩ fun _ => violation_mirrors (hpath c c' h)

theorem validateIf_mirrors (h : SameUpToType R cs cs') {c c' : CompiledSchema} (hc : R c c') :
    (validateIf cs d c).Mirrors (SameDatum R) (validateIf cs' d c') := by
  have hthen : Option.Rel R cs.thenSchema cs'.thenSchema := h.applicators.thenSchema
  have helse : Option.Rel R cs.elseSchema cs'.elseSchema := h.applicators.elseSchema
  unfold validateIf
  generalize cs.thenSchema = o, cs'.thenSchema = o' at hthen
  generalize cs.elseSchema = e, cs'.elseSchema = e' at helse
  cases hthen with
  | none =>
    cases helse with
    | none => exact .skip
    | some he =>
      refine .guarded ⟨hc, rfl⟩ fun valid => ?_
      cases valid with
      | true => exact .skip
      | false => exact runBranch_mirrors hpath he _
  | some ht =>
    cases helse with
    | none =>
      refine .guarded ⟨hc, rfl⟩ fun valid => ?_
      cases valid with
      | true => exact runBranch_mirrors hpath ht _
      | false => exact .skip
    | some he =>
      refine .guarded ⟨hc, rfl⟩ fun valid => ?_
      cases valid with
      | true => exact runBranch_mirrors hpath ht _
      | false => exact runBranch_mirrors hpath he _

/-- The checks of `validate` after those of the type. -/
theorem validate_mirrors (h : SameUpToType R cs cs')
    (htype : (validateType rt cs d).Mirrors (SameDatum R) (validateType rt cs' d)) :
    (validate rt cs d).Mirrors (SameDatum R) (validate rt cs' d) := by
  refine .seq htype (.seq ?_ (.seq ?_ (.seq ?_ (.seq ?_ (.seq ?_ (.seq ?_ (.seq ?_ .skip)))))))
  · exact leaf_mirrors (g := fun cs => ifSet cs.constVal (validateConst cs d)) h (fun _ => rfl)
      (ifSet_calls fun _ _ => violation_calls)
  · exact leaf_mirrors (g := fun cs => ifSet cs.enumVal (validateEnum cs d)) h (fun _ => rfl)
      (ifSet_calls fun _ _ => violation_calls)
  · exact ifSet_mirrors h.applicators.ifSchema fun _ _ hc => validateIf_mirrors hpath h hc
  · exact ifSet_mirrors h.applicators.notSchema fun c c' hc =>
      .guarded ⟨hc, rfl⟩ fun _ => violation_mirrors (hpath c c' hc)
  · refine ifSet_mirrors h.applicators.allOf fun l l' hl => ?_
    rw [validateAllOf, validateAllOf, hl.length_eq]
    exact countValid_mirrors (calls_mirrors hl) (fun _ => violation_mirrors h.path) 0
  · exact ifSet_mirrors h.applicators.anyOf fun l l' hl =>
      untilValid_mirrors (calls_mirrors hl) (yieldError_mirrors h.path _)
  · exact ifSet_mirrors h.applicators.oneOf fun l l' hl =>
      countUpToTwo_mirrors (calls_mirrors hl) (fun _ => violation_mirrors h.path) 0

/-- **Schemas with the same fields make related calls**, when the schemas under their keywords and
the targets of their references are related. -/
theorem body_mirrors {heap heap' : Addr → Option CompiledSchema} (hown : cs'.own = cs.own)
    (hchildren : cs.validationFunction = some .validate → cs.applicators.Rel R cs'.applicators)
    (htarget : Option.Rel R (cs.refSchema.bind heap) (cs'.refSchema.bind heap')) :
    (body rt heap (cs, d)).Mirrors (SameDatum R) (body rt heap' (cs', d)) := by
  have hfunction : cs'.validationFunction = cs.validationFunction :=
    (congrArg CompiledSchema.validationFunction hown :)
  have hpath' : cs'.path = cs.path := (congrArg CompiledSchema.path hown :)
  unfold body
  dsimp only
  rw [hfunction]
  split
  · exact .skip
  · exact yieldError_mirrors hpath' _
  next hvalidate =>
    have hsame : SameUpToType R cs cs' :=
      ⟨congrArg (fun c => { c with typeValidationFunction := none, typeFlags := [] }) hown,
        hchildren hvalidate⟩
    exact validate_mirrors hpath hsame (validateType_mirrors hpath hsame
      (congrArg CompiledSchema.typeValidationFunction hown :)
      (congrArg CompiledSchema.typeFlags hown :))
  · rw [validateRef, validateRef]
    generalize cs.refSchema.bind heap = o, cs'.refSchema.bind heap' = o' at htarget
    cases htarget with
    | none => exact .crash
    | some hr => exact .call ⟨hr, rfl⟩
  · exact .crash

end Schema

end Schemas

end FastJsonSchema
