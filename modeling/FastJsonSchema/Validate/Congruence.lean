import FastJsonSchema.Compile.Reordered
import FastJsonSchema.Validate.References

/-!
# What the order of members does not change

What the keywords of a schema say does not depend on the order of its members or of those of the
instance (`schemaMeaning_same`): each keyword reads the members of a schema by their keys, and each
applicator of objects reads those of the instance so. The lemmas are about one schema, whatever its
subschemas mean.
-/

namespace FastJsonSchema

open Ruby Value Table

/-! ## Keywords -/

section Keywords

variable {kvs kvs' : List (Value × Value)} (h : SameMembers kvs kvs') (keyword : RString)

include h

omit h in
/-- The types that are named. -/
theorem any_namesType_same {names names' : List Value} (hnames : List.Forall₂ Same names names')
    (flag : TypeFlag) : names.any (namesType flag) = names'.any (namesType flag) := by
  induction hnames with
  | nil => rfl
  | cons hname _ ih =>
    rw [List.any_cons, List.any_cons, ih]
    cases hname.alike <;> rfl

theorem typeAdmits_same (flag : TypeFlag) : typeAdmits kvs flag = typeAdmits kvs' flag := by
  have haref := (h.aref typeStr).alike
  unfold typeAdmits
  generalize Value.aref kvs typeStr = v, Value.aref kvs' typeStr = w at haref
  cases haref with
  | arr hnames => exact any_namesType_same hnames flag
  | _ => rfl

theorem namesNoType_same : namesNoType kvs = namesNoType kvs' := by
  have haref := (h.aref typeStr).alike
  unfold namesNoType
  generalize Value.aref kvs typeStr = v, Value.aref kvs' typeStr = w at haref
  cases haref <;> rfl

variable (rt : Runtime) (customFormats : Option (List (RString × ℕ)))

theorem numericHolds_same (int : ℤ → Bool) (float : Double → Bool) :
    numericHolds kvs keyword int float = numericHolds kvs' keyword int float := by
  rw [numericHolds, numericHolds, numberKeyword_same h]

theorem sizeHolds_same (num : Value → Except RubyError ℤ) (holds : ℤ → Bool) :
    sizeHolds kvs num keyword holds = sizeHolds kvs' num keyword holds := by
  rw [sizeHolds, sizeHolds, numberKeyword_same h]

theorem integerHolds_same (n : ℤ) : integerHolds rt kvs n = integerHolds rt kvs' n := by
  simp only [integerHolds, numericHolds_same h]

theorem doubleHolds_same (x : Double) : doubleHolds rt kvs x = doubleHolds rt kvs' x := by
  simp only [doubleHolds, numericHolds_same h]

theorem stringHolds_same (s : RString) :
    stringHolds rt customFormats kvs s = stringHolds rt customFormats kvs' s := by
  simp only [stringHolds, patternHolds, formatHolds, sizeHolds_same h, stringKeyword_same h]

theorem arrayHolds_same {xs ys : List Value} (hxs : List.Forall₂ Same xs ys) :
    arrayHolds kvs xs = arrayHolds kvs' ys := by
  have huniq : ((uniq xs).length == xs.length) = ((uniq ys).length == ys.length) := by
    have hlt := length_uniq_lt_congr hxs
    have := length_uniq_le xs
    have := length_uniq_le ys
    rw [Bool.eq_iff_iff, beq_iff_eq, beq_iff_eq]
    omega
  rw [arrayHolds, arrayHolds, huniq, hxs.length_eq, sizeHolds_same h, sizeHolds_same h,
    boolKeyword_same h]

theorem objectHolds_same {members members' : List (Value × Value)}
    (hm : SameMembers members members') :
    objectHolds kvs members = objectHolds kvs' members' := by
  have hrequired : (arrayKeyword kvs requiredStr).all
        (·.all fun name => (Value.lookup members name).isSome)
      = (arrayKeyword kvs' requiredStr).all
        (·.all fun name => (Value.lookup members' name).isSome) := by
    have hnames := arrayKeyword_same h requiredStr
    generalize arrayKeyword kvs requiredStr = o, arrayKeyword kvs' requiredStr = o' at hnames
    cases hnames with
    | none => rfl
    | some hnames =>
      rw [Option.all_some, Option.all_some]
      induction hnames with
      | nil => rfl
      | cons hname _ ih => rw [List.all_cons, List.all_cons, ih, hm.lookup_isSome hname]
  rw [objectHolds, objectHolds, hrequired, hm.length_eq, sizeHolds_same h, sizeHolds_same h]

end Keywords

/-! ## Subschemas -/

theorem sameKeys_members {kvs kvs' : List (Value × Value)} (h : SameMembers kvs kvs') :
    SameKeys Same (stringEntries kvs) (stringEntries kvs') :=
  ⟨h.nodup, h.perm, fun k v w hv hw =>
    h.same k v w (mem_stringEntries.1 hv) (mem_stringEntries.1 hw)⟩

/-- Two predicates agree on the values of a kind. -/
def AgreeOn (D : Value → Prop) (p q : Value → Bool) : Prop := ∀ w w', Same w w' → D w → p w = q w'

/-- The meanings of the subschemas agree: where they are about the value on the value, and where
they are about its parts on what is nested less. -/
abbrev Agree (v : Value) : Applicators (Value → Bool) → Applicators (Value → Bool) → Prop :=
  Applicators.Shuffled (AgreeOn (· = v)) (AgreeOn (·.nesting < v.nesting))

theorem rel_all {α β : Type} {R : α → β → Prop} {o : Option α} {o' : Option β} {p : α → Bool}
    {q : β → Bool} (h : Option.Rel R o o') (hpq : ∀ a b, R a b → p a = q b) :
    o.all p = o'.all q := by
  cases h with
  | none => rfl
  | some hr => exact hpq _ _ hr

section Forall₂

variable {α β : Type} {R : α → β → Prop} {l : List α} {l' : List β} {p : α → Bool} {q : β → Bool}
  (h : List.Forall₂ R l l') (hpq : ∀ a b, R a b → p a = q b)

include h hpq

theorem forall₂_all_eq : l.all p = l'.all q := by
  induction h with
  | nil => rfl
  | cons hr _ ih => rw [List.all_cons, List.all_cons, hpq _ _ hr, ih]

theorem forall₂_any_eq : l.any p = l'.any q := by
  induction h with
  | nil => rfl
  | cons hr _ ih => rw [List.any_cons, List.any_cons, hpq _ _ hr, ih]

theorem forall₂_countP_eq : l.countP p = l'.countP q := by
  induction h with
  | nil => rfl
  | cons hr _ ih => rw [List.countP_cons, List.countP_cons, hpq _ _ hr, ih]

end Forall₂

namespace Agree

variable {rt : Runtime} {v v' : Value} {a a' : Applicators (Value → Bool)} (h : Agree v a a')
  (hv : Same v v')

include h hv

theorem conditional : a.conditional v = a'.conditional v' := by
  have hif := h.ifSchema
  have happly : ∀ p q, AgreeOn (· = v) p q → p v = q v' := fun p q hpq => hpq v v' hv rfl
  rw [Applicators.conditional, Applicators.conditional]
  generalize a.ifSchema = o, a'.ifSchema = o' at hif
  cases hif with
  | none => rfl
  | some hpq =>
    dsimp only
    rw [happly _ _ hpq]
    split_ifs
    · exact rel_all h.thenSchema happly
    · exact rel_all h.elseSchema happly

theorem combination : a.combination v = a'.combination v' := by
  have happly : ∀ p q, AgreeOn (· = v) p q → p v = q v' := fun p q hpq => hpq v v' hv rfl
  have hnot : a.notSchema.all (fun p => !p v) = a'.notSchema.all fun p => !p v' :=
    rel_all h.notSchema fun p q hpq => by rw [happly p q hpq]
  have hall : a.allOf.all (·.all (· v)) = a'.allOf.all (·.all (· v')) :=
    rel_all h.allOf fun ps qs hps => forall₂_all_eq hps happly
  have hany : a.anyOf.all (·.any (· v)) = a'.anyOf.all (·.any (· v')) :=
    rel_all h.anyOf fun ps qs hps => forall₂_any_eq hps happly
  have hone : a.oneOf.all (·.countP (· v) == 1) = a'.oneOf.all (·.countP (· v') == 1) :=
    rel_all h.oneOf fun ps qs hps => by rw [forall₂_countP_eq hps happly]
  rw [Applicators.combination, Applicators.combination, hnot, hall, hany, hone]

end Agree

section Arrays

variable {xs ys : List Value} {a a' : Applicators (Value → Bool)} (h : Agree (.arr xs) a a')
  (hxs : List.Forall₂ Same xs ys)

include hxs

/-- The elements are nested less than the array. -/
theorem forall₂_elements :
    List.Forall₂ (fun x y => Same x y ∧ x.nesting < (Value.arr xs).nesting) xs ys :=
  forall₂_of_mem hxs fun x hx y _ hxy => ⟨hxy, by
    have := nesting_le_list hx
    rw [Value.nesting]
    omega⟩

omit hxs in
/-- A list of schemas is applied to the first elements. -/
theorem forall₂_zip_all {n : ℕ} {ps qs : List (Value → Bool)}
    (hxs : List.Forall₂ (fun x y => Same x y ∧ x.nesting < n) xs ys)
    (hps : List.Forall₂ (AgreeOn (·.nesting < n)) ps qs) :
    (xs.zip ps).all (fun x => x.2 x.1) = (ys.zip qs).all fun x => x.2 x.1 := by
  induction hxs generalizing ps qs with
  | nil => rfl
  | cons hxy _ ih =>
    cases hps with
    | nil => rfl
    | cons hpq hps =>
      rw [List.zip_cons_cons, List.zip_cons_cons, List.all_cons, List.all_cons, ih hps]
      exact congrArg (· && _) (hpq _ _ hxy.1 hxy.2)

include h

theorem Agree.elements : a.elements xs = a'.elements ys := by
  have hitems := h.items
  have hlist := h.itemsList
  have hinner := forall₂_elements hxs
  rw [Applicators.elements, Applicators.elements]
  generalize a.items = o, a'.items = o' at hitems
  generalize a.itemsList = l, a'.itemsList = l' at hlist
  cases hitems with
  | some hpq => exact forall₂_all_eq hinner fun x y hxy => hpq x y hxy.1 hxy.2
  | none =>
    cases hlist with
    | none => rfl
    | @some ps qs hps =>
      dsimp only
      rw [forall₂_zip_all hinner hps, hps.length_eq]
      refine congrArg _ (rel_all h.additionalItems fun p q hpq => ?_)
      exact forall₂_all_eq (List.forall₂_drop _ hinner) fun x y hxy => hpq x y hxy.1 hxy.2

theorem Agree.containsHolds {kvs kvs' : List (Value × Value)} (hkvs : SameMembers kvs kvs') :
    containsHolds kvs a xs = containsHolds kvs' a' ys :=
  rel_all h.contains fun p q hpq => by
    rw [numberKeyword_same hkvs, numberKeyword_same hkvs,
      forall₂_countP_eq (forall₂_elements hxs) fun x y hxy => hpq x y hxy.1 hxy.2]

end Arrays

section Objects

variable {rt : Runtime} {kvs kvs' : List (Value × Value)} {a a' : Applicators (Value → Bool)}
  (h : Agree (.hash kvs) a a')

include h

/-- Which patterns match a name depends on the patterns only. -/
theorem Agree.matching (rt : Runtime) (k : RString) {v v' : Value} (hv : Same v v')
    (hnesting : v.nesting < (Value.hash kvs).nesting) :
    (a.matching rt k).all (· v) = (a'.matching rt k).all (· v') ∧
      (a.matching rt k).isEmpty = (a'.matching rt k).isEmpty := by
  have hempty : ∀ m : List (RString × (Value → Bool)),
      (m.filter fun p => (rt.regMatch p.1 k).toOption == some true).isEmpty
        = m.all fun p => !((rt.regMatch p.1 k).toOption == some true) := by
    intro m
    rw [Bool.eq_iff_iff]
    simp
  have hpatterns := h.patternProperties
  rw [Applicators.matching, Applicators.matching]
  generalize a.patternProperties = o, a'.patternProperties = o' at hpatterns
  cases hpatterns with
  | none => exact ⟨rfl, rfl⟩
  | some hm =>
    simp only [Option.getD_some, List.isEmpty_map, hempty, List.all_map, List.all_filter]
    refine ⟨hm.all_eq fun k' p q _ hpq => ?_, hm.all_eq fun k' p q _ _ => rfl⟩
    exact congrArg (_ || ·) (hpq v v' hv hnesting)

theorem Agree.property {k : RString} {v v' : Value} (hv : Same v v')
    (hnesting : v.nesting < (Value.hash kvs).nesting) :
    a.property rt k v = a'.property rt k v' := by
  have happly : ∀ p q, AgreeOn (·.nesting < (Value.hash kvs).nesting) p q → p v = q v' :=
    fun p q hpq => hpq v v' hv hnesting
  have hnames : a.propertyNames.all (· (.str k)) = a'.propertyNames.all (· (.str k)) :=
    rel_all h.propertyNames fun p q hpq =>
      hpq _ _ (.refl (.str k)) (Nat.succ_pos _)
  have hproperties : Option.Rel (AgreeOn (·.nesting < (Value.hash kvs).nesting))
      ((a.properties.getD []).lookup k) ((a'.properties.getD []).lookup k) := by
    have hm := h.properties
    generalize a.properties = o, a'.properties = o' at hm
    cases hm with
    | none => exact .none
    | some hm => exact hm.lookup k
  obtain ⟨hall, hempty⟩ := h.matching rt k hv hnesting
  have hsome : ((a.properties.getD []).lookup k).isSome
      = ((a'.properties.getD []).lookup k).isSome := by
    generalize (a.properties.getD []).lookup k = o, (a'.properties.getD []).lookup k = o'
      at hproperties
    cases hproperties <;> rfl
  rw [Applicators.property, Applicators.property, hnames, rel_all hproperties happly, hall, hempty,
    hsome, rel_all h.additionalProperties happly]

theorem Agree.depending (hkvs : SameMembers kvs kvs') : a.depending kvs = a'.depending kvs' := by
  have hdependencies := h.dependencies
  rw [Applicators.depending, Applicators.depending]
  generalize a.dependencies = o, a'.dependencies = o' at hdependencies
  cases hdependencies with
  | none => rfl
  | some hm =>
    refine hm.all_eq fun k p q _ hpq => ?_
    dsimp only
    rw [hkvs.lookup_isSome (.refl (.str k)), hpq _ _ hkvs.same_hash rfl]

end Objects

/-! ## Schemas -/

section Schemas

variable {rt : Runtime} {customFormats : Option (List (RString × ℕ))}
  {kvs kvs' : List (Value × Value)} {doc doc' v v' : Value} {a a' : Applicators (Value → Bool)}

theorem typedHolds_same (hkvs : SameMembers kvs kvs') (h : Agree v a a') (hv : Same v v') :
    typedHolds rt customFormats kvs a v = typedHolds rt customFormats kvs' a' v' := by
  cases hv.alike with
  | nil => exact typeAdmits_same hkvs _
  | bool b => exact typeAdmits_same hkvs _
  | int n =>
    simp only [typedHolds, typeAdmits_same hkvs, integerHolds_same hkvs, doubleHolds_same hkvs]
  | float x => simp only [typedHolds, typeAdmits_same hkvs, doubleHolds_same hkvs]
  | str s => simp only [typedHolds, typeAdmits_same hkvs, stringHolds_same hkvs]
  | arr hxs =>
    simp only [typedHolds, typeAdmits_same hkvs, arrayHolds_same hkvs hxs, h.elements hxs,
      h.containsHolds hxs hkvs]
  | hash hm =>
    have hproperties := (sameKeys_members hm).all_eq
      (f := fun kv => a.property rt kv.1 kv.2) (g := fun kv => a'.property rt kv.1 kv.2)
      fun k w w' hw hsame => h.property hsame
        (Nat.lt_succ_of_le (nesting_le_entries (mem_stringEntries.1 hw)))
    simp only [typedHolds, typeAdmits_same hkvs, objectHolds_same hkvs hm, h.depending hm,
      hproperties]

theorem keywordsHold_same (hkvs : SameMembers kvs kvs') (h : Agree v a a') (hv : Same v v') :
    keywordsHold rt customFormats kvs a v = keywordsHold rt customFormats kvs' a' v' := by
  have hconst : (Value.get kvs constStr).all (fun c => Value.equal false c v)
      = (Value.get kvs' constStr).all fun c => Value.equal false c v' :=
    rel_all (hkvs.get constStr) fun c c' hc => hc.equal_congr hv
  have henum : (arrayKeyword kvs enumStr).all (fun e => Value.includes e v)
      = (arrayKeyword kvs' enumStr).all fun e => Value.includes e v' :=
    rel_all (arrayKeyword_same hkvs enumStr) fun e e' he =>
      forall₂_any_eq he fun c c' hc => hc.equal_congr hv
  rw [keywordsHold, keywordsHold, namesNoType_same hkvs, typedHolds_same hkvs h hv, hconst, henum,
    h.conditional hv, h.combination hv]

/-- **The same schemas mean the same**, if their subschemas do. -/
theorem schemaMeaning_same (hdoc : Same doc doc') (h : Agree v a a') (hv : Same v v') :
    schemaMeaning rt customFormats a doc v = schemaMeaning rt customFormats a' doc' v' := by
  cases hdoc.alike with
  | @hash kvs kvs' hm =>
    have hlength := hm.length_eq
    match kvs, kvs', hlength with
    | [], [], _ => rfl
    | _ :: _, _ :: _, _ => exact keywordsHold_same hm h hv
  | _ => rfl

end Schemas

end FastJsonSchema
