import FastJsonSchema.Traversal.Calls
import FastJsonSchema.Validate.Validate

/-!
# The calls of the evaluator

A call of a `validation_function` leads to calls about the same value, by the edges of
`SameInstance`, and to calls of children about smaller values (`body_calls`). In particular
everything it leads to is a child or the target of a `$ref` (`Next.linked`).
-/

namespace FastJsonSchema

open Ruby Traversal CompiledSchema

variable {rt : Runtime} {heap : Addr → Option CompiledSchema} {cs : CompiledSchema} {d : Datum}
  {P : Call → Prop}

/-- The edges of a schema to those about the same instance: `$ref`, the combinators, the
conditional and `dependencies`. -/
def SameInstance (heap : Addr → Option CompiledSchema) (cs c : CompiledSchema) : Prop :=
  cs.refSchema.bind heap = some c ∨ c ∈ members cs.allOfVal ∨ c ∈ members cs.anyOfVal
    ∨ c ∈ members cs.oneOfVal ∨ cs.notSchema = some c ∨ cs.ifSchema = some c
    ∨ cs.thenSchema = some c ∨ cs.elseSchema = some c ∨ c ∈ entries cs.dependenciesVal

/-- The edges of a schema: to a child, or to the target of the `$ref`. -/
def Linked (heap : Addr → Option CompiledSchema) (cs c : CompiledSchema) : Prop :=
  c ∈ cs.children ∨ cs.refSchema.bind heap = some c

/-- What a call may lead to. -/
inductive Next (heap : Addr → Option CompiledSchema) (cs : CompiledSchema) (d : Datum) : Call → Prop
  | same {c} (h : SameInstance heap cs c) : Next heap cs d (c, d)
  | smaller {c d'} (h : c ∈ cs.children) (hd : d'.value.nesting < d.value.nesting) :
      Next heap cs d (c, d')

theorem SameInstance.linked {c : CompiledSchema} (h : SameInstance heap cs c) :
    Linked heap cs c := by
  rcases h with h | h | h | h | h | h | h | h | h
  · exact .inr h
  all_goals
    refine .inl (mem_children.2 ?_)
    simp only [h, true_or, or_true]

theorem Next.linked {c : Call} (h : Next heap cs d c) : Linked heap cs c.1 := by
  cases h with
  | same h => exact h.linked
  | smaller h _ => exact .inl h

/-- Every edge leads to a node of the tree. -/
theorem Linked.reach {root cs c : CompiledSchema} (h : Linked root.deref cs c)
    (hcs : root.Reach cs) : root.Reach c := by
  rcases h with h | h
  · exact hcs.child h
  · obtain ⟨a, -, ha⟩ := Option.bind_eq_some_iff.1 h
    exact (CompiledSchema.reach_of_deref ha).1

/-! ## Checks without calls -/

section Leaf

theorem converted_calls {α : Type} {x : Except RubyError α} {k : α → Code}
    (h : ∀ a, (k a).CallsIn P) : (converted x k).CallsIn P := by
  cases x with
  | ok a => exact h a
  | error e => exact .raise

theorem numericKeyword_calls {val : Option Value} {int : ℤ → Code} {float : Double → Code}
    (hi : ∀ m, (int m).CallsIn P) (hf : ∀ m, (float m).CallsIn P) :
    (numericKeyword val int float).CallsIn P := by
  unfold numericKeyword
  split
  · exact converted_calls hi
  · exact hf _
  · exact .skip

theorem yieldError_calls {type : RString} : (yieldError cs d type).CallsIn P := .fail

theorem violation_calls {b : Bool} {type : RString} :
    (Prog.when b (yieldError cs d type)).CallsIn P := .when fun _ => .fail

theorem checkNumeric_calls {type : RString} {val : Option Value} {int : ℤ → Bool}
    {float : Double → Bool} : (checkNumeric cs d type val int float).CallsIn P :=
  numericKeyword_calls (fun _ => violation_calls) fun _ => violation_calls

theorem checkSize_calls {type : RString} {num : Value → Except RubyError ℤ} {val : Option Value}
    {violated : ℤ → Bool} : (checkSize cs d type num val violated).CallsIn P := by
  unfold checkSize
  cases val with
  | none => exact .skip
  | some v => exact converted_calls fun _ => violation_calls

variable (P)

theorem validateNull_calls : (validateNull cs d).CallsIn P := by
  unfold validateNull
  split
  · exact .skip
  · exact .fail

theorem validateBool_calls : (validateBool cs d).CallsIn P := by
  unfold validateBool
  split
  · exact .skip
  · exact .fail

theorem validateInteger_calls : (validateInteger rt cs d).CallsIn P := by
  unfold validateInteger
  split
  · refine converted_calls fun dataC => .block ?_
    simp only [List.forall_mem_cons, List.not_mem_nil, false_implies, implies_true, and_true]
    refine ⟨numericKeyword_calls (fun m => ?_) fun _ => violation_calls,
      checkNumeric_calls, checkNumeric_calls, checkNumeric_calls, checkNumeric_calls⟩
    split_ifs
    · exact .crash
    · exact violation_calls
  · exact .fail

theorem validateDouble_calls (dataC : Double) : (validateDouble rt cs d dataC).CallsIn P := by
  refine .block ?_
  simp only [List.forall_mem_cons, List.not_mem_nil, false_implies, implies_true, and_true]
  exact ⟨checkNumeric_calls, checkNumeric_calls, checkNumeric_calls, checkNumeric_calls,
    checkNumeric_calls⟩

theorem validateNumber_calls : (validateNumber rt cs d).CallsIn P := by
  unfold validateNumber
  split
  · exact validateDouble_calls P _
  · exact converted_calls fun _ => validateDouble_calls P _
  · exact .fail

theorem validateFormat_calls (s : RString) : (validateFormat rt cs d s).CallsIn P := by
  unfold validateFormat validateCustomFormat
  split
  · exact .skip
  · exact violation_calls
  · split
    · exact violation_calls
    · exact .crash
  · exact .crash

theorem validatePattern_calls (s : RString) : (validatePattern rt cs d s).CallsIn P := by
  unfold validatePattern
  split
  · exact .skip
  · split_ifs
    · exact converted_calls fun _ => violation_calls
    · exact .raise

theorem validateString_calls : (validateString rt cs d).CallsIn P := by
  unfold validateString
  split
  · refine .block ?_
    simp only [List.forall_mem_cons, List.not_mem_nil, false_implies, implies_true, and_true]
    exact ⟨checkSize_calls, checkSize_calls, validatePattern_calls P _, validateFormat_calls P _⟩
  · exact .fail

theorem validateArraySizes_calls (xs : List Value) : (validateArraySizes cs d xs).CallsIn P := by
  refine .block ?_
  simp only [List.forall_mem_cons, List.not_mem_nil, false_implies, implies_true, and_true]
  exact ⟨checkSize_calls, checkSize_calls, violation_calls⟩

theorem validateObjectSizes_calls (kvs : List (Value × Value)) :
    (validateObjectSizes cs d kvs).CallsIn P := by
  refine .block ?_
  simp only [List.forall_mem_cons, List.not_mem_nil, false_implies, implies_true, and_true]
  refine ⟨checkSize_calls, checkSize_calls, ?_⟩
  split
  · exact .skip
  · refine .block fun p hp => ?_
    obtain ⟨entry, -, rfl⟩ := List.mem_map.1 hp
    exact violation_calls

end Leaf

/-! ## Loops -/

section Loops

variable {calls : List Call}

theorem countValid_calls {k : ℕ → Code} (hc : ∀ c ∈ calls, P c) (hk : ∀ n, (k n).CallsIn P) :
    ∀ n, (countValid calls n k).CallsIn P := by
  induction calls with
  | nil => exact hk
  | cons c calls ih =>
    have ⟨hc, hcs⟩ := List.forall_mem_cons.1 hc
    exact fun n => .guarded hc fun _ => ih hcs _

theorem untilValid_calls {k : Code} (hc : ∀ c ∈ calls, P c) (hk : k.CallsIn P) :
    (untilValid calls k).CallsIn P := by
  induction calls with
  | nil => exact hk
  | cons c calls ih =>
    have ⟨hc, hcs⟩ := List.forall_mem_cons.1 hc
    refine .guarded hc fun b => ?_
    cases b with
    | true => exact .skip
    | false => exact ih hcs

theorem countUpToTwo_calls {k : ℕ → Code} (hc : ∀ c ∈ calls, P c) (hk : ∀ n, (k n).CallsIn P) :
    ∀ n, (countUpToTwo calls n k).CallsIn P := by
  induction calls with
  | nil => exact hk
  | cons c calls ih =>
    have ⟨hc, hcs⟩ := List.forall_mem_cons.1 hc
    refine fun n => .guarded hc fun b => ?_
    cases b with
    | false => exact ih hcs n
    | true =>
      rw [if_pos rfl]
      split_ifs
      · exact hk _
      · exact ih hcs _

end Loops

/-! ## Arrays and objects -/

section Applicators

theorem nesting_elements {xs : List Value} {x : Token × Datum} (hd : d.value = .arr xs)
    (hx : x ∈ d.elements xs) : x.2.value.nesting < d.value.nesting := by
  rw [Datum.elements, List.mem_map] at hx
  obtain ⟨⟨v, i⟩, hm, rfl⟩ := hx
  rw [hd, Value.nesting]
  exact Nat.lt_succ_of_le (Value.nesting_le_list (List.fst_mem_of_mem_zipIdx hm))

theorem validateArray_calls : (validateArray cs d).CallsIn (Next heap cs d) := by
  unfold validateArray
  split
  case h_2 => exact yieldError_calls
  case h_1 xs hd =>
  -- a loop over some of the elements, by children
  have hloop : ∀ ys : List (Token × Code),
      (∀ y ∈ ys, ∃ x ∈ d.elements xs, ∃ c ∈ cs.children, y = (x.1, .call (c, x.2))) →
        (Prog.each ys).CallsIn (Next heap cs d) := by
    refine fun ys hys => .each fun y hy => ?_
    obtain ⟨x, hx, c, hc, rfl⟩ := hys y hy
    exact .call (.smaller hc (nesting_elements hd hx))
  refine .block ?_
  simp only [List.forall_mem_cons, List.not_mem_nil, false_implies, implies_true, and_true]
  refine ⟨validateArraySizes_calls _ xs, ?_, ?_⟩
  · split
    next items hitems =>
      refine hloop _ fun y hy => ?_
      obtain ⟨x, hx, rfl⟩ := List.mem_map.1 hy
      exact ⟨x, hx, items, mem_children.2 (by simp only [hitems, true_or, or_true]), rfl⟩
    next itemsVal _ hitemsVal =>
      refine .seq (hloop _ fun y hy => ?_) ?_
      · obtain ⟨⟨x, c⟩, hx, rfl⟩ := List.mem_map.1 hy
        obtain ⟨hx, hc⟩ := List.of_mem_zip hx
        have hc : c ∈ members cs.itemsVal := by simpa [members, hitemsVal] using hc
        exact ⟨x, hx, c, mem_children.2 (by simp only [hc, true_or, or_true]), rfl⟩
      · split
        next additionalItems hadd =>
          refine .when fun _ => hloop _ fun y hy => ?_
          obtain ⟨x, hx, rfl⟩ := List.mem_map.1 hy
          exact ⟨x, List.mem_of_mem_drop hx, additionalItems,
            mem_children.2 (by simp only [hadd, true_or, or_true]), rfl⟩
        next => exact .skip
    next => exact .skip
  · split
    next contains hcontains =>
      refine countValid_calls (fun c hc => ?_) (fun n => .block ?_) 0
      · obtain ⟨x, hx, rfl⟩ := List.mem_map.1 hc
        exact .smaller (mem_children.2 (by simp only [hcontains, true_or, or_true]))
          (nesting_elements hd hx)
      · simp only [List.forall_mem_cons, List.not_mem_nil, false_implies, implies_true, and_true]
        constructor
        all_goals
          split
          · exact converted_calls fun _ => violation_calls
        · exact .skip
        · exact violation_calls
    next => exact .skip

/-- The calls of a property are about its value and about its name. -/
theorem validateObjectProperty_calls {k : RString} {v : Value}
    (hv : v.nesting < d.value.nesting) :
    (validateObjectProperty rt cs d k v).CallsIn (Next heap cs d) := by
  have hname : (Value.str k).nesting < d.value.nesting := (Nat.zero_le _).trans_lt hv
  refine .block ?_
  simp only [List.forall_mem_cons, List.not_mem_nil, false_implies, implies_true, and_true]
  refine ⟨?_, ?_, .block fun p hp => ?_, ?_⟩
  · split
    next names hnames =>
      exact .call (.smaller (mem_children.2 (by simp only [hnames, true_or, or_true])) hname)
    next => exact .skip
  · split
    next property hproperty =>
      have hmem := mem_entries_of_lookup hproperty
      exact .call (.smaller (mem_children.2 (by simp only [hmem, true_or, or_true])) hv)
    next => exact .skip
  · obtain ⟨p, hpattern, rfl⟩ := List.mem_map.1 hp
    have hmem : p.2 ∈ entries cs.patternPropertiesVal := mem_entries_of_mem hpattern
    exact converted_calls fun _ => .when fun _ =>
      .call (.smaller (mem_children.2 (by simp only [hmem, true_or, or_true])) hv)
  · split
    next additional hadditional =>
      exact .when fun _ =>
        .call (.smaller (mem_children.2 (by simp only [hadditional, true_or, or_true])) hv)
    next => exact .skip

theorem validateObject_calls : (validateObject rt cs d).CallsIn (Next heap cs d) := by
  unfold validateObject
  split
  case h_2 => exact yieldError_calls
  case h_1 kvs hd =>
  refine .block ?_
  simp only [List.forall_mem_cons, List.not_mem_nil, false_implies, implies_true, and_true]
  refine ⟨validateObjectSizes_calls _ kvs, .block fun p hp => ?_, .each fun x hx => ?_⟩
  · obtain ⟨dep, hdep, rfl⟩ := List.mem_map.1 hp
    have hmem : dep.2 ∈ entries cs.dependenciesVal := mem_entries_of_mem hdep
    refine .when fun _ => .call (.same ?_)
    simp only [SameInstance, hmem, or_true]
  · obtain ⟨⟨k, v⟩, hkv, rfl⟩ := List.mem_map.1 hx
    refine validateObjectProperty_calls ?_
    rw [hd, Value.nesting]
    exact Nat.lt_succ_of_le (Value.nesting_le_entries (Value.mem_stringEntries.1 hkv))

end Applicators

/-! ## A whole schema -/

theorem validateType_calls : (validateType rt cs d).CallsIn (Next heap cs d) := by
  unfold validateType validateByDataType validateByTypeList
  split
  · exact validateNull_calls _
  · exact validateBool_calls _
  · exact validateString_calls _
  · exact validateInteger_calls _
  · exact validateNumber_calls _
  · exact validateArray_calls
  · exact validateObject_calls
  · split
    · exact validateInteger_calls _
    · exact validateNumber_calls _
    · exact validateString_calls _
    · exact validateObject_calls
    · exact validateArray_calls
    · exact .skip
  · dsimp only
    split
    all_goals first | exact .skip | split_ifs
    all_goals
      first
      | exact yieldError_calls
      | exact validateNull_calls _
      | exact validateBool_calls _
      | exact validateString_calls _
      | exact validateInteger_calls _
      | exact validateNumber_calls _
      | exact validateArray_calls
      | exact validateObject_calls
  · exact .skip
  · exact .crash

theorem ifSet_calls {α : Type} {field : Option α} {f : α → Code}
    (h : ∀ a, field = some a → (f a).CallsIn P) : (ifSet field f).CallsIn P := by
  cases field with
  | some a => exact h a rfl
  | none => exact .skip

theorem validateIf_calls {ifSchema : CompiledSchema} (h : cs.ifSchema = some ifSchema) :
    (validateIf cs d ifSchema).CallsIn (Next heap cs d) := by
  unfold validateIf
  split_ifs
  · exact .skip
  · refine .guarded (.same (by simp only [SameInstance, h, true_or, or_true])) fun valid => ?_
    split
    next thenSchema _ hthen =>
      exact .guarded (.same (by simp only [SameInstance, hthen, true_or, or_true]))
        fun _ => violation_calls
    next elseSchema helse =>
      exact .guarded (.same (by simp only [SameInstance, helse, true_or, or_true]))
        fun _ => violation_calls
    next => exact .skip

/-- The calls of a list of branches are about the same value. -/
theorem branches_same {l : List CompiledSchema} (h : ∀ c ∈ l, SameInstance heap cs c) :
    ∀ c ∈ l.map (·, d), Next heap cs d c := by
  intro call hcall
  obtain ⟨c, hc, rfl⟩ := List.mem_map.1 hcall
  exact .same (h c hc)

theorem validate_calls : (validate rt cs d).CallsIn (Next heap cs d) := by
  refine .block ?_
  simp only [List.forall_mem_cons, List.not_mem_nil, false_implies, implies_true, and_true]
  refine ⟨validateType_calls, ifSet_calls fun _ _ => violation_calls,
    ifSet_calls fun _ _ => violation_calls, ifSet_calls fun _ => validateIf_calls,
    ifSet_calls fun notSchema h => ?_, ifSet_calls fun l h => ?_, ifSet_calls fun l h => ?_,
    ifSet_calls fun l h => ?_⟩
  · exact .guarded (.same (by simp only [SameInstance, h, true_or, or_true]))
      fun _ => violation_calls
  · refine countValid_calls (branches_same fun c hc => ?_) (fun _ => violation_calls) 0
    have hc : c ∈ members cs.allOfVal := by simpa [members, h] using hc
    simp only [SameInstance, hc, true_or, or_true]
  · refine untilValid_calls (branches_same fun c hc => ?_) yieldError_calls
    have hc : c ∈ members cs.anyOfVal := by simpa [members, h] using hc
    simp only [SameInstance, hc, true_or, or_true]
  · refine countUpToTwo_calls (branches_same fun c hc => ?_) (fun _ => violation_calls) 0
    have hc : c ∈ members cs.oneOfVal := by simpa [members, h] using hc
    simp only [SameInstance, hc, true_or, or_true]

/-- **What a call leads to.** -/
theorem body_calls (rt : Runtime) (heap : Addr → Option CompiledSchema) (c : Call) :
    (body rt heap c).CallsIn (Next heap c.1 c.2) := by
  unfold body validateRef
  split
  · exact .skip
  · exact yieldError_calls
  · exact validate_calls
  · split
    next ref href => exact .call (.same (.inl href))
    next => exact .crash
  · exact .crash

end FastJsonSchema
