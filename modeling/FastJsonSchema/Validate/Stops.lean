import FastJsonSchema.Traversal.Stops
import FastJsonSchema.Compile.Initialised

/-!
# Where an evaluation stops

An evaluation of a compiled schema that stays within `context->path` raises an exception, or
traps, only in a check of a single value (`compileSchema_stops`). No pointer that it calls is unset,
and the traversals and the combinators do not stop by themselves.
-/

namespace FastJsonSchema

open Ruby Traversal Relation CompiledSchema

variable {rt : Runtime} {heap : Addr → Option CompiledSchema} {cs : CompiledSchema} {d : Datum}

/-- The pieces of the code for a schema and a value that look at a single value: the checks of a
number, of a string and of the size of an array or an object, the conversion of a bound on the
number of valid elements, and the match of a name with a pattern. -/
inductive SingleCheck (rt : Runtime) (cs : CompiledSchema) (d : Datum) : Code → Prop
  | integer : SingleCheck rt cs d (validateInteger rt cs d)
  | number : SingleCheck rt cs d (validateNumber rt cs d)
  | string : SingleCheck rt cs d (validateString rt cs d)
  | arraySizes {xs} (h : d.value = .arr xs) : SingleCheck rt cs d (validateArraySizes cs d xs)
  | objectSizes {kvs} (h : d.value = .hash kvs) : SingleCheck rt cs d (validateObjectSizes cs d kvs)
  | contained {n e} (h : cs.maxContainsVal = some (.int n) ∨ cs.minContainsVal = some (.int n))
      (he : num2long (.int n) = .error e) : SingleCheck rt cs d (.raise e)
  | pattern {kvs k v p e} (hd : d.value = .hash kvs) (hk : (k, v) ∈ Value.stringEntries kvs)
      (hp : p ∈ cs.patterns) (he : rt.regMatch p.1 k = .error e) : SingleCheck rt cs d (.raise e)

/-- These pieces make no calls. -/
theorem SingleCheck.callsIn {p : Code} (h : SingleCheck rt cs d p) (P : Call → Prop) :
    p.CallsIn P := by
  cases h with
  | integer => exact validateInteger_calls P
  | number => exact validateNumber_calls P
  | string => exact validateString_calls P
  | arraySizes h => exact validateArraySizes_calls P _
  | objectSizes h => exact validateObjectSizes_calls P _
  | contained h he => exact .raise
  | pattern hd hk hp he => exact .raise

/-! ## Statements -/

section Statements

variable {P : Code → Prop}

theorem converted_stops {α : Type} {x : Except RubyError α} {k : α → Code}
    (he : ∀ e, x = .error e → P (.raise e)) (h : ∀ a, (k a).StopsIn P) :
    (converted x k).StopsIn P := by
  cases x with
  | ok a => exact h a
  | error e => exact .piece (he e rfl)

theorem violation_stops {b : Bool} {type : RString} :
    (Prog.when b (yieldError cs d type)).StopsIn P := .when .fail

theorem ifSet_stops {α : Type} {field : Option α} {f : α → Code} (h : ∀ a, (f a).StopsIn P) :
    (ifSet field f).StopsIn P := by
  cases field with
  | some a => exact h a
  | none => exact .skip

theorem countValid_stops {calls : List Call} {k : ℕ → Code} (hk : ∀ n, (k n).StopsIn P) :
    ∀ n, (countValid calls n k).StopsIn P := by
  induction calls with
  | nil => exact hk
  | cons c calls ih => exact fun n => .guarded fun b => ih _

theorem untilValid_stops {calls : List Call} {k : Code} (hk : k.StopsIn P) :
    (untilValid calls k).StopsIn P := by
  induction calls with
  | nil => exact hk
  | cons c calls ih =>
    refine .guarded fun b => ?_
    cases b with
    | true => exact .skip
    | false => exact ih

theorem countUpToTwo_stops {calls : List Call} {k : ℕ → Code} (hk : ∀ n, (k n).StopsIn P) :
    ∀ n, (countUpToTwo calls n k).StopsIn P := by
  induction calls with
  | nil => exact hk
  | cons c calls ih =>
    refine fun n => .guarded fun b => ?_
    cases b with
    | false => exact ih n
    | true =>
      rw [if_pos rfl]
      split_ifs
      · exact hk _
      · exact ih _

end Statements

/-! ## Arrays and objects -/

theorem validateContains_stops (contains : CompiledSchema) (xs : List Value) :
    (validateContains cs d contains xs).StopsIn (SingleCheck rt cs d) := by
  refine countValid_stops (fun n => .block ?_) 0
  simp only [List.forall_mem_cons, List.not_mem_nil, false_implies, implies_true, and_true]
  constructor
  · split
    next m hmax =>
      exact converted_stops (fun _ he => .contained (.inl hmax) he) fun _ => violation_stops
    next => exact .skip
  · split
    next m hmin =>
      exact converted_stops (fun _ he => .contained (.inr hmin) he) fun _ => violation_stops
    next => exact violation_stops

theorem validateArray_stops : (validateArray cs d).StopsIn (SingleCheck rt cs d) := by
  unfold validateArray
  split
  case h_2 => exact .fail
  case h_1 xs hd =>
  -- the elements of a level are calls
  have hloop : ∀ {β : Type} {ys : List β} {f : β → Token × Call},
      (Prog.each (ys.map fun y => ((f y).1, .call (f y).2)) : Code).StopsIn
        (SingleCheck rt cs d) := by
    refine .each fun x hx => ?_
    obtain ⟨y, -, rfl⟩ := List.mem_map.1 hx
    exact .call
  refine .block ?_
  simp only [List.forall_mem_cons, List.not_mem_nil, false_implies, implies_true, and_true]
  refine ⟨.piece (.arraySizes hd), ?_, ?_⟩
  · split
    next items _ => exact hloop (f := fun x : Token × Datum => (x.1, (items, x.2)))
    next itemsVal _ _ =>
      refine .seq (hloop (f := fun x : (Token × Datum) × CompiledSchema =>
        (x.1.1, (x.2, x.1.2)))) ?_
      split
      next additional _ =>
        exact .when (hloop (f := fun x : Token × Datum => (x.1, (additional, x.2))))
      next => exact .skip
    next => exact .skip
  · split
    next contains _ => exact validateContains_stops contains xs
    next => exact .skip

theorem validateObjectProperty_stops {kvs : List (Value × Value)} {k : RString} {v : Value}
    (hd : d.value = .hash kvs) (hk : (k, v) ∈ Value.stringEntries kvs) :
    (validateObjectProperty rt cs d k v).StopsIn (SingleCheck rt cs d) := by
  refine .block ?_
  simp only [List.forall_mem_cons, List.not_mem_nil, false_implies, implies_true, and_true]
  refine ⟨?_, ?_, .block fun p hp => ?_, ?_⟩
  · split
    · exact .call
    · exact .skip
  · split
    · exact .call
    · exact .skip
  · obtain ⟨pattern, hpattern, rfl⟩ := List.mem_map.1 hp
    exact converted_stops (fun _ he => .pattern hd hk hpattern he) fun _ => .when .call
  · split
    · exact .when .call
    · exact .skip

theorem validateObject_stops : (validateObject rt cs d).StopsIn (SingleCheck rt cs d) := by
  unfold validateObject
  split
  case h_2 => exact .fail
  case h_1 kvs hd =>
  refine .block ?_
  simp only [List.forall_mem_cons, List.not_mem_nil, false_implies, implies_true, and_true]
  refine ⟨.piece (.objectSizes hd), .block fun p hp => ?_, .each fun x hx => ?_⟩
  · obtain ⟨dep, -, rfl⟩ := List.mem_map.1 hp
    exact .when .call
  · obtain ⟨⟨k, v⟩, hkv, rfl⟩ := List.mem_map.1 hx
    exact validateObjectProperty_stops hd hkv

/-! ## A whole schema -/

theorem validateNull_stops {P : Code → Prop} : (validateNull cs d).StopsIn P := by
  unfold validateNull
  split
  · exact .skip
  · exact .fail

theorem validateBool_stops {P : Code → Prop} : (validateBool cs d).StopsIn P := by
  unfold validateBool
  split
  · exact .skip
  · exact .fail

/-- The type functions stop in checks of the value, when one of them is set. -/
theorem validateType_stops (h : cs.typeValidationFunction ≠ none) :
    (validateType rt cs d).StopsIn (SingleCheck rt cs d) := by
  unfold validateType validateByDataType validateByTypeList
  split
  · exact validateNull_stops
  · exact validateBool_stops
  · exact .piece .string
  · exact .piece .integer
  · exact .piece .number
  · exact validateArray_stops
  · exact validateObject_stops
  · split
    · exact .piece .integer
    · exact .piece .number
    · exact .piece .string
    · exact validateObject_stops
    · exact validateArray_stops
    · exact .skip
  · dsimp only
    split
    all_goals first | exact .skip | split_ifs
    all_goals
      first
      | exact .fail
      | exact validateNull_stops
      | exact validateBool_stops
      | exact .piece .string
      | exact .piece .integer
      | exact .piece .number
      | exact validateArray_stops
      | exact validateObject_stops
  · exact .skip
  · exact absurd ‹_› h

theorem validateIf_stops {P : Code → Prop} (ifSchema : CompiledSchema) :
    (validateIf cs d ifSchema).StopsIn P := by
  unfold validateIf
  split_ifs
  · exact .skip
  · refine .guarded fun valid => ?_
    split
    · exact .guarded fun _ => violation_stops
    · exact .guarded fun _ => violation_stops
    · exact .skip

theorem validate_stops (h : cs.typeValidationFunction ≠ none) :
    (validate rt cs d).StopsIn (SingleCheck rt cs d) := by
  refine .block ?_
  simp only [List.forall_mem_cons, List.not_mem_nil, false_implies, implies_true, and_true]
  exact ⟨validateType_stops h, ifSet_stops fun _ => violation_stops,
    ifSet_stops fun _ => violation_stops, ifSet_stops validateIf_stops,
    ifSet_stops fun _ => .guarded fun _ => violation_stops,
    ifSet_stops fun _ => countValid_stops (fun _ => violation_stops) 0,
    ifSet_stops fun _ => untilValid_stops .fail,
    ifSet_stops fun _ => countUpToTwo_stops (fun _ => violation_stops) 0⟩

/-- An initialised node stops in checks of a single value only. -/
theorem body_stops {root : CompiledSchema} (h : Initialised root cs) (d : Datum) :
    (body rt root.deref (cs, d)).StopsIn (SingleCheck rt cs d) := by
  unfold body validateRef
  split
  · exact .skip
  · exact .fail
  next hv => exact validate_stops (h.typeValidationFunction hv)
  next hv =>
    obtain ⟨a, t, ha, ht, -⟩ := h.refSchema hv
    dsimp only
    rw [ha, Option.bind_some, ht]
    exact .call
  next hv => exact absurd hv h.validationFunction

/-- **An evaluation stops in a check of a single value only.** When a document compiles and a run of
`is_valid` that stays within `context->path` raises an exception or traps, the evaluation comes to a
node and a value with a check of a single value that stops in the same way. -/
theorem compileSchema_stops {customFormats : Option (List (RString × ℕ))} {doc : Value}
    {root c : CompiledSchema} {overrun : Overrun} {context : Context Token}
    {r : Result Token Site RubyError} {x : Exit RubyError}
    (h : compileSchema rt customFormats doc = .ok root) (hc : root.Reach c)
    (hr : IsValid rt root.deref overrun (c, d) context r)
    (hs : (machine rt root.deref overrun).Safe r.2) (hx : r.1.stop = some x) :
    ∃ y, ReflTransGen (fun y z => z ∈ (body rt root.deref y).calls) (c, d) y ∧
      ∃ p n q, SingleCheck rt y.1 y.2 p ∧
        (p.judge ((machine rt root.deref overrun).judge n) q).exit = x := by
  obtain ⟨n, rfl, -⟩ := hr
  exact Machine.run_stops (I := fun y => root.Reach y.1) (P := fun y => SingleCheck rt y.1 y.2)
    (fun y hy => body_stops (initialised_of_reach h hy) y.2)
    (fun y hy => (body_calls rt root.deref y).mono fun z hz => hz.linked.reach hy) hc hs hx

end FastJsonSchema
