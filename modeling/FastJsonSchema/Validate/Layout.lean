import FastJsonSchema.Traversal.Location
import FastJsonSchema.Validate.Validate

/-!
# Where validation is

`Occurs root l v` says that the tokens `l` lead from the root of the instance to the value `v`. The
evaluator keeps to the layout of `instanceLayout`: a loud call and its errors are about the value
at the location the stack should hold, a slot lies no deeper than the nesting of the instance
(`machine_lays`). A guarded call may be about a value further down, as those of `contains` are.
-/

namespace FastJsonSchema

open Ruby Traversal

/-- `Occurs root l v`: the value `v` is in `root`, at the end of the tokens `l`. -/
inductive Occurs (root : Value) : List Token → Value → Prop
  | root : Occurs root [] root
  | element {l xs i v} (h : Occurs root l (.arr xs)) (hi : xs[i]? = some v) :
      Occurs root (l ++ [.index i]) v
  | property {l kvs k v} (h : Occurs root l (.hash kvs)) (hk : (Value.str k, v) ∈ kvs) :
      Occurs root (l ++ [.str k]) v

/-- The datum is what its location says: the value there, or the name of the property there. -/
def Datum.Located (root : Value) (d : Datum) : Prop :=
  if d.isName then ∃ l k v, d.loc = l ++ [.str k] ∧ d.value = .str k ∧ Occurs root d.loc v
  else Occurs root d.loc d.value

theorem Occurs.length_add_nesting {root v : Value} {l : List Token} (h : Occurs root l v) :
    l.length + Value.nesting v ≤ Value.nesting root := by
  induction h with
  | root => simp
  | element _ hi ih =>
    have := Value.nesting_le_list (List.mem_of_getElem? hi)
    rw [Value.nesting] at ih
    rw [List.length_append, List.length_singleton]
    omega
  | property _ hk ih =>
    have := Value.nesting_le_entries hk
    rw [Value.nesting] at ih
    rw [List.length_append, List.length_singleton]
    omega

/-- `Stands root q l d`: the datum may be at hand when the stack should hold `l`. -/
def Stands (root : Value) (q : Bool) (l : List Token) (d : Datum) : Prop :=
  d.Located root ∧ if q then l.length ≤ d.loc.length else d.loc = l

/-- The layout of validating the instance `root`. -/
def instanceLayout (root : Value) : Layout Call Token Site where
  call q l c := Stands root q l c.2
  site l e := Stands root false l e.data
  slot l := l.length ≤ Value.nesting root

section Stands

variable {root : Value} {q : Bool} {l : List Token} {d : Datum}

theorem Stands.length_le (h : Stands root q l d) : l.length ≤ d.loc.length := by
  obtain ⟨-, h⟩ := h
  cases q with
  | true => exact h
  | false => exact (congrArg List.length h).ge

theorem Stands.quiet (h : Stands root q l d) : Stands root true l d := ⟨h.1, h.length_le⟩

/-- A value with elements or properties is no name. -/
theorem Stands.occurs (h : Stands root q l d) (hd : ∀ k, d.value ≠ .str k) :
    Occurs root d.loc d.value := by
  obtain ⟨h, -⟩ := h
  unfold Datum.Located at h
  split_ifs at h with hn
  · obtain ⟨_, k, _, _, hk, _⟩ := h
    exact absurd hk (hd k)
  · exact h

theorem Stands.step {d' : Datum} {t : Token} (h : Stands root q l d) (hloc : d'.loc = d.loc ++ [t])
    (hd' : d'.Located root) : Stands root q (l ++ [t]) d' := by
  refine ⟨hd', ?_⟩
  have hlen := h.length_le
  obtain ⟨-, h⟩ := h
  cases q with
  | true => simpa [hloc] using hlen
  | false =>
    have hl : d.loc = l := h
    simp [hloc, hl]

/-- A location one step down from a value with elements or properties is a slot. -/
theorem Stands.slot {t : Token} (h : Stands root q l d) (ho : Occurs root d.loc d.value)
    (hn : 0 < Value.nesting d.value) : (instanceLayout root).slot (l ++ [t]) := by
  have := h.length_le
  have := ho.length_add_nesting
  show (l ++ [t]).length ≤ Value.nesting root
  rw [List.length_append, List.length_singleton]
  omega

theorem mem_elements {xs : List Value} {x : Token × Datum} (h : x ∈ d.elements xs) :
    ∃ i v, xs[i]? = some v ∧ x = (.index i, d.child (.index i) v) := by
  rw [Datum.elements, List.mem_map] at h
  obtain ⟨⟨v, i⟩, hm, rfl⟩ := h
  exact ⟨i, v, List.mem_zipIdx_iff_getElem?.1 hm, rfl⟩

theorem Stands.element {xs : List Value} {x : Token × Datum} (h : Stands root q l d)
    (hd : d.value = .arr xs) (hx : x ∈ d.elements xs) :
    Stands root q (l ++ [x.1]) x.2 ∧ (instanceLayout root).slot (l ++ [x.1]) := by
  obtain ⟨i, v, hi, rfl⟩ := mem_elements hx
  have ho := h.occurs (by simp [hd])
  refine ⟨h.step rfl ?_, h.slot ho (by simp [hd, Value.nesting])⟩
  rw [hd] at ho
  exact ho.element hi

end Stands

section At

variable {root : Value} {q : Bool} {l : List Token} {d : Datum}

theorem yieldError_at (cs : CompiledSchema) (type : RString) (h : Stands root q l d) :
    (yieldError cs d type).At (instanceLayout root) q l :=
  .fail fun hq => by subst hq; exact h

theorem converted_at {α : Type} {x : Except RubyError α} {k : α → Code}
    (h : ∀ a, (k a).At (instanceLayout root) q l) :
    (converted x k).At (instanceLayout root) q l := by
  cases x with
  | ok a => exact h a
  | error e => exact .raise

theorem ifSet_at {α : Type} {field : Option α} {f : α → Code}
    (h : ∀ a, (f a).At (instanceLayout root) q l) :
    (ifSet field f).At (instanceLayout root) q l := by
  cases field with
  | some a => exact h a
  | none => exact .skip

theorem numericKeyword_at {val : Option Value} {int : ℤ → Code} {float : Double → Code}
    (hi : ∀ m, (int m).At (instanceLayout root) q l)
    (hf : ∀ m, (float m).At (instanceLayout root) q l) :
    (numericKeyword val int float).At (instanceLayout root) q l := by
  unfold numericKeyword
  split
  · exact converted_at hi
  · exact hf _
  · exact .skip

section Leaf

variable (rt : Runtime) (cs : CompiledSchema) (h : Stands root q l d)

include h

theorem checkNumeric_at {type : RString} {val : Option Value} {int : ℤ → Bool}
    {float : Double → Bool} :
    (checkNumeric cs d type val int float).At (instanceLayout root) q l :=
  numericKeyword_at (fun _ => .when fun _ => yieldError_at cs type h)
    fun _ => .when fun _ => yieldError_at cs type h

theorem checkSize_at {type : RString} {num : Value → Except RubyError ℤ} {val : Option Value}
    {violated : ℤ → Bool} :
    (checkSize cs d type num val violated).At (instanceLayout root) q l := by
  unfold checkSize
  cases val with
  | none => exact .skip
  | some v => exact converted_at fun _ => .when fun _ => yieldError_at cs type h

theorem validateInteger_at : (validateInteger rt cs d).At (instanceLayout root) q l := by
  unfold validateInteger
  split
  · refine converted_at fun dataC => .block ?_
    simp only [List.forall_mem_cons, List.not_mem_nil, false_implies, implies_true, and_true]
    refine ⟨numericKeyword_at (fun m => ?_) fun _ => .when fun _ => yieldError_at cs _ h,
      checkNumeric_at cs h, checkNumeric_at cs h, checkNumeric_at cs h, checkNumeric_at cs h⟩
    split_ifs
    · exact .crash
    · exact .when fun _ => yieldError_at cs _ h
  · exact yieldError_at cs _ h

theorem validateDouble_at (dataC : Double) :
    (validateDouble rt cs d dataC).At (instanceLayout root) q l := by
  refine .block ?_
  simp only [List.forall_mem_cons, List.not_mem_nil, false_implies, implies_true, and_true]
  exact ⟨checkNumeric_at cs h, checkNumeric_at cs h, checkNumeric_at cs h, checkNumeric_at cs h,
    checkNumeric_at cs h⟩

theorem validateNumber_at : (validateNumber rt cs d).At (instanceLayout root) q l := by
  unfold validateNumber
  split
  · exact validateDouble_at rt cs h _
  · exact converted_at fun _ => validateDouble_at rt cs h _
  · exact yieldError_at cs _ h

theorem validateFormat_at (s : RString) :
    (validateFormat rt cs d s).At (instanceLayout root) q l := by
  unfold validateFormat validateCustomFormat
  split
  · exact .skip
  · exact .when fun _ => yieldError_at cs _ h
  · split
    · exact .when fun _ => yieldError_at cs _ h
    · exact .crash
  · exact .crash

theorem validatePattern_at (s : RString) :
    (validatePattern rt cs d s).At (instanceLayout root) q l := by
  unfold validatePattern
  split
  · exact .skip
  · split_ifs
    · exact converted_at fun _ => .when fun _ => yieldError_at cs _ h
    · exact .raise

theorem validateString_at : (validateString rt cs d).At (instanceLayout root) q l := by
  unfold validateString
  split
  · refine .block ?_
    simp only [List.forall_mem_cons, List.not_mem_nil, false_implies, implies_true, and_true]
    exact ⟨checkSize_at cs h, checkSize_at cs h, validatePattern_at rt cs h _,
      validateFormat_at rt cs h _⟩
  · exact yieldError_at cs _ h

theorem validateArraySizes_at (xs : List Value) :
    (validateArraySizes cs d xs).At (instanceLayout root) q l := by
  refine .block ?_
  simp only [List.forall_mem_cons, List.not_mem_nil, false_implies, implies_true, and_true]
  exact ⟨checkSize_at cs h, checkSize_at cs h, .when fun _ => yieldError_at cs _ h⟩

theorem validateObjectSizes_at (kvs : List (Value × Value)) :
    (validateObjectSizes cs d kvs).At (instanceLayout root) q l := by
  refine .block ?_
  simp only [List.forall_mem_cons, List.not_mem_nil, false_implies, implies_true, and_true]
  refine ⟨checkSize_at cs h, checkSize_at cs h, ?_⟩
  split
  · exact .skip
  · refine .block fun p hp => ?_
    obtain ⟨entry, -, rfl⟩ := List.mem_map.1 hp
    exact .when fun _ => yieldError_at cs _ h

end Leaf

section Calls

theorem countValid_at {calls : List Call} {k : ℕ → Code}
    (hc : ∀ c ∈ calls, Stands root true l c.2) (hk : ∀ n, (k n).At (instanceLayout root) q l) :
    ∀ n, (countValid calls n k).At (instanceLayout root) q l := by
  induction calls with
  | nil => exact hk
  | cons c calls ih =>
    intro n
    exact .guarded (hc c (by simp)) fun _ => ih (fun c hc' => hc c (by simp [hc'])) _

theorem untilValid_at {calls : List Call} {k : Code}
    (hc : ∀ c ∈ calls, Stands root true l c.2) (hk : k.At (instanceLayout root) q l) :
    (untilValid calls k).At (instanceLayout root) q l := by
  induction calls with
  | nil => exact hk
  | cons c calls ih =>
    refine .guarded (hc c (by simp)) fun b => ?_
    cases b with
    | true => exact .skip
    | false => exact ih fun c hc' => hc c (by simp [hc'])

theorem countUpToTwo_at {calls : List Call} {k : ℕ → Code}
    (hc : ∀ c ∈ calls, Stands root true l c.2) (hk : ∀ n, (k n).At (instanceLayout root) q l) :
    ∀ n, (countUpToTwo calls n k).At (instanceLayout root) q l := by
  induction calls with
  | nil => exact hk
  | cons c calls ih =>
    intro n
    have hrest := ih fun c hc' => hc c (by simp [hc'])
    refine .guarded (hc c (by simp)) fun b => ?_
    cases b with
    | false => exact hrest n
    | true =>
      rw [if_pos rfl]
      split_ifs
      · exact hk _
      · exact hrest _

end Calls

section Applicators

variable (rt : Runtime) (heap : Addr → Option CompiledSchema) (cs : CompiledSchema)
  (h : Stands root q l d)

include h

theorem validateArray_at : (validateArray cs d).At (instanceLayout root) q l := by
  unfold validateArray
  split
  case h_2 => exact yieldError_at cs _ h
  case h_1 xs hd =>
  -- a loop over some of the elements
  have hloop : ∀ ys : List (Token × Code),
      (∀ y ∈ ys, ∃ x ∈ d.elements xs, ∃ c, y = (x.1, .call (c, x.2))) →
        (Prog.each ys).At (instanceLayout root) q l := by
    intro ys hys
    refine .each (fun y hy => ?_) fun y hy => ?_ <;> obtain ⟨x, hx, c, rfl⟩ := hys y hy
    · exact (h.element hd hx).2
    · exact .call (h.element hd hx).1
  refine .block ?_
  simp only [List.forall_mem_cons, List.not_mem_nil, false_implies, implies_true, and_true]
  refine ⟨validateArraySizes_at cs h xs, ?_, ?_⟩
  · split
    · refine hloop _ fun y hy => ?_
      obtain ⟨x, hx, rfl⟩ := List.mem_map.1 hy
      exact ⟨x, hx, _, rfl⟩
    · refine .seq (hloop _ fun y hy => ?_) ?_
      · obtain ⟨⟨x, c⟩, hx, rfl⟩ := List.mem_map.1 hy
        exact ⟨x, (List.of_mem_zip hx).1, c, rfl⟩
      · split
        · refine .when fun _ => hloop _ fun y hy => ?_
          obtain ⟨x, hx, rfl⟩ := List.mem_map.1 hy
          exact ⟨x, List.mem_of_mem_drop hx, _, rfl⟩
        · exact .skip
    · exact .skip
  · split
    · refine countValid_at (fun c hc => ?_) (fun n => .block ?_) 0
      · -- the stack holds the array, the call is about its element
        obtain ⟨x, hx, rfl⟩ := List.mem_map.1 hc
        obtain ⟨hlocated, hlen⟩ := (h.element hd hx).1.quiet
        refine ⟨hlocated, ?_⟩
        simp only [if_true, List.length_append, List.length_singleton] at hlen ⊢
        omega
      · simp only [List.forall_mem_cons, List.not_mem_nil, false_implies, implies_true, and_true]
        refine ⟨?_, ?_⟩
        · split
          · exact converted_at fun _ => .when fun _ => yieldError_at cs _ h
          · exact .skip
        · split
          · exact converted_at fun _ => .when fun _ => yieldError_at cs _ h
          · exact .when fun _ => yieldError_at _ _ h
    · exact .skip

theorem validateObjectProperty_at {kvs : List (Value × Value)} {k : RString} {v : Value}
    (hd : d.value = .hash kvs) (hk : (Value.str k, v) ∈ kvs) :
    (validateObjectProperty rt cs d k v).At (instanceLayout root) q (l ++ [.str k]) := by
  have ho := h.occurs (by simp [hd])
  rw [hd] at ho
  have hv := ho.property hk
  have hchild : Stands root q (l ++ [.str k]) (d.child (.str k) v) := h.step rfl hv
  have hname : Stands root q (l ++ [.str k]) (d.name k) :=
    h.step rfl ⟨d.loc, k, v, rfl, rfl, hv⟩
  refine .block ?_
  simp only [List.forall_mem_cons, List.not_mem_nil, false_implies, implies_true, and_true]
  refine ⟨?_, ?_, .block fun p hp => ?_, ?_⟩
  · split
    · exact .call hname
    · exact .skip
  · split
    · exact .call hchild
    · exact .skip
  · obtain ⟨x, -, rfl⟩ := List.mem_map.1 hp
    exact converted_at fun _ => .when fun _ => .call hchild
  · split
    · exact .when fun _ => .call hchild
    · exact .skip

theorem validateObject_at : (validateObject rt cs d).At (instanceLayout root) q l := by
  unfold validateObject
  split
  case h_2 => exact yieldError_at cs _ h
  case h_1 kvs hd =>
  refine .block ?_
  simp only [List.forall_mem_cons, List.not_mem_nil, false_implies, implies_true, and_true]
  refine ⟨validateObjectSizes_at cs h kvs, .block fun p hp => ?_, ?_⟩
  · obtain ⟨dep, -, rfl⟩ := List.mem_map.1 hp
    exact .when fun _ => .call h
  · refine .each (fun y hy => ?_) fun y hy => ?_ <;>
      obtain ⟨⟨k, v⟩, hkv, rfl⟩ := List.mem_map.1 hy
    · exact h.slot (h.occurs (by simp [hd])) (by simp [hd, Value.nesting])
    · exact validateObjectProperty_at rt cs h hd (Value.mem_stringEntries.1 hkv)

theorem validateType_at : (validateType rt cs d).At (instanceLayout root) q l := by
  have hnull : (validateNull cs d).At (instanceLayout root) q l := by
    unfold validateNull
    split
    · exact .skip
    · exact yieldError_at cs _ h
  have hbool : (validateBool cs d).At (instanceLayout root) q l := by
    unfold validateBool
    split
    · exact .skip
    · exact yieldError_at cs _ h
  have hint := validateInteger_at rt cs h
  have hnum := validateNumber_at rt cs h
  have hstr := validateString_at rt cs h
  have harr := validateArray_at cs h
  have hobj := validateObject_at rt cs h
  have herr := fun type => yieldError_at cs type h
  unfold validateType
  split
  · exact hnull
  · exact hbool
  · exact hstr
  · exact hint
  · exact hnum
  · exact harr
  · exact hobj
  · unfold validateByDataType
    split <;> first | assumption | exact .skip
  · unfold validateByTypeList
    split <;> (try split_ifs) <;> first | assumption | exact herr _ | exact .skip
  · exact .skip
  · exact .crash

theorem validateIf_at (ifSchema : CompiledSchema) :
    (validateIf cs d ifSchema).At (instanceLayout root) q l := by
  have hbranch : ∀ branch type, (runBranch d branch type).At (instanceLayout root) q l :=
    fun branch type => .guarded h.quiet fun _ => .when fun _ => yieldError_at branch type h
  unfold validateIf
  split_ifs
  · exact .skip
  · refine .guarded h.quiet fun b => ?_
    split
    · exact hbranch _ _
    · exact hbranch _ _
    · exact .skip

theorem validate_at : (validate rt cs d).At (instanceLayout root) q l := by
  have hcalls : ∀ schemas : List CompiledSchema, ∀ c ∈ schemas.map (·, d),
      Stands root true l c.2 := by
    intro schemas c hc
    obtain ⟨x, -, rfl⟩ := List.mem_map.1 hc
    exact h.quiet
  refine .block ?_
  simp only [List.forall_mem_cons, List.not_mem_nil, false_implies, implies_true, and_true]
  refine ⟨validateType_at rt cs h, ifSet_at fun _ => .when fun _ => yieldError_at cs _ h,
    ifSet_at fun _ => .when fun _ => yieldError_at cs _ h, ifSet_at (validateIf_at cs h),
    ifSet_at fun notSchema => .guarded h.quiet fun _ => .when fun _ => yieldError_at _ _ h,
    ifSet_at fun allOf => ?_, ifSet_at fun anyOf => ?_, ifSet_at fun oneOf => ?_⟩
  · exact countValid_at (hcalls allOf) (fun _ => .when fun _ => yieldError_at cs _ h) 0
  · exact untilValid_at (hcalls anyOf) (yieldError_at cs _ h)
  · exact countUpToTwo_at (hcalls oneOf) (fun _ => .when fun _ => yieldError_at cs _ h) 0

end Applicators

end At

/-- **The evaluator keeps to the layout of the instance.** -/
theorem machine_lays (rt : Runtime) (heap : Addr → Option CompiledSchema) (overrun : Overrun)
    (root : Value) : (machine rt heap overrun).Lays (instanceLayout root) := by
  rintro q l ⟨cs, d⟩ h
  show (body rt heap (cs, d)).At (instanceLayout root) q l
  unfold body
  split
  · exact .skip
  · exact yieldError_at cs _ h
  · exact validate_at rt cs h
  · unfold validateRef
    split
    · exact .call h
    · exact .crash
  · exact .crash

theorem stands_root (root : Value) (q : Bool) : Stands root q [] (.root root) := by
  refine ⟨Occurs.root, ?_⟩
  cases q with
  | true => exact le_rfl
  | false => exact rfl

/-- `Evaluates rt heap x y`: the check of `x` may call that of `y`, at once or through others. -/
def Evaluates (rt : Runtime) (heap : Addr → Option CompiledSchema) (x y : Call) : Prop :=
  Relation.TransGen (fun x y => y ∈ (body rt heap x).calls) x y

/-- What the check of an instance comes to is in the instance. -/
theorem Evaluates.located {rt : Runtime} {heap : Addr → Option CompiledSchema}
    {cs : CompiledSchema} {v : Value} {x : Call} (h : Evaluates rt heap (cs, .root v) x) :
    x.2.Located v := by
  have hstep : ∀ {q l x y}, Stands v q l x.2 → y ∈ (body rt heap x).calls →
      ∃ q' l', Stands v q' l' y.2 := fun hx hy =>
    (machine_lays rt heap (fun _ _ => none) v _ _ _ hx).of_mem_calls hy
  have hstands : ∃ q l, Stands v q l x.2 := by
    induction h with
    | single hx => exact hstep (stands_root v true) hx
    | tail _ hx ih =>
      obtain ⟨q, l, hq⟩ := ih
      exact hstep hq hx
  obtain ⟨q, l, hx⟩ := hstands
  exact hx.1

end FastJsonSchema
