import FastJsonSchema.Compile.Resolve
import FastJsonSchema.Traversal.Contained
import FastJsonSchema.Validate.Layout

/-!
# The context of a run

What `is_valid` restores, which slots of `context->path` a run touches, and when the guard of
`INCR_CONTEXT` fires. A failure under `is_valid` leaves by `throw`, past the `DECR_CONTEXT` of every
level between, so the levels of the elements it leaves stay behind on `context->path`.

The store past the last slot is what C leaves undefined: a result is about every `Overrun`, and says
when there is no such store.
-/

namespace FastJsonSchema

open Ruby Traversal

/-- `is_valid`, called in a context, ends in `r`. -/
def IsValid (rt : Runtime) (heap : Addr → Option CompiledSchema) (overrun : Overrun) (c : Call)
    (context : Context Token) (r : Result Token Site RubyError) : Prop :=
  (machine rt heap overrun).Guards c (start context) r

/-- No run survives a store past the end of `context->path`. -/
def noOverrun : Overrun := fun _ _ => none

variable {rt : Runtime} {heap : Addr → Option CompiledSchema} {overrun : Overrun}
  {cs : CompiledSchema} {c : Call} {v : Value} {r : Result Token Site RubyError}

/-! ## What `is_valid` restores -/

/-- The depth, the mode and the slots up to the depth are those of `context`. -/
structure Restored (context context' : Context Token) : Prop where
  depth : context'.depth = context.depth
  shortCircuit : context'.shortCircuit = context.shortCircuit
  path : ∀ i : ℕ, i ≤ context.depth → context'.path i = context.path i

/-- **What `is_valid` restores.** A call that returns has stored within `context->path` and leaves
the context as it found it if and only if no store of the call lies past the end and no failure has
exited from an element of an array or a property of an object. However a call ends, it restores the
mode. -/
theorem isValid_restores_iff {context : Context Token}
    (h : IsValid rt heap overrun c context r) :
    (r.verdict ≠ none →
      ((machine rt heap overrun).Stored r.2 ∧ Restored context r.2.toContext ↔
        (machine rt heap overrun).FitsFrom context.depth c ∧
          (machine rt heap overrun).Contains c)) ∧
      r.2.shortCircuit = context.shortCircuit := by
  refine ⟨fun hv => ?_, h.mode⟩
  have hiff := Machine.guards_restores_iff (fun i hi => absurd hi (List.not_mem_nil)) h hv
  exact ⟨fun ⟨hs, hr⟩ => hiff.1 ⟨hs, hr.depth, hr.shortCircuit, hr.path⟩,
    fun hc => ⟨(hiff.2 hc).1, (hiff.2 hc).2.1, (hiff.2 hc).2.2.1, (hiff.2 hc).2.2.2⟩⟩

/-- The document `{"properties": {"a": false}}`. -/
def noA : Value := .object [("properties", .object [("a", .bool false)])]

/-- The object `{"a": 1}`. -/
def hasA : Value := .object [("a", .int 1)]

theorem isValid_restores_iff_noA : ∃ cs r, compileSchema .bare none noA = .ok cs ∧
    IsValid .bare cs.deref noOverrun (cs, .root hasA) createContext r ∧
      (r.verdict ≠ none →
        ((machine .bare cs.deref noOverrun).Stored r.2 ∧ Restored createContext r.2.toContext ↔
          (machine .bare cs.deref noOverrun).FitsFrom createContext.depth (cs, .root hasA) ∧
            (machine .bare cs.deref noOverrun).Contains (cs, .root hasA))) ∧
        r.2.shortCircuit = createContext.shortCircuit :=
  ⟨_, _, rfl, ⟨3, rfl, by decide⟩, isValid_restores_iff ⟨3, rfl, by decide⟩⟩

/-- The schema at `#/properties/a` of `noA`. -/
def noAProperty : CompiledSchema :=
  { CompiledSchema.create [str "properties", str "a"] (str "#/properties/a") with
    validationFunction := some .falseValidate }

/-- What `noA` compiles to. -/
def noASchema : CompiledSchema :=
  { CompiledSchema.plain [] rootPathStr with propertiesVal := some [(str "a", noAProperty)] }

/-- A failure of the property `a` leaves its level behind. -/
theorem isValid_not_restored : ∃ cs, compileSchema .bare none noA = .ok cs ∧ ∀ overrun, ∃ r,
    IsValid .bare cs.deref overrun (cs, .root hasA) createContext r ∧
      (machine .bare cs.deref overrun).Stored r.2 ∧ r.verdict = some false ∧
        ¬ Restored createContext r.2.toContext := by
  refine ⟨noASchema, rfl, fun overrun => ?_⟩
  have hrun : ∃ s : State Token Site, s.log = [.read 0, .enter 0 true, .write 1, .read 1] ∧
      s.depth = 1 ∧ (machine .bare noASchema.deref overrun).run 3 (noASchema, .root hasA)
        ((start createContext).mode true) = (.thrown, s) := ⟨_, rfl, rfl, rfl⟩
  obtain ⟨s, hlog, hdepth, hrun⟩ := hrun
  refine ⟨(.thrown, s.mode false), ⟨3, ?_, by simp⟩, ?_, rfl, fun h => ?_⟩
  · rw [Machine.protect, hrun]
    rfl
  · intro i hi
    simp only [State.log_mode, hlog, List.mem_cons, reduceCtorEq, Access.write.injEq,
      List.not_mem_nil, or_false, false_or] at hi
    subst hi
    show (0 : ℤ) ≤ 1 ∧ (1 : ℤ) < 1000
    decide
  · have := h.depth
    simp [hdepth, createContext] at this

/-! ## Which slots a run touches -/

/-- A run starts within the stack. -/
theorem within_createContext (b : Bool) :
    (machine rt heap overrun).Within (((start createContext).mode b).depth + 1)
      ((start createContext).mode b) := by
  refine ⟨fun a ha => absurd ha List.not_mem_nil, le_rfl, ?_, fun i hi => ?_⟩
  · show (0 : ℤ) < maxContextDepth
    decide
  obtain rfl : i = 0 := by simpa [start, createContext] using hi
  simp [start, createContext]

theorem safe_evaluate_iff {quiet : Bool} {n : ℕ} :
    (machine rt heap overrun).Safe (evaluate rt heap overrun cs v quiet n).2 ↔
      ((machine rt heap overrun).judge n quiet (cs, .root v)).peak < maxContextDepth := by
  rw [evaluate, Machine.run_safe_iff _ n _ (within_createContext quiet)]
  simp [start, createContext, machine]

/-- **When a run stays within `context->path`.** At every point of `validate`, and of `valid?`,
every store and every read has been in range if and only if no element that was reached lies
`MAX_CONTEXT_DEPTH` levels down, where the levels left behind by failing calls of `is_valid`
count. -/
theorem accesses_inRange_iff (rt : Runtime) (heap : Addr → Option CompiledSchema)
    (overrun : Overrun) (cs : CompiledSchema) (v : Value) (quiet : Bool) :
    (∀ n, (machine rt heap overrun).Safe (evaluate rt heap overrun cs v quiet n).2) ↔
      (machine rt heap overrun).Fits quiet (cs, .root v) :=
  forall_congr' fun _ => safe_evaluate_iff

/-- The document `{"items": {"$ref": "#"}}`. -/
def itemsOfRoot : Value := .object [("items", .object [("$ref", .str (str "#"))])]

/-- The schema at `#/items` of `itemsOfRoot`. -/
def itemsOfRootItems : CompiledSchema :=
  { CompiledSchema.plain [str "items"] (str "#/items") with
    validationFunction := some .validateRef
    refVal := some (str "#")
    refSchema := some [] }

/-- What `itemsOfRoot` compiles to. -/
def itemsOfRootSchema : CompiledSchema :=
  { CompiledSchema.plain [] rootPathStr with itemsSchema := some itemsOfRootItems }

/-- Arrays in arrays. -/
def nestedArrays : ℕ → Value
  | 0 => .arr []
  | n + 1 => .arr [nestedArrays n]

theorem body_itemsOfRoot (xs : List Value) (loc : List Token) (isName : Bool) :
    body .bare itemsOfRootSchema.deref (itemsOfRootSchema, ⟨.arr xs, loc, isName⟩) = .block [
      .block [
        .block [.skip, .skip, .skip], validateItems ⟨.arr xs, loc, isName⟩ itemsOfRootItems xs,
        .skip],
      .skip, .skip, .skip, .skip, .skip, .skip, .skip] := rfl

theorem body_itemsOfRootItems (d : Datum) :
    body .bare itemsOfRootSchema.deref (itemsOfRootItems, d) = .call (itemsOfRootSchema, d) := rfl

/-- The schema reaches as many levels down as there are. -/
theorem judge_itemsOfRoot (overrun : Overrun) (q : Bool) (k : ℕ) :
    ∀ n loc isName, 2 * k < n → (machine .bare itemsOfRootSchema.deref overrun).judge n q
      (itemsOfRootSchema, ⟨nestedArrays k, loc, isName⟩) = ⟨.pass, 0, k, []⟩ := by
  induction k with
  | zero =>
    intro n loc isName hn
    obtain ⟨n, rfl⟩ := Nat.exists_eq_succ_of_ne_zero (by omega : n ≠ 0)
    rfl
  | succ k ih =>
    intro n loc isName hn
    obtain ⟨n, rfl⟩ := Nat.exists_eq_add_of_le' (by omega : 2 ≤ n)
    have hitem : (machine .bare itemsOfRootSchema.deref overrun).judge (n + 1) q
        (itemsOfRootItems, ⟨nestedArrays k, loc ++ [.index 0], false⟩) = ⟨.pass, 0, k, []⟩ := by
      rw [Machine.judge, machine_body, body_itemsOfRootItems]
      exact ih n (loc ++ [.index 0]) false (by omega)
    rw [Machine.judge, machine_body, nestedArrays, body_itemsOfRoot]
    simp only [validateItems, Datum.elements, Datum.child, List.zipIdx_cons, List.zipIdx_nil,
      List.map, Prog.block, Prog.judge, Prog.judgeEach, hitem]
    simp [Judgement.andThen, Judgement.after, Judgement.ended, Judgement.deepen]

/-- A thousand nested arrays are not rejected before the store into `context->path[1000]`. -/
theorem nestedArrays_not_inRange :
    ∃ cs, compileSchema .bare none itemsOfRoot = .ok cs ∧ ∀ overrun quiet,
      ¬ ∀ n, (machine .bare cs.deref overrun).Safe
        (evaluate .bare cs.deref overrun cs (nestedArrays 1000) quiet n).2 := by
  refine ⟨itemsOfRootSchema, rfl, fun overrun quiet h => ?_⟩
  have hpeak := safe_evaluate_iff.1 (h 2001)
  rw [Datum.root, judge_itemsOfRoot overrun quiet 1000 _ _ _ (by omega)] at hpeak
  exact lt_irrefl _ hpeak

/-! ## When the guard fires -/

/-- Without levels left behind, no element lies deeper than the instance is nested. -/
theorem fits_of_contained {quiet : Bool}
    (h : ∀ n, (machine rt heap overrun).Contained n quiet (cs, .root v))
    (hv : Value.nesting v < maxContextDepth) :
    (machine rt heap overrun).Fits quiet (cs, .root v) := by
  intro n
  have hpeak := Machine.judge_peak_le (machine_lays rt heap overrun v) (fun l hl => hl) n quiet
    (cs, .root v) [] (stands_root v quiet)
  rw [((machine rt heap overrun).leak_eq_zero_iff n quiet _).2 (h n), List.length_nil] at hpeak
  show _ < maxContextDepth
  omega

theorem evaluate_ne_tooDeep {quiet : Bool} {n : ℕ}
    (h : ((machine rt heap overrun).judge n quiet (cs, .root v)).peak < maxContextDepth) :
    (evaluate rt heap overrun cs v quiet n).1 ≠ .tooDeep := by
  refine (Machine.run_bounded _ n _ _ (within_createContext quiet)).ne_tooDeep ?_
  simpa [start, createContext, machine] using h

/-- **When a document is never too deep.** On an instance that is nested less than
`MAX_CONTEXT_DEPTH - 1` levels deep, `validate`, and `valid?`, neither store past `context->path`
nor raise 'Document is too deep' if and only if no element that was reached lies
`MAX_CONTEXT_DEPTH` levels down, where the levels left behind by failing calls of `is_valid` count.
Without levels left behind this is so. -/
theorem not_tooDeep_iff (rt : Runtime) (heap : Addr → Option CompiledSchema) (overrun : Overrun)
    (cs : CompiledSchema) (v : Value) (hv : Value.nesting v < maxContextDepth - 1)
    (quiet : Bool) :
    ((∀ n, (machine rt heap overrun).Safe (evaluate rt heap overrun cs v quiet n).2 ∧
          (evaluate rt heap overrun cs v quiet n).1 ≠ .tooDeep) ↔
        (machine rt heap overrun).Fits quiet (cs, .root v)) ∧
      ((∀ n, (machine rt heap overrun).Contained n quiet (cs, .root v)) →
        (machine rt heap overrun).Fits quiet (cs, .root v)) := by
  refine ⟨forall_congr' fun n => ?_, fun h => fits_of_contained h (by omega)⟩
  exact ⟨fun h => safe_evaluate_iff.1 h.1,
    fun h => ⟨safe_evaluate_iff.2 h, evaluate_ne_tooDeep h⟩⟩

theorem not_tooDeep_iff_nestedArrays :
    ((∀ n, (machine .bare itemsOfRootSchema.deref noOverrun).Safe (evaluate .bare
            itemsOfRootSchema.deref noOverrun itemsOfRootSchema (nestedArrays 2) false n).2 ∧
          (evaluate .bare itemsOfRootSchema.deref noOverrun itemsOfRootSchema (nestedArrays 2)
            false n).1 ≠ .tooDeep) ↔
        (machine .bare itemsOfRootSchema.deref noOverrun).Fits false
          (itemsOfRootSchema, .root (nestedArrays 2))) ∧
      ((∀ n, (machine .bare itemsOfRootSchema.deref noOverrun).Contained n false
          (itemsOfRootSchema, .root (nestedArrays 2))) →
        (machine .bare itemsOfRootSchema.deref noOverrun).Fits false
          (itemsOfRootSchema, .root (nestedArrays 2))) :=
  not_tooDeep_iff _ _ _ _ _ (by decide) false

/-! ### A shallow instance that is too deep -/

/-- A store into `context->path[1000]` where values have eight bytes and integers four: the low half
of the value overwrites `depth`, its next byte the mode. A `String` is its address. -/
def lp64 (address : RString → ℕ) : Overrun := fun t context =>
  let value := match t with
    | .str s => address s
    | .index i => 2 * i + 1
  if context.depth = maxContextDepth then
    some { context with
      depth := (value : ℤ).bmod (2 ^ 32)
      shortCircuit := value / 2 ^ 32 % 256 ≠ 0 }
  else none

/-- The document
`{"items": {"anyOf": [{"properties": {"a": {"properties": {"b": false}}}}, true]}}`. -/
def itemsAnyOf : Value := .object [("items", .object [("anyOf", .arr [
  .object [("properties", .object [("a", .object [("properties", .object [("b", .bool false)])])])],
  .bool true])])]

def noB : CompiledSchema :=
  { CompiledSchema.create [str "items", str "anyOf", str "0", str "properties", str "a",
      str "properties", str "b"] (str "#/items/anyOf/0/properties/a/properties/b") with
    validationFunction := some .falseValidate }

def aWithoutB : CompiledSchema :=
  { CompiledSchema.plain [str "items", str "anyOf", str "0", str "properties", str "a"]
      (str "#/items/anyOf/0/properties/a") with
    propertiesVal := some [(str "b", noB)] }

def withAWithoutB : CompiledSchema :=
  { CompiledSchema.plain [str "items", str "anyOf", str "0"] (str "#/items/anyOf/0") with
    propertiesVal := some [(str "a", aWithoutB)] }

def anything : CompiledSchema :=
  { CompiledSchema.create [str "items", str "anyOf", str "1"] (str "#/items/anyOf/1") with
    validationFunction := some .noOpValidate }

/-- The schema at `#/items` of `itemsAnyOf`. -/
def itemsAnyOfItems : CompiledSchema :=
  { CompiledSchema.plain [str "items"] (str "#/items") with
    anyOfVal := some [withAWithoutB, anything] }

/-- What `itemsAnyOf` compiles to. -/
def itemsAnyOfSchema : CompiledSchema :=
  { CompiledSchema.plain [] rootPathStr with itemsSchema := some itemsAnyOfItems }

/-- The object `{"a": {"b": 1}}`. -/
def withB : Value := .object [("a", .object [("b", .int 1)])]

/-- The machine on which the keys are at an address above four gigabytes. -/
def itemsAnyOfMachine : Machine Call Token Site RubyError :=
  machine .bare itemsAnyOfSchema.deref (lp64 fun _ => 0x7f0100001000)

def skips (n : ℕ) : Code := .block (List.replicate n .skip)

@[simp] theorem judge_skips (callee : Bool → Call → Judgement Site RubyError) (q : Bool) (n : ℕ) :
    (skips n).judge callee q = .ended .pass := by
  induction n with
  | zero => rfl
  | succ n ih =>
    rw [skips, List.replicate_succ, Prog.block, Prog.judge, ← skips, ih, Prog.judge,
      Judgement.ended_pass_andThen]

/-- What a schema with `properties` alone does to an object with that one property. -/
def onProperty (k : RString) (c : Call) : Code :=
  .seq (.seq (skips 3) (.seq .skip (.seq
    (.each [(.str k, .seq .skip (.seq (.call c) (skips 2)))]) .skip))) (skips 7)

theorem body_aWithoutB (loc : List Token) (isName : Bool) :
    itemsAnyOfMachine.body (aWithoutB, ⟨.object [("b", .int 1)], loc, isName⟩) =
      onProperty (str "b") (noB, ⟨.int 1, loc ++ [.str (str "b")], false⟩) := rfl

theorem body_withAWithoutB (loc : List Token) (isName : Bool) :
    itemsAnyOfMachine.body (withAWithoutB, ⟨withB, loc, isName⟩) = onProperty (str "a")
      (aWithoutB, ⟨.object [("b", .int 1)], loc ++ [.str (str "a")], false⟩) := rfl

theorem body_itemsAnyOfItems (loc : List Token) (isName : Bool) :
    itemsAnyOfMachine.body (itemsAnyOfItems, ⟨withB, loc, isName⟩) =
      .seq (.seq (skips 3) (.seq .skip (.seq (.each [(.str (str "a"), skips 4)]) .skip)))
        (.seq .skip (.seq .skip (.seq .skip (.seq .skip (.seq .skip (.seq
          (untilValid [(withAWithoutB, ⟨withB, loc, isName⟩), (anything, ⟨withB, loc, isName⟩)]
            (yieldError itemsAnyOfItems ⟨withB, loc, isName⟩ (str "anyOf"))) (skips 1))))))) := rfl

theorem judge_onProperty {callee : Bool → Call → Judgement Site RubyError} {k : RString} {c : Call}
    {n : ℕ} (h : callee true c = ⟨.fail, n, n, []⟩) :
    (onProperty k c).judge callee true = ⟨.fail, n + 1, n + 1, []⟩ := by
  simp only [onProperty, Prog.judge, Prog.judgeEach, judge_skips, Judgement.ended_pass_andThen, h]
  simp [Judgement.andThen, Judgement.deepen]

/-- Each element leaves two levels behind. -/
theorem judge_itemsAnyOfItems (q : Bool) (loc : List Token) (isName : Bool) :
    itemsAnyOfMachine.judge 4 q (itemsAnyOfItems, ⟨withB, loc, isName⟩) = ⟨.pass, 2, 2, []⟩ := by
  have ha : ∀ loc isName, itemsAnyOfMachine.judge 2 true
      (aWithoutB, ⟨.object [("b", .int 1)], loc, isName⟩) = ⟨.fail, 1, 1, []⟩ := by
    intro loc isName
    rw [Machine.judge, body_aWithoutB]
    exact judge_onProperty rfl
  have hfirst : itemsAnyOfMachine.judge 3 true (withAWithoutB, ⟨withB, loc, isName⟩)
      = ⟨.fail, 2, 2, []⟩ := by
    rw [Machine.judge, body_withAWithoutB]
    exact judge_onProperty (ha _ _)
  have hsecond : itemsAnyOfMachine.judge 3 true (anything, ⟨withB, loc, isName⟩)
      = .ended .pass := rfl
  rw [Machine.judge, body_itemsAnyOfItems]
  simp only [Prog.judge, Prog.judgeEach, untilValid, judge_skips, hfirst]
  simp [Prog.judge, hsecond, Judgement.andThen, Judgement.after, Judgement.branch,
    Judgement.ended, Judgement.deepen]

/-- Where the path is full, the guard fires on the second level of an element. -/
theorem run_itemsAnyOfItems (quiet : Bool) (loc : List Token) (isName : Bool)
    (path : ℕ → Option Token) (errors : List (Site × List Token)) (log : List Access) :
    (itemsAnyOfMachine.run 4 (itemsAnyOfItems, ⟨withB, loc, isName⟩)
      ⟨⟨path, 999, quiet⟩, errors, log⟩).1 = .tooDeep := rfl

/-- The elements of `items`, two levels behind each other. -/
theorem execEach_itemsAnyOf (m : ℕ) : ∀ (xs : List (Token × Code)) (s : State Token Site),
    (∀ x ∈ xs, ∃ loc isName, x.2 = .call (itemsAnyOfItems, ⟨withB, loc, isName⟩)) →
      m < xs.length → s.depth = 999 - 2 * m → itemsAnyOfMachine.Within s.depth s →
        (itemsAnyOfMachine.execEach (itemsAnyOfMachine.run 4) xs s).1 = .tooDeep := by
  induction m with
  | zero =>
    rintro (_ | ⟨⟨t, p⟩, xs⟩) s hx hm hd hw
    · exact absurd hm (Nat.not_lt_zero _)
    obtain ⟨loc, isName, rfl⟩ := hx _ List.mem_cons_self
    obtain ⟨hdone, hdepth, -⟩ := Machine.write_within t hw
    rw [Machine.execEach, Result.andThen_of_done hdone]
    obtain ⟨⟨⟨path, depth, quiet⟩, errors, log⟩, hs⟩ :
      ∃ s₁, s₁ = (itemsAnyOfMachine.write t s).2 := ⟨_, rfl⟩
    obtain rfl : depth = 999 := by
      rw [← hs] at hdepth
      simpa [hd] using hdepth
    rw [← hs, Machine.exec, Result.andThen_of_ne] <;>
      simp [run_itemsAnyOfItems]
  | succ m ih =>
    rintro (_ | ⟨⟨t, p⟩, xs⟩) s hx hm hd hw
    · exact absurd hm (Nat.not_lt_zero _)
    obtain ⟨loc, isName, rfl⟩ := hx _ List.mem_cons_self
    obtain ⟨hdone, hdepth, hw₁⟩ := Machine.write_within t hw
    rw [← hdepth] at hw₁
    obtain ⟨hdone₂, hdepth₂, hw₂⟩ := Machine.run_done itemsAnyOfMachine hw₁
      (judge_itemsAnyOfItems _ loc isName) rfl (by
        rw [hdepth, hd]
        show (999 : ℤ) - 2 * (m + 1 : ℕ) + (2 : ℕ) < (1000 : ℕ)
        omega)
    rw [Machine.execEach, Result.andThen_of_done hdone, Machine.exec,
      Result.andThen_of_done hdone₂]
    refine ih xs _ (fun x hx' => hx x (List.mem_cons_of_mem _ hx')) (by simpa using hm) ?_
      ⟨hw₂.safe, hw₂.nonneg, hw₂.lt, fun i hi => hw₂.filled i (by omega)⟩
    rw [hdepth₂, hdepth, hd]
    push_cast
    omega

theorem exec_skips {callee : Call → State Token Site → Result Token Site RubyError} (n : ℕ)
    (s : State Token Site) : itemsAnyOfMachine.exec callee (skips n) s = (.done, s) := by
  induction n with
  | zero => rfl
  | succ n ih => exact ih

theorem body_itemsAnyOf (xs : List Value) :
    itemsAnyOfMachine.body (itemsAnyOfSchema, .root (.arr xs)) =
      .seq (.seq (skips 3) (.seq (validateItems (.root (.arr xs)) itemsAnyOfItems xs)
        (.seq .skip .skip))) (skips 7) := rfl

theorem run_itemsAnyOf {xs : List Value} (hx : ∀ v ∈ xs, v = withB) (hlen : 499 < xs.length) :
    (itemsAnyOfMachine.run 5 (itemsAnyOfSchema, .root (.arr xs)) (start createContext)).1
      = .tooDeep := by
  have hlevel : ∀ s : State Token Site, s.depth = 0 → itemsAnyOfMachine.Within (s.depth + 1) s →
      (itemsAnyOfMachine.exec (itemsAnyOfMachine.run 4)
        (validateItems (.root (.arr xs)) itemsAnyOfItems xs) s).1 = .tooDeep := by
    intro s hd hw
    rw [validateItems, Machine.exec, if_neg (by
      rw [hd]
      show ¬ ((1000 : ℕ) : ℤ) < 0 + 1
      omega), Result.fst_leave]
    refine execEach_itemsAnyOf 499 _ _ ?_ (by simpa [Datum.elements] using hlen)
      (by simp [hd]) ⟨Machine.safe_logged.2 ⟨hw.safe, trivial⟩, by simp [hd], ?_, by
        simpa using hw.filled⟩
    · intro x hx'
      obtain ⟨y, hy, rfl⟩ := List.mem_map.1 hx'
      obtain ⟨i, v, hi, rfl⟩ := mem_elements hy
      obtain rfl := hx v (List.mem_of_getElem? hi)
      exact ⟨_, _, rfl⟩
    · rw [State.depth_enter, hd]
      show (0 : ℤ) + 1 < (1000 : ℕ)
      omega
  have hwithin : itemsAnyOfMachine.Within (((start createContext).mode false).depth + 1)
      ((start createContext).mode false) := within_createContext false
  have hrun := hlevel ((start createContext).logged (.read 0)) rfl
    ⟨Machine.safe_logged.2 ⟨hwithin.safe, by decide⟩, le_rfl, hwithin.lt, hwithin.filled⟩
  have hne : (itemsAnyOfMachine.exec (itemsAnyOfMachine.run 4)
      (validateItems (.root (.arr xs)) itemsAnyOfItems xs)
        ((start createContext).logged (.read 0))).1 ≠ .done := by simp [hrun]
  have htype : itemsAnyOfMachine.exec (itemsAnyOfMachine.run 4)
      (.seq (skips 3)
        (.seq (validateItems (.root (.arr xs)) itemsAnyOfItems xs) (.seq .skip .skip)))
        ((start createContext).logged (.read 0)) =
      itemsAnyOfMachine.exec (itemsAnyOfMachine.run 4)
        (validateItems (.root (.arr xs)) itemsAnyOfItems xs)
          ((start createContext).logged (.read 0)) := by
    rw [Machine.exec, exec_skips, Result.andThen_of_done rfl, Machine.exec,
      Result.andThen_of_ne hne]
  have hbody : itemsAnyOfMachine.run 5 (itemsAnyOfSchema, .root (.arr xs)) (start createContext) =
      itemsAnyOfMachine.exec (itemsAnyOfMachine.run 4)
        (validateItems (.root (.arr xs)) itemsAnyOfItems xs)
          ((start createContext).logged (.read 0)) := by
    rw [Machine.run, body_itemsAnyOf, Machine.exec]
    exact (congrArg (Result.andThen · _) htype).trans (Result.andThen_of_ne hne)
  rw [hbody, hrun]

theorem nestingList_le {n : ℕ} {xs : List Value} (h : ∀ v ∈ xs, Value.nesting v ≤ n) :
    Value.nestingList xs ≤ n := by
  induction xs with
  | nil => exact Nat.zero_le n
  | cons x xs ih =>
    rw [List.forall_mem_cons] at h
    exact max_le h.1 (ih h.2)

/-- Five hundred objects of depth two are too deep. -/
theorem tooDeep_of_shallow : ∃ cs v r, compileSchema .bare none itemsAnyOf = .ok cs ∧
    Value.nesting v < maxContextDepth - 1 ∧
      Validates .bare cs.deref (lp64 fun _ => 0x7f0100001000) cs v r ∧ r.1 = .tooDeep := by
  obtain ⟨xs, hx, hlen⟩ : ∃ xs : List Value, (∀ v ∈ xs, v = withB) ∧ 499 < xs.length :=
    ⟨List.replicate 500 withB, fun _ hv => List.eq_of_mem_replicate hv,
      by rw [List.length_replicate]; omega⟩
  have hnesting : Value.nestingList xs ≤ 2 := nestingList_le fun v hv => by
    rw [hx v hv]
    decide
  have hrun := run_itemsAnyOf hx hlen
  refine ⟨itemsAnyOfSchema, .arr xs, _, rfl, ?_, ⟨5, rfl, fun h => ?_⟩, hrun⟩
  · show Value.nestingList xs + 1 < 999
    omega
  · exact absurd (hrun.symm.trans h) (by decide)

end FastJsonSchema
