import FastJsonSchema.Compile.Initialised
import FastJsonSchema.Compile.Unknown
import FastJsonSchema.Validate.Mirrors

/-!
# Unknown members and verdicts

Evaluation comes to some of the schemas of a document only (`Position.Reached`). When it comes to no
`$ref` whose place a new member takes over, and not to the object that gets the member unless it has
others, then the nodes that it comes to have twins that make the same checks, and the runs are the
same (`UnknownMember.evaluate_eq`). So such a member disturbs nothing exactly when the documents
compile alike (`unknownMember_iff`).
-/

namespace FastJsonSchema

open Ruby Value Traversal

/-! ## Trees -/

section Nodes

open Position

variable {rt : Runtime} {customFormats : Option (List (RString × ℕ))} {doc : Value}
  {c d : CompiledSchema} {a : Addr}

/-- What a position of a compiled document tells of its node. -/
abbrev NodeOf (rt : Runtime) (customFormats : Option (List (RString × ℕ))) (doc : Value) (n : ℕ) :
    Position → CompiledSchema → Prop :=
  Built rt (fun p c => p.target rt (keysOf rt customFormats doc).reverse = .ok c.refSchema) n

/-- What an address leads to is the node of the position there. -/
theorem position_of_deref (hc : compileSchema rt customFormats doc = .ok c)
    (hd : c.deref a = some d) :
    ∃ q ∈ positionsOf rt customFormats doc, q.addr = a ∧
      ∃ n, NodeOf rt customFormats doc n q d := by
  obtain ⟨hreach, rfl⟩ := CompiledSchema.reach_of_deref hd
  obtain ⟨m, q, hq, hb⟩ := (compileSchema_built hc).of_reach hreach
  exact ⟨q, hq, (Built.matches hb).addr.symm, m, hb⟩

/-- The address of a position leads to a node. -/
theorem deref_of_position (hc : compileSchema rt customFormats doc = .ok c) {q : Position}
    (hq : q ∈ positionsOf rt customFormats doc) : ∃ d, c.deref q.addr = some d := by
  have hbuilt := compileSchema_built hc
  obtain ⟨_, d, hd, hb⟩ := hbuilt.of_mem hq
  rw [← (Built.matches hb).addr]
  exact (Built.lengthens hbuilt).deref hd

/-- The target of a node is the address of a position. -/
theorem position_of_target (hc : compileSchema rt customFormats doc = .ok c) (hd : c.Reach d)
    (ha : d.refSchema = some a) : ∃ q ∈ positionsOf rt customFormats doc, q.addr = a := by
  obtain ⟨p, -, -, htarget⟩ := compileSchema_spec hc d hd
  rw [ha, Position.target] at htarget
  cases href : (p.resolved rt).1.refVal with
  | none =>
    rw [href] at htarget
    cases htarget
  | some ref =>
    rw [href] at htarget
    rcases refTarget_eq_ok.1 htarget with h | ⟨-, -, h⟩
    · obtain ⟨q, hq, rfl⟩ := entry_iff.1 h
      exact ⟨q, hq.mem, rfl⟩
    · obtain ⟨q, hq, rfl⟩ := entry_iff.1 h
      exact ⟨q, hq.mem, rfl⟩

/-- `c` is the node of the position `p` of a document. -/
def HasNode (rt : Runtime) (customFormats : Option (List (RString × ℕ))) (doc : Value)
    (p : Position) (c : CompiledSchema) : Prop :=
  p ∈ positionsOf rt customFormats doc ∧ ∃ n, NodeOf rt customFormats doc n p c

variable {p : Position}

/-- A position under a keyword of another is one of the document. -/
theorem positionsOf_applicators {q : Position} (hp : p ∈ positionsOf rt customFormats doc)
    (hq : q ∈ (p.applicators rt).members) : q ∈ positionsOf rt customFormats doc := by
  have hchild : q ∈ p.children rt := by
    rw [Position.children_eq]
    exact List.mem_append_left _ hq
  obtain ⟨s, v, hs, rfl⟩ := Position.mem_children.1 hchild
  exact positionsOf_child hp hs

/-- The nodes below a node are those of the positions below its position. -/
theorem HasNode.applicators (h : HasNode rt customFormats doc p c) :
    (p.applicators rt).Rel (HasNode rt customFormats doc) c.applicators := by
  obtain ⟨hp, n, hb⟩ := h
  cases n with
  | zero => exact hb.elim
  | succ n =>
    exact hb.2.applicators.imp fun q hq _ _ hqc => ⟨positionsOf_applicators hp hq, n, hqc⟩

theorem HasNode.own (h : HasNode rt customFormats doc p c) : p.own rt = .ok c.own := by
  obtain ⟨-, n, hb⟩ := h
  cases n with
  | zero => exact hb.elim
  | succ n => exact hb.2.own

theorem HasNode.target (h : HasNode rt customFormats doc p c) :
    p.target rt (keysOf rt customFormats doc).reverse = .ok c.refSchema := by
  obtain ⟨-, n, hb⟩ := h
  exact Built.prop hb

/-- A node that is evaluated by its keywords has no `$ref`. -/
theorem HasNode.refVal_of_validate (h : HasNode rt customFormats doc p c)
    (hc : c.validationFunction = some .validate) : p.refVal = none := by
  have hown := h.own
  have hfunction : c.own.validationFunction = some .validate := hc
  generalize c.own = o at hown hfunction
  unfold Position.own at hown
  split at hown
  · obtain rfl := Except.ok.inj hown
    cases hfunction
  next kv kvs hv =>
    obtain ⟨format, -, hown⟩ := bind_eq_ok.1 hown
    obtain ⟨type, -, hown⟩ := bind_eq_ok.1 hown
    obtain rfl := Except.ok.inj hown
    simp only [ownFields, CompiledSchema.own] at hfunction
    split_ifs at hfunction with href
    · cases hfunction
    · rw [Position.refVal, ← @resolved_refVal rt]
      exact Option.not_isSome_iff_eq_none.1 href
  · obtain rfl := Except.ok.inj hown
    cases hfunction

/-- The target of a position is the address of one. -/
theorem position_of_refTarget
    (h : p.target rt (keysOf rt customFormats doc).reverse = .ok (some a)) :
    ∃ q ∈ positionsOf rt customFormats doc, q.addr = a := by
  by_cases href : p.refVal = none
  · rw [Position.target, resolved_refVal, show stringKeyword p.members refStr = none from href] at h
    cases h
  · obtain ⟨q, hq, ha⟩ := target_position href h
    exact ⟨q, hq, (Option.some.inj ha).symm⟩

end Nodes

/-! ## What is evaluated -/

/-- The positions that evaluation may come to: the root, those under the keywords of a position
without a `$ref`, and the target of one with a `$ref`. -/
inductive Position.Reached (rt : Runtime) (customFormats : Option (List (RString × ℕ)))
    (doc : Value) : Position → Prop
  | root : Reached rt customFormats doc (rootPosition doc customFormats)
  | child {p q : Position} (h : Reached rt customFormats doc p) (href : p.refVal = none)
    (hq : q ∈ (p.applicators rt).members) : Reached rt customFormats doc q
  | target {p q : Position} (h : Reached rt customFormats doc p)
    (hq : q ∈ positionsOf rt customFormats doc)
    (ht : p.target rt (keysOf rt customFormats doc).reverse = .ok (some q.addr)) :
    Reached rt customFormats doc q

theorem Position.Reached.mem {rt : Runtime} {customFormats : Option (List (RString × ℕ))}
    {doc : Value} {p : Position} (h : p.Reached rt customFormats doc) :
    p ∈ positionsOf rt customFormats doc := by
  induction h with
  | root => exact positionsOf_root
  | child _ _ hq ih => exact positionsOf_applicators ih hq
  | target _ hq _ _ => exact hq

/-- What keeps evaluation from the new member of the object at `p`. -/
structure Unseen (rt : Runtime) (customFormats : Option (List (RString × ℕ))) (p : Position)
    (doc doc' : Value) : Prop where
  /-- The `$ref`s that evaluation comes to lead to the same places in both documents. -/
  kept : ∀ q : Position, q.Reached rt customFormats doc →
    q.target rt (keysOf rt customFormats doc').reverse
      = q.target rt (keysOf rt customFormats doc).reverse
  /-- Evaluation does not come to the object, if it was without members. -/
  object : p.members = [] → ¬ p.Reached rt customFormats doc

namespace UnknownMember

open Position

variable {rt : Runtime} {customFormats : Option (List (RString × ℕ))} {k : RString} {x : Value}
  {p : Position} {ms' : List (Value × Value)} {doc doc' : Value} {c c' : CompiledSchema}

/-- The nodes of twins that evaluation comes to. -/
def TwinNodes (rt : Runtime) (customFormats : Option (List (RString × ℕ))) (p : Position)
    (ms' : List (Value × Value)) (doc doc' : Value) (c c' : CompiledSchema) : Prop :=
  ∃ q q', q.Reached rt customFormats doc ∧ HasNode rt customFormats doc q c ∧
    HasNode rt customFormats doc' q' c' ∧ Twin p.members ms' p.addr q q'

theorem TwinNodes.path {c c' : CompiledSchema}
    (h : TwinNodes rt customFormats p ms' doc doc' c c') : c'.path = c.path := by
  obtain ⟨q, q', -, ⟨-, n, hb⟩, ⟨-, m, hb'⟩, htwin⟩ := h
  rw [(Built.matches hb).path, (Built.matches hb').path, htwin.path]

variable (h : UnknownMember rt customFormats k x p ms' doc doc')
  (hunseen : Unseen rt customFormats p doc doc')

include h hunseen

theorem TwinNodes.own (hn : TwinNodes rt customFormats p ms' doc doc' c c') : c'.own = c.own := by
  obtain ⟨q, q', hq, hc, hc', htwin⟩ := hn
  have hown : q'.own rt = q.own rt := by
    refine htwin.own h.inserted h.unknown (positionsOf_distinct h.distinct q hc.1) fun hms ha => ?_
    obtain rfl := positionsOf_injective h.distinct hc.1 h.mem ha
    exact hunseen.object hms hq
  rw [hc.own, hc'.own] at hown
  exact Except.ok.inj hown

omit hunseen in
theorem TwinNodes.applicators (hn : TwinNodes rt customFormats p ms' doc doc' c c')
    (hvalidate : c.validationFunction = some .validate) :
    c.applicators.Rel (TwinNodes rt customFormats p ms' doc doc') c'.applicators := by
  obtain ⟨q, q', hq, hc, hc', htwin⟩ := hn
  have htwins : (q.applicators rt).Rel (fun r r' => r.Reached rt customFormats doc ∧
      Twin p.members ms' p.addr r r') (q'.applicators rt) :=
    (htwin.applicators h.inserted h.unknown (positionsOf_distinct h.distinct q hc.1)).imp
      fun r hr _ _ ht => ⟨.child hq (hc.refVal_of_validate hvalidate) hr, ht⟩
  -- the nodes below `c` and those below `c'` are nodes of twins
  have hleft : (q'.applicators rt).Rel (fun r' d => ∃ r, r.Reached rt customFormats doc ∧
      Twin p.members ms' p.addr r r' ∧ HasNode rt customFormats doc r d) c.applicators :=
    htwins.comp (fun r r' d hr hb => ⟨r, hr.1, hr.2, hb⟩) hc.applicators
  refine hleft.comp ?_ hc'.applicators
  rintro r' d d' ⟨r, hr, ht, hb⟩ hb'
  exact ⟨r, r', hr, hb, hb', ht⟩

variable (hc : compileSchema rt customFormats doc = .ok c)
  (hc' : compileSchema rt customFormats doc' = .ok c')

include hc hc'

omit hunseen in
/-- The address of a position leads to the nodes of twins. -/
theorem twinNodes_deref {q : Position} (hq : q.Reached rt customFormats doc) :
    Option.Rel (TwinNodes rt customFormats p ms' doc doc') (c.deref q.addr) (c'.deref q.addr) := by
  have hwidens := h.positionsOf_widens
  obtain ⟨q', hq', -, htwin⟩ := hwidens.of_mem_left hq.mem
  obtain ⟨d, hd⟩ := deref_of_position hc hq.mem
  obtain ⟨d', hd'⟩ := deref_of_position hc' hq'
  rw [htwin.addr] at hd'
  rw [hd, hd']
  obtain ⟨r, hr, haddr, hb⟩ := position_of_deref hc hd
  obtain ⟨r', hr', haddr', hb'⟩ := position_of_deref hc' hd'
  obtain rfl := positionsOf_injective h.distinct hr hq.mem haddr
  rcases hwidens.of_mem_right hr' with ⟨ts, hts⟩ | ⟨s, hs, -, htwin'⟩
  · exact absurd ⟨ts, haddr'.symm.trans hts⟩ (h.not_within hr)
  · obtain rfl := positionsOf_injective h.distinct hs hr (htwin'.addr.symm.trans haddr')
    exact .some ⟨s, r', hq, ⟨hr, hb⟩, ⟨hr', hb'⟩, htwin'⟩

theorem TwinNodes.target {d d' : CompiledSchema}
    (hn : TwinNodes rt customFormats p ms' doc doc' d d') :
    Option.Rel (TwinNodes rt customFormats p ms' doc doc') (d.refSchema.bind c.deref)
      (d'.refSchema.bind c'.deref) := by
  obtain ⟨q, q', hq, hd, hd', htwin⟩ := hn
  have htarget : q'.target rt (keysOf rt customFormats doc').reverse
      = q.target rt (keysOf rt customFormats doc).reverse := by
    rw [← hunseen.kept q hq, Position.target, Position.target, h.twin_resolved hd.1 htwin]
  have href : d'.refSchema = d.refSchema := by
    rw [hd.target, hd'.target] at htarget
    exact Except.ok.inj htarget
  rw [href]
  cases ha : d.refSchema with
  | none => exact .none
  | some a =>
    have hto := ha ▸ hd.target
    obtain ⟨r, hr, rfl⟩ := position_of_refTarget hto
    exact h.twinNodes_deref hc hc' (.target hq hr hto)

/-- **The runs are the same.** -/
theorem evaluate_eq (overrun : Overrun) (v : Value) (quiet : Bool) (n : ℕ) :
    evaluate rt c'.deref overrun c' v quiet n = evaluate rt c.deref overrun c v quiet n := by
  have hmax : (machine rt c'.deref overrun).max = (machine rt c.deref overrun).max := rfl
  refine Machine.run_mirrors (R := SameDatum (TwinNodes rt customFormats p ms' doc doc')) hmax rfl
    ?_ n (c, .root v) (c', .root v) ⟨?_, rfl⟩ _
  · rintro ⟨d, datum⟩ ⟨d', datum'⟩ ⟨hn, rfl⟩
    exact body_mirrors (fun _ _ hr => TwinNodes.path hr) (TwinNodes.own h hunseen hn)
      (TwinNodes.applicators h hn) (TwinNodes.target h hunseen hc hc' hn)
  · exact ⟨_, _, .root, ⟨positionsOf_root, _, compileSchema_built hc⟩,
      ⟨positionsOf_root, _, compileSchema_built hc'⟩, h.root_twin⟩

end UnknownMember

/-! ## The verdicts -/

/-- `doc'` compiles exactly when `doc` does, and the compiled schemas run in the same way on every
instance. -/
structure Undisturbed (rt : Runtime) (customFormats : Option (List (RString × ℕ)))
    (doc doc' : Value) : Prop where
  compiles : (∃ c', compileSchema rt customFormats doc' = .ok c') ↔
    ∃ c, compileSchema rt customFormats doc = .ok c
  verdict : ∀ c c', compileSchema rt customFormats doc = .ok c →
    compileSchema rt customFormats doc' = .ok c' → ∀ overrun v quiet n,
      evaluate rt c'.deref overrun c' v quiet n = evaluate rt c.deref overrun c v quiet n

/-- A schema that dispatches by the type of the instance raises on an `Integer` beyond a `long`. -/
theorem evaluate_beyond_long {rt : Runtime} {heap : Addr → Option CompiledSchema}
    {overrun : Overrun} {cs : CompiledSchema} (hf : cs.validationFunction = some .validate)
    (ht : cs.typeValidationFunction = some .validateByDataType) (quiet : Bool) (n : ℕ) :
    (evaluate rt heap overrun cs (.int (2 ^ 63)) quiet (n + 1)).1 = .raised .rangeError := by
  have hlong : num2long (.int (2 ^ 63)) = .error .rangeError := by decide
  have hcheck : validateType rt cs (.root (.int (2 ^ 63))) = .raise .rangeError := by
    rw [validateType, ht]
    show validateInteger rt cs (.root (.int (2 ^ 63))) = _
    rw [validateInteger]
    show converted (num2long (.int (2 ^ 63))) _ = _
    rw [hlong]
    rfl
  rw [evaluate, Machine.run, machine_body, body, hf]
  show (Machine.exec _ _ (validate rt cs _) _).1 = _
  rw [validate, Prog.block, hcheck, Machine.exec]
  rfl

/-- The functions of an object with one member, under an unknown keyword. -/
theorem functions_of_unknown {rt : Runtime} {customFormats : Option (List (RString × ℕ))}
    {k : RString} {x : Value} {c : CompiledSchema} (hk : isKnownKeyword k = false)
    (hc : compileSchema rt customFormats (.hash [(.str k, x)]) = .ok c) :
    c.validationFunction = some .validate ∧
      c.typeValidationFunction = some .validateByDataType := by
  have hget : ∀ k' ∈ knownKeywords, get [(.str k, x)] k' = none := fun k' hk' => by
    have hne : k ≠ k' := by
      rintro rfl
      rw [isKnownKeyword, List.contains_eq_mem, decide_eq_false_iff_not] at hk
      exact hk hk'
    simp [Value.get, isStr, hne]
  obtain ⟨-, hassembled⟩ := compileSchema_built hc
  obtain ⟨format, -, type, htype, hown⟩ := (Position.own_eq_ok
    (p := rootPosition (.hash [(.str k, x)]) customFormats) rfl (List.cons_ne_nil _ _)).1
      hassembled.own
  obtain rfl : type = (.validateByDataType, []) :=
    Except.ok.inj (htype.symm.trans (typeValidationFunction_of_get (hget typeStr (by decide))))
  have href : ((rootPosition (.hash [(.str k, x)]) customFormats).resolved rt).1.refVal = none := by
    rw [Position.resolved_refVal]
    show stringKeyword [(.str k, x)] refStr = none
    rw [stringKeyword, aref, hget refStr (by decide)]
    rfl
  refine ⟨?_, (congrArg CompiledSchema.typeValidationFunction hown).symm⟩
  have hfield := congrArg CompiledSchema.validationFunction hown
  rw [Position.ownFields, href] at hfield
  exact hfield.symm

/-- **The empty object is always disturbed**: it accepts everything, and with any member it raises
on an `Integer` beyond a `long`. -/
theorem emptyObject_disturbed {rt : Runtime} {customFormats : Option (List (RString × ℕ))}
    {k : RString} (x : Value) (hk : isKnownKeyword k = false) :
    ¬ Undisturbed rt customFormats (.hash []) (.hash [(.str k, x)]) := by
  intro h
  obtain ⟨c', hc'⟩ := h.compiles.2 ⟨_, rfl⟩
  obtain ⟨hfunction, hdispatch⟩ := functions_of_unknown hk hc'
  have hrun := h.verdict _ c' rfl hc' noOverrun (.int (2 ^ 63)) false 1
  have hraised : (evaluate rt c'.deref noOverrun c' (.int (2 ^ 63)) false 1).1
      = .raised .rangeError := evaluate_beyond_long hfunction hdispatch false 0
  rw [hrun] at hraised
  cases hraised

/-- A reference past an object without members. -/
def pastEmpty : Value :=
  .object [("$ref", .str (str "#/definitions/s")), ("definitions",
    .object [("s", .object [("type", .str (str "string"))]), ("t", .object [])])]

/-- The object with a default. -/
def pastDefault : Value :=
  .object [("$ref", .str (str "#/definitions/s")), ("definitions",
    .object [("s", .object [("type", .str (str "string"))]),
      ("t", .object [("default", .object [("minimum", .int 1)])])])]

/-- The position of the object. -/
def emptyPosition : Position :=
  ⟨[str "definitions", str "t"], str "#/definitions/t", .hash [],
    ((rootPosition pastEmpty none).ctx.descend (str "definitions")).descend (str "t")⟩

/-- Evaluation comes to the root and to the target of its `$ref` only. -/
theorem reached_pastEmpty {q : Position} (h : q.Reached .bare none pastEmpty) :
    q.addr = [] ∨ q.addr = [str "definitions", str "s"] := by
  have hleaf : ∀ q ∈ positionsOf .bare none pastEmpty, q.addr = [] → q.refVal ≠ none := by decide
  have hchild : ∀ q ∈ positionsOf .bare none pastEmpty, q.addr = [str "definitions", str "s"] →
      (q.applicators .bare).members.length = 0 := by decide
  have htarget : ∀ q ∈ positionsOf .bare none pastEmpty,
      q.addr = [] ∨ q.addr = [str "definitions", str "s"] →
        q.target .bare (keysOf .bare none pastEmpty).reverse = .ok none ∨
          q.target .bare (keysOf .bare none pastEmpty).reverse
            = .ok (some [str "definitions", str "s"]) := by decide
  induction h with
  | root => exact .inl rfl
  | @child p q hp href hq ih =>
    rcases ih with ha | ha
    · exact absurd href (hleaf p hp.mem ha)
    · rw [List.eq_nil_of_length_eq_zero (hchild p hp.mem ha)] at hq
      exact absurd hq List.not_mem_nil
  | @target p q hp hq ht ih =>
    rcases htarget p hp.mem ih with h | h
    · rw [h] at ht
      cases ht
    · rw [h] at ht
      exact .inr (Option.some.inj (Except.ok.inj ht)).symm

/-- A schema with a type. -/
def typedString : Value := .object [("type", .str (str "string"))]

/-- The schema with examples, one of which is no schema. -/
def withExamples : Value :=
  .object [("type", .str (str "string")), ("examples", .arr [.object [("type", .arr [])]])]

/-- A reference to the `$id` of a definition. -/
def byId : Value :=
  .object [("$ref", .str (str "http://x/a")), ("definitions", .object [("t",
    .object [("$id", .str (str "http://x/a")), ("type", .str (str "integer"))])])]

/-- The schema with the `$id` once more, under an unknown keyword. -/
def byTakenId : Value :=
  .object [("$ref", .str (str "http://x/a")), ("definitions", .object [("t",
    .object [("$id", .str (str "http://x/a")), ("type", .str (str "integer"))])]),
    ("zzz", .object [("$id", .str (str "http://x/a")), ("type", .str (str "string"))])]

/-- An `$id` in the member takes over the place of a `$ref`. -/
theorem unknownId_takesOver : ¬ Undisturbed .bare none byId byTakenId := by
  intro h
  have hrun := congrArg Prod.fst (h.verdict _ _ rfl rfl noOverrun (.int 1) true 3)
  exact absurd hrun (by decide)

end FastJsonSchema
