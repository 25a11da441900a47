import FastJsonSchema.Compile.Registry
import FastJsonSchema.Validate.Calls
import FastJsonSchema.Validate.Context

/-!
# Compiled schemas are initialised

`create_compiled_schema` leaves the function pointers of a struct unset. In a schema that
`compile_schema` returns, every node that edges lead to has those its evaluation calls, and the
target of its `$ref` (`compileSchema_initialised`). So a run of the evaluator does not depend on
what a call of an unset pointer would do.
-/

namespace FastJsonSchema

open Ruby Traversal Relation CompiledSchema

/-- What the evaluation of the node `c` of the tree of `root` calls is set. -/
structure Initialised (root c : CompiledSchema) : Prop where
  validationFunction : c.validationFunction ≠ none
  typeValidationFunction :
    c.validationFunction = some .validate → c.typeValidationFunction ≠ none
  formatValidationFunction :
    c.validationFunction = some .validate → c.formatValidationFunction ≠ none
  refSchema : c.validationFunction = some .validateRef →
    ∃ a t, c.refSchema = some a ∧ root.deref a = some t ∧ root.Reach t

/-! ## Addresses lead to nodes -/

namespace CompiledSchema

/-- The addresses of the children of a node are longer than its own. -/
def Lengthens (cs : CompiledSchema) : Prop :=
  ∀ c, cs.Reach c → ∀ c' ∈ c.children, c.addr.length < c'.addr.length

variable {cs c : CompiledSchema} {n : ℕ}

theorem Lengthens.child {c' : CompiledSchema} (h : cs.Lengthens) (hc : c' ∈ cs.children) :
    c'.Lengthens :=
  fun d hd => h d (reach_iff.2 (.inr ⟨c', hc, hd⟩))

/-- A node is found within as many levels as its address is longer than that of the root. -/
theorem Lengthens.mem_nodes (h : cs.Lengthens) (hc : cs.Reach c)
    (hn : c.addr.length < cs.addr.length + n) : c ∈ cs.nodes n := by
  induction n generalizing cs with
  | zero =>
    have hle : cs.addr.length ≤ c.addr.length := by
      induction hc with
      | root => exact le_rfl
      | @child d d' hd hd' ih =>
        have hlt := h d hd d' hd'
        exact (ih (by omega)).trans hlt.le
    omega
  | succ n ih =>
    rw [nodes, List.mem_cons, List.mem_flatMap]
    rcases reach_iff.1 hc with rfl | ⟨d, hd, hr⟩
    · exact .inl rfl
    · have hlt := h cs .root d hd
      exact .inr ⟨d, hd, ih (h.child hd) hr (by omega)⟩

/-- The address of a node leads to a node. -/
theorem Lengthens.deref (h : cs.Lengthens) (hc : cs.Reach c) : ∃ t, cs.deref c.addr = some t := by
  have hmem : c ∈ cs.nodes (c.addr.length + 1) := h.mem_nodes hc (by omega)
  rw [← Option.isSome_iff_exists, CompiledSchema.deref, List.find?_isSome]
  exact ⟨c, hmem, by simp⟩

end CompiledSchema

namespace Position

variable {rt : Runtime} {p : Position} {T : Position → CompiledSchema → Prop} {c : CompiledSchema}
  {n : ℕ}

theorem Built.lengthens (h : p.Built rt T n c) : c.Lengthens := by
  intro d hd d' hd'
  obtain ⟨m, q, -, hq⟩ := h.of_reach hd
  cases m with
  | zero => exact hq.elim
  | succ m =>
    obtain ⟨q', hq', hb⟩ :=
      exists_right_of_forall₂ (List.Forall₂.flip (R := flip _) hq.2.children) hd'
    obtain ⟨s, v, -, rfl⟩ := mem_children.1 hq'
    have hpos := List.length_pos_iff.2 s.tokens_ne_nil
    rw [hq.matches.addr, (Built.matches hb).addr, below_addr, List.length_append]
    omega

/-- What compilation sets of the function pointers. -/
theorem own_pointers {cs : CompiledSchema} (h : p.own rt = .ok cs) :
    cs.validationFunction ≠ none ∧
      (cs.validationFunction = some .validate →
        cs.typeValidationFunction ≠ none ∧ cs.formatValidationFunction ≠ none) ∧
      (cs.validationFunction = some .validateRef → cs.refVal ≠ none) := by
  unfold own at h
  split at h
  · obtain rfl := Except.ok.inj h
    simp
  · obtain ⟨format, -, h⟩ := bind_eq_ok.1 h
    obtain ⟨type, -, h⟩ := bind_eq_ok.1 h
    obtain rfl := Except.ok.inj h
    refine ⟨by simp [ownFields, CompiledSchema.own], fun _ => by simp [ownFields,
      CompiledSchema.own], fun hv => ?_⟩
    simp only [ownFields, CompiledSchema.own] at hv ⊢
    split_ifs at hv with hr
    · exact Option.isSome_iff_ne_none.1 hr
    · simp at hv
  · obtain rfl := Except.ok.inj h
    simp

end Position

section Documents

variable {rt : Runtime} {customFormats : Option (List (RString × ℕ))} {doc : Value}
  {root : CompiledSchema}

/-- A `$ref` that is resolved has the address of a position as its target. -/
theorem target_position {p : Position} {o : Option Addr} (href : p.refVal ≠ none)
    (h : p.target rt (keysOf rt customFormats doc).reverse = .ok o) :
    ∃ q ∈ positionsOf rt customFormats doc, o = some q.addr := by
  obtain ⟨ref, href⟩ := Option.ne_none_iff_exists'.1 href
  have htarget : refTarget (keysOf rt customFormats doc).reverse (some ref)
      (p.resolved rt).1.resolvedRefVal = .ok o := by
    rw [← href, Position.refVal, ← @Position.resolved_refVal rt]
    exact h
  cases o with
  | none =>
    unfold refTarget at htarget
    dsimp only at htarget
    split at htarget <;> simp at htarget
  | some a =>
    obtain ⟨k, hk⟩ : ∃ k, (keysOf rt customFormats doc).reverse.lookup k = some a := by
      rcases refTarget_eq_ok.1 htarget with h | ⟨-, -, h⟩
      · exact ⟨_, h⟩
      · exact ⟨_, h⟩
    obtain ⟨q, hq, rfl⟩ := entry_iff.1 hk
    exact ⟨q, hq.mem, rfl⟩

/-- Every node of a compiled document is initialised. -/
theorem initialised_of_reach (h : compileSchema rt customFormats doc = .ok root)
    {c : CompiledSchema} (hc : root.Reach c) : Initialised root c := by
  have hroot := compileSchema_built h
  obtain ⟨m, p, -, hb⟩ := hroot.of_reach hc
  obtain ⟨hfunction, hvalidate, href⟩ := Position.own_pointers (Position.Built.own hb)
  refine ⟨hfunction, fun hv => (hvalidate hv).1, fun hv => (hvalidate hv).2, fun hv => ?_⟩
  have hrefVal : p.refVal ≠ none := by
    rw [Position.refVal, ← @Position.resolved_refVal rt,
      ← (Position.Built.matches hb).refVal]
    exact href hv
  obtain ⟨q, hq, hrefSchema⟩ := target_position hrefVal (Position.Built.prop hb)
  -- the target is the address of a position, hence of a node
  obtain ⟨_, c', hc', hq'⟩ := hroot.of_mem hq
  obtain ⟨t, ht⟩ := (Position.Built.lengthens hroot).deref hc'
  rw [(Position.Built.matches hq').addr] at ht
  exact ⟨q.addr, t, hrefSchema, ht, (reach_of_deref ht).1⟩

/-- **Every node that a compiled schema leads to is initialised**: its `validation_function` is
set; where it is `validate`, so are the functions of the type and of the format; where it is
`validate_ref`, the target is a node of the same tree. Hence what a machine does on calls of other
nodes, such as those with an unset pointer, is of no account for its runs. -/
theorem compileSchema_initialised (overrun : Overrun)
    (h : compileSchema rt customFormats doc = .ok root) :
    (∀ c, ReflTransGen (Linked root.deref) root c → Initialised root c) ∧
      ∀ M : Machine Call Token Site RubyError, M.max = maxContextDepth → M.overrun = overrun →
        (∀ c d, Initialised root c → M.body (c, d) = body rt root.deref (c, d)) →
          ∀ n v s, M.run n (root, .root v) s
            = (machine rt root.deref overrun).run n (root, .root v) s := by
  have hreach : ∀ c, ReflTransGen (Linked root.deref) root c → root.Reach c := by
    intro c hc
    induction hc with
    | refl => exact .root
    | tail _ hlink ih => exact hlink.reach ih
  refine ⟨fun c hc => initialised_of_reach h (hreach c hc), fun M hmax hover hbody n v s => ?_⟩
  refine Machine.run_congr (M := machine rt root.deref overrun) (P := fun c => root.Reach c.1)
    hmax hover (fun c hc => ?_) (fun c hc => ?_) n _ .root s
  · exact (body_calls rt root.deref c).mono fun c' hnext => hnext.linked.reach hc
  · exact hbody c.1 c.2 (initialised_of_reach h hc)

theorem compileSchema_initialised_itemsOfRoot :
    (∀ c, ReflTransGen (Linked itemsOfRootSchema.deref) itemsOfRootSchema c →
      Initialised itemsOfRootSchema c) ∧
      ∀ M : Machine Call Token Site RubyError, M.max = maxContextDepth → M.overrun = noOverrun →
        (∀ c d, Initialised itemsOfRootSchema c →
          M.body (c, d) = body .bare itemsOfRootSchema.deref (c, d)) →
            ∀ n v s, M.run n (itemsOfRootSchema, .root v) s
              = (machine .bare itemsOfRootSchema.deref noOverrun).run n
                (itemsOfRootSchema, .root v) s :=
  @compileSchema_initialised .bare none itemsOfRoot itemsOfRootSchema noOverrun rfl

end Documents

end FastJsonSchema
