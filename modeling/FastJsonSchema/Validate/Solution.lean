import FastJsonSchema.Traversal.Solution
import FastJsonSchema.Validate.Termination
import FastJsonSchema.Validate.Types
import FastJsonSchema.Validate.Verdict

/-!
# What a schema with references means

A `$ref` means what its target means, so the meanings of the nodes of a tree are said by equations:
`meaningIn` is the meaning of a node over those of the other nodes. A cycle of references that
always leads into parts of the value does no harm. Where no cycle stays at one value, the equations
have exactly one solution (`existsUnique_interprets`), and it is the verdict of `is_valid`
(`isValid_interprets`).

A `type` that is a string but names no type is no type at all: with it go the keywords about the
elements of an array and the properties of an object.
-/

namespace FastJsonSchema

open Ruby Traversal Relation CompiledSchema

section Meaning

variable (rt : Runtime) (heap : Addr → Option CompiledSchema) (f : CompiledSchema → Value → Bool)
  (cs : CompiledSchema)

/-- The meaning of a schema on a heap, given those of other schemas. -/
def meaningIn (v : Value) : Bool :=
  match cs.validationFunction with
  | some .noOpValidate => true
  | some .validate =>
    (cs.typeValidationFunction == some .noOpValidate
        || typeHolds rt cs v && (cs.applicators.map f).parts rt cs v)
      && cs.constVal.all (fun c => Value.equal false c v)
      && cs.enumVal.all (fun e => Value.includes e v)
      && (cs.applicators.map f).conditional v && (cs.applicators.map f).combination v
  | some .validateRef => (cs.refSchema.bind heap).any (f · v)
  | _ => false

/-- The equations of the nodes of a tree. -/
def Interprets (root : CompiledSchema) : Prop :=
  ∀ c, root.Reach c → ∀ v, f c v = meaningIn rt root.deref f c v

end Meaning

/-! ## An equation reads what a call leads to -/

section Congr

theorem option_all_congr {α : Type} {o : Option α} {p q : α → Bool}
    (h : ∀ a, o = some a → p a = q a) : o.all p = o.all q := by
  cases o with
  | none => rfl
  | some a => exact h a rfl

theorem list_all_congr {α : Type} {l : List α} {p q : α → Bool} (h : ∀ a ∈ l, p a = q a) :
    l.all p = l.all q := by
  rw [Bool.eq_iff_iff, List.all_eq_true, List.all_eq_true]
  exact forall₂_congr fun a ha => by rw [h a ha]

theorem list_any_congr {α : Type} {l : List α} {p q : α → Bool} (h : ∀ a ∈ l, p a = q a) :
    l.any p = l.any q := by
  rw [Bool.eq_iff_iff, List.any_eq_true, List.any_eq_true]
  exact exists_congr fun a => and_congr_right fun ha => by rw [h a ha]

theorem countP_congr_of_mem {α : Type} {l : List α} {p q : α → Bool} (h : ∀ a ∈ l, p a = q a) :
    l.countP p = l.countP q :=
  List.countP_congr fun a ha => by rw [h a ha]

variable {rt : Runtime} {heap : Addr → Option CompiledSchema} {f g : CompiledSchema → Value → Bool}
  {cs : CompiledSchema} {v : Value}

/-- `f` and `g` agree on what a call about `v` leads to. -/
def AgreeBelow (heap : Addr → Option CompiledSchema) (f g : CompiledSchema → Value → Bool)
    (cs : CompiledSchema) (v : Value) : Prop :=
  ∀ c v', Next heap cs (.root v) (c, .root v') → f c v' = g c v'

namespace AgreeBelow

variable (h : AgreeBelow heap f g cs v)

include h

theorem same {c : CompiledSchema} (hc : SameInstance heap cs c) : f c v = g c v := h c v (.same hc)

theorem smaller {c : CompiledSchema} (hc : c ∈ cs.children) {v' : Value}
    (hv : v'.nesting < v.nesting) : f c v' = g c v' := h c v' (.smaller hc hv)

theorem conditional :
    (cs.applicators.map f).conditional v = (cs.applicators.map g).conditional v := by
  simp only [Applicators.conditional, Applicators.map, applicators]
  cases hi : cs.ifSchema with
  | none => rfl
  | some ifSchema =>
    simp only [Option.map_some]
    rw [h.same (.inr (.inr (.inr (.inr (.inr (.inl hi))))))]
    split_ifs
    · rw [Option.all_map, Option.all_map]
      exact option_all_congr fun c hc => h.same (by simp only [SameInstance, hc, true_or, or_true])
    · rw [Option.all_map, Option.all_map]
      exact option_all_congr fun c hc => h.same (by simp only [SameInstance, hc, or_true, true_or])

theorem combination :
    (cs.applicators.map f).combination v = (cs.applicators.map g).combination v := by
  have hall : ∀ l, cs.allOfVal = some l → ∀ c ∈ l, f c v = g c v := fun l hl c hc => h.same (by
    simp only [SameInstance, hl, members, Option.getD_some, hc, true_or, or_true])
  have hany : ∀ l, cs.anyOfVal = some l → ∀ c ∈ l, f c v = g c v := fun l hl c hc => h.same (by
    simp only [SameInstance, hl, members, Option.getD_some, hc, true_or, or_true])
  have hone : ∀ l, cs.oneOfVal = some l → ∀ c ∈ l, f c v = g c v := fun l hl c hc => h.same (by
    simp only [SameInstance, hl, members, Option.getD_some, hc, true_or, or_true])
  simp only [Applicators.combination, Applicators.map, applicators, Option.all_map, List.all_map,
    List.any_map, List.countP_map, Function.comp_def]
  refine congrArg₂ _ (congrArg₂ _ (congrArg₂ _ ?_ ?_) ?_) ?_
  · refine option_all_congr fun c hc => ?_
    rw [h.same (by simp only [SameInstance, hc, true_or, or_true])]
  · exact option_all_congr fun l hl => list_all_congr (hall l hl)
  · exact option_all_congr fun l hl => list_any_congr (hany l hl)
  · refine option_all_congr fun l hl => ?_
    rw [countP_congr_of_mem (hone l hl)]

theorem elements {xs : List Value} (hv : v = .arr xs) :
    (cs.applicators.map f).elements xs = (cs.applicators.map g).elements xs := by
  subst hv
  have hx : ∀ x ∈ xs, x.nesting < (Value.arr xs).nesting := fun x hx =>
    Nat.lt_succ_of_le (Value.nesting_le_list hx)
  simp only [Applicators.elements, Applicators.map, applicators]
  cases hi : cs.itemsSchema with
  | some items =>
    exact list_all_congr fun x hm => h.smaller (mem_children.2 (by
      simp only [hi, true_or, or_true])) (hx x hm)
  | none =>
    cases hl : cs.itemsVal with
    | none => rfl
    | some itemsVal =>
      simp only [Option.map_none, Option.map_some, List.length_map, List.zip_map_right,
        List.all_map, Option.all_map, Function.comp_def]
      congr 1
      · refine list_all_congr fun e he => ?_
        obtain ⟨hmem, hc⟩ := List.of_mem_zip he
        exact h.smaller (mem_children.2 (by
          simp only [hl, members, Option.getD_some, hc, true_or, or_true])) (hx _ hmem)
      · refine option_all_congr fun c hc => list_all_congr fun x hm => ?_
        exact h.smaller (mem_children.2 (by simp only [hc, true_or, or_true]))
          (hx x (List.mem_of_mem_drop hm))

theorem containing {xs : List Value} (hv : v = .arr xs) :
    (cs.applicators.map f).containing cs xs = (cs.applicators.map g).containing cs xs := by
  subst hv
  simp only [Applicators.containing, Applicators.map, applicators, Option.all_map]
  refine option_all_congr fun c hc => ?_
  have hcount : xs.countP (f c) = xs.countP (g c) := countP_congr_of_mem fun x hx =>
    h.smaller (mem_children.2 (by simp only [hc, true_or, or_true]))
      (Nat.lt_succ_of_le (Value.nesting_le_list hx))
  simp only [hcount]

theorem depending {kvs : List (Value × Value)} (hv : v = .hash kvs) :
    (cs.applicators.map f).depending kvs = (cs.applicators.map g).depending kvs := by
  subst hv
  simp only [Applicators.depending, Applicators.map, applicators]
  cases hd : cs.dependenciesVal with
  | none => rfl
  | some m =>
    simp only [Option.map_some, Option.getD_some, List.all_map, Function.comp_def]
    refine list_all_congr fun p hp => ?_
    rw [h.same (by simp only [SameInstance, hd, entries, List.mem_map_of_mem hp, or_true])]

theorem property {kvs : List (Value × Value)} (hv : v = .hash kvs) {kv : RString × Value}
    (hkv : kv ∈ Value.stringEntries kvs) :
    (cs.applicators.map f).property rt kv.1 kv.2
      = (cs.applicators.map g).property rt kv.1 kv.2 := by
  subst hv
  have hvalue : kv.2.nesting < (Value.hash kvs).nesting :=
    Nat.lt_succ_of_le (Value.nesting_le_entries (Value.mem_stringEntries.1 hkv))
  have hname : (Value.str kv.1).nesting < (Value.hash kvs).nesting :=
    (Nat.zero_le _).trans_lt hvalue
  have hentry : ∀ {m : Option (List (RString × CompiledSchema))} {k : RString} {c : CompiledSchema},
      schemaOf m k = some c → c ∈ entries m := fun hc => mem_entries_of_lookup hc
  rw [Applicators.property, Applicators.property, properties_lookup, properties_lookup, matching_eq,
    matching_eq, Option.isSome_map, Option.isSome_map, List.isEmpty_map, List.isEmpty_map]
  simp only [Applicators.map, applicators, Option.all_map, List.all_map, Function.comp_def]
  rw [option_all_congr fun c hc => h.smaller (mem_children.2 (by
      simp only [hc, true_or, or_true])) hname,
    option_all_congr fun c hc => h.smaller (mem_children.2 (by
      simp only [hentry hc, true_or, or_true])) hvalue,
    list_all_congr fun p hp => h.smaller (mem_children.2 (by
      simp only [mem_entries_of_mem (List.mem_of_mem_filter hp), true_or, or_true])) hvalue,
    option_all_congr (o := cs.additionalPropertiesSchema) fun c hc => h.smaller (mem_children.2 (by
      simp only [hc, true_or, or_true])) hvalue]

theorem parts : (cs.applicators.map f).parts rt cs v = (cs.applicators.map g).parts rt cs v := by
  cases hv : v with
  | arr xs => rw [Applicators.parts, Applicators.parts, h.elements hv, h.containing hv]
  | hash kvs =>
    rw [Applicators.parts, Applicators.parts, h.depending hv]
    congr 1
    exact list_all_congr fun kv hkv => h.property hv hkv
  | _ => rfl

/-- **An equation reads what a call leads to**, and nothing else. -/
theorem meaningIn_eq : meaningIn rt heap f cs v = meaningIn rt heap g cs v := by
  rw [meaningIn, meaningIn, h.parts, h.conditional, h.combination]
  cases hr : cs.refSchema.bind heap with
  | none => rfl
  | some c => simp only [Option.any_some, h.same (.inl hr)]

end AgreeBelow

end Congr

/-! ## The equations have one solution -/

section Solution

variable {rt : Runtime} {root cs : CompiledSchema} {f g : CompiledSchema → Value → Bool}

variable (hroot : ∀ c, root.Reach c → ¬ TransGen (SameInstance root.deref) c c)

include hroot

/-- What the calls of a tree lead to is well-founded: by induction on the nesting of the value, and
for one value on the edges to schemas about the same instance. -/
theorem wellFounded_next : WellFounded fun b a : {c : Call // root.Reach c.1} =>
    Next root.deref a.1.1 a.1.2 b.1 := by
  set R : {c : Call // root.Reach c.1} → {c : Call // root.Reach c.1} → Prop :=
    fun b a => Next root.deref a.1.1 a.1.2 b.1
  have hacc : ∀ n : ℕ, ∀ c : {c // root.Reach c}, ∀ d : Datum, d.value.nesting = n →
      Acc R ⟨(c.1, d), c.2⟩ := by
    intro n
    induction n using Nat.strong_induction_on with
    | _ n ihn =>
      intro c
      induction c using (wellFounded_sameInstance hroot).induction with
      | _ c ihc =>
        intro d hd
        refine ⟨_, fun b hb => ?_⟩
        obtain ⟨⟨b, d'⟩, hreach⟩ := b
        cases hb with
        | same hsame => exact ihc ⟨b, hreach⟩ hsame d hd
        | smaller _ hlt => exact ihn _ (hd ▸ hlt) ⟨b, hreach⟩ d' rfl
  exact ⟨fun a => hacc _ ⟨a.1.1, a.2⟩ a.1.2 rfl⟩

/-- **The meanings of the nodes are determined.** When no cycle consists of edges to schemas about
the same instance only, there is a family of meanings that satisfies the equation of each node, and
any two agree on every node. -/
theorem existsUnique_interprets : (∃ f, Interprets rt f root) ∧
    ∀ f g, Interprets rt f root → Interprets rt g root →
      ∀ c, root.Reach c → ∀ v, f c v = g c v := by
  let callOf (a : {a : CompiledSchema × Value // root.Reach a.1}) : {c : Call // root.Reach c.1} :=
    ⟨(a.1.1, .root a.1.2), a.2⟩
  have hwf : WellFounded fun b a : {a : CompiledSchema × Value // root.Reach a.1} =>
      Next root.deref a.1.1 (.root a.1.2) (b.1.1, .root b.1.2) :=
    InvImage.wf callOf (wellFounded_next hroot)
  obtain ⟨⟨f, hf⟩, hunique⟩ := exists_solution_on (P := fun a => root.Reach a.1)
    (r := fun b a => Next root.deref a.1 (.root a.2) (b.1, .root b.2)) hwf
    (F := fun h a => meaningIn rt root.deref (fun c v => h (c, v)) a.1 a.2)
    fun _ _ _ hreach h => AgreeBelow.meaningIn_eq fun c v hn =>
      h (c, v) (hn.linked.reach hreach) hn
  refine ⟨⟨fun c v => f (c, v), fun c hc v => hf (c, v) hc⟩, fun g g' hg hg' c hc v => ?_⟩
  exact hunique (fun a => g a.1 a.2) (fun a => g' a.1 a.2) (fun a ha => hg a.1 ha a.2)
    (fun a ha => hg' a.1 ha a.2) (c, v) hc

end Solution

/-! ## The verdict is the solution -/

section Verdict

variable {rt : Runtime} {heap : Addr → Option CompiledSchema} {overrun : Overrun}
  {f : CompiledSchema → Value → Bool} {cs : CompiledSchema} {d : Datum}

/-- The checks after that of the type. -/
theorem restOf_decides {callee : Bool → Call → Judgement Site RubyError}
    (h : ∀ c, Knows callee f c) : (restOf cs d).Decides callee
      (cs.constVal.all (fun c => Value.equal false c d.value)
        && cs.enumVal.all (fun e => Value.includes e d.value)
        && (cs.applicators.map f).conditional d.value
        && (cs.applicators.map f).combination d.value) := by
  have hmeaning : (cs.constVal.all (fun c => Value.equal false c d.value)
      && cs.enumVal.all (fun e => Value.includes e d.value)
      && (cs.applicators.map f).conditional d.value
      && (cs.applicators.map f).combination d.value) =
        (cs.constVal.all (fun c => Value.equal false c d.value) &&
          (cs.enumVal.all (fun e => Value.includes e d.value) &&
            ((cs.applicators.map f).conditional d.value &&
              (cs.notSchema.all (fun c => !f c d.value) &&
                (cs.allOfVal.all (·.all (f · d.value)) &&
                  (cs.anyOfVal.all (·.any (f · d.value)) &&
                    (cs.oneOfVal.all (·.countP (f · d.value) == 1) && true))))))) := by
    rw [Applicators.combination]
    simp only [Applicators.map, applicators, Option.all_map, List.all_map, List.any_map,
      List.countP_map, Function.comp_def, Bool.and_true, Bool.and_assoc]
  rw [hmeaning]
  refine .seq ?_ fun _ => .seq ?_ fun _ => .seq (conditional_decides fun c _ => h c) fun _ =>
    .seq ?_ fun _ => .seq ?_ fun _ => .seq ?_ fun _ => .seq ?_ fun _ => .skip
  · exact ifSet_decides fun constVal _ => .failWhen (Bool.not_not _).symm
  · exact ifSet_decides fun enumVal _ => .failWhen (Bool.not_not _).symm
  · exact ifSet_decides fun notSchema _ => validateNot_decides (h notSchema)
  · exact ifSet_decides fun allOf _ => validateAllOf_decides fun c _ => h c
  · exact ifSet_decides fun anyOf _ => validateAnyOf_decides fun c _ => h c
  · exact ifSet_decides fun oneOf _ => validateOneOf_decides fun c _ => h c

/-- A body decides its equation when every schema decides its meaning. -/
theorem body_decides_meaningIn {callee : Bool → Call → Judgement Site RubyError}
    (h : ∀ c, Knows callee f c) :
    (body rt heap (cs, d)).Decides callee (meaningIn rt heap f cs d.value) := by
  rw [body, meaningIn]
  cases hv : cs.validationFunction with
  | none => exact .crash
  | some fn =>
    cases fn with
    | noOpValidate => exact .skip
    | falseValidate => exact .fail
    | validateRef =>
      dsimp only
      rw [validateRef]
      cases cs.refSchema.bind heap with
      | none => exact .crash
      | some ref => exact h ref d
    | validate =>
      dsimp only
      rw [Bool.and_assoc, Bool.and_assoc, Bool.and_assoc, ← Bool.and_assoc (cs.constVal.all _),
        ← Bool.and_assoc (cs.constVal.all _ && _)]
      refine Prog.Decides.seq ?_ fun _ => restOf_decides h
      by_cases hnoOp : cs.typeValidationFunction = some .noOpValidate
      · rw [validateType, hnoOp]
        exact .skip
      · rw [beq_eq_false_iff_ne.2 hnoOp, Bool.false_or]
        exact validateType_decides hnoOp fun c _ => h c

/-- A body decides its equation when its calls decide their meanings. -/
theorem body_decides_of_calls {callee : Bool → Call → Judgement Site RubyError}
    (h : ∀ c ∈ (body rt heap (cs, d)).calls, (callee true c).Decides (f c.1 c.2.value)) :
    (body rt heap (cs, d)).Decides callee (meaningIn rt heap f cs d.value) := by
  classical
  -- the other calls may crash, since none is made
  let callee' : Bool → Call → Judgement Site RubyError := fun q c =>
    if c ∈ (body rt heap (cs, d)).calls then callee q c else .ended .crashed
  have hknows : ∀ c, Knows callee' f c := by
    intro c d'
    by_cases hc : (c, d') ∈ (body rt heap (cs, d)).calls
    · rw [show callee' true (c, d') = callee true (c, d') from if_pos hc]
      exact h _ hc
    · rw [show callee' true (c, d') = .ended .crashed from if_neg hc]
      exact ⟨nofun, nofun, nofun⟩
  have hcongr : (body rt heap (cs, d)).judge callee true
      = (body rt heap (cs, d)).judge callee' true :=
    Prog.judge_congr true _ fun c hc q => (if_pos hc).symm
  rw [Prog.Decides, hcongr]
  exact body_decides_meaningIn hknows

/-- **The verdict is the solution of the equations.** When no cycle consists of edges to schemas
about the same instance only, `is_valid` ends for every node of a tree, from a context within
`context->path` and as long as the run stays within it; unless a check of a single value raises an
exception or traps, it returns the meaning that any solution of the equations gives the node. -/
theorem isValid_interprets {root : CompiledSchema} {context : Context Token}
    (hroot : ∀ c, root.Reach c → ¬ TransGen (SameInstance root.deref) c c)
    (hf : Interprets rt f root) (hcs : root.Reach cs)
    (hw : (machine rt root.deref overrun).Within (context.depth + 1) (start context))
    (hs : ∀ n, (machine rt root.deref overrun).Safe
      ((machine rt root.deref overrun).run n (cs, d) ((start context).mode true)).2) :
    ∃ r, IsValid rt root.deref overrun (cs, d) context r ∧
      ((∃ x, r.1 = .raised x) ∨ r.1 = .crashed ∨ r.verdict = some (f cs d.value)) := by
  have hbody : ∀ c : Call, root.Reach c.1 → ∀ callee : Bool → Call → Judgement Site RubyError,
      (∀ c' ∈ (body rt root.deref c).calls, (callee true c').Decides (f c'.1 c'.2.value)) →
        (body rt root.deref c).Decides callee (f c.1 c.2.value) := by
    intro c hc callee hcalls
    rw [hf c.1 hc c.2.value]
    exact body_decides_of_calls hcalls
  obtain ⟨n, hn⟩ := Machine.exists_judge_decides (M := machine rt root.deref overrun)
    (f := fun c : Call => f c.1 c.2.value) (P := fun c : Call => root.Reach c.1)
    (fun c hc c' hc' => (body_calls rt root.deref c c' hc').linked.reach hc) hbody
    (acc_body hroot rt _ ⟨cs, hcs⟩ d rfl) hcs
  have hw' : (machine rt root.deref overrun).Within (((start context).mode true).depth + 1)
      ((start context).mode true) := ⟨hw.safe, hw.nonneg, hw.lt, hw.filled⟩
  obtain ⟨hne, hr⟩ := Machine.run_decides hw' rfl hn (hs n)
  exact ⟨_, ⟨n, rfl, hne⟩, hr⟩

end Verdict

end FastJsonSchema
