import FastJsonSchema.Validate.DataPath
import FastJsonSchema.Validate.Reporting

/-!
# What `validate` yields

The errors of the nodes satisfy one equation each, over the verdicts of `existsUnique_interprets`.
Where no cycle of references stays at one instance they have one solution, and a run of `validate`
that ends yields it. The equations of the positions of the document are the same
(`positionErrors_eq`), so the errors of `validate` are those of the document
(`compileSchema_yields`).
-/

namespace FastJsonSchema

open Ruby Value Traversal Relation CompiledSchema

/-! ## Nodes -/

section Nodes

variable {rt : Runtime} {root cs : CompiledSchema} {f : CompiledSchema → Value → Bool}
  {E E' : CompiledSchema → Datum → List Site} {d : Datum}

/-- The equations of the errors of the nodes of a tree. -/
def ReportsIn (rt : Runtime) (f : CompiledSchema → Value → Bool)
    (E : CompiledSchema → Datum → List Site) (root : CompiledSchema) : Prop :=
  ∀ c, root.Reach c → ∀ d, E c d = errorsOf f E (body rt root.deref (c, d))

/-- The failures of a body depend on what a call leads to. -/
theorem errorsOf_body_congr {heap : Addr → Option CompiledSchema}
    (h : ∀ c d', Next heap cs d (c, d') → E c d' = E' c d') :
    errorsOf f E (body rt heap (cs, d)) = errorsOf f E' (body rt heap (cs, d)) :=
  Prog.failures_congr _ fun c hc => ⟨rfl, h c.1 c.2 (body_calls rt heap (cs, d) c hc)⟩

variable (hroot : ∀ c, root.Reach c → ¬ TransGen (SameInstance root.deref) c c)

include hroot

/-- **The errors of the nodes are determined** by the verdicts. -/
theorem existsUnique_reportsIn (rt : Runtime) (f : CompiledSchema → Value → Bool) :
    (∃ E, ReportsIn rt f E root) ∧ ∀ E E', ReportsIn rt f E root → ReportsIn rt f E' root →
      ∀ c, root.Reach c → ∀ d, E c d = E' c d := by
  obtain ⟨⟨E, hE⟩, hunique⟩ := exists_solution_on (P := fun c : Call => root.Reach c.1)
    (r := fun b a => Next root.deref a.1 a.2 b) (wellFounded_next hroot)
    (F := fun E a => errorsOf f (fun c d => E (c, d)) (body rt root.deref a))
    fun _ _ _ hreach h => errorsOf_body_congr fun c d hn => h (c, d) (hn.linked.reach hreach) hn
  refine ⟨⟨fun c d => E (c, d), fun c hc d => hE (c, d) hc⟩, fun E E' hE hE' c hc d => ?_⟩
  exact hunique (fun a => E a.1 a.2) (fun a => E' a.1 a.2) (fun a ha => hE a.1 ha a.2)
    (fun a ha => hE' a.1 ha a.2) (c, d) hc

/-- **The errors of `validate` are the solution**: all of them in their order when it returns, the
first of them when an exception or a trap cuts it short. -/
theorem validates_reportsIn {overrun : Overrun} {v : Value} {r : Result Token Site RubyError}
    (hf : Interprets rt f root) (hE : ReportsIn rt f E root) (hcs : root.Reach cs)
    (hr : Validates rt root.deref overrun cs v r) (hs : (machine rt root.deref overrun).Safe r.2) :
    r.2.errors.map (·.1) <+: E cs (.root v) ∧
      (r.1 = .done → r.2.errors.map (·.1) = E cs (.root v)) := by
  have hbody : ∀ c : Call, root.Reach c.1 → ∀ callee : Bool → Call → Judgement Site RubyError,
      (∀ c' ∈ (body rt root.deref c).calls, (callee true c').Decides (f c'.1 c'.2.value)) →
        (body rt root.deref c).Decides callee (f c.1 c.2.value) := by
    intro c hc callee hcalls
    rw [hf c.1 hc c.2.value]
    exact body_decides_of_calls hcalls
  obtain ⟨m, hm⟩ := Machine.exists_judge_lists (M := machine rt root.deref overrun)
    (f := fun c : Call => f c.1 c.2.value) (E := fun c : Call => E c.1 c.2)
    (P := fun c : Call => root.Reach c.1)
    (fun c hc c' hc' => (body_calls rt root.deref c c' hc').linked.reach hc) hbody
    (fun c hc => hE c.1 hc c.2) (acc_body hroot rt _ ⟨cs, hcs⟩ (.root v) rfl) hcs
  obtain ⟨n, rfl, hends⟩ := hr
  have hplaced : Machine.Placed (.str rootPathStr) [] 0 (start createContext) :=
    ⟨rfl, [.str rootPathStr], rfl, List.Sublist.refl _⟩
  obtain ⟨new, hnew, hinitial, hdone⟩ := Machine.run_lists (c := (cs, .root v))
    (machine_lays rt root.deref overrun v) (stands_root v false) hplaced
    (within_createContext false) rfl hm hends hs
  have herrors : (start createContext).errors ++ new = new := List.nil_append new
  rw [hnew, herrors]
  exact ⟨hinitial, hdone⟩

end Nodes

/-! ## Documents -/

section Documents

variable {rt : Runtime} {customFormats : Option (List (RString × ℕ))} {doc : Value}
  {root : CompiledSchema} {F : Position → Value → Bool} {f : CompiledSchema → Value → Bool}
  {G : Position → Datum → List Site} {E : CompiledSchema → Datum → List Site}

/-- What the nodes at the addresses of the positions report, given what the nodes report. -/
def errorsOfNodes (root : CompiledSchema) (E : CompiledSchema → Datum → List Site) (p : Position)
    (d : Datum) : List Site := (root.deref p.addr).elim [] (E · d)

variable (rt customFormats doc) in
/-- What the positions with the addresses of the nodes report. -/
def errorsOfPositions (G : Position → Datum → List Site) (c : CompiledSchema) (d : Datum) :
    List Site := ((positionsOf rt customFormats doc).find? (·.addr == c.addr)).elim [] (G · d)

variable (hd : Distinct doc) (hc : compileSchema rt customFormats doc = .ok root)

include hd hc

theorem errorsOfNodes_eq {n : ℕ} {p : Position} {c : CompiledSchema}
    (hp : p ∈ positionsOf rt customFormats doc) (hb : NodeOf rt customFormats doc n p c) :
    errorsOfNodes root E p = E c := by
  funext d
  rw [errorsOfNodes, deref_addr hd hc hp hb, Option.elim_some]

omit hc in
theorem errorsOfPositions_eq {n : ℕ} {p : Position} {c : CompiledSchema}
    (hp : p ∈ positionsOf rt customFormats doc) (hb : NodeOf rt customFormats doc n p c) :
    errorsOfPositions rt customFormats doc G c = G p := by
  funext d
  rw [errorsOfPositions, find_addr hd hp hb, Option.elim_some]

/-- **The equation of a position is that of its node**, when the positions have the verdicts and the
errors of their nodes. -/
theorem positionErrors_eq
    (hF : ∀ n q c, q ∈ positionsOf rt customFormats doc → root.Reach c →
      NodeOf rt customFormats doc n q c → F q = f c)
    (hG : ∀ n q c, q ∈ positionsOf rt customFormats doc → root.Reach c →
      NodeOf rt customFormats doc n q c → G q = E c)
    {n : ℕ} {p : Position} {c : CompiledSchema} (hp : p ∈ positionsOf rt customFormats doc)
    (hreach : root.Reach c) (hb : NodeOf rt customFormats doc n p c) (d : Datum) :
    positionErrors rt customFormats doc F G p d = errorsOf f E (body rt root.deref (c, d)) := by
  rw [positionErrors, Position.Built.errors_eq hb hp]
  by_cases href : p.refVal.isSome
  · rw [if_pos href, if_pos href]
    rcases target_node hd hc hreach hb with ⟨hq, ht⟩ | ⟨m, q, t, hq, ht, hmem, hreach', hb'⟩
    · rw [hq, ht]
      rfl
    · rw [hq, ht, Option.elim_some, Option.elim_some, hG m q t hmem hreach' hb']
  · rw [if_neg href, if_neg href]
    cases n with
    | zero => exact hb.elim
    | succ n =>
      rw [hb.2.map_eq fun q hq c' hc' hb' => ?_]
      obtain ⟨s, w, hs, rfl⟩ := Position.mem_children.1 hq
      have hq := positionsOf_child hp hs
      rw [findingsOf, hF n _ c' hq (hreach.child hc') hb', hG n _ c' hq (hreach.child hc') hb',
        (Position.Built.matches hb').path]

/-- **The errors of `validate` are those of the document.** When a document compiles and no cycle of
its references stays at one instance, the equations of the verdicts and of the errors of its
positions have one solution; and `validate` on what the document compiles to, as long as it stays
within `context->path`, yields the errors that the solution gives the document: all of them, in
their order, when it returns, and the first of them when an exception or a trap cuts it short. -/
theorem compileSchema_yields
    (hroot : ∀ c, root.Reach c → ¬ TransGen (SameInstance root.deref) c c) :
    ∃ F G, Solves rt customFormats doc F ∧ SolvesErrors rt customFormats doc F G ∧
      (∀ F' G', Solves rt customFormats doc F' → SolvesErrors rt customFormats doc F' G' →
        ∀ p ∈ positionsOf rt customFormats doc, G' p = G p) ∧
          ∀ overrun v r, Validates rt root.deref overrun root v r →
            (machine rt root.deref overrun).Safe r.2 →
              r.2.errors.map (·.1) <+: G (rootPosition doc customFormats) (.root v) ∧
                (r.1 = .done →
                  r.2.errors.map (·.1) = G (rootPosition doc customFormats) (.root v)) := by
  have hbuilt := compileSchema_built hc
  obtain ⟨f, hf⟩ := (@existsUnique_interprets rt root hroot).1
  obtain ⟨E, hE⟩ := (existsUnique_reportsIn hroot rt f).1
  have hnodes : ∀ n q c, q ∈ positionsOf rt customFormats doc → root.Reach c →
      NodeOf rt customFormats doc n q c → meaningOfNodes root f q = f c :=
    fun _ _ _ hq _ => meaningOfNodes_eq hd hc hq
  have herrors : ∀ n q c, q ∈ positionsOf rt customFormats doc → root.Reach c →
      NodeOf rt customFormats doc n q c → errorsOfNodes root E q = E c :=
    fun _ _ _ hq _ => errorsOfNodes_eq hd hc hq
  refine ⟨meaningOfNodes root f, errorsOfNodes root E, fun p hp v => ?_, fun p hp d => ?_,
    fun F' G' hF' hG' p hp => ?_, fun overrun v r hr hs => ?_⟩
  · obtain ⟨m, c, hreach, hb⟩ := hbuilt.of_mem hp
    rw [positionMeaning_eq hd hc hnodes hp hreach hb v, ← hf c hreach v,
      meaningOfNodes_eq hd hc hp hb]
  · obtain ⟨m, c, hreach, hb⟩ := hbuilt.of_mem hp
    rw [positionErrors_eq hd hc hnodes herrors hp hreach hb d, ← hE c hreach d,
      errorsOfNodes_eq hd hc hp hb]
  · -- the verdicts and the errors of the positions, read at the nodes, solve their equations
    have hverdicts : ∀ n q c, q ∈ positionsOf rt customFormats doc → root.Reach c →
        NodeOf rt customFormats doc n q c → F' q = f c := by
      intro n q c hq hreach hb
      funext v
      rw [← meaningOfPositions_eq (F := F') hd hq hb]
      refine (existsUnique_interprets hroot).2 _ f (fun c hreach v => ?_) hf c hreach v
      obtain ⟨m, q, hq, hb⟩ := hbuilt.of_reach hreach
      rw [meaningOfPositions_eq hd hq hb, hF' q hq v]
      exact positionMeaning_eq hd hc (fun _ _ _ hq _ hb => (meaningOfPositions_eq hd hq hb).symm)
        hq hreach hb v
    have hreports : ReportsIn rt f (errorsOfPositions rt customFormats doc G') root := by
      intro c hreach d
      obtain ⟨m, q, hq, hb⟩ := hbuilt.of_reach hreach
      rw [errorsOfPositions_eq hd hq hb, hG' q hq d]
      exact positionErrors_eq hd hc hverdicts
        (fun _ _ _ hq _ hb => (errorsOfPositions_eq hd hq hb).symm) hq hreach hb d
    obtain ⟨m, c, hreach, hb⟩ := hbuilt.of_mem hp
    rw [errorsOfNodes_eq hd hc hp hb, ← errorsOfPositions_eq (G := G') hd hp hb]
    funext d
    exact (existsUnique_reportsIn hroot rt f).2 _ E hreports hE c hreach d
  · rw [errorsOfNodes_eq hd hc positionsOf_root hbuilt]
    exact validates_reportsIn hroot hf hE .root hr hs

end Documents

theorem compileSchema_yields_noA : ∃ root F G r, compileSchema .bare none noA = .ok root ∧
    Solves .bare none noA F ∧ SolvesErrors .bare none noA F G ∧
      Validates .bare root.deref noOverrun root (.object [("a", .int 1)]) r ∧ r.1 = .done ∧
        r.2.errors.map (·.1)
          = G (rootPosition noA none) (.root (.object [("a", .int 1)])) := by
  obtain ⟨root, hc⟩ : ∃ root, compileSchema .bare none noA = .ok root := ⟨_, rfl⟩
  obtain ⟨r, hr, hdone, hsafe⟩ : ∃ r, Validates .bare root.deref noOverrun root
      (.object [("a", .int 1)]) r ∧ r.1 = .done ∧
        (machine .bare root.deref noOverrun).Safe r.2 := by
    obtain rfl := Except.ok.inj (hc.symm.trans rfl)
    exact ⟨_, ⟨3, rfl, by decide⟩, by decide, by decide⟩
  have hroot := acyclic_of_refFree hc (by decide)
  obtain ⟨F, G, hF, hG, -, hyields⟩ := compileSchema_yields (by decide) hc hroot
  exact ⟨root, F, G, r, hc, hF, hG, hr, hdone, (hyields noOverrun _ r hr hsafe).2 hdone⟩

end FastJsonSchema
