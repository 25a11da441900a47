import FastJsonSchema.Validate.Congruence

/-!
# The order of members in `valid?`

`valid?` does not depend on the order in which a document or an instance lists the members of its
objects. The nodes of a document and those of the document in another order are counterparts
(`Counterparts`), and counterparts mean the same of values that are `eql?` (`interprets_same`), as
long as their references lead to the same places. So instances that are `eql?` have one verdict
(`compileSchema_eql`), and so have documents that are `eql?` and in which no key that a `$ref` looks
up is written twice (`compileSchema_permuted`).
-/

namespace Ruby.Value

/-! ## JSON values -/

theorem everyKeysList_of_forall {P : List RString → Bool} {xs : List Value}
    (h : ∀ x ∈ xs, everyKeys P x = true) : everyKeysList P xs = true := by
  induction xs with
  | nil => rfl
  | cons x xs ih =>
    rw [everyKeysList, Bool.and_eq_true]
    exact ⟨h x List.mem_cons_self, ih fun y hy => h y (List.mem_cons_of_mem x hy)⟩

theorem everyKeysEntries_of_forall {P : List RString → Bool} {kvs : List (Value × Value)}
    (h : ∀ e ∈ kvs, everyKeys P e.2 = true) : everyKeysEntries P kvs = true := by
  induction kvs with
  | nil => rfl
  | cons e kvs ih =>
    rw [everyKeysEntries, Bool.and_eq_true]
    exact ⟨h e List.mem_cons_self, ih fun e' he' => h e' (List.mem_cons_of_mem e he')⟩

/-- The hashes of a JSON value have distinct keys. -/
theorem IsJson.distinct {v : Value} (h : IsJson v) : Distinct v := by
  induction h with
  | arr _ ih => exact everyKeysList_of_forall ih
  | hash _ hnodup _ ih =>
    rw [Distinct, everyKeys, Bool.and_eq_true]
    exact ⟨decide_eq_true hnodup, everyKeysEntries_of_forall ih⟩
  | _ => rfl

theorem IsJson.object {kvs : List (String × Value)}
    (hkeys : (kvs.map fun e => Ruby.str e.1).Nodup)
    (h : ∀ e ∈ kvs, IsJson e.2) : IsJson (.object kvs) := by
  have hk : keys (kvs.map fun kv => (.str (Ruby.str kv.1), kv.2))
      = kvs.map fun e => Ruby.str e.1 := by
    clear hkeys h
    induction kvs with
    | nil => rfl
    | cons e kvs ih => exact congrArg (Ruby.str e.1 :: ·) ih
  refine .hash ?_ (hk ▸ hkeys) ?_
  · intro e he
    obtain ⟨e', -, rfl⟩ := List.mem_map.1 he
    exact ⟨_, rfl⟩
  · intro e he
    obtain ⟨e', he', rfl⟩ := List.mem_map.1 he
    exact h e' he'

end Ruby.Value

namespace FastJsonSchema

open Ruby Value Traversal Relation CompiledSchema

/-! ## Nodes -/

section Nodes

variable {rt : Runtime} {customFormats : Option (List (RString × ℕ))} {doc doc' : Value}
  {root root' : CompiledSchema}

/-- The nodes of reordered positions of two documents. -/
def Counterparts (rt : Runtime) (customFormats : Option (List (RString × ℕ))) (doc doc' : Value) :
    CompiledSchema → CompiledSchema → Prop :=
  Applicators.Shuffled.Between (HasNode rt customFormats doc) Position.Reordered
    (HasNode rt customFormats doc')

/-- The references of reordered positions of two documents lead to the same places. -/
def SameTargets (rt : Runtime) (customFormats : Option (List (RString × ℕ))) (doc doc' : Value) :
    Prop :=
  ∀ p ∈ positionsOf rt customFormats doc, ∀ q ∈ positionsOf rt customFormats doc', p.Reordered q →
    p.target rt (keysOf rt customFormats doc).reverse
      = q.target rt (keysOf rt customFormats doc').reverse

theorem sameTargets_refl (hd : Distinct doc) : SameTargets rt customFormats doc doc := by
  intro p hp q hq hpq
  rw [positionsOf_injective hd hp hq hpq.addr]

theorem sameTargets_of_unambiguous (hu : Unambiguous rt customFormats doc) (h : Same doc doc') :
    SameTargets rt customFormats doc doc' :=
  fun _ hp _ _ hpq => target_reordered hu h hp hpq

theorem sameInstance_iff {heap : Addr → Option CompiledSchema} {c d : CompiledSchema} :
    SameInstance heap c d ↔ c.refSchema.bind heap = some d ∨ d ∈ c.applicators.inPlace := by
  have hmembers : ∀ o : Option (List CompiledSchema), members o = o.getD [] := by
    rintro (_ | l) <;> rfl
  have hentries : ∀ o : Option (List (RString × CompiledSchema)),
      entries o = (o.getD []).map (·.2) := by
    rintro (_ | l) <;> rfl
  simp only [SameInstance, Applicators.inPlace, CompiledSchema.applicators, List.mem_append,
    Option.mem_toList, hmembers, hentries]
  tauto

/-! ## Nodes of positions -/

section Compiled

variable (hd : Distinct doc) (hc : compileSchema rt customFormats doc = .ok root)

include hc

theorem HasNode.of_reach {c : CompiledSchema} (h : root.Reach c) :
    ∃ p, HasNode rt customFormats doc p c := by
  obtain ⟨n, p, hp, hb⟩ := (compileSchema_built hc).of_reach h
  exact ⟨p, hp, n, hb⟩

theorem hasNode_root : HasNode rt customFormats doc (rootPosition doc customFormats) root :=
  ⟨positionsOf_root, _, compileSchema_built hc⟩

include hd

theorem HasNode.deref {p : Position} {c : CompiledSchema} (h : HasNode rt customFormats doc p c) :
    root.deref p.addr = some c := by
  obtain ⟨hp, n, hb⟩ := h
  exact deref_addr hd hc hp hb

theorem HasNode.of_mem {p : Position} (hp : p ∈ positionsOf rt customFormats doc) :
    ∃ c, HasNode rt customFormats doc p c ∧ root.deref p.addr = some c := by
  obtain ⟨n, c, -, hb⟩ := (compileSchema_built hc).of_mem hp
  exact ⟨c, ⟨hp, n, hb⟩, deref_addr hd hc hp hb⟩

end Compiled

/-! ## Counterparts -/

section Compiled

variable (hdoc : Same doc doc') (ht : SameTargets rt customFormats doc doc')
  (hc : compileSchema rt customFormats doc = .ok root)
  (hc' : compileSchema rt customFormats doc' = .ok root')

include hc hc' in
theorem counterparts_root (hdoc : Same doc doc') :
    Counterparts rt customFormats doc doc' root root' :=
  ⟨rootPosition doc customFormats, rootPosition doc' customFormats, hasNode_root hc,
    ⟨rfl, rfl, rfl, hdoc⟩, hasNode_root hc'⟩

theorem Counterparts.applicators {c c' : CompiledSchema}
    (h : Counterparts rt customFormats doc doc' c c') :
    c.applicators.Shuffled (Counterparts rt customFormats doc doc')
      (Counterparts rt customFormats doc doc') c'.applicators := by
  obtain ⟨p, q, hp, hpq, hq⟩ := h
  exact hpq.applicators.conj hp.applicators hq.applicators

include hdoc ht hc hc'

/-- The targets of counterparts are counterparts. -/
theorem Counterparts.target {c c' : CompiledSchema}
    (h : Counterparts rt customFormats doc doc' c c') :
    Option.Rel (Counterparts rt customFormats doc doc') (c.refSchema.bind root.deref)
      (c'.refSchema.bind root'.deref) := by
  obtain ⟨p, q, hp, hpq, hq⟩ := h
  have hreach := (reach_of_deref (hp.deref hdoc.left.distinct hc)).1
  obtain ⟨hp, n, hb⟩ := hp
  obtain ⟨hq, m, hb'⟩ := hq
  have href : c.refSchema = c'.refSchema := by
    have htarget := ht p hp q hq hpq
    rw [Position.Built.prop hb, Position.Built.prop hb'] at htarget
    exact Except.ok.inj htarget
  rw [← href]
  cases ha : c.refSchema with
  | none => exact .none
  | some a =>
    obtain ⟨r, hr, rfl⟩ := position_of_target hc hreach ha
    obtain ⟨r', hr', hrr⟩ := positionsOf_reordered hdoc r hr
    obtain ⟨t, hnode, hderef⟩ := HasNode.of_mem hdoc.left.distinct hc hr
    obtain ⟨t', hnode', hderef'⟩ := HasNode.of_mem hdoc.right.distinct hc' hr'
    rw [Option.bind_some, Option.bind_some, hderef, hrr.addr, hderef']
    exact .some ⟨r, r', hnode, hrr, hnode'⟩

/-- Counterparts go to counterparts at the same instance. -/
theorem Counterparts.sameInstance {c c' d' : CompiledSchema}
    (h : Counterparts rt customFormats doc doc' c c') (hs : SameInstance root'.deref c' d') :
    ∃ d, SameInstance root.deref c d ∧ Counterparts rt customFormats doc doc' d d' := by
  rcases sameInstance_iff.1 hs with hs | hs
  · have htarget := h.target hdoc ht hc hc'
    rw [hs] at htarget
    generalize ho : c.refSchema.bind root.deref = o at htarget
    cases htarget with
    | some hd => exact ⟨_, .inl ho, hd⟩
  · obtain ⟨d, hd, hcd⟩ := h.applicators.exists_left hs
    exact ⟨d, sameInstance_iff.2 (.inr hd), hcd⟩

/-- A cycle at one instance is one in either order. -/
theorem acyclic_reordered (hroot : ∀ c, root.Reach c → ¬ TransGen (SameInstance root.deref) c c) :
    ∀ c, root'.Reach c → ¬ TransGen (SameInstance root'.deref) c c := by
  intro c' hreach hcycle
  have hlift : ∀ {d'}, TransGen (SameInstance root'.deref) c' d' → ∀ {c},
      Counterparts rt customFormats doc doc' c c' →
        ∃ d, TransGen (SameInstance root.deref) c d ∧
          Counterparts rt customFormats doc doc' d d' := by
    intro d' h c hcc
    induction h with
    | single h =>
      obtain ⟨d, hd, hdd⟩ := hcc.sameInstance hdoc ht hc hc' h
      exact ⟨d, .single hd, hdd⟩
    | tail _ h ih =>
      obtain ⟨d, hd, hdd⟩ := ih
      obtain ⟨e, he, hee⟩ := hdd.sameInstance hdoc ht hc hc' h
      exact ⟨e, hd.tail he, hee⟩
  obtain ⟨q, hq⟩ := HasNode.of_reach hc' hreach
  obtain ⟨p, hp, hqp⟩ := positionsOf_reordered hdoc.symm q hq.1
  obtain ⟨c, hnode, hderef⟩ := HasNode.of_mem hdoc.left.distinct hc hp
  obtain ⟨d, hcd, p', q', hd, hpq, hq'⟩ := hlift hcycle ⟨p, q, hnode, hqp.symm, hq⟩
  -- the node that the cycle ends at is the one that it starts at
  have haddr : q'.addr = q.addr := by
    obtain ⟨-, n, hb⟩ := hq
    obtain ⟨-, m, hb'⟩ := hq'
    rw [← (Position.Built.matches hb').addr, (Position.Built.matches hb).addr]
  obtain rfl : d = c := by
    have hdd := hd.deref hdoc.left.distinct hc
    rw [hpq.addr, haddr, hqp.addr, hderef] at hdd
    exact (Option.some.inj hdd).symm
  exact hroot d (reach_of_deref hderef).1 hcd

/-- **The order of members does not change the meaning of a node**, neither in the document nor in
the instance. -/
theorem interprets_same {f f' : CompiledSchema → Value → Bool}
    (hroot : ∀ c, root.Reach c → ¬ TransGen (SameInstance root.deref) c c)
    (hf : Interprets rt f root) (hf' : Interprets rt f' root') {c c' : CompiledSchema}
    (hcc : Counterparts rt customFormats doc doc' c c') {v v' : Value} (hv : Same v v') :
    f c v = f' c' v' := by
  have hreach : ∀ {c c'}, Counterparts rt customFormats doc doc' c c' →
      root.Reach c ∧ root'.Reach c' := by
    rintro c c' ⟨p, q, hp, -, hq⟩
    exact ⟨(reach_of_deref (hp.deref hdoc.left.distinct hc)).1,
      (reach_of_deref (hq.deref hdoc.right.distinct hc')).1⟩
  have hcalls : ∀ a : {c : Call // root.Reach c.1}, ∀ c' v',
      Counterparts rt customFormats doc doc' a.1.1 c' → Same a.1.2.value v' →
        f a.1.1 a.1.2.value = f' c' v' := by
    intro a
    induction a using (wellFounded_next hroot).induction with
    | _ a ih =>
      obtain ⟨⟨c, d⟩, hc₀⟩ := a
      intro c' v' hcc hv
      obtain ⟨p, q, ⟨hp, n, hb⟩, hpq, ⟨hq, m, hb'⟩⟩ := id hcc
      have hsame : ∀ x, SameInstance root.deref c x → ∀ y,
          Counterparts rt customFormats doc doc' x y → AgreeOn (· = d.value) (f x) (f' y) := by
        rintro x hx y hxy w w' hw rfl
        exact ih ⟨(x, d), (hreach hxy).1⟩ (.same hx) y w' hxy hw
      have hsmall : ∀ x ∈ c.children, ∀ y, Counterparts rt customFormats doc doc' x y →
          AgreeOn (·.nesting < d.value.nesting) (f x) (f' y) := fun x hx y hxy w w' hw hlt =>
        ih ⟨(x, .root w), (hreach hxy).1⟩ (.smaller hx hlt) y w' hxy hw
      have href : p.refVal = q.refVal := stringKeyword_same hpq.members _
      rw [hf c hc₀, hf' c' (hreach hcc).2, Position.Built.meaningIn_eq hb hp,
        Position.Built.meaningIn_eq hb' hq, href]
      split_ifs
      · have htarget := hcc.target hdoc ht hc hc'
        generalize ho : c.refSchema.bind root.deref = o, c'.refSchema.bind root'.deref = o'
          at htarget
        cases htarget with
        | none => rfl
        | some hxy => exact hsame _ (.inl ho) _ hxy _ _ hv rfl
      · refine schemaMeaning_same hpq.value (hcc.applicators.map ?_ ?_) hv
        · exact fun x hx => hsame x (sameInstance_iff.2 (.inr hx))
        · exact fun x hx => hsmall x (by rw [children_eq]; exact List.mem_append_left _ hx)
  exact hcalls ⟨(c, .root v), (hreach hcc).1⟩ c' v' hcc hv

end Compiled

end Nodes

/-! ## Runs -/

section Runs

variable {rt : Runtime} {customFormats : Option (List (RString × ℕ))} {doc doc' v v' : Value}
  {root root' : CompiledSchema} {f : CompiledSchema → Value → Bool} {overrun overrun' : Overrun}
  {r r' : Result Token Site RubyError} {b b' : Bool}

/-- What `valid?` returns is the meaning that any solution gives the node. -/
theorem verdict_interprets
    (hroot : ∀ c, root.Reach c → ¬ TransGen (SameInstance root.deref) c c)
    (hf : Interprets rt f root) (hr : Valids rt root.deref overrun root v r)
    (hs : ∀ n, (machine rt root.deref overrun).Safe ((machine rt root.deref overrun).run n
      (root, .root v) ((start createContext).mode true)).2)
    (hb : r.verdict = some b) : b = f root v := by
  obtain ⟨r₀, hr₀, hverdict⟩ := isValid_interprets (d := .root v) hroot hf .root
    (within_createContext false) hs
  rw [hr₀.unique hr] at hverdict
  rcases hverdict with ⟨x, hx⟩ | hx | h
  · rw [Result.verdict, hx] at hb
    cases hb
  · rw [Result.verdict, hx] at hb
    cases hb
  · exact Option.some.inj (hb.symm.trans h)

/-- **`valid?` does not depend on the order of the members of an instance.** When a JSON document
compiles and no cycle of its references stays at one instance, two runs of `valid?` that return, on
JSON instances that are `eql?` and within `context->path`, return the same. -/
theorem compileSchema_eql (hdoc : IsJson doc) (hc : compileSchema rt customFormats doc = .ok root)
    (hroot : ∀ c, root.Reach c → ¬ TransGen (SameInstance root.deref) c c) (hv : Same v v')
    (hr : Valids rt root.deref overrun root v r) (hr' : Valids rt root.deref overrun' root v' r')
    (hs : ∀ n, (machine rt root.deref overrun).Safe ((machine rt root.deref overrun).run n
      (root, .root v) ((start createContext).mode true)).2)
    (hs' : ∀ n, (machine rt root.deref overrun').Safe ((machine rt root.deref overrun').run n
      (root, .root v') ((start createContext).mode true)).2)
    (hb : r.verdict = some b) (hb' : r'.verdict = some b') : b = b' := by
  obtain ⟨f, hf⟩ := (@existsUnique_interprets rt root hroot).1
  rw [verdict_interprets hroot hf hr hs hb, verdict_interprets hroot hf hr' hs' hb']
  exact interprets_same (.refl hdoc) (sameTargets_refl hdoc.distinct) hc hc hroot hf hf
    (counterparts_root hc hc (.refl hdoc)) hv

theorem compileSchema_eql_noA : ∃ root r r' b b', compileSchema .bare none noA = .ok root ∧
    Valids .bare root.deref noOverrun root (.object [("a", .int 1), ("b", .nil)]) r ∧
      Valids .bare root.deref noOverrun root (.object [("b", .nil), ("a", .int 1)]) r' ∧
        r.verdict = some b ∧ r'.verdict = some b' ∧ b = b' := by
  obtain ⟨root, hc⟩ : ∃ root, compileSchema .bare none noA = .ok root := ⟨_, rfl⟩
  have hrun : ∀ v, v = .object [("a", .int 1), ("b", .nil)]
      ∨ v = .object [("b", .nil), ("a", .int 1)] →
        (∃ r b, Valids .bare root.deref noOverrun root v r ∧ r.verdict = some b) ∧
          ∀ n, (machine .bare root.deref noOverrun).Safe ((machine .bare root.deref
            noOverrun).run n (root, .root v) ((start createContext).mode true)).2 := by
    obtain rfl := Except.ok.inj (hc.symm.trans rfl)
    intro v hv
    refine ⟨?_, fun n => safe_evaluate_iff.2 ?_⟩
    · rcases hv with rfl | rfl
      · exact ⟨_, _, ⟨3, rfl, by decide⟩, rfl⟩
      · exact ⟨_, _, ⟨3, rfl, by decide⟩, rfl⟩
    · rcases le_or_gt 3 n with hn | hn
      · rw [Machine.judge_mono _ hn _ _ (by rcases hv with rfl | rfl <;> decide)]
        rcases hv with rfl | rfl <;> decide
      · obtain rfl | rfl | rfl : n = 0 ∨ n = 1 ∨ n = 2 := by omega
        all_goals rcases hv with rfl | rfl <;> decide
  have hab : IsJson (.object [("a", .int 1), ("b", .nil)]) :=
    .object (by decide) (by simp [IsJson.int, IsJson.nil])
  have hba : IsJson (.object [("b", .nil), ("a", .int 1)]) :=
    .object (by decide) (by simp [IsJson.int, IsJson.nil])
  have hmember : IsJson (.object [("a", .bool false)]) :=
    .object (by decide) (by simp [IsJson.bool])
  have hnoA : IsJson noA := .object (by decide) (by simpa using hmember)
  obtain ⟨⟨r, b, hr, hb⟩, hs⟩ := hrun _ (.inl rfl)
  obtain ⟨⟨r', b', hr', hb'⟩, hs'⟩ := hrun _ (.inr rfl)
  exact ⟨root, r, r', b, b', hc, hr, hr', hb, hb', compileSchema_eql hnoA hc
    (acyclic_of_refFree hc (by decide)) ⟨hab, hba, by decide⟩ hr hr' hs hs' hb hb'⟩

/-- **Nor on that of a document.** When a JSON document compiles, no key that a `$ref` of it looks
up is written by two positions, and no cycle of its references stays at one instance, then the
document in another order compiles as well, and two runs of `valid?` that return, one on each, on
JSON instances that are `eql?` and within `context->path`, return the same. -/
theorem compileSchema_permuted (hdoc : Same doc doc') (hu : Unambiguous rt customFormats doc)
    (hc : compileSchema rt customFormats doc = .ok root)
    (hroot : ∀ c, root.Reach c → ¬ TransGen (SameInstance root.deref) c c) :
    ∃ root', compileSchema rt customFormats doc' = .ok root' ∧
      ∀ v v' overrun overrun' r r' b b', Same v v' →
        Valids rt root.deref overrun root v r → Valids rt root'.deref overrun' root' v' r' →
          (∀ n, (machine rt root.deref overrun).Safe ((machine rt root.deref overrun).run n
            (root, .root v) ((start createContext).mode true)).2) →
          (∀ n, (machine rt root'.deref overrun').Safe ((machine rt root'.deref overrun').run n
            (root', .root v') ((start createContext).mode true)).2) →
              r.verdict = some b → r'.verdict = some b' → b = b' := by
  obtain ⟨root', hc'⟩ := (compileSchema_ok_reordered hu hdoc).1 ⟨root, hc⟩
  refine ⟨root', hc', fun v v' overrun overrun' r r' b b' hv hr hr' hs hs' hb hb' => ?_⟩
  have ht := sameTargets_of_unambiguous hu hdoc
  have hroot' := acyclic_reordered hdoc ht hc hc' hroot
  obtain ⟨f, hf⟩ := (@existsUnique_interprets rt root hroot).1
  obtain ⟨f', hf'⟩ := (@existsUnique_interprets rt root' hroot').1
  rw [verdict_interprets hroot hf hr hs hb, verdict_interprets hroot' hf' hr' hs' hb']
  exact interprets_same hdoc ht hc hc' hroot hf hf' (counterparts_root hc hc' hdoc) hv

/-- `itemsOfRoot` with a title next to its `$ref`, in two orders. -/
def titledItems : Value :=
  .object [("items", .object [("$ref", .str (str "#")), ("title", .nil)])]

def itemsTitled : Value :=
  .object [("items", .object [("title", .nil), ("$ref", .str (str "#"))])]

/-- The element of the array is validated by the reordered `$ref`. -/
theorem compileSchema_permuted_titledItems :
    ∃ root' r b, compileSchema .bare none itemsTitled = .ok root' ∧
      Valids .bare itemsOfRootSchema.deref noOverrun itemsOfRootSchema (nestedArrays 1) r ∧
        r.verdict = some b ∧ ∀ r' b', Valids .bare root'.deref noOverrun root' (nestedArrays 1) r' →
          (∀ n, (machine .bare root'.deref noOverrun).Safe ((machine .bare root'.deref
            noOverrun).run n (root', .root (nestedArrays 1))
              ((start createContext).mode true)).2) → r'.verdict = some b' → b = b' := by
  have hitems : IsJson (.object [("$ref", .str (str "#")), ("title", .nil)]) :=
    .object (by decide) (by simp [IsJson.nil, IsJson.str])
  have hitems' : IsJson (.object [("title", .nil), ("$ref", .str (str "#"))]) :=
    .object (by decide) (by simp [IsJson.nil, IsJson.str])
  have hleft : IsJson titledItems := .object (by decide) (by simp [hitems])
  have hright : IsJson itemsTitled := .object (by decide) (by simp [hitems'])
  have hone : IsJson (nestedArrays 1) := .arr (by simp [nestedArrays, IsJson.arr])
  obtain ⟨r, b, hr, hb⟩ : ∃ r b, Valids .bare itemsOfRootSchema.deref noOverrun itemsOfRootSchema
      (nestedArrays 1) r ∧ r.verdict = some b := ⟨_, _, ⟨4, rfl, by decide⟩, rfl⟩
  obtain ⟨root', hc', hverdict⟩ := compileSchema_permuted ⟨hleft, hright, by decide⟩ (by decide)
    (rfl : compileSchema .bare none titledItems = .ok itemsOfRootSchema) acyclic_itemsOfRoot
  exact ⟨root', r, b, hc', hr, hb, fun r' b' hr' hs' => hverdict _ _ _ _ _ _ _ _ (.refl hone) hr
    hr' safe_itemsOfRoot hs' hb⟩

end Runs

end FastJsonSchema
