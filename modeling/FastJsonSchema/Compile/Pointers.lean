import FastJsonSchema.Compile.Registry

/-!
# References in documents without `$id`

In a document without `$id`, a `$ref` that is a JSON Pointer is looked up as the path that its
tokens spell, and the path belongs to the last place that spells it (`pointer_target`). The tokens
of a path are not escaped, so two places may spell the same path, though only when a key has a
slash (`not_shadowed_of_slashFree`). Then the references to the one compiled first go astray
(`pointerRef_iff`). A member of an unknown keyword that is named like a known keyword has no
place of its own unless the keyword has one schema (`definitionRef_iff`).
-/

namespace FastJsonSchema

open Ruby Value Table

/-! ## The encoding of a path -/

theorem foldl_newPath (root : RString) (ts : List RString) :
    ts.foldl newPath root = root ++ Text.joined ts := by
  induction ts generalizing root with
  | nil => exact (List.append_nil root).symm
  | cons t ts ih =>
    rw [List.foldl_cons, ih, Position.newPath_eq, List.append_assoc, ← Text.joined_append]
    rfl

/-- **Decoding a path** whose tokens are escaped, and then percent-encoded in any way that leaves no
percent sign, gives the path that `new_path` builds. -/
theorem decodeRef_encoded {ts es : List RString}
    (h : List.Forall₂ (fun t e => Text.PercentEncodes (Text.escape t) e) ts es) :
    decodeRef (rootPathStr ++ es.flatMap fun e => str "/" ++ e) = ts.foldl newPath rootPathStr := by
  have hdecode : Text.percentDecode (es.flatMap fun e => str "/" ++ e) = Text.pointer ts :=
    Text.percentDecode_pointer h
  rw [foldl_newPath]
  exact decodeRef_pointer hdecode

theorem decodeRef_encoded_mixed :
    decodeRef (rootPathStr
        ++ [str "a~01~1%25", str "%7e00"].flatMap fun e => str "/" ++ e)
      = [str "a~1/%", str "~0"].foldl newPath rootPathStr := by
  have hfirst : Text.PercentEncodes (Text.escape (str "a~1/%")) (str "a~01~1%25") :=
    .keep (by decide) <| .keep (by decide) <| .keep (by decide) <| .keep (by decide) <|
      .keep (by decide) <| .keep (by decide) <| .triple (by decide) .nil
  have hsecond : Text.PercentEncodes (Text.escape (str "~0")) (str "%7e00") :=
    .triple (by decide) <| .keep (by decide) <| .keep (by decide) .nil
  exact decodeRef_encoded (.cons hfirst (.cons hsecond .nil))

/-! ## Places -/

/-- The position is compiled from the value at the tokens `ts`. -/
def Position.CompiledFrom (p : Position) (ts : List RString) (v : Value) : Prop :=
  p.addr = ts ∧ (p.value = v ∨ p.value = dependencySchema v)

/-- The last position that spells the tokens `ts` is at another place. -/
def Shadowed (rt : Runtime) (customFormats : Option (List (RString × ℕ))) (doc : Value)
    (ts : List RString) : Prop :=
  ∃ q, IsLast (fun p : Position => Text.joined p.addr = Text.joined ts)
    (positionsOf rt customFormats doc) q ∧ q.addr ≠ ts

section

open Position

variable {rt : Runtime} {customFormats : Option (List (RString × ℕ))} {doc : Value}
  {root c : CompiledSchema} {refData : RefData} {f : RString} {ts : List RString} {a : Addr}

theorem isLast_spelled_iff : (∃ q, IsLast (fun p : Position => Text.joined p.addr = Text.joined ts)
    (positionsOf rt customFormats doc) q ∧ q.addr = ts) ↔
      (∃ q ∈ positionsOf rt customFormats doc, q.addr = ts) ∧
        ¬ Shadowed rt customFormats doc ts := by
  constructor
  · rintro ⟨q, hq, rfl⟩
    refine ⟨⟨q, hq.mem, rfl⟩, ?_⟩
    rintro ⟨q', hq', hne⟩
    exact hne (by rw [hq.unique hq'])
  · rintro ⟨⟨q, hq, rfl⟩, hnot⟩
    obtain ⟨q', hq'⟩ := exists_isLast (P := fun p : Position => Text.joined p.addr =
      Text.joined q.addr) hq rfl
    by_cases he : q'.addr = q.addr
    · exact ⟨q', hq', he⟩
    · exact absurd ⟨q', hq', he⟩ hnot

/-- Places are told apart by what they spell when no key has a slash. -/
theorem not_shadowed_of_slashFree (hd : Distinct doc) (hslash : SlashFree doc) {p : Position}
    (hp : p ∈ positionsOf rt customFormats doc) : ¬ Shadowed rt customFormats doc p.addr := by
  rintro ⟨q, hq, hne⟩
  apply hne
  apply Text.joined_injective
  · exact (positionsOf_slash_not_mem hd hslash q hq.mem).2
  · exact (positionsOf_slash_not_mem hd hslash p hp).2
  · exact hq.holds

/-- The entry of a path. -/
theorem entry_pointer_iff (hids : ∀ u ∈ idsOf rt customFormats doc, PlainUri u) :
    (keysOf rt customFormats doc).reverse.lookup (str "#" ++ Text.joined ts) = some a ↔
      ∃ q, IsLast (fun p : Position => Text.joined p.addr = Text.joined ts)
        (positionsOf rt customFormats doc) q ∧ q.addr = a := by
  rw [entry_iff]
  refine exists_congr fun q => and_congr_left fun _ => ?_
  exact isLast_congr fun p hp => registers_pointer_iff hids hp

/-- A `$ref` that is a JSON Pointer has no resolved form when no `$id` is around it. -/
theorem resolvedRefVal_of_base_none {p : Position} (hm : p.Matches rt c)
    (hb : p.ctx.currentBase = none) (href : c.refVal = some (str "#" ++ f)) :
    c.resolvedRefVal = none := by
  rw [hm.refVal, resolved_refVal] at href
  rw [hm.resolvedRefVal, resolved_resolvedRefVal, href, Option.bind_some,
    resolveRefAgainstParentBase, not_isAbsolute_pointer, hb]
  rfl

/-- The target of a JSON Pointer without a resolved form is the last place that spells it. -/
theorem pointer_target (hids : ∀ u ∈ idsOf rt customFormats doc, PlainUri u)
    (hf : Text.percentDecode f = Text.pointer ts) :
    refTarget (keysOf rt customFormats doc).reverse (some (str "#" ++ f)) none = .ok (some a) ↔
      ∃ q, IsLast (fun p : Position => Text.joined p.addr = Text.joined ts)
        (positionsOf rt customFormats doc) q ∧ q.addr = a := by
  rw [refTarget_eq_ok, Option.getD_none, decodeRef_pointer hf]
  simp only [ne_eq, not_true_eq_false, false_and, and_false, or_false]
  exact entry_pointer_iff hids

theorem plainIds_of_nil (hids : idsOf rt customFormats doc = []) :
    ∀ u ∈ idsOf rt customFormats doc, PlainUri u := by
  rw [hids]
  exact fun _ h => absurd h List.not_mem_nil

theorem base_none (hids : idsOf rt customFormats doc = []) {p : Position}
    (hp : p ∈ positionsOf rt customFormats doc) : p.ctx.currentBase = none := by
  by_contra hb
  obtain ⟨R, hR, hne, -⟩ := inside_of_base p hp hb
  obtain ⟨u, hu⟩ := Option.ne_none_iff_exists'.1 hne
  have hmem := mem_idsOf hR hu
  rw [hids] at hmem
  exact absurd hmem List.not_mem_nil

theorem compiledFrom_of_addr (hd : Distinct doc) {p : Position} {v : Value}
    (hp : p ∈ positionsOf rt customFormats doc) (ha : p.addr = ts) (hv : At doc ts v) :
    p.CompiledFrom ts v := by
  obtain ⟨w, hat, hw⟩ := positionsOf_at hd p hp
  rw [ha] at hat
  obtain rfl := hv.unique hat
  exact ⟨ha, hw⟩

/-- **References by JSON Pointer.** In a document without `$id`, a reference to the value at the
tokens `ts` leads to the schema compiled from it exactly when a schema is compiled there and no
other place compiled later spells the same path. -/
theorem pointerRef_iff (hd : Distinct doc)
    (hids : idsOf rt customFormats doc = [])
    (h : compileSchema rt customFormats doc = .ok root) (hc : root.Reach c)
    (href : c.refVal = some (str "#" ++ f)) (hf : Text.percentDecode f = Text.pointer ts)
    {v : Value} (hv : At doc ts v) :
    (∃ q ∈ positionsOf rt customFormats doc, c.refSchema = some q.addr ∧ q.CompiledFrom ts v) ↔
      (∃ q ∈ positionsOf rt customFormats doc, q.addr = ts) ∧
        ¬ Shadowed rt customFormats doc ts := by
  obtain ⟨p, hp, hm, htarget⟩ := compileSchema_spec h c hc
  rw [target, ← hm.refVal, ← hm.resolvedRefVal,
    resolvedRefVal_of_base_none hm (base_none hids hp) href, href] at htarget
  have hiff : c.refSchema = some ts ↔ ∃ q, IsLast (fun p : Position =>
      Text.joined p.addr = Text.joined ts) (positionsOf rt customFormats doc) q ∧ q.addr = ts := by
    rw [← pointer_target (plainIds_of_nil hids) hf, htarget, Except.ok.injEq]
  rw [← isLast_spelled_iff, ← hiff]
  constructor
  · rintro ⟨q, -, hq, ha, -⟩
    rw [hq, ha]
  · intro hts
    obtain ⟨q, hq, ha⟩ := hiff.1 hts
    exact ⟨q, hq.mem, by rw [hts, ha], compiledFrom_of_addr hd hq.mem ha hv⟩

/-- Two definitions that spell one path: the reference to the first leads to the second. -/
def aliasedDefinitions : Value :=
  .object [("definitions", .object [("a/b", .object [("type", .str (str "integer"))]),
      ("a", .object [("b", .object [("type", .str (str "string"))])])]),
    ("$ref", .str (str "#/definitions/a~1b"))]

theorem pointerRef_iff_aliasedDefinitions :
    ∃ root, compileSchema .bare none aliasedDefinitions = .ok root ∧
      ((∃ q ∈ positionsOf .bare none aliasedDefinitions, root.refSchema = some q.addr ∧
        q.CompiledFrom [str "definitions", str "a/b"] (.object [("type", .str (str "integer"))])) ↔
      (∃ q ∈ positionsOf .bare none aliasedDefinitions,
        q.addr = [str "definitions", str "a/b"]) ∧
        ¬ Shadowed .bare none aliasedDefinitions [str "definitions", str "a/b"]) :=
  ⟨_, rfl, pointerRef_iff (by decide) rfl rfl .root rfl rfl
    (.member rfl (.member rfl (.here _)))⟩

theorem pointerRef_astray :
    ∃ root, compileSchema .bare none aliasedDefinitions = .ok root ∧
      idsOf .bare none aliasedDefinitions = [] ∧
      root.refVal = some (str "#" ++ str "/definitions/a~1b") ∧
      Text.percentDecode (str "/definitions/a~1b")
        = Text.pointer [str "definitions", str "a/b"] ∧
      At aliasedDefinitions [str "definitions", str "a/b"]
        (.object [("type", .str (str "integer"))]) ∧
      root.refSchema = some [str "definitions", str "a", str "b"] ∧
      ¬ ∃ q ∈ positionsOf .bare none aliasedDefinitions, root.refSchema = some q.addr ∧
        q.CompiledFrom [str "definitions", str "a/b"]
          (.object [("type", .str (str "integer"))]) := by
  refine ⟨_, rfl, rfl, rfl, rfl, .member rfl (.member rfl (.here _)), rfl, ?_⟩
  rintro ⟨q, -, hq, ha, -⟩
  rw [ha] at hq
  exact absurd hq (by decide)

/-- The names in an unknown keyword that have a place: the unknown ones and the keywords with one
schema. -/
theorem position_of_name_iff {container k : RString} {kvs ms : List (Value × Value)} {D : Value}
    (hd : Distinct (.hash kvs)) (hdms : Distinct (.hash ms))
    (hunknown : isKnownKeyword container = false) (hms : (.str container, .hash ms) ∈ kvs)
    (hD : (.str k, D) ∈ ms) (hshape : isSchemaShaped D = true) :
    (∃ q ∈ positionsOf rt customFormats (.hash kvs), q.addr = [container, k]) ↔
      isKnownKeyword k = false ∨ k ∈ schemaKeywords := by
  have hroot : rootPosition (.hash kvs) customFormats ∈ positionsOf rt customFormats (.hash kvs) :=
    positionsOf_root
  have hcontainer : Leads kvs (.entry container []) (.hash ms) := .entry hunknown hms rfl rfl
  have hC := positionsOf_child hroot hcontainer
  constructor
  · rintro ⟨q, hq, ha⟩
    have hk : ([k] : List RString) ≠ [] := List.cons_ne_nil _ _
    obtain ⟨s, v, us, hs, he⟩ := positionsOf_below hd hC hq ha hk
    cases hs with
    | @keyword k' hk' hv =>
      obtain ⟨rfl, -⟩ := List.cons.inj he
      exact .inr hk'
    | @element k' xs i v hk' hx hi => exact absurd he (by simp [Step.tokens])
    | @member k' key ms v hk' hm hv => exact absurd he (by simp [Step.tokens])
    | @entry k' is u w hk' hm hi hw =>
      obtain ⟨rfl, -⟩ := List.cons.inj he
      exact .inl hk'
  · rintro (hk | hk)
    · have hname : Leads ms (.entry k []) D := .entry hk hD rfl hshape
      exact ⟨_, positionsOf_child hC hname, rfl⟩
    · have hshaped : isSchemaShaped (aref ms k) = true := by
        rw [aref_of_mem hdms.keys hD]
        exact hshape
      exact ⟨_, positionsOf_child hC (Leads.keyword hk hshaped), rfl⟩

/-- **References to definitions.** In a document without `$id`, a reference to the schema `D` under
the name `k` in an unknown keyword leads to the schema compiled from `D` exactly when `k` is unknown
too or a keyword with one schema, and no other place compiled later spells the same path. -/
theorem definitionRef_iff (hd : Distinct doc)
    (hids : idsOf rt customFormats doc = [])
    (h : compileDocument rt customFormats doc = .ok (root, refData)) (hc : root.Reach c)
    {container k : RString} {kvs ms : List (Value × Value)} {D : Value} (hdoc : doc = .hash kvs)
    (hunknown : isKnownKeyword container = false) (hms : (.str container, .hash ms) ∈ kvs)
    (hD : (.str k, D) ∈ ms) (hshape : isSchemaShaped D = true)
    (href : c.refVal = some (str "#" ++ f))
    (hf : Text.percentDecode f = Text.pointer [container, k]) :
    (∃ q ∈ positionsOf rt customFormats doc,
      refTarget refData c.refVal c.resolvedRefVal = .ok (some q.addr) ∧
        q.CompiledFrom [container, k] D) ↔
      (isKnownKeyword k = false ∨ k ∈ schemaKeywords) ∧
        ¬ Shadowed rt customFormats doc [container, k] := by
  subst hdoc
  obtain ⟨rfl, hcovers⟩ := compileDocument_spec h
  obtain ⟨p, hp, hm⟩ := hcovers.1 c hc
  rw [resolvedRefVal_of_base_none hm (base_none hids hp) href, href]
  -- the container and its members
  have hget := get_of_mem hd.keys hms
  have hdms : Distinct (.hash ms) := hd.at (.member hget (.here _))
  have hat : At (.hash kvs) [container, k] D :=
    .member hget (.member (get_of_mem hdms.keys hD) (.here _))
  rw [← position_of_name_iff hd hdms hunknown hms hD hshape, ← isLast_spelled_iff]
  constructor
  · rintro ⟨q, -, htarget, ha, -⟩
    rw [ha] at htarget
    exact (pointer_target (plainIds_of_nil hids) hf).1 htarget
  · rintro ⟨q, hq, ha⟩
    refine ⟨q, hq.mem, ?_, compiledFrom_of_addr hd hq.mem ha hat⟩
    exact (pointer_target (plainIds_of_nil hids) hf).2 ⟨q, hq, rfl⟩

/-- A definition whose name is a keyword. -/
def typeDefinition : Value :=
  .object [("definitions", .object [("type", .object [("type", .str (str "integer"))])]),
    ("$ref", .str (str "#/definitions/type"))]

theorem definitionRef_iff_typeDefinition :
    ∃ root refData, compileDocument .bare none typeDefinition = .ok (root, refData) ∧
      ((∃ q ∈ positionsOf .bare none typeDefinition,
        refTarget refData root.refVal root.resolvedRefVal = .ok (some q.addr) ∧
          q.CompiledFrom [str "definitions", str "type"]
            (.object [("type", .str (str "integer"))])) ↔
        (isKnownKeyword (str "type") = false ∨ str "type" ∈ schemaKeywords) ∧
          ¬ Shadowed .bare none typeDefinition [str "definitions", str "type"]) :=
  ⟨_, _, rfl, definitionRef_iff (by decide) rfl rfl .root rfl rfl (.head _) (.head _) rfl
    rfl rfl⟩

theorem definitionRef_unresolved :
    idsOf .bare none typeDefinition = [] ∧
      isKnownKeyword (str "definitions") = false ∧
      At typeDefinition [str "definitions", str "type"]
        (.object [("type", .str (str "integer"))]) ∧
      compileSchema .bare none typeDefinition
        = .error (.unresolvedRef (str "#/definitions/type")) :=
  ⟨rfl, rfl, .member rfl (.member rfl (.here _)), rfl⟩

end

end FastJsonSchema
