import FastJsonSchema.Compile.Pointers

/-!
# References to places inside an `$id`

A position inside an `$id` is registered under the `$id` and the steps on its way that the running
pointer notes. `ASSIGN_SCHEMA_TO_COMPILED_SCHEMA` does not note its step, empty objects and booleans
are not registered, and neither is the object with the `$id` itself. `resourceRef_iff` says when a
reference by the `$id` and a pointer finds its place all the same, and `localRef_iff` when a
reference by a pointer alone stays inside the `$id` around it.
-/

namespace FastJsonSchema

open Ruby Value Table Position

/-- The position is registered under the `$id` of `R` with the tokens `ts`. -/
def Scoped (rt : Runtime) (R : Position) (ts : List RString) (q : Position) : Prop :=
  q.members ≠ [] ∧ ts ≠ [] ∧
    ∃ ss, Inside rt R ss q ∧ Text.joined (ss.flatMap Step.noted) = Text.joined ts

/-- The last position registered under the `$id` of `R` with the tokens `ts` is at `a`. -/
def ScopedAt (rt : Runtime) (customFormats : Option (List (RString × ℕ))) (doc : Value)
    (R : Position) (ts : List RString) (a : Addr) : Prop :=
  ∃ q, IsLast (Scoped rt R ts) (positionsOf rt customFormats doc) q ∧ q.addr = a

/-! ## Noted steps -/

theorem Step.noted_sublist (s : Step) : s.noted.Sublist s.tokens := by
  cases s
  · exact List.nil_sublist _
  all_goals exact List.Sublist.refl _

theorem noted_sublist (ss : List Step) :
    (ss.flatMap Step.noted).Sublist (ss.flatMap Step.tokens) := by
  induction ss with
  | nil => exact List.Sublist.refl _
  | cons s ss ih =>
    rw [List.flatMap_cons, List.flatMap_cons]
    exact s.noted_sublist.append ih

theorem joined_length_le {ts ts' : List RString} (h : ts.Sublist ts') :
    List.length (Text.joined ts) ≤ List.length (Text.joined ts') := by
  induction h with
  | slnil => exact le_rfl
  | cons t _ ih =>
    rw [Text.joined_cons, List.length_cons, List.length_append]
    omega
  | cons_cons t _ ih =>
    rw [Text.joined_cons, Text.joined_cons, List.length_cons, List.length_cons,
      List.length_append, List.length_append]
    omega

/-- The noted steps read like all steps only when each of them is noted. -/
theorem joined_noted_iff {ss : List Step} :
    Text.joined (ss.flatMap Step.noted) = Text.joined (ss.flatMap Step.tokens) ↔
      ∀ k, .keyword k ∉ ss := by
  constructor
  · intro h k hk
    obtain ⟨l, r, rfl⟩ := List.append_of_mem hk
    have hl := joined_length_le (noted_sublist l)
    have hr := joined_length_le (noted_sublist r)
    have hlen := congrArg List.length h
    simp only [List.flatMap_append, List.flatMap_cons, Text.joined_append, Step.noted, Step.tokens,
      Text.joined_cons, List.length_append, List.length_cons] at hlen
    simp only [Text.joined_nil, List.length_nil] at hlen
    omega
  · intro h
    induction ss with
    | nil => rfl
    | cons s ss ih =>
      have hs : s.noted = s.tokens := by
        cases s with
        | keyword k => exact absurd List.mem_cons_self (h k)
        | _ => rfl
      rw [List.flatMap_cons, List.flatMap_cons, Text.joined_append, Text.joined_append, hs,
        ih fun k hk => h k (List.mem_cons_of_mem _ hk)]

section

variable {rt : Runtime} {customFormats : Option (List (RString × ℕ))} {doc : Value}
  {root c : CompiledSchema} {refData : RefData} {f u : RString} {ts : List RString} {a : Addr}
  {R T p : Position} {ss : List Step}

theorem Position.Inside.mem (hR : R ∈ positionsOf rt customFormats doc) (h : Inside rt R ss p) :
    p ∈ positionsOf rt customFormats doc := by
  induction h with
  | child h => exact positionsOf_child hR h
  | step _ _ h ih => exact positionsOf_child ih h

/-- The entry of a key that starts with an `$id`. -/
theorem entry_scoped_iff (hids : ∀ u ∈ idsOf rt customFormats doc, PlainUri u)
    (hdistinct : (idsOf rt customFormats doc).Nodup) (hR : R ∈ positionsOf rt customFormats doc)
    (hu : R.idVal = some u) :
    (keysOf rt customFormats doc).reverse.lookup (u ++ str "#" ++ Text.joined ts) = some a ↔
      ScopedAt rt customFormats doc R ts a := by
  rw [entry_iff]
  refine exists_congr fun q => and_congr_left fun _ => ?_
  exact isLast_congr fun p hp => registers_scoped_iff hids hdistinct hR hu hp

theorem entry_scoped_none_iff (hids : ∀ u ∈ idsOf rt customFormats doc, PlainUri u)
    (hdistinct : (idsOf rt customFormats doc).Nodup) (hR : R ∈ positionsOf rt customFormats doc)
    (hu : R.idVal = some u) :
    (keysOf rt customFormats doc).reverse.lookup (u ++ str "#" ++ Text.joined ts) = none ↔
      ∀ q ∈ positionsOf rt customFormats doc, ¬ Scoped rt R ts q := by
  rw [entry_none_iff]
  exact forall₂_congr fun q hq => not_congr (registers_scoped_iff hids hdistinct hR hu hq)

/-- Whether a position is registered with the tokens of its way. -/
theorem scoped_tokens_iff (hu : R.idVal = some u) (habs : isAbsolute u = true)
    (hT : Inside rt R ss T) :
    Scoped rt R (ss.flatMap Step.tokens) T ↔ T.members ≠ [] ∧ ∀ k, .keyword k ∉ ss := by
  rw [← joined_noted_iff]
  constructor
  · rintro ⟨hm, -, ss', hss', he⟩
    -- the running pointer is the same on both ways
    have hptr := (hT.context hu habs).2.symm.trans (hss'.context hu habs).2
    exact ⟨hm, (Option.some.inj hptr).trans he⟩
  · exact fun ⟨hm, he⟩ => ⟨hm, hT.ne_nil, ss, hT, he⟩

/-! ## References by an `$id` and a pointer -/

theorem resolvedRefVal_of_absolute {ref : RString} (hm : p.Matches rt c)
    (href : c.refVal = some ref) (habs : isAbsolute ref = true) : c.resolvedRefVal = some ref := by
  rw [hm.refVal, resolved_refVal] at href
  rw [hm.resolvedRefVal, resolved_resolvedRefVal, href, Option.bind_some,
    resolveRefAgainstParentBase, if_pos habs]

/-- **References into an `$id`.** When the `$id` values are plain and distinct, a reference by the
`$id` of `R` and the pointer of a place `T` inside `R` leads to `T` exactly when `T` is an object
with members below `R`, no step on the way is into a keyword with one schema, and no other place
compiled later is registered under the same key. -/
theorem resourceRef_iff (hd : Distinct doc) (hids : ∀ u ∈ idsOf rt customFormats doc, PlainUri u)
    (hdistinct : (idsOf rt customFormats doc).Nodup)
    (h : compileDocument rt customFormats doc = .ok (root, refData)) (hc : root.Reach c)
    (hR : R ∈ positionsOf rt customFormats doc) (hu : R.idVal = some u)
    (hT : ss = [] ∧ T = R ∨ Inside rt R ss T) (href : c.refVal = some (u ++ str "#" ++ f))
    (hf : Text.percentDecode f = Text.pointer (ss.flatMap Step.tokens)) :
    refTarget refData c.refVal c.resolvedRefVal = .ok (some T.addr) ↔
      ss ≠ [] ∧ T.members ≠ [] ∧ (∀ k, .keyword k ∉ ss) ∧
        ∀ a, ScopedAt rt customFormats doc R (ss.flatMap Step.tokens) a → a = T.addr := by
  obtain ⟨rfl, hcovers⟩ := compileDocument_spec h
  obtain ⟨p, hp, hm⟩ := hcovers.1 c hc
  have hplain := hids u (mem_idsOf hR hu)
  have habs : isAbsolute (u ++ str "#" ++ f) = true := by
    rw [List.append_assoc]
    exact isAbsolute_append hplain.absolute _
  have hentry : refTarget (keysOf rt customFormats doc).reverse c.refVal c.resolvedRefVal
      = .ok (some T.addr) ↔
        ScopedAt rt customFormats doc R (ss.flatMap Step.tokens) T.addr := by
    rw [resolvedRefVal_of_absolute hm href habs, href, refTarget_eq_ok, Option.getD_some,
      decodeRef_eq hplain.percent hplain.tilde hf]
    simp only [ne_eq, not_true_eq_false, false_and, and_false, or_false]
    exact entry_scoped_iff hids hdistinct hR hu
  rw [hentry]
  rcases hT with ⟨rfl, rfl⟩ | hT
  · -- the key of `R` itself is never registered
    constructor
    · rintro ⟨q, hq, -⟩
      exact absurd rfl hq.holds.2.1
    · exact fun h => absurd rfl h.1
  · have hscoped := scoped_tokens_iff hu hplain.absolute hT
    constructor
    · rintro ⟨q, hq, ha⟩
      obtain rfl := positionsOf_injective hd hq.mem (hT.mem hR) ha
      obtain ⟨hmem, hkeyword⟩ := hscoped.1 hq.holds
      refine ⟨fun hss => hT.ne_nil (by rw [hss, List.flatMap_nil]), hmem, hkeyword, ?_⟩
      rintro a ⟨q', hq', rfl⟩
      rw [hq.unique hq']
    · rintro ⟨-, hmem, hkeyword, hlast⟩
      obtain ⟨q, hq⟩ := exists_isLast (hT.mem hR) (hscoped.2 ⟨hmem, hkeyword⟩)
      exact ⟨q, hq, hlast q.addr ⟨q, hq, rfl⟩⟩

/-- A definition with a schema in `not`, which is registered in its place. -/
def shadowedDefinition : Value :=
  .object [("$id", .str (str "http://x/a")), ("$ref", .str (str "http://x/a#/definitions/t")),
    ("definitions", .object [("t", .object [("not", .object [("type", .str (str "null"))])])])]

/-- The way to the definition. -/
def definitionSteps : List Step := [.entry (str "definitions") [], .entry (str "t") []]

theorem definition_inside : ∃ T, Inside .bare (rootPosition shadowedDefinition none)
    definitionSteps T ∧ T.addr = [str "definitions", str "t"] :=
  ⟨_, .step (.child (.entry rfl (.tail _ (.tail _ (.head _))) rfl rfl)) rfl
    (.entry rfl (.head _) rfl rfl), rfl⟩

theorem resourceRef_iff_shadowedDefinition :
    ∃ root refData T, compileDocument .bare none shadowedDefinition = .ok (root, refData) ∧
      Inside .bare (rootPosition shadowedDefinition none) definitionSteps T ∧
      (refTarget refData root.refVal root.resolvedRefVal = .ok (some T.addr) ↔
        definitionSteps ≠ [] ∧ T.members ≠ [] ∧ (∀ k, .keyword k ∉ definitionSteps) ∧
          ∀ a, ScopedAt .bare none shadowedDefinition (rootPosition shadowedDefinition none)
            (definitionSteps.flatMap Step.tokens) a → a = T.addr) := by
  obtain ⟨T, hT, -⟩ := definition_inside
  exact ⟨_, _, T, rfl, hT, resourceRef_iff (by decide) (by decide) (by decide) rfl .root
    positionsOf_root rfl (.inr hT) rfl rfl⟩

theorem resourceRef_astray :
    ∃ root refData T, compileDocument .bare none shadowedDefinition = .ok (root, refData) ∧
      (∀ u ∈ idsOf .bare none shadowedDefinition, PlainUri u) ∧
      (idsOf .bare none shadowedDefinition).Nodup ∧
      (rootPosition shadowedDefinition none).idVal = some (str "http://x/a") ∧
      Inside .bare (rootPosition shadowedDefinition none) definitionSteps T ∧
      root.refVal = some (str "http://x/a" ++ str "#" ++ str "/definitions/t") ∧
      Text.percentDecode (str "/definitions/t")
        = Text.pointer (definitionSteps.flatMap Step.tokens) ∧
      refTarget refData root.refVal root.resolvedRefVal
        = .ok (some [str "definitions", str "t", str "not"]) ∧
      T.addr ≠ [str "definitions", str "t", str "not"] := by
  obtain ⟨T, hT, ha⟩ := definition_inside
  exact ⟨_, _, T, rfl, by decide, by decide, rfl, hT, rfl, rfl, rfl, by rw [ha]; decide⟩

/-! ## References by a pointer alone -/

/-- The result of `URI.join` on a base and a fragment, when it does not raise: the base with the
fragment, an empty one included. -/
def JoinsFragments (rt : Runtime) (u : RString) : Prop :=
  ∀ f joined, rt.uriJoin u (str "#" ++ f) = some joined → joined = u ++ str "#" ++ f

theorem resolvedRefVal_of_base (hplain : PlainUri u) (hm : p.Matches rt c)
    (hb : p.ctx.currentBase = some u) (href : c.refVal = some (str "#" ++ f)) :
    c.resolvedRefVal = rt.uriJoin u (str "#" ++ f) := by
  have hne : u ≠ [] := by
    obtain ⟨_, _, rfl, -⟩ := hplain.cons
    exact List.cons_ne_nil _ _
  rw [hm.refVal, resolved_refVal] at href
  rw [hm.resolvedRefVal, resolved_resolvedRefVal, href, Option.bind_some,
    resolveRefAgainstParentBase, not_isAbsolute_pointer, hb, uriResolverJoin]
  simp only [Bool.false_eq_true, if_false, if_neg hne]

/-- The last position that spells `ts` is at `ts`. -/
def SpelledAt (rt : Runtime) (customFormats : Option (List (RString × ℕ))) (doc : Value)
    (ts : List RString) : Prop :=
  (∃ q ∈ positionsOf rt customFormats doc, q.addr = ts) ∧ ¬ Shadowed rt customFormats doc ts

theorem entry_pointer_append_iff (hids : ∀ u ∈ idsOf rt customFormats doc, PlainUri u) :
    (keysOf rt customFormats doc).reverse.lookup (str "#" ++ Text.joined ts) = some (a ++ ts) ↔
      a = [] ∧ SpelledAt rt customFormats doc ts := by
  rw [entry_pointer_iff hids, SpelledAt, ← isLast_spelled_iff]
  constructor
  · rintro ⟨q, hq, ha⟩
    have hspelled := hq.holds
    rw [ha, Text.joined_append, List.append_left_eq_self, Text.joined_eq_nil] at hspelled
    subst hspelled
    exact ⟨rfl, q, hq, ha⟩
  · rintro ⟨rfl, q, hq, ha⟩
    exact ⟨q, hq, ha⟩

/-- **References inside an `$id`.** When the `$id` values are plain and distinct, a reference by the
pointer `ts` at the position `p` leads to the place `ts` inside the nearest `$id` strictly around
`p`, or inside the document when there is none, exactly when
* inside an `$id` of `R`: `URI.join` accepts it and the last place registered under the `$id` and
  `ts` is the right one, or there is none and `R` is the document, where the last place that spells
  `ts` is the right one;
* elsewhere: the last place that spells `ts` is the right one. -/
theorem localRef_iff (hd : Distinct doc) (hids : ∀ u ∈ idsOf rt customFormats doc, PlainUri u)
    (hdistinct : (idsOf rt customFormats doc).Nodup)
    (hjoin : ∀ u ∈ idsOf rt customFormats doc, JoinsFragments rt u)
    (h : compileSchema rt customFormats doc = .ok root) (hc : root.Reach c)
    (hp : p ∈ positionsOf rt customFormats doc) (hpc : p.addr = c.addr)
    (href : c.refVal = some (str "#" ++ f)) (hf : Text.percentDecode f = Text.pointer ts) :
    (∀ R ∈ positionsOf rt customFormats doc, ∀ u, R.idVal = some u → ∀ ss, Inside rt R ss p →
      (c.refSchema = some (R.addr ++ ts) ↔
        rt.uriJoin u (str "#" ++ f) ≠ none ∧ ScopedAt rt customFormats doc R ts (R.addr ++ ts) ∨
        (rt.uriJoin u (str "#" ++ f) = none ∨
          ∀ q ∈ positionsOf rt customFormats doc, ¬ Scoped rt R ts q) ∧
          R.addr = [] ∧ SpelledAt rt customFormats doc ts)) ∧
    ((∀ R ∈ positionsOf rt customFormats doc, R.idVal ≠ none → ∀ ss, ¬ Inside rt R ss p) →
      (c.refSchema = some ts ↔ SpelledAt rt customFormats doc ts)) := by
  obtain ⟨p', hp', hm, htarget⟩ := compileSchema_spec h c hc
  obtain rfl := positionsOf_injective hd hp hp' (hpc.trans hm.addr)
  rw [target, ← hm.refVal, ← hm.resolvedRefVal, href] at htarget
  have hiff : ∀ a, c.refSchema = some a ↔ refTarget (keysOf rt customFormats doc).reverse
      (some (str "#" ++ f)) c.resolvedRefVal = .ok (some a) := by
    intro a
    rw [htarget, Except.ok.injEq]
  constructor
  · intro R hR u hu ss hss
    have hplain := hids u (mem_idsOf hR hu)
    have hbase := (hss.context hu hplain.absolute).1
    rw [hiff, resolvedRefVal_of_base hplain hm hbase href, refTarget_eq_ok]
    cases hj : rt.uriJoin u (str "#" ++ f) with
    | none =>
      rw [Option.getD_none, decodeRef_pointer hf, entry_pointer_append_iff hids]
      simp only [ne_eq, not_true_eq_false, false_and, and_false, or_false, true_or, true_and,
        false_or]
    | some joined =>
      obtain rfl := hjoin u (mem_idsOf hR hu) f joined hj
      have hne : u ++ str "#" ++ f ≠ str "#" ++ f := by
        obtain ⟨b, t, rfl, hb⟩ := hplain.cons
        exact fun he => hb (List.cons.inj he).1
      rw [Option.getD_some, decodeRef_eq hplain.percent hplain.tilde hf, decodeRef_pointer hf,
        entry_scoped_iff hids hdistinct hR hu, entry_scoped_none_iff hids hdistinct hR hu,
        entry_pointer_append_iff hids]
      simp only [hne, ne_eq, not_false_eq_true, true_and, reduceCtorEq, false_or]
  · intro hnot
    have hb : p.ctx.currentBase = none := by
      by_contra hb
      obtain ⟨R, hR, hne, ss, hss⟩ := inside_of_base p hp hb
      exact hnot R hR hne ss hss
    rw [hiff, resolvedRefVal_of_base_none hm hb href, pointer_target hids hf, SpelledAt,
      ← isLast_spelled_iff]

/-- A schema with an `$id` and a reference to it by `#`. -/
def nestedResource : Value :=
  .object [("properties", .object [("foo", .object [("$id", .str (str "http://x/b")),
    ("items", .object [("$ref", .str (str "#"))])])])]

/-- The position of the `$id` and that of the reference. -/
theorem nestedResource_inside : ∃ R ∈ positionsOf .joining none nestedResource,
    R.idVal = some (str "http://x/b") ∧ R.addr = [str "properties", str "foo"] ∧
      ∃ p, Inside .joining R [.keyword itemsStr] p ∧
        p.addr = [str "properties", str "foo", str "items"] := by
  have hfoo : Leads (rootPosition nestedResource none).members
      (.member propertiesStr (str "foo")) _ := .member (by decide) rfl (.head _)
  refine ⟨_, positionsOf_child positionsOf_root hfoo, rfl, rfl, _, .child (.keyword ?_ rfl), rfl⟩
  decide

theorem localRef_iff_nestedResource :
    ∃ root c R p, compileSchema .joining none nestedResource = .ok root ∧ root.Reach c ∧
      R ∈ positionsOf .joining none nestedResource ∧ R.idVal = some (str "http://x/b") ∧
      Inside .joining R [.keyword itemsStr] p ∧
      (c.refSchema = some (R.addr ++ []) ↔
        Runtime.joining.uriJoin (str "http://x/b") (str "#" ++ []) ≠ none ∧
          ScopedAt .joining none nestedResource R [] (R.addr ++ []) ∨
        (Runtime.joining.uriJoin (str "http://x/b") (str "#" ++ []) = none ∨
          ∀ q ∈ positionsOf .joining none nestedResource, ¬ Scoped .joining R [] q) ∧
          R.addr = [] ∧ SpelledAt .joining none nestedResource []) := by
  obtain ⟨R, hR, hid, ha, p, hp, hpa⟩ := nestedResource_inside
  have hjoin : ∀ u ∈ idsOf .joining none nestedResource, JoinsFragments .joining u := by
    intro u _ f joined h
    rw [← Option.some.inj h, List.append_assoc]
  have hderef : ∃ root c, compileSchema .joining none nestedResource = .ok root ∧
      root.deref [str "properties", str "foo", str "items"] = some c ∧
      c.refVal = some (str "#" ++ []) := ⟨_, _, rfl, rfl, rfl⟩
  obtain ⟨root, c, h, hc, href⟩ := hderef
  obtain ⟨hreach, hca⟩ := CompiledSchema.reach_of_deref hc
  exact ⟨root, c, R, p, h, hreach, hR, hid, hp,
    (localRef_iff (by decide) (by decide) (by decide) hjoin h hreach (hp.mem hR)
      (hpa.trans hca.symm) href rfl).1 R hR _ hid _ hp⟩

theorem localRef_astray :
    ∃ root c, compileSchema .joining none nestedResource = .ok root ∧ root.Reach c ∧
      c.addr = [str "properties", str "foo", str "items"] ∧ c.refVal = some (str "#") ∧
      (∃ R ∈ positionsOf .joining none nestedResource, R.idVal = some (str "http://x/b") ∧
        R.addr = [str "properties", str "foo"] ∧ ∃ p, Inside .joining R [.keyword itemsStr] p ∧
          p.addr = [str "properties", str "foo", str "items"]) ∧
      c.refSchema = some [] := by
  have hderef : ∃ root c, compileSchema .joining none nestedResource = .ok root ∧
      root.deref [str "properties", str "foo", str "items"] = some c ∧
      c.refVal = some (str "#") ∧ c.refSchema = some [] := ⟨_, _, rfl, rfl, rfl, rfl⟩
  obtain ⟨root, c, h, hc, href, hschema⟩ := hderef
  obtain ⟨hreach, hca⟩ := CompiledSchema.reach_of_deref hc
  exact ⟨root, c, h, hreach, hca, href, nestedResource_inside, hschema⟩

end

end FastJsonSchema
