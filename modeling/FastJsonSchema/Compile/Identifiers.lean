import FastJsonSchema.Compile.Pointers

/-!
# References by an `$id`

An `$id` is registered as it is written, but a `$ref` is decoded before it is looked up. So a
reference by an absolute `$id` leads to the schema that carries it only when decoding leaves the
`$id` as it is, or when the decoded `$id` happens to be the key of the schema's place inside the
`$id` around it (`idRef_iff`). An `$id` without `%`, `~` and `#` is always found
(`idRef_of_plain`).
-/

namespace FastJsonSchema

open Ruby Value Table Position

/-- The place of the position inside the `$id` around it has the key `k`. -/
def Placed (k : RString) (q : Position) : Prop :=
  ∃ base ptr, q.ctx.currentBase = some base ∧ q.ctx.currentPointer = some ptr ∧ ptr ≠ [] ∧
    k = base ++ str "#" ++ ptr

/-- The position is an object with the name `k`: its `$id`, as written or resolved, or the key of
its place inside the `$id` around it. -/
def Named (rt : Runtime) (k : RString) (q : Position) : Prop :=
  q.members ≠ [] ∧ (q.idVal = some k ∨
    q.idVal.map (resolveIdAgainstParentBase rt q.ctx) = some k ∨ Placed k q)

section

variable {rt : Runtime} {customFormats : Option (List (RString × ℕ))} {doc : Value}
  {root c : CompiledSchema} {refData : RefData} {u : RString} {ts : List RString}
  {kvs : List (Value × Value)}

/-- Decoding does not reach the scheme of an absolute URI. -/
theorem decodeRef_ne_pointer (h : isAbsolute u = true) (s : RString) :
    decodeRef u ≠ str "#" ++ s := by
  cases u with
  | nil => exact absurd h (by decide)
  | cons a t =>
    rw [isAbsolute, Bool.and_eq_true] at h
    obtain ⟨halpha, -⟩ := h
    have hpercent : a ≠ Text.percent := by
      rintro rfl
      exact absurd halpha (by decide)
    have htilde : a ≠ Text.tilde := by
      rintro rfl
      exact absurd halpha (by decide)
    have hhash : a ≠ 0x23 := by
      rintro rfl
      exact absurd halpha (by decide)
    rw [decodeRef, Text.percentDecode_cons hpercent, Text.replace_cons_of_ne htilde,
      Text.replace_cons_of_ne htilde]
    exact fun he => hhash (List.cons.inj he).1

/-- A URI without percent signs and tildes decodes to itself. -/
theorem decodeRef_of_plain (h : PlainUri u) : decodeRef u = u := by
  have hpercent : ∀ c ∈ u, c ≠ Text.percent := by
    rintro c hc rfl
    exact h.percent hc
  have htilde : ∀ c ∈ u, c ≠ Text.tilde := by
    rintro c hc rfl
    exact h.tilde hc
  have hdecode := Text.percentDecode_append hpercent []
  have hreplace : ∀ b r, Text.replace Text.tilde b r u = u := by
    intro b r
    have hr := Text.replace_append (b := b) (r := r) htilde []
    rwa [Text.replace, List.append_nil] at hr
  rw [List.append_nil] at hdecode
  rw [decodeRef, hdecode, Text.percentDecode, Text.percentDecodeFrom, List.append_nil, hreplace,
    hreplace]

/-! ## The entry of an `$id` -/

/-- A key that is no path is written by the positions with this name. -/
theorem registers_named_iff {k : RString} (hk : ∀ s, k ≠ str "#" ++ s) {q : Position}
    (hq : q ∈ positionsOf rt customFormats doc) : q.Registers rt k ↔ Named rt k q := by
  rw [registers_iff, Named, Placed]
  constructor
  · rintro (hpath | hnamed)
    · rw [positionsOf_path q hq, rootPathStr] at hpath
      exact absurd hpath (hk _)
    · exact hnamed
  · exact .inr

/-- The entry of a key that is no path. -/
theorem entry_named_iff {k : RString} (hk : ∀ s, k ≠ str "#" ++ s) {a : Addr} :
    (keysOf rt customFormats doc).reverse.lookup k = some a ↔
      ∃ q, IsLast (Named rt k) (positionsOf rt customFormats doc) q ∧ q.addr = a := by
  rw [entry_iff]
  refine exists_congr fun q => and_congr_left fun _ => ?_
  exact isLast_congr fun p hp => registers_named_iff hk hp

/-- The names of the schema with the `$id`: the `$id` itself, and the key of its place. -/
theorem named_iff_of_absolute {k : RString} {q : Position} (hid : q.idVal = some u)
    (habs : isAbsolute u = true) : Named rt k q ↔ k = u ∨ Placed k q := by
  have hm : q.members ≠ [] := by
    intro hm
    rw [idVal, hm] at hid
    exact absurd hid (by simp [stringKeyword, Value.aref, Value.get])
  have hres : resolveIdAgainstParentBase rt q.ctx u = u := by
    rw [resolveIdAgainstParentBase, if_pos habs]
  rw [Named, hid, Option.map_some, hres, Option.some.injEq, eq_comm (a := u)]
  constructor
  · rintro ⟨-, h | h | h⟩
    · exact .inl h
    · exact .inl h
    · exact .inr h
  · rintro (h | h)
    · exact ⟨hm, .inl h⟩
    · exact ⟨hm, .inr (.inr h)⟩

/-! ## References -/

/-- The target of a reference by an absolute URI is the last position with the decoded name. -/
theorem absolute_target (h : compileDocument rt customFormats doc = .ok (root, refData))
    (hc : root.Reach c) (habs : isAbsolute u = true) (href : c.refVal = some u) {a : Addr} :
    refTarget refData c.refVal c.resolvedRefVal = .ok (some a) ↔
      ∃ q, IsLast (Named rt (decodeRef u)) (positionsOf rt customFormats doc) q ∧ q.addr = a := by
  obtain ⟨rfl, hcovers⟩ := compileDocument_spec h
  obtain ⟨p, hp, hm⟩ := hcovers.1 c hc
  have hresolved : c.resolvedRefVal = some u := by
    have href' := href
    rw [hm.refVal, resolved_refVal] at href'
    rw [hm.resolvedRefVal, resolved_resolvedRefVal, href', Option.bind_some,
      resolveRefAgainstParentBase, if_pos habs]
  rw [hresolved, href, refTarget_eq_ok, Option.getD_some]
  simp only [ne_eq, not_true_eq_false, false_and, and_false, or_false]
  exact entry_named_iff (decodeRef_ne_pointer habs)

/-- The positions at the place of an object with an `$id` carry the `$id`. -/
theorem idVal_of_addr (hd : Distinct doc) (hv : At doc ts (.hash kvs))
    (hid : stringKeyword kvs idStr = some u) {q : Position}
    (hq : q ∈ positionsOf rt customFormats doc) (ha : q.addr = ts) : q.idVal = some u := by
  obtain ⟨-, hvalue | hvalue⟩ := compiledFrom_of_addr hd hq ha hv
  all_goals
    rw [idVal, members, hvalue]
    exact hid

/-- **References by an `$id`.** A reference by the absolute `$id` of the object at the tokens `ts`
leads to the schema compiled from the object exactly when one is compiled there, decoding leaves the
`$id` as it is or gives the key of the place, and no schema compiled later has the decoded `$id` as
a name. -/
theorem idRef_iff (hd : Distinct doc)
    (h : compileDocument rt customFormats doc = .ok (root, refData)) (hc : root.Reach c)
    (hv : At doc ts (.hash kvs)) (hid : stringKeyword kvs idStr = some u)
    (habs : isAbsolute u = true) (href : c.refVal = some u) :
    refTarget refData c.refVal c.resolvedRefVal = .ok (some ts) ↔
      (∃ q ∈ positionsOf rt customFormats doc, q.addr = ts ∧
        (decodeRef u = u ∨ Placed (decodeRef u) q)) ∧
      ∀ q, IsLast (Named rt (decodeRef u)) (positionsOf rt customFormats doc) q → q.addr = ts := by
  rw [absolute_target h hc habs href]
  constructor
  · rintro ⟨q, hq, ha⟩
    refine ⟨⟨q, hq.mem, ha, ?_⟩, ?_⟩
    · exact (named_iff_of_absolute (idVal_of_addr hd hv hid hq.mem ha) habs).1 hq.holds
    · rintro q' hq'
      rw [hq'.unique hq, ha]
  · rintro ⟨⟨q, hq, ha, hnames⟩, hlast⟩
    have hnamed : Named rt (decodeRef u) q :=
      (named_iff_of_absolute (idVal_of_addr hd hv hid hq ha) habs).2 hnames
    obtain ⟨q', hq'⟩ := exists_isLast hq hnamed
    exact ⟨q', hq', hlast q' hq'⟩

/-- A schema in `definitions` whose `$id` has an encoded letter, and a reference to it. -/
def encodedId : Value :=
  .object [("$ref", .str (str "http://x/%41")),
    ("definitions", .object [("t", .object [("$id", .str (str "http://x/%41"))])])]

/-- A schema whose `$id` has no encoded letter, and a reference to it. -/
def literalId : Value :=
  .object [("$ref", .str (str "http://x/A")),
    ("definitions", .object [("t", .object [("$id", .str (str "http://x/A"))])])]

theorem idRef_iff_literalId :
    ∃ root refData, compileDocument .bare none literalId = .ok (root, refData) ∧
      (refTarget refData root.refVal root.resolvedRefVal
        = .ok (some [str "definitions", str "t"]) ↔
      (∃ q ∈ positionsOf .bare none literalId, q.addr = [str "definitions", str "t"] ∧
        (decodeRef (str "http://x/A") = str "http://x/A" ∨
          Placed (decodeRef (str "http://x/A")) q)) ∧
      ∀ q, IsLast (Named .bare (decodeRef (str "http://x/A")))
        (positionsOf .bare none literalId) q → q.addr = [str "definitions", str "t"]) :=
  ⟨_, _, rfl, idRef_iff (by decide) rfl .root (.member rfl (.member rfl (.here _))) rfl rfl rfl⟩

/-- The `$id` of the definition is absolute and no other schema has it, but the reference is not
resolved. -/
theorem idRef_unresolved :
    isAbsolute (str "http://x/%41") = true ∧
      At encodedId [str "definitions", str "t"] (.object [("$id", .str (str "http://x/%41"))]) ∧
      (∀ q ∈ positionsOf .bare none encodedId, q.addr ≠ [str "definitions", str "t"] →
        q.idVal = none) ∧
      compileSchema .bare none encodedId = .error (.unresolvedRef (str "http://x/%41")) :=
  ⟨rfl, .member rfl (.member rfl (.here _)), by decide, rfl⟩

/-- **A plain `$id` is found** wherever a schema is compiled from the object that carries it, when
no other `$id` reads or resolves to it. -/
theorem idRef_of_plain (hd : Distinct doc)
    (h : compileDocument rt customFormats doc = .ok (root, refData)) (hc : root.Reach c)
    (hv : At doc ts (.hash kvs)) (hid : stringKeyword kvs idStr = some u) (hu : PlainUri u)
    (honly : ∀ q ∈ positionsOf rt customFormats doc, q.addr ≠ ts →
      q.idVal ≠ some u ∧ q.idVal.map (resolveIdAgainstParentBase rt q.ctx) ≠ some u)
    (hq : ∃ q ∈ positionsOf rt customFormats doc, q.addr = ts) (href : c.refVal = some u) :
    refTarget refData c.refVal c.resolvedRefVal = .ok (some ts) := by
  obtain ⟨q, hq, ha⟩ := hq
  have hnamed : Named rt u q :=
    (named_iff_of_absolute (idVal_of_addr hd hv hid hq ha) hu.absolute).2 (.inl rfl)
  rw [absolute_target h hc hu.absolute href, decodeRef_of_plain hu]
  obtain ⟨q', hq'⟩ := exists_isLast hq hnamed
  refine ⟨q', hq', ?_⟩
  by_contra hne
  obtain ⟨hnid, hnres⟩ := honly q' hq'.mem hne
  obtain ⟨-, hnamed | hnamed | ⟨base, ptr, -, -, -, hkey⟩⟩ := hq'.holds
  · exact hnid hnamed
  · exact hnres hnamed
  · -- the key of a place has a `#`
    apply hu.hash
    rw [hkey]
    simp [show str "#" = [0x23] from rfl]

end

end FastJsonSchema
