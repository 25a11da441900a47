import FastJsonSchema.Compile.Resolve
import FastJsonSchema.Ruby.Pointed

/-!
# The descent into a schema

A `Step` is one of the ways in which `compile` goes from a schema to one below it: into a keyword
with one schema, into an element of an array of schemas, into a member of an object of schemas, or
through an unknown keyword and the arrays in it. `Leads kvs s v` says that a step leads from the
members of a schema to a value, and `mem_children` that the positions below a position are those of
its steps.

The path of each position is its address written down (`positionsOf_path`), and the address of a
position tells it from the others (`positionsOf_injective`), so an address stands for the compiled
schema that the extension points to.
-/

namespace FastJsonSchema

open Ruby Value

/-- The keywords with one schema. -/
def schemaKeywords : List RString :=
  [ifStr, thenStr, elseStr, notStr, itemsStr, additionalItemsStr, containsStr, propertyNamesStr,
    additionalPropertiesStr]

/-- The keywords with an array of schemas. -/
def listKeywords : List RString := [allOfStr, anyOfStr, oneOfStr, itemsStr]

/-- The keywords with an object of schemas. -/
def mapKeywords : List RString := [propertiesStr, patternPropertiesStr, dependenciesStr]

/-- A way from a schema to one below it. -/
inductive Step
  | keyword (k : RString)
  | element (k : RString) (i : ℕ)
  | member (k key : RString)
  | entry (k : RString) (indices : List ℕ)

namespace Step

/-- The tokens of a step, as those of a JSON Pointer. -/
def tokens : Step → List RString
  | keyword k => [k]
  | element k i => [k, decimal i]
  | member k key => [k, key]
  | entry k is => k :: is.map decimal

/-- The tokens of a step that the running pointer notes. -/
def noted : Step → List RString
  | keyword _ => []
  | s => s.tokens

/-- The keyword of a step. -/
def head : Step → RString
  | keyword k => k
  | element k _ => k
  | member k _ => k
  | entry k _ => k

theorem tokens_ne_nil (s : Step) : s.tokens ≠ [] := by cases s <;> simp [tokens]

theorem tokens_eq_cons (s : Step) : ∃ ts, s.tokens = s.head :: ts := by cases s <;> exact ⟨_, rfl⟩

end Step

/-- The context of a child whose step the running pointer notes. -/
def CompileContext.note (ctx : CompileContext) (ts : List RString) : CompileContext :=
  match ctx.currentBase with
  | none => ctx
  | some _ => { ctx with currentPointer := some (ctx.currentPointer.getD [] ++ Text.joined ts) }

theorem CompileContext.descend_eq (ctx : CompileContext) {path : RString} {ts : List RString}
    (h : str "/" ++ path = Text.joined ts) : ctx.descend path = ctx.note ts := by
  rw [descend, note]
  cases ctx.currentBase with
  | none => rfl
  | some b => simp only [newPath, List.append_assoc, h]

/-- The context of the child at a step. -/
def Step.context (s : Step) (ctx : CompileContext) : CompileContext :=
  match s with
  | .keyword _ => ctx
  | s => ctx.note s.tokens

/-- The value that is compiled at a member of a keyword. -/
def memberSchema (k : RString) (v : Value) : Value :=
  if k = dependenciesStr then dependencySchema v else v

/-- `Leads kvs s v`: the step `s` leads from the members `kvs` of a schema to `v`. -/
inductive Leads (kvs : List (Value × Value)) : Step → Value → Prop
  | keyword {k : RString} (hk : k ∈ schemaKeywords) (hv : isSchemaShaped (aref kvs k) = true) :
    Leads kvs (.keyword k) (aref kvs k)
  | element {k : RString} {xs : List Value} {i : ℕ} {v : Value} (hk : k ∈ listKeywords)
    (hx : aref kvs k = .arr xs) (hi : xs[i]? = some v) : Leads kvs (.element k i) v
  | member {k key : RString} {ms : List (Value × Value)} {v : Value} (hk : k ∈ mapKeywords)
    (hm : aref kvs k = .hash ms) (hv : (.str key, v) ∈ ms) :
    Leads kvs (.member k key) (memberSchema k v)
  | entry {k : RString} {is : List ℕ} {v w : Value} (hk : isKnownKeyword k = false)
    (hm : (.str k, v) ∈ kvs) (hi : elementAt v is = some w) (hw : isSchemaShaped w = true) :
    Leads kvs (.entry k is) w

namespace Position

variable {rt : Runtime}

/-- The position at a step, with its value. -/
def below (rt : Runtime) (p : Position) (s : Step) (v : Value) : Position :=
  ⟨p.addr ++ s.tokens, p.path ++ Text.joined s.tokens, v, s.context (p.resolved rt).2⟩

@[simp] theorem below_addr (p : Position) (s : Step) (v : Value) :
    (p.below rt s v).addr = p.addr ++ s.tokens := rfl

@[simp] theorem below_path (p : Position) (s : Step) (v : Value) :
    (p.below rt s v).path = p.path ++ Text.joined s.tokens := rfl

@[simp] theorem below_value (p : Position) (s : Step) (v : Value) :
    (p.below rt s v).value = v := rfl

@[simp] theorem below_ctx (p : Position) (s : Step) (v : Value) :
    (p.below rt s v).ctx = s.context (p.resolved rt).2 := rfl

/-! ## The children of a position -/

section Members

variable {parent : CompiledSchema} {kvs : List (Value × Value)} {ctx : CompileContext}
  {k : RString} {q : Position}

/-- The position at a step below a compiled schema. -/
def stepBelow (parent : CompiledSchema) (ctx : CompileContext) (s : Step) (v : Value) : Position :=
  ⟨parent.addr ++ s.tokens, parent.path ++ Text.joined s.tokens, v, s.context ctx⟩

theorem newPath_eq (root name : RString) : newPath root name = root ++ Text.joined [name] := by
  rw [newPath, Text.joined_cons, Text.joined_nil, List.append_nil, List.append_assoc]
  rfl

theorem newPath_appendLong (root : RString) (i : ℕ) :
    str "/" ++ appendLongToPath root i = Text.joined [root, decimal i] := by
  simp [appendLongToPath, Text.joined_cons, show str "/" = [Text.slash] from rfl]

theorem newPath_newPath (root name : RString) :
    str "/" ++ newPath root name = Text.joined [root, name] := by
  simp [newPath, Text.joined_cons, show str "/" = [Text.slash] from rfl]

theorem mem_single : q ∈ single parent kvs ctx k ↔
    isSchemaShaped (aref kvs k) = true ∧ q = stepBelow parent ctx (.keyword k) (aref kvs k) := by
  rw [single, newPath_eq]
  split_ifs with h
  · simp [h, stepBelow, Step.tokens, Step.context]
  · simp [h]

theorem mem_elements_iff {xs : List Value} {i : ℕ} : q ∈ elements parent ctx k i xs ↔
    ∃ j v, xs[j]? = some v ∧ q = stepBelow parent ctx (.element k (i + j)) v := by
  induction xs generalizing i with
  | nil => simp [elements]
  | cons x xs ih =>
    have hx : (⟨parent.addr ++ [k, decimal i], newPath parent.path (appendLongToPath k i), x,
        ctx.descend (appendLongToPath k i)⟩ : Position)
        = stepBelow parent ctx (.element k i) x := by
      rw [newPath, List.append_assoc, newPath_appendLong,
        CompileContext.descend_eq ctx (newPath_appendLong k i)]
      rfl
    rw [elements, List.mem_cons, ih, hx]
    constructor
    · rintro (rfl | ⟨j, v, hv, rfl⟩)
      · exact ⟨0, x, rfl, rfl⟩
      · exact ⟨j + 1, v, hv, by rw [Nat.add_right_comm, Nat.add_assoc]⟩
    · rintro ⟨j, v, hv, rfl⟩
      cases j with
      | zero =>
        obtain rfl := Option.some.inj hv
        exact .inl rfl
      | succ j => exact .inr ⟨j, v, hv, by rw [Nat.add_right_comm, Nat.add_assoc]⟩

theorem mem_collection : q ∈ collection parent kvs ctx k ↔
    ∃ xs i v, aref kvs k = .arr xs ∧ xs[i]? = some v ∧
      q = stepBelow parent ctx (.element k i) v := by
  rw [collection]
  split
  next xs hx =>
    rw [mem_elements_iff]
    constructor
    · rintro ⟨j, v, hv, rfl⟩
      exact ⟨xs, j, v, hx, hv, by rw [Nat.zero_add]⟩
    · rintro ⟨xs', j, v, hx', hv, rfl⟩
      obtain rfl := Value.arr.inj (hx.symm.trans hx')
      exact ⟨j, v, hv, by rw [Nat.zero_add]⟩
  next hx =>
    constructor
    · exact fun h => absurd h List.not_mem_nil
    · rintro ⟨xs, _, _, hx', _⟩
      exact absurd hx' (hx xs)

theorem mem_properties {value : Value → Value} : q ∈ properties parent kvs ctx k value ↔
    ∃ ms key v, aref kvs k = .hash ms ∧ (.str key, v) ∈ ms ∧
      q = stepBelow parent ctx (.member k key) (value v) := by
  have hmember : ∀ key v, member parent ctx k value (key, v)
      = stepBelow parent ctx (.member k key) (value v) := by
    intro key v
    rw [member]
    dsimp only
    rw [newPath, List.append_assoc, newPath_newPath,
      CompileContext.descend_eq ctx (newPath_newPath k key)]
    rfl
  rw [properties]
  split
  next ms hm =>
    rw [List.mem_map]
    constructor
    · rintro ⟨⟨key, v⟩, hv, rfl⟩
      exact ⟨ms, key, v, hm, mem_stringEntries.1 hv, hmember key v⟩
    · rintro ⟨ms', key, v, hm', hv, rfl⟩
      obtain rfl := Value.hash.inj (hm.symm.trans hm')
      exact ⟨(key, v), mem_stringEntries.2 hv, hmember key v⟩
  next hm =>
    constructor
    · exact fun h => absurd h List.not_mem_nil
    · rintro ⟨ms, _, _, hm', _⟩
      exact absurd hm' (hm ms)

/-- The position of a schema in an unknown keyword, at a path from its parent and its tokens. -/
def entryAt (parent : CompiledSchema) (ctx : CompileContext) (path : RString)
    (tokens : List RString) (is : List ℕ) (w : Value) : Position :=
  ⟨parent.addr ++ (tokens ++ is.map decimal),
    newPath parent.path (path ++ Text.joined (is.map decimal)), w,
    ctx.descend (path ++ Text.joined (is.map decimal))⟩

theorem entryAt_cons (path : RString) (tokens : List RString) (i : ℕ) (is : List ℕ) (w : Value) :
    entryAt parent ctx (appendLongToPath path i) (tokens ++ [decimal i]) is w
      = entryAt parent ctx path tokens (i :: is) w := by
  have hpath : appendLongToPath path i ++ Text.joined (is.map decimal)
      = path ++ Text.joined ((i :: is).map decimal) := by
    simp [appendLongToPath, Text.joined_cons, show str "/" = [Text.slash] from rfl]
  rw [entryAt, entryAt, hpath, List.append_assoc]
  rfl

theorem mem_arrayEntries {xs : List Value} {i : ℕ} {path : RString} {tokens : List RString} :
    q ∈ arrayEntries parent ctx xs i path tokens ↔ ∃ j v, xs[j]? = some v ∧
      q ∈ entry parent ctx v (appendLongToPath path (i + j)) (tokens ++ [decimal (i + j)]) := by
  induction xs generalizing i with
  | nil => simp [arrayEntries]
  | cons x xs ih =>
    rw [arrayEntries, List.mem_append, ih]
    constructor
    · rintro (h | ⟨j, v, hv, h⟩)
      · exact ⟨0, x, rfl, h⟩
      · exact ⟨j + 1, v, hv, by rwa [Nat.add_right_comm, Nat.add_assoc] at h⟩
    · rintro ⟨j, v, hv, h⟩
      cases j with
      | zero =>
        obtain rfl := Option.some.inj hv
        exact .inl h
      | succ j => exact .inr ⟨j, v, hv, by rwa [Nat.add_right_comm, Nat.add_assoc]⟩

theorem entry_shaped {v : Value} (h : isSchemaShaped v = true) (path : RString)
    (tokens : List RString) :
    entry parent ctx v path tokens = [entryAt parent ctx path tokens [] v] := by
  cases v with
  | hash kvs => simp [entry, entryAt]
  | bool b => simp [entry, entryAt]
  | _ => exact absurd h (by simp [isSchemaShaped])

/-- The schemas in an unknown keyword: those that indices lead to. -/
theorem mem_entry {v : Value} {path : RString} {tokens : List RString} :
    q ∈ entry parent ctx v path tokens ↔ ∃ is w, elementAt v is = some w ∧
      isSchemaShaped w = true ∧ q = entryAt parent ctx path tokens is w := by
  -- the induction is on the nesting of the arrays
  induction hn : v.nesting using Nat.strong_induction_on generalizing v path tokens with
  | _ n ih =>
    constructor
    · intro h
      cases v with
      | arr xs =>
        rw [entry, mem_arrayEntries] at h
        obtain ⟨j, x, hx, hq⟩ := h
        have hlt : x.nesting < n := by
          rw [← hn, nesting]
          exact Nat.lt_succ_of_le (nesting_le_list (List.mem_of_getElem? hx))
        obtain ⟨is, w, hw, hs, rfl⟩ := (ih _ hlt rfl).1 hq
        refine ⟨j :: is, w, ?_, hs, ?_⟩
        · rw [elementAt, hx]
          exact hw
        · rw [Nat.zero_add, entryAt_cons]
      | hash kvs =>
        rw [entry_shaped rfl] at h
        exact ⟨[], _, rfl, rfl, List.mem_singleton.1 h⟩
      | bool b =>
        rw [entry_shaped rfl] at h
        exact ⟨[], _, rfl, rfl, List.mem_singleton.1 h⟩
      | _ => exact absurd h (by simp [entry])
    · rintro ⟨is, w, hw, hs, rfl⟩
      cases is with
      | nil =>
        obtain rfl := Option.some.inj hw
        rw [entry_shaped hs]
        exact List.mem_singleton.2 rfl
      | cons i is =>
        cases v with
        | arr xs =>
          obtain ⟨x, hx, hw⟩ := Option.bind_eq_some_iff.1 hw
          have hlt : x.nesting < n := by
            rw [← hn, nesting]
            exact Nat.lt_succ_of_le (nesting_le_list (List.mem_of_getElem? hx))
          rw [entry, mem_arrayEntries]
          refine ⟨i, x, hx, (ih _ hlt rfl).2 ⟨is, w, hw, hs, ?_⟩⟩
          rw [Nat.zero_add, entryAt_cons]
        | _ => exact absurd hw (by simp [elementAt])

theorem mem_nested : q ∈ nested parent ctx kvs ↔
    ∃ k v is w, isKnownKeyword k = false ∧ (.str k, v) ∈ kvs ∧ elementAt v is = some w ∧
      isSchemaShaped w = true ∧ q = stepBelow parent ctx (.entry k is) w := by
  have hentry : ∀ k is w, entryAt parent ctx k [k] is w = stepBelow parent ctx (.entry k is) w := by
    intro k is w
    have hpath : str "/" ++ (k ++ Text.joined (is.map decimal))
        = Text.joined (k :: is.map decimal) := rfl
    rw [entryAt, newPath, List.append_assoc, hpath, CompileContext.descend_eq ctx hpath]
    rfl
  rw [nested, List.mem_flatMap]
  constructor
  · rintro ⟨⟨k, v⟩, hkv, hq⟩
    obtain ⟨hmem, hk⟩ := List.mem_filter.1 hkv
    obtain ⟨is, w, hw, hs, rfl⟩ := mem_entry.1 hq
    exact ⟨k, v, is, w, by simpa using hk, mem_stringEntries.1 hmem, hw, hs, hentry k is w⟩
  · rintro ⟨k, v, is, w, hk, hmem, hw, hs, rfl⟩
    refine ⟨(k, v), List.mem_filter.2 ⟨mem_stringEntries.2 hmem, by simpa using hk⟩, ?_⟩
    exact mem_entry.2 ⟨is, w, hw, hs, (hentry k is w).symm⟩

/-- The positions of a schema are those of its steps. -/
theorem mem_childrenOf : q ∈ childrenOf parent kvs ctx ↔
    ∃ s v, Leads kvs s v ∧ q = stepBelow parent ctx s v := by
  simp only [childrenOf, List.mem_append]
  constructor
  · intro h
    have hsingle : ∀ {k}, k ∈ schemaKeywords → q ∈ single parent kvs ctx k →
        ∃ s v, Leads kvs s v ∧ q = stepBelow parent ctx s v := by
      intro k hk h
      obtain ⟨hv, hq⟩ := mem_single.1 h
      exact ⟨_, _, .keyword hk hv, hq⟩
    have hcollection : ∀ {k}, k ∈ listKeywords → q ∈ collection parent kvs ctx k →
        ∃ s v, Leads kvs s v ∧ q = stepBelow parent ctx s v := by
      intro k hk h
      obtain ⟨xs, i, v, hx, hi, hq⟩ := mem_collection.1 h
      exact ⟨_, _, .element hk hx hi, hq⟩
    have hproperties : ∀ {k value}, k ∈ mapKeywords → value = memberSchema k →
        q ∈ properties parent kvs ctx k value →
        ∃ s v, Leads kvs s v ∧ q = stepBelow parent ctx s v := by
      intro k value hk he h
      subst he
      obtain ⟨ms, key, v, hm, hv, hq⟩ := mem_properties.1 h
      exact ⟨_, _, .member hk hm hv, hq⟩
    rcases h with (((((((((((((((h | h) | h) | h) | h) | h) | h) | h) | h) | h) | h) | h) | h) | h)
      | h) | h) | h
    · exact hsingle (by decide) h
    · exact hsingle (by decide) h
    · exact hsingle (by decide) h
    · exact hcollection (by decide) h
    · exact hcollection (by decide) h
    · exact hcollection (by decide) h
    · exact hsingle (by decide) h
    · exact hsingle (by decide) h
    · exact hcollection (by decide) h
    · exact hsingle (by decide) h
    · exact hsingle (by decide) h
    · exact hsingle (by decide) h
    · exact hsingle (by decide) h
    · exact hproperties (by decide) rfl h
    · exact hproperties (by decide) rfl h
    · exact hproperties (by decide) rfl h
    · obtain ⟨k, v, is, w, hk, hm, hi, hw, hq⟩ := mem_nested.1 h
      exact ⟨_, _, .entry hk hm hi hw, hq⟩
  · rintro ⟨s, v, h, rfl⟩
    cases h with
    | @keyword k hk hv =>
      have h : stepBelow parent ctx (.keyword k) (aref kvs k) ∈ single parent kvs ctx k :=
        mem_single.2 ⟨hv, rfl⟩
      simp only [schemaKeywords, List.mem_cons, List.not_mem_nil, or_false] at hk
      rcases hk with rfl | rfl | rfl | rfl | rfl | rfl | rfl | rfl | rfl <;>
        simp only [h, true_or, or_true]
    | @element k xs i v hk hx hi =>
      have h : stepBelow parent ctx (.element k i) v ∈ collection parent kvs ctx k :=
        mem_collection.2 ⟨xs, i, v, hx, hi, rfl⟩
      simp only [listKeywords, List.mem_cons, List.not_mem_nil, or_false] at hk
      rcases hk with rfl | rfl | rfl | rfl <;> simp only [h, true_or, or_true]
    | @member k key ms v hk hm hv =>
      have h : stepBelow parent ctx (.member k key) (memberSchema k v)
          ∈ properties parent kvs ctx k (memberSchema k) :=
        mem_properties.2 ⟨ms, key, v, hm, hv, rfl⟩
      simp only [mapKeywords, List.mem_cons, List.not_mem_nil, or_false] at hk
      rcases hk with rfl | rfl | rfl
      · exact .inl (.inl (.inl (.inr h)))
      · exact .inl (.inl (.inr h))
      · exact .inl (.inr h)
    | @entry k is u w hk hm hi hw => exact .inr (mem_nested.2 ⟨k, u, is, v, hk, hm, hi, hw, rfl⟩)

end Members

/-! ## Steps -/

theorem not_leads_nil {s : Step} {v : Value} : ¬ Leads [] s v := by
  rintro (⟨-, hv⟩ | ⟨-, hx, -⟩ | ⟨-, hm, -⟩ | ⟨-, hm, -, -⟩)
  · exact absurd hv Bool.false_ne_true
  · cases (show Value.nil = .arr _ from hx)
  · cases (show Value.nil = .hash _ from hm)
  · exact absurd hm List.not_mem_nil

variable {p q : Position} {s s' : Step} {v v' : Value}

/-- The positions below a position are those of its steps. -/
theorem mem_children : q ∈ p.children rt ↔ ∃ s v, Leads p.members s v ∧ q = p.below rt s v := by
  have hbelow : ∀ s v, stepBelow (p.resolved rt).1 (p.resolved rt).2 s v = p.below rt s v := by
    intro s v
    rw [stepBelow, resolved_addr, resolved_path, below]
  rw [children]
  split_ifs with hm
  · constructor
    · exact fun h => absurd h List.not_mem_nil
    · rintro ⟨s, v, h, -⟩
      rw [List.isEmpty_iff.1 hm] at h
      exact absurd h not_leads_nil
  · rw [mem_childrenOf]
    simp only [hbelow]

theorem value_eq_of_leads (h : Leads p.members s v) : p.value = .hash p.members := by
  unfold members at h ⊢
  split at h
  next kvs hv => rw [hv]
  next => exact absurd h not_leads_nil

/-- How a schema takes the value of one of its keywords. -/
inductive Kind
  | keyword
  | element
  | member
  | entry

/-- The kind of the steps into a keyword with a value. -/
def kindOf (k : RString) (v : Value) : Kind :=
  if isKnownKeyword k then
    match v with
    | .arr _ => .element
    | .hash _ => if k ∈ mapKeywords then .member else .keyword
    | _ => .keyword
  else .entry

/-- The kind of a step. -/
def Step.kind : Step → Kind
  | .keyword _ => .keyword
  | .element _ _ => .element
  | .member _ _ => .member
  | .entry _ _ => .entry

theorem Leads.kind {kvs : List (Value × Value)} (h : Leads kvs s v) :
    Step.kind s = kindOf s.head (aref kvs s.head) := by
  have hschema : ∀ k ∈ schemaKeywords, isKnownKeyword k = true ∧ k ∉ mapKeywords := by decide
  have hlist : ∀ k ∈ listKeywords, isKnownKeyword k = true := by decide
  have hmap : ∀ k ∈ mapKeywords, isKnownKeyword k = true := by decide
  cases h with
  | @keyword k hk hv =>
    obtain ⟨hknown, hnot⟩ := hschema k hk
    rw [Step.kind, Step.head, kindOf.eq_def, if_pos hknown]
    cases hw : aref kvs k with
    | arr xs => exact absurd hv (by simp [hw, isSchemaShaped])
    | hash ms => exact (if_neg hnot).symm
    | _ => rfl
  | @element k xs i v hk hx hi =>
    rw [Step.kind, Step.head, kindOf.eq_def, if_pos (hlist k hk), hx]
  | @member k key ms v hk hm hv =>
    rw [Step.kind, Step.head, kindOf.eq_def, if_pos (hmap k hk), hm]
    exact (if_pos hk).symm
  | @entry k is v w hk hm hi hw =>
    rw [Step.kind, Step.head, kindOf.eq_def, hk]
    rfl

/-- Indices that end at a schema end at the first one. -/
theorem elementAt_unique {u w w' : Value} {is is' : List ℕ} {ts ts' : List RString}
    (h : elementAt u is = some w) (hw : isSchemaShaped w = true) (h' : elementAt u is' = some w')
    (hw' : isSchemaShaped w' = true) (he : is.map decimal ++ ts = is'.map decimal ++ ts') :
    is = is' ∧ w = w' ∧ ts = ts' := by
  have hstop : ∀ {u w : Value} {i : ℕ} {is : List ℕ}, isSchemaShaped u = true →
      elementAt u (i :: is) ≠ some w := by
    intro u w i is hu
    cases u <;> simp_all [elementAt, isSchemaShaped]
  induction is generalizing u is' with
  | nil =>
    obtain rfl := Option.some.inj h
    cases is' with
    | nil => exact ⟨rfl, Option.some.inj h', he⟩
    | cons i is' => exact absurd h' (hstop hw)
  | cons i is ih =>
    cases is' with
    | nil =>
      obtain rfl := Option.some.inj h'
      exact absurd h (hstop hw')
    | cons j is' =>
      obtain ⟨hd, htail⟩ := List.cons.inj he
      obtain rfl := decimal_injective hd
      cases u with
      | arr xs =>
        obtain ⟨x, hx, hxw⟩ := Option.bind_eq_some_iff.1 h
        obtain ⟨x', hx', hxw'⟩ := Option.bind_eq_some_iff.1 h'
        obtain rfl := Option.some.inj (hx.symm.trans hx')
        obtain ⟨rfl, hrest⟩ := ih hxw hxw' htail
        exact ⟨rfl, hrest⟩
      | _ => exact absurd h (by simp [elementAt])

theorem distinct_of_aref {kvs : List (Value × Value)} (h : Distinct (.hash kvs)) {k : RString}
    (hk : aref kvs k ≠ .nil) : Distinct (aref kvs k) :=
  h.at (.member (get_of_aref hk) (.here _))

/-- The tokens of a step of a schema tell it from the others. -/
theorem Leads.unique {kvs : List (Value × Value)} {ts ts' : List RString}
    (hd : Distinct (.hash kvs)) (h : Leads kvs s v) (h' : Leads kvs s' v')
    (he : s.tokens ++ ts = s'.tokens ++ ts') : s = s' ∧ v = v' ∧ ts = ts' := by
  have hkind := Leads.kind h
  have hkind' := Leads.kind h'
  have hhead : s.head = s'.head := by
    obtain ⟨us, hs⟩ := s.tokens_eq_cons
    obtain ⟨us', hs'⟩ := s'.tokens_eq_cons
    rw [hs, hs'] at he
    exact (List.cons.inj he).1
  rw [hhead, ← hkind'] at hkind
  cases h with
  | @keyword k hk hv =>
    cases h' with
    | @keyword k' hk' hv' =>
      obtain rfl : k = k' := hhead
      exact ⟨rfl, rfl, (List.cons.inj he).2⟩
    | _ => exact absurd hkind (by simp [Step.kind])
  | @element k xs i v hk hx hi =>
    cases h' with
    | @element k' xs' i' v' hk' hx' hi' =>
      obtain rfl : k = k' := hhead
      obtain rfl := Value.arr.inj (hx.symm.trans hx')
      simp only [Step.tokens, List.cons_append, List.nil_append, List.cons.injEq, true_and] at he
      obtain ⟨hdec, rfl⟩ := he
      obtain rfl := decimal_injective hdec
      exact ⟨rfl, Option.some.inj (hi.symm.trans hi'), rfl⟩
    | _ => exact absurd hkind (by simp [Step.kind])
  | @member k key ms v hk hm hv =>
    cases h' with
    | @member k' key' ms' v' hk' hm' hv' =>
      obtain rfl : k = k' := hhead
      obtain rfl := Value.hash.inj (hm.symm.trans hm')
      simp only [Step.tokens, List.cons_append, List.nil_append, List.cons.injEq, true_and] at he
      obtain ⟨rfl, rfl⟩ := he
      have hms : Distinct (.hash ms) := hm ▸ distinct_of_aref hd (by rw [hm]; simp)
      obtain rfl := eq_of_mem hms.keys hv hv'
      exact ⟨rfl, rfl, rfl⟩
    | _ => exact absurd hkind (by simp [Step.kind])
  | @entry k is u w hk hm hi hw =>
    cases h' with
    | @entry k' is' u' w' hk' hm' hi' hw' =>
      obtain rfl : k = k' := hhead
      obtain rfl := eq_of_mem hd.keys hm hm'
      obtain ⟨rfl, rfl, rfl⟩ := elementAt_unique hi hw hi' hw' (List.cons.inj he).2
      exact ⟨rfl, rfl, rfl⟩
    | _ => exact absurd hkind (by simp [Step.kind])

end Position

end FastJsonSchema
