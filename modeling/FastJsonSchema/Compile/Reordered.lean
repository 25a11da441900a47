import FastJsonSchema.Compile.Success
import FastJsonSchema.Ruby.Same
import FastJsonSchema.Schema.Shuffled

/-!
# Documents in another order

Two documents that differ in the order of members only have the same positions, with values that
differ so (`Position.Reordered`): reordered positions write the same keys to the reference table,
the positions below them are reordered, and they are accepted alike. The table itself is another
one, since the last of two positions with the same key has the entry. Where no key that a `$ref`
looks up is written by two positions, the references lead to the same places
(`target_reordered`), and the documents compile or do not (`compileSchema_ok_reordered`).
-/

namespace FastJsonSchema

open Ruby Value Table

/-! ## Keywords -/

section Keywords

variable {kvs kvs' : List (Value × Value)} (h : SameMembers kvs kvs') (keyword : RString)

include h

theorem numberKeyword_same : numberKeyword kvs keyword = numberKeyword kvs' keyword := by
  have haref := (h.aref keyword).alike
  unfold numberKeyword
  generalize Value.aref kvs keyword = v, Value.aref kvs' keyword = w at haref
  cases haref <;> rfl

theorem stringKeyword_same : stringKeyword kvs keyword = stringKeyword kvs' keyword := by
  have haref := (h.aref keyword).alike
  unfold stringKeyword
  generalize Value.aref kvs keyword = v, Value.aref kvs' keyword = w at haref
  cases haref <;> rfl

theorem boolKeyword_same : boolKeyword kvs keyword = boolKeyword kvs' keyword := by
  have haref := (h.aref keyword).alike
  unfold boolKeyword
  generalize Value.aref kvs keyword = v, Value.aref kvs' keyword = w at haref
  cases haref <;> rfl

theorem arrayKeyword_same :
    Option.Rel (List.Forall₂ Same) (arrayKeyword kvs keyword) (arrayKeyword kvs' keyword) := by
  have haref := (h.aref keyword).alike
  unfold arrayKeyword
  generalize Value.aref kvs keyword = v, Value.aref kvs' keyword = w at haref
  cases haref with
  | arr hxs => exact .some hxs
  | _ => exact .none

theorem formatFields_same (customFormats : Option (List (RString × ℕ))) :
    formatFields customFormats (Value.aref kvs keyword)
      = formatFields customFormats (Value.aref kvs' keyword) := by
  have haref := (h.aref keyword).alike
  generalize Value.aref kvs keyword = v, Value.aref kvs' keyword = w at haref
  cases haref <;> rfl

theorem typeValidationFunction_same : typeValidationFunction kvs = typeValidationFunction kvs' := by
  have hparse : ∀ {xs ys : List Value}, List.Forall₂ Same xs ys → ∀ flags,
      parseTypes xs flags = parseTypes ys flags := by
    intro xs ys hxs
    induction hxs with
    | nil => exact fun _ => rfl
    | cons hx _ ih =>
      intro flags
      cases hx.alike with
      | str name =>
        simp only [parseTypes, ih]
      | _ => rfl
  have haref := (h.aref typeStr).alike
  unfold typeValidationFunction
  generalize Value.aref kvs typeStr = v, Value.aref kvs' typeStr = w at haref
  cases haref with
  | arr hxs =>
    have hnil := hxs.length_eq
    simp only [parseTypeArray, hparse hxs, ← List.length_eq_zero_iff, hnil]
  | _ => rfl

end Keywords

/-! ## Steps -/

theorem isSchemaShaped_same {v w : Value} (h : Same v w) : isSchemaShaped v = isSchemaShaped w := by
  cases h.alike <;> rfl

theorem isJson_dependencySchema {v : Value} (h : IsJson v) : IsJson (dependencySchema v) := by
  cases v with
  | arr names =>
    refine .hash ?_ (show [requiredStr, typeStr].Nodup by decide) ?_
    · rintro e (_ | ⟨_, _ | ⟨_, ⟨⟩⟩⟩)
      · exact ⟨_, rfl⟩
      · exact ⟨_, rfl⟩
    · rintro e (_ | ⟨_, _ | ⟨_, ⟨⟩⟩⟩)
      · exact h
      · exact .str _
  | _ => exact h

theorem dependencySchema_same {v w : Value} (h : Same v w) :
    Same (dependencySchema v) (dependencySchema w) := by
  cases h.alike with
  | @arr names names' hnames =>
    refine SameMembers.same_hash ⟨isJson_dependencySchema h.left, isJson_dependencySchema h.right,
      .refl _, fun k v w hv hw => ?_⟩
    simp only [List.mem_cons, Prod.mk.injEq, Value.str.injEq, List.not_mem_nil, or_false] at hv hw
    rcases hv with ⟨rfl, rfl⟩ | ⟨rfl, rfl⟩
    · rcases hw with ⟨-, rfl⟩ | ⟨hk, -⟩
      · exact h
      · exact absurd hk (by decide)
    · rcases hw with ⟨hk, -⟩ | ⟨-, rfl⟩
      · exact absurd hk (by decide)
      · exact .refl (.str _)
  | _ => exact h

theorem elementAt_same {v w x : Value} {is : List ℕ} (h : Same v w) (hx : elementAt v is = some x) :
    ∃ y, elementAt w is = some y ∧ Same x y := by
  induction is generalizing v w with
  | nil =>
    obtain rfl := Option.some.inj hx
    exact ⟨w, rfl, h⟩
  | cons i is ih =>
    cases h.alike with
    | @arr xs ys hxs =>
      obtain ⟨u, hu, hux⟩ := Option.bind_eq_some_iff.1 hx
      obtain ⟨hi, rfl⟩ := List.getElem?_eq_some_iff.1 hu
      have hi' : i < ys.length := hxs.length_eq ▸ hi
      obtain ⟨y, hy, hxy⟩ := ih ((List.forall₂_iff_get.1 hxs).2 i hi hi') hux
      exact ⟨y, Option.bind_eq_some_iff.2 ⟨_, List.getElem?_eq_getElem hi', hy⟩, hxy⟩
    | _ => exact absurd hx (by simp [elementAt])

/-- A step of a schema leads to the same value in another order. -/
theorem leads_same {kvs kvs' : List (Value × Value)} (h : SameMembers kvs kvs') {s : Step}
    {v : Value} (hs : Leads kvs s v) : ∃ w, Leads kvs' s w ∧ Same v w := by
  cases hs with
  | @keyword k hk hv =>
    exact ⟨_, .keyword hk (isSchemaShaped_same (h.aref k) ▸ hv), h.aref k⟩
  | @element k xs i v hk hx hi =>
    have haref := (h.aref k).alike
    rw [hx] at haref
    generalize hw : Value.aref kvs' k = w at haref
    cases haref with
    | @arr _ ys hxs =>
      obtain ⟨hlt, rfl⟩ := List.getElem?_eq_some_iff.1 hi
      have hlt' : i < ys.length := hxs.length_eq ▸ hlt
      exact ⟨_, .element hk hw (List.getElem?_eq_getElem hlt'),
        (List.forall₂_iff_get.1 hxs).2 i hlt hlt'⟩
  | @member k key ms v hk hm hv =>
    have haref := (h.aref k).alike
    rw [hm] at haref
    generalize hw : Value.aref kvs' k = w at haref
    cases haref with
    | @hash _ ms' hms =>
      obtain ⟨u, hu, hsame⟩ := hms.exists_right hv
      refine ⟨_, .member hk hw hu, ?_⟩
      rw [memberSchema, memberSchema]
      split_ifs
      · exact dependencySchema_same hsame
      · exact hsame
  | @entry k is u v hk hm hi hv =>
    obtain ⟨u', hu', hsame⟩ := h.exists_right hm
    obtain ⟨w, hw, hvw⟩ := elementAt_same hsame hi
    exact ⟨w, .entry hk hu' hw (isSchemaShaped_same hvw ▸ hv), hvw⟩

/-! ## Positions -/

/-- Two positions at one place, with values that differ in the order of members only. -/
structure Position.Reordered (p q : Position) : Prop where
  addr : p.addr = q.addr
  path : p.path = q.path
  ctx : p.ctx = q.ctx
  value : Same p.value q.value

namespace Position

section Parts

variable {kvs kvs' : List (Value × Value)} (h : SameMembers kvs kvs') (parent : CompiledSchema)
  (ctx : CompileContext) (keyword : RString)

include h

theorem one_reordered : Option.Rel Reordered (one parent kvs ctx keyword)
    (one parent kvs' ctx keyword) := by
  have hsame := h.aref keyword
  unfold one
  dsimp only
  rw [isSchemaShaped_same hsame]
  split_ifs
  · exact .some ⟨rfl, rfl, rfl, hsame⟩
  · exact .none

theorem many_reordered : Option.Rel (List.Forall₂ Reordered) (many parent kvs ctx keyword)
    (many parent kvs' ctx keyword) := by
  have helements : ∀ {xs ys : List Value}, List.Forall₂ Same xs ys → ∀ i,
      List.Forall₂ Reordered (elements parent ctx keyword i xs)
        (elements parent ctx keyword i ys) := by
    intro xs ys hxs
    induction hxs with
    | nil => exact fun _ => .nil
    | cons hx _ ih => exact fun i => .cons ⟨rfl, rfl, rfl, hx⟩ (ih (i + 1))
  have haref := (h.aref keyword).alike
  unfold many
  generalize Value.aref kvs keyword = v, Value.aref kvs' keyword = w at haref
  cases haref with
  | arr hxs => exact .some (helements hxs 0)
  | _ => exact .none

theorem named_reordered (value : Value → Value) (hvalue : ∀ v w, Same v w →
    Same (value v) (value w)) : Option.Rel (SameKeys Reordered)
      (named parent kvs ctx keyword value) (named parent kvs' ctx keyword value) := by
  have haref := (h.aref keyword).alike
  unfold named
  generalize Value.aref kvs keyword = v, Value.aref kvs' keyword = w at haref
  cases haref with
  | hash hm =>
    refine .some ⟨?_, ?_, ?_⟩
    · rw [List.map_map]
      exact hm.nodup
    · rw [List.map_map, List.map_map]
      exact hm.perm
    · intro k p q hp hq
      obtain ⟨kv, hkv, heq⟩ := List.mem_map.1 hp
      obtain ⟨kv', hkv', heq'⟩ := List.mem_map.1 hq
      obtain ⟨rfl, rfl⟩ := Prod.mk.inj heq
      obtain ⟨hk, rfl⟩ := Prod.mk.inj heq'
      refine ⟨?_, ?_, ?_, hvalue _ _ (hm.same kv.1 _ _ (mem_stringEntries.1 hkv)
        (mem_stringEntries.1 (hk ▸ hkv')))⟩
      all_goals simp only [member, hk]
  | _ => exact .none

end Parts

namespace Reordered

variable {rt : Runtime} {p q : Position} (h : p.Reordered q)

include h

theorem symm : q.Reordered p := ⟨h.addr.symm, h.path.symm, h.ctx.symm, h.value.symm⟩

theorem members : SameMembers p.members q.members := by
  have hvalue := h.value.alike
  unfold Position.members
  generalize p.value = v, q.value = w at hvalue
  cases hvalue with
  | hash hm => exact hm
  | _ => exact .refl (.hash nofun .nil nofun)

theorem resolved_eq : p.resolved rt = q.resolved rt := by
  rw [resolved, resolved, readScope, readScope, h.addr, h.path, h.ctx,
    stringKeyword_same h.members, stringKeyword_same h.members]

theorem keys_eq : p.keys rt = q.keys rt := by
  have hempty : p.members.isEmpty = q.members.isEmpty := by
    rw [Bool.eq_iff_iff, List.isEmpty_iff_length_eq_zero, List.isEmpty_iff_length_eq_zero,
      h.members.length_eq]
  rw [keys, keys, h.path, h.addr, h.ctx, h.resolved_eq, hempty]

theorem below {s : Step} {v w : Value} (hv : Same v w) :
    (p.below rt s v).Reordered (q.below rt s w) := by
  refine ⟨?_, ?_, ?_, hv⟩
  · rw [below_addr, below_addr, h.addr]
  · rw [below_path, below_path, h.path]
  · rw [below_ctx, below_ctx, h.resolved_eq]

/-- The positions under the keywords of reordered positions are reordered. -/
theorem applicators :
    (p.applicators rt).Shuffled Reordered Reordered (q.applicators rt) := by
  have hone := one_reordered h.members (q.resolved rt).1 (q.resolved rt).2
  have hmany := many_reordered h.members (q.resolved rt).1 (q.resolved rt).2
  have hnamed := fun keyword => named_reordered h.members (q.resolved rt).1 (q.resolved rt).2
    keyword id fun _ _ hvw => hvw
  rw [Position.applicators, Position.applicators, h.resolved_eq]
  exact ⟨hone _, hone _, hone _, hone _, hmany _, hmany _, hmany _, hone _, hmany _, hone _,
    hone _, hone _, hnamed _, hnamed _, hone _,
    named_reordered h.members _ _ _ _ fun _ _ => dependencySchema_same⟩

/-- Reordered positions are accepted alike. -/
theorem sound (hp : p.Sound rt) : q.Sound rt := by
  constructor
  · have hown := exists_own_iff.1 hp.own
    rw [h.resolved_eq, formatFields_same h.members, typeValidationFunction_same h.members] at hown
    exact exists_own_iff.2 hown
  · intro e he
    have hpatterns := hp.patterns
    have hshuffled : (p.applicators rt).Shuffled Reordered Reordered (q.applicators rt) :=
      h.applicators
    have hrel := hshuffled.patternProperties
    unfold ValidPatterns at hpatterns
    generalize (p.applicators rt).patternProperties = o, (q.applicators rt).patternProperties = o'
      at hpatterns he hrel
    cases hrel with
    | none => exact absurd he List.not_mem_nil
    | some hm =>
      obtain ⟨r, hr, -⟩ := hm.symm.exists_right he
      exact hpatterns (e.1, r) hr

end Reordered

end Position

/-! ## Documents -/

/-- The keys that `resolve_refs` looks up for the `$ref` of a position. -/
def Position.lookupKeys (rt : Runtime) (p : Position) : List RString :=
  (p.resolved rt).1.refVal.toList.flatMap fun ref =>
    [decodeRef ((p.resolved rt).1.resolvedRefVal.getD ref), decodeRef ref]

/-- No key that a `$ref` looks up is written by two positions. -/
def Unambiguous (rt : Runtime) (customFormats : Option (List (RString × ℕ))) (doc : Value) : Prop :=
  ∀ p ∈ positionsOf rt customFormats doc, ∀ k ∈ p.lookupKeys rt,
    ∀ e ∈ keysOf rt customFormats doc, ∀ e' ∈ keysOf rt customFormats doc,
      e.1 = k → e'.1 = k → e.2 = e'.2

instance (rt : Runtime) (customFormats : Option (List (RString × ℕ))) (doc : Value) :
    Decidable (Unambiguous rt customFormats doc) :=
  inferInstanceAs (Decidable (∀ p ∈ positionsOf rt customFormats doc, ∀ k ∈ p.lookupKeys rt,
    ∀ e ∈ keysOf rt customFormats doc, ∀ e' ∈ keysOf rt customFormats doc,
      e.1 = k → e'.1 = k → e.2 = e'.2))

section Documents

variable {rt : Runtime} {customFormats : Option (List (RString × ℕ))} {doc doc' : Value}

/-- Each position of a document is one of the document in another order. -/
theorem positionsOf_reordered (h : Same doc doc') : ∀ p ∈ positionsOf rt customFormats doc,
    ∃ q ∈ positionsOf rt customFormats doc', p.Reordered q := by
  apply positionsOf_induct
  · exact ⟨_, positionsOf_root, rfl, rfl, rfl, h⟩
  · rintro p - ⟨q, hq, hpq⟩ s v hs
    obtain ⟨w, hw, hvw⟩ := leads_same hpq.members hs
    exact ⟨_, positionsOf_child hq hw, hpq.below hvw⟩

theorem mem_keysOf_reordered (h : Same doc doc') (e : RString × Addr) :
    e ∈ keysOf rt customFormats doc ↔ e ∈ keysOf rt customFormats doc' := by
  have hmono : ∀ {doc doc' : Value}, Same doc doc' → e ∈ keysOf rt customFormats doc →
      e ∈ keysOf rt customFormats doc' := by
    intro doc doc' h he
    obtain ⟨p, hp, hep⟩ := List.mem_flatMap.1 he
    obtain ⟨q, hq, hpq⟩ := positionsOf_reordered h p hp
    exact List.mem_flatMap.2 ⟨q, hq, hpq.keys_eq ▸ hep⟩
  exact ⟨hmono h, hmono h.symm⟩

theorem Position.Reordered.lookupKeys_eq {p q : Position} (h : p.Reordered q) :
    p.lookupKeys rt = q.lookupKeys rt := by
  rw [lookupKeys, lookupKeys, h.resolved_eq]

theorem Unambiguous.reordered (hu : Unambiguous rt customFormats doc) (h : Same doc doc') :
    Unambiguous rt customFormats doc' := by
  intro q hq k hk e he e' he'
  obtain ⟨p, hp, hqp⟩ := positionsOf_reordered h.symm q hq
  exact hu p hp k (hqp.lookupKeys_eq ▸ hk) e ((mem_keysOf_reordered h e).2 he) e'
    ((mem_keysOf_reordered h e').2 he')

/-- **The references of a document lead to the same places in another order.** -/
theorem target_reordered (hu : Unambiguous rt customFormats doc) (h : Same doc doc')
    {p q : Position} (hp : p ∈ positionsOf rt customFormats doc) (hpq : p.Reordered q) :
    p.target rt (keysOf rt customFormats doc).reverse
      = q.target rt (keysOf rt customFormats doc').reverse := by
  have hlookup : ∀ k ∈ p.lookupKeys rt, (keysOf rt customFormats doc).reverse.lookup k
      = (keysOf rt customFormats doc').reverse.lookup k := by
    intro k hk
    apply lookup_eq_of_mem_iff
    · simp only [List.mem_reverse, mem_keysOf_reordered h, implies_true]
    · intro a b ha hb
      exact hu p hp k hk _ (List.mem_reverse.1 ha) _ (List.mem_reverse.1 hb) rfl rfl
  rw [Position.target, Position.target, ← hpq.resolved_eq]
  unfold Position.lookupKeys at hlookup
  generalize (p.resolved rt).1 = cs at hlookup
  cases href : cs.refVal with
  | none => rfl
  | some ref =>
    rw [href] at hlookup
    rw [refTarget, refTarget, hlookup _ (by simp), hlookup _ (by simp)]

/-- **A document compiles in any order of its members or in none.** -/
theorem compileSchema_ok_reordered (hu : Unambiguous rt customFormats doc) (h : Same doc doc') :
    (∃ root, compileSchema rt customFormats doc = .ok root) ↔
      ∃ root, compileSchema rt customFormats doc' = .ok root := by
  have hmono : ∀ {doc doc' : Value}, Unambiguous rt customFormats doc → Same doc doc' →
      (∃ root, compileSchema rt customFormats doc = .ok root) →
        ∃ root, compileSchema rt customFormats doc' = .ok root := by
    intro doc doc' hu h hok
    obtain ⟨hsound, htarget⟩ := compileSchema_ok_iff.1 hok
    refine compileSchema_ok_iff.2 ⟨fun q hq => ?_, fun q hq => ?_⟩
    · obtain ⟨p, hp, hqp⟩ := positionsOf_reordered h.symm q hq
      exact hqp.symm.sound (hsound p hp)
    · obtain ⟨p, hp, hqp⟩ := positionsOf_reordered h.symm q hq
      rw [target_reordered (hu.reordered h) h.symm hq hqp]
      exact htarget p hp
  exact ⟨hmono hu h, hmono (hu.reordered h) h.symm⟩

end Documents

end FastJsonSchema
