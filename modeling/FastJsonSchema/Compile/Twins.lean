import FastJsonSchema.Compile.Replacement

/-!
# Twin positions

When an object of a document gets a new member under an unknown keyword, each position of the
document has a twin in the new one (`Position.Twin`): it stands at the same place, and its value
differs at most below, where the object is. Twins have the same keywords of their own, and the
positions below them are twins, but for the new ones inside the member. They have the same keys and
the same fields too, unless the object had no members before.
-/

namespace FastJsonSchema

open Ruby Value Table

theorem known_schemaKeywords : ∀ k ∈ schemaKeywords, isKnownKeyword k = true := by decide

theorem known_listKeywords : ∀ k ∈ listKeywords, isKnownKeyword k = true := by decide

theorem known_mapKeywords : ∀ k ∈ mapKeywords, isKnownKeyword k = true := by decide

theorem mapKeywords_disjoint : ∀ k ∈ mapKeywords, k ∉ schemaKeywords ∧ k ∉ listKeywords := by decide

namespace Position

/-- The positions that stand for each other when the object `ms` at the address `a` is replaced by
`ms'`. -/
inductive Twin (ms ms' : List (Value × Value)) (a : Addr) : Position → Position → Prop
  | same (q : Position) : Twin ms ms' a q q
  | above {q : Position} {ts : List RString} {w' : Value} (ha : a = q.addr ++ ts)
    (hr : Reaches ms ts q.value) (hw : Replaced (.hash ms) (.hash ms') ts q.value w') :
    Twin ms ms' a q { q with value := w' }

/-- A step leads from the members `kvs` of the schema `parent` to a value with the object below it,
and `kvs'` is `kvs` with the object replaced. -/
structure OnWay (ms ms' : List (Value × Value)) (a : Addr) (parent : CompiledSchema)
    (kvs kvs' : List (Value × Value)) (s : Step) (v : Value) (ts : List RString) (w w' : Value) :
    Prop where
  distinct : Distinct (.hash kvs)
  leads : Leads kvs s v
  reaches : Reaches ms ts v
  changed : Changed s.head w w' kvs kvs'
  replaced : Replaced (.hash ms) (.hash ms') (s.tokens.tail ++ ts) w w'
  addr : a = parent.addr ++ (s.tokens ++ ts)

section Children

variable {ms ms' kvs kvs' : List (Value × Value)} {a : Addr} {parent : CompiledSchema}
  {ctx : CompileContext} {s : Step} {v w w' : Value} {ts : List RString} {k : RString}

theorem twins_same (l : List Position) : List.Forall₂ (Twin ms ms' a) l l :=
  List.forall₂_same.2 fun q _ => .same q

theorem entries_same (l : List (RString × Position)) :
    List.Forall₂ (Applicators.Entry (Twin ms ms' a)) l l :=
  List.forall₂_same.2 fun e _ => ⟨rfl, .same e.2⟩

/-! ## The keywords with one schema -/

theorem one_same (h : aref kvs' k = aref kvs k) :
    Option.Rel (Twin ms ms' a) (one parent kvs ctx k) (one parent kvs' ctx k) := by
  have heq : one parent kvs' ctx k = one parent kvs ctx k := by rw [one, one, h]
  rw [heq]
  exact Applicators.option_refl .same _

theorem OnWay.one (h : OnWay ms ms' a parent kvs kvs' s v ts w w') (hk : k ∈ schemaKeywords) :
    Option.Rel (Twin ms ms' a) (one parent kvs ctx k) (one parent kvs' ctx k) := by
  rcases eq_or_ne k s.head with rfl | hne
  · have haref := h.changed.aref_left h.distinct.keys
    have haref' := h.changed.aref_right h.distinct.keys
    obtain ⟨hd, hleads, hreach, hchanged, hreplaced, haddr⟩ := h
    rw [Position.one, Position.one, haref, haref']
    cases hleads with
    | @keyword κ hκ hv =>
      rw [show aref kvs κ = w from haref] at hreach
      obtain ⟨l, rfl⟩ := hreach.hash
      obtain ⟨l', rfl⟩ := Replaced.hash hreplaced
      have ha : a = (parent.addr ++ [κ]) ++ ts := by
        rw [haddr, List.append_assoc]
        rfl
      exact .some (.above ha hreach hreplaced)
    | @element κ xs i v hκ hx hi =>
      obtain rfl : w = .arr xs := haref.symm.trans hx
      obtain ⟨xs', rfl⟩ := Replaced.arr hreplaced
      exact .none
    | @member κ key l v hκ hm hv =>
      exact absurd hk (mapKeywords_disjoint κ hκ).1
    | @entry κ is u v hκ hm hi hw =>
      exact absurd (known_schemaKeywords κ hk) (by simp [hκ])
  · exact one_same (h.changed.aref_of_ne hne)

/-! ## The keywords with an array of schemas -/

/-- A position whose value is edited below has a twin. -/
theorem twin_of_edited {addr : Addr} (ha : a = addr ++ ts) (hr : Reaches ms ts v)
    (hw : Replaced (.hash ms) (.hash ms') ts v w) {q : Position} (hq : q.addr = addr)
    (hv : q.value = v) : Twin ms ms' a q { q with value := w } := by
  subst hq hv
  exact .above ha hr hw

theorem elements_twins {l₁ l₂ : List Value} {i : ℕ}
    (ha : a = (parent.addr ++ [k, decimal (i + l₁.length)]) ++ ts) (hr : Reaches ms ts v)
    (hw : Replaced (.hash ms) (.hash ms') ts v w) :
    List.Forall₂ (Twin ms ms' a) (elements parent ctx k i (l₁ ++ v :: l₂))
      (elements parent ctx k i (l₁ ++ w :: l₂)) := by
  induction l₁ generalizing i with
  | nil => exact .cons (twin_of_edited ha hr hw rfl rfl) (twins_same _)
  | cons x l₁ ih =>
    refine .cons (.same _) (ih ?_)
    rw [ha, List.length_cons, Nat.add_right_comm, Nat.add_assoc]

theorem many_same (h : aref kvs' k = aref kvs k) :
    Option.Rel (List.Forall₂ (Twin ms ms' a)) (many parent kvs ctx k) (many parent kvs' ctx k) := by
  have heq : many parent kvs' ctx k = many parent kvs ctx k := by rw [many, many, h]
  rw [heq]
  exact Applicators.option_refl twins_same _

theorem OnWay.many (h : OnWay ms ms' a parent kvs kvs' s v ts w w') (hk : k ∈ listKeywords) :
    Option.Rel (List.Forall₂ (Twin ms ms' a)) (many parent kvs ctx k) (many parent kvs' ctx k) := by
  rcases eq_or_ne k s.head with rfl | hne
  · have haref := h.changed.aref_left h.distinct.keys
    have haref' := h.changed.aref_right h.distinct.keys
    obtain ⟨hd, hleads, hreach, hchanged, hreplaced, haddr⟩ := h
    rw [Position.many, Position.many, haref, haref']
    cases hleads with
    | @keyword κ hκ hv =>
      rw [show aref kvs κ = w from haref] at hreach
      obtain ⟨l, rfl⟩ := hreach.hash
      obtain ⟨l', rfl⟩ := Replaced.hash hreplaced
      exact .none
    | @element κ xs i v hκ hx hi =>
      obtain rfl : w = .arr xs := haref.symm.trans hx
      obtain ⟨l₁, l₂, x, x', hdec, rfl, rfl, hx⟩ := Replaced.element_inv hreplaced
      obtain rfl := decimal_injective hdec
      obtain rfl : x = v := by simpa using hi
      have ha : a = (parent.addr ++ [κ, decimal (0 + l₁.length)]) ++ ts := by
        rw [haddr, Nat.zero_add, List.append_assoc]
        rfl
      exact .some (elements_twins ha hreach hx)
    | @member κ key l v hκ hm hv =>
      exact absurd hk (mapKeywords_disjoint κ hκ).2
    | @entry κ is u v hκ hm hi hw =>
      exact absurd (known_listKeywords κ hk) (by simp [hκ])
  · exact many_same (h.changed.aref_of_ne hne)

/-! ## The keywords with an object of schemas -/

theorem named_same {value : Value → Value} (h : aref kvs' k = aref kvs k) :
    Option.Rel (List.Forall₂ (Applicators.Entry (Twin ms ms' a)))
      (named parent kvs ctx k value) (named parent kvs' ctx k value) := by
  have heq : named parent kvs' ctx k value = named parent kvs ctx k value := by
    rw [named, named, h]
  rw [heq]
  exact Applicators.option_refl entries_same _

theorem OnWay.named {value : Value → Value} (h : OnWay ms ms' a parent kvs kvs' s v ts w w')
    (hk : k ∈ mapKeywords) (hvalue : value = memberSchema k) :
    Option.Rel (List.Forall₂ (Applicators.Entry (Twin ms ms' a)))
      (named parent kvs ctx k value) (named parent kvs' ctx k value) := by
  subst hvalue
  rcases eq_or_ne k s.head with rfl | hne
  · have haref := h.changed.aref_left h.distinct.keys
    have haref' := h.changed.aref_right h.distinct.keys
    obtain ⟨hd, hleads, hreach, hchanged, hreplaced, haddr⟩ := h
    rw [Position.named, Position.named, haref, haref']
    cases hleads with
    | @keyword κ hκ hv =>
      exact absurd hκ (mapKeywords_disjoint κ hk).1
    | @element κ xs i v hκ hx hi =>
      exact absurd hκ (mapKeywords_disjoint κ hk).2
    | @member κ key l v hκ hm hv =>
      obtain rfl : w = .hash l := haref.symm.trans hm
      obtain ⟨x, x', l', rfl, hx, hedit⟩ := Replaced.member_inv hreplaced
      have hl : Distinct (.hash l) := hm ▸ distinct_of_aref hd (by rw [hm]; simp)
      obtain rfl := eq_of_mem hl.keys hx.mem hv
      obtain ⟨hx₁, hx₂⟩ := Reaches.memberSchema_eq hreach hedit
      rw [hx₁] at hreach
      obtain ⟨e₁, e₂, he, he'⟩ := hx.stringEntries
      have ha : a = (parent.addr ++ [κ, key]) ++ ts := by
        rw [haddr, List.append_assoc]
        rfl
      have hmember : Twin ms ms' a (member parent ctx κ (memberSchema κ) (key, x))
          (member parent ctx κ (memberSchema κ) (key, x')) := by
        rw [member, member, hx₁, hx₂]
        exact twin_of_edited ha hreach hedit rfl rfl
      refine .some ?_
      rw [he, he', List.map_append, List.map_append, List.map_cons, List.map_cons]
      exact List.rel_append (entries_same _) (.cons ⟨rfl, hmember⟩ (entries_same _))
    | @entry κ is u v hκ hm hi hw =>
      exact absurd (known_mapKeywords κ hk) (by simp [hκ])
  · exact named_same (h.changed.aref_of_ne hne)

/-! ## The unknown keywords -/

theorem arrayEntries_twins {l₁ l₂ : List Value} {i : ℕ} {path : RString} {tokens : List RString}
    (h : List.Forall₂ (Twin ms ms' a)
      (entry parent ctx v (appendLongToPath path (i + l₁.length))
        (tokens ++ [decimal (i + l₁.length)]))
      (entry parent ctx w (appendLongToPath path (i + l₁.length))
        (tokens ++ [decimal (i + l₁.length)]))) :
    List.Forall₂ (Twin ms ms' a) (arrayEntries parent ctx (l₁ ++ v :: l₂) i path tokens)
      (arrayEntries parent ctx (l₁ ++ w :: l₂) i path tokens) := by
  induction l₁ generalizing i with
  | nil =>
    rw [List.nil_append, List.nil_append, arrayEntries, arrayEntries]
    exact List.rel_append h (twins_same _)
  | cons x l₁ ih =>
    rw [List.cons_append, List.cons_append, arrayEntries, arrayEntries]
    rw [List.length_cons, ← Nat.add_assoc, Nat.add_right_comm] at h
    exact List.rel_append (twins_same _) (ih h)

theorem entry_twins {is : List ℕ} {path : RString} {tokens : List RString}
    (hi : elementAt w is = some v) (hr : Reaches ms ts v)
    (hw : Replaced (.hash ms) (.hash ms') (is.map decimal ++ ts) w w')
    (ha : a = (parent.addr ++ (tokens ++ is.map decimal)) ++ ts) :
    List.Forall₂ (Twin ms ms' a) (entry parent ctx w path tokens)
      (entry parent ctx w' path tokens) := by
  induction is generalizing w w' path tokens with
  | nil =>
    obtain rfl := Option.some.inj hi
    obtain ⟨l, rfl⟩ := hr.hash
    obtain ⟨l', rfl⟩ := Replaced.hash hw
    rw [List.map_nil, List.append_nil] at ha
    exact .cons (twin_of_edited ha hr hw rfl rfl) .nil
  | cons i is ih =>
    cases w with
    | arr xs =>
      obtain ⟨l₁, l₂, x, x', hdec, rfl, rfl, hx⟩ := Replaced.element_inv hw
      obtain rfl := decimal_injective hdec
      have hi : elementAt x is = some v := by simpa [elementAt] using hi
      rw [entry, entry]
      refine arrayEntries_twins (ih hi hx ?_)
      rw [ha, Nat.zero_add, List.map_cons, List.append_assoc tokens]
      rfl
    | _ => exact absurd hi (by simp [elementAt])

theorem OnWay.nested (h : OnWay ms ms' a parent kvs kvs' s v ts w w') :
    List.Forall₂ (Twin ms ms' a) (nested parent ctx kvs) (nested parent ctx kvs') := by
  obtain ⟨hd, hleads, hreach, hchanged, hreplaced, haddr⟩ := h
  by_cases hknown : isKnownKeyword s.head = true
  · rw [Position.nested, Position.nested, hchanged.unknownMembers hknown]
    exact twins_same _
  · cases hleads with
    | @entry κ is u v hκ hm hi hshape =>
      obtain rfl := eq_of_mem hd.keys hm hchanged.mem
      obtain ⟨l₁, l₂, h₁, h₂⟩ := hchanged.unknownMembers_of_unknown hκ
      have hentry : List.Forall₂ (Twin ms ms' a) (entry parent ctx u κ [κ])
          (entry parent ctx w' κ [κ]) :=
        entry_twins hi hreach hreplaced (haddr.trans (List.append_assoc _ _ _).symm)
      rw [Position.nested, Position.nested, h₁, h₂, List.flatMap_append, List.flatMap_append,
        List.flatMap_cons, List.flatMap_cons]
      exact List.rel_append (twins_same _) (List.rel_append hentry (twins_same _))
    | keyword hk _ => exact absurd (known_schemaKeywords _ hk) hknown
    | element hk _ _ => exact absurd (known_listKeywords _ hk) hknown
    | member hk _ _ => exact absurd (known_mapKeywords _ hk) hknown

/-- **The positions below a schema on the way** are twins. -/
theorem OnWay.applicatorsOf (h : OnWay ms ms' a parent kvs kvs' s v ts w w') :
    (applicatorsOf parent kvs ctx).Rel (Twin ms ms' a) (applicatorsOf parent kvs' ctx) where
  ifSchema := h.one (by decide)
  thenSchema := h.one (by decide)
  elseSchema := h.one (by decide)
  notSchema := h.one (by decide)
  allOf := h.many (by decide)
  anyOf := h.many (by decide)
  oneOf := h.many (by decide)
  items := h.one (by decide)
  itemsList := h.many (by decide)
  additionalItems := h.one (by decide)
  contains := h.one (by decide)
  propertyNames := h.one (by decide)
  properties := h.named (by decide) rfl
  patternProperties := h.named (by decide) rfl
  additionalProperties := h.one (by decide)
  dependencies := h.named (by decide) rfl

end Children

/-! ## What twins share -/

/-- Schemas with the members `kvs`, and with the members `kvs'`, of which there are some, have the
same keywords of their own. -/
structure SameOwn (kvs kvs' : List (Value × Value)) : Prop where
  ne_nil : kvs' ≠ []
  get : ∀ k ∈ typeStr :: ownKeywords, Value.get kvs' k = Value.get kvs k

theorem head_not_own {kvs : List (Value × Value)} {s : Step} {v : Value} (h : Leads kvs s v) :
    s.head ∉ typeStr :: ownKeywords := by
  have happlied : ∀ k ∈ schemaKeywords ++ listKeywords ++ mapKeywords,
      k ∉ typeStr :: ownKeywords := by decide
  have hknown : ∀ k ∈ typeStr :: ownKeywords, isKnownKeyword k = true := by decide
  cases h with
  | @keyword κ hk _ => exact happlied κ (by simp [hk])
  | @element κ _ _ _ hk _ _ => exact happlied κ (by simp [hk])
  | @member κ _ _ _ hk _ _ => exact happlied κ (by simp [hk])
  | @entry κ _ _ _ hk _ _ _ => exact fun h => absurd (hknown κ h) (by simp [hk])

section Same

variable {rt : Runtime} {q : Position} {kvs kvs' : List (Value × Value)} (h : SameOwn kvs kvs')
  (hq : q.value = .hash kvs)

include h hq

theorem SameOwn.resolved : ({ q with value := .hash kvs' } : Position).resolved rt
    = q.resolved rt := by
  rw [Position.resolved, Position.resolved, show q.members = kvs by rw [members, hq]]
  exact readScope_congr (fun k hk => h.get k (List.mem_cons_of_mem _ hk)) rt _ _

/-- The keys are the same, but that an object without members has one key only. -/
theorem SameOwn.keys_subset : q.keys rt ⊆ ({ q with value := .hash kvs' } : Position).keys rt := by
  have hm : q.members = kvs := by rw [members, hq]
  have hm' : ({ q with value := .hash kvs' } : Position).members = kvs' := rfl
  have hne : ¬ kvs'.isEmpty = true := by simpa using h.ne_nil
  rw [Position.keys, Position.keys, h.resolved hq, hm, hm', if_neg hne]
  split_ifs
  · exact List.cons_subset_cons _ (List.nil_subset _)
  · exact List.Subset.refl _

theorem SameOwn.own (hne : kvs ≠ []) :
    ({ q with value := .hash kvs' } : Position).own rt = q.own rt := by
  obtain ⟨kv, l, rfl⟩ := List.exists_cons_of_ne_nil hne
  obtain ⟨kv', l', rfl⟩ := List.exists_cons_of_ne_nil h.ne_nil
  have hown : ∀ k ∈ ownKeywords, Value.get (kv' :: l') k = Value.get (kv :: l) k := fun k hk =>
    h.get k (List.mem_cons_of_mem _ hk)
  have hformat : aref (kv' :: l') formatStr = aref (kv :: l) formatStr := by
    rw [aref, aref, hown formatStr (by decide)]
  have htype : typeValidationFunction (kv' :: l') = typeValidationFunction (kv :: l) := by
    rw [typeValidationFunction, typeValidationFunction, aref, aref,
      h.get typeStr List.mem_cons_self]
  rw [Position.own, Position.own, h.resolved hq, hq]
  dsimp only
  rw [hformat, htype]
  simp only [ownFields_congr hown]

/-- The keywords are rejected alike. -/
theorem SameOwn.exists_own : (∃ cs, ({ q with value := .hash kvs' } : Position).own rt = .ok cs) ↔
    ∃ cs, q.own rt = .ok cs := by
  have hm : q.members = kvs := by rw [members, hq]
  have hm' : ({ q with value := .hash kvs' } : Position).members = kvs' := rfl
  have hformat : aref kvs' formatStr = aref kvs formatStr := by
    rw [aref, aref, h.get formatStr (by decide)]
  have htype : typeValidationFunction kvs' = typeValidationFunction kvs := by
    rw [typeValidationFunction, typeValidationFunction, aref, aref,
      h.get typeStr List.mem_cons_self]
  rw [exists_own_iff, exists_own_iff, h.resolved hq, hm, hm', hformat, htype]

end Same

/-! ## Adding a member -/

/-- A position inside the member `k` of the object at `a`. -/
def Within (a : Addr) (k : RString) (q : Position) : Prop := ∃ ts, q.addr = a ++ k :: ts

section Added

variable {rt : Runtime} {ms ms' : List (Value × Value)} {a : Addr} {k : RString} {x : Value}
  {q q' : Position} (hadd : Inserted k x ms ms') (hk : isKnownKeyword k = false)

theorem OnWay.sameOwn {parent : CompiledSchema} {kvs kvs' : List (Value × Value)} {s : Step}
    {v w w' : Value} {ts : List RString} (h : OnWay ms ms' a parent kvs kvs' s v ts w w') :
    SameOwn kvs kvs' where
  ne_nil := h.changed.symm.ne_nil
  get _ hk := h.changed.get_of_ne fun he => head_not_own h.leads (he ▸ hk)

include hadd hk

theorem sameKeywords_of_unknown : SameKeywords ms ms' := fun k' hk' _ =>
  hadd.get_of_ne fun he => by
    rw [← he, isKnownKeyword, List.contains_eq_mem, decide_eq_false_iff_not] at hk
    exact hk hk'

theorem sameOwn_of_unknown : SameOwn ms ms' where
  ne_nil := hadd.ne_nil
  get k' hk' := hadd.get_of_ne fun he => by
    have hknown : ∀ k ∈ typeStr :: ownKeywords, isKnownKeyword k = true := by decide
    rw [← he, hknown k' hk'] at hk
    exact absurd hk (by simp)

theorem nested_added (parent : CompiledSchema) (ctx : CompileContext) (ha : parent.addr = a) :
    Widens (Twin ms ms' a) (Within a k) (nested parent ctx ms) (nested parent ctx ms') := by
  obtain ⟨l₁, l₂, h₁, h₂⟩ := hadd.stringEntries
  have hnew : ∀ q ∈ entry parent ctx x k [k], Within a k q := by
    intro q hq
    obtain ⟨is, w, -, -, rfl⟩ := mem_entry.1 hq
    exact ⟨is.map decimal, by rw [entryAt, ha]; rfl⟩
  rw [nested, nested, unknownMembers, unknownMembers, h₁, h₂, List.filter_append,
    List.filter_append, List.filter_cons_of_pos (by simp [hk]), List.flatMap_append,
    List.flatMap_append, List.flatMap_cons]
  exact Widens.insert (.of_forall₂ (twins_same _)) hnew (.of_forall₂ (twins_same _))

omit hadd hk in
theorem applicatorsOf_same {kvs kvs' : List (Value × Value)} (h : SameKeywords kvs kvs')
    (parent : CompiledSchema) (ctx : CompileContext) :
    (applicatorsOf parent kvs ctx).Rel (Twin ms ms' a) (applicatorsOf parent kvs' ctx) where
  ifSchema := one_same (h.aref (by decide) (by decide))
  thenSchema := one_same (h.aref (by decide) (by decide))
  elseSchema := one_same (h.aref (by decide) (by decide))
  notSchema := one_same (h.aref (by decide) (by decide))
  allOf := many_same (h.aref (by decide) (by decide))
  anyOf := many_same (h.aref (by decide) (by decide))
  oneOf := many_same (h.aref (by decide) (by decide))
  items := one_same (h.aref (by decide) (by decide))
  itemsList := many_same (h.aref (by decide) (by decide))
  additionalItems := one_same (h.aref (by decide) (by decide))
  contains := one_same (h.aref (by decide) (by decide))
  propertyNames := one_same (h.aref (by decide) (by decide))
  properties := named_same (h.aref (by decide) (by decide))
  patternProperties := named_same (h.aref (by decide) (by decide))
  additionalProperties := one_same (h.aref (by decide) (by decide))
  dependencies := named_same (h.aref (by decide) (by decide))

/-- **Twins**: the same position, or two with the same keywords of their own and twins below. Only
the object that gets the member may be without members. -/
theorem Twin.spec (rt : Runtime) (hd : Distinct q.value) (h : Twin ms ms' a q q') :
    q' = q ∨ ∃ kvs kvs', q.value = .hash kvs ∧ q' = { q with value := .hash kvs' } ∧
      (kvs = [] → ms = [] ∧ q.addr = a) ∧ SameOwn kvs kvs' ∧
        (q.applicators rt).Rel (Twin ms ms' a) (q'.applicators rt) ∧
          Widens (Twin ms ms' a) (Within a k) (q.nestedPositions rt) (q'.nestedPositions rt) := by
  cases h with
  | same => exact .inl rfl
  | @above ts w' ha hr hw =>
    right
    obtain ⟨kvs, hq⟩ := hr.hash
    obtain ⟨kvs', rfl⟩ : ∃ kvs', w' = .hash kvs' := by
      rw [hq] at hw
      exact hw.hash
    have hm : q.members = kvs := by rw [members, hq]
    rw [hq] at hr hw hd
    have haddr : (q.resolved rt).1.addr = q.addr := resolved_addr q
    refine ⟨kvs, kvs', hq, rfl, ?_⟩
    cases hr with
    | here =>
      obtain ⟨-, hms'⟩ := hw.nil_inv
      obtain rfl := Value.hash.inj hms'
      have hsame := sameOwn_of_unknown hadd hk
      rw [List.append_nil] at ha
      refine ⟨fun hms => ⟨hms, ha.symm⟩, hsame, ?_, ?_⟩
      · rw [applicators, applicators, hsame.resolved hq, hm]
        exact applicatorsOf_same (sameKeywords_of_unknown hadd hk) _ _
      · rw [nestedPositions, nestedPositions, hsame.resolved hq, hm]
        exact nested_added hadd hk _ _ (haddr.trans ha.symm)
    | @step _ s v ts h ht =>
      obtain ⟨us, hs⟩ := s.tokens_eq_cons
      rw [hs, List.cons_append] at hw
      obtain ⟨w, w', kvs₁, he, hchanged, hreplaced⟩ := hw.member_inv
      obtain rfl := Value.hash.inj he
      have hway : OnWay ms ms' a (q.resolved rt).1 kvs kvs' s v ts w w' :=
        ⟨hd, h, ht, hchanged, by rw [hs]; exact hreplaced, by rw [haddr, ha]⟩
      have hsame := hway.sameOwn
      refine ⟨fun hkvs => absurd hkvs hchanged.ne_nil, hsame, ?_, ?_⟩
      · rw [applicators, applicators, hsame.resolved hq, hm]
        exact hway.applicatorsOf
      · rw [nestedPositions, nestedPositions, hsame.resolved hq, hm]
        exact .of_forall₂ hway.nested

theorem Twin.applicators (hd : Distinct q.value) (h : Twin ms ms' a q q') :
    (q.applicators rt).Rel (Twin ms ms' a) (q'.applicators rt) := by
  rcases h.spec hadd hk rt hd with rfl | ⟨kvs, kvs', -, -, -, -, happ, -⟩
  · exact applicatorsOf_same (fun _ _ _ => rfl) _ _
  · exact happ

end Added

end Position

end FastJsonSchema
