import FastJsonSchema.Compile.Descent

/-!
# The places of a document

The positions of a document are closed under the steps of their schemas and there are no others
(`positionsOf_child`, `positionsOf_induct`). By induction over the steps, the path of a position is
its address written down, its value is the one that its address designates (`positionsOf_at`), and
no two positions have the same address (`positionsOf_injective`).
-/

namespace FastJsonSchema

open Ruby Value

namespace Position

variable {rt : Runtime}

/-! ## The positions at and below a position -/

theorem mem_positions_succ {n : ℕ} {p q : Position} : q ∈ p.positions rt (n + 1) ↔
    q = p ∨ ∃ s v, Leads p.members s v ∧ q ∈ (p.below rt s v).positions rt n := by
  rw [positions, List.mem_cons, List.mem_flatMap]
  constructor
  · rintro (rfl | ⟨c, hc, hq⟩)
    · exact .inl rfl
    · obtain ⟨s, v, h, rfl⟩ := mem_children.1 hc
      exact .inr ⟨s, v, h, hq⟩
  · rintro (rfl | ⟨s, v, h, hq⟩)
    · exact .inl rfl
    · exact .inr ⟨_, mem_children.2 ⟨s, v, h, rfl⟩, hq⟩

theorem nesting_below (rt : Runtime) {p : Position} {s : Step} {v : Value}
    (h : Leads p.members s v) : (p.below rt s v).value.nesting < p.value.nesting :=
  nesting_children (mem_children.2 ⟨s, v, h, rfl⟩)

theorem mem_positions_self {n : ℕ} {p : Position} (h : p.value.nesting < n) :
    p ∈ p.positions rt n := by
  cases n with
  | zero => omega
  | succ n => exact mem_positions_succ.2 (.inl rfl)

theorem mem_positions_below {n : ℕ} {p q : Position} {s : Step} {v : Value}
    (hn : p.value.nesting < n) (hq : q ∈ p.positions rt n) (h : Leads q.members s v) :
    q.below rt s v ∈ p.positions rt n := by
  induction n generalizing p with
  | zero => omega
  | succ n ih =>
    rcases mem_positions_succ.1 hq with rfl | ⟨s', v', h', hq⟩
    · have hlt := nesting_below rt h
      exact mem_positions_succ.2 (.inr ⟨s, v, h, mem_positions_self (by omega)⟩)
    · have hlt := nesting_below rt h'
      exact mem_positions_succ.2 (.inr ⟨s', v', h', ih (by omega) hq⟩)

theorem positions_induct {P : Position → Prop} {n : ℕ} {p q : Position}
    (hn : p.value.nesting < n) (hp : P p)
    (hstep : ∀ q ∈ p.positions rt n, P q → ∀ s v, Leads q.members s v → P (q.below rt s v))
    (hq : q ∈ p.positions rt n) : P q := by
  induction n generalizing p with
  | zero => omega
  | succ n ih =>
    rcases mem_positions_succ.1 hq with rfl | ⟨s, v, h, hq⟩
    · exact hp
    · have hlt := nesting_below rt h
      refine ih (by omega) (hstep p (mem_positions_succ.2 (.inl rfl)) hp s v h) ?_ hq
      exact fun r hr => hstep r (mem_positions_succ.2 (.inr ⟨s, v, h, hr⟩))

/-! ## Values -/

/-- The members that `compile_dependency` makes up lead nowhere. -/
theorem not_leads_dependency {names : List Value} {s : Step} {w : Value} :
    ¬ Leads [(.str requiredStr, .arr names), (.str typeStr, .str objectStr)] s w := by
  have hnil : ∀ k ∈ schemaKeywords ++ listKeywords ++ mapKeywords,
      (requiredStr == k) = false ∧ (typeStr == k) = false := by decide
  have haref : ∀ k ∈ schemaKeywords ++ listKeywords ++ mapKeywords,
      aref [(.str requiredStr, .arr names), (.str typeStr, .str objectStr)] k = .nil := by
    intro k hk
    obtain ⟨hr, ht⟩ := hnil k hk
    simp [aref, Value.get, isStr, hr, ht]
  rintro (⟨hk, hv⟩ | ⟨hk, hx, -⟩ | ⟨hk, hm, -⟩ | ⟨hk, hm, -, -⟩)
  · rw [haref _ (by simp [hk])] at hv
    exact absurd hv Bool.false_ne_true
  · rw [haref _ (by simp [hk])] at hx
    cases hx
  · rw [haref _ (by simp [hk])] at hm
    cases hm
  · simp only [List.mem_cons, Prod.mk.injEq, Value.str.injEq, List.not_mem_nil, or_false] at hm
    rcases hm with ⟨rfl, -⟩ | ⟨rfl, -⟩
    · exact absurd hk (by decide)
    · exact absurd hk (by decide)

theorem everyKeys_dependencySchema {P : List RString → Bool}
    (hP : P [requiredStr, typeStr] = true) {v : Value} (h : everyKeys P v = true) :
    everyKeys P (dependencySchema v) = true := by
  cases v with
  | arr names =>
    rw [dependencySchema, everyKeys, Bool.and_eq_true]
    refine ⟨hP, ?_⟩
    rw [everyKeysEntries, Bool.and_eq_true]
    exact ⟨h, rfl⟩
  | _ => exact h

/-- Where a step leads from a hash: to the value that its tokens designate, or to what is made of
it. -/
theorem Leads.at {kvs : List (Value × Value)} {s : Step} {v : Value} (hd : Distinct (.hash kvs))
    (h : Leads kvs s v) : ∃ w, At (.hash kvs) s.tokens w ∧ (v = w ∨ v = dependencySchema w) := by
  cases h with
  | @keyword k hk hv =>
    have hne : aref kvs k ≠ .nil := fun h => by simp [h, isSchemaShaped] at hv
    exact ⟨_, .member (get_of_aref hne) (.here _), .inl rfl⟩
  | @element k xs i v hk hx hi =>
    have hget : Value.get kvs k = some (.arr xs) := hx ▸ get_of_aref (by rw [hx]; simp)
    exact ⟨v, .member hget (.element hi (.here _)), .inl rfl⟩
  | @member k key ms v hk hm hv =>
    have hget : Value.get kvs k = some (.hash ms) := hm ▸ get_of_aref (by rw [hm]; simp)
    have hms : Distinct (.hash ms) := hd.at (.member hget (.here _))
    refine ⟨v, .member hget (.member (get_of_mem hms.keys hv) (.here _)), ?_⟩
    rw [memberSchema]
    split_ifs
    · exact .inr rfl
    · exact .inl rfl
  | @entry k is u w hk hm hi hw =>
    exact ⟨v, .member (get_of_mem hd.keys hm) (at_of_elementAt hi), .inl rfl⟩

theorem Leads.everyKeys {P : List RString → Bool} (hP : P [requiredStr, typeStr] = true)
    {kvs : List (Value × Value)} {s : Step} {v : Value} (hd : Distinct (.hash kvs))
    (h : Leads kvs s v) (hkeys : everyKeys P (.hash kvs) = true) : everyKeys P v = true := by
  obtain ⟨w, hat, rfl | rfl⟩ := Leads.at hd h
  · exact everyKeys_at hkeys hat
  · exact everyKeys_dependencySchema hP (everyKeys_at hkeys hat)

theorem Leads.distinct {kvs : List (Value × Value)} {s : Step} {v : Value}
    (hd : Distinct (.hash kvs)) (h : Leads kvs s v) : Distinct v :=
  Leads.everyKeys (by decide) hd h hd

/-- The tokens of a step have no slash when the keys have none. -/
theorem Leads.slash_not_mem {kvs : List (Value × Value)} {s : Step} {v : Value}
    (h : Leads kvs s v) (hslash : SlashFree (.hash kvs)) : ∀ t ∈ s.tokens, Text.slash ∉ t := by
  have hkeywords : ∀ k ∈ schemaKeywords ++ listKeywords ++ mapKeywords, Text.slash ∉ k := by decide
  cases h with
  | @keyword k hk hv =>
    intro t ht
    obtain rfl := List.mem_singleton.1 ht
    exact hkeywords t (by simp [hk])
  | @element k xs i v hk hx hi =>
    simp only [Step.tokens, List.forall_mem_cons, List.not_mem_nil, false_implies, implies_true,
      and_true]
    exact ⟨hkeywords k (by simp [hk]), slash_not_mem_decimal i⟩
  | @member k key ms v hk hm hv =>
    have hget : Value.get kvs k = some (.hash ms) := hm ▸ get_of_aref (by rw [hm]; simp)
    have hms : SlashFree (.hash ms) := hslash.at (.member hget (.here _))
    simp only [Step.tokens, List.forall_mem_cons, List.not_mem_nil, false_implies, implies_true,
      and_true]
    exact ⟨hkeywords k (by simp [hk]), hms.key hv⟩
  | @entry k is u w hk hm hi hw =>
    refine List.forall_mem_cons.2 ⟨hslash.key hm, fun t ht => ?_⟩
    obtain ⟨i, -, rfl⟩ := List.mem_map.1 ht
    exact slash_not_mem_decimal i

/-! ## Addresses -/

/-- The addresses at and below a position start with its own. -/
theorem addr_of_mem {n : ℕ} {p q : Position} (hq : q ∈ p.positions rt n) :
    ∃ ts, q.addr = p.addr ++ ts := by
  induction n generalizing p with
  | zero => exact absurd hq List.not_mem_nil
  | succ n ih =>
    rcases mem_positions_succ.1 hq with rfl | ⟨s, v, h, hq⟩
    · exact ⟨[], (List.append_nil _).symm⟩
    · obtain ⟨ts, hts⟩ := ih hq
      exact ⟨s.tokens ++ ts, by rw [hts, below, List.append_assoc]⟩

theorem addr_below_ne {n : ℕ} {p q : Position} {s : Step} {v : Value}
    (hq : q ∈ (p.below rt s v).positions rt n) : q.addr ≠ p.addr := by
  obtain ⟨ts, hts⟩ := addr_of_mem hq
  intro he
  have hlen := congrArg List.length (hts.symm.trans he)
  have hpos := List.length_pos_iff.2 s.tokens_ne_nil
  simp only [below, List.length_append] at hlen
  omega

/-- No two positions have the same address. -/
theorem positions_injective {n : ℕ} {p q q' : Position} (hd : Distinct p.value)
    (hq : q ∈ p.positions rt n) (hq' : q' ∈ p.positions rt n) (he : q.addr = q'.addr) :
    q = q' := by
  induction n generalizing p with
  | zero => exact absurd hq List.not_mem_nil
  | succ n ih =>
    rcases mem_positions_succ.1 hq with rfl | ⟨s, v, h, hq⟩
    · rcases mem_positions_succ.1 hq' with rfl | ⟨s', v', h', hq'⟩
      · rfl
      · exact absurd he.symm (addr_below_ne hq')
    · rcases mem_positions_succ.1 hq' with rfl | ⟨s', v', h', hq'⟩
      · exact absurd he (addr_below_ne hq)
      · rw [value_eq_of_leads h] at hd
        -- the two steps start the same tokens, so they are one step
        obtain ⟨ts, hts⟩ := addr_of_mem hq
        obtain ⟨ts', hts'⟩ := addr_of_mem hq'
        rw [hts, hts', below, below, List.append_assoc, List.append_assoc,
          List.append_cancel_left_eq] at he
        obtain ⟨rfl, rfl, -⟩ := Leads.unique hd h h' he
        exact ih (Leads.distinct hd h) hq hq'

/-- A position with an address below that of another is below it. -/
theorem mem_positions_of_addr {n : ℕ} {r p q : Position} {ts : List RString}
    (hd : Distinct r.value) (hp : p ∈ r.positions rt n) (hq : q ∈ r.positions rt n)
    (he : q.addr = p.addr ++ ts) : ∃ m, q ∈ p.positions rt m := by
  induction n generalizing r with
  | zero => exact absurd hp List.not_mem_nil
  | succ n ih =>
    rcases mem_positions_succ.1 hp with rfl | ⟨s, v, h, hp'⟩
    · exact ⟨n + 1, hq⟩
    · obtain ⟨us, hus⟩ := addr_of_mem hp'
      rw [below_addr, List.append_assoc] at hus
      rcases mem_positions_succ.1 hq with rfl | ⟨s', v', h', hq'⟩
      · have hlen := congrArg List.length he
        have hpos := List.length_pos_iff.2 s.tokens_ne_nil
        simp only [hus, List.length_append] at hlen
        omega
      · obtain ⟨us', hus'⟩ := addr_of_mem hq'
        rw [below_addr, List.append_assoc] at hus'
        rw [hus, hus', List.append_assoc, List.append_cancel_left_eq, List.append_assoc] at he
        rw [value_eq_of_leads h] at hd
        obtain ⟨rfl, rfl, -⟩ := Leads.unique hd h' h he
        exact ih (Leads.distinct hd h) hp' hq'

end Position

/-! ## The positions of a document -/

section Documents

open Position

variable {rt : Runtime} {customFormats : Option (List (RString × ℕ))} {doc : Value}

theorem positionsOf_root : rootPosition doc customFormats ∈ positionsOf rt customFormats doc :=
  mem_positions_self (Nat.lt_succ_self _)

theorem positionsOf_child {p : Position} {s : Step} {v : Value}
    (hp : p ∈ positionsOf rt customFormats doc) (h : Leads p.members s v) :
    p.below rt s v ∈ positionsOf rt customFormats doc :=
  mem_positions_below (Nat.lt_succ_self _) hp h

/-- What holds of the document and is kept by the steps of its schemas holds of its positions. -/
theorem positionsOf_induct {P : Position → Prop} (hroot : P (rootPosition doc customFormats))
    (hstep : ∀ p ∈ positionsOf rt customFormats doc, P p → ∀ s v, Leads p.members s v →
      P (p.below rt s v)) :
    ∀ p ∈ positionsOf rt customFormats doc, P p :=
  fun _ hp => positions_induct (Nat.lt_succ_self _) hroot hstep hp

/-- **The path of a position** is its address written down. -/
theorem positionsOf_path : ∀ p ∈ positionsOf rt customFormats doc,
    p.path = rootPathStr ++ Text.joined p.addr := by
  apply positionsOf_induct
  · rfl
  · intro p _ ih s v _
    rw [below, ih, Text.joined_append, List.append_assoc]

theorem positionsOf_distinct (hd : Distinct doc) : ∀ p ∈ positionsOf rt customFormats doc,
    Distinct p.value := by
  apply positionsOf_induct
  · exact hd
  · intro p _ ih s v h
    rw [value_eq_of_leads h] at ih
    exact Leads.distinct ih h

/-- The addresses of a document have no slash when its keys have none. -/
theorem positionsOf_slash_not_mem (hd : Distinct doc) (hslash : SlashFree doc) :
    ∀ p ∈ positionsOf rt customFormats doc, SlashFree p.value ∧ ∀ t ∈ p.addr, Text.slash ∉ t := by
  apply positionsOf_induct
  · exact ⟨hslash, fun t ht => absurd ht List.not_mem_nil⟩
  · intro p hp ⟨hfree, haddr⟩ s v h
    have hpd := positionsOf_distinct hd p hp
    rw [value_eq_of_leads h] at hpd hfree
    refine ⟨Leads.everyKeys (by decide) hpd h hfree, fun t ht => ?_⟩
    rcases List.mem_append.1 ht with ht | ht
    · exact haddr t ht
    · exact Leads.slash_not_mem h hfree t ht

/-- **The value of a position** is the one that its address designates in the document, or what
`compile_dependency` makes of it. -/
theorem positionsOf_at (hd : Distinct doc) : ∀ p ∈ positionsOf rt customFormats doc,
    ∃ w, At doc p.addr w ∧ (p.value = w ∨ p.value = dependencySchema w) := by
  apply positionsOf_induct
  · exact ⟨doc, .here _, .inl rfl⟩
  · intro p hp ⟨w, hat, hw⟩ s v h
    have hvalue : p.value = w := by
      rcases hw with hw | hw
      · exact hw
      · cases w with
        | arr names =>
          rw [members, hw] at h
          exact absurd h not_leads_dependency
        | _ => exact hw
    have hpd := positionsOf_distinct hd p hp
    have hhash := value_eq_of_leads h
    rw [hhash] at hpd
    obtain ⟨u, hu, hv⟩ := Leads.at hpd h
    rw [← hhash, hvalue] at hu
    exact ⟨u, hat.trans hu, hv⟩

/-- **An address stands for one position.** -/
theorem positionsOf_injective (hd : Distinct doc) {p q : Position}
    (hp : p ∈ positionsOf rt customFormats doc) (hq : q ∈ positionsOf rt customFormats doc)
    (he : p.addr = q.addr) : p = q :=
  positions_injective (p := rootPosition doc customFormats) hd hp hq he

/-- The first step to a position below another. -/
theorem positionsOf_below (hd : Distinct doc) {p q : Position} {ts : List RString}
    (hp : p ∈ positionsOf rt customFormats doc) (hq : q ∈ positionsOf rt customFormats doc)
    (he : q.addr = p.addr ++ ts) (hts : ts ≠ []) :
    ∃ s v us, Leads p.members s v ∧ ts = s.tokens ++ us := by
  obtain ⟨m, hm⟩ := mem_positions_of_addr (r := rootPosition doc customFormats) hd hp hq he
  cases m with
  | zero => exact absurd hm List.not_mem_nil
  | succ m =>
    rcases mem_positions_succ.1 hm with rfl | ⟨s, v, h, hq'⟩
    · exact absurd (List.append_right_eq_self.1 he.symm) hts
    · obtain ⟨us, hus⟩ := addr_of_mem hq'
      rw [he, below_addr, List.append_assoc, List.append_cancel_left_eq] at hus
      exact ⟨s, v, us, h, hus⟩

end Documents

end FastJsonSchema
