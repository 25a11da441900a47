import FastJsonSchema.Compile.Twins
import FastJsonSchema.Compile.Typed

/-!
# Adding an unknown member

The positions of a document with a new member under an unknown keyword are the twins of the old
ones and new ones inside the member (`UnknownMember.positionsOf_widens`). Every `$ref` that leads
somewhere in the document does so in the larger one (`UnknownMember.exists_target`), so both compile
alike if and only if the schemas in the member are accepted and the member gives no place to a
`$ref` without one (`UnknownMember.compiles_iff`).
-/

namespace FastJsonSchema

open Ruby Value Table

namespace Position

section Widen

variable {rt : Runtime} {ms ms' : List (Value × Value)} {a : Addr} {k : RString} {x : Value}
  {q q' : Position} (hadd : Inserted k x ms ms') (hk : isKnownKeyword k = false)

theorem Twin.addr (h : Twin ms ms' a q q') : q'.addr = q.addr := by
  cases h <;> rfl

theorem Twin.path (h : Twin ms ms' a q q') : q'.path = q.path := by
  cases h <;> rfl

include hadd hk

theorem Twin.children (hd : Distinct q.value) (h : Twin ms ms' a q q') :
    Widens (Twin ms ms' a) (Within a k) (q.children rt) (q'.children rt) := by
  rcases h.spec hadd hk rt hd with rfl | ⟨kvs, kvs', -, -, -, -, happ, hnested⟩
  · exact .of_forall₂ (twins_same _)
  · rw [Position.children_eq, Position.children_eq]
    exact (Widens.of_forall₂ happ.members).append hnested

theorem Twin.keys_subset (hd : Distinct q.value) (h : Twin ms ms' a q q') :
    q.keys rt ⊆ q'.keys rt := by
  rcases h.spec hadd hk rt hd with rfl | ⟨kvs, kvs', hq, rfl, -, hown, -⟩
  · exact List.Subset.refl _
  · exact hown.keys_subset hq

/-- Twins have the same fields of their own, but for an object without members. -/
theorem Twin.own (hd : Distinct q.value) (h : Twin ms ms' a q q')
    (hne : ms = [] → q.addr ≠ a) : q'.own rt = q.own rt := by
  rcases h.spec hadd hk rt hd with rfl | ⟨kvs, kvs', hq, rfl, hempty, hown, -⟩
  · rfl
  · refine hown.own hq fun hkvs => ?_
    obtain ⟨hms, ha⟩ := hempty hkvs
    exact hne hms ha

theorem Twin.resolved (hd : Distinct q.value) (h : Twin ms ms' a q q') :
    q'.resolved rt = q.resolved rt := by
  rcases h.spec hadd hk rt hd with rfl | ⟨kvs, kvs', hq, rfl, -, hown, -⟩
  · rfl
  · exact hown.resolved hq

variable (rt) in
theorem Twin.positions {n : ℕ} : ∀ {q q' : Position}, Distinct q.value → q.value.nesting < n →
    q'.value.nesting < n → Twin ms ms' a q q' →
      Widens (Twin ms ms' a) (Within a k) (q.positions rt n) (q'.positions rt n) := by
  induction n with
  | zero => exact fun _ h => absurd h (Nat.not_lt_zero _)
  | succ n ih =>
    intro q q' hd hn hn' h
    refine .both h ((h.children hadd hk hd).flatMap ?_ ?_)
    · intro c hc c' hc' htwin
      have hlt := nesting_children hc
      have hlt' := nesting_children hc'
      obtain ⟨s, v, hleads, rfl⟩ := mem_children.1 hc
      rw [value_eq_of_leads hleads] at hd
      exact ih (Leads.distinct hd hleads) (by omega) (by omega) htwin
    · rintro c' - ⟨ts, hts⟩ z hz
      obtain ⟨us, hus⟩ := addr_of_mem hz
      exact ⟨ts ++ us, by rw [hus, hts, List.append_assoc]; rfl⟩

end Widen

/-- The keys of `patternProperties` of twins are the same. -/
theorem validPatterns_of_rel {R : Position → Position → Prop} {rt : Runtime} {q q' : Position}
    (h : (q.applicators rt).Rel R (q'.applicators rt)) :
    q'.ValidPatterns rt ↔ q.ValidPatterns rt := by
  have hkeys : ∀ {l l' : List (RString × Position)}, List.Forall₂ (Applicators.Entry R) l l' →
      ((∀ e ∈ l', rt.validRegexp e.1 = true) ↔ ∀ e ∈ l, rt.validRegexp e.1 = true) := by
    intro l l' h
    induction h with
    | nil => simp
    | cons h _ ih => rw [List.forall_mem_cons, List.forall_mem_cons, ih, h.1]
  exact hkeys (Applicators.forall₂_getD h.patternProperties)

/-- Steps lead to an object among the positions below. -/
theorem reaches_of_mem {rt : Runtime} {n : ℕ} {p q : Position} (hp : p ∈ q.positions rt n)
    (hv : p.value = .hash p.members) : ∃ ts, p.addr = q.addr ++ ts ∧
      Reaches p.members ts q.value := by
  induction n generalizing q with
  | zero => exact absurd hp List.not_mem_nil
  | succ n ih =>
    rcases mem_positions_succ.1 hp with rfl | ⟨s, v, h, hp⟩
    · refine ⟨[], (List.append_nil _).symm, ?_⟩
      rw [hv]
      exact .here
    · obtain ⟨ts, hts, hr⟩ := ih hp
      refine ⟨s.tokens ++ ts, by rw [hts, below_addr, List.append_assoc], ?_⟩
      rw [value_eq_of_leads h]
      exact .step h hr

end Position

/-! ## References -/

/-- What a table has an entry for is resolved in every table that has as many. -/
theorem exists_refTarget {table table' : RefData} {ref resolved : Option RString}
    (htable : ∀ key, table.lookup key ≠ none → table'.lookup key ≠ none)
    (h : ∃ o, refTarget table ref resolved = .ok o) :
    ∃ o, refTarget table' ref resolved = .ok o := by
  cases ref with
  | none => exact ⟨none, rfl⟩
  | some ref =>
    have hfound : ∀ t : RefData, (∃ o, refTarget t (some ref) resolved = .ok o) ↔
        t.lookup (decodeRef (resolved.getD ref)) ≠ none ∨
          resolved.getD ref ≠ ref ∧ t.lookup (decodeRef ref) ≠ none := by
      intro t
      rw [refTarget]
      cases t.lookup (decodeRef (resolved.getD ref)) with
      | some a => simp
      | none =>
        split_ifs with hne
        · cases t.lookup (decodeRef ref) <;> simp [hne]
        · simp [not_not.1 hne]
    rw [hfound] at h ⊢
    exact h.imp (htable _) (And.imp_right (htable _))

/-! ## Documents -/

/-- The keywords of a position are accepted, and its `$ref` is in the table of the document. -/
def Position.Accepted (rt : Runtime) (customFormats : Option (List (RString × ℕ))) (doc : Value)
    (q : Position) : Prop :=
  q.Sound rt ∧ ∃ o, q.target rt (keysOf rt customFormats doc).reverse = .ok o

theorem ok_iff_accepted {rt : Runtime} {customFormats : Option (List (RString × ℕ))}
    {doc : Value} : (∃ c, compileSchema rt customFormats doc = .ok c) ↔
      ∀ q ∈ positionsOf rt customFormats doc, q.Accepted rt customFormats doc := by
  rw [compileSchema_ok_iff, ← forall₂_and]
  rfl

/-- `doc'` is `doc` with the new member `k : x` added to an object, that of the position `p`; no
keyword is named `k`. -/
structure UnknownMember (rt : Runtime) (customFormats : Option (List (RString × ℕ))) (k : RString)
    (x : Value) (p : Position) (ms' : List (Value × Value)) (doc doc' : Value) : Prop where
  distinct : Distinct doc
  mem : p ∈ positionsOf rt customFormats doc
  value : p.value = .hash p.members
  unknown : isKnownKeyword k = false
  new : Value.get p.members k = none
  inserted : Inserted k x p.members ms'
  replaced : Replaced (.hash p.members) (.hash ms') p.addr doc doc'

/-- What keeps the documents compiling alike. -/
structure Admitted (rt : Runtime) (customFormats : Option (List (RString × ℕ))) (k : RString)
    (p : Position) (doc doc' : Value) : Prop where
  /-- The schemas in the member are accepted, or one of the document is not. -/
  accepted : (∀ q ∈ positionsOf rt customFormats doc, q.Accepted rt customFormats doc) →
    ∀ q ∈ positionsOf rt customFormats doc', q.Within p.addr k → q.Accepted rt customFormats doc'
  /-- No `$ref` that leads nowhere gets its place from the member, unless something else is not
  accepted. -/
  resolved : (∀ q ∈ positionsOf rt customFormats doc', q.Accepted rt customFormats doc') →
    ∀ q ∈ positionsOf rt customFormats doc,
      ∃ o, q.target rt (keysOf rt customFormats doc).reverse = .ok o

namespace UnknownMember

open Position

variable {rt : Runtime} {customFormats : Option (List (RString × ℕ))} {k : RString} {x : Value}
  {p q q' : Position} {ms' : List (Value × Value)} {doc doc' : Value}
  (h : UnknownMember rt customFormats k x p ms' doc doc')

include h

theorem root_twin : Twin p.members ms' p.addr (rootPosition doc customFormats)
    (rootPosition doc' customFormats) := by
  obtain ⟨ts, hts, hreach⟩ := reaches_of_mem h.mem h.value
  have hreplaced := h.replaced
  rw [show ts = p.addr from hts.symm] at hreach
  exact .above (q := rootPosition doc customFormats) rfl hreach hreplaced

omit h in
theorem positions_root {n : ℕ} (hn : doc.nesting < n) :
    (rootPosition doc customFormats).positions rt n = positionsOf rt customFormats doc :=
  positions_eq hn (Nat.lt_succ_self _)

/-- **The positions of the larger document**: the twins of the old ones, and new ones. -/
theorem positionsOf_widens :
    Widens (fun q q' => Distinct q.value ∧ Twin p.members ms' p.addr q q') (Within p.addr k)
      (positionsOf rt customFormats doc) (positionsOf rt customFormats doc') := by
  have hlt : doc.nesting < max doc.nesting doc'.nesting + 1 :=
    Nat.lt_succ_of_le (le_max_left _ _)
  have hlt' : doc'.nesting < max doc.nesting doc'.nesting + 1 :=
    Nat.lt_succ_of_le (le_max_right _ _)
  have hwidens := Twin.positions rt h.inserted h.unknown h.distinct hlt hlt' h.root_twin
  rw [positions_root hlt, positions_root hlt'] at hwidens
  exact hwidens.imp fun q hq q' htwin => ⟨positionsOf_distinct h.distinct q hq, htwin⟩

/-- No old position is inside the member. -/
theorem not_within (hq : q ∈ positionsOf rt customFormats doc) : ¬ q.Within p.addr k := by
  rintro ⟨ts, hts⟩
  obtain ⟨s, v, us, hleads, he⟩ := positionsOf_below h.distinct h.mem hq hts (by simp)
  obtain ⟨ss, hs⟩ := s.tokens_eq_cons
  rw [hs] at he
  have hhead : k = s.head := (List.cons.inj he).1
  have hunknown := h.unknown
  rw [hhead] at hunknown
  cases hleads with
  | keyword hk _ => exact absurd (known_schemaKeywords _ hk) (ne_true_of_eq_false hunknown)
  | element hk _ _ => exact absurd (known_listKeywords _ hk) (ne_true_of_eq_false hunknown)
  | member hk _ _ => exact absurd (known_mapKeywords _ hk) (ne_true_of_eq_false hunknown)
  | @entry κ is w v hk hm _ _ =>
    have hd := positionsOf_distinct h.distinct p h.mem
    rw [h.value] at hd
    have hget := get_of_mem hd.keys hm
    rw [show κ = k from hhead.symm, h.new] at hget
    exact absurd hget (by simp)

/-- Every key of the smaller document is one of the larger document. -/
theorem lookup_ne_none {key : RString}
    (hkey : (keysOf rt customFormats doc).reverse.lookup key ≠ none) :
    (keysOf rt customFormats doc').reverse.lookup key ≠ none :=
  h.positionsOf_widens.lookup_ne_none
    (fun _ _ hr => hr.2.keys_subset h.inserted h.unknown hr.1) hkey

theorem twin_resolved (hq : q ∈ positionsOf rt customFormats doc)
    (htwin : Twin p.members ms' p.addr q q') : q'.resolved rt = q.resolved rt :=
  htwin.resolved h.inserted h.unknown (positionsOf_distinct h.distinct q hq)

/-- A `$ref` that leads somewhere does so in the larger document. -/
theorem exists_target (hq : q ∈ positionsOf rt customFormats doc)
    (htwin : Twin p.members ms' p.addr q q')
    (ht : ∃ o, q.target rt (keysOf rt customFormats doc).reverse = .ok o) :
    ∃ o, q'.target rt (keysOf rt customFormats doc').reverse = .ok o := by
  rw [Position.target, h.twin_resolved hq htwin]
  exact exists_refTarget (fun _ => h.lookup_ne_none) ht

theorem twin_sound (hq : q ∈ positionsOf rt customFormats doc)
    (htwin : Twin p.members ms' p.addr q q') : q'.Sound rt ↔ q.Sound rt := by
  rcases htwin.spec h.inserted h.unknown rt
    (positionsOf_distinct h.distinct q hq) with rfl | ⟨kvs, kvs', hv, rfl, -, hown, happ, -⟩
  · exact Iff.rfl
  · have hpatterns := validPatterns_of_rel happ
    have howns : (∃ c, ({ q with value := .hash kvs' } : Position).own rt = .ok c) ↔
        ∃ c, q.own rt = .ok c := hown.exists_own hv
    exact ⟨fun hs => ⟨howns.1 hs.own, hpatterns.1 hs.patterns⟩,
      fun hs => ⟨howns.2 hs.own, hpatterns.2 hs.patterns⟩⟩

/-- The larger document compiles when the smaller one does and the schemas in the member are
accepted. -/
theorem accepted_of_within
    (hdoc : ∀ q ∈ positionsOf rt customFormats doc, q.Accepted rt customFormats doc)
    (hnew : ∀ q ∈ positionsOf rt customFormats doc', q.Within p.addr k →
      q.Accepted rt customFormats doc') :
    ∀ q ∈ positionsOf rt customFormats doc', q.Accepted rt customFormats doc' := by
  intro q' hq'
  rcases h.positionsOf_widens.of_mem_right hq' with hwithin | ⟨q, hq, -, htwin⟩
  · exact hnew q' hq' hwithin
  · obtain ⟨hsound, htarget⟩ := hdoc q hq
    exact ⟨(h.twin_sound hq htwin).2 hsound, h.exists_target hq htwin htarget⟩

/-- **When the documents compile alike.** -/
theorem compiles_iff :
    ((∃ c', compileSchema rt customFormats doc' = .ok c') ↔
      ∃ c, compileSchema rt customFormats doc = .ok c) ↔
        Admitted rt customFormats k p doc doc' := by
  rw [ok_iff_accepted, ok_iff_accepted]
  constructor
  · intro hiff
    exact ⟨fun hdoc q hq _ => hiff.2 hdoc q hq, fun hdoc' q hq => (hiff.1 hdoc' q hq).2⟩
  · intro hadmitted
    refine ⟨fun hdoc' q hq => ⟨?_, hadmitted.resolved hdoc' q hq⟩,
      fun hdoc => h.accepted_of_within hdoc (hadmitted.accepted hdoc)⟩
    obtain ⟨q', hq', -, htwin⟩ := h.positionsOf_widens.of_mem_left hq
    exact (h.twin_sound hq htwin).1 (hdoc' q' hq').1

end UnknownMember

end FastJsonSchema
