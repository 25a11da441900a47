import FastJsonSchema.Compile.Places
import FastJsonSchema.Table.LastWrite

/-!
# The reference table of a document

A position writes its path to the reference table, and when it is an object with members also its
`$id` and the key of its place inside the nearest `$id` above it. `Inside R ss q` says that the
steps `ss` lead from `R` to `q` with no other `$id` on the way. With plain `$id` values, a key that
starts with `#` is the path of a position (`registers_pointer_iff`), and a key that starts with an
`$id` is written by the positions inside it (`registers_scoped_iff`).
-/

namespace FastJsonSchema

open Ruby Table

/-! ## The scope of a position -/

section Contexts

variable {s : Step} {ctx : CompileContext}

@[simp] theorem Step.context_currentBase : (s.context ctx).currentBase = ctx.currentBase := by
  cases hb : ctx.currentBase <;> cases s <;> simp [context, CompileContext.note, hb]

theorem Step.context_currentPointer {u ptr : RString} (hb : ctx.currentBase = some u)
    (hp : ctx.currentPointer = some ptr) :
    (s.context ctx).currentPointer = some (ptr ++ Text.joined s.noted) := by
  cases s <;> simp [context, CompileContext.note, noted, hb, hp]

end Contexts

/-- An absolute URI without a fragment, percent signs and tildes. -/
structure PlainUri (u : RString) : Prop where
  absolute : isAbsolute u = true
  hash : 0x23 ∉ u
  percent : Text.percent ∉ u
  tilde : Text.tilde ∉ u

instance (u : RString) : Decidable (PlainUri u) :=
  decidable_of_iff (isAbsolute u = true ∧ 0x23 ∉ u ∧ Text.percent ∉ u ∧ Text.tilde ∉ u)
    ⟨fun ⟨h₁, h₂, h₃, h₄⟩ => ⟨h₁, h₂, h₃, h₄⟩, fun ⟨h₁, h₂, h₃, h₄⟩ => ⟨h₁, h₂, h₃, h₄⟩⟩

theorem PlainUri.cons {u : RString} (h : PlainUri u) : ∃ c s, u = c :: s ∧ c ≠ 0x23 := by
  cases u with
  | nil => exact absurd h.absolute (by decide)
  | cons c s => exact ⟨c, s, rfl, fun hc => h.hash (by simp [hc])⟩

theorem isAbsolute_append {u : RString} (h : isAbsolute u = true) (s : RString) :
    isAbsolute (u ++ s) = true := by
  have hends : ∀ t : RString, schemeEnds t = true → schemeEnds (t ++ s) = true := by
    intro t ht
    induction t with
    | nil => exact absurd ht Bool.false_ne_true
    | cons c t ih =>
      rw [schemeEnds] at ht
      rw [List.cons_append, schemeEnds]
      split_ifs at ht ⊢ with hc ha
      · rfl
      · exact ih ht
  cases u with
  | nil => exact absurd h Bool.false_ne_true
  | cons c t =>
    rw [isAbsolute, Bool.and_eq_true] at h
    rw [List.cons_append, isAbsolute, Bool.and_eq_true]
    exact ⟨h.1, hends t h.2⟩

namespace Position

/-- The `$id` of a position. -/
def idVal (p : Position) : Option RString := stringKeyword p.members idStr

/-- The `$ref` of a position. -/
def refVal (p : Position) : Option RString := stringKeyword p.members refStr

variable {rt : Runtime} {p q R : Position}

theorem resolved_context_of_none (h : p.idVal = none) : (p.resolved rt).2 = p.ctx := by
  unfold resolved readScope resolveUriScope
  rw [idVal] at h
  simp only [h, Option.map_none]

theorem resolved_context_of_absolute {u : RString} (h : p.idVal = some u)
    (hu : isAbsolute u = true) :
    (p.resolved rt).2 = { p.ctx with currentBase := some u, currentPointer := some [] } := by
  unfold resolved readScope resolveUriScope
  rw [idVal] at h
  simp only [h, Option.map_some, resolveIdAgainstParentBase, hu, if_true]

theorem resolved_idVal : (p.resolved rt).1.idVal = p.idVal := by
  unfold resolved readScope resolveUriScope
  dsimp only
  split <;> rfl

theorem resolved_resolvedIdVal :
    (p.resolved rt).1.resolvedIdVal = p.idVal.map (resolveIdAgainstParentBase rt p.ctx) := by
  unfold resolved readScope resolveUriScope
  dsimp only
  split <;> rfl

theorem resolved_scopePointerVal : (p.resolved rt).1.scopePointerVal = p.ctx.currentPointer := by
  unfold resolved readScope resolveUriScope
  dsimp only
  split <;> rfl

/-- `Inside rt R ss q`: the steps `ss` lead from `R` to `q`, with no `$id` strictly between. -/
inductive Inside (rt : Runtime) (R : Position) : List Step → Position → Prop
  | child {s : Step} {v : Value} (h : Leads R.members s v) : Inside rt R [s] (R.below rt s v)
  | step {ss : List Step} {p : Position} {s : Step} {v : Value} (hp : Inside rt R ss p)
    (hid : p.idVal = none) (h : Leads p.members s v) : Inside rt R (ss ++ [s]) (p.below rt s v)

theorem Inside.ne_nil {ss : List Step} (h : Inside rt R ss q) : ss.flatMap Step.tokens ≠ [] := by
  cases h with
  | @child s v h => simpa using s.tokens_ne_nil
  | @step ss p s v hp hid h =>
    rw [List.flatMap_append]
    simpa using fun _ => s.tokens_ne_nil

/-- The context of a position inside an absolute `$id`. -/
theorem Inside.context {ss : List Step} {u : RString} (h : Inside rt R ss q)
    (hid : R.idVal = some u) (hu : isAbsolute u = true) : q.ctx.currentBase = some u ∧
      q.ctx.currentPointer = some (Text.joined (ss.flatMap Step.noted)) := by
  induction h with
  | @child s v h =>
    rw [below_ctx, resolved_context_of_absolute hid hu]
    refine ⟨Step.context_currentBase, ?_⟩
    rw [Step.context_currentPointer rfl rfl, List.flatMap_cons, List.flatMap_nil, List.append_nil]
    rfl
  | @step ss p s v hp hnone h ih =>
    rw [below_ctx, resolved_context_of_none hnone]
    refine ⟨Step.context_currentBase.trans ih.1, ?_⟩
    rw [Step.context_currentPointer ih.1 ih.2, ← Text.joined_append, List.flatMap_append,
      List.flatMap_cons, List.flatMap_nil, List.append_nil]

/-! ## The keys of a position -/

/-- A position writes the key `k`. -/
def Registers (rt : Runtime) (k : RString) (p : Position) : Prop := k ∈ (p.keys rt).map (·.1)

theorem mem_scopeKeys {base pointer : Option RString} {a : Addr} {w : RString × Addr} :
    w ∈ scopeKeys base pointer a ↔ w.2 = a ∧ ∃ b ptr, base = some b ∧ pointer = some ptr ∧
      ptr ≠ [] ∧ w.1 = b ++ str "#" ++ ptr := by
  cases base with
  | none => simp [scopeKeys]
  | some b =>
    cases pointer with
    | none => simp [scopeKeys]
    | some ptr =>
      rw [scopeKeys]
      split_ifs with h
      · simp [h, Prod.ext_iff, and_comm]
      · simp [not_not.1 h]

theorem mem_idKeys {cs : CompiledSchema} {base : Option RString} {w : RString × Addr} :
    w ∈ idKeys cs base ↔ w.2 = cs.addr ∧ (cs.idVal = some w.1 ∨ cs.resolvedIdVal = some w.1 ∨
      ∃ b ptr, base = some b ∧ cs.scopePointerVal = some ptr ∧ ptr ≠ [] ∧
        w.1 = b ++ str "#" ++ ptr) := by
  obtain ⟨k, a⟩ := w
  have hsome : ∀ o : Option RString,
      (k, a) ∈ o.toList.map (fun id => (id, cs.addr)) ↔ a = cs.addr ∧ o = some k := by
    intro o
    cases o <;> simp [and_comm, eq_comm]
  have hresolved : (k, a) ∈ (if cs.resolvedIdVal ≠ cs.idVal then
      cs.resolvedIdVal.toList.map fun id => (id, cs.addr) else []) ↔
      cs.resolvedIdVal ≠ cs.idVal ∧ a = cs.addr ∧ cs.resolvedIdVal = some k := by
    split_ifs with h
    · rw [hsome]
      simp [h]
    · simp [not_not.1 h]
  rw [idKeys, List.mem_append, List.mem_append, hsome, hresolved, mem_scopeKeys]
  constructor
  · rintro ((⟨ha, h⟩ | ⟨-, ha, h⟩) | ⟨ha, h⟩)
    · exact ⟨ha, .inl h⟩
    · exact ⟨ha, .inr (.inl h)⟩
    · exact ⟨ha, .inr (.inr h)⟩
  · rintro ⟨ha, h | h | h⟩
    · exact .inl (.inl ⟨ha, h⟩)
    · by_cases he : cs.resolvedIdVal = cs.idVal
      · exact .inl (.inl ⟨ha, he.symm.trans h⟩)
      · exact .inl (.inr ⟨he, ha, h⟩)
    · exact .inr ⟨ha, h⟩

theorem keys_addr (p : Position) : ∀ w ∈ p.keys rt, w.2 = p.addr := by
  intro w hw
  rw [keys, List.mem_cons] at hw
  rcases hw with rfl | hw
  · rfl
  · split_ifs at hw
    · exact absurd hw List.not_mem_nil
    · exact (mem_idKeys.1 hw).1.trans (resolved_addr p)

/-- The keys that a position writes. -/
theorem registers_iff {k : RString} : p.Registers rt k ↔ k = p.path ∨ p.members ≠ [] ∧
    (p.idVal = some k ∨ p.idVal.map (resolveIdAgainstParentBase rt p.ctx) = some k ∨
      ∃ b ptr, p.ctx.currentBase = some b ∧ p.ctx.currentPointer = some ptr ∧ ptr ≠ [] ∧
        k = b ++ str "#" ++ ptr) := by
  rw [Registers, keys, List.map_cons, List.mem_cons]
  refine or_congr_right ?_
  by_cases hm : p.members = []
  · simp [hm]
  · rw [if_neg (by simpa using hm), List.mem_map]
    constructor
    · rintro ⟨w, hw, rfl⟩
      obtain ⟨-, h⟩ := mem_idKeys.1 hw
      rw [resolved_idVal, resolved_resolvedIdVal, resolved_scopePointerVal] at h
      exact ⟨hm, h⟩
    · rintro ⟨-, h⟩
      refine ⟨(k, (p.resolved rt).1.addr), mem_idKeys.2 ⟨rfl, ?_⟩, rfl⟩
      rw [resolved_idVal, resolved_resolvedIdVal, resolved_scopePointerVal]
      exact h

end Position

/-! ## The entries of a document -/

section Documents

open Position

variable {rt : Runtime} {customFormats : Option (List (RString × ℕ))} {doc : Value}
  {k : RString} {a : Addr} {ts : List RString}

/-- **The entry of a key** is the address of the last position that writes it. -/
theorem entry_iff : (keysOf rt customFormats doc).reverse.lookup k = some a ↔
    ∃ q, IsLast (Registers rt k) (positionsOf rt customFormats doc) q ∧ q.addr = a :=
  lookup_eq_some_iff keys_addr

theorem entry_none_iff : (keysOf rt customFormats doc).reverse.lookup k = none ↔
    ∀ q ∈ positionsOf rt customFormats doc, ¬ q.Registers rt k :=
  lookup_eq_none

/-- The base of a position is that of an `$id` it is inside of. -/
theorem inside_of_base : ∀ q ∈ positionsOf rt customFormats doc, q.ctx.currentBase ≠ none →
    ∃ R ∈ positionsOf rt customFormats doc, R.idVal ≠ none ∧ ∃ ss, Inside rt R ss q := by
  apply positionsOf_induct
  · exact fun h => absurd rfl h
  · intro p hp ih s v h hbase
    rw [below_ctx, Step.context_currentBase] at hbase
    by_cases hid : p.idVal = none
    · rw [resolved_context_of_none hid] at hbase
      obtain ⟨R, hR, hRid, ss, hss⟩ := ih hbase
      exact ⟨R, hR, hRid, ss ++ [s], .step hss hid h⟩
    · exact ⟨p, hp, hid, [s], .child h⟩

/-- The `$id` values of a document. -/
def idsOf (rt : Runtime) (customFormats : Option (List (RString × ℕ))) (doc : Value) :
    List RString :=
  (positionsOf rt customFormats doc).filterMap idVal

theorem mem_idsOf {p : Position} {u : RString} (hp : p ∈ positionsOf rt customFormats doc)
    (hu : p.idVal = some u) : u ∈ idsOf rt customFormats doc :=
  List.mem_filterMap.2 ⟨p, hp, hu⟩

theorem plainUri_of_base (hids : ∀ u ∈ idsOf rt customFormats doc, PlainUri u) {q : Position}
    {b : RString} (hq : q ∈ positionsOf rt customFormats doc) (hb : q.ctx.currentBase = some b) :
    PlainUri b := by
  obtain ⟨R, hR, hRid, ss, hss⟩ := inside_of_base q hq (by simp [hb])
  obtain ⟨u, hu⟩ := Option.ne_none_iff_exists'.1 hRid
  have hplain := hids u (mem_idsOf hR hu)
  obtain rfl := Option.some.inj ((hss.context hu hplain.absolute).1.symm.trans hb)
  exact hplain

theorem base_iff (hids : ∀ u ∈ idsOf rt customFormats doc, PlainUri u)
    (hdistinct : (idsOf rt customFormats doc).Nodup) {R q : Position} {u : RString}
    (hR : R ∈ positionsOf rt customFormats doc) (hu : R.idVal = some u)
    (hq : q ∈ positionsOf rt customFormats doc) :
    q.ctx.currentBase = some u ↔ ∃ ss, Inside rt R ss q := by
  constructor
  · intro hb
    obtain ⟨R', hR', hid', ss, hss⟩ := inside_of_base q hq (by simp [hb])
    obtain ⟨u', hu'⟩ := Option.ne_none_iff_exists'.1 hid'
    have hbase := (hss.context hu' (hids u' (mem_idsOf hR' hu')).absolute).1
    obtain rfl := Option.some.inj (hbase.symm.trans hb)
    obtain rfl := eq_of_filterMap_nodup hdistinct hR hR' hu hu'
    exact ⟨ss, hss⟩
  · rintro ⟨ss, hss⟩
    exact (hss.context hu (hids u (mem_idsOf hR hu)).absolute).1

/-- **A key that starts with `#`** is written by the positions with this path. -/
theorem registers_pointer_iff (hids : ∀ u ∈ idsOf rt customFormats doc, PlainUri u) {q : Position}
    (hq : q ∈ positionsOf rt customFormats doc) :
    q.Registers rt (str "#" ++ Text.joined ts) ↔ Text.joined q.addr = Text.joined ts := by
  have hhash : str "#" ++ Text.joined ts = 0x23 :: Text.joined ts := rfl
  have hnot : ∀ u, PlainUri u → ∀ s, str "#" ++ Text.joined ts ≠ u ++ s := by
    intro u hu s he
    obtain ⟨c, t, rfl, hc⟩ := hu.cons
    exact hc (List.cons.inj he).1.symm
  rw [registers_iff, positionsOf_path q hq, rootPathStr, List.append_cancel_left_eq]
  constructor
  · rintro (h | ⟨-, h | h | ⟨b, ptr, hb, -, -, h⟩⟩)
    · exact h.symm
    · have := hnot _ (hids _ (mem_idsOf hq h)) []
      rw [List.append_nil] at this
      exact absurd rfl this
    · obtain ⟨u, hu, hres⟩ := Option.map_eq_some_iff.1 h
      have hplain := hids u (mem_idsOf hq hu)
      rw [resolveIdAgainstParentBase, if_pos hplain.absolute] at hres
      have := hnot _ hplain []
      rw [List.append_nil] at this
      exact absurd hres.symm this
    · rw [List.append_assoc] at h
      exact absurd h (hnot b (plainUri_of_base hids hq hb) _)
  · exact fun h => .inl h.symm

/-- **A key that starts with an `$id`** is written by the non-empty objects inside it whose noted
steps read the same. -/
theorem registers_scoped_iff (hids : ∀ u ∈ idsOf rt customFormats doc, PlainUri u)
    (hdistinct : (idsOf rt customFormats doc).Nodup) {R q : Position} {u : RString}
    (hR : R ∈ positionsOf rt customFormats doc) (hu : R.idVal = some u)
    (hq : q ∈ positionsOf rt customFormats doc) :
    q.Registers rt (u ++ str "#" ++ Text.joined ts) ↔ q.members ≠ [] ∧ ts ≠ [] ∧
      ∃ ss, Inside rt R ss q ∧ Text.joined (ss.flatMap Step.noted) = Text.joined ts := by
  have hplain := hids u (mem_idsOf hR hu)
  have hmem : ∀ s, (0x23 : UInt8) ∈ u ++ str "#" ++ s := fun s => by
    simp [show str "#" = [0x23] from rfl]
  have hsplit : ∀ {b ptr : RString}, PlainUri b →
      u ++ str "#" ++ Text.joined ts = b ++ str "#" ++ ptr → u = b ∧ Text.joined ts = ptr := by
    intro b ptr hb he
    rw [List.append_assoc, List.append_assoc] at he
    exact Text.append_cons_inj hplain.hash hb.hash he
  rw [registers_iff]
  constructor
  · rintro (h | ⟨hm, h | h | ⟨b, ptr, hb, hptr, hne, h⟩⟩)
    · rw [positionsOf_path q hq] at h
      obtain ⟨c, t, rfl, hc⟩ := hplain.cons
      exact absurd (List.cons.inj h).1 hc
    · exact absurd (hmem _) (hids _ (mem_idsOf hq h)).hash
    · obtain ⟨u', hu', hres⟩ := Option.map_eq_some_iff.1 h
      have hplain' := hids u' (mem_idsOf hq hu')
      rw [resolveIdAgainstParentBase, if_pos hplain'.absolute] at hres
      exact absurd (hres ▸ hmem _) hplain'.hash
    · obtain ⟨rfl, rfl⟩ := hsplit (plainUri_of_base hids hq hb) h
      obtain ⟨ss, hss⟩ := (base_iff hids hdistinct hR hu hq).1 hb
      have hptr' := (hss.context hu hplain.absolute).2
      exact ⟨hm, fun h => hne (by rw [h, Text.joined_nil]), ss, hss,
        Option.some.inj (hptr'.symm.trans hptr)⟩
  · rintro ⟨hm, hts, ss, hss, he⟩
    obtain ⟨hb, hptr⟩ := hss.context hu hplain.absolute
    rw [he] at hptr
    exact .inr ⟨hm, .inr (.inr ⟨u, _, hb, hptr, fun h => hts (Text.joined_eq_nil.1 h), rfl⟩)⟩

/-! ## References -/

theorem refTarget_eq_ok {refData : RefData} {ref : RString} {resolved : Option RString} :
    refTarget refData (some ref) resolved = .ok (some a) ↔
      refData.lookup (decodeRef (resolved.getD ref)) = some a ∨
        refData.lookup (decodeRef (resolved.getD ref)) = none ∧ resolved.getD ref ≠ ref ∧
          refData.lookup (decodeRef ref) = some a := by
  rw [refTarget]
  cases hl : refData.lookup (decodeRef (resolved.getD ref)) with
  | some a' => simp
  | none =>
    by_cases hne : resolved.getD ref = ref
    · simp [hne]
    · rw [Option.orElse_none, if_pos hne]
      cases hl' : refData.lookup (decodeRef ref) with
      | some a' => simp [hne]
      | none => simp

/-- A reference decodes to its base and the tokens of its fragment. -/
theorem decodeRef_eq {u f : RString} (hp : Text.percent ∉ u) (ht : Text.tilde ∉ u)
    (hf : Text.percentDecode f = Text.pointer ts) :
    decodeRef (u ++ str "#" ++ f) = u ++ str "#" ++ Text.joined ts := by
  have hhash : Text.percent ∉ str "#" ∧ Text.tilde ∉ str "#" := by decide
  have hpercent : ∀ c ∈ u ++ str "#", c ≠ Text.percent := by
    rintro c hc rfl
    exact (List.mem_append.1 hc).elim hp hhash.1
  have htilde : ∀ c ∈ u ++ str "#", c ≠ Text.tilde := by
    rintro c hc rfl
    exact (List.mem_append.1 hc).elim ht hhash.2
  rw [decodeRef, Text.percentDecode_append hpercent, hf, Text.replace_append htilde,
    Text.replace_append htilde, Text.unescape_pointer]

theorem decodeRef_pointer {f : RString} (hf : Text.percentDecode f = Text.pointer ts) :
    decodeRef (str "#" ++ f) = str "#" ++ Text.joined ts :=
  decodeRef_eq (u := []) List.not_mem_nil List.not_mem_nil hf

theorem not_isAbsolute_pointer (f : RString) : isAbsolute (str "#" ++ f) = false := rfl

end Documents

end FastJsonSchema
