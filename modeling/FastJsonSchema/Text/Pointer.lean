import Mathlib.Data.List.Basic
import Mathlib.Tactic.Common

/-!
# JSON Pointers as text

Byte strings with one pass of percent-decoding, the replacement of all occurrences of a two-byte
pattern, and JSON Pointers: the tokens of a pointer, each escaped and headed by a slash
(`pointer`), or left as they are (`joined`).

Unescaping a pointer in two replacements, first the slashes and then the tildes, gives its tokens
left as they are (`unescape_pointer`). Joined tokens can be told apart when no token has a slash
(`joined_injective`).
-/

namespace Text

/-- The bytes that the text is made of. -/
abbrev Bytes := List UInt8

def slash : UInt8 := 0x2F
def tilde : UInt8 := 0x7E
def percent : UInt8 := 0x25

/-- The value of a hexadecimal digit. -/
def hexDigit (c : UInt8) : Option UInt8 :=
  if 0x30 ≤ c ∧ c ≤ 0x39 then some (c - 0x30)
  else if 0x41 ≤ c ∧ c ≤ 0x46 then some (c - 0x37)
  else if 0x61 ≤ c ∧ c ≤ 0x66 then some (c - 0x57)
  else none

/-- The byte of a percent triple without its percent sign. -/
def hexByte (a b : UInt8) : Option UInt8 :=
  match hexDigit a, hexDigit b with
  | some x, some y => some (16 * x + y)
  | _, _ => none

/-- One pass of percent-decoding, after `skip` more bytes of the current triple. -/
def percentDecodeFrom : ℕ → Bytes → Bytes
  | _, [] => []
  | skip + 1, _ :: s => percentDecodeFrom skip s
  | 0, c :: s =>
    match c == percent, s with
    | true, a :: b :: _ =>
      match hexByte a b with
      | some x => x :: percentDecodeFrom 2 s
      | none => c :: percentDecodeFrom 0 s
    | _, _ => c :: percentDecodeFrom 0 s

/-- One pass of percent-decoding. -/
def percentDecode (s : Bytes) : Bytes := percentDecodeFrom 0 s

/-- Every occurrence of `a` followed by `b` replaced by `r`, from left to right. -/
def replace (a b r : UInt8) : Bytes → Bytes
  | [] => []
  | [c] => [c]
  | c :: c' :: s => if c = a ∧ c' = b then r :: replace a b r s else c :: replace a b r (c' :: s)

/-- A token with its tildes escaped. -/
def escapeTilde (t : Bytes) : Bytes :=
  t.flatMap fun c => if c = tilde then [tilde, 0x30] else [c]

/-- A token with its tildes and slashes escaped. -/
def escape (t : Bytes) : Bytes :=
  t.flatMap fun c =>
    if c = tilde then [tilde, 0x30] else if c = slash then [tilde, 0x31] else [c]

/-- The JSON Pointer of a list of tokens. -/
def pointer (ts : List Bytes) : Bytes := ts.flatMap fun t => slash :: escape t

/-- The tokens, each headed by a slash. -/
def joined (ts : List Bytes) : Bytes := ts.flatMap fun t => slash :: t

/-! ## Percent-decoding -/

theorem percentDecode_cons {c : UInt8} (h : c ≠ percent) (s : Bytes) :
    percentDecode (c :: s) = c :: percentDecode s := by
  have hc : (c == percent) = false := by simpa using h
  rw [percentDecode, percentDecodeFrom.eq_def]
  simp only [hc]
  rfl

/-- A prefix without percent signs decodes to itself. -/
theorem percentDecode_append {s : Bytes} (h : ∀ c ∈ s, c ≠ percent) (s' : Bytes) :
    percentDecode (s ++ s') = s ++ percentDecode s' := by
  induction s with
  | nil => rfl
  | cons c s ih =>
    rw [List.cons_append, percentDecode_cons (h c (by simp)), ih fun x hx => h x (by simp [hx]),
      List.cons_append]

theorem percentDecode_triple {a b x : UInt8} (h : hexByte a b = some x) (s : Bytes) :
    percentDecode (percent :: a :: b :: s) = x :: percentDecode s := by
  have hstep : percentDecode (percent :: a :: b :: s) = x :: percentDecodeFrom 2 (a :: b :: s) := by
    rw [percentDecode, percentDecodeFrom.eq_def]
    simp only [beq_self_eq_true, h]
  rw [hstep, percentDecodeFrom, percentDecodeFrom]
  rfl

/-- `e` is `s` with some bytes as percent triples, all the percent signs among them. -/
inductive PercentEncodes : Bytes → Bytes → Prop
  | nil : PercentEncodes [] []
  | keep {c : UInt8} {s e : Bytes} (hc : c ≠ percent) (h : PercentEncodes s e) :
    PercentEncodes (c :: s) (c :: e)
  | triple {a b c : UInt8} {s e : Bytes} (hc : hexByte a b = some c) (h : PercentEncodes s e) :
    PercentEncodes (c :: s) (percent :: a :: b :: e)

/-- **Percent-decoding undoes every encoding**, whatever follows. -/
theorem percentDecode_encoded {s e : Bytes} (h : PercentEncodes s e) (s' : Bytes) :
    percentDecode (e ++ s') = s ++ percentDecode s' := by
  induction h with
  | nil => rfl
  | keep hc _ ih =>
    rw [List.cons_append, percentDecode_cons hc, ih, List.cons_append]
  | triple hc _ ih =>
    rw [List.cons_append, List.cons_append, List.cons_append, percentDecode_triple hc, ih,
      List.cons_append]

/-! ## Replacement -/

section Replace

variable {a b r : UInt8}

theorem replace_cons_of_ne {c : UInt8} (h : c ≠ a) (s : Bytes) :
    replace a b r (c :: s) = c :: replace a b r s := by
  cases s with
  | nil => rfl
  | cons c' s => rw [replace, if_neg fun hc => h hc.1]

theorem replace_pair (s : Bytes) : replace a b r (a :: b :: s) = r :: replace a b r s := by
  rw [replace, if_pos ⟨rfl, rfl⟩]

theorem replace_pair_of_ne {c : UInt8} (h : c ≠ b) (hc : c ≠ a) (s : Bytes) :
    replace a b r (a :: c :: s) = a :: c :: replace a b r s := by
  rw [replace, if_neg fun hc => h hc.2, replace_cons_of_ne hc]

/-- A prefix without the first byte of the pattern stays. -/
theorem replace_append {s : Bytes} (h : ∀ c ∈ s, c ≠ a) (s' : Bytes) :
    replace a b r (s ++ s') = s ++ replace a b r s' := by
  induction s with
  | nil => rfl
  | cons c s ih =>
    rw [List.cons_append, replace_cons_of_ne (h c (by simp)), ih fun x hx => h x (by simp [hx]),
      List.cons_append]

end Replace

/-! ## Unescaping -/

/-- The first pass, on an escaped token followed by anything. -/
theorem replace_escape (t s : Bytes) :
    replace tilde 0x31 slash (escape t ++ s) = escapeTilde t ++ replace tilde 0x31 slash s := by
  induction t with
  | nil => rfl
  | cons c t ih =>
    simp only [escape, escapeTilde, List.flatMap_cons, List.append_assoc] at ih ⊢
    by_cases ht : c = tilde
    · simp only [ht, if_true, List.cons_append, List.nil_append]
      rw [replace_pair_of_ne (by decide) (by decide), ih]
    · by_cases hs : c = slash
      · simp only [hs, if_neg (show slash ≠ tilde by decide), if_true, List.cons_append,
          List.nil_append]
        rw [replace_pair, ih]
      · simp only [if_neg ht, if_neg hs, List.cons_append, List.nil_append]
        rw [replace_cons_of_ne ht, ih]

/-- The second pass, on a token with escaped tildes followed by anything. -/
theorem replace_escapeTilde (t s : Bytes) :
    replace tilde 0x30 tilde (escapeTilde t ++ s) = t ++ replace tilde 0x30 tilde s := by
  induction t with
  | nil => rfl
  | cons c t ih =>
    simp only [escapeTilde, List.flatMap_cons, List.append_assoc] at ih ⊢
    by_cases ht : c = tilde
    · simp only [ht, if_true, List.cons_append, List.nil_append]
      rw [replace_pair, ih]
    · simp only [if_neg ht, List.cons_append, List.nil_append]
      rw [replace_cons_of_ne ht, ih]

/-- **Unescaping a pointer** gives its tokens as they are. -/
theorem unescape_pointer (ts : List Bytes) :
    replace tilde 0x30 tilde (replace tilde 0x31 slash (pointer ts)) = joined ts := by
  have hfirst : replace tilde 0x31 slash (pointer ts)
      = ts.flatMap fun t => slash :: escapeTilde t := by
    induction ts with
    | nil => rfl
    | cons t ts ih =>
      rw [pointer, List.flatMap_cons, List.cons_append, replace_cons_of_ne (by decide),
        replace_escape, ← pointer, ih, List.flatMap_cons, List.cons_append]
  rw [hfirst]
  clear hfirst
  induction ts with
  | nil => rfl
  | cons t ts ih =>
    rw [List.flatMap_cons, List.cons_append, replace_cons_of_ne (by decide),
      replace_escapeTilde, ih]
    rfl

/-- A separator splits a text at its first occurrence. -/
theorem append_cons_inj {c : UInt8} {s s' t t' : Bytes} (h : c ∉ s) (h' : c ∉ s')
    (he : s ++ c :: t = s' ++ c :: t') : s = s' ∧ t = t' := by
  induction s generalizing s' with
  | nil =>
    cases s' with
    | nil => exact ⟨rfl, (List.cons.inj he).2⟩
    | cons b s' => exact absurd (by simp [(List.cons.inj he).1]) h'
  | cons a s ih =>
    cases s' with
    | nil => exact absurd (by simp [(List.cons.inj he).1]) h
    | cons b s' =>
      obtain ⟨rfl, htail⟩ := List.cons.inj he
      obtain ⟨rfl, rfl⟩ := ih (fun hc => h (List.mem_cons_of_mem _ hc))
        (fun hc => h' (List.mem_cons_of_mem _ hc)) htail
      exact ⟨rfl, rfl⟩

/-! ## Joined tokens -/

@[simp] theorem joined_nil : joined [] = [] := rfl

theorem joined_cons (t : Bytes) (ts : List Bytes) :
    joined (t :: ts) = slash :: (t ++ joined ts) := rfl

theorem joined_append (ts ts' : List Bytes) : joined (ts ++ ts') = joined ts ++ joined ts' :=
  List.flatMap_append

theorem joined_eq_nil {ts : List Bytes} : joined ts = [] ↔ ts = [] := by
  cases ts with
  | nil => simp
  | cons t ts => simp [joined_cons]

/-- A token ends at the first slash after it. -/
theorem append_joined_inj {t t' : Bytes} {ts ts' : List Bytes} (h : slash ∉ t) (h' : slash ∉ t')
    (he : t ++ joined ts = t' ++ joined ts') : t = t' ∧ joined ts = joined ts' := by
  have hend : ∀ {t t' : Bytes} {u : Bytes} {us : List Bytes}, slash ∉ t →
      t ++ [] ≠ t' ++ joined (u :: us) := by
    intro t t' u us ht he
    rw [List.append_nil] at he
    exact ht (by rw [he, joined_cons]; simp)
  cases ts with
  | nil =>
    cases ts' with
    | nil => exact ⟨by simpa using he, rfl⟩
    | cons u' us' => exact absurd he (hend h)
  | cons u us =>
    cases ts' with
    | nil => exact absurd he.symm (hend h')
    | cons u' us' =>
      rw [joined_cons, joined_cons] at he ⊢
      obtain ⟨rfl, htail⟩ := append_cons_inj h h' he
      exact ⟨rfl, by rw [htail]⟩

/-- **Tokens without slashes can be told apart in the joined text.** -/
theorem joined_injective {ts ts' : List Bytes} (h : ∀ t ∈ ts, slash ∉ t)
    (h' : ∀ t ∈ ts', slash ∉ t) (he : joined ts = joined ts') : ts = ts' := by
  induction ts generalizing ts' with
  | nil => exact (joined_eq_nil.1 (by rw [← he, joined_nil])).symm
  | cons t ts ih =>
    cases ts' with
    | nil => simp [joined_cons] at he
    | cons t' ts' =>
      rw [joined_cons, joined_cons] at he
      obtain ⟨ht, hts⟩ := List.forall_mem_cons.1 h
      obtain ⟨ht', hts'⟩ := List.forall_mem_cons.1 h'
      obtain ⟨rfl, hj⟩ := append_joined_inj ht ht' (List.cons.inj he).2
      rw [ih hts hts' hj]

/-- A pointer whose tokens are escaped and then encoded decodes to the pointer. -/
theorem percentDecode_pointer {ts es : List Bytes}
    (h : List.Forall₂ (fun t e => PercentEncodes (escape t) e) ts es) :
    percentDecode (joined es) = pointer ts := by
  induction h with
  | nil => rfl
  | cons he _ ih =>
    rw [joined_cons, percentDecode_cons (by decide), percentDecode_encoded he, ih]
    rfl

/-! ## Escaping -/

theorem escape_append (s t : Bytes) : escape (s ++ t) = escape s ++ escape t :=
  List.flatMap_append

theorem escape_eq_self {t : Bytes} (h : ∀ c ∈ t, c ≠ tilde ∧ c ≠ slash) : escape t = t := by
  induction t with
  | nil => rfl
  | cons c t ih =>
    obtain ⟨⟨htilde, hslash⟩, ht⟩ := List.forall_mem_cons.1 h
    have hrest := ih ht
    rw [escape] at hrest ⊢
    rw [List.flatMap_cons, if_neg htilde, if_neg hslash, hrest, List.singleton_append]

theorem slash_notMem_escape (t : Bytes) : slash ∉ escape t := by
  intro h
  obtain ⟨c, -, hc⟩ := List.mem_flatMap.1 h
  split_ifs at hc with htilde hslash
  · exact absurd hc (by decide)
  · exact absurd hc (by decide)
  · exact hslash (List.mem_singleton.1 hc).symm

theorem escape_injective : Function.Injective escape := by
  intro t t' h
  have hdecode : ∀ t, replace tilde 0x30 tilde (replace tilde 0x31 slash (escape t)) = t := by
    intro t
    have hfirst := replace_escape t []
    have hsecond := replace_escapeTilde t []
    rw [List.append_nil] at hfirst hsecond
    rw [hfirst, show replace tilde 0x31 slash [] = [] from rfl, List.append_nil, hsecond,
      show replace tilde 0x30 tilde [] = [] from rfl, List.append_nil]
  rw [← hdecode t, h, hdecode t']

theorem pointer_eq_joined (ts : List Bytes) : pointer ts = joined (ts.map escape) := by
  rw [pointer, joined, List.flatMap_map]

/-- **A JSON Pointer has one list of tokens.** -/
theorem pointer_injective : Function.Injective pointer := by
  intro ts ts' h
  rw [pointer_eq_joined, pointer_eq_joined] at h
  have hfree : ∀ ts : List Bytes, ∀ t ∈ ts.map escape, slash ∉ t := by
    intro ts t ht
    obtain ⟨u, -, rfl⟩ := List.mem_map.1 ht
    exact slash_notMem_escape u
  exact List.map_injective_iff.2 escape_injective (joined_injective (hfree ts) (hfree ts') h)

end Text
