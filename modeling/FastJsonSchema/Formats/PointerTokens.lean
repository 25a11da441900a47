import FastJsonSchema.Formats.JsonPointer
import FastJsonSchema.Ruby.Decimal

/-!
# The tokens of JSON pointers

`parse_json_pointer` accepts the pointers of the lists of well-formed tokens
(`parseJsonPointer_decides`). A character of a token is the escaped encoding of a scalar value; the
rounds of the inner loop are over these characters, and the rounds of the outer loop over the
slashes. A relative pointer is a decimal form with nothing, a number sign or a pointer after it;
its digits end where the rest starts (`integerPrefix_append`).
-/

namespace FastJsonSchema.Formats

open Ruby Scan Words

open Text (escape pointer slash tilde)

open Text.Utf8 (scalar wellFormed Sequence mem_scalar_iff mem_nonAscii_iff nonAscii_le_within)

open scoped Computability

variable {s t u v w x y z : Bytes} {c : UInt8}

/-! ## Characters of a token -/

/-- A character of a token in a pointer. -/
def tokenChar : Language UInt8 := {w | ∃ u ∈ scalar, w = escape u}

/-- A token in a pointer, with the slash before it. -/
def tokenItem : Language UInt8 := char '/' * tokenChar∗

/-- The body of the inner loop, which its test keeps from a slash. -/
def tokenStep (s : Bytes) : Result ℕ := do
  if (← byte s 0) = chr '/' then .ok 0 else consumeTokenChar s

theorem ne_of_two_le (h : Sequence u) (hlen : 2 ≤ u.length) : ∀ c ∈ u, c ≠ tilde ∧ c ≠ slash := by
  intro c hc
  have hhigh := nonAscii_le_within (mem_nonAscii_iff.2 ⟨h, hlen⟩) c hc
  constructor
  · rintro rfl
    exact absurd hhigh (by decide)
  · rintro rfl
    exact absurd hhigh (by decide)

theorem eq_singleton_of_sequence (h : Sequence u) (hlen : ¬ 2 ≤ u.length) :
    ∃ a, u = [a] ∧ a.toNat ≤ 0x7F := by
  cases h with
  | @one a h => exact ⟨a, rfl, h⟩
  | two | three | four => simp at hlen

/-- A scalar value is escaped when it is a tilde or a slash. -/
theorem mem_tokenChar_iff : w ∈ tokenChar ↔ w = str "~0" ∨ w = str "~1" ∨
    (Sequence w ∧ ∀ c ∈ w, c ≠ tilde ∧ c ≠ slash) := by
  constructor
  · rintro ⟨u, hu, rfl⟩
    have hseq := mem_scalar_iff.1 hu
    by_cases hlen : 2 ≤ u.length
    · have hne := ne_of_two_le hseq hlen
      rw [Text.escape_eq_self hne]
      exact .inr (.inr ⟨hseq, hne⟩)
    · obtain ⟨a, rfl, -⟩ := eq_singleton_of_sequence hseq hlen
      by_cases htilde : a = tilde
      · subst htilde
        exact .inl rfl
      · by_cases hslash : a = slash
        · subst hslash
          exact .inr (.inl rfl)
        · have hne : ∀ c ∈ [a], c ≠ tilde ∧ c ≠ slash :=
            List.forall_mem_singleton.2 ⟨htilde, hslash⟩
          rw [Text.escape_eq_self hne]
          exact .inr (.inr ⟨hseq, hne⟩)
  · rintro (rfl | rfl | ⟨hseq, hne⟩)
    · exact ⟨[tilde], mem_scalar_iff.2 (.one (by decide)), rfl⟩
    · exact ⟨[slash], mem_scalar_iff.2 (.one (by decide)), rfl⟩
    · exact ⟨w, mem_scalar_iff.2 hseq, (Text.escape_eq_self hne).symm⟩

theorem tokenStep_slash : tokenStep (chr '/' :: t) = .ok 0 := rfl

theorem tokenStep_cons (hc : c ≠ chr '/') : tokenStep (c :: t) = consumeTokenChar (c :: t) := by
  rw [tokenStep, byte_zero_cons, ok_bind, if_neg hc]

theorem tokenStep_consumes : Consumes tokenStep tokenChar fun _ => True where
  ends w hne := by
    obtain ⟨c, t, rfl⟩ := List.exists_cons_of_ne_nil hne
    by_cases hslash : c = chr '/'
    · rw [hslash, tokenStep_slash]
      exact .ok (.inl rfl)
    rw [tokenStep_cons hslash, consumeTokenChar, byte_zero_cons, ok_bind]
    refine .ite (fun htilde => ?_) fun htilde => .ite (fun hlow => ?_) fun hhigh => ?_
    · subst htilde
      refine .ite (fun _ => .ok (.inl rfl)) fun hlen => ?_
      obtain ⟨d, t, rfl⟩ := List.exists_cons_of_length_pos (l := t) (by
        rw [List.length_cons] at hlen
        omega)
      rw [byte_succ_cons, byte_zero_cons, ok_bind]
      refine .ok ?_
      split_ifs with hd
      · exact .inl rfl
      · refine .inr ⟨[chr '~', d], t, rfl, mem_tokenChar_iff.2 ?_, rfl⟩
        by_cases hzero : d = chr '0'
        · exact .inl (by rw [hzero]; rfl)
        · have hone : d = chr '1' := not_not.1 fun h => hd ⟨hzero, h⟩
          exact .inr (.inl (by rw [hone]; rfl))
    · refine .ok (.inr ⟨[c], t, rfl, mem_tokenChar_iff.2 (.inr (.inr ⟨.one ?_, ?_⟩)), rfl⟩)
      · exact Nat.le_of_lt_succ (UInt8.lt_iff_toNat_lt.1 hlow)
      · exact List.forall_mem_singleton.2 ⟨htilde, hslash⟩
    · refine (utf8SeqLen_consumes.ends _ hne).mono ?_
      rintro n (rfl | ⟨x, y, h, hx, rfl⟩)
      · exact .inl rfl
      · have hseq := mem_scalar_iff.1 hx
        refine .inr ⟨x, y, h, mem_tokenChar_iff.2 (.inr (.inr ⟨hseq, ?_⟩)), rfl⟩
        refine ne_of_two_le hseq (not_not.1 fun hlen => ?_)
        obtain ⟨a, rfl, ha⟩ := eq_singleton_of_sequence hseq hlen
        obtain rfl : c = a := (List.cons.inj h).1
        exact hhigh (UInt8.lt_iff_toNat_lt.2 (Nat.lt_succ_of_le ha))
  complete x hx y _ := by
    rcases mem_tokenChar_iff.1 hx with rfl | rfl | ⟨hseq, hne⟩
    · rfl
    · rfl
    · obtain ⟨c, t, rfl⟩ : ∃ c t, x = c :: t := by
        cases hseq with
        | one | two | three | four => exact ⟨_, _, rfl⟩
      obtain ⟨htilde, hslash⟩ := hne c List.mem_cons_self
      rw [List.cons_append, tokenStep_cons hslash, consumeTokenChar, byte_zero_cons, ok_bind,
        if_neg (show c ≠ chr '~' from htilde)]
      by_cases hlow : c < 0x80
      · rw [if_pos hlow]
        by_cases hlen : 2 ≤ (c :: t).length
        · have hhigh := nonAscii_le_within (mem_nonAscii_iff.2 ⟨hseq, hlen⟩) c List.mem_cons_self
          simp [Text.Utf8.isAscii, hlow] at hhigh
        · obtain ⟨a, h, -⟩ := eq_singleton_of_sequence hseq hlen
          rw [h, List.length_singleton]
      · rw [if_neg hlow, ← List.cons_append, utf8SeqLen_append hseq]

theorem mem_tokenChars_iff : w ∈ tokenChar∗ ↔ ∃ t ∈ wellFormed, w = escape t := by
  constructor
  · intro hw
    refine kstar_induction (P := fun w => ∃ t ∈ wellFormed, w = escape t)
      ⟨[], Language.nil_mem_kstar _, rfl⟩ ?_ hw
    rintro _ ⟨u, hu, rfl⟩ - _ - ⟨t, ht, rfl⟩
    exact ⟨u ++ t, append_mem_kstar hu ht, (Text.escape_append u t).symm⟩
  · rintro ⟨t, ht, rfl⟩
    refine kstar_induction (P := fun t => escape t ∈ tokenChar∗) (Language.nil_mem_kstar _) ?_ ht
    intro u hu _ t _ ih
    rw [Text.escape_append]
    exact append_mem_kstar ⟨u, hu, rfl⟩ ih

theorem mem_tokenItems_iff :
    w ∈ tokenItem∗ ↔ ∃ ts, (∀ t ∈ ts, t ∈ wellFormed) ∧ w = pointer ts := by
  constructor
  · intro hw
    refine kstar_induction (P := fun w => ∃ ts, (∀ t ∈ ts, t ∈ wellFormed) ∧ w = pointer ts)
      ⟨[], by simp, rfl⟩ ?_ hw
    rintro v hv - _ - ⟨ts, hts, rfl⟩
    obtain ⟨c, x, rfl, hc, hx⟩ := mem_letter_mul.1 hv
    obtain rfl := beq_iff_eq.1 hc
    obtain ⟨t, ht, rfl⟩ := mem_tokenChars_iff.1 hx
    exact ⟨t :: ts, List.forall_mem_cons.2 ⟨ht, hts⟩, rfl⟩
  · rintro ⟨ts, hts, rfl⟩
    induction ts with
    | nil => exact Language.nil_mem_kstar _
    | cons t ts ih =>
      obtain ⟨ht, hts⟩ := List.forall_mem_cons.1 hts
      refine append_mem_kstar (x := slash :: escape t) (mem_letter_mul.2 ?_) (ih hts)
      exact ⟨slash, escape t, rfl, by decide, mem_tokenChars_iff.2 ⟨t, ht, rfl⟩⟩

/-! ## Pointers -/

theorem tokenChar_ne_nil : ∀ w ∈ tokenChar, w ≠ [] := by
  rintro w hw rfl
  rcases mem_tokenChar_iff.1 hw with h | h | ⟨h, -⟩ <;> cases h

/-- A pointer is empty or starts with a slash. -/
theorem starts_tokenItems (hw : w ∈ tokenItem∗) : Starts (· == chr '/') w :=
  starts_kstar_letter_mul w hw

/-- The inner loop stops at what may follow a token. -/
theorem tokenStep_stuck (hw : Starts (· == chr '/') w) : Stuck tokenStep w := by
  cases w with
  | nil => exact .inl rfl
  | cons c t =>
    have hc : (c == chr '/') = true := hw c rfl
    rw [beq_iff_eq.1 hc]
    exact .inr tokenStep_slash

/-- Where a token ends is read off what follows it. -/
theorem token_append_inj (hx : x ∈ tokenChar∗) (hy : Stuck tokenStep y) (hv : v ∈ tokenChar∗)
    (hz : z ∈ tokenItem∗) (h : x ++ y = v ++ z) : x = v ∧ y = z :=
  tokenStep_consumes.append_inj tokenChar_ne_nil (fun _ => trivial) hx hy hv
    (tokenStep_stuck (starts_tokenItems hz)) h

theorem tokenItem_append_iff (hx : x ∈ tokenChar∗) (hy : Starts (· == chr '/') y) :
    chr '/' :: (x ++ y) ∈ tokenItem∗ ↔ y ∈ tokenItem∗ := by
  have hitem : chr '/' :: x ∈ tokenItem := cons_mem_letter_mul.2 ⟨beq_self_eq_true _, hx⟩
  rw [← List.cons_append]
  refine append_mem_kstar_iff hitem fun _ hmem _ z hz h => ?_
  obtain ⟨c, v, rfl, hc, hv⟩ := mem_letter_mul.1 hmem
  obtain rfl := beq_iff_eq.1 hc
  rw [(token_append_inj hx (tokenStep_stuck hy) hv hz (List.cons.inj h).2).1]

theorem not_tokenItem_of_stuck (hx : x ∈ tokenChar∗) (hstuck : Stuck tokenStep y)
    (hy : y.head?.any (fun c => !(c == chr '/')) = true) :
    chr '/' :: (x ++ y) ∉ tokenItem∗ := by
  intro hall
  rcases mem_kstar_iff.1 hall with h | ⟨v, hv, -, z, hz, h⟩
  · cases h
  · obtain ⟨c, v, rfl, -, hv⟩ := mem_letter_mul.1 hv
    obtain ⟨-, rfl⟩ := token_append_inj hx hstuck hv hz (List.cons.inj h).2
    cases y with
    | nil => simp at hy
    | cons d y =>
      have hd := starts_cons.1 (starts_tokenItems hz)
      simp [hd] at hy

/-- The tokens of a pointer, one in each round. -/
theorem parseJsonPointer_decides : Decides parseJsonPointer tokenItem∗ := by
  intro s
  let I : ℕ → Prop := fun i =>
    ∃ a t, s = a ++ t ∧ i = a.length ∧ (s ∈ tokenItem∗ ↔ t ∈ tokenItem∗)
  refine Ends.loop (I := I) (fun i => s.length - i) ?_ ⟨[], s, rfl, rfl, Iff.rfl⟩ (by omega)
  rintro i ⟨a, t, rfl, rfl, hiff⟩
  cases t with
  | nil =>
    rw [if_neg (by simp)]
    exact .ok (iff_of_true rfl (hiff.2 (Language.nil_mem_kstar _)))
  | cons c t =>
    rw [if_pos (by simp), byte_append rfl, ok_bind]
    refine .ite (fun hc => .ok (iff_of_false Bool.false_ne_true fun hall => hc ?_)) fun hc => ?_
    · have hslash : (c == chr '/') = true := starts_tokenItems (hiff.1 hall) c rfl
      exact beq_iff_eq.1 hslash
    · obtain rfl := not_not.1 hc
      have hstep : ∀ c w, (c == chr '/') = false → consumeTokenChar (c :: w) = tokenStep (c :: w) :=
        fun c w h => (tokenStep_cons (beq_eq_false_iff_ne.1 h)).symm
      have hinner := tokenStep_consumes.manyUntil_ends (p := (· == chr '/')) (a ++ [chr '/']) t rfl
      rw [← manyUntil_congr hstep, List.append_assoc, List.length_append] at hinner
      refine Ends.bind hinner fun o ho => ?_
      obtain ⟨x, y, rfl, hx, ⟨rfl, hy⟩ | ⟨rfl, hstuck, hy⟩⟩ := ho
      · refine .ok ⟨⟨a ++ chr '/' :: x, y, by simp, ?_,
          hiff.trans (tokenItem_append_iff hx hy)⟩, ?_⟩
        · simp only [List.length_append, List.length_cons, List.length_nil]
          omega
        · simp only [List.length_append, List.length_cons, List.length_nil]
          omega
      · exact .ok (iff_of_false Bool.false_ne_true fun hall =>
          not_tokenItem_of_stuck hx hstuck hy (hiff.1 hall))

/-! ## Relative pointers -/

/-- What may follow the number of a relative pointer. -/
def RelativeRest (r : Bytes) : Prop := r = [] ∨ r = str "#" ∨ parseJsonPointer r = .ok true

theorem RelativeRest.starts {r : Bytes} (h : RelativeRest r) :
    Starts (fun c => !isDigit c) r := by
  rcases h with rfl | rfl | h
  · exact starts_nil
  · exact starts_cons.2 (by decide)
  · intro c hc
    have hslash := starts_tokenItems (parseJsonPointer_decides.eq_ok.1 h) c hc
    rw [beq_iff_eq.1 hslash]
    decide

theorem integerPrefix_sound (hs : s ≠ []) : Ends (integerPrefix s) fun o =>
    ∀ pos ∈ o, ∃ d r, s = d ++ r ∧ RString.IsDecimal d ∧ pos = d.length := by
  obtain ⟨c, t, rfl⟩ := List.exists_cons_of_ne_nil hs
  rw [integerPrefix, byte_zero_cons, ok_bind]
  refine .ite (fun hc => ?_) fun hc => .ite (fun hdigit => ?_) fun _ => ?_
  · subst hc
    refine .ok ?_
    rintro pos ⟨⟩
    refine ⟨[chr '0'], t, rfl, ⟨by simp, ?_, fun _ => rfl⟩, rfl⟩
    exact List.forall_mem_singleton.2 (by decide)
  · obtain ⟨x, y, rfl, hx, hy⟩ := exists_run isDigit t
    have hskip := skipWhile_run_end (a := [c]) hx hy (i := 1) rfl rfl
    rw [List.singleton_append] at hskip
    rw [hskip, ok_bind]
    refine .ok ?_
    rintro pos ⟨⟩
    refine ⟨c :: x, y, rfl, ⟨by simp, ?_, ?_⟩, Nat.add_comm 1 _⟩
    · refine List.forall_mem_cons.2 ⟨isDigit_iff.1 ?_, fun d hd => isDigit_iff.1 (hx d hd)⟩
      have hle : chr '0' ≤ c := UInt8.le_trans (show chr '0' ≤ chr '1' by decide) hdigit.1
      simp [isDigit, hle, hdigit.2]
    · intro hzero
      exact absurd (Option.some.inj hzero) hc
  · exact .ok fun pos h => by cases h

/-- The digits of a number end where the rest starts. -/
theorem integerPrefix_append {d r : Bytes} (hd : RString.IsDecimal d)
    (hr : Starts (fun c => !isDigit c) r) : integerPrefix (d ++ r) = .ok (some d.length) := by
  obtain ⟨c, t, rfl⟩ := List.exists_cons_of_ne_nil hd.ne_nil
  rw [List.cons_append, integerPrefix, byte_zero_cons, ok_bind]
  by_cases hc : c = chr '0'
  · subst hc
    rw [if_pos rfl, hd.head rfl]
    rfl
  · obtain ⟨hlow, hhigh⟩ := hd.digits c List.mem_cons_self
    have hone : chr '1' ≤ c := by
      rw [UInt8.le_iff_toNat_le]
      have hne : c.toNat ≠ 48 := fun h => hc (UInt8.toNat_inj.1 h)
      show 49 ≤ c.toNat
      omega
    have ht : ∀ d ∈ t, isDigit d = true := fun d h =>
      isDigit_iff.2 (hd.digits d (List.mem_cons_of_mem _ h))
    have hskip := skipWhile_run_end (a := [c]) ht hr (i := 1) rfl rfl
    rw [List.singleton_append] at hskip
    rw [if_neg hc, if_pos ⟨hone, UInt8.le_iff_toNat_le.2 hhigh⟩, hskip, ok_bind, List.length_cons,
      Nat.add_comm]

/-- The part of `parse_relative_json_pointer` after the number. -/
theorem relativeRest_ends (d r : Bytes) : Ends (do
      if d.length = (d ++ r).length then .ok true else
      if (← byte (d ++ r) d.length) = chr '#' then .ok (d.length + 1 == (d ++ r).length) else
      parseJsonPointer (← window (d ++ r) d.length (d ++ r).length))
    fun b => b = true ↔ RelativeRest r := by
  cases r with
  | nil =>
    rw [if_pos (by simp)]
    exact .ok (iff_of_true rfl (.inl rfl))
  | cons c r =>
    rw [if_neg (by simp), byte_append rfl, ok_bind]
    refine .ite (fun hc => .ok ?_) fun hc => ?_
    · subst hc
      have hnot : parseJsonPointer (chr '#' :: r) ≠ .ok true := by
        intro h
        have hslash := starts_tokenItems (parseJsonPointer_decides.eq_ok.1 h) _ rfl
        exact absurd hslash (by decide)
      constructor
      · intro h
        obtain rfl : r = [] := by simpa using h
        exact .inr (.inl rfl)
      · rintro (h | h | h)
        · cases h
        · rw [(List.cons.inj h).2]
          simp
        · exact absurd h hnot
    · rw [window_suffix rfl rfl, ok_bind]
      obtain ⟨b, hb, -⟩ := parseJsonPointer_ends (c :: r)
      refine ⟨b, hb, ?_⟩
      constructor
      · rintro rfl
        exact .inr (.inr hb)
      · rintro (h | h | h)
        · cases h
        · exact absurd (List.cons.inj h).1 hc
        · rw [hb] at h
          exact Except.ok.inj h

theorem parseRelativeJsonPointer_decides (s : Bytes) : Ends (parseRelativeJsonPointer s) fun b =>
    b = true ↔ ∃ n r, s = decimal n ++ r ∧ RelativeRest r := by
  rw [parseRelativeJsonPointer]
  refine .ite (fun hzero => .ok (iff_of_false Bool.false_ne_true ?_)) fun hlen => ?_
  · rintro ⟨n, r, rfl, -⟩
    have hnil := (List.append_eq_nil_iff.1 (List.length_eq_zero_iff.1 hzero)).1
    exact (RString.isDecimal_decimal n).ne_nil hnil
  have hne : s ≠ [] := fun h => hlen (by rw [h]; rfl)
  obtain ⟨o, ho, hsound⟩ := integerPrefix_sound hne
  have hcomplete : ∀ n r, s = decimal n ++ r → RelativeRest r →
      o = some (List.length (decimal n)) := by
    rintro n r rfl hr
    rw [integerPrefix_append (RString.isDecimal_decimal n) hr.starts] at ho
    exact (Except.ok.inj ho).symm
  rw [ho, ok_bind]
  cases o with
  | none =>
    refine .ok (iff_of_false Bool.false_ne_true ?_)
    rintro ⟨n, r, hs, hr⟩
    cases hcomplete n r hs hr
  | some pos =>
    obtain ⟨d, r, rfl, hd, rfl⟩ := hsound pos rfl
    -- the number ends there in every derivation
    have hrest : (∃ n r', d ++ r = decimal n ++ r' ∧ RelativeRest r') ↔ RelativeRest r := by
      constructor
      · rintro ⟨n, r', hs, hr'⟩
        have hlength := Option.some.inj (hcomplete n r' hs hr')
        obtain ⟨-, rfl⟩ := List.append_inj hs hlength
        exact hr'
      · intro hr
        exact ⟨RString.number d, r, by rw [hd.decimal_number], hr⟩
    rw [hrest]
    dsimp only
    exact relativeRest_ends d r

/-- **JSON pointers** are the pointers of the lists of well-formed tokens, each of one list;
relative ones are a decimal form with nothing, a number sign or a pointer after it. -/
theorem parseJsonPointer_iff (s : Bytes) :
    (parseJsonPointer s = .ok true ↔ ∃ ts, (∀ t ∈ ts, t ∈ wellFormed) ∧ s = pointer ts) ∧
      (∀ ts ts', s = pointer ts → s = pointer ts' → ts = ts') ∧
      (parseRelativeJsonPointer s = .ok true ↔ ∃ n, s = decimal n ∨ s = decimal n ++ str "#" ∨
        ∃ p, s = decimal n ++ p ∧ parseJsonPointer p = .ok true) := by
  refine ⟨?_, fun ts ts' h h' => Text.pointer_injective (h.symm.trans h'), ?_⟩
  · rw [parseJsonPointer_decides.eq_ok, mem_tokenItems_iff]
  · obtain ⟨b, hb, hiff⟩ := parseRelativeJsonPointer_decides s
    rw [hb, Except.ok.injEq, hiff]
    apply exists_congr
    intro n
    constructor
    · rintro ⟨r, rfl, rfl | rfl | hr⟩
      · exact .inl (List.append_nil _)
      · exact .inr (.inl rfl)
      · exact .inr (.inr ⟨r, rfl, hr⟩)
    · rintro (rfl | rfl | ⟨p, rfl, hp⟩)
      · exact ⟨[], (List.append_nil _).symm, .inl rfl⟩
      · exact ⟨_, rfl, .inr (.inl rfl)⟩
      · exact ⟨p, rfl, .inr (.inr hp)⟩

end FastJsonSchema.Formats
