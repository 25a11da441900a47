import FastJsonSchema.Ruby.Value
import FastJsonSchema.Scan.Consume
import FastJsonSchema.Text.Utf8

/-!
# The classes of bytes and UTF-8 sequences of the format parsers

The macros that the format parsers share with the rules of their grammars, and `utf8_seq_len` of
`formats/utils/utf8.c`, which consumes the encoding of a scalar value (`utf8SeqLen_consumes`), so
that a loop over it gets through the well-formed strings. The parsers with `allow_utf8` take a
character of a class or a sequence outside of ASCII (`classChar_consumes`).
-/

namespace FastJsonSchema.Formats

open Ruby Scan Words

open Text.Utf8 (Sequence scalar nonAscii isAscii mem_scalar_iff mem_nonAscii_iff
  nonAscii_le_within)

/-- The byte of an ASCII character. -/
def chr (c : Char) : UInt8 := UInt8.ofNat c.toNat

/-- `IS_DIGIT` -/
def isDigit (c : UInt8) : Bool := chr '0' ≤ c && c ≤ chr '9'

theorem isDigit_iff {c : UInt8} : isDigit c = true ↔ 48 ≤ c.toNat ∧ c.toNat ≤ 57 := by
  rw [isDigit, Bool.and_eq_true, decide_eq_true_eq, decide_eq_true_eq, UInt8.le_iff_toNat_le,
    UInt8.le_iff_toNat_le]
  rfl

/-- `IS_ALPHA` -/
def isAlpha (c : UInt8) : Bool := chr 'A' ≤ c && c ≤ chr 'Z' || chr 'a' ≤ c && c ≤ chr 'z'

/-- `IS_HEX` -/
def isHex (c : UInt8) : Bool :=
  isDigit c || chr 'A' ≤ c && c ≤ chr 'F' || chr 'a' ≤ c && c ≤ chr 'f'

/-- The bytes of a `Let-dig`. -/
def isLetDig (c : UInt8) : Bool := isAlpha c || isDigit c

/-! ### ASCII classes -/

theorem lt_of_range {a b : Char} {c : UInt8} (hb : chr b < 0x80)
    (hc : (decide (chr a ≤ c) && decide (c ≤ chr b)) = true) : c < 0x80 := by
  rw [Bool.and_eq_true, decide_eq_true_eq, decide_eq_true_eq] at hc
  exact UInt8.lt_of_le_of_lt hc.2 hb

theorem lt_of_contains {s : String} {c : UInt8} (hs : (str s).all isAscii = true)
    (hc : (str s).contains c = true) : c < 0x80 := by
  have hascii := List.all_eq_true.1 hs c (by simpa using hc)
  simpa [isAscii] using hascii

theorem lt_of_or {p q : Bool} {c : UInt8} (hp : p = true → c < 0x80) (hq : q = true → c < 0x80)
    (hc : (p || q) = true) : c < 0x80 :=
  (Bool.or_eq_true p q ▸ hc).elim hp hq

/-- A class of ASCII characters and one more. -/
theorem lt_of_or_chr {p : UInt8 → Bool} {k : Char} (hp : ∀ c, p c = true → c < 0x80)
    (hk : chr k < 0x80) (c : UInt8) (hc : (p c || c == chr k) = true) : c < 0x80 := by
  rw [Bool.or_eq_true, beq_iff_eq] at hc
  rcases hc with hc | rfl
  · exact hp c hc
  · exact hk

theorem isDigit_lt (c : UInt8) : isDigit c = true → c < 0x80 := lt_of_range (by decide)

theorem isAlpha_lt (c : UInt8) : isAlpha c = true → c < 0x80 :=
  lt_of_or (lt_of_range (by decide)) (lt_of_range (by decide))

theorem isHex_lt (c : UInt8) : isHex c = true → c < 0x80 :=
  lt_of_or (lt_of_or (isDigit_lt c) (lt_of_range (by decide))) (lt_of_range (by decide))

theorem isLetDig_lt (c : UInt8) : isLetDig c = true → c < 0x80 :=
  lt_of_or (isAlpha_lt c) (isDigit_lt c)

/-- A property of bytes that holds of each of them. -/
theorem forall_byte {P : UInt8 → Prop} (h : ∀ n : Fin 256, P (UInt8.ofFin n)) (c : UInt8) : P c :=
  h c.toFin

/-- `utf8_seq_len` -/
def utf8SeqLen (s : Bytes) : Result ℕ :=
  if s.length < 1 then .ok 0 else do
  let firstByte ← byte s 0
  if firstByte ≤ 0x7F then .ok 1 else
  if firstByte < 0xC2 then .ok 0 else
  if firstByte ≤ 0xDF then
    if s.length < 2 then .ok 0 else do
    let b ← byte s 1
    if b < 0x80 ∨ 0xBF < b then .ok 0 else
    .ok 2
  else if firstByte ≤ 0xEF then
    if s.length < 3 then .ok 0 else do
    let low : UInt8 := if firstByte = 0xE0 then 0xA0 else 0x80
    let high : UInt8 := if firstByte = 0xED then 0x9F else 0xBF
    let b ← byte s 1
    if b < low ∨ high < b then .ok 0 else do
    let c ← byte s 2
    if c < 0x80 ∨ 0xBF < c then .ok 0 else
    .ok 3
  else if firstByte ≤ 0xF4 then
    if s.length < 4 then .ok 0 else do
    let low : UInt8 := if firstByte = 0xF0 then 0x90 else 0x80
    let high : UInt8 := if firstByte = 0xF4 then 0x8F else 0xBF
    let b ← byte s 1
    if b < low ∨ high < b then .ok 0 else do
    let c ← byte s 2
    if c < 0x80 ∨ 0xBF < c then .ok 0 else do
    let d ← byte s 3
    if d < 0x80 ∨ 0xBF < d then .ok 0 else
    .ok 4
  else .ok 0

variable {s u w y : Bytes} {n : ℕ}

/-- The encoding of a scalar value at the start of a window. -/
def Leads (w : Bytes) (n : ℕ) : Prop := n = 0 ∨ ∃ x y, w = x ++ y ∧ Sequence x ∧ n = x.length

theorem leads_take {x : Bytes} (h : Sequence x) (y : Bytes) : Leads (x ++ y) x.length :=
  .inr ⟨x, y, rfl, h, rfl⟩

theorem tail_of_not {b : UInt8} (h : ¬ (b.toNat < 128 ∨ 191 < b.toNat)) : Text.Utf8.Tail b := by
  unfold Text.Utf8.Tail
  omega

theorem not_of_tail {b : UInt8} (h : Text.Utf8.Tail b) : ¬ (b.toNat < 128 ∨ 191 < b.toNat) := by
  unfold Text.Utf8.Tail at h
  omega

/-- The check of a second byte, with the tighter bounds behind the irregular lead bytes. -/
theorem second_iff {P Q : Prop} [Decidable P] [Decidable Q] {b : UInt8} {low high : ℕ}
    (hlow : 128 ≤ low) (hhigh : high ≤ 191) :
    ¬ (b.toNat < (if P then low else 128) ∨ (if Q then high else 191) < b.toNat) ↔
      Text.Utf8.Tail b ∧ (P → low ≤ b.toNat) ∧ (Q → b.toNat ≤ high) := by
  unfold Text.Utf8.Tail
  by_cases hP : P
  · by_cases hQ : Q
    · simp only [hP, hQ, if_true, true_implies]
      omega
    · simp only [hP, hQ, if_true, if_false, true_implies, false_implies, and_true]
      omega
  · by_cases hQ : Q
    · simp only [hP, hQ, if_true, if_false, true_implies, false_implies, true_and]
      omega
    · simp only [hP, hQ, if_false, false_implies, and_true]
      omega

theorem utf8SeqLen_ends (w : Bytes) : Ends (utf8SeqLen w) (Leads w) := by
  have hzero : Leads w 0 := .inl rfl
  unfold utf8SeqLen
  refine .ite (fun _ => .ok hzero) fun hne => ?_
  obtain ⟨a, t, rfl⟩ := List.exists_cons_of_length_pos (Nat.not_lt.1 hne)
  simp only [byte_zero_cons, ok_bind, byte_succ_cons, List.length_cons, UInt8.le_iff_toNat_le,
    UInt8.lt_iff_toNat_lt, ← UInt8.toNat_inj, apply_ite UInt8.toNat, UInt8.reduceToNat]
  refine .ite (fun h => .ok (leads_take (x := [a]) (.one h) t)) fun h₁ => ?_
  refine .ite (fun _ => .ok hzero) fun h₂ => ?_
  refine .ite (fun h => ?_) fun h₃ => .ite (fun h => ?_) fun h₄ => .ite (fun h => ?_) fun _ =>
    .ok hzero
  · refine .ite (fun _ => .ok hzero) fun hlen => ?_
    obtain ⟨b, t, rfl⟩ := List.exists_cons_of_length_pos (l := t) (by omega)
    rw [byte_zero_cons, ok_bind]
    refine .ite (fun _ => .ok hzero) fun hb => .ok (leads_take (x := [a, b]) (.two ?_ h ?_) t)
    · exact Nat.not_lt.1 h₂
    · exact tail_of_not hb
  · refine .ite (fun _ => .ok hzero) fun hlen => ?_
    obtain ⟨b, t, rfl⟩ := List.exists_cons_of_length_pos (l := t) (by omega)
    rw [List.length_cons] at hlen
    obtain ⟨c, t, rfl⟩ := List.exists_cons_of_length_pos (l := t) (by omega)
    simp only [byte_zero_cons, byte_succ_cons, ok_bind]
    refine .ite (fun _ => .ok hzero) fun hb => .ite (fun _ => .ok hzero) fun hc => ?_
    obtain ⟨hb, hlong, hsurrogate⟩ := (second_iff (by decide) (by decide)).1 hb
    refine .ok (leads_take (x := [a, b, c]) (.three ?_ h hb (tail_of_not hc) hlong hsurrogate) t)
    omega
  · refine .ite (fun _ => .ok hzero) fun hlen => ?_
    obtain ⟨b, t, rfl⟩ := List.exists_cons_of_length_pos (l := t) (by omega)
    rw [List.length_cons] at hlen
    obtain ⟨c, t, rfl⟩ := List.exists_cons_of_length_pos (l := t) (by omega)
    rw [List.length_cons] at hlen
    obtain ⟨d, t, rfl⟩ := List.exists_cons_of_length_pos (l := t) (by omega)
    simp only [byte_zero_cons, byte_succ_cons, ok_bind]
    refine .ite (fun _ => .ok hzero) fun hb => .ite (fun _ => .ok hzero) fun hc =>
      .ite (fun _ => .ok hzero) fun hd => ?_
    obtain ⟨hb, hlong, hlarge⟩ := (second_iff (by decide) (by decide)).1 hb
    refine .ok (leads_take (x := [a, b, c, d])
      (.four ?_ h hb (tail_of_not hc) (tail_of_not hd) hlong hlarge) t)
    omega

theorem utf8SeqLen_append (h : Sequence u) (y : Bytes) : utf8SeqLen (u ++ y) = .ok u.length := by
  unfold utf8SeqLen
  cases h with
  | @one a h =>
    simp [UInt8.le_iff_toNat_le, h]
  | @two a b h h' hb =>
    have h₁ : ¬ a.toNat ≤ 127 := by omega
    have h₂ : ¬ a.toNat < 194 := by omega
    simp [UInt8.le_iff_toNat_le, UInt8.lt_iff_toNat_lt, h₁, h₂, h', not_of_tail hb]
  | @three a b c h h' hb hc hlong hsurrogate =>
    have h₁ : ¬ a.toNat ≤ 127 := by omega
    have h₂ : ¬ a.toNat < 194 := by omega
    have h₃ : ¬ a.toNat ≤ 223 := by omega
    have hb' : ¬ (b.toNat < (if a.toNat = 224 then 160 else 128) ∨
        (if a.toNat = 237 then 159 else 191) < b.toNat) :=
      (second_iff (by decide) (by decide)).2 ⟨hb, hlong, hsurrogate⟩
    simp [UInt8.le_iff_toNat_le, UInt8.lt_iff_toNat_lt, ← UInt8.toNat_inj, apply_ite UInt8.toNat,
      h₁, h₂, h₃, h', hb', not_of_tail hc]
  | @four a b c d h h' hb hc hd hlong hlarge =>
    have h₁ : ¬ a.toNat ≤ 127 := by omega
    have h₂ : ¬ a.toNat < 194 := by omega
    have h₃ : ¬ a.toNat ≤ 223 := by omega
    have h₄ : ¬ a.toNat ≤ 239 := by omega
    have hb' : ¬ (b.toNat < (if a.toNat = 240 then 144 else 128) ∨
        (if a.toNat = 244 then 143 else 191) < b.toNat) :=
      (second_iff (by decide) (by decide)).2 ⟨hb, hlong, hlarge⟩
    simp [UInt8.le_iff_toNat_le, UInt8.lt_iff_toNat_lt, ← UInt8.toNat_inj, apply_ite UInt8.toNat,
      h₁, h₂, h₃, h₄, h', hb', not_of_tail hc, not_of_tail hd]

/-- **UTF-8 sequences.** `utf8_seq_len` consumes the encodings of the scalar values. -/
theorem utf8SeqLen_consumes : Consumes utf8SeqLen scalar fun _ => True where
  ends w _ := by
    refine (utf8SeqLen_ends w).mono ?_
    rintro n (rfl | ⟨x, y, rfl, hx, rfl⟩)
    · exact .inl rfl
    · exact .inr ⟨x, y, rfl, mem_scalar_iff.2 hx, rfl⟩
  complete x hx y _ := utf8SeqLen_append (mem_scalar_iff.1 hx) y

/-! ### Strings of sequences -/

theorem utf8SeqLen_total {remaining : ℕ} (hr : remaining ≤ s.length) :
    ∃ n, (window s 0 remaining >>= utf8SeqLen) = .ok n := by
  rw [window_eq (Nat.zero_le _) hr, ok_bind]
  obtain ⟨n, hn, -⟩ := utf8SeqLen_ends ((s.take remaining).drop 0)
  exact ⟨n, hn⟩

/-- What is reported of the first bytes of a string is the encoding that the string starts with. -/
theorem utf8SeqLen_window_iff {remaining : ℕ} (hr : remaining ≤ s.length) :
    (window s 0 remaining >>= utf8SeqLen) = .ok n ∧ 0 < n ↔
      n ≤ remaining ∧ s.take n ∈ scalar := by
  rw [window_eq (Nat.zero_le _) hr, ok_bind, List.drop_zero]
  constructor
  · rintro ⟨hn, hpos⟩
    have hleads : Leads (s.take remaining) n := (utf8SeqLen_ends _).of_eq_ok hn
    obtain ⟨x, y, hxy, hx, rfl⟩ := hleads.resolve_left hpos.ne'
    have hlen : x.length ≤ remaining := by
      have hlength := congrArg List.length hxy
      rw [List.length_take, List.length_append] at hlength
      omega
    have htake : s.take x.length = x := by
      rw [← Nat.min_eq_left hlen, ← List.take_take, hxy, List.take_left]
    rw [htake]
    exact ⟨hlen, mem_scalar_iff.2 hx⟩
  · rintro ⟨hn, hscalar⟩
    have hlen : (s.take n).length = n := List.length_take_of_le (hn.trans hr)
    have hcut : s.take n ++ (s.take remaining).drop n = s.take remaining := by
      rw [← Nat.min_eq_left hn, ← List.take_take, Nat.min_eq_left hn, List.take_append_drop]
    have hseq := utf8SeqLen_consumes.complete _ hscalar ((s.take remaining).drop n) trivial
    rw [hcut, hlen] at hseq
    refine ⟨hseq, ?_⟩
    rw [← hlen]
    exact List.length_pos_iff.2 (Text.Utf8.scalar_ne_nil _ hscalar)

/-- **Strings of UTF-8 sequences.** `utf8_seq_len` reports the encoding of a scalar value that the
bytes start with, a string is cut into encodings in at most one way, and a loop over `utf8_seq_len`
gets through the well-formed strings and no others. -/
theorem utf8SeqLen_iff (s : Bytes) :
    (∀ remaining ≤ s.length, (∃ n, (window s 0 remaining >>= utf8SeqLen) = .ok n) ∧
      ∀ n, (window s 0 remaining >>= utf8SeqLen) = .ok n ∧ 0 < n ↔
        n ≤ remaining ∧ ∃ c : Char, s.take n = String.utf8EncodeChar c) ∧
      (∀ ws ws' : List Bytes, (∀ w ∈ ws, ∃ c : Char, w = String.utf8EncodeChar c) →
        (∀ w ∈ ws', ∃ c : Char, w = String.utf8EncodeChar c) →
          ws.flatten = s → ws'.flatten = s → ws = ws') ∧
      ∃ b, every utf8SeqLen s 0 = .ok b ∧
        (b = true ↔ ∃ cs : List Char, s = cs.flatMap String.utf8EncodeChar) := by
  have hcode : InformationTheory.UniquelyDecodable scalar :=
    utf8SeqLen_consumes.uniquelyDecodable Text.Utf8.scalar_ne_nil fun _ => trivial
  refine ⟨fun remaining hr => ⟨utf8SeqLen_total hr, fun n => utf8SeqLen_window_iff hr⟩, ?_, ?_⟩
  · intro ws ws' hws hws' h h'
    exact hcode ws ws' hws hws' (h.trans h'.symm)
  · obtain ⟨b, hb, hiff⟩ := utf8SeqLen_consumes.every_decides_kstar Text.Utf8.scalar_ne_nil
      (fun _ => trivial) s
    exact ⟨b, hb, hiff.trans Text.Utf8.mem_wellFormed_iff⟩

theorem utf8SeqLen_iff_euro :
    (window [0xE2, 0x82, 0xAC, 0x31] 0 4 >>= utf8SeqLen) = .ok 3 ∧ 0 < 3 :=
  (((utf8SeqLen_iff [0xE2, 0x82, 0xAC, 0x31]).1 4 (by decide)).2 3).2 ⟨by decide, '€', by decide⟩

/-! ## Characters of a grammar -/

variable {p q : UInt8 → Bool} {k : Char} {L : Language UInt8} {u : Bool} {c : UInt8} {s x : Bytes}

/-- One of the characters between two. -/
def range (a b : Char) : Language UInt8 := letter fun c => chr a ≤ c && c ≤ chr b

/-- A character. -/
def char (c : Char) : Language UInt8 := letter (· == chr c)

/-- One of the characters of a string. -/
def oneOf (s : String) : Language UInt8 := letter fun c => (str s).contains c

/-- `DIGIT` -/
def digit : Language UInt8 := letter isDigit

/-- `ALPHA` -/
def alpha : Language UInt8 := range 'A' 'Z' + range 'a' 'z'

/-- `Let-dig` -/
def letDig : Language UInt8 := alpha + digit

/-- The sequences that `allow_utf8` adds to a class. -/
def utf8NonAscii (allowUtf8 : Bool) : Language UInt8 := if allowUtf8 then nonAscii else 0

@[simp] theorem cons_mem_char_mul : c :: s ∈ char k * L ↔ c = chr k ∧ s ∈ L := by
  simp [char]

theorem alpha_eq : alpha = letter isAlpha := letter_or.symm

theorem letDig_eq : letDig = letter isLetDig := by
  rw [letDig, alpha_eq, digit, ← letter_or]
  rfl

theorem of_beq_chr (hk : q (chr k) = true) : ∀ c, (c == chr k) = true → q c = true := by
  intro c hc
  rw [beq_iff_eq.1 hc]
  exact hk

/-- A delimiter outside of a class ends the words over the class. -/
theorem beq_chr_of_class (hk : q (chr k) = false) : ∀ c, q c = true → (c == chr k) = false := by
  intro c hc
  rw [beq_eq_false_iff_ne]
  rintro rfl
  rw [hc] at hk
  cases hk

theorem char_le (hk : q (chr k) = true) : char k ≤ within q := letter_le_within (of_beq_chr hk)

theorem utf8NonAscii_le : utf8NonAscii u ≤ within fun c => !isAscii c := by
  cases u with
  | false => exact bot_le
  | true => exact nonAscii_le_within

theorem head_nonAscii (hx : x ∈ nonAscii) : ∃ c t, x = c :: t ∧ ¬ c < 0x80 ∧ 2 ≤ x.length := by
  obtain ⟨-, hlen⟩ := mem_nonAscii_iff.1 hx
  obtain ⟨c, t, rfl⟩ := List.exists_cons_of_length_pos (Nat.zero_lt_of_lt hlen)
  have hc := nonAscii_le_within hx c List.mem_cons_self
  refine ⟨c, t, rfl, ?_, hlen⟩
  simpa [isAscii] using hc

theorem utf8NonAscii_ne_nil : ∀ w ∈ utf8NonAscii u, w ≠ [] := by
  intro w hw
  cases u with
  | false => exact absurd hw (Language.notMem_zero w)
  | true =>
    obtain ⟨c, t, rfl, -⟩ := head_nonAscii hw
    simp

theorem mem_nonAscii_of_scalar (hx : x ∈ scalar) (hlen : 2 ≤ x.length) : x ∈ nonAscii :=
  mem_nonAscii_iff.2 ⟨mem_scalar_iff.1 hx, hlen⟩

/-- What `utf8_seq_len` takes at a byte outside of ASCII. -/
theorem utf8SeqLen_high_ends (hc : ¬ c < 0x80) : Ends (utf8SeqLen (c :: s)) fun n =>
    n = 0 ∨ ∃ x y, c :: s = x ++ y ∧ x ∈ nonAscii ∧ n = x.length := by
  refine (utf8SeqLen_consumes.ends (c :: s) (by simp)).mono ?_
  rintro n (rfl | ⟨x, y, hw, hx, rfl⟩)
  · exact .inl rfl
  · refine .inr ⟨x, y, hw, ?_, rfl⟩
    have hseq := mem_scalar_iff.1 hx
    cases hseq with
    | @one a h =>
      obtain rfl : c = a := (List.cons.inj hw).1
      rw [UInt8.lt_iff_toNat_lt] at hc
      exact absurd (Nat.lt_succ_of_le h) hc
    | two h h' hb => exact mem_nonAscii_of_scalar hx (by simp)
    | three h h' hb hc => exact mem_nonAscii_of_scalar hx (by simp)
    | four h h' hb hc hd => exact mem_nonAscii_of_scalar hx (by simp)

/-- A character of a class, or a UTF-8 sequence outside of ASCII where `allow_utf8` is set. -/
def classChar (p : UInt8 → Bool) (allowUtf8 : Bool) (s : Bytes) : Result ℕ := do
  let c ← byte s 0
  if c < 0x80 then .ok (if p c then 1 else 0) else
  if !allowUtf8 then .ok 0 else
  utf8SeqLen s

/-- The words that `classChar` takes. -/
def charOf (p : UInt8 → Bool) (u : Bool) : Language UInt8 := letter p + utf8NonAscii u

theorem charOf_ne_nil : ∀ w ∈ charOf p u, w ≠ [] := by
  rintro w (⟨c, rfl, -⟩ | hw)
  · simp
  · exact utf8NonAscii_ne_nil w hw

theorem length_charOf : ∀ w ∈ charOf p u, w.length ≤ 4 := by
  rintro w (⟨c, rfl, -⟩ | hw)
  · simp
  · cases u with
    | false => exact absurd hw (Language.notMem_zero w)
    | true => cases (mem_nonAscii_iff.1 hw).1 <;> simp

/-- A byte outside of the class stops it. -/
theorem stuck_classChar (hlow : chr k < 0x80) (hk : p (chr k) = false)
    {t : Bytes} (ht : Starts (· == chr k) t) : Stuck (classChar p u) t := by
  cases t with
  | nil => exact .inl rfl
  | cons c t =>
    obtain rfl : c = chr k := by simpa using ht
    refine .inr ?_
    rw [classChar, byte_zero_cons, ok_bind, if_pos hlow, hk, if_neg Bool.false_ne_true]

theorem classChar_consumes (hp : ∀ c, p c = true → c < 0x80) :
    Consumes (classChar p u) (charOf p u) fun _ => True where
  ends w hne := by
    obtain ⟨c, t, rfl⟩ := List.exists_cons_of_ne_nil hne
    rw [classChar, byte_zero_cons, ok_bind]
    refine .ite (fun _ => ?_) fun hhigh => .ite (fun _ => .ok (.inl rfl)) fun hu => ?_
    · cases hc : p c with
      | false => exact .ok (.inl rfl)
      | true => exact .ok (.inr ⟨[c], t, rfl, .inl (singleton_mem_letter.2 hc), rfl⟩)
    · obtain rfl : u = true := by simpa using hu
      refine (utf8SeqLen_high_ends hhigh).mono ?_
      rintro n (rfl | ⟨x, y, hw, hx, rfl⟩)
      · exact .inl rfl
      · exact .inr ⟨x, y, hw, .inr hx, rfl⟩
  complete x hx y _ := by
    rcases hx with ⟨c, rfl, hc⟩ | hx
    · simp [classChar, hp c hc, hc]
    · cases u with
      | false => exact absurd hx (Language.notMem_zero x)
      | true =>
        have hseq := utf8SeqLen_consumes.complete x (Text.Utf8.nonAscii_le_scalar hx) y trivial
        obtain ⟨c, t, rfl, hc, -⟩ := head_nonAscii hx
        rw [List.cons_append] at hseq ⊢
        rw [classChar, byte_zero_cons, ok_bind, if_neg hc, if_neg (by simp), hseq]

end FastJsonSchema.Formats
