import FastJsonSchema.Scan.Words

/-!
# UTF-8

The encodings of the Unicode scalar values (`scalar`) and the well-formed byte strings, which are
the repetitions of them (`wellFormed`). `mem_scalar_iff` gives the encodings by the ranges of their
bytes: no overlong forms, no surrogates, nothing above U+10FFFF.
-/

namespace Text.Utf8

open Words

open scoped Computability

/-- The encodings of the Unicode scalar values. -/
def scalar : Language UInt8 := {w | ∃ c : Char, w = String.utf8EncodeChar c}

/-- The encodings of the scalar values outside of ASCII. -/
def nonAscii : Language UInt8 := {w | ∃ c : Char, 0x80 ≤ c.toNat ∧ w = String.utf8EncodeChar c}

/-- The well-formed byte strings. -/
def wellFormed : Language UInt8 := scalar∗

/-- The byte of an ASCII character. -/
def isAscii (a : UInt8) : Bool := a < 0x80

/-- A continuation byte. -/
def Tail (a : UInt8) : Prop := 0x80 ≤ a.toNat ∧ a.toNat ≤ 0xBF

/-- The bytes of an encoding, by its length. -/
inductive Sequence : List UInt8 → Prop
  | one {a : UInt8} (h : a.toNat ≤ 0x7F) : Sequence [a]
  | two {a b : UInt8} (h : 0xC2 ≤ a.toNat) (h' : a.toNat ≤ 0xDF) (hb : Tail b) : Sequence [a, b]
  | three {a b c : UInt8} (h : 0xE0 ≤ a.toNat) (h' : a.toNat ≤ 0xEF) (hb : Tail b) (hc : Tail c)
      (hlong : a.toNat = 0xE0 → 0xA0 ≤ b.toNat) (hsurrogate : a.toNat = 0xED → b.toNat ≤ 0x9F) :
      Sequence [a, b, c]
  | four {a b c d : UInt8} (h : 0xF0 ≤ a.toNat) (h' : a.toNat ≤ 0xF4) (hb : Tail b) (hc : Tail c)
      (hd : Tail d)
      (hlong : a.toNat = 0xF0 → 0x90 ≤ b.toNat) (hlarge : a.toNat = 0xF4 → b.toNat ≤ 0x8F) :
      Sequence [a, b, c, d]

variable {a b : UInt8} {w : List UInt8}

theorem mem_wellFormed_iff :
    w ∈ wellFormed ↔ ∃ cs : List Char, w = cs.flatMap String.utf8EncodeChar := by
  constructor
  · intro hw
    refine kstar_induction (P := fun w => ∃ cs : List Char, w = cs.flatMap String.utf8EncodeChar)
      ⟨[], rfl⟩ ?_ hw
    rintro _ ⟨c, rfl⟩ - t - ⟨cs, rfl⟩
    exact ⟨c :: cs, rfl⟩
  · rintro ⟨cs, rfl⟩
    induction cs with
    | nil => exact Language.nil_mem_kstar _
    | cons c cs ih => exact append_mem_kstar ⟨c, rfl⟩ ih

theorem tail_ofNat {n : ℕ} (h : n < 0x40) : Tail (UInt8.ofNat (n + 0x80)) := by
  simp only [Tail, UInt8.toNat_ofNat']
  omega

/-- Every encoding has the bytes of its length. -/
theorem sequence_encode (c : Char) : Sequence (String.utf8EncodeChar c) := by
  have hmod : ∀ n : ℕ, n % 0x40 < 0x40 := fun n => Nat.mod_lt _ (by decide)
  have hvalid := c.valid
  simp only [UInt32.isValidChar, Nat.isValidChar] at hvalid
  unfold String.utf8EncodeChar
  dsimp only
  split_ifs with h₁ h₂ h₃
  · exact .one (by simp only [UInt8.toNat_ofNat']; omega)
  · refine .two ?_ ?_ (tail_ofNat (hmod _)) <;> simp only [UInt8.toNat_ofNat'] <;> omega
  · refine .three ?_ ?_ (tail_ofNat (hmod _)) (tail_ofNat (hmod _)) ?_ ?_ <;>
      simp only [UInt8.toNat_ofNat'] <;> omega
  · refine .four ?_ ?_ (tail_ofNat (hmod _)) (tail_ofNat (hmod _)) (tail_ofNat (hmod _)) ?_ ?_ <;>
      simp only [UInt8.toNat_ofNat'] <;> omega

/-- The scalar value of a number that is one. -/
theorem exists_char {n : ℕ} (h : n < 0xD800 ∨ (0xDFFF < n ∧ n < 0x110000)) :
    ∃ c : Char, c.val.toNat = n := by
  have hc : (Char.ofNatAux n h).val.toNat = n := rfl
  exact ⟨_, hc⟩

theorem ofNat_eq {n : ℕ} (h : n = a.toNat) : UInt8.ofNat n = a := by
  subst h
  exact UInt8.ofNat_toNat

/-- The bytes of a length encode a scalar value, which is outside of ASCII but for one byte. -/
theorem Sequence.exists_char (h : Sequence w) :
    ∃ c : Char, w = String.utf8EncodeChar c ∧ (2 ≤ w.length → 0x80 ≤ c.toNat) := by
  cases h with
  | @one a h =>
    obtain ⟨x, hx⟩ := Utf8.exists_char (n := a.toNat) (by omega)
    refine ⟨x, ?_, by simp⟩
    rw [String.utf8EncodeChar, hx, if_pos h, UInt8.ofNat_toNat]
  | @two a b h h' hb =>
    unfold Tail at hb
    obtain ⟨x, hx⟩ := Utf8.exists_char (n := (a.toNat - 0xC0) * 64 + (b.toNat - 0x80)) (by omega)
    refine ⟨x, ?_, fun _ => by rw [Char.toNat, hx]; omega⟩
    rw [String.utf8EncodeChar, hx, if_neg (by omega), if_pos (by omega)]
    rw [ofNat_eq (a := a) (by omega), ofNat_eq (a := b) (by omega)]
  | @three a b c h h' hb hc hlong hsurrogate =>
    unfold Tail at hb hc
    obtain ⟨x, hx⟩ := Utf8.exists_char
      (n := (a.toNat - 0xE0) * 4096 + (b.toNat - 0x80) * 64 + (c.toNat - 0x80)) (by omega)
    refine ⟨x, ?_, fun _ => by rw [Char.toNat, hx]; omega⟩
    rw [String.utf8EncodeChar, hx, if_neg (by omega), if_neg (by omega), if_pos (by omega)]
    rw [ofNat_eq (a := a) (by omega), ofNat_eq (a := b) (by omega), ofNat_eq (a := c) (by omega)]
  | @four a b c d h h' hb hc hd hlong hlarge =>
    unfold Tail at hb hc hd
    obtain ⟨x, hx⟩ := Utf8.exists_char
      (n := (a.toNat - 0xF0) * 262144 + (b.toNat - 0x80) * 4096 + (c.toNat - 0x80) * 64
        + (d.toNat - 0x80)) (by omega)
    refine ⟨x, ?_, fun _ => by rw [Char.toNat, hx]; omega⟩
    rw [String.utf8EncodeChar, hx, if_neg (by omega), if_neg (by omega), if_neg (by omega)]
    rw [ofNat_eq (a := a) (by omega), ofNat_eq (a := b) (by omega), ofNat_eq (a := c) (by omega),
      ofNat_eq (a := d) (by omega)]

/-- **The encodings by the ranges of their bytes.** -/
theorem mem_scalar_iff : w ∈ scalar ↔ Sequence w := by
  constructor
  · rintro ⟨c, rfl⟩
    exact sequence_encode c
  · intro h
    obtain ⟨c, rfl, -⟩ := h.exists_char
    exact ⟨c, rfl⟩

theorem mem_nonAscii_iff : w ∈ nonAscii ↔ Sequence w ∧ 2 ≤ w.length := by
  constructor
  · rintro ⟨c, hc, rfl⟩
    refine ⟨sequence_encode c, ?_⟩
    rw [Char.toNat] at hc
    rw [String.utf8EncodeChar, if_neg (by omega)]
    split_ifs <;> simp
  · rintro ⟨h, hlen⟩
    obtain ⟨c, rfl, hc⟩ := h.exists_char
    exact ⟨c, hc hlen, rfl⟩

theorem scalar_ne_nil : ∀ w ∈ scalar, w ≠ [] := by
  rintro _ ⟨c, rfl⟩
  exact String.utf8EncodeChar_ne_nil

theorem nonAscii_le_scalar : nonAscii ≤ scalar := fun _ ⟨c, _, hw⟩ => ⟨c, hw⟩

theorem nonAscii_le_wellFormed : nonAscii ≤ wellFormed :=
  nonAscii_le_scalar.trans le_kstar

theorem within_isAscii_le_wellFormed : within isAscii ≤ wellFormed := by
  rw [← kstar_letter]
  refine kstar_mono ?_
  rintro w ⟨a, rfl, ha⟩
  refine mem_scalar_iff.2 (.one ?_)
  simp only [isAscii, decide_eq_true_eq, UInt8.lt_iff_toNat_lt] at ha
  exact Nat.le_of_lt_succ ha

/-- No byte of an encoding outside of ASCII is an ASCII character. -/
theorem nonAscii_le_within : nonAscii ≤ within fun a => !isAscii a := by
  intro w hw a ha
  have hhigh : ∀ {b : UInt8}, 0x80 ≤ b.toNat → (!isAscii b) = true := by
    intro b hb
    simp only [isAscii, Bool.not_eq_true', decide_eq_false_iff_not, UInt8.lt_iff_toNat_lt]
    exact Nat.not_lt.2 hb
  obtain ⟨h, hlen⟩ := mem_nonAscii_iff.1 hw
  cases h with
  | one h => simp at hlen
  | two h h' hb =>
    simp only [List.mem_cons, List.not_mem_nil, or_false] at ha
    rcases ha with rfl | rfl
    · exact hhigh (by omega)
    · exact hhigh hb.1
  | three h h' hb hc =>
    simp only [List.mem_cons, List.not_mem_nil, or_false] at ha
    rcases ha with rfl | rfl | rfl
    · exact hhigh (by omega)
    · exact hhigh hb.1
    · exact hhigh hc.1
  | four h h' hb hc hd =>
    simp only [List.mem_cons, List.not_mem_nil, or_false] at ha
    rcases ha with rfl | rfl | rfl | rfl
    · exact hhigh (by omega)
    · exact hhigh hb.1
    · exact hhigh hc.1
    · exact hhigh hd.1

end Text.Utf8
