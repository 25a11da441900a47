import FastJsonSchema.Formats.Utf8
import FastJsonSchema.Ruby.Decimal

/-!
# IPv4 addresses

`parse_ipv4` of `formats/utils/ip_parser.c` and the rule `IPv4address` of RFC 3986, section 3.2.2,
that it decides (`parseIpv4_decides`): four numbers up to 255 in decimal with dots between them
(`parseIpv4_iff`).
-/

namespace FastJsonSchema.Formats

open Ruby Scan Words

/-- The rest of the loop over the digits of an octet, with the digits that may follow: the place
after the last digit and the value. -/
def octetDigits (s : Bytes) : ℕ → ℕ → ℕ → Result (ℕ × ℕ)
  | 0, pos, value => do
    let _ ← peek isDigit s pos s.length
    .ok (pos, value)
  | left + 1, pos, value => do
    if ← peek isDigit s pos s.length then
      let c ← byte s pos
      octetDigits s left (pos + 1) (value * 10 + (c.toNat - (chr '0').toNat))
    else .ok (pos, value)

/-- The body of the loop over the octets up to the dot: the place after the octet, nothing when
`parse_ipv4` returns false. -/
def octet (s : Bytes) (pos : ℕ) : Result (Option ℕ) := do
  if pos ≥ s.length then .ok none else
  let c ← byte s pos
  if !isDigit c then .ok none else
  if ← (if c = chr '0' then peek isDigit s (pos + 1) s.length else .ok false) then .ok none else
  let (pos, value) ← octetDigits s 3 pos 0
  if value > 255 then .ok none else
  .ok (some pos)

/-- The loop over the octets with the number of octets that are left, and the check after it. -/
def octets (s : Bytes) : ℕ → ℕ → Result Bool
  | 0, pos => .ok (pos == s.length)
  | left + 1, pos => do
    match ← octet s pos with
    | none => .ok false
    | some pos =>
      if left ≠ 0 then
        if ← peek (· == chr '.') s pos s.length then octets s left (pos + 1) else .ok false
      else octets s left pos

/-- `parse_ipv4` -/
def parseIpv4 (s : Bytes) : Result Bool := octets s 4 0

/-! ## The grammar -/

/-- `dec-octet` -/
def decOctet : Language UInt8 :=
  digit + range '1' '9' * digit + char '1' * (digit * digit) + char '2' * (range '0' '4' * digit)
    + char '2' * (char '5' * range '0' '5')

/-- `IPv4address` -/
def ipv4Address : Language UInt8 :=
  decOctet * (char '.' * (decOctet * (char '.' * (decOctet * (char '.' * decOctet)))))

variable {a b c : UInt8} {ds s t x y : Bytes} {n v left pos : ℕ}

/-- The bytes are digits. -/
def Digits (ds : Bytes) : Prop := ∀ c ∈ ds, isDigit c = true

/-- The number that digits go on with. -/
def decimalFrom (v : ℕ) (ds : Bytes) : ℕ :=
  ds.foldl (fun v c => v * 10 + (c.toNat - (chr '0').toNat)) v

theorem octetDigits_append (hds : Digits ds) (hlen : ds.length ≤ left)
    (ht : ds.length = left ∨ t.head?.any isDigit = false) :
    ∀ {x v}, pos = x.length → octetDigits (x ++ (ds ++ t)) left pos v
      = .ok (pos + ds.length, decimalFrom v ds) := by
  induction left generalizing ds pos with
  | zero =>
    rintro x v rfl
    obtain rfl : ds = [] := List.length_eq_zero_iff.1 (Nat.le_zero.1 hlen)
    rw [octetDigits, List.nil_append, peek_suffix rfl rfl]
    rfl
  | succ left ih =>
    rintro x v rfl
    rw [octetDigits, peek_suffix rfl rfl]
    cases ds with
    | nil =>
      have ht : t.head?.any isDigit = false := ht.resolve_left (by simp)
      simp [ht, decimalFrom]
    | cons c ds =>
      obtain ⟨hc, hds⟩ := List.forall_mem_cons.1 hds
      have hnext := @ih ds (x.length + 1) hds (by simpa using hlen) (by simpa using ht)
        (x ++ [c]) (v * 10 + (c.toNat - (chr '0').toNat)) (by simp)
      rw [List.append_assoc] at hnext
      simp only [List.singleton_append] at hnext
      simp [hc, byte_append, hnext, decimalFrom]
      omega

theorem mem_decOctet_iff : ds ∈ decOctet ↔ Digits ds ∧ ds ≠ [] ∧ ds.length ≤ 3 ∧
    (ds.head? = some (chr '0') → ds.length = 1) ∧ decimalFrom 0 ds ≤ 255 := by
  rw [decOctet]
  simp only [Language.mem_add]
  match ds with
  | [] => simp [digit, range, char]
  | [a] =>
    simp only [digit, range, char, cons_mem_letter, cons_mem_letter_mul, nil_notMem_letter,
      nil_notMem_letter_mul, Digits, decimalFrom, List.forall_mem_singleton, isDigit_iff,
      List.foldl_cons, List.foldl_nil]
    simp [chr]
    omega
  | [a, b] =>
    simp only [digit, range, char, cons_mem_letter, cons_mem_letter_mul, nil_notMem_letter,
      Digits, decimalFrom, List.forall_mem_cons, isDigit_iff, List.foldl_cons, List.foldl_nil]
    simp [chr, UInt8.le_iff_toNat_le, ← UInt8.toNat_inj]
    omega
  | [a, b, c] =>
    simp only [digit, range, char, cons_mem_letter, cons_mem_letter_mul,
      Digits, decimalFrom, List.forall_mem_cons, isDigit_iff, List.foldl_cons, List.foldl_nil]
    simp [chr, UInt8.le_iff_toNat_le, ← UInt8.toNat_inj]
    omega
  | a :: b :: c :: d :: ds => simp [digit, range, char]

theorem Digits.append (hx : Digits x) (hy : Digits y) : Digits (x ++ y) :=
  List.forall_mem_append.2 ⟨hx, hy⟩

/-- At most three leading digits, and more only after three. -/
theorem exists_digits (left : ℕ) (y : Bytes) : ∃ ds t, y = ds ++ t ∧ Digits ds ∧
    ds.length ≤ left ∧ (ds.length = left ∨ t.head?.any isDigit = false) := by
  induction left generalizing y with
  | zero => exact ⟨[], y, rfl, by simp [Digits], le_rfl, .inl rfl⟩
  | succ left ih =>
    cases y with
    | nil => exact ⟨[], [], rfl, by simp [Digits], by simp, .inr rfl⟩
    | cons c y =>
      cases hc : isDigit c with
      | false => exact ⟨[], c :: y, rfl, by simp [Digits], by simp, .inr (by simp [hc])⟩
      | true =>
        obtain ⟨ds, t, rfl, hds, hlen, ht⟩ := ih y
        refine ⟨c :: ds, t, rfl, List.forall_mem_cons.2 ⟨hc, hds⟩, by simpa using hlen, ?_⟩
        simpa using ht

theorem octet_append (hds : ds ∈ decOctet) (ht : t.head?.any isDigit = false)
    (hpos : pos = x.length) : octet (x ++ (ds ++ t)) pos = .ok (some (pos + ds.length)) := by
  obtain ⟨hdigits, hne, hlen, hzero, hvalue⟩ := mem_decOctet_iff.1 hds
  subst hpos
  obtain ⟨c, ds, rfl⟩ := List.exists_cons_of_ne_nil hne
  have hc : isDigit c = true := hdigits c List.mem_cons_self
  have hbyte : byte (x ++ (c :: ds ++ t)) x.length = .ok c := byte_append rfl
  have hlead : (if c = chr '0' then
      peek isDigit (x ++ (c :: ds ++ t)) (x.length + 1) (x ++ (c :: ds ++ t)).length
      else .ok false) = .ok false := by
    by_cases h0 : c = chr '0'
    · obtain rfl : ds = [] := by simpa using hzero (by simp [h0])
      have hpeek := peek_behind (p := isDigit) (x := x) (y := t) (c := c) rfl rfl
      simpa [h0, ht] using hpeek
    · simp [h0]
  have hdigits := octetDigits_append (t := t) (x := x) (v := 0) hdigits hlen (.inr ht) rfl
  rw [octet, if_neg (by simp), hbyte, ok_bind, if_neg (by simp [hc]), hlead, ok_bind,
    if_neg (by simp), hdigits, ok_bind]
  exact if_neg (by omega)

theorem octet_ends (x y : Bytes) : Ends (octet (x ++ y) x.length) fun r =>
    (∃ ds t, y = ds ++ t ∧ ds ∈ decOctet ∧ r = some (x.length + ds.length)) ∨
      r = none ∧ ∀ ds t, y = ds ++ t → ds ∈ decOctet → t.head?.any isDigit = true := by
  suffices h : Ends (octet (x ++ y) x.length) fun r => r = none ∨
      ∃ ds t, y = ds ++ t ∧ ds ∈ decOctet ∧ r = some (x.length + ds.length) by
    obtain ⟨r, hr, rfl | h⟩ := h
    · refine ⟨none, hr, .inr ⟨rfl, ?_⟩⟩
      rintro ds t rfl hds
      by_contra ht
      rw [octet_append hds (Bool.not_eq_true _ ▸ ht) rfl] at hr
      cases hr
    · exact ⟨r, hr, .inl h⟩
  rw [octet]
  refine .ite (fun _ => .ok (.inl rfl)) fun hlt => ?_
  cases y with
  | nil => simp at hlt
  | cons c y =>
    rw [byte_append rfl, ok_bind]
    refine .ite (fun _ => .ok (.inl rfl)) fun hc => ?_
    have hc : isDigit c = true := by simpa using hc
    have hpeek : peek isDigit (x ++ c :: y) (x.length + 1) (x ++ c :: y).length
        = .ok (y.head?.any isDigit) := peek_behind rfl rfl
    rw [show (if c = chr '0' then peek isDigit (x ++ c :: y) (x.length + 1) (x ++ c :: y).length
      else .ok false) = .ok (decide (c = chr '0') && y.head?.any isDigit) by split_ifs <;> simp_all,
      ok_bind]
    refine .ite (fun _ => .ok (.inl rfl)) fun hlead => ?_
    obtain ⟨ds, t, hy, hds, hlen, ht⟩ := exists_digits 3 (c :: y)
    rw [hy, octetDigits_append hds hlen ht rfl, ok_bind]
    refine .ite (fun _ => .ok (.inl rfl)) fun hvalue => .ok (.inr ⟨ds, t, rfl, ?_, rfl⟩)
    rw [mem_decOctet_iff]
    -- the first of the digits is `c`
    cases ds with
    | nil =>
      obtain rfl : c :: y = t := hy
      simp [hc] at ht
    | cons d ds =>
      obtain ⟨rfl, rfl⟩ := List.cons.inj hy
      refine ⟨hds, by simp, hlen, fun h0 => ?_, by omega⟩
      obtain rfl : c = chr '0' := by simpa using h0
      cases ds with
      | nil => rfl
      | cons d ds => simp [hds d (by simp)] at hlead

/-- The bytes of an IPv4 address. -/
def isIpv4Byte (c : UInt8) : Bool := isDigit c || c == chr '.'

theorem ipv4Address_le : ipv4Address ≤ within isIpv4Byte := by
  have hW := isSubmonoid_within isIpv4Byte
  have hoctet : decOctet ≤ within isIpv4Byte := fun w hw a ha => by
    simp [isIpv4Byte, (mem_decOctet_iff.1 hw).1 a ha]
  have hdot : char '.' ≤ within isIpv4Byte := char_le (by decide)
  exact hW.mul hoctet (hW.mul hdot (hW.mul hoctet (hW.mul hdot (hW.mul hoctet
    (hW.mul hdot hoctet)))))

/-- `n` octets with dots between them. -/
def dotted : ℕ → Language UInt8
  | 0 => 1
  | 1 => decOctet
  | n + 2 => decOctet * (char '.' * dotted (n + 1))

/-- The octet that is found is followed by a dot and the other octets. -/
theorem octet_append_mem_dotted_iff (hds : ds ∈ decOctet)
    (hr : octet (x ++ (ds ++ t)) x.length = .ok (some (x.length + ds.length))) :
    ds ++ t ∈ dotted (n + 2) ↔ ∃ t', t = chr '.' :: t' ∧ t' ∈ dotted (n + 1) := by
  constructor
  · rintro ⟨ds', hds', t', ht', heq⟩
    obtain ⟨c, t', rfl, hc, htail⟩ := mem_letter_mul.1 ht'
    obtain rfl : c = chr '.' := by simpa using hc
    have htake := octet_append (x := x) (t := chr '.' :: t') hds' rfl rfl
    rw [show ds' ++ chr '.' :: t' = ds ++ t from heq, hr] at htake
    obtain ⟨rfl, rfl⟩ := List.append_inj heq (by simpa using htake.symm)
    exact ⟨t', rfl, htail⟩
  · rintro ⟨t', rfl, ht'⟩
    exact Language.append_mem_mul hds (cons_mem_char_mul.2 ⟨rfl, ht'⟩)

theorem octets_ends (n : ℕ) (x y : Bytes) :
    Ends (octets (x ++ y) (n + 1) x.length) fun b => b = true ↔ y ∈ dotted (n + 1) := by
  induction n generalizing x y with
  | zero =>
    rw [octets]
    obtain ⟨r, hr, ⟨ds, t, rfl, hds, rfl⟩ | ⟨rfl, hnone⟩⟩ := octet_ends x y
    · rw [hr, ok_bind]
      refine .ok ?_
      rw [beq_iff_eq, dotted]
      constructor
      · intro hlen
        obtain rfl : t = [] := by simpa using hlen.symm
        simpa using hds
      · intro hy
        have := octet_append (x := x) (t := []) hy rfl rfl
        rw [List.append_nil, hr] at this
        simpa using this
    · rw [hr]
      refine .ok (iff_of_false Bool.false_ne_true fun hy => ?_)
      simpa using hnone y [] (by simp) hy
  | succ n ih =>
    rw [octets]
    obtain ⟨r, hr, ⟨ds, t, rfl, hds, rfl⟩ | ⟨rfl, hnone⟩⟩ := octet_ends x y
    · rw [hr, ok_bind]
      simp only [ne_eq, Nat.add_eq_zero_iff, one_ne_zero, and_false, not_false_eq_true, if_true]
      have hpeek := peek_suffix (p := (· == chr '.')) (x := x ++ ds) (y := t)
        (i := x.length + ds.length) (by simp) rfl
      rw [List.append_assoc] at hpeek
      rw [hpeek, ok_bind]
      rw [octet_append_mem_dotted_iff hds hr]
      refine .ite (fun hdot => ?_) fun hdot => ?_
      · obtain ⟨t, rfl⟩ := exists_cons_of_head hdot
        have := ih (x ++ ds ++ [chr '.']) t
        simp only [List.append_assoc, List.singleton_append, List.length_append,
          List.length_singleton, ← Nat.add_assoc] at this
        simpa using this
      · refine .ok (iff_of_false Bool.false_ne_true ?_)
        rintro ⟨t', rfl, -⟩
        exact hdot (by simp)
    · rw [hr]
      refine .ok (iff_of_false Bool.false_ne_true ?_)
      rintro ⟨ds, hds, t, ht, rfl⟩
      obtain ⟨c, t, rfl, hc, -⟩ := mem_letter_mul.1 ht
      have hdigit := hnone ds _ rfl hds
      obtain rfl : c = chr '.' := by simpa using hc
      exact absurd hdigit (by simp; decide)

/-- **IPv4 addresses.** `parse_ipv4` accepts the words of `IPv4address`. -/
theorem parseIpv4_decides : Decides parseIpv4 ipv4Address := fun w => octets_ends 3 [] w

/-! ## The numbers of an address -/

theorem decimalFrom_eq (ds : Bytes) : decimalFrom 0 ds = RString.number ds := by
  have hstep : (fun (v : ℕ) (c : UInt8) => v * 10 + (c.toNat - (chr '0').toNat))
      = fun n c => 10 * n + (c.toNat - 48) := by
    funext v c
    rw [Nat.mul_comm]
    rfl
  rw [decimalFrom, hstep, RString.number]

/-- The octets are the decimal forms of the numbers up to 255. -/
theorem mem_decOctet_iff_decimal : ds ∈ decOctet ↔ ∃ n ≤ 255, ds = decimal n := by
  rw [mem_decOctet_iff, decimalFrom_eq]
  constructor
  · rintro ⟨hdigits, hne, -, hzero, hvalue⟩
    have hdec : RString.IsDecimal ds := by
      refine ⟨hne, fun c hc => isDigit_iff.1 (hdigits c hc), fun hhead => ?_⟩
      obtain ⟨c, rfl⟩ := List.length_eq_one_iff.1 (hzero hhead)
      simpa using hhead
    exact ⟨RString.number ds, hvalue, hdec.decimal_number.symm⟩
  · rintro ⟨n, hn, rfl⟩
    have hdec := RString.isDecimal_decimal n
    refine ⟨fun c hc => isDigit_iff.2 (hdec.digits c hc), hdec.ne_nil,
      length_decimal_le (by omega) (by omega), fun hhead => ?_, by rwa [number_decimal]⟩
    rw [hdec.head hhead]
    rfl

/-- Four numbers in decimal with dots between them. -/
def dottedDecimal (a b c d : ℕ) : Bytes :=
  decimal a ++ chr '.' :: (decimal b ++ chr '.' :: (decimal c ++ chr '.' :: decimal d))

theorem free_decimal (n : ℕ) : Free (· == chr '.') (decimal n) := by
  intro c hc
  have hdigit : isDigit c = true := isDigit_iff.2 ((RString.isDecimal_decimal n).digits c hc)
  exact beq_chr_of_class (by decide) c hdigit

/-- A number is read up to the dot after it. -/
theorem decimal_dot_inj {m n : ℕ} (h : decimal m ++ chr '.' :: x = decimal n ++ chr '.' :: y) :
    m = n ∧ x = y := by
  have hdot : ∀ {t : Bytes}, Starts (· == chr '.') (chr '.' :: t) := by simp
  obtain ⟨hdec, htail⟩ := append_inj_of_free (free_decimal m) hdot (free_decimal n) hdot h
  exact ⟨decimal_injective hdec, (List.cons.inj htail).2⟩

theorem mem_ipv4Address_iff : s ∈ ipv4Address ↔
    ∃ a ≤ 255, ∃ b ≤ 255, ∃ c ≤ 255, ∃ d ≤ 255, s = dottedDecimal a b c d := by
  have hdotted : ∀ {n : ℕ} {w : Bytes}, w ∈ dotted (n + 2) ↔
      ∃ a ≤ 255, ∃ t ∈ dotted (n + 1), w = decimal a ++ chr '.' :: t := by
    intro n w
    constructor
    · rintro ⟨k, hk, m, hm, rfl⟩
      obtain ⟨a, ha, rfl⟩ := mem_decOctet_iff_decimal.1 hk
      obtain ⟨c, t, rfl, hc, ht⟩ := mem_letter_mul.1 hm
      exact ⟨a, ha, t, ht, by rw [beq_iff_eq.1 hc]⟩
    · rintro ⟨a, ha, t, ht, rfl⟩
      exact Language.append_mem_mul (mem_decOctet_iff_decimal.2 ⟨a, ha, rfl⟩)
        (cons_mem_char_mul.2 ⟨rfl, ht⟩)
  have hlast : ∀ {w : Bytes}, w ∈ dotted 1 ↔ ∃ d ≤ 255, w = decimal d := mem_decOctet_iff_decimal
  change s ∈ dotted 4 ↔ _
  constructor
  · intro hs
    obtain ⟨a, ha, x, hx, rfl⟩ := hdotted.1 hs
    obtain ⟨b, hb, y, hy, rfl⟩ := hdotted.1 hx
    obtain ⟨c, hc, z, hz, rfl⟩ := hdotted.1 hy
    obtain ⟨d, hd, rfl⟩ := hlast.1 hz
    exact ⟨a, ha, b, hb, c, hc, d, hd, rfl⟩
  · rintro ⟨a, ha, b, hb, c, hc, d, hd, rfl⟩
    exact hdotted.2 ⟨a, ha, _, hdotted.2 ⟨b, hb, _, hdotted.2 ⟨c, hc, _, hlast.2 ⟨d, hd, rfl⟩, rfl⟩,
      rfl⟩, rfl⟩

/-- **The numbers of an address.** `parse_ipv4` accepts four numbers up to 255 in decimal with dots
between them, and they can be read off the text. -/
theorem parseIpv4_iff (s : Bytes) :
    (parseIpv4 s = .ok true ↔
      ∃ a ≤ 255, ∃ b ≤ 255, ∃ c ≤ 255, ∃ d ≤ 255, s = dottedDecimal a b c d) ∧
    ∀ a b c d a' b' c' d', s = dottedDecimal a b c d → s = dottedDecimal a' b' c' d' →
      a = a' ∧ b = b' ∧ c = c' ∧ d = d' := by
  refine ⟨parseIpv4_decides.eq_ok.trans mem_ipv4Address_iff, ?_⟩
  intro a b c d a' b' c' d' h h'
  obtain ⟨ha, htail⟩ := decimal_dot_inj (h.symm.trans h')
  obtain ⟨hb, htail⟩ := decimal_dot_inj htail
  obtain ⟨hc, htail⟩ := decimal_dot_inj htail
  exact ⟨ha, hb, hc, decimal_injective htail⟩

end FastJsonSchema.Formats
