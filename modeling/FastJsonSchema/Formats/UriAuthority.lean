import FastJsonSchema.Formats.UriScan

/-!
# The authority of a URI reference

`parse_authority` spans the authorities over the hosts that `parse_host` takes (`readHost`): those
of the RFC but for the registered names that start with an IPv4 address and go on with neither a
digit nor a dot, where `parse_host` stops after the address.
-/

namespace FastJsonSchema.Formats

open Ruby Scan Words Rfc3986

open scoped Computability

variable {p q : UInt8 → Bool} {u : Bool} {a b r s t w x y z : Bytes} {c : UInt8} {i j n : ℕ}

/-! ## Hosts -/

/-- An IPv4 address and a byte that ends its run of digits and dots. -/
def ipv4Prefixed : Language UInt8 :=
  {w | ∃ x c y, w = x ++ c :: y ∧ x ∈ ipv4Address ∧ isIpv4Byte c = false}

/-- The hosts that `parse_host` takes. -/
def readHost (u : Bool) : Language UInt8 := host u - ipv4Prefixed

theorem readHost_le : readHost u ≤ host u := fun _ h => h.1

theorem mem_readHost : w ∈ readHost u ↔ w ∈ host u ∧ w ∉ ipv4Prefixed := Iff.rfl

theorem ipv4Address_le_regName : ipv4Address ≤ regName u := by
  intro w hw
  have hletter : letter isRegName ≤ unit isRegName u := fun v hv => .inl (.inl hv)
  rw [regName_eq]
  refine kstar_mono hletter ?_
  rw [kstar_letter]
  intro c hc
  have h := ipv4Address_le hw c hc
  rw [isIpv4Byte, Bool.or_eq_true, beq_iff_eq] at h
  rcases h with h | rfl
  · simp [isRegName, isUnreserved_of_isDigit c h]
  · decide

theorem nil_notMem_ipv4Address : [] ∉ ipv4Address := by
  intro h
  exact (mem_decOctet_iff.1 (nil_mem_mul.1 h).1).2.1 rfl

theorem append_mem_ipv4Prefixed_iff (hx : ∀ c ∈ x, isIpv4Byte c = true)
    (hy : Starts (fun c => !isIpv4Byte c) y) :
    x ++ y ∈ ipv4Prefixed ↔ x ∈ ipv4Address ∧ y ≠ [] := by
  have hfree : Free (fun c => !isIpv4Byte c) x := fun c hc => by simp [hx c hc]
  constructor
  · rintro ⟨v, c, r, h, hv, hc⟩
    have hv' : Free (fun c => !isIpv4Byte c) v := fun c hc => by simp [ipv4Address_le hv c hc]
    obtain ⟨rfl, rfl⟩ := append_inj_of_free hfree hy hv' (by simp [hc]) h
    exact ⟨hv, by simp⟩
  · rintro ⟨hx, hne⟩
    obtain ⟨c, r, rfl⟩ := List.exists_cons_of_ne_nil hne
    exact ⟨x, c, r, rfl, hx, by simpa using hy⟩

theorem isIpv4Byte_bracket : isIpv4Byte (chr '[') = false := by decide

theorem bracket_notMem_ipv4Prefixed : chr '[' :: t ∉ ipv4Prefixed := by
  have h := append_mem_ipv4Prefixed_iff (x := []) (y := chr '[' :: t) (by simp)
    (by simp [isIpv4Byte_bracket])
  rw [List.nil_append] at h
  rw [h]
  rintro ⟨hnil, -⟩
  exact absurd hnil nil_notMem_ipv4Address

/-! ## Literals -/

theorem future_eq : unreserved false + subDelims + char ':' = letter isFutureChar := by
  have h : letter isFutureChar = letter isUnreserved + subDelims + char ':' := by
    rw [subDelims, oneOf, char, ← letter_or, ← letter_or]
    rfl
  rw [h, unreserved_eq, utf8NonAscii, if_neg Bool.false_ne_true, add_zero]

theorem length_ipvFuture (hw : w ∈ ipvFuture) : 4 ≤ w.length := by
  obtain ⟨v, hv, r, ⟨x, hx, d, ⟨y, hy, z, hz, rfl⟩, rfl⟩, rfl⟩ := hw
  have hlen : ∀ {k : Char} {v : Bytes}, v ∈ char k → v.length = 1 := by
    rintro k v ⟨c, rfl, -⟩
    rfl
  have hv : v.length = 1 := hv.elim hlen hlen
  have hx : x ≠ [] := (mem_many1_letter.1 hx).1
  rw [future_eq] at hz
  have hz : z ≠ [] := (mem_many1_letter.1 hz).1
  have := List.length_pos_iff.2 hx
  have := List.length_pos_iff.2 hz
  have := hlen hy
  simp only [List.length_append]
  omega

theorem cons_mem_ipvFuture_iff (hx : ∀ c ∈ x, isHex c = true) (hy : Starts (fun c => !isHex c) y) :
    c :: (x ++ y) ∈ ipvFuture ↔ (c = chr 'v' ∨ c = chr 'V') ∧ x ≠ [] ∧
      ∃ t, y = chr '.' :: t ∧ t ≠ [] ∧ ∀ b ∈ t, isFutureChar b = true := by
  have hv : char 'v' + char 'V' = letter fun c => c == chr 'v' || c == chr 'V' := letter_or.symm
  rw [ipvFuture, hv, cons_mem_letter_mul, hexdig, append_mem_many1_letter_mul_iff hx hy, future_eq,
    char, mem_letter_mul]
  · simp only [Bool.or_eq_true, beq_iff_eq, mem_many1_letter]
    refine and_congr_right fun _ => and_congr_right fun _ => ?_
    constructor
    · rintro ⟨_, t, rfl, rfl, ht⟩
      exact ⟨t, rfl, ht⟩
    · rintro ⟨t, rfl, ht⟩
      exact ⟨_, t, rfl, rfl, ht⟩
  · intro m hm
    obtain ⟨b, t, rfl, hb, -⟩ := mem_letter_mul.1 hm
    obtain rfl : b = chr '.' := by simpa using hb
    rw [starts_cons]
    decide

/-- The part of `parse_ipv_future` behind the dot. -/
theorem futureTail_ends {a t : Bytes} {i : ℕ} (hi : i = a.length) (hpos : 0 < i) :
    Ends (do
      let pos ← skipWhile isFutureChar (a ++ t) i (a ++ t).length
      if pos = i then .ok 0 else .ok pos)
    fun n => n ≤ (a ++ t).length ∧
      (n = (a ++ t).length ↔ t ≠ [] ∧ ∀ b ∈ t, isFutureChar b = true) := by
  obtain ⟨f, g, rfl, hf, hg⟩ := exists_run isFutureChar t
  rw [skipWhile_run_end hf hg hi rfl, ok_bind]
  refine .ite (fun hzero => .ok ⟨Nat.zero_le _, iff_of_false ?_ ?_⟩) fun hne => .ok ⟨?_, ?_⟩
  · rw [List.length_append]
    omega
  · obtain rfl : f = [] := List.length_eq_zero_iff.1 (by omega)
    rintro ⟨hne, hall⟩
    obtain ⟨c, g, rfl⟩ := List.exists_cons_of_ne_nil hne
    simp [hall c List.mem_cons_self] at hg
  · rw [hi, List.length_append, List.length_append]
    omega
  · constructor
    · intro hlen
      obtain rfl : g = [] := List.length_eq_zero_iff.1 (by
        rw [hi, List.length_append, List.length_append] at hlen
        omega)
      rw [List.append_nil]
      refine ⟨?_, hf⟩
      rintro rfl
      exact hne rfl
    · rintro ⟨-, hall⟩
      obtain rfl : g = [] := by
        cases g with
        | nil => rfl
        | cons c g => simp [hall c (by simp)] at hg
      rw [hi, List.length_append, List.append_nil]

theorem parseIpvFuture_ends (hw : w ≠ []) : Ends (parseIpvFuture w) fun n =>
    n ≤ w.length ∧ (n = w.length ↔ w ∈ ipvFuture) := by
  have hpos : w.length ≠ 0 := fun h => hw (List.length_eq_zero_iff.1 h)
  have hfail : w ∉ ipvFuture → Ends (.ok 0) fun n =>
      n ≤ w.length ∧ (n = w.length ↔ w ∈ ipvFuture) := fun h =>
    .ok ⟨Nat.zero_le _, iff_of_false (Ne.symm hpos) h⟩
  rw [parseIpvFuture]
  refine .ite (fun hlen => hfail fun h => ?_) fun _ => ?_
  · have := length_ipvFuture h
    omega
  obtain ⟨v, t, rfl⟩ := List.exists_cons_of_ne_nil hw
  obtain ⟨x, y, rfl, hx, hy⟩ := exists_run isHex t
  rw [cons_mem_ipvFuture_iff hx hy] at hfail ⊢
  rw [byte_zero_cons, ok_bind]
  refine .ite (fun hv => hfail ?_) fun hv => ?_
  · rintro ⟨rfl | rfl, -⟩
    · exact hv.1 rfl
    · exact hv.2 rfl
  have hv : v = chr 'v' ∨ v = chr 'V' := by tauto
  have hskip : skipWhile isHex (v :: (x ++ y)) 1 (v :: (x ++ y)).length = .ok (1 + x.length) :=
    skipWhile_run_end (a := [v]) hx hy rfl rfl
  rw [hskip, ok_bind]
  refine .ite (fun hzero => hfail ?_) fun hx0 => ?_
  · rintro ⟨-, hne, -⟩
    exact hne (List.length_eq_zero_iff.1 (by omega))
  have hpeek : peek (· == chr '.') (v :: (x ++ y)) (1 + x.length) (v :: (x ++ y)).length
      = .ok (y.head?.any (· == chr '.')) :=
    peek_suffix (x := v :: x) (by simp; omega) rfl
  rw [hpeek, ok_bind]
  refine .ite (fun hdot => hfail ?_) fun hdot => ?_
  · rintro ⟨-, -, t, rfl, -⟩
    simp at hdot
  obtain ⟨t, rfl⟩ := exists_cons_of_head (x := y) (c := chr '.') (by simpa using hdot)
  have hall : (∃ t', chr '.' :: t = chr '.' :: t' ∧ t' ≠ [] ∧ ∀ b ∈ t', isFutureChar b = true) ↔
      t ≠ [] ∧ ∀ b ∈ t, isFutureChar b = true := by
    simp
  have hne : x ≠ [] := by
    rintro rfl
    exact hx0 rfl
  have htail := futureTail_ends (a := v :: (x ++ [chr '.'])) (i := 1 + x.length + 1) (t := t)
    (by simp; omega) (Nat.succ_pos _)
  have hassoc : v :: (x ++ [chr '.']) ++ t = v :: (x ++ chr '.' :: t) := by simp
  rw [hassoc] at htail
  rw [hall, and_iff_right hv, and_iff_right hne]
  exact htail

theorem head_mem_ipvFuture (hx : x ∈ ipvFuture) :
    x.head?.any (fun c => c == chr 'v' || c == chr 'V') = true := by
  have hv : char 'v' + char 'V' = letter fun c => c == chr 'v' || c == chr 'V' := letter_or.symm
  rw [ipvFuture, hv] at hx
  obtain ⟨c, t, rfl, hc, -⟩ := mem_letter_mul.1 hx
  exact hc

theorem head_mem_ipv6 (hx : x ∈ ipv6) :
    x.head?.any (fun c => c == chr 'v' || c == chr 'V') = false := by
  cases x with
  | nil => rfl
  | cons c t =>
    have hc := ipv6_le hx c List.mem_cons_self
    have hclass : ∀ k, isIpv6Byte (chr k) = false → (c == chr k) = false :=
      fun k hk => beq_chr_of_class hk c hc
    rw [List.head?_cons, Option.any_some, hclass 'v' (by decide), hclass 'V' (by decide),
      Bool.or_false]

/-- What `parse_ip_literal` makes of the bytes after the bracket. -/
theorem parseIpLiteral_ends (hx : Free (· == chr ']') x) (hy : Starts (· == chr ']') y) :
    Ends (parseIpLiteral (chr '[' :: (x ++ y))) fun n =>
      (n = 0 ∧ (y = [] ∨ x ∉ ipv6 + ipvFuture)) ∨
        (n = x.length + 2 ∧ y ≠ [] ∧ x ∈ ipv6 + ipvFuture) := by
  rw [parseIpLiteral]
  refine .ite (fun hlen => .ok (.inl ⟨rfl, .inl ?_⟩)) fun _ => ?_
  · refine List.length_eq_zero_iff.1 ?_
    simp only [List.length_cons, List.length_append] at hlen
    omega
  rw [byte_zero_cons, ok_bind, if_neg (by simp)]
  cases y with
  | nil =>
    have hfind : find (· == chr ']') (chr '[' :: (x ++ [])) 1 (chr '[' :: (x ++ [])).length
        = .ok none := find_none (a := [chr '[']) hx rfl (by simp; omega)
    rw [hfind]
    exact .ok (.inl ⟨rfl, .inl rfl⟩)
  | cons c r =>
    have hfind : find (· == chr ']') (chr '[' :: (x ++ c :: r)) 1 (chr '[' :: (x ++ c :: r)).length
        = .ok (some (1 + x.length)) := by
      have hc : (c == chr ']') = true := by simpa using hy
      have := find_some (a := [chr '[']) (z := []) (y := r) hx hc rfl rfl
      simpa [Nat.add_comm] using this
    have hpeek : peek (fun c => c == chr 'v' || c == chr 'V') (chr '[' :: (x ++ c :: r)) 1
        (1 + x.length) = .ok (x.head?.any fun c => c == chr 'v' || c == chr 'V') :=
      peek_append (x := [chr '[']) rfl rfl
    have hwindow : window (chr '[' :: (x ++ c :: r)) 1 (1 + x.length) = .ok x :=
      window_append (x := [chr '[']) rfl rfl
    rw [hfind, ok_bind]
    dsimp only
    rw [hpeek, ok_bind]
    refine .ite (fun hv => ?_) fun hv => ?_
    · have hne : x ≠ [] := by
        rintro rfl
        simp at hv
      have hsix : x ∉ ipv6 := fun h => by simp [head_mem_ipv6 h] at hv
      obtain ⟨n, hn, hle, hiff⟩ := parseIpvFuture_ends hne
      rw [consume_eq hwindow hn hle, ok_bind, Language.mem_add, or_iff_right hsix, ← hiff,
        Nat.add_sub_cancel_left]
      by_cases hfull : n = x.length
      · rw [if_pos hfull]
        exact .ok (.inr ⟨by omega, by simp, hfull⟩)
      · rw [if_neg hfull]
        exact .ok (.inl ⟨rfl, .inr hfull⟩)
    · have hfuture : x ∉ ipvFuture := fun h => hv (head_mem_ipvFuture h)
      obtain ⟨b, hb, -⟩ := parseIpv6_ends x
      have hiff : x ∈ ipv6 ↔ b = true := by
        rw [mem_ipv6, hb, Except.ok.injEq]
      rw [hwindow, ok_bind, hb, ok_bind, Language.mem_add, or_iff_left hfuture, hiff]
      cases b with
      | false => exact .ok (.inl ⟨rfl, .inr Bool.false_ne_true⟩)
      | true =>
        rw [if_pos rfl]
        exact .ok (.inr ⟨by omega, by simp, rfl⟩)

theorem bracket_mem_readHost_iff (hx : Free (· == chr ']') x) :
    chr '[' :: (x ++ [chr ']']) ∈ readHost u ↔ x ∈ ipv6 + ipvFuture := by
  rw [mem_readHost, and_iff_left bracket_notMem_ipv4Prefixed]
  constructor
  · rintro ((hw | hw) | hw)
    · obtain ⟨-, b, hb, _, ⟨c, rfl, hc⟩, h⟩ := cons_mem_char_mul.1 hw
      obtain ⟨rfl, -⟩ := List.append_inj' h rfl
      exact hb
    · exact absurd (ipv4Address_le hw _ List.mem_cons_self) (by decide)
    · exact absurd (regName_le hw _ List.mem_cons_self) (by decide)
  · intro hx
    exact .inl (.inl (cons_mem_char_mul.2 ⟨rfl, x, hx, _, singleton_mem_letter.2 (by simp), rfl⟩))

theorem parseHost_ends (hw : w.head?.any (· == chr '[') = false) : Ends (parseHost u w) fun n =>
    n ≤ w.length ∧ (n = w.length ↔ w ∈ readHost u) := by
  have hhost : w ∈ host u ↔ w ∈ regName u := by
    refine ⟨?_, .inr⟩
    rintro ((h | h) | h)
    · obtain ⟨c, t, rfl, hc, -⟩ := mem_letter_mul.1 h
      simp [hc] at hw
    · exact ipv4Address_le_regName h
    · exact h
  rw [mem_readHost, hhost]
  rw [parseHost]
  refine .ite (fun hnil => ?_) fun hne => ?_
  · obtain rfl : w = [] := List.length_eq_zero_iff.1 hnil
    refine .ok ⟨le_rfl, iff_of_true rfl ⟨Language.nil_mem_kstar _, ?_⟩⟩
    rintro ⟨x, c, y, h, -⟩
    simp at h
  have hbyte : ∃ c, byte w 0 = .ok c ∧ c ≠ chr '[' := by
    cases w with
    | nil => simp at hne
    | cons c t => exact ⟨c, rfl, by simpa using hw⟩
  obtain ⟨c, hc, hbracket⟩ := hbyte
  rw [hc, ok_bind, if_neg hbracket]
  obtain ⟨x, y, rfl, hx, hy⟩ := exists_run isIpv4Byte w
  have hskip : skipWhile isIpv4Byte (x ++ y) 0 (x ++ y).length = .ok x.length := by
    simpa using skipWhile_run_end (a := []) hx hy rfl rfl
  change Ends (skipWhile isIpv4Byte (x ++ y) 0 (x ++ y).length >>= _) _
  rw [hskip, ok_bind, append_mem_ipv4Prefixed_iff hx hy]
  obtain ⟨b, hb, hiff⟩ := parseIpv4_decides x
  have haddress : (if x.length > 0 then do parseIpv4 (← window (x ++ y) 0 x.length) else .ok false)
      = .ok b := by
    by_cases hpos : x.length > 0
    · rw [if_pos hpos, window_initial rfl, ok_bind, hb]
    · obtain rfl : x = [] := by simpa using hpos
      rw [if_neg hpos, Bool.eq_false_iff.2 fun h => nil_notMem_ipv4Address (hiff.1 h)]
  rw [haddress, ok_bind, ← hiff]
  refine .ite (fun hb => ?_) fun hb => ?_
  · subst hb
    refine .ok ⟨by simp, ?_⟩
    simp only [true_and, not_not, List.length_append, Nat.left_eq_add, List.length_eq_zero_iff]
    constructor
    · rintro rfl
      rw [List.append_nil]
      exact ⟨ipv4Address_le_regName (hiff.1 rfl), rfl⟩
    · exact And.right
  · refine (parseRegName_spans _).mono ?_
    rintro n ⟨hle, hn⟩
    refine ⟨hle, hn.trans ?_⟩
    rw [and_iff_left]
    exact fun h => hb h.1

/-! ## The authority -/

theorem parsePort_spans : Spans parsePort port := by
  intro w
  obtain ⟨x, y, rfl, hx, hy⟩ := exists_run isDigit w
  have hskip : parsePort (x ++ y) = .ok x.length := by
    simpa [parsePort] using skipWhile_run_end (a := []) hx hy rfl rfl
  refine ⟨_, hskip, by simp, ?_⟩
  rw [port, digit, kstar_letter]
  constructor
  · intro hlen
    obtain rfl : y = [] := by simpa using hlen
    rw [List.append_nil]
    exact hx
  · intro hall
    cases y with
    | nil => simp
    | cons c y => simp [hall c (by simp)] at hy

theorem nil_mem_readHost : [] ∈ readHost u := by
  refine ⟨.inr (Language.nil_mem_kstar _), ?_⟩
  rintro ⟨x, c, y, h, -⟩
  simp at h

theorem nil_mem_hostPort : [] ∈ hostPort (readHost u) :=
  nil_mem_mul.2 ⟨nil_mem_readHost, mem_optional.2 (.inl rfl)⟩

theorem authorityHost_ends (hi : i = a.length) (hj : j = a.length + b.length) :
    Ends (authorityHost u (a ++ (b ++ z)) i j) fun r =>
      (r = none ∧ b ∉ hostPort (readHost u)) ∨ ∃ h t, b = h ++ t ∧ r = some (i + h.length) ∧
        (b ∈ hostPort (readHost u) ↔ t ∈ portPart) := by
  have hwindow : window (a ++ (b ++ z)) i j = .ok b := window_append hi hj
  rw [authorityHost, peek_append hi hj, ok_bind]
  refine .ite (fun hbracket => ?_) fun hbracket => ?_
  · obtain ⟨t, rfl⟩ := exists_cons_of_head hbracket
    obtain ⟨x, y, rfl, hx, hy⟩ := exists_split (· == chr ']') t
    obtain ⟨n, hn, ⟨rfl, hno⟩ | ⟨rfl, hne, hbody⟩⟩ := parseIpLiteral_ends hx hy
    · rw [consume_eq hwindow hn (Nat.zero_le _), ok_bind, if_pos rfl]
      refine .ok (.inl ⟨rfl, fun hmem => ?_⟩)
      cases y with
      | nil =>
        rw [List.append_nil] at hmem
        exact bracket_notMem_hostPort readHost_le hx hmem
      | cons c r =>
        obtain rfl : c = chr ']' := by simpa using hy
        have hbody := ((bracket_mem_hostPort_iff readHost_le hx).1 hmem).1
        exact hno.resolve_left (by simp) ((bracket_mem_readHost_iff hx).1 hbody)
    · obtain ⟨c, r, rfl⟩ := List.exists_cons_of_ne_nil hne
      obtain rfl : c = chr ']' := by simpa using hy
      rw [consume_eq hwindow hn (by simp), ok_bind, if_neg (by omega)]
      refine .ok (.inr ⟨chr '[' :: (x ++ [chr ']']), r, by simp, by simp, ?_⟩)
      rw [bracket_mem_hostPort_iff readHost_le hx, bracket_mem_readHost_iff hx,
        and_iff_right hbody]
  · obtain ⟨x, y, rfl, hx, hy⟩ := exists_split (· == chr ':') b
    have hskip : skipWhile (fun c => !(c == chr ':')) (a ++ (x ++ y ++ z)) i j
        = .ok (i + x.length) := by
      rw [skipWhile_append hi hj, takeWhile_of_free hx hy]
    have hhost : window (a ++ (x ++ y ++ z)) i (i + x.length) = .ok x := by
      rw [List.append_assoc x y z]
      exact window_append hi (by rw [hi])
    have hhead : x.head?.any (· == chr '[') = false := by
      cases x with
      | nil => rfl
      | cons c x => simpa using hbracket
    obtain ⟨n, hn, hle, hiff⟩ := parseHost_ends (u := u) hhead
    rw [hskip, ok_bind, consume_eq hhost hn hle, ok_bind, Nat.add_sub_cancel_left,
      append_mem_hostPort_iff readHost_le hx hy (by simpa using hbracket), ← hiff]
    by_cases hfull : n = x.length
    · rw [if_neg (by simpa using hfull)]
      exact .ok (.inr ⟨x, y, rfl, rfl, and_iff_right hfull⟩)
    · rw [if_pos hfull]
      exact .ok (.inl ⟨rfl, fun h => hfull h.1⟩)

theorem authorityPort_ends (hi : i = a.length) (hj : j = a.length + t.length) :
    Ends (authorityPort (a ++ (t ++ z)) i j) fun n => n ≤ j ∧ (n = j ↔ t ∈ portPart) := by
  rw [authorityPort, peek_append hi hj, ok_bind, portPart, mem_optional]
  refine .ite (fun hcolon => ?_) fun hcolon => ?_
  · obtain ⟨d, rfl⟩ : ∃ d, t = chr ':' :: d := by
      cases t with
      | nil => simp at hcolon
      | cons c d => exact ⟨d, by simpa using hcolon⟩
    have hwindow : window (a ++ (chr ':' :: d ++ z)) (i + 1) j = .ok d := by
      have := window_append (x := a ++ [chr ':']) (y := d) (z := z) (i := i + 1) (j := j)
        (by simp [hi]) (by simp [hj]; omega)
      simpa using this
    obtain ⟨n, hn, hle, hiff⟩ := parsePort_spans d
    rw [consume_eq hwindow hn hle, ok_bind, or_iff_right (by simp), cons_mem_char_mul, ← hiff]
    simp only [true_and]
    have hlen : j = i + 1 + d.length := by
      rw [hi, hj, List.length_cons]
      omega
    by_cases hfull : n = d.length
    · rw [if_neg (by omega)]
      exact .ok ⟨le_rfl, iff_of_true rfl hfull⟩
    · rw [if_pos (by omega)]
      exact .ok ⟨Nat.zero_le _, iff_of_false (by omega) hfull⟩
  · cases t with
    | nil =>
      have hij : i = j := by simpa [← hi] using hj.symm
      rw [if_neg (by simpa using hij)]
      exact .ok ⟨hij.le, iff_of_true hij (.inl rfl)⟩
    | cons c d =>
      have hpos : i < j := by
        rw [hi, hj, List.length_cons]
        omega
      rw [if_pos hpos.ne]
      refine .ok ⟨Nat.zero_le _, iff_of_false (by omega) ?_⟩
      rintro (h | h)
      · cases h
      · obtain rfl := (cons_mem_char_mul.1 h).1
        simp at hcolon

/-- The end of `parse_authority`, which returns 0 without a host. -/
theorem hostAndPort_ends {f : Option ℕ → Result ℕ} (hi : i = a.length)
    (hj : j = a.length + b.length) (hs : s = a ++ (b ++ z)) (hnone : f none = .ok 0)
    (hsome : ∀ pos, f (some pos) = authorityPort s pos j) :
    Ends (authorityHost u s i j >>= f) fun n =>
      n ≤ j ∧ (n = j ↔ b ∈ hostPort (readHost u)) := by
  subst hs
  obtain ⟨r, hr, ⟨rfl, hmem⟩ | ⟨h, t, rfl, rfl, hiff⟩⟩ := authorityHost_ends (u := u) (z := z) hi hj
  · rw [hr, ok_bind, hnone]
    refine .ok ⟨Nat.zero_le _, iff_of_false (fun hzero => ?_) hmem⟩
    obtain rfl : b = [] := List.length_eq_zero_iff.1 (by omega)
    exact hmem nil_mem_hostPort
  · rw [hr, ok_bind, hsome, hiff]
    have := authorityPort_ends (a := a ++ h) (t := t) (z := z) (i := i + h.length) (j := j)
      (by simp [hi]) (by simp [hj]; omega)
    simpa using this

theorem parseAuthority_spans : Spans (parseAuthority u) (authority (readHost u) u) := by
  intro s
  obtain ⟨w, z, rfl, hw, hz⟩ := exists_split isAuthorityEnd s
  obtain ⟨r, hr, hend⟩ := find_split (a := []) (z := []) (i := 0) hw hz rfl (Nat.zero_add _).symm
  simp only [List.nil_append, List.append_nil, Nat.zero_add] at hr hend
  -- the authority before the bytes that end it
  suffices h : Ends (parseAuthority u (w ++ z)) fun n =>
      n ≤ w.length ∧ (n = w.length ↔ w ∈ authority (readHost u) u) by
    refine h.mono ?_
    rintro n ⟨hle, hiff⟩
    cases z with
    | nil => simpa using ⟨hle, hiff⟩
    | cons c z =>
      refine ⟨hle.trans (by simp), iff_of_false (by simp; omega) fun hmem => ?_⟩
      have hclass : isAuthorityEnd c = true := by simpa using hz
      have hc := authority_le readHost_le hmem c (by simp)
      simp only [isAuthorityEnd,
        beq_chr_of_class (q := urlByte "%:[]@") (k := '/') (by decide) c hc,
        beq_chr_of_class (q := urlByte "%:[]@") (k := '?') (by decide) c hc,
        beq_chr_of_class (q := urlByte "%:[]@") (k := '#') (by decide) c hc] at hclass
      cases hclass
  rw [parseAuthority, hr, ok_bind]
  dsimp only
  rw [hend]
  obtain ⟨k, b, rfl, hk, hb⟩ := exists_split (· == chr '@') w
  cases b with
  | nil =>
    have hfind : find (· == chr '@') (k ++ [] ++ z) 0 (k ++ []).length = .ok none := by
      simpa using find_none (a := []) (z := z) hk rfl (Nat.zero_add _).symm
    rw [hfind, ok_bind, List.append_nil, mem_authority_iff hk]
    exact hostAndPort_ends (a := []) rfl (Nat.zero_add _).symm rfl rfl fun _ => rfl
  | cons c b =>
    obtain rfl : c = chr '@' := by simpa using hb
    have hfind : find (· == chr '@') (k ++ chr '@' :: b ++ z) 0 (k ++ chr '@' :: b).length
        = .ok (some k.length) := by
      have := find_some (p := (· == chr '@')) (a := []) (y := b) (z := z) hk
        (beq_self_eq_true _) rfl (Nat.zero_add _).symm
      simpa using this
    have hwindow : window (k ++ chr '@' :: b ++ z) 0 k.length = .ok k := by
      rw [List.append_assoc]
      exact window_initial rfl
    obtain ⟨n, hn, hle, hiff⟩ := parseUserinfo_spans (u := u) k
    rw [hfind, ok_bind, append_mem_authority_iff readHost_le hk]
    dsimp only
    rw [consume_eq hwindow hn hle, ok_bind, ok_bind]
    by_cases hfull : n = k.length
    · rw [if_neg (by simpa using hfull), and_iff_right (hiff.1 hfull)]
      exact hostAndPort_ends (a := k ++ [chr '@']) (z := z) (by simp) (by simp; omega) (by simp) rfl
        fun _ => rfl
    · rw [if_pos hfull]
      exact .ok ⟨Nat.zero_le _, iff_of_false (by simp) fun h => hfull (hiff.2 h.1)⟩

end FastJsonSchema.Formats
