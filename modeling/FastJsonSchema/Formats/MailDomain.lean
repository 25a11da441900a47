import FastJsonSchema.Formats.Mailbox

/-!
# The domain of a mail address

A domain literal is cut at its first closing bracket and a `General-address-literal` at its first
colon, which no word of the parts before them contains. With the local part in front of the at sign
`parse_addr_spec` decides the addresses of the grammar (`parseAddrSpec_decides`).
-/

namespace FastJsonSchema.Formats

open Ruby Scan Words

open Text.Utf8 (isAscii)

open scoped Computability

variable {p q : UInt8 → Bool} {k : Char} {u tr : Bool} {a b r s t v w x y z : Bytes} {c : UInt8}
  {i j n : ℕ}

/-! ## Domain literals -/

/-- A byte of an `Ldh-str`. -/
def isLdh (c : UInt8) : Bool := isLetDig c || c == chr '-'

/-- The bytes after the first one of an `Ldh-str`. -/
theorem mem_ldhTail_iff : t ∈ ((char '-')∗ * letDig)∗ ↔
    (∀ c ∈ t, isLdh c = true) ∧ t.getLast? ≠ some (chr '-') := by
  have hdash : isLetDig (chr '-') = false := by decide
  rw [letDig_eq, char, kstar_letter]
  constructor
  · intro ht
    refine kstar_induction (P := fun t => (∀ c ∈ t, isLdh c = true) ∧
      t.getLast? ≠ some (chr '-')) ⟨by simp, by simp⟩ ?_ ht
    rintro _ ⟨a, ha, _, ⟨d, rfl, hd⟩, rfl⟩ - t - ⟨hall, hlast⟩
    refine ⟨?_, ?_⟩
    · simp only [List.forall_mem_append, List.forall_mem_singleton]
      exact ⟨⟨fun c hc => by simp [isLdh, ha c hc], by simp [isLdh, hd]⟩, hall⟩
    · cases t with
      | nil =>
        intro h
        obtain rfl : d = chr '-' := by simpa using h
        rw [hdash] at hd
        cases hd
      | cons c t =>
        rw [List.getLast?_append_of_ne_nil _ (by simp)]
        exact hlast
  · rintro ⟨hall, hlast⟩
    induction t with
    | nil => exact Language.nil_mem_kstar _
    | cons c t ih =>
      obtain ⟨hc, htail⟩ := List.forall_mem_cons.1 hall
      have ht : t.getLast? ≠ some (chr '-') := by
        cases t with
        | nil => simp
        | cons b t => simpa using hlast
      cases hdig : isLetDig c with
      | true =>
        have hone : [c] ∈ within (· == chr '-') * letter isLetDig :=
          ⟨[], fun _ h => absurd h List.not_mem_nil, [c], singleton_mem_letter.2 hdig, rfl⟩
        exact append_mem_kstar hone (ih htail ht)
      | false =>
        obtain rfl : c = chr '-' := by simpa [isLdh, hdig] using hc
        rcases mem_kstar_iff.1 (ih htail ht) with rfl | ⟨_, ⟨a, ha, d, hd, rfl⟩, -, r, hr, rfl⟩
        · simp at hlast
        · have hmore : (chr '-' :: a) ++ d ∈ within (· == chr '-') * letter isLetDig :=
            ⟨_, List.forall_mem_cons.2 ⟨by simp, ha⟩, d, hd, rfl⟩
          simpa using append_mem_kstar hmore hr

theorem parseLdhStr_decides : Decides parseLdhStr ldhStr := by
  intro w
  rw [parseLdhStr]
  cases w with
  | nil =>
    refine .ok (iff_of_false Bool.false_ne_true fun h => ?_)
    rw [ldhStr, letDig_eq] at h
    exact nil_notMem_letter_mul h
  | cons c t =>
    have hfirst : ∀ {L : Language UInt8}, c :: t ∈ letDig * L ↔ isLetDig c = true ∧ t ∈ L := by
      intro L
      rw [letDig_eq, cons_mem_letter_mul]
    rw [if_neg (by simp), byte_zero_cons, ok_bind, ldhStr, hfirst, mem_ldhTail_iff]
    refine .ite (fun hc => .ok (iff_of_false Bool.false_ne_true fun h => ?_)) fun hc => ?_
    · rw [h.1] at hc
      cases hc
    have hc : isLetDig c = true := by simpa using hc
    have hclass : ∀ b, (!isLetDig b && !(b == chr '-')) = !isLdh b := fun b => by
      rw [isLdh, Bool.not_or]
    have hfind : find (fun b => !isLetDig b && !(b == chr '-')) (c :: t) 0 (c :: t).length
        = .ok (((c :: t).findIdx? fun b => !isLdh b).map (0 + ·)) := by
      have := find_append (p := fun b => !isLdh b) (x := []) (y := c :: t) (z := []) (i := 0)
        rfl (Nat.zero_add _).symm
      simpa only [hclass, List.nil_append, List.append_nil] using this
    have hlast : byte (c :: t) ((c :: t).length - 1) = .ok (((c :: t).getLast?).getD c) := by
      rw [byte_eq (by simp), List.getLast?_eq_getElem?, List.getElem?_eq_getElem (by simp)]
      rfl
    rw [hfind, ok_bind, Option.isSome_map, List.findIdx?_isSome]
    refine .ite (fun hbad => .ok (iff_of_false Bool.false_ne_true fun h => ?_)) fun hgood => ?_
    · obtain ⟨b, hb, hno⟩ := List.any_eq_true.1 hbad
      have hldh : isLdh b = true := by
        rcases List.mem_cons.1 hb with rfl | hb
        · rw [isLdh, hc, Bool.true_or]
        · exact h.2.1 b hb
      simp [hldh] at hno
    have hall : ∀ b ∈ t, isLdh b = true := by
      intro b hb
      by_contra hno
      exact hgood (List.any_eq_true.2 ⟨b, List.mem_cons_of_mem c hb, by simpa using hno⟩)
    have hend : (c :: t).getLast?.getD c = chr '-' ↔ t.getLast? = some (chr '-') := by
      cases t with
      | nil =>
        refine iff_of_false ?_ (by simp)
        rintro rfl
        exact absurd hc (by decide)
      | cons b t =>
        rw [List.getLast?_cons_cons, List.getLast?_cons, Option.getD_some, Option.some.injEq]
    rw [hlast, ok_bind]
    refine .ite (fun hdash => .ok (iff_of_false Bool.false_ne_true fun h => h.2.2 (hend.1 hdash)))
      fun hdash => .ok (iff_of_true rfl ⟨hc, hall, fun h => hdash (hend.2 h)⟩)

theorem ldhStr_le : ldhStr ≤ within isLdh := by
  intro w hw c hc
  rw [ldhStr, letDig_eq] at hw
  obtain ⟨d, t, rfl, hd, ht⟩ := mem_letter_mul.1 hw
  rw [← letDig_eq] at ht
  rcases List.mem_cons.1 hc with rfl | hc
  · rw [isLdh, hd, Bool.true_or]
  · exact (mem_ldhTail_iff.1 ht).1 c hc

theorem parseIpv6Literal_decides : Decides parseIpv6Literal ipv6Literal := by
  intro w
  have hmem : w ∈ ipv6Literal ↔ ∃ x, w = str "IPv6:" ++ x ∧ parseIpv6 x = .ok true := Iff.rfl
  have htag : List.length (str "IPv6:") = 5 := by decide
  rw [parseIpv6Literal, hmem]
  refine .ite (fun hlen => .ok (iff_of_false Bool.false_ne_true ?_)) fun hlen => ?_
  · rintro ⟨x, rfl, -⟩
    rw [List.length_append, htag] at hlen
    omega
  obtain ⟨x, y, rfl, hx⟩ : ∃ x y, w = x ++ y ∧ x.length = 5 :=
    ⟨w.take 5, w.drop 5, (List.take_append_drop 5 w).symm, by simp; omega⟩
  have hcut : ∀ z, x ++ y = str "IPv6:" ++ z → x = str "IPv6:" ∧ y = z := fun z h =>
    List.append_inj h (hx.trans htag.symm)
  rw [window_initial hx.symm, ok_bind, window_suffix hx.symm rfl, ok_bind]
  refine .ite (fun hne => .ok (iff_of_false Bool.false_ne_true ?_)) fun heq => ?_
  · rintro ⟨z, h, -⟩
    exact hne (hcut z h).1
  obtain ⟨b, hb, -⟩ := parseIpv6_ends y
  refine ⟨b, hb, ?_⟩
  constructor
  · rintro rfl
    exact ⟨y, by rw [not_not.1 heq], hb⟩
  · rintro ⟨z, h, hz⟩
    obtain ⟨-, rfl⟩ := hcut z h
    exact Except.ok.inj (hb.symm.trans hz)

theorem ldhStr_ne_nil (hw : w ∈ ldhStr) : w ≠ [] := by
  rintro rfl
  rw [ldhStr, letDig_eq] at hw
  exact nil_notMem_letter_mul hw

/-- A `General-address-literal` is cut at its first colon. -/
theorem append_mem_generalAddressLiteral_iff (hx : Free (· == chr ':') x)
    (hy : Starts (· == chr ':') y) : x ++ y ∈ generalAddressLiteral u ↔
      x ∈ tag ∧ ∃ t, y = chr ':' :: t ∧ t ≠ [] ∧ t ∈ (dcontent u)∗ := by
  have htag : ∀ k ∈ tag, Free (· == chr ':') k := fun k hk =>
    free_of_le ldhStr_le (beq_chr_of_class (by decide)) hk.1
  rw [generalAddressLiteral, append_mem_mul_iff hx hy htag]
  · refine and_congr_right fun _ => ?_
    rw [char, mem_letter_mul]
    constructor
    · rintro ⟨d, t, rfl, hd, ht⟩
      obtain ⟨ht, hne⟩ := (mem_many1_iff dcontent_ne_nil).1 ht
      exact ⟨t, by rw [beq_iff_eq.1 hd], hne, ht⟩
    · rintro ⟨t, rfl, hne, ht⟩
      exact ⟨_, t, rfl, by simp, (mem_many1_iff dcontent_ne_nil).2 ⟨ht, hne⟩⟩
  · intro m hm
    obtain ⟨d, t, rfl, hd, -⟩ := mem_letter_mul.1 hm
    exact starts_cons.2 hd

/-- The comparison of a tag with the one of the IPv6 literals. -/
theorem window_eq_tag : (if x.length = 4 then do .ok ((← window (x ++ y) 0 4) == str "IPv6")
    else .ok false : Result Bool) = .ok (x == str "IPv6") := by
  by_cases hfour : x.length = 4
  · rw [if_pos hfour, window_initial hfour.symm, ok_bind]
  · rw [if_neg hfour, beq_eq_false_iff_ne.2]
    rintro rfl
    exact hfour (by decide)

/-- The search for a letter in a tag. -/
theorem find_alpha (x y : Bytes) : Ends (find isAlpha (x ++ y) 0 x.length) fun o =>
    o.isNone = true ↔ ¬ ∃ c ∈ x, isAlpha c = true := by
  have hfind : find isAlpha (x ++ y) 0 x.length = .ok ((x.findIdx? isAlpha).map (0 + ·)) := by
    have := find_append (p := isAlpha) (x := []) (y := x) (z := y) (i := 0) rfl
      (Nat.zero_add _).symm
    simpa using this
  rw [hfind]
  refine .ok ?_
  rw [Option.isNone_map, List.findIdx?_isNone]
  simp

theorem parseGeneralAddressLiteral_decides :
    Decides (parseGeneralAddressLiteral u) (generalAddressLiteral u) := by
  intro w
  obtain ⟨x, y, rfl, hx, hy⟩ := exists_split (· == chr ':') w
  rw [append_mem_generalAddressLiteral_iff hx hy, parseGeneralAddressLiteral]
  cases y with
  | nil =>
    have hfind : find (· == chr ':') (x ++ []) 0 (x ++ []).length = .ok none := by
      simpa using find_none (a := []) (z := []) (i := 0) hx rfl (Nat.zero_add _).symm
    rw [hfind]
    refine .ok (iff_of_false Bool.false_ne_true ?_)
    rintro ⟨-, t, ht, -⟩
    cases ht
  | cons c t =>
    obtain rfl : c = chr ':' := by simpa using hy
    have hfind : find (· == chr ':') (x ++ chr ':' :: t) 0 (x ++ chr ':' :: t).length
        = .ok (some x.length) := by
      have := find_some (p := (· == chr ':')) (a := []) (y := t) (z := []) (i := 0) hx
        (beq_self_eq_true _) rfl (Nat.zero_add _).symm
      simpa using this
    have hwindow : window (x ++ chr ':' :: t) 0 x.length = .ok x := window_initial rfl
    have hcolon : (∃ r, chr ':' :: t = chr ':' :: r ∧ r ≠ [] ∧ r ∈ (dcontent u)∗) ↔
        t ≠ [] ∧ t ∈ (dcontent u)∗ := by
      simp
    have htag : x ∈ tag ↔ x ∈ ldhStr ∧ (∃ c ∈ x, isAlpha c = true) ∧ x ≠ str "IPv6" := Iff.rfl
    rw [hfind, ok_bind, hcolon, htag]
    dsimp only
    refine .ite (fun hshort => .ok (iff_of_false Bool.false_ne_true ?_)) fun _ => ?_
    · rintro ⟨⟨hldh, -⟩, hne, -⟩
      rcases hshort with hzero | hlast
      · exact ldhStr_ne_nil hldh (List.length_eq_zero_iff.1 hzero)
      · refine hne (List.length_eq_zero_iff.1 ?_)
        simp only [List.length_append, List.length_cons] at hlast
        omega
    obtain ⟨b, hb, hldh⟩ := parseLdhStr_decides x
    rw [hwindow, ok_bind, hb, ok_bind, ← hldh]
    refine .ite (fun hno => .ok (iff_of_false Bool.false_ne_true ?_)) fun hyes => ?_
    · rintro ⟨⟨rfl, -⟩, -⟩
      cases hno
    rw [window_eq_tag, ok_bind]
    refine .ite (fun htag => .ok (iff_of_false Bool.false_ne_true ?_)) fun htag => ?_
    · rintro ⟨⟨-, -, hne⟩, -⟩
      exact hne (beq_iff_eq.1 htag)
    obtain ⟨o, ho, hnone⟩ := find_alpha x (chr ':' :: t)
    rw [ho, ok_bind]
    refine .ite (fun hno => .ok (iff_of_false Bool.false_ne_true ?_)) fun hsome => ?_
    · rintro ⟨⟨-, hletter, -⟩, -⟩
      exact hnone.1 hno hletter
    have hassoc : x ++ chr ':' :: t = x ++ [chr ':'] ++ t := by simp
    refine .ite (fun hshort => .ok (iff_of_false Bool.false_ne_true ?_)) fun hlong => ?_
    · rintro ⟨-, hne, -⟩
      refine hne (List.length_eq_zero_iff.1 ?_)
      simp only [List.length_append, List.length_cons] at hshort
      omega
    have hne : t ≠ [] := by
      rintro rfl
      simp at hlong
    have hletter : ∃ c ∈ x, isAlpha c = true := not_not.1 (mt hnone.2 hsome)
    rw [hassoc, and_iff_right ⟨by simpa using hyes, hletter, by simpa using htag⟩,
      and_iff_right hne]
    exact dcontent_consumes.every_ends dcontent_ne_nil (fun _ => trivial) _ (by simp)

theorem parseDomainLiteralBody_decides :
    Decides (parseDomainLiteralBody u) (literalBody u) := by
  intro w
  obtain ⟨b, hb, hfour⟩ := parseIpv4_decides w
  obtain ⟨d, hd, hsix⟩ := parseIpv6Literal_decides w
  obtain ⟨e, he, hgeneral⟩ := parseGeneralAddressLiteral_decides (u := u) w
  rw [parseDomainLiteralBody, literalBody, Language.mem_add, Language.mem_add, hb, ok_bind, hd,
    ok_bind, he, ← hfour, ← hsix, ← hgeneral]
  cases b <;> cases d <;> cases e <;> simp

/-! ## The domain -/

theorem free_generalAddressLiteral (hw : w ∈ generalAddressLiteral u) : Free (· == chr ']') w := by
  obtain ⟨k, hk, _, ⟨_, ⟨c, rfl, hc⟩, d, hd, rfl⟩, rfl⟩ := hw
  obtain rfl : c = chr ':' := by simpa using hc
  have hcontent : dcontent u ≤ within fun c => isDcontent c || !isAscii c := by
    rw [dcontent_eq]
    refine add_le (letter_le_within fun c hc => by simp [hc]) (utf8NonAscii_le.trans ?_)
    exact within_mono fun c hc => by simp [hc]
  have hd : Free (· == chr ']') d := free_of_le ((isSubmonoid_within _).many1 hcontent)
    (beq_chr_of_class (by decide)) hd
  have hk : Free (· == chr ']') k := free_of_le ldhStr_le (beq_chr_of_class (by decide)) hk.1
  have hcolon : Free (· == chr ']') [chr ':'] := by
    intro b hb
    obtain rfl := List.mem_singleton.1 hb
    decide
  exact free_append.2 ⟨hk, free_append.2 ⟨hcolon, hd⟩⟩

/-- No body of a domain literal has a closing bracket. -/
theorem free_literalBody (hw : w ∈ literalBody u) : Free (· == chr ']') w := by
  rcases hw with (hw | hw) | hw
  · exact free_of_le ipv4Address_le (beq_chr_of_class (by decide)) hw
  · obtain ⟨x, rfl, hx⟩ := hw
    have htag : ∀ c ∈ str "IPv6:", isDcontent c = true := List.all_eq_true.1 (by decide)
    exact free_append.2 ⟨fun c hc => beq_chr_of_class (by decide) c (htag c hc),
      fun c hc => beq_chr_of_class (by decide) c (bytes_of_parseIpv6 hx c hc)⟩
  · exact free_generalAddressLiteral hw

theorem parseDomainLiteral_ends (t : Bytes) : Ends (parseDomainLiteral u (chr '[' :: t)) fun n =>
    n ≤ (chr '[' :: t).length ∧
      (n = (chr '[' :: t).length ↔ t ∈ literalBody u * char ']') := by
  obtain ⟨x, y, rfl, hx, hy⟩ := exists_split (· == chr ']') t
  have hmem : x ++ y ∈ literalBody u * char ']' ↔ x ∈ literalBody u ∧ y = [chr ']'] := by
    rw [append_mem_mul_iff hx hy (fun _ h => free_literalBody h)]
    · refine and_congr_right fun _ => ?_
      constructor
      · rintro ⟨c, rfl, hc⟩
        rw [beq_iff_eq.1 hc]
      · rintro rfl
        exact singleton_mem_letter.2 (by simp)
    · rintro m ⟨c, rfl, hc⟩
      exact starts_cons.2 hc
  rw [hmem, parseDomainLiteral]
  refine .ite (fun hshort => ?_) fun _ => ?_
  · obtain ⟨rfl, rfl⟩ : x = [] ∧ y = [] := by
      refine List.append_eq_nil_iff.1 (List.length_eq_zero_iff.1 ?_)
      simp only [List.length_cons] at hshort
      omega
    exact .ok ⟨Nat.zero_le _, iff_of_false (by simp) fun h => by cases h.2⟩
  rw [byte_zero_cons, ok_bind, if_neg (by simp)]
  cases y with
  | nil =>
    have hfind : find (· == chr ']') (chr '[' :: (x ++ [])) 1 (chr '[' :: (x ++ [])).length
        = .ok none := find_none (a := [chr '[']) hx rfl (by simp; omega)
    rw [hfind]
    exact .ok ⟨Nat.zero_le _, iff_of_false (by simp) fun h => by cases h.2⟩
  | cons c r =>
    obtain rfl : c = chr ']' := by simpa using hy
    have hfind : find (· == chr ']') (chr '[' :: (x ++ chr ']' :: r)) 1
        (chr '[' :: (x ++ chr ']' :: r)).length = .ok (some (1 + x.length)) := by
      have := find_some (p := (· == chr ']')) (a := [chr '[']) (z := []) (y := r) hx
        (beq_self_eq_true _) rfl rfl
      simpa [Nat.add_comm] using this
    have hwindow : window (chr '[' :: (x ++ chr ']' :: r)) 1 (1 + x.length) = .ok x :=
      window_append (x := [chr '[']) rfl rfl
    obtain ⟨b, hb, hbody⟩ := parseDomainLiteralBody_decides (u := u) x
    rw [hfind, ok_bind]
    dsimp only
    rw [hwindow, ok_bind, hb, ok_bind, ← hbody]
    refine .ite (fun hno => .ok ⟨Nat.zero_le _, iff_of_false (by simp) ?_⟩) fun hyes => ?_
    · rintro ⟨rfl, -⟩
      cases hno
    · refine .ok ⟨by simp; omega, ?_⟩
      rw [and_iff_right (by simpa using hyes), List.length_cons, List.length_append,
        List.length_cons]
      simp only [List.cons.injEq, true_and, ← List.length_eq_zero_iff]
      omega

theorem parseDomain_ends (hw : w ≠ []) : Ends (parseDomain u w) fun n =>
    n ≤ w.length ∧ (n = w.length ↔ w ∈ domain u) := by
  obtain ⟨c, t, rfl⟩ := List.exists_cons_of_ne_nil hw
  have hatom : c :: t ∈ dotAtomText u * optional (char '.') → c ≠ chr '[' := by
    rintro ⟨a, ha, b, -, hab⟩
    obtain ⟨d, r, rfl, -, hd⟩ := head_of_dotAtomText ha
    obtain rfl : d = c := (List.cons.inj hab).1
    exact hd
  rw [parseDomain, if_neg (by simp), byte_zero_cons, ok_bind, domain, Language.mem_add,
    cons_mem_char_mul]
  refine .ite (fun hc => ?_) fun hc => ?_
  · subst hc
    rw [or_iff_right fun h => hatom h rfl]
    simpa only [true_and] using parseDomainLiteral_ends t
  rw [or_iff_left fun h => hc h.1, mem_mul_optional]
  refine (parseDotAtom_ends (c :: t)).mono ?_
  rintro n ⟨hsound, hcomplete⟩
  have hdot : Follows u true [chr '.'] := ⟨stuck_dot (by simp), fun _ => ⟨rfl, rfl⟩⟩
  constructor
  · rcases hsound with rfl | ⟨x, y, hxy, -, rfl | ⟨-, -, rfl⟩⟩
    · exact Nat.zero_le _
    · rw [hxy, List.length_append]
      omega
    · exact le_rfl
  constructor
  · rintro rfl
    rcases hsound with hzero | ⟨x, y, hxy, hx, hlen | ⟨-, rfl, -⟩⟩
    · exact absurd hzero (by simp)
    · obtain rfl : y = [] := by
        rw [hxy] at hlen
        simpa using hlen
      rw [hxy, List.append_nil]
      exact .inl hx
    · rw [hxy]
      exact .inr ⟨x, hx, _, singleton_mem_letter.2 (by simp), rfl⟩
  · rintro (hmem | ⟨x, hx, _, ⟨d, rfl, hd⟩, hxd⟩)
    · rw [hcomplete (c :: t) [] (by simp) hmem follows_nil, if_neg (by simp)]
    · obtain rfl : d = chr '.' := by simpa using hd
      rw [hcomplete x _ hxd.symm hx hdot, if_pos rfl]

theorem nil_notMem_localPart : [] ∉ localPart u := by
  rintro (h | h)
  · obtain ⟨c, t, hcons, -⟩ := head_of_dotAtomText h
    cases hcons
  · exact nil_notMem_letter_mul h

/-- A local part of at most 64 bytes, an at sign, and a domain of 1 to 255 bytes. -/
def IsAddrSpec (u : Bool) (s : Bytes) : Prop :=
  ∃ l d, s = l ++ chr '@' :: d ∧ l ∈ localPart u ∧ l.length ≤ maxLocalPart ∧ d ∈ domain u ∧
    1 ≤ d.length ∧ d.length ≤ maxDomain

theorem mem_addrSpec_iff : s ∈ addrSpec u ↔ IsAddrSpec u s := by
  constructor
  · rintro ⟨l, ⟨hl, -, hlen⟩, _, ⟨_, ⟨c, rfl, hc⟩, d, ⟨hd, hdlen⟩, rfl⟩, rfl⟩
    exact ⟨l, d, by rw [beq_iff_eq.1 hc]; rfl, hl, hlen, hd, hdlen⟩
  · rintro ⟨l, d, rfl, hl, hlen, hd, hdlen⟩
    exact ⟨l, ⟨hl, Nat.zero_le _, hlen⟩, _, cons_mem_char_mul.2 ⟨rfl, hd, hdlen⟩, rfl⟩

/-- The rest of an address after its local part is the domain. -/
theorem isAddrSpec_append_iff (hx : x ∈ localPart u) (hlen : x.length ≤ maxLocalPart)
    (hlocal : ∀ l d, x ++ c :: t = l ++ chr '@' :: d → l ∈ localPart u → x.length = l.length) :
    IsAddrSpec u (x ++ c :: t) ↔
      c = chr '@' ∧ t ∈ domain u ∧ 1 ≤ t.length ∧ t.length ≤ maxDomain := by
  constructor
  · rintro ⟨l, e, heq, hl, -, he⟩
    obtain ⟨-, htail⟩ := List.append_inj heq (hlocal l e heq hl)
    obtain ⟨rfl, rfl⟩ := List.cons.inj htail
    exact ⟨rfl, he⟩
  · rintro ⟨rfl, ht⟩
    exact ⟨x, t, rfl, hx, hlen, ht⟩

/-- **Mail addresses.** `parse_addr_spec` decides the addresses of the grammar. -/
theorem parseAddrSpec_decides (u : Bool) : Decides (parseAddrSpec u) (addrSpec u) := by
  intro s
  have hfail : ¬ IsAddrSpec u s → Ends (.ok false) fun b => b = true ↔ IsAddrSpec u s :=
    fun h => .ok (iff_of_false Bool.false_ne_true h)
  rw [mem_addrSpec_iff, parseAddrSpec]
  refine .ite (fun hzero => hfail ?_) fun hlen => ?_
  · rintro ⟨l, d, rfl, -⟩
    simp at hzero
  have hne : s ≠ [] := fun h => hlen (by rw [h]; rfl)
  obtain ⟨n, hn, hcase⟩ := (parseLocalPart_consumes (u := u)).ends s hne
  -- the local part of an address is the one that is found
  have hlocal : ∀ l d, s = l ++ chr '@' :: d → l ∈ localPart u → n = l.length := by
    rintro l d rfl hl
    rw [parseLocalPart_consumes.complete l hl _ (by simp), Except.ok.injEq] at hn
    exact hn.symm
  rw [hn, ok_bind]
  refine .ite (fun hzero => hfail ?_) fun hpos => ?_
  · rintro ⟨l, d, rfl, hl, -⟩
    have hnil : l = [] := List.length_eq_zero_iff.1 ((hlocal l d rfl hl).symm.trans hzero)
    rw [hnil] at hl
    exact nil_notMem_localPart hl
  obtain ⟨x, y, rfl, hx, rfl⟩ := hcase.resolve_left hpos
  refine .ite (fun hlong => hfail ?_) fun hshort => ?_
  · rintro ⟨l, d, heq, hl, hllen, -⟩
    rw [hlocal l d heq hl] at hlong
    omega
  refine .ite (fun hend => hfail ?_) fun hrest => ?_
  · rintro ⟨l, d, heq, hl, -⟩
    have hlen := congrArg List.length heq
    rw [hlocal l d heq hl, heq] at hend
    simp at hend
  obtain ⟨c, d, rfl⟩ := List.exists_cons_of_ne_nil (l := y) (by
    rintro rfl
    simp at hrest)
  have hsplit := isAddrSpec_append_iff hx (by omega) hlocal
  rw [byte_append rfl, ok_bind]
  rw [hsplit] at hfail ⊢
  refine .ite (fun hat => hfail fun h => hat h.1) fun hat => ?_
  obtain rfl : c = chr '@' := not_not.1 hat
  have hlen : (x ++ chr '@' :: d).length - (x.length + 1) = d.length := by
    rw [List.length_append, List.length_cons]
    omega
  dsimp only
  rw [hlen]
  refine .ite (fun hzero => hfail fun h => ?_) fun hnonempty => ?_
  · have := h.2.2.1
    omega
  refine .ite (fun hlong => hfail fun h => ?_) fun hfits => ?_
  · have := h.2.2.2
    omega
  have hne : d ≠ [] := fun h => hnonempty (by rw [h]; rfl)
  obtain ⟨n, hn, hle, hdomain⟩ := parseDomain_ends (u := u) hne
  rw [consume_eq (window_behind rfl rfl) hn hle, ok_bind, ← hdomain]
  refine .ite (fun hzero => .ok (iff_of_false Bool.false_ne_true ?_)) fun _ => ?_
  · rintro ⟨-, hfull, -⟩
    exact hnonempty (hfull.symm.trans hzero)
  refine .ite (fun hpart => .ok (iff_of_false Bool.false_ne_true fun h => hpart h.2.1))
    fun hfull => .ok (iff_of_true rfl ⟨rfl, not_not.1 hfull, by omega, by omega⟩)

/-- `parse_addr_spec` accepts a local part of at most 64 bytes, which is a dot-atom or a quoted
string, an at sign, and a domain of 1 to 255 bytes, which is a dot-atom with at most one dot after
it or a literal in brackets. -/
theorem parseAddrSpec_iff (u : Bool) (s : Bytes) : parseAddrSpec u s = .ok true ↔
    ∃ l d, s = l ++ chr '@' :: d ∧ l ∈ dotAtomText u + quotedString u ∧ l.length ≤ 64 ∧
      d ∈ dotAtomText u * optional (char '.') + char '[' * (literalBody u * char ']') ∧
      1 ≤ d.length ∧ d.length ≤ 255 :=
  (parseAddrSpec_decides u).eq_ok.trans mem_addrSpec_iff

end FastJsonSchema.Formats
