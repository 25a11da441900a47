import FastJsonSchema.Formats.UriAuthority

/-!
# URI references

`parse_uri_reference` decides the rules of RFC 3986 over the hosts that `parse_host` takes
(`parseUriReference_decides`). The host of a reference is the same in each of its derivations, so
the references that the code rejects against the RFC are those whose host `parse_host` cuts after
an IPv4 address (`parseUriReference_iff`).
-/

namespace FastJsonSchema.Formats

open Ruby Scan Words Rfc3986

open scoped Computability

variable {H K : Language UInt8} {u rel : Bool} {a b k m r s t w x y z : Bytes} {c : UInt8}
  {i j n : ℕ}

/-! ## The path and the authority -/

theorem authorityAndPath_ends (hk : Free (· == chr '/') k) (hm : Starts (· == chr '/') m)
    (hj : j = 2 + (k ++ m).length) :
    Ends (authorityAndPath u (chr '/' :: chr '/' :: (k ++ m ++ z)) j) fun r =>
      (r = some j ∧ k ∈ authority (readHost u) u ∧ m ∈ pathAbempty u) ∨
        (r = none ∧ ¬ (k ∈ authority (readHost u) u ∧ m ∈ pathAbempty u)) := by
  have happend : chr '/' :: chr '/' :: (k ++ m ++ z) = [chr '/', chr '/'] ++ (k ++ m ++ z) := rfl
  have hlen : j = 2 + k.length + m.length := by
    rw [hj, List.length_append]
    omega
  obtain ⟨r, hr, hend⟩ := find_split (a := [chr '/', chr '/']) (z := z) hk hm rfl hj
  have hwindow : window ([chr '/', chr '/'] ++ (k ++ m ++ z)) 2 (2 + k.length) = .ok k := by
    rw [List.append_assoc k m z]
    exact window_append rfl rfl
  have hpath : window ([chr '/', chr '/'] ++ (k ++ m ++ z)) (2 + k.length) j = .ok m := by
    have := window_append (x := [chr '/', chr '/'] ++ k) (y := m) (z := z) (i := 2 + k.length)
      (j := j) (by simp; omega) (by simp [hlen]; omega)
    simpa using this
  obtain ⟨n, hn, hle, hiff⟩ := parseAuthority_spans (u := u) k
  obtain ⟨l, hl, hlle, hliff⟩ := parsePathAbempty_spans (u := u) m
  rw [happend, authorityAndPath]
  change Ends (find _ _ [chr '/', chr '/'].length _ >>= _) _
  rw [hr, ok_bind]
  dsimp only
  rw [hend]
  change Ends (consume _ _ 2 (2 + k.length) >>= _) _
  rw [consume_eq hwindow hn hle, ok_bind, ← hiff, ← hliff]
  refine .ite (fun hfull => .ok (.inr ⟨rfl, fun h => hfull ?_⟩)) fun hfull => ?_
  · rw [h.1]
    simp
  have hfull : n = k.length := by simpa using hfull
  change Ends (consume _ _ (2 + k.length) _ >>= _) _
  rw [consume_eq hpath hl hlle, ok_bind]
  by_cases hrest : l = m.length
  · rw [if_neg (by simp; omega)]
    exact .ok (.inl ⟨rfl, hfull, hrest⟩)
  · rw [if_pos (by simp; omega)]
    exact .ok (.inr ⟨rfl, fun h => hrest h.2⟩)

theorem nil_mem_part : [] ∈ part H rel u := .inr (.inr rfl)

theorem slash_mem_plainPath_iff :
    chr '/' :: t ∈ plainPath rel u ↔ chr '/' :: t ∈ pathAbsolute u := by
  rw [plainPath, Language.mem_add, Language.mem_add, or_assoc, or_iff_left]
  rintro (h | h)
  · cases rel with
    | false =>
      obtain ⟨c, r, hcons, hc⟩ := head_pathRootless h
      exact hc (List.cons.inj hcons).1.symm
    | true =>
      obtain ⟨c, r, hcons, hc⟩ := head_pathNoscheme h
      exact hc (List.cons.inj hcons).1.symm
  · cases h

theorem cons_mem_plainPath_iff (hc : c ≠ chr '/') : c :: t ∈ plainPath rel u ↔
    c :: t ∈ (if rel then pathNoscheme u else pathRootless u) := by
  rw [plainPath, Language.mem_add, Language.mem_add, or_right_comm, or_iff_right]
  rintro (h | h)
  · exact hc (cons_mem_char_mul.1 h).1
  · cases h

/-- The verdict of a scanner that has to take its whole window. -/
def Takes (r : Option ℕ) (w : Bytes) (P : Prop) : Prop :=
  (r = some w.length ∧ P) ∨ (r = none ∧ ¬ P)

theorem takes_of_ends {f : Bytes → Result ℕ} {P : Prop} (hw : window s i j = .ok w)
    (hj : j = w.length) (h : Ends (f w) fun n => n ≤ w.length ∧ (n = w.length ↔ P)) :
    Ends (do
      let n ← consume f s i j
      .ok (if n ≠ j then none else some n) : Result (Option ℕ)) fun r => Takes r w P := by
  obtain ⟨n, hn, hle, hiff⟩ := h
  rw [consume_eq hw hn hle, ok_bind, hj]
  by_cases hfull : n = w.length
  · rw [if_neg (by simpa using hfull), hfull]
    exact .ok (.inl ⟨rfl, hiff.1 hfull⟩)
  · rw [if_pos hfull]
    exact .ok (.inr ⟨rfl, fun h => hfull (hiff.2 h)⟩)

/-- The test for two slashes of a window without them. -/
theorem slashes_eq_false (hnet : ¬ ∃ t, x = chr '/' :: chr '/' :: t) :
    (if x.length ≥ 2 then do
      if (← byte (x ++ y) 0) = chr '/' then .ok ((← byte (x ++ y) 1) == chr '/') else .ok false
      else .ok false : Result Bool) = .ok false := by
  match x, hnet with
  | [], _ => rfl
  | [_], _ => rfl
  | a :: b :: t, hnet =>
    by_cases ha : a = chr '/'
    · have hb : b ≠ chr '/' := fun hb => hnet ⟨t, by rw [ha, hb]⟩
      simp [ha, hb]
    · simp [ha]

theorem parseHierOrRelativePart_ends (hx : Free isPathEnd x) (hy : Starts isPathEnd y) :
    Ends (parseHierOrRelativePart u rel (x ++ y)) fun r =>
      Takes r x (x ∈ part (readHost u) rel u) := by
  have hnil : x = [] → Takes (some 0) x (x ∈ part (readHost u) rel u) := by
    rintro rfl
    exact .inl ⟨rfl, nil_mem_part⟩
  rw [parseHierOrRelativePart]
  refine .ite (fun hzero => .ok (hnil ?_)) fun _ => ?_
  · exact (List.append_eq_nil_iff.1 (List.length_eq_zero_iff.1 hzero)).1
  obtain ⟨r, hr, hend⟩ := find_split (a := []) (z := []) (i := 0) hx hy rfl (Nat.zero_add _).symm
  simp only [List.nil_append, List.append_nil, Nat.zero_add] at hr hend
  rw [hr, ok_bind]
  dsimp only
  rw [hend]
  have hwindow : window (x ++ y) 0 x.length = .ok x := window_initial rfl
  by_cases hnet : ∃ t, x = chr '/' :: chr '/' :: t
  · obtain ⟨t, rfl⟩ := hnet
    obtain ⟨k, m, rfl, hk, hm⟩ := exists_split (· == chr '/') t
    rw [slashes_mem_part_iff readHost_le hk hm]
    have h := authorityAndPath_ends (u := u) (z := y) (j := 2 + (k ++ m).length) hk hm rfl
    have hlen : (chr '/' :: chr '/' :: (k ++ m)).length = 2 + (k ++ m).length := by
      simp
      omega
    have hslashes : (if (chr '/' :: chr '/' :: (k ++ m)).length ≥ 2 then do
        if (← byte (chr '/' :: chr '/' :: (k ++ m) ++ y) 0) = chr '/' then
          .ok ((← byte (chr '/' :: chr '/' :: (k ++ m) ++ y) 1) == chr '/')
        else .ok false
        else .ok false : Result Bool) = .ok true := by
      simp
    rw [hslashes, ok_bind, if_pos rfl, hlen]
    refine h.mono fun r hr => ?_
    rw [Takes, hlen]
    exact hr
  · have hpeek : peek (· == chr '/') (x ++ y) 0 x.length = .ok (x.head?.any (· == chr '/')) := by
      simpa using peek_append (p := (· == chr '/')) (x := []) (y := x) (z := y) rfl
        (Nat.zero_add _).symm
    rw [slashes_eq_false hnet, ok_bind, if_neg Bool.false_ne_true, hpeek, ok_bind,
      mem_part_iff fun t ht => hnet ⟨t, ht⟩]
    rw [mem_part_iff fun t ht => hnet ⟨t, ht⟩] at hnil
    refine .ite (fun hslash => ?_) fun hslash => ?_
    · obtain ⟨t, rfl⟩ := exists_cons_of_head hslash
      rw [slash_mem_plainPath_iff]
      exact takes_of_ends hwindow rfl (parsePathAbsolute_ends t)
    refine .ite (fun hzero => .ok (hnil (List.length_eq_zero_iff.1 hzero))) fun hne => ?_
    have hne : x ≠ [] := fun h => hne (List.length_eq_zero_iff.2 h)
    obtain ⟨c, t, rfl⟩ := List.exists_cons_of_ne_nil hne
    have hc : c ≠ chr '/' := by simpa using hslash
    rw [cons_mem_plainPath_iff hc]
    cases rel with
    | false => exact takes_of_ends hwindow rfl (parsePathRootless_ends hne)
    | true => exact takes_of_ends hwindow rfl (parsePathNoscheme_ends hne)

/-! ## The query and the fragment -/

theorem fragmentAt_ends (hi : i = a.length) : Ends (fragmentAt u (a ++ r) i) fun b =>
    b = true ↔ r ∈ fragmentPart u := by
  rw [fragmentAt, peek_suffix hi rfl, ok_bind, fragmentPart, mem_optional]
  refine .ite (fun hhash => ?_) fun hhash => ?_
  · obtain ⟨t, rfl⟩ := exists_cons_of_head hhash
    obtain ⟨n, hn, hle, hiff⟩ := parseQueryOrFragment_spans (u := u) t
    rw [consume_eq (window_behind hi rfl) hn hle, ok_bind, or_iff_right (by simp),
      cons_mem_char_mul, ← hiff]
    refine .ok ?_
    simp [hi]
    omega
  · refine .ok ?_
    cases r with
    | nil => simp [hi]
    | cons c t =>
      refine iff_of_false (by simp [hi]) ?_
      rintro (h | h)
      · cases h
      · obtain rfl := (cons_mem_char_mul.1 h).1
        simp at hhash

theorem queryAt_ends (hi : i = a.length) : Ends (queryAt u (a ++ r) i) fun b =>
    b = true ↔ r ∈ queryFragment u := by
  rw [queryAt, peek_suffix hi rfl, ok_bind]
  refine .ite (fun hquestion => ?_) fun hquestion => ?_
  · obtain ⟨t, rfl⟩ := exists_cons_of_head hquestion
    obtain ⟨x, y, rfl, hx, hy⟩ := exists_split (· == chr '#') t
    have hassoc : a ++ chr '?' :: (x ++ y) = a ++ [chr '?'] ++ (x ++ y) := by simp
    obtain ⟨f, hf, hend⟩ := find_split (a := a ++ [chr '?']) (z := []) (i := i + 1)
      (j := (a ++ chr '?' :: (x ++ y)).length) hx hy (by simp [hi]) (by simp; omega)
    rw [List.append_nil, ← hassoc] at hf
    have hwindow : window (a ++ chr '?' :: (x ++ y)) (i + 1) (i + 1 + x.length) = .ok x := by
      rw [hassoc]
      exact window_append (by simp [hi]) (by simp [hi])
    obtain ⟨n, hn, hle, hiff⟩ := parseQueryOrFragment_spans (u := u) x
    rw [hf, ok_bind, question_mem_queryFragment_iff hx hy, ← hiff]
    dsimp only
    rw [hend, consume_eq hwindow hn hle, ok_bind]
    refine .ite (fun hfull => .ok (iff_of_false Bool.false_ne_true ?_)) fun hfull => ?_
    · rintro ⟨h, -⟩
      exact hfull (by rw [h])
    · rw [and_iff_right (by omega)]
      have := fragmentAt_ends (u := u) (a := a ++ chr '?' :: x) (r := y) (i := i + 1 + x.length)
        (by simp [hi]; omega)
      simpa using this
  · rw [mem_queryFragment_iff (by simpa using hquestion)]
    exact fragmentAt_ends hi

theorem partAndQuery_ends {f : Option ℕ → Result Bool} (hi : i = a.length)
    (hnone : f none = .ok false)
    (hsome : ∀ n, f (some n) = queryAt u (a ++ r) (i + n)) :
    Ends (parseHierOrRelativePart u rel r >>= f) fun b =>
      b = true ↔ r ∈ part (readHost u) rel u * queryFragment u := by
  obtain ⟨x, y, rfl, hx, hy⟩ := exists_split isPathEnd r
  rw [append_mem_part_mul_iff readHost_le hx hy]
  obtain ⟨o, ho, ⟨rfl, hmem⟩ | ⟨rfl, hmem⟩⟩ : Ends (parseHierOrRelativePart u rel (x ++ y)) fun o =>
      Takes o x (x ∈ part (readHost u) rel u) := parseHierOrRelativePart_ends hx hy
  · rw [ho, ok_bind, hsome, and_iff_right hmem, ← List.append_assoc]
    exact queryAt_ends (by simp [hi])
  · rw [ho, ok_bind, hnone]
    exact .ok (iff_of_false Bool.false_ne_true fun h => hmem h.1)

/-! ## The reference -/

theorem scheme_eq : scheme = letter isAlpha * within isSchemeChar := by
  have h : letter isSchemeChar = letter isAlpha + letter isDigit + oneOf "+-." := by
    rw [oneOf, ← letter_or, ← letter_or]
    rfl
  rw [scheme, alpha_eq, digit, ← h, kstar_letter]

theorem isSchemeChar_of_isAlpha (hc : isAlpha c = true) : isSchemeChar c = true := by
  simp [isSchemeChar, hc]

theorem scheme_le : scheme ≤ within isSchemeChar := by
  rw [scheme_eq]
  exact (isSubmonoid_within _).mul (letter_le_within fun c => isSchemeChar_of_isAlpha) le_rfl

/-- A URI is cut at the colon after its scheme. -/
theorem append_mem_scheme_iff {L : Language UInt8} (hx : x ∈ scheme)
    (hy : Starts (fun c => !isSchemeChar c) y) :
    x ++ y ∈ scheme * (char ':' * L) ↔ ∃ t, y = chr ':' :: t ∧ t ∈ L := by
  have hfree : ∀ k ∈ scheme, Free (fun c => !isSchemeChar c) k := fun k hk =>
    free_of_le scheme_le (by simp) hk
  rw [append_mem_mul_iff (hfree x hx) hy hfree, and_iff_right hx, char, mem_letter_mul]
  · simp only [beq_iff_eq]
    constructor
    · rintro ⟨_, t, rfl, rfl, ht⟩
      exact ⟨t, rfl, ht⟩
    · rintro ⟨t, rfl, ht⟩
      exact ⟨_, t, rfl, rfl, ht⟩
  · intro m hm
    obtain ⟨b, t, rfl, hb, -⟩ := mem_letter_mul.1 hm
    obtain rfl : b = chr ':' := by simpa using hb
    rw [starts_cons]
    decide

theorem head_of_mem_scheme_mul {L : Language UInt8} (hw : w ∈ scheme * L) :
    ∃ c t, w = c :: t ∧ isAlpha c = true := by
  rw [scheme_eq, mul_assoc] at hw
  obtain ⟨c, t, rfl, hc, -⟩ := mem_letter_mul.1 hw
  exact ⟨c, t, rfl, hc⟩

theorem parseScheme_ends (s : Bytes) : ∃ x y, s = x ++ y ∧ parseScheme s = .ok x.length ∧
    ((x = [] ∧ ∀ L : Language UInt8, s ∉ scheme * L) ∨
      (x ∈ scheme ∧ Starts (fun c => !isSchemeChar c) y)) := by
  cases s with
  | nil =>
    refine ⟨[], [], rfl, rfl, .inl ⟨rfl, fun L h => ?_⟩⟩
    obtain ⟨c, t, hcons, -⟩ := head_of_mem_scheme_mul h
    cases hcons
  | cons c t =>
    rw [parseScheme, if_neg (by simp), byte_zero_cons, ok_bind]
    cases hc : isAlpha c with
    | false =>
      refine ⟨[], c :: t, rfl, rfl, .inl ⟨rfl, fun L h => ?_⟩⟩
      obtain ⟨b, r, hcons, hb⟩ := head_of_mem_scheme_mul h
      obtain rfl := (List.cons.inj hcons).1
      rw [hc] at hb
      cases hb
    | true =>
      obtain ⟨v, y, rfl, hv, hy⟩ := exists_run isSchemeChar t
      have hskip : skipWhile isSchemeChar (c :: (v ++ y)) 1 (c :: (v ++ y)).length
          = .ok (1 + v.length) := skipWhile_run_end (a := [c]) hv hy rfl rfl
      refine ⟨c :: v, y, rfl, ?_, .inr ⟨?_, hy⟩⟩
      · rw [if_neg (by simp), hskip, List.length_cons, Nat.add_comm]
      · rw [scheme_eq, cons_mem_letter_mul]
        exact ⟨hc, hv⟩

theorem tryParseFullUri_decides : Decides (tryParseFullUri u) (uriOver (readHost u) u) := by
  intro s
  obtain ⟨x, y, rfl, hscheme, ⟨rfl, hno⟩ | ⟨hx, hy⟩⟩ := parseScheme_ends s
  · rw [tryParseFullUri, hscheme, ok_bind]
    exact .ok (iff_of_false Bool.false_ne_true (hno _))
  · have hpos : x.length ≠ 0 := by
      rintro hzero
      obtain rfl := List.length_eq_zero_iff.1 hzero
      rw [scheme_eq] at hx
      exact nil_notMem_letter_mul hx
    rw [tryParseFullUri, hscheme, ok_bind, if_neg hpos, peek_suffix rfl rfl, ok_bind, uriOver,
      append_mem_scheme_iff hx hy, hierPart_eq]
    refine .ite (fun hcolon => .ok (iff_of_false Bool.false_ne_true ?_)) fun hcolon => ?_
    · rintro ⟨t, rfl, -⟩
      simp at hcolon
    obtain ⟨t, rfl⟩ := exists_cons_of_head (x := y) (c := chr ':') (by simpa using hcolon)
    have hassoc : x ++ chr ':' :: t = x ++ [chr ':'] ++ t := by simp
    have hiff : (∃ r, chr ':' :: t = chr ':' :: r ∧ r ∈ part (readHost u) false u * queryFragment u)
        ↔ t ∈ part (readHost u) false u * queryFragment u := by
      simp
    dsimp only
    rw [window_behind rfl rfl, ok_bind, hiff]
    refine partAndQuery_ends (a := x ++ [chr ':']) (i := x.length + 1) (by simp) rfl fun n => ?_
    rw [← hassoc]

theorem tryParseRelativeRef_decides :
    Decides (tryParseRelativeRef u) (relativeRefOver (readHost u) u) := by
  intro s
  rw [tryParseRelativeRef, relativeRefOver, relativePart_eq]
  refine partAndQuery_ends (a := []) (i := 0) rfl rfl fun n => ?_
  rw [Nat.zero_add]
  rfl

namespace Rfc3986

/-- `URI` where a scheme is required, else `URI-reference`. -/
def reference : Bool → Language UInt8 → Bool → Language UInt8
  | true, H, u => uriOver H u
  | false, H, u => uriReferenceOver H u

end Rfc3986

/-- **URI references.** `parse_uri_reference` decides the rules of the RFC over the hosts that
`parse_host` takes. -/
theorem parseUriReference_decides (requireScheme u : Bool) :
    Decides (parseUriReference requireScheme u) (reference requireScheme (readHost u) u) := by
  intro s
  have huri : [] ∉ uriOver (readHost u) u := fun h => by
    obtain ⟨c, t, hcons, -⟩ := head_of_mem_scheme_mul h
    cases hcons
  have hrelative : [] ∈ relativeRefOver (readHost u) u := by
    rw [relativeRefOver, relativePart_eq]
    exact nil_mem_mul.2 ⟨nil_mem_part, nil_mem_mul.2 ⟨.inl rfl, .inl rfl⟩⟩
  rw [parseUriReference]
  refine .ite (fun hzero => ?_) fun _ => ?_
  · obtain rfl : s = [] := List.length_eq_zero_iff.1 hzero
    cases requireScheme with
    | false => exact .ok (iff_of_true rfl (.inr hrelative))
    | true => exact .ok (iff_of_false Bool.false_ne_true huri)
  obtain ⟨b, hb, hiff⟩ := tryParseFullUri_decides (u := u) s
  obtain ⟨d, hd, hdiff⟩ := tryParseRelativeRef_decides (u := u) s
  rw [hb, ok_bind]
  cases requireScheme with
  | true =>
    change Ends _ fun e => e = true ↔ s ∈ uriOver (readHost u) u
    rw [← hiff]
    cases b <;> simp
  | false =>
    change Ends _ fun e => e = true ↔
      s ∈ uriOver (readHost u) u ∨ s ∈ relativeRefOver (readHost u) u
    rw [← hiff, ← hdiff, hd]
    cases b <;> simp

/-! ## The host of a reference

Two languages of hosts: what is a reference over the first one and over the second one has its host
in both.
-/

section Hosts

variable (hH : H ≤ host u) (hK : K ≤ host u)

include hH hK

theorem hostPort_meet (hw : w ∈ hostPort H) (hw' : w ∈ hostPort K) : ∃ h, h ∈ H ∧ h ∈ K := by
  obtain ⟨h, hh, m, hm, rfl⟩ := hw
  refine ⟨h, hh, ?_⟩
  cases hbracket : h.head?.any (· == chr '[') with
  | true =>
    obtain ⟨t, rfl⟩ := exists_cons_of_head hbracket
    obtain ⟨b, rfl, hb⟩ := mem_host_bracket (hH hh)
    have hassoc : chr '[' :: (b ++ [chr ']']) ++ m = chr '[' :: (b ++ chr ']' :: m) := by simp
    change chr '[' :: (b ++ [chr ']']) ++ m ∈ hostPort K at hw'
    rw [hassoc] at hw'
    exact ((bracket_mem_hostPort_iff hK hb).1 hw').1
  | false =>
    refine ((append_mem_hostPort_iff hK (free_host (hH hh) hbracket) (starts_portPart m hm) ?_).1
      hw').1
    cases h with
    | nil =>
      cases m with
      | nil => rfl
      | cons c m =>
        obtain rfl : c = chr ':' := by simpa using starts_portPart _ hm
        rfl
    | cons c h => exact hbracket

theorem authority_meet (hw : w ∈ authority H u) (hw' : w ∈ authority K u) :
    ∃ h, h ∈ H ∧ h ∈ K := by
  obtain ⟨x, y, rfl, hx, hy⟩ := exists_split (· == chr '@') w
  cases y with
  | nil =>
    rw [List.append_nil, mem_authority_iff hx] at hw hw'
    exact hostPort_meet hH hK hw hw'
  | cons c y =>
    obtain rfl : c = chr '@' := by simpa using hy
    exact hostPort_meet hH hK ((append_mem_authority_iff hH hx).1 hw).2
      ((append_mem_authority_iff hK hx).1 hw').2

theorem netPath_meet (hw : w ∈ netPath H u * queryFragment u)
    (hw' : w ∈ part K rel u * queryFragment u) : ∃ h, h ∈ H ∧ h ∈ K := by
  have hpart : netPath H u ≤ part H rel u := fun v hv => .inl hv
  have hmul : w ∈ part H rel u * queryFragment u := mul_le_mul_left hpart _ hw
  obtain ⟨x, y, rfl, hx, hy⟩ := exists_split isPathEnd w
  have hnet : x ∈ netPath H u := ((append_mem_mul_iff hx hy (fun k hk => free_of_le (part_le hH)
    (pathEnd_of_class (by decide) (by decide)) (hpart hk)) starts_queryFragment).1 hw).1
  have hx' : x ∈ part K rel u := ((append_mem_part_mul_iff hK hx hy).1 hw').1
  obtain ⟨a, t, rfl, ha, ht⟩ := mem_letter_mul.1 hnet
  obtain ⟨b, t, rfl, hb, ht⟩ := mem_letter_mul.1 ht
  obtain rfl : a = chr '/' := by simpa using ha
  obtain rfl : b = chr '/' := by simpa using hb
  obtain ⟨k, m, rfl, hk, hm⟩ := exists_split (· == chr '/') t
  have hx : chr '/' :: chr '/' :: (k ++ m) ∈ part H rel u := .inl hnet
  exact authority_meet hH hK ((slashes_mem_part_iff hH hk hm).1 hx).1
    ((slashes_mem_part_iff hK hk hm).1 hx').1

end Hosts

/-- A byte that ends the first segment of a relative reference. -/
def isSegmentEnd (c : UInt8) : Bool := isPathEnd c || c == chr '/'

theorem exists_firstSegment (hw : c :: t ∈ relativeRefOver K u)
    (hc : isSegmentEnd c = false) :
    ∃ x y, c :: t = x ++ y ∧ x ∈ segmentNzNc u ∧ Starts isSegmentEnd y := by
  obtain ⟨hend, hslash⟩ := Bool.or_eq_false_iff.1 hc
  have hslash : c ≠ chr '/' := by simpa using hslash
  rw [relativeRefOver, relativePart_eq] at hw
  obtain ⟨x, hx, y, hy, hxy⟩ := hw
  have hstart := starts_queryFragment y hy
  cases x with
  | nil =>
    obtain rfl : y = c :: t := hxy
    simp [hend] at hstart
  | cons a x =>
    obtain rfl : a = c := (List.cons.inj hxy).1
    have hplain := (mem_part_iff fun s hs => hslash (List.cons.inj hs).1).1 hx
    obtain ⟨seg, hseg, r, hr, hsplit⟩ := (cons_mem_plainPath_iff hslash).1 hplain
    have hsplit : seg ++ r = a :: x := hsplit
    refine ⟨seg, r ++ y, ?_, hseg, ?_⟩
    · rw [← List.append_assoc, hsplit]
      exact hxy.symm
    · cases r with
      | nil => exact fun b hb => Bool.or_eq_true_iff.2 (.inl (hstart b hb))
      | cons b r =>
        have hb : (b == chr '/') = true := by simpa using starts_kstar_letter_mul _ hr
        rw [List.cons_append, starts_cons, isSegmentEnd, hb, Bool.or_true]

/-- The first segment of a relative reference has no colon. -/
theorem notMem_relativeRefOver {L : Language UInt8} (hw : w ∈ scheme * (char ':' * L)) :
    w ∉ relativeRefOver K u := by
  intro hrel
  obtain ⟨c, t, rfl, hc⟩ := head_of_mem_scheme_mul hw
  have hclass : ∀ {q : UInt8 → Bool}, q (chr '?') = false → q (chr '#') = false →
      q (chr '/') = false → ∀ c, q c = true → isSegmentEnd c = false := by
    intro q hquestion hhash hslash c hc
    rw [isSegmentEnd, pathEnd_of_class hquestion hhash c hc, beq_chr_of_class hslash c hc,
      Bool.or_false]
  have hhead : isSegmentEnd c = false := hclass (by decide) (by decide) (by decide) c hc
  obtain ⟨x, y, hxy, hx, hy⟩ := exists_firstSegment hrel hhead
  obtain ⟨v, hv, _, ⟨_, ⟨b, rfl, hb⟩, l, -, rfl⟩, hvl⟩ := hw
  obtain rfl : b = chr ':' := by simpa using hb
  -- both the scheme and the first segment end at the first of the delimiters
  let d : UInt8 → Bool := fun c => isSegmentEnd c || c == chr ':'
  have hfree : ∀ {q : UInt8 → Bool}, q (chr '?') = false → q (chr '#') = false →
      q (chr '/') = false → q (chr ':') = false → ∀ c, q c = true → d c = false := by
    intro q hquestion hhash hslash hcolon c hc
    simp only [d, hclass hquestion hhash hslash c hc, beq_chr_of_class hcolon c hc, Bool.or_false]
  have hvd : Free d v :=
    free_of_le scheme_le (hfree (by decide) (by decide) (by decide) (by decide)) hv
  have hxd : Free d x :=
    free_of_le segmentNzNc_le (hfree (by decide) (by decide) (by decide) (by decide)) hx
  have hyd : Starts d y := fun c hc => by simp only [d, hy c hc, Bool.true_or]
  have heq : x ++ y = v ++ chr ':' :: l := hxy.symm.trans hvl.symm
  obtain ⟨-, hcolon⟩ := append_inj_of_free hxd hyd hvd (by simp [d]) heq
  rw [hcolon, starts_cons] at hy
  exact absurd hy (by decide)

namespace Rfc3986

/-- The hosts of the RFC that `parse_host` cuts after an IPv4 address. -/
def cutHost (u : Bool) : Language UInt8 := host u ⊓ ipv4Prefixed

/-- The references with an authority. -/
def netReference : Bool → Language UInt8 → Bool → Language UInt8
  | true, H, u => scheme * (char ':' * (netPath H u * queryFragment u))
  | false, H, u => scheme * (char ':' * (netPath H u * queryFragment u)) +
      netPath H u * queryFragment u

theorem netPath_add : netPath (H + K) u = netPath H u + netPath K u := by
  simp only [netPath, authority, hostPort, add_mul, mul_add]

theorem part_add : part (H + K) rel u = part H rel u + netPath K u := by
  rw [part, part, netPath_add]
  abel

theorem reference_add (requireScheme : Bool) : reference requireScheme (H + K) u =
    reference requireScheme H u + netReference requireScheme K u := by
  have huri : uriOver (H + K) u =
      uriOver H u + scheme * (char ':' * (netPath K u * queryFragment u)) := by
    rw [uriOver, uriOver, hierPart_eq, hierPart_eq, part_add, add_mul, mul_add, mul_add]
  cases requireScheme with
  | true => exact huri
  | false =>
    have hrel : relativeRefOver (H + K) u =
        relativeRefOver H u + netPath K u * queryFragment u := by
      rw [relativeRefOver, relativeRefOver, relativePart_eq, relativePart_eq, part_add, add_mul]
    change uriReferenceOver (H + K) u = uriReferenceOver H u + _
    rw [uriReferenceOver, uriReferenceOver, huri, hrel]
    simp only [netReference]
    abel

end Rfc3986

theorem reference_meet (hH : H ≤ host u) (hK : K ≤ host u) {requireScheme : Bool}
    (hw : w ∈ netReference requireScheme H u) (hw' : w ∈ reference requireScheme K u) :
    ∃ h, h ∈ H ∧ h ∈ K := by
  have huri : w ∈ scheme * (char ':' * (netPath H u * queryFragment u)) → w ∈ uriOver K u →
      ∃ h, h ∈ H ∧ h ∈ K := by
    rintro ⟨x, hx, _, ⟨m, ⟨c, rfl, hc⟩, t, ht, rfl⟩, rfl⟩ hw'
    obtain rfl : c = chr ':' := by simpa using hc
    obtain ⟨r, hr, hrK⟩ := (append_mem_scheme_iff (y := chr ':' :: t) hx
      (by rw [starts_cons]; decide)).1 hw'
    obtain rfl := (List.cons.inj hr).2
    rw [hierPart_eq] at hrK
    exact netPath_meet hH hK ht hrK
  have hslash : w ∈ netPath H u * queryFragment u → w ∉ uriOver K u := by
    rintro ⟨x, hx, t, -, rfl⟩ hw'
    obtain ⟨a, v, rfl, ha, -⟩ := mem_letter_mul.1 hx
    obtain rfl : a = chr '/' := by simpa using ha
    obtain ⟨c, r, hcons, hc⟩ := head_of_mem_scheme_mul hw'
    obtain rfl : chr '/' = c := (List.cons.inj hcons).1
    exact absurd hc (by decide)
  cases requireScheme with
  | true => exact huri hw hw'
  | false =>
    rcases hw with hw | hw <;> rcases hw' with hw' | hw'
    · exact huri hw hw'
    · exact absurd hw' (notMem_relativeRefOver hw)
    · exact absurd hw' (hslash hw)
    · rw [relativeRefOver, relativePart_eq] at hw'
      exact netPath_meet hH hK hw hw'

theorem host_eq : host u = readHost u + cutHost u := by
  ext w
  rw [Language.mem_add, mem_readHost, cutHost, Language.mem_inf, ← and_or_left,
    and_iff_left (em' _)]

/-- **Which references are missed.** A reference of the RFC is rejected exactly when it has an
authority whose host is a registered name that starts with an IPv4 address and goes on with neither
a digit nor a dot. -/
theorem parseUriReference_iff (requireScheme : Bool) (s : Bytes) :
    (parseUriReference requireScheme false s = .ok true ↔
      s ∈ if requireScheme then uri false else uriReference false) ↔
    s ∉ netReference requireScheme (cutHost false) false := by
  have hrfc : (if requireScheme then uri false else uriReference false) =
      reference requireScheme (readHost false) false +
        netReference requireScheme (cutHost false) false := by
    rw [← reference_add, ← host_eq]
    cases requireScheme with
    | false => rfl
    | true => rfl
  have hdisjoint : s ∈ netReference requireScheme (cutHost false) false →
      s ∉ reference requireScheme (readHost false) false := by
    intro hcut hread
    obtain ⟨h, hh, hh'⟩ := reference_meet inf_le_left readHost_le hcut hread
    exact hh'.2 hh.2
  rw [(parseUriReference_decides requireScheme false).eq_ok, hrfc, Language.mem_add]
  tauto

/-- A registered name after an IPv4 address is a host of the RFC. -/
theorem parseUriReference_cut : parseUriReference true false (str "http://1.2.3.4abc") = .ok false ∧
    str "http://1.2.3.4abc" ∈ uri false := by
  refine ⟨by decide, ?_⟩
  have hsplit : str "http://1.2.3.4abc" =
      str "http" ++ ([chr ':'] ++ ((chr '/' :: chr '/' :: ([] ++ (str "1.2.3.4abc" ++ []) ++ []))
        ++ ([] ++ []))) := by decide
  have hscheme : str "http" ∈ scheme := by
    have hbytes : ∀ c ∈ str "ttp", isSchemeChar c = true := List.all_eq_true.1 (by decide)
    rw [scheme_eq]
    exact ⟨[chr 'h'], singleton_mem_letter.2 (by decide), str "ttp", hbytes, by decide⟩
  have hname : str "1.2.3.4abc" ∈ regName false := by
    have hle : letter isRegName ≤ unit isRegName false := fun v hv => .inl (.inl hv)
    have hbytes : ∀ c ∈ str "1.2.3.4abc", isRegName c = true :=
      List.all_eq_true.1 (by decide)
    rw [regName_eq]
    refine kstar_mono hle ?_
    rw [kstar_letter]
    exact hbytes
  have hport : str "1.2.3.4abc" ++ [] ∈ hostPort (host false) := ⟨_, .inr hname, [], .inl rfl, rfl⟩
  have hauthority : [] ++ (str "1.2.3.4abc" ++ []) ∈ authority (host false) false :=
    ⟨[], .inl rfl, _, hport, rfl⟩
  have hnet : chr '/' :: chr '/' :: ([] ++ (str "1.2.3.4abc" ++ []) ++ []) ∈
      netPath (host false) false := by
    rw [netPath, cons_mem_char_mul, cons_mem_char_mul]
    exact ⟨rfl, rfl, _, hauthority, [], Language.nil_mem_kstar _, rfl⟩
  rw [hsplit, uri, uriOver, hierPart_eq]
  exact ⟨_, hscheme, _, ⟨_, singleton_mem_letter.2 (by decide), _,
    ⟨_, .inl hnet, _, ⟨[], .inl rfl, [], .inl rfl, rfl⟩, rfl⟩, rfl⟩, rfl⟩

end FastJsonSchema.Formats
