import FastJsonSchema.Formats.Ipv4
import Mathlib.Data.List.TakeWhile

/-!
# IPv6 addresses

`parse_ipv6` of `formats/utils/ip_parser.c` and the text forms of an IPv6 address, counted in
groups. What the loop of `parse_ipv6` takes from the start of a group on is `Groups`: the number of
groups, whether there is a `::`, and what comes last.
-/

namespace FastJsonSchema.Formats

open Ruby Scan Words

/-- `parse_ipv6_group` -/
def parseIpv6Group (s : Bytes) : Result ℕ := skipWhile isHex s 0 (min 4 s.length)

/-- The variables of `parse_ipv6`. -/
structure Ipv6State where
  pos : ℕ := 0
  groups : Int32 := 0
  seenCompression : Bool := false
  lastWasGroup : Bool := false

/-- `has_dot`: whether there is a dot before the next colon. -/
def hasDot (s : Bytes) (pos : ℕ) : Result Bool := do
  match ← find (fun c => c == chr '.' || c == chr ':') s pos s.length with
  | some k => .ok ((← byte s k) == chr '.')
  | none => .ok false

/-- The hex group of a round, and the colons after it. -/
def ipv6Group (s : Bytes) (st : Ipv6State) : Result (Scan.Step Ipv6State (Option Ipv6State)) := do
  let g ← consume parseIpv6Group s st.pos s.length
  if g = 0 then .ok (.done none) else
  let pos := st.pos + g
  let st := { st with pos, groups := st.groups + 1, lastWasGroup := true }
  if pos = s.length then .ok (.done (some st)) else
  if (← byte s pos) ≠ chr ':' then .ok (.done none) else
  if ← peek (· == chr ':') s (pos + 1) s.length then
    if st.seenCompression then .ok (.done none) else
    let st := { st with pos := pos + 2, seenCompression := true, lastWasGroup := false }
    if pos + 2 = s.length then .ok (.done (some st)) else .ok (.next st)
  else .ok (.next { st with pos := pos + 1, lastWasGroup := false })

/-- A round of the loop of `parse_ipv6`. It leaves the loop with nothing where the code returns
false. -/
def ipv6Round (s : Bytes) (st : Ipv6State) : Result (Scan.Step Ipv6State (Option Ipv6State)) := do
  if st.pos < s.length then
    if ← (if st.lastWasGroup then .ok false else hasDot s st.pos) then
      if ← parseIpv4 (← window s st.pos s.length) then
        .ok (.done (some
            { st with pos := s.length, groups := st.groups + 2, lastWasGroup := true }))
      else .ok (.done none)
    else ipv6Group s st
  else .ok (.done (some st))

/-- The checks after the loop of `parse_ipv6`. -/
def ipv6Verdict (s : Bytes) (st : Ipv6State) : Bool :=
  if st.pos ≠ s.length then false
  else if !st.lastWasGroup && !st.seenCompression then false
  else if st.seenCompression then !(7 < st.groups)
  else st.groups == 8

/-- `parse_ipv6` -/
def parseIpv6 (s : Bytes) : Result Bool := do
  let compression ←
    if ← peek (· == chr ':') s 0 s.length then peek (· == chr ':') s 1 s.length else .ok false
  if ← (if compression then .ok false else peek (· == chr ':') s 0 s.length) then .ok false else
  let st : Ipv6State := if compression then { pos := 2, seenCompression := true } else {}
  match ← loop (ipv6Round s) (s.length + 1) st with
  | none => .ok false
  | some st => .ok (ipv6Verdict s st)

example : parseIpv6 (str "::1") = .ok true := by decide

/-! ## The text forms -/

/-- `HEXDIG` -/
def hexdig : Language UInt8 := letter isHex

/-- `h16`, a group: 1 to 4 hexadecimal digits. -/
def h16 : Language UInt8 := hexdig + hexdig ^ 2 + hexdig ^ 3 + hexdig ^ 4

/-- `::` -/
def doubleColon : Language UInt8 := char ':' * char ':'

/-- `n` groups with colons between them. -/
def hexGroups : ℕ → Language UInt8
  | 0 => 1
  | 1 => h16
  | n + 2 => h16 * (char ':' * hexGroups (n + 1))

/-- `n` groups with colons between them, where an IPv4 address at the end counts as two. -/
def tailGroups : ℕ → Language UInt8
  | 0 => 1
  | 1 => h16
  | 2 => h16 * (char ':' * h16) + ipv4Address
  | n + 3 => h16 * (char ':' * tailGroups (n + 2))

/-- `m` groups, `::` and groups that count as `n`. -/
def compressed (m n : ℕ) : Language UInt8 := hexGroups m * (doubleColon * tailGroups n)

/-- An IPv6 address: eight groups, or at most seven with a `::` among them. -/
def ipv6Address : Language UInt8 :=
  {w | w ∈ tailGroups 8 ∨ ∃ m n, m + n ≤ 7 ∧ w ∈ compressed m n}

/-- `m` groups, `::`, `n` groups, at least one, and a colon. -/
def dangling (m n : ℕ) : Language UInt8 :=
  {w | 1 ≤ n ∧ w ∈ hexGroups m * (doubleColon * (hexGroups n * char ':'))}

/-! ## What the loop takes -/

/-- What the groups end with. -/
inductive End
  | group
  | compression
  | colon
  deriving DecidableEq

/-- The rest of an address from the start of a group on, after a `::` or before one: what it counts
as, whether there is a `::` now, and what it ends with. -/
inductive Groups : Bool → Bytes → ℕ → Bool → End → Prop
  | ipv4 {seen y} (h : y ∈ ipv4Address) : Groups seen y 2 seen .group
  | group {seen g} (h : g ∈ h16) : Groups seen g 1 seen .group
  | colon {seen g} (h : g ∈ h16) : Groups seen (g ++ [chr ':']) 1 seen .colon
  | next {seen g y n c e} (h : g ∈ h16) (hy : Groups seen y n c e) :
      Groups seen (g ++ chr ':' :: y) (n + 1) c e
  | compression {g} (h : g ∈ h16) : Groups false (g ++ [chr ':', chr ':']) 1 true .compression
  | compressed {g y n c e} (h : g ∈ h16) (hy : Groups true y n c e) :
      Groups false (g ++ chr ':' :: chr ':' :: y) (n + 1) true e

variable {c seen : Bool} {e : End} {g s t x y z : Bytes} {k m n : ℕ} {count : Int32}

theorem mem_hexdig_pow : g ∈ hexdig ^ n ↔ g.length = n ∧ ∀ a ∈ g, isHex a = true := by
  induction n generalizing g with
  | zero =>
    rw [pow_zero, Language.mem_one]
    constructor
    · rintro rfl
      simp
    · rintro ⟨h, -⟩
      exact List.length_eq_zero_iff.1 h
  | succ n ih =>
    rw [pow_succ', hexdig, mem_letter_mul]
    constructor
    · rintro ⟨a, t, rfl, ha, ht⟩
      obtain ⟨hlen, ht⟩ := ih.1 ht
      exact ⟨by simp [hlen], List.forall_mem_cons.2 ⟨ha, ht⟩⟩
    · rintro ⟨hlen, h⟩
      obtain ⟨a, t, rfl⟩ := List.exists_cons_of_length_eq_add_one hlen
      obtain ⟨ha, ht⟩ := List.forall_mem_cons.1 h
      exact ⟨a, t, rfl, ha, ih.2 ⟨by simpa using hlen, ht⟩⟩

theorem mem_h16_iff : g ∈ h16 ↔ g ≠ [] ∧ g.length ≤ 4 ∧ ∀ a ∈ g, isHex a = true := by
  have hone : hexdig = hexdig ^ 1 := (pow_one _).symm
  rw [h16, hone, ← pow_mul, ← pow_mul, ← pow_mul]
  simp only [Language.mem_add, mem_hexdig_pow, ← List.length_pos_iff]
  constructor
  · rintro (((⟨h, ha⟩ | ⟨h, ha⟩) | ⟨h, ha⟩) | ⟨h, ha⟩) <;> exact ⟨by omega, by omega, ha⟩
  · rintro ⟨hpos, hle, ha⟩
    have : g.length = 1 ∨ g.length = 2 ∨ g.length = 3 ∨ g.length = 4 := by omega
    tauto

/-- A class that stops a group: the colon and the dot. -/
def isStop (a : UInt8) : Bool := a == chr '.' || a == chr ':'

theorem not_isStop_of_isHex : ∀ a, isHex a = true → isStop a = false :=
  forall_byte (by decide +kernel)

theorem not_isStop_of_isDigit (a : UInt8) (ha : isDigit a = true) : isStop a = false :=
  not_isStop_of_isHex a (by rw [isHex, ha, Bool.true_or, Bool.true_or])

theorem free_h16 (h : g ∈ h16) : Free isStop g :=
  fun a ha => not_isStop_of_isHex a ((mem_h16_iff.1 h).2.2 a ha)

theorem hasDot_append (hg : Free isStop g) (hy : Starts isStop y) :
    hasDot (x ++ (g ++ y)) x.length = .ok (y.head?.any (· == chr '.')) := by
  have hfind := find_append (p := isStop) (x := x) (y := g ++ y) (z := []) rfl rfl
  rw [List.append_nil, ← List.length_append] at hfind
  change (find isStop _ _ _ >>= _) = _
  rw [hfind, ok_bind]
  cases y with
  | nil => simp [findIdx?_of_free hg]
  | cons a y =>
    have hbyte : byte (x ++ (g ++ a :: y)) (x.length + g.length) = .ok a := by
      rw [← List.append_assoc]
      exact byte_append (by simp)
    rw [findIdx?_append_cons hg (starts_cons.1 hy)]
    simp [hbyte]

/-- The digits of a group, and the rest. -/
theorem exists_group (y : Bytes) : ∃ g z, y = g ++ z ∧ g = (y.take 4).takeWhile isHex ∧
    (g = [] ∨ g ∈ h16) := by
  refine ⟨(y.take 4).takeWhile isHex,
    (y.take 4).dropWhile isHex ++ y.drop 4, ?_, rfl, ?_⟩
  · rw [← List.append_assoc, List.takeWhile_append_dropWhile, List.take_append_drop]
  · by_cases h : (y.take 4).takeWhile isHex = []
    · exact .inl h
    · refine .inr (mem_h16_iff.2 ⟨h, ?_, fun a ha => List.mem_takeWhile_imp ha⟩)
      exact (List.takeWhile_sublist _).length_le.trans (by simp)

theorem parseIpv6Group_eq (y : Bytes) :
    parseIpv6Group y = .ok ((y.take 4).takeWhile isHex).length := by
  have h := skipWhile_append (p := isHex) (x := []) (y := y.take 4) (z := y.drop 4)
    (i := 0) (j := min 4 y.length) rfl (by simp)
  rw [List.nil_append, List.take_append_drop, Nat.zero_add] at h
  exact h

theorem takeWhile_group (hg : g ∈ h16) (hy : y.head?.any isHex = false) :
    ((g ++ y).take 4).takeWhile isHex = g := by
  obtain ⟨-, hlen, hhex⟩ := mem_h16_iff.1 hg
  rw [List.take_append, List.take_of_length_le hlen, List.takeWhile_append_of_pos hhex]
  cases y with
  | nil => simp
  | cons a y =>
    cases h : 4 - g.length with
    | zero => simp
    | succ n => simp_all

/-- The state at the start of a group. -/
def atGroup (pos : ℕ) (count : Int32) (seen : Bool) : Ipv6State :=
  { pos, groups := count, seenCompression := seen, lastWasGroup := false }

/-- The state after the loop. -/
def afterGroups (pos : ℕ) (count : Int32) (seen : Bool) (e : End) : Ipv6State :=
  { pos, groups := count, seenCompression := seen, lastWasGroup := e == .group }

section Rounds

variable (hg : ((g ++ y).take 4).takeWhile isHex = g) (hne : g ≠ [])

include hg

theorem consume_group (hpos : k = x.length) :
    consume parseIpv6Group (x ++ (g ++ y)) k (x ++ (g ++ y)).length = .ok g.length := by
  refine consume_eq (window_suffix hpos rfl) ?_ (by simp)
  rw [parseIpv6Group_eq, hg]

include hne

theorem ipv6Group_nil (hy : y = []) :
    ipv6Group (x ++ (g ++ y)) (atGroup x.length count seen)
      = .ok (.done (some (afterGroups (x ++ (g ++ y)).length (count + 1) seen .group))) := by
  have hpos : g.length ≠ 0 := fun h => hne (List.length_eq_zero_iff.1 h)
  simp only [ipv6Group, atGroup, consume_group hg rfl, ok_bind, if_neg hpos]
  subst hy
  simp [afterGroups]

theorem ipv6Group_cons {a : UInt8} {t : Bytes} (hy : y = a :: t) :
    ipv6Group (x ++ (g ++ y)) (atGroup x.length count seen)
      = if a ≠ chr ':' then .ok (.done none)
        else if t.head?.any (· == chr ':') then
          if seen then .ok (.done none)
          else if t.length = 1 then
            .ok (.done (some (afterGroups (x ++ (g ++ y)).length (count + 1) true .compression)))
          else .ok (.next (atGroup (x.length + g.length + 2) (count + 1) true))
        else .ok (.next (atGroup (x.length + g.length + 1) (count + 1) seen)) := by
  have hpos : g.length ≠ 0 := fun h => hne (List.length_eq_zero_iff.1 h)
  have hbyte : byte (x ++ (g ++ y)) (x.length + g.length) = .ok a := by
    rw [← List.append_assoc, hy]
    exact byte_append (by simp)
  have hpeek : peek (· == chr ':') (x ++ (g ++ y)) (x.length + g.length + 1)
      (x ++ (g ++ y)).length = .ok (t.head?.any (· == chr ':')) := by
    rw [← List.append_assoc, hy]
    exact peek_behind (by simp) rfl
  have hlen : (x ++ (g ++ y)).length = x.length + g.length + 1 + t.length := by
    simp [hy]
    omega
  have hend : x.length + g.length ≠ (x ++ (g ++ y)).length := by omega
  simp only [ipv6Group, atGroup, consume_group hg rfl, ok_bind, if_neg hpos, hbyte, hpeek,
    if_neg hend]
  refine if_congr Iff.rfl rfl (if_congr Iff.rfl (if_congr Iff.rfl rfl ?_) rfl)
  by_cases h : t.length = 1
  · have hpos₂ : x.length + g.length + 2 = (x ++ (g ++ y)).length := by omega
    simp only [hpos₂, if_true, if_pos h]
    rfl
  · have hpos₂ : x.length + g.length + 2 ≠ (x ++ (g ++ y)).length := by omega
    simp only [hpos₂, if_false, if_neg h]

end Rounds

theorem ipv6Round_eq {u v : Bytes} (hne : u ++ v ≠ []) (hu : Free isStop u)
    (hv : Starts isStop v) : ipv6Round (x ++ (u ++ v)) (atGroup x.length count seen)
      = if v.head?.any (· == chr '.') then do
          if ← parseIpv4 (u ++ v) then
            .ok (.done (some (afterGroups (x ++ (u ++ v)).length (count + 2) seen .group)))
          else .ok (.done none)
        else ipv6Group (x ++ (u ++ v)) (atGroup x.length count seen) := by
  have hlt : x.length < (x ++ (u ++ v)).length := by
    rw [List.length_append]
    exact Nat.lt_add_of_pos_right (List.length_pos_iff.2 hne)
  simp only [ipv6Round, atGroup, if_pos hlt, Bool.false_eq_true, if_false, hasDot_append hu hv,
    ok_bind, window_suffix rfl rfl]
  rfl

theorem ipv6Round_end : ipv6Round x (atGroup x.length count seen)
    = .ok (.done (some (atGroup x.length count seen))) := by
  simp [ipv6Round, atGroup]

theorem ipv4_split (h : y ∈ ipv4Address) : ∃ u v, y = u ++ chr '.' :: v ∧ u ∈ decOctet := by
  obtain ⟨u, hu, v, hv, rfl⟩ := h
  obtain ⟨a, t, rfl, ha, -⟩ := mem_letter_mul.1 hv
  exact ⟨u, t, by simpa using ha, hu⟩

theorem free_decOctet (h : x ∈ decOctet) : Free isStop x :=
  fun a ha => not_isStop_of_isDigit a ((mem_decOctet_iff.1 h).1 a ha)

/-- What the loop takes starts with a digit. -/
theorem Groups.head (h : Groups seen y n c e) : y ≠ [] ∧ y.head?.any (· == chr ':') = false := by
  have hh16 : ∀ {g z : Bytes}, g ∈ h16 → g ++ z ≠ [] ∧
      (g ++ z).head?.any (· == chr ':') = false := by
    intro g z hg
    obtain ⟨hne, -, hhex⟩ := mem_h16_iff.1 hg
    obtain ⟨a, g, rfl⟩ := List.exists_cons_of_ne_nil hne
    refine ⟨by simp, ?_⟩
    have hstop := not_isStop_of_isHex a (hhex a List.mem_cons_self)
    simpa [isStop] using (Bool.or_eq_false_iff.1 hstop).2
  cases h with
  | ipv4 h =>
    obtain ⟨u, v, rfl, hu⟩ := ipv4_split h
    obtain ⟨-, hne, -⟩ := mem_decOctet_iff.1 hu
    obtain ⟨a, u, rfl⟩ := List.exists_cons_of_ne_nil hne
    have hstop := free_decOctet hu a List.mem_cons_self
    exact ⟨by simp, by simpa [isStop] using (Bool.or_eq_false_iff.1 hstop).2⟩
  | group h => simpa using hh16 (z := []) h
  | colon h => exact hh16 h
  | next h _ => exact hh16 h
  | compression h => exact hh16 h
  | compressed h _ => exact hh16 h

theorem isHex_head {k : Char} (h : isHex (chr k) = false) :
    (chr k :: t).head?.any isHex = false := by
  simpa using h

theorem ipv6Round_nil (hg : g ∈ h16) : ipv6Round (x ++ g) (atGroup x.length count seen)
    = .ok (.done (some (afterGroups (x ++ g).length (count + 1) seen .group))) := by
  have hne := (mem_h16_iff.1 hg).1
  have hround : ipv6Round (x ++ (g ++ [])) (atGroup x.length count seen) = _ :=
    ipv6Round_eq (by simpa using hne) (free_h16 hg) starts_nil
  have hgroup : ipv6Group (x ++ (g ++ [])) (atGroup x.length count seen) = _ :=
    ipv6Group_nil (takeWhile_group hg rfl) hne rfl
  simp only [List.append_nil] at hround hgroup
  rw [hround, if_neg (by simp), hgroup]

theorem ipv6Round_colon (hg : g ∈ h16) :
    ipv6Round (x ++ (g ++ chr ':' :: t)) (atGroup x.length count seen)
      = if t.head?.any (· == chr ':') then
          if seen then .ok (.done none)
          else if t.length = 1 then
            .ok (.done (some (afterGroups (x ++ (g ++ chr ':' :: t)).length (count + 1) true
              .compression)))
          else .ok (.next (atGroup (x.length + g.length + 2) (count + 1) true))
        else .ok (.next (atGroup (x.length + g.length + 1) (count + 1) seen)) := by
  rw [ipv6Round_eq (by simp) (free_h16 hg) (by simp [isStop]), if_neg (by simp; decide),
    ipv6Group_cons (takeWhile_group hg (isHex_head (by decide))) (mem_h16_iff.1 hg).1 rfl,
    if_neg (by simp)]

theorem add_ofNat (count : Int32) (n : ℕ) :
    count + 1 + Int32.ofNat n = count + Int32.ofNat (n + 1) := by
  rw [Int32.ofNat_add, Int32.add_comm (Int32.ofNat n), ← Int32.add_assoc]
  rfl

theorem Groups.compression_of_seen (h : Groups seen y n c e) : seen = true → c = true := by
  induction h with
  | next _ _ ih => exact ih
  | compression => exact fun _ => rfl
  | compressed => exact fun _ => rfl
  | _ => exact id

/-- **The loop takes the groups.** -/
theorem Groups.loop_eq (h : Groups seen y n c e) : ∀ {s x pos count fuel}, s = x ++ y →
    pos = x.length → y.length < fuel → loop (ipv6Round s) fuel (atGroup pos count seen)
      = .ok (some (afterGroups s.length (count + Int32.ofNat n) c e)) := by
  induction h with
  | ipv4 h =>
    rintro _ x _ count fuel rfl rfl hfuel
    obtain ⟨fuel, rfl⟩ := Nat.exists_eq_succ_of_ne_zero (Nat.ne_zero_of_lt hfuel)
    have hok := parseIpv4_decides.eq_ok.2 h
    obtain ⟨u, v, rfl, hu⟩ := ipv4_split h
    rw [loop, ipv6Round_eq (by simp) (free_decOctet hu) (by simp [isStop])]
    simp [hok]
  | group h =>
    rintro _ x _ count fuel rfl rfl hfuel
    obtain ⟨fuel, rfl⟩ := Nat.exists_eq_succ_of_ne_zero (Nat.ne_zero_of_lt hfuel)
    rw [loop, ipv6Round_nil h]
    rfl
  | @colon seen g h =>
    rintro _ x _ count fuel rfl rfl hfuel
    obtain ⟨fuel, rfl⟩ : ∃ k, fuel = k + 2 := ⟨fuel - 2, by simp at hfuel; omega⟩
    have hlen : x.length + g.length + 1 = (x ++ (g ++ [chr ':'])).length := by simp; omega
    rw [loop, ipv6Round_colon h, if_neg (by simp), ok_bind, hlen]
    simp only
    rw [loop, ipv6Round_end]
    rfl
  | @next seen g y n c e h hy ih =>
    rintro _ x _ count fuel rfl rfl hfuel
    obtain ⟨fuel, rfl⟩ := Nat.exists_eq_succ_of_ne_zero (Nat.ne_zero_of_lt hfuel)
    rw [loop, ipv6Round_colon h, if_neg (by simp [hy.head.2]), ok_bind, ← add_ofNat]
    exact ih (x := x ++ g ++ [chr ':']) (by simp) (by simp; omega) (by simp at hfuel; omega)
  | @compression g h =>
    rintro _ x _ count fuel rfl rfl hfuel
    obtain ⟨fuel, rfl⟩ := Nat.exists_eq_succ_of_ne_zero (Nat.ne_zero_of_lt hfuel)
    rw [loop, ipv6Round_colon h, if_pos (by simp), if_neg (by simp), if_pos (by simp)]
    rfl
  | @compressed g y n c e h hy ih =>
    rintro _ x _ count fuel rfl rfl hfuel
    obtain ⟨fuel, rfl⟩ := Nat.exists_eq_succ_of_ne_zero (Nat.ne_zero_of_lt hfuel)
    rw [loop, ipv6Round_colon h, if_pos (by simp), if_neg (by simp), if_neg (by simp [hy.head.1]),
      ok_bind, ← add_ofNat]
    obtain rfl := hy.compression_of_seen rfl
    exact ih (x := x ++ g ++ [chr ':', chr ':']) (by simp) (by simp; omega)
      (by simp at hfuel; omega)

/-- The loop ends, and what it takes are groups. -/
theorem ipv6Round_ends (fuel : ℕ) : ∀ {s x y pos seen count}, s = x ++ y → pos = x.length →
    y ≠ [] → y.length < fuel → Ends (loop (ipv6Round s) fuel (atGroup pos count seen)) fun r =>
      ∀ st, r = some st → ∃ n c e, Groups seen y n c e := by
  induction fuel with
  | zero => intro _ _ _ _ _ _ _ _ _ h; omega
  | succ fuel ih =>
    rintro _ x y _ seen count rfl rfl hne hfuel
    have hnone : ∀ P : Ipv6State → Prop, ∀ st, (none : Option Ipv6State) = some st → P st :=
      fun _ _ h => nomatch h
    obtain ⟨u, v, rfl, hu, hv⟩ := exists_split isStop y
    rw [loop, ipv6Round_eq hne hu hv]
    by_cases hdot : v.head?.any (· == chr '.')
    · rw [if_pos hdot]
      obtain ⟨b, hb, hiff⟩ := parseIpv4_decides (u ++ v)
      rw [hb, ok_bind]
      cases b with
      | false => exact .ok (hnone _)
      | true => exact .ok fun _ _ => ⟨2, seen, .group, .ipv4 (hiff.1 rfl)⟩
    · rw [if_neg hdot]
      obtain ⟨g, z, hy, hg, hcase⟩ := exists_group (u ++ v)
      rw [hy] at hfuel hne hg ⊢
      rcases hcase with rfl | hh16
      · have hzero := consume_group (x := x) hg.symm rfl
        simp only [ipv6Group, atGroup, hzero]
        exact .ok (hnone _)
      have hgne := (mem_h16_iff.1 hh16).1
      cases z with
      | nil =>
        rw [ipv6Group_nil hg.symm hgne rfl]
        exact .ok fun _ _ => ⟨1, seen, .group, by simpa using .group hh16⟩
      | cons a t =>
        have hlen : 0 < g.length := List.length_pos_iff.2 hgne
        simp only [List.length_append, List.length_cons] at hfuel
        rw [ipv6Group_cons hg.symm hgne rfl]
        by_cases ha : a = chr ':'
        · subst ha
          rw [if_neg (by simp)]
          cases t with
          | nil =>
            rw [if_neg (by simp), ok_bind]
            have hpos : x.length + g.length + 1 = (x ++ (g ++ [chr ':'])).length := by simp; omega
            obtain ⟨fuel, rfl⟩ :=
              Nat.exists_eq_succ_of_ne_zero (n := fuel) (by simp at hfuel; omega)
            rw [hpos]
            simp only
            rw [loop, ipv6Round_end]
            exact .ok fun _ _ => ⟨1, seen, .colon, .colon hh16⟩
          | cons b t =>
            by_cases hb : b = chr ':'
            · subst hb
              rw [if_pos (by simp)]
              cases seen with
              | true => exact .ok (hnone _)
              | false =>
                rw [if_neg (by simp)]
                by_cases ht : (chr ':' :: t).length = 1
                · rw [if_pos ht]
                  obtain rfl : t = [] := by simpa using ht
                  exact .ok fun _ _ => ⟨1, true, .compression, .compression hh16⟩
                · rw [if_neg ht, ok_bind]
                  refine (ih (x := x ++ g ++ [chr ':', chr ':']) (y := t) (by simp)
                    (by simp; omega) (by simpa using ht) (by simp at hfuel; omega)).mono ?_
                  intro r hr st hst
                  obtain ⟨n, c, e, h⟩ := hr st hst
                  exact ⟨n + 1, true, e, .compressed hh16 h⟩
            · rw [if_neg (by simpa using hb), ok_bind]
              refine (ih (x := x ++ g ++ [chr ':']) (y := b :: t) (by simp) (by simp; omega)
                (by simp) (by simp at hfuel ⊢; omega)).mono ?_
              intro r hr st hst
              obtain ⟨n, c, e, h⟩ := hr st hst
              exact ⟨n + 1, c, e, .next hh16 h⟩
        · rw [if_pos ha]
          exact .ok (hnone _)

end FastJsonSchema.Formats
