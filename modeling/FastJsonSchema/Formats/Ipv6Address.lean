import FastJsonSchema.Formats.Ipv6

/-!
# What `parse_ipv6` accepts

An address from its start (`Address`) decides `parse_ipv6`, and the addresses are those of the text
forms, besides two kinds (`parseIpv6_iff`): a colon may follow the last group after a `::`
(`trailingColon`), and the number of groups may overflow the `int` that counts them (`wrapped`).
-/

namespace FastJsonSchema.Formats

open Ruby Scan Words

variable {c seen : Bool} {e : End} {g s t x y z : Bytes} {k m n : ℕ}

/-! ## From the start of the address -/

/-- A whole address, with what it counts as, whether it has a `::` and what it ends with. -/
inductive Address : Bytes → ℕ → Bool → End → Prop
  | compression : Address [chr ':', chr ':'] 0 true .compression
  | leading {y : Bytes} {n : ℕ} {c : Bool} {e : End} (h : Groups true y n c e) :
      Address (chr ':' :: chr ':' :: y) n c e
  | groups {y : Bytes} {n : ℕ} {c : Bool} {e : End} (h : Groups false y n c e) : Address y n c e

/-- The answer for what has been counted. -/
def Accepted (n : ℕ) : Bool → End → Prop
  | true, _ => Int32.ofNat n ≤ 7
  | false, e => e = .group ∧ Int32.ofNat n = 8

theorem peek_colon_zero (s : Bytes) :
    peek (· == chr ':') s 0 s.length = .ok (s.head?.any (· == chr ':')) :=
  peek_suffix (x := []) rfl rfl

theorem parseIpv6_of_head (h : s.head?.any (· == chr ':') = false) : parseIpv6 s = (do
    match ← loop (ipv6Round s) (s.length + 1) (atGroup 0 0 false) with
    | none => .ok false
    | some st => .ok (ipv6Verdict s st)) := by
  simp only [parseIpv6, peek_colon_zero, h, ok_bind, Bool.false_eq_true, if_false]
  rfl

theorem parseIpv6_of_colons (y : Bytes) : parseIpv6 (chr ':' :: chr ':' :: y) = (do
    let s := chr ':' :: chr ':' :: y
    match ← loop (ipv6Round s) (s.length + 1) (atGroup 2 0 true) with
    | none => .ok false
    | some st => .ok (ipv6Verdict s st)) := by
  have hpeek : peek (· == chr ':') (chr ':' :: chr ':' :: y) 1 (chr ':' :: chr ':' :: y).length
      = .ok true := by
    simpa using peek_suffix (p := (· == chr ':')) (x := [chr ':']) (y := chr ':' :: y) (i := 1)
      rfl rfl
  simp only [parseIpv6, peek_colon_zero, hpeek, ok_bind]
  rfl

theorem ipv6Verdict_iff : ipv6Verdict s (afterGroups s.length (Int32.ofNat n) c e) = true ↔
    Accepted n c e := by
  cases c with
  | false => simp [ipv6Verdict, afterGroups, Accepted]
  | true =>
    have hverdict : ipv6Verdict s (afterGroups s.length (Int32.ofNat n) true e)
        = !decide (7 < Int32.ofNat n) := by
      simp [ipv6Verdict, afterGroups]
      rfl
    rw [hverdict, Accepted, Bool.not_eq_true', decide_eq_false_iff_not, Int32.not_lt]

theorem Address.parseIpv6_eq (h : Address s n c e) :
    parseIpv6 s = .ok (ipv6Verdict s (afterGroups s.length (Int32.ofNat n) c e)) := by
  rw [← Int32.zero_add (Int32.ofNat n)]
  cases h with
  | compression => rfl
  | @leading y n c e h =>
    have hloop : loop (ipv6Round (chr ':' :: chr ':' :: y)) ((chr ':' :: chr ':' :: y).length + 1)
        (atGroup 2 0 true) = _ := h.loop_eq (x := [chr ':', chr ':']) rfl rfl (by simp; omega)
    rw [parseIpv6_of_colons]
    exact congrArg (· >>= _) hloop
  | groups h =>
    have hloop : loop (ipv6Round s) (s.length + 1) (atGroup 0 0 false) = _ :=
      h.loop_eq (x := []) rfl rfl (Nat.lt_succ_self s.length)
    rw [parseIpv6_of_head h.head.2]
    exact congrArg (· >>= _) hloop

theorem parseIpv6_ends (s : Bytes) :
    Ends (parseIpv6 s) fun b => b = true → ∃ n c e, Address s n c e := by
  cases h : s.head?.any (· == chr ':') with
  | false =>
    rw [parseIpv6_of_head h]
    by_cases hne : s = []
    · subst hne
      exact .ok fun h => absurd h (by decide)
    · refine (ipv6Round_ends _ (x := []) rfl rfl hne (by omega)).bind fun r hr => ?_
      cases r with
      | none => exact .ok (by simp)
      | some st =>
        obtain ⟨n, c, e, h⟩ := hr st rfl
        exact .ok fun _ => ⟨n, c, e, .groups h⟩
  | true =>
    match s with
    | [] => simp at h
    | [a] =>
      obtain rfl : a = chr ':' := by simpa using h
      exact .ok fun h => absurd h (by decide)
    | a :: b :: y =>
      obtain rfl : a = chr ':' := by simpa using h
      by_cases hb : b = chr ':'
      · subst hb
        rw [parseIpv6_of_colons]
        by_cases hne : y = []
        · subst hne
          exact ⟨_, rfl, fun _ => ⟨0, true, .compression, .compression⟩⟩
        · refine (ipv6Round_ends _ (x := [chr ':', chr ':']) rfl rfl hne (by simp; omega)).bind
            fun r hr => ?_
          cases r with
          | none => exact .ok (by simp)
          | some st =>
            obtain ⟨n, c, e, h⟩ := hr st rfl
            exact .ok fun _ => ⟨n, c, e, .leading h⟩
      · have hpeek := peek_suffix (p := (· == chr ':')) (x := [chr ':']) (y := b :: y) (i := 1)
          (j := (chr ':' :: b :: y).length) rfl rfl
        have hcolon : (b == chr ':') = false := by simpa using hb
        simp only [List.singleton_append, List.head?_cons, Option.any_some, hcolon] at hpeek
        simp only [parseIpv6, peek_colon_zero, hpeek, ok_bind]
        exact .ok (by simp)

theorem parseIpv6_eq_true_iff :
    parseIpv6 s = .ok true ↔ ∃ n c e, Address s n c e ∧ Accepted n c e := by
  constructor
  · intro hs
    obtain ⟨n, c, e, h⟩ := (parseIpv6_ends s).of_eq_ok hs rfl
    rw [h.parseIpv6_eq, Except.ok.injEq, ipv6Verdict_iff] at hs
    exact ⟨n, c, e, h, hs⟩
  · rintro ⟨n, c, e, h, hacc⟩
    rw [h.parseIpv6_eq, ipv6Verdict_iff.2 hacc]

/-! ## The text forms that are taken -/

theorem groups_of_tailGroups : ∀ {n y}, 1 ≤ n → y ∈ tailGroups n → Groups seen y n seen .group
  | 1, _, _, h => .group h
  | 2, _, _, .inr h => .ipv4 h
  | 2, _, _, .inl ⟨g, hg, t, ht, hy⟩ => by
    obtain ⟨a, g', rfl, ha, hg'⟩ := mem_letter_mul.1 ht
    obtain rfl : a = chr ':' := by simpa using ha
    subst hy
    exact .next hg (.group hg')
  | n + 3, _, _, ⟨g, hg, t, ht, hy⟩ => by
    obtain ⟨a, t, rfl, ha, htail⟩ := mem_letter_mul.1 ht
    obtain rfl : a = chr ':' := by simpa using ha
    subst hy
    exact .next hg (groups_of_tailGroups (by omega) htail)

theorem Groups.mem_tailGroups (h : Groups seen y n c e) (hc : c = seen) (he : e = .group) :
    1 ≤ n ∧ y ∈ tailGroups n := by
  induction h with
  | ipv4 h => exact ⟨by omega, .inr h⟩
  | group h => exact ⟨le_rfl, h⟩
  | colon h => cases he
  | @next seen g y n c e h hy ih =>
    obtain ⟨hn, hmem⟩ := ih hc he
    have hcolon : chr ':' :: y ∈ char ':' * tailGroups n := cons_mem_char_mul.2 ⟨rfl, hmem⟩
    refine ⟨by omega, ?_⟩
    obtain rfl | ⟨k, rfl⟩ : n = 1 ∨ ∃ k, n = k + 2 := by
      rcases Nat.lt_or_ge n 2 with h | h
      · exact .inl (by omega)
      · exact .inr ⟨n - 2, by omega⟩
    · exact .inl (Language.append_mem_mul h hcolon)
    · exact Language.append_mem_mul h hcolon
  | compression => cases he
  | compressed => cases hc

/-- Groups that are not the last ones, followed by a colon. -/
theorem hexGroups_induction {P : ℕ → Bytes → Prop} (one : ∀ g ∈ h16, P 1 g)
    (next : ∀ n g x, g ∈ h16 → x ∈ hexGroups (n + 1) → P (n + 1) x →
      P (n + 2) (g ++ chr ':' :: x)) : ∀ {n x}, 1 ≤ n → x ∈ hexGroups n → P n x
  | 1, _, _, h => one _ h
  | n + 2, _, _, ⟨g, hg, t, ht, hx⟩ => by
    obtain ⟨a, t, rfl, ha, htail⟩ := mem_letter_mul.1 ht
    obtain rfl : a = chr ':' := by simpa using ha
    subst hx
    exact next n g t hg htail (hexGroups_induction one next (by omega) htail)

theorem cons_mem_hexGroups (hg : g ∈ h16) (hn : 1 ≤ n) (hx : x ∈ hexGroups n) :
    g ++ chr ':' :: x ∈ hexGroups (n + 1) := by
  obtain ⟨n, rfl⟩ := Nat.exists_eq_succ_of_ne_zero (Nat.ne_of_gt hn)
  exact Language.append_mem_mul hg (cons_mem_char_mul.2 ⟨rfl, hx⟩)

theorem groups_of_hexGroups (hn : 1 ≤ n) (hx : x ∈ hexGroups n) :
    Groups seen (x ++ [chr ':']) n seen .colon := by
  refine hexGroups_induction (P := fun n x => Groups seen (x ++ [chr ':']) n seen .colon)
    (fun g hg => .colon hg) (fun n g x hg _ ih => ?_) hn hx
  simpa using Groups.next hg ih

theorem Groups.mem_hexGroups (h : Groups seen y n c e) (hc : c = seen) (he : e = .colon) :
    1 ≤ n ∧ ∃ x ∈ hexGroups n, y = x ++ [chr ':'] := by
  induction h with
  | ipv4 => cases he
  | group => cases he
  | @colon _ g h => exact ⟨le_rfl, g, h, rfl⟩
  | next h _ ih =>
    obtain ⟨hn, x, hx, rfl⟩ := ih hc he
    exact ⟨by omega, _, cons_mem_hexGroups h hn hx, by simp⟩
  | compression => cases he
  | compressed => cases hc

theorem groups_of_compression (hm : 1 ≤ m) (hx : x ∈ hexGroups m) :
    Groups false (x ++ [chr ':', chr ':']) m true .compression := by
  refine hexGroups_induction
    (P := fun m x => Groups false (x ++ [chr ':', chr ':']) m true .compression)
    (fun g hg => .compression hg) (fun n g x hg _ ih => ?_) hm hx
  simpa using Groups.next hg ih

theorem groups_of_compressed (hm : 1 ≤ m) (hx : x ∈ hexGroups m) (hz : Groups true z n c e) :
    Groups false (x ++ chr ':' :: chr ':' :: z) (m + n) true e := by
  refine hexGroups_induction
    (P := fun m x => Groups false (x ++ chr ':' :: chr ':' :: z) (m + n) true e)
    (fun g hg => ?_) (fun k g x hg _ ih => ?_) hm hx
  · rw [Nat.add_comm]
    exact .compressed hg hz
  · have hnext := Groups.next hg ih
    rw [show k + 1 + n + 1 = k + 2 + n by omega] at hnext
    simpa using hnext

/-- Groups with a `::` are the groups before it and those after it. -/
theorem Groups.split (h : Groups seen y n c e) (hseen : seen = false) (hc : c = true) :
    ∃ m x, 1 ≤ m ∧ x ∈ hexGroups m ∧
      (y = x ++ [chr ':', chr ':'] ∧ n = m ∧ e = .compression ∨
        ∃ z k, y = x ++ chr ':' :: chr ':' :: z ∧ n = m + k ∧ Groups true z k true e) := by
  induction h with
  | ipv4 => simp [hseen] at hc
  | group => simp [hseen] at hc
  | colon => simp [hseen] at hc
  | @next _ g _ _ _ _ h _ ih =>
    obtain ⟨m, x, hm, hx, ⟨rfl, rfl, rfl⟩ | ⟨z, k, rfl, rfl, hz⟩⟩ := ih hseen hc
    · exact ⟨_, _, by omega, cons_mem_hexGroups h hm hx, .inl ⟨by simp, rfl, rfl⟩⟩
    · exact ⟨_, _, by omega, cons_mem_hexGroups h hm hx, .inr ⟨z, k, by simp, by omega, hz⟩⟩
  | @compression g h => exact ⟨1, g, le_rfl, h, .inl ⟨rfl, rfl, rfl⟩⟩
  | @compressed g z k _ _ h hz =>
    obtain rfl := hz.compression_of_seen rfl
    exact ⟨1, g, le_rfl, h, .inr ⟨z, k, rfl, Nat.add_comm _ _, hz⟩⟩

theorem mem_doubleColon_mul {L : Language UInt8} :
    y ∈ doubleColon * L ↔ ∃ z ∈ L, y = chr ':' :: chr ':' :: z := by
  rw [doubleColon, mul_assoc, char, mem_letter_mul]
  constructor
  · rintro ⟨a, t, rfl, ha, ht⟩
    obtain ⟨b, z, rfl, hb, hz⟩ := mem_letter_mul.1 ht
    obtain rfl : a = chr ':' := by simpa using ha
    obtain rfl : b = chr ':' := by simpa using hb
    exact ⟨z, hz, rfl⟩
  · rintro ⟨z, hz, rfl⟩
    exact ⟨_, _, rfl, by simp, by simpa using hz⟩

theorem mem_compressed_iff : s ∈ compressed m n ↔
    ∃ x ∈ hexGroups m, ∃ z ∈ tailGroups n, s = x ++ chr ':' :: chr ':' :: z := by
  rw [compressed, Language.mem_mul]
  constructor
  · rintro ⟨x, hx, y, hy, rfl⟩
    obtain ⟨z, hz, rfl⟩ := mem_doubleColon_mul.1 hy
    exact ⟨x, hx, z, hz, rfl⟩
  · rintro ⟨x, hx, z, hz, rfl⟩
    exact ⟨x, hx, _, mem_doubleColon_mul.2 ⟨z, hz, rfl⟩, rfl⟩

theorem mem_dangling_iff : s ∈ dangling m n ↔ 1 ≤ n ∧
    ∃ x ∈ hexGroups m, ∃ z ∈ hexGroups n, s = x ++ chr ':' :: chr ':' :: (z ++ [chr ':']) := by
  refine and_congr_right fun _ => ?_
  rw [Language.mem_mul]
  constructor
  · rintro ⟨x, hx, y, hy, rfl⟩
    obtain ⟨_, ⟨z, hz, _, ⟨a, rfl, ha⟩, rfl⟩, rfl⟩ := mem_doubleColon_mul.1 hy
    obtain rfl : a = chr ':' := by simpa using ha
    exact ⟨x, hx, z, hz, rfl⟩
  · rintro ⟨x, hx, z, hz, rfl⟩
    have hcolon : [chr ':'] ∈ char ':' := cons_mem_letter.2 ⟨rfl, by simp⟩
    exact ⟨x, hx, _, mem_doubleColon_mul.2 ⟨_, ⟨z, hz, _, hcolon, rfl⟩, rfl⟩, rfl⟩

theorem address_of_tailGroups (hn : 1 ≤ n) (h : s ∈ tailGroups n) : Address s n false .group :=
  .groups (groups_of_tailGroups hn h)

theorem address_of_compressed (h : s ∈ compressed m n) :
    ∃ e, e ≠ .colon ∧ Address s (m + n) true e := by
  obtain ⟨x, hx, z, hz, rfl⟩ := mem_compressed_iff.1 h
  rcases Nat.eq_zero_or_pos m with rfl | hm <;> rcases Nat.eq_zero_or_pos n with rfl | hn
  · obtain rfl : x = [] := hx
    obtain rfl : z = [] := hz
    exact ⟨.compression, by simp, .compression⟩
  · obtain rfl : x = [] := hx
    rw [Nat.zero_add]
    exact ⟨.group, by simp, .leading (groups_of_tailGroups hn hz)⟩
  · obtain rfl : z = [] := hz
    exact ⟨.compression, by simp, .groups (groups_of_compression hm hx)⟩
  · exact ⟨.group, by simp, .groups (groups_of_compressed hm hx (groups_of_tailGroups hn hz))⟩

theorem address_of_dangling (h : s ∈ dangling m n) : Address s (m + n) true .colon := by
  obtain ⟨hn, x, hx, z, hz, rfl⟩ := mem_dangling_iff.1 h
  rcases Nat.eq_zero_or_pos m with rfl | hm
  · obtain rfl : x = [] := hx
    rw [Nat.zero_add]
    exact .leading (groups_of_hexGroups hn hz)
  · exact .groups (groups_of_compressed hm hx (groups_of_hexGroups hn hz))

theorem Groups.ne_compression (h : Groups seen y n c e) (hseen : seen = true) :
    e ≠ .compression := by
  induction h with
  | next _ _ ih => exact ih hseen
  | compression => cases hseen
  | compressed => cases hseen
  | _ => simp

theorem Groups.mem_tail (h : Groups true z k true e) :
    e = .group ∧ z ∈ tailGroups k ∨ e = .colon ∧ 1 ≤ k ∧ ∃ x ∈ hexGroups k, z = x ++ [chr ':'] := by
  cases e with
  | group => exact .inl ⟨rfl, (h.mem_tailGroups rfl rfl).2⟩
  | colon => exact .inr ⟨rfl, h.mem_hexGroups rfl rfl⟩
  | compression => exact absurd rfl (h.ne_compression rfl)

/-- A whole address with a `::`. -/
theorem Address.mem_of_compression (h : Address s n true e) : ∃ m k, n = m + k ∧
    (e ≠ .colon ∧ s ∈ compressed m k ∨ e = .colon ∧ s ∈ dangling m k) := by
  cases h with
  | compression =>
    exact ⟨0, 0, rfl, .inl ⟨by simp, mem_compressed_iff.2 ⟨[], rfl, [], rfl, rfl⟩⟩⟩
  | leading h =>
    refine ⟨0, n, (Nat.zero_add n).symm, ?_⟩
    rcases h.mem_tail with ⟨rfl, hz⟩ | ⟨rfl, hn, x, hx, rfl⟩
    · exact .inl ⟨by simp, mem_compressed_iff.2 ⟨[], rfl, _, hz, rfl⟩⟩
    · exact .inr ⟨rfl, mem_dangling_iff.2 ⟨hn, [], rfl, x, hx, rfl⟩⟩
  | groups h =>
    obtain ⟨m, x, -, hx, ⟨rfl, rfl, rfl⟩ | ⟨z, k, rfl, rfl, hz⟩⟩ := h.split rfl rfl
    · exact ⟨n, 0, rfl, .inl ⟨by simp, mem_compressed_iff.2 ⟨x, hx, [], rfl, rfl⟩⟩⟩
    · refine ⟨m, k, rfl, ?_⟩
      rcases hz.mem_tail with ⟨rfl, htail⟩ | ⟨rfl, hk, x', hx', rfl⟩
      · exact .inl ⟨by simp, mem_compressed_iff.2 ⟨x, hx, z, htail, rfl⟩⟩
      · exact .inr ⟨rfl, mem_dangling_iff.2 ⟨hk, x, hx, x', hx', rfl⟩⟩

theorem Address.mem_tailGroups (h : Address s n false .group) : s ∈ tailGroups n := by
  cases h with
  | leading h => exact absurd (h.compression_of_seen rfl) (by simp)
  | groups h => exact (h.mem_tailGroups rfl rfl).2

/-- **What `parse_ipv6` accepts.** -/
theorem parseIpv6_eq_true_iff_mem : parseIpv6 s = .ok true ↔
    (∃ n, s ∈ tailGroups n ∧ Int32.ofNat n = 8) ∨
      ∃ m n, (s ∈ compressed m n ∨ s ∈ dangling m n) ∧ Int32.ofNat (m + n) ≤ 7 := by
  rw [parseIpv6_eq_true_iff]
  constructor
  · rintro ⟨n, c, e, h, hacc⟩
    cases c with
    | false =>
      obtain ⟨rfl, hn⟩ := hacc
      exact .inl ⟨n, h.mem_tailGroups, hn⟩
    | true =>
      obtain ⟨m, k, rfl, ⟨-, hs⟩ | ⟨-, hs⟩⟩ := h.mem_of_compression
      · exact .inr ⟨m, k, .inl hs, hacc⟩
      · exact .inr ⟨m, k, .inr hs, hacc⟩
  · rintro (⟨n, hs, hn⟩ | ⟨m, n, hs | hs, hn⟩)
    · rcases Nat.eq_zero_or_pos n with rfl | hpos
      · exact absurd hn (by decide)
      · exact ⟨n, false, .group, address_of_tailGroups hpos hs, rfl, hn⟩
    · obtain ⟨e, -, he⟩ := address_of_compressed hs
      exact ⟨m + n, true, e, he, hn⟩
    · exact ⟨m + n, true, .colon, address_of_dangling hs, hn⟩

/-! ## Counting -/

/-- The last bytes of an address, by what it ends with. -/
def EndsIn : End → Bytes → Prop
  | .group, s => ∃ a x, s.reverse = a :: x ∧ a ≠ chr ':'
  | .compression, s => ∃ x, s.reverse = chr ':' :: chr ':' :: x
  | .colon, s => ∃ a x, s.reverse = chr ':' :: a :: x ∧ a ≠ chr ':'

theorem EndsIn.append (h : EndsIn e y) (x : Bytes) : EndsIn e (x ++ y) := by
  cases e with
  | group =>
    obtain ⟨a, z, hz, ha⟩ := h
    exact ⟨a, z ++ x.reverse, by simp [hz], ha⟩
  | compression =>
    obtain ⟨z, hz⟩ := h
    exact ⟨z ++ x.reverse, by simp [hz]⟩
  | colon =>
    obtain ⟨a, z, hz, ha⟩ := h
    exact ⟨a, z ++ x.reverse, by simp [hz], ha⟩

theorem EndsIn.unique {e' : End} (h : EndsIn e y) (h' : EndsIn e' y) : e = e' := by
  cases e <;> cases e' <;> simp only [EndsIn] at h h' <;> grind

theorem endsIn_group (hne : x ≠ []) (hx : Free (· == chr ':') x) : EndsIn .group x := by
  obtain ⟨a, t, ht⟩ := List.exists_cons_of_ne_nil (List.reverse_ne_nil_iff.2 hne)
  refine ⟨a, t, ht, ?_⟩
  have ha : a ∈ x := List.mem_reverse.1 (ht ▸ List.mem_cons_self)
  simpa using hx a ha

theorem endsIn_h16 (h : g ∈ h16) : EndsIn .group g :=
  endsIn_group (mem_h16_iff.1 h).1 ((free_h16 h).mono fun a ha => by simp [isStop, ha])

theorem endsIn_colon (h : EndsIn .group y) : EndsIn .colon (y ++ [chr ':']) := by
  obtain ⟨a, x, hx, ha⟩ := h
  exact ⟨a, x, by simp [hx], ha⟩

theorem endsIn_colons (y : Bytes) : EndsIn .compression (y ++ [chr ':', chr ':']) :=
  ⟨y.reverse, by simp⟩

theorem Groups.endsIn (h : Groups seen y n c e) : EndsIn e y := by
  induction h with
  | ipv4 h =>
    obtain ⟨u, v, hy, -⟩ := ipv4_split h
    exact endsIn_group (by simp [hy]) (free_of_le ipv4Address_le (beq_chr_of_class (by decide)) h)
  | group h => exact endsIn_h16 h
  | colon h => exact endsIn_colon (endsIn_h16 h)
  | @next _ g _ _ _ _ _ _ ih => simpa using ih.append (g ++ [chr ':'])
  | compression => exact endsIn_colons _
  | @compressed g _ _ _ _ _ _ ih => simpa using ih.append (g ++ [chr ':', chr ':'])

theorem Address.endsIn (h : Address s n c e) : EndsIn e s := by
  cases h with
  | compression => exact endsIn_colons []
  | leading h => exact h.endsIn.append [chr ':', chr ':']
  | groups h => exact h.endsIn

theorem length_ipv4Address : ∀ y ∈ ipv4Address, y.length ≤ 15 := by
  have hoctet : ∀ y ∈ decOctet, y.length ≤ 3 := fun y hy => (mem_decOctet_iff.1 hy).2.2.1
  have hdot : ∀ y ∈ char '.', y.length ≤ 1 := by
    rintro _ ⟨a, rfl, -⟩
    exact le_rfl
  exact length_le_of_mem_mul hoctet (length_le_of_mem_mul hdot (length_le_of_mem_mul hoctet
    (length_le_of_mem_mul hdot (length_le_of_mem_mul hoctet (length_le_of_mem_mul hdot hoctet)))))

/-- The groups count at most the bytes, and the bytes are at most eight for each group. -/
theorem Groups.length_bounds (h : Groups seen y n c e) : n ≤ y.length ∧ y.length ≤ 8 * n := by
  have hh16 : ∀ {g}, g ∈ h16 → 1 ≤ g.length ∧ g.length ≤ 4 := fun hg =>
    ⟨List.length_pos_iff.2 (mem_h16_iff.1 hg).1, (mem_h16_iff.1 hg).2.1⟩
  induction h with
  | ipv4 h =>
    have hle := length_ipv4Address _ h
    obtain ⟨u, v, rfl, hu⟩ := ipv4_split h
    have hpos := List.length_pos_iff.2 (mem_decOctet_iff.1 hu).2.1
    simp only [List.length_append, List.length_cons] at hle ⊢
    omega
  | group h =>
    have := hh16 h
    omega
  | colon h =>
    have := hh16 h
    simp only [List.length_append, List.length_singleton]
    omega
  | next h _ ih =>
    have := hh16 h
    simp only [List.length_append, List.length_cons]
    omega
  | compression h =>
    have := hh16 h
    simp only [List.length_append, List.length_cons, List.length_nil]
    omega
  | compressed h _ ih =>
    have := hh16 h
    simp only [List.length_append, List.length_cons]
    omega

theorem Address.length_bounds (h : Address s n c e) :
    n ≤ s.length ∧ s.length ≤ 8 * n + 2 := by
  cases h with
  | compression => simp
  | leading h =>
    have := h.length_bounds
    simp only [List.length_cons]
    omega
  | groups h =>
    have := h.length_bounds
    omega

/-- A colon at the end after a group and a `::`. -/
def trailingColon : Language UInt8 := {w | ∃ m n, m + n ≤ 7 ∧ w ∈ dangling m n}

/-- So many groups that their number does not fit into an `int`, with a count that passes. -/
def wrapped : Language UInt8 :=
  {w | (∃ n, 2 ^ 31 ≤ n ∧ w ∈ tailGroups n ∧ Int32.ofNat n = 8) ∨
    ∃ m n, 2 ^ 31 ≤ m + n ∧ (w ∈ compressed m n ∨ w ∈ dangling m n) ∧ Int32.ofNat (m + n) ≤ 7}

theorem ofNat_eq_eight (hn : n < 2 ^ 31) : Int32.ofNat n = 8 ↔ n = 8 := by
  rw [← Int32.toInt_inj, Int32.toInt_ofNat_of_lt hn, show (8 : Int32).toInt = 8 from rfl]
  omega

theorem ofNat_le_seven (hn : n < 2 ^ 31) : Int32.ofNat n ≤ 7 ↔ n ≤ 7 := by
  rw [Int32.le_iff_toInt_le, Int32.toInt_ofNat_of_lt hn, show (7 : Int32).toInt = 7 from rfl]
  omega

/-- An address of the text forms. -/
theorem address_of_ipv6Address (h : s ∈ ipv6Address) :
    ∃ n c e, n ≤ 8 ∧ e ≠ .colon ∧ Address s n c e := by
  rcases h with h | ⟨m, n, hle, h⟩
  · exact ⟨8, false, .group, le_rfl, by simp, address_of_tailGroups (by omega) h⟩
  · obtain ⟨e, he, h⟩ := address_of_compressed h
    exact ⟨m + n, true, e, by omega, he, h⟩

theorem length_of_wrapped (h : s ∈ wrapped) : 2 ^ 31 ≤ s.length := by
  rcases h with ⟨k, hk, hs, -⟩ | ⟨m, k, hk, hs | hs, -⟩
  · exact hk.trans (address_of_tailGroups (by omega) hs).length_bounds.1
  · obtain ⟨e, -, h⟩ := address_of_compressed hs
    exact hk.trans h.length_bounds.1
  · exact hk.trans (address_of_dangling hs).length_bounds.1

theorem length_of_ipv6Address (h : s ∈ ipv6Address) : s.length ≤ 66 := by
  obtain ⟨n, c, e, hn, -, haddr⟩ := address_of_ipv6Address h
  have hlen := haddr.length_bounds.2
  omega

theorem length_of_trailingColon (h : s ∈ trailingColon) : s.length ≤ 58 := by
  obtain ⟨m, n, hn, hdangling⟩ := h
  have hlen := (address_of_dangling hdangling).length_bounds.2
  omega

theorem ipv6Address_disjoint (h : s ∈ ipv6Address) : s ∉ trailingColon ∧ s ∉ wrapped := by
  constructor
  · obtain ⟨n, c, e, -, he, haddr⟩ := address_of_ipv6Address h
    rintro ⟨m, k, -, hdangling⟩
    exact he (haddr.endsIn.unique (address_of_dangling hdangling).endsIn)
  · intro hwrapped
    have hlong := length_of_wrapped hwrapped
    have hshort := length_of_ipv6Address h
    omega

theorem parseIpv6_eq_true_iff_or : parseIpv6 s = .ok true ↔
    s ∈ ipv6Address ∨ s ∈ trailingColon ∨ s ∈ wrapped := by
  rw [parseIpv6_eq_true_iff_mem]
  constructor
  · rintro (⟨n, hs, hn⟩ | ⟨m, n, hs, hn⟩)
    · rcases Nat.lt_or_ge n (2 ^ 31) with hlt | hge
      · rw [ofNat_eq_eight hlt] at hn
        exact .inl (.inl (hn ▸ hs))
      · exact .inr (.inr (.inl ⟨n, hge, hs, hn⟩))
    · rcases Nat.lt_or_ge (m + n) (2 ^ 31) with hlt | hge
      · rw [ofNat_le_seven hlt] at hn
        rcases hs with hs | hs
        · exact .inl (.inr ⟨m, n, hn, hs⟩)
        · exact .inr (.inl ⟨m, n, hn, hs⟩)
      · exact .inr (.inr (.inr ⟨m, n, hge, hs, hn⟩))
  · rintro ((hs | ⟨m, n, hn, hs⟩) | ⟨m, n, hn, hs⟩ | ⟨n, -, hs, hn⟩ | ⟨m, n, -, hs, hn⟩)
    · exact .inl ⟨8, hs, rfl⟩
    · exact .inr ⟨m, n, .inl hs, (ofNat_le_seven (by omega)).2 hn⟩
    · exact .inr ⟨m, n, .inr hs, (ofNat_le_seven (by omega)).2 hn⟩
    · exact .inl ⟨n, hs, hn⟩
    · exact .inr ⟨m, n, hs, hn⟩

/-- The bytes of an IPv6 address. -/
def isIpv6Byte (c : UInt8) : Bool := isHex c || (str ":.").contains c

theorem isIpv6Byte_of_isIpv4Byte (c : UInt8) (hc : isIpv4Byte c = true) : isIpv6Byte c = true := by
  rw [isIpv4Byte, Bool.or_eq_true, beq_iff_eq] at hc
  rcases hc with hc | rfl
  · simp [isIpv6Byte, isHex, hc]
  · decide

theorem groups_within {seen c : Bool} {n : ℕ} {e : End} (hg : Groups seen y n c e) :
    y ∈ within isIpv6Byte := by
  have hh16 : ∀ {g}, g ∈ h16 → ∀ a ∈ g, isIpv6Byte a = true := fun hg a ha => by
    simp [isIpv6Byte, (mem_h16_iff.1 hg).2.2 a ha]
  have hcolon : isIpv6Byte (chr ':') = true := by decide
  induction hg with
  | ipv4 h => exact fun c hc => isIpv6Byte_of_isIpv4Byte c (ipv4Address_le h c hc)
  | group h => exact hh16 h
  | colon h => exact List.forall_mem_append.2 ⟨hh16 h, by simpa using hcolon⟩
  | next h _ ih => exact List.forall_mem_append.2 ⟨hh16 h, List.forall_mem_cons.2 ⟨hcolon, ih⟩⟩
  | compression h => exact List.forall_mem_append.2 ⟨hh16 h, by simpa using hcolon⟩
  | compressed h _ ih =>
    exact List.forall_mem_append.2
      ⟨hh16 h, List.forall_mem_cons.2 ⟨hcolon, List.forall_mem_cons.2 ⟨hcolon, ih⟩⟩⟩

theorem bytes_of_parseIpv6 (hw : parseIpv6 w = .ok true) : ∀ c ∈ w, isIpv6Byte c = true := by
  obtain ⟨n, c, e, h, -⟩ := parseIpv6_eq_true_iff.1 hw
  have hcolon : isIpv6Byte (chr ':') = true := by decide
  cases h with
  | compression =>
    exact List.forall_mem_cons.2 ⟨hcolon, List.forall_mem_singleton.2 hcolon⟩
  | leading h =>
    exact List.forall_mem_cons.2 ⟨hcolon, List.forall_mem_cons.2 ⟨hcolon, groups_within h⟩⟩
  | groups h => exact groups_within h

/-- **IPv6 addresses.** `parse_ipv6` accepts a string exactly when it is an IPv6 address, unless it
ends with a single colon after a group and a `::`, or its groups overflow their counter. -/
theorem parseIpv6_iff : (parseIpv6 s = .ok true ↔ s ∈ ipv6Address) ↔
    s ∉ trailingColon ∧ s ∉ wrapped := by
  rw [parseIpv6_eq_true_iff_or]
  constructor
  · intro hiff
    by_cases h : s ∈ ipv6Address
    · exact ipv6Address_disjoint h
    · exact ⟨fun hs => h (hiff.1 (.inr (.inl hs))), fun hs => h (hiff.1 (.inr (.inr hs)))⟩
  · rintro ⟨htrailing, hwrapped⟩
    constructor
    · rintro (h | h | h)
      · exact h
      · exact absurd h htrailing
      · exact absurd h hwrapped
    · exact .inl

/-- `::1:` is accepted but ends with a single colon. -/
theorem parseIpv6_trailingColon :
    parseIpv6 (str "::1:") = .ok true ∧ str "::1:" ∉ ipv6Address := by
  refine ⟨by decide, fun h => (ipv6Address_disjoint h).1 ⟨0, 1, by omega, ?_⟩⟩
  have hhex : ∀ c ∈ str "1", isHex c = true := List.all_eq_true.1 (by decide)
  exact mem_dangling_iff.2 ⟨le_rfl, [], rfl, str "1",
    mem_h16_iff.2 ⟨by decide, by decide, hhex⟩, rfl⟩

end FastJsonSchema.Formats
