import Mathlib.Data.List.Basic
import Mathlib.Tactic.Common

/-!
# Scanners over windows of bytes

The code of a scanner is given a pointer and a length. Here it is given the bytes of that window
(`Bytes`) and every access goes through an operation that checks it: `byte` reads, `window` hands a
part of the window on, `consume` calls a scanner that reports how many bytes it took, and `loop`
runs at most a given number of rounds. What a scanner must not do is a `Fault`, so that a scanner
without a fault reads its window only, hands on windows of a length that is not negative, and ends.

`Ends m Q` says that `m` has no fault and that its result has `Q`; `Ends.loop` is the rule for a
loop with an invariant and a measure.
-/

namespace Scan

/-- The bytes that a scanner is given. -/
abbrev Bytes := List UInt8

/-- What a scanner must not do. -/
inductive Fault
  /-- It reads a byte outside of its window. -/
  | read
  /-- It hands on a window that is not within its own, or that ends before it starts. -/
  | window
  /-- A scanner reports more bytes than it was given. -/
  | overrun
  /-- A loop runs for more rounds than it may. -/
  | starved
  deriving DecidableEq

/-- The result of a scanner. -/
abbrev Result := Except Fault

/-- `s[i]`. -/
def byte (s : Bytes) (i : ℕ) : Result UInt8 :=
  match s[i]? with
  | some c => .ok c
  | none => .error .read

/-- The window from `i` on and before `j`: the pointer `s + i` with the length `j - i`. -/
def window (s : Bytes) (i j : ℕ) : Result Bytes :=
  if i ≤ j ∧ j ≤ s.length then .ok ((s.take j).drop i) else .error .window

/-- The number of bytes that `f` reports for the window from `i` on and before `j`. -/
def consume (f : Bytes → Result ℕ) (s : Bytes) (i j : ℕ) : Result ℕ := do
  let w ← window s i j
  let n ← f w
  if n ≤ w.length then .ok n else .error .overrun

/-- `i < j && p(s[i])` -/
def peek (p : UInt8 → Bool) (s : Bytes) (i j : ℕ) : Result Bool :=
  if i < j then do .ok (p (← byte s i)) else .ok false

/-- What a round of a loop leads to: the next round, or the result of the loop. -/
inductive Step (σ α : Type)
  | next (x : σ)
  | done (a : α)

/-- At most `n` rounds of `body`. -/
def loop {σ α : Type} (body : σ → Result (Step σ α)) : ℕ → σ → Result α
  | 0, _ => .error .starved
  | n + 1, x => do
    match ← body x with
    | .next y => loop body n y
    | .done a => .ok a

/-- `while(i < j && p(s[i])) i++`, with the last `i`. -/
def skipWhile (p : UInt8 → Bool) (s : Bytes) (i j : ℕ) : Result ℕ :=
  loop (fun i => do
    if i < j then
      if p (← byte s i) then .ok (.next (i + 1)) else .ok (.done i)
    else .ok (.done i)) (s.length + 1) i

/-- `for(; i < j; i++) if(p(s[i])) break`, with the place of the byte if there is one. -/
def find (p : UInt8 → Bool) (s : Bytes) (i j : ℕ) : Result (Option ℕ) :=
  loop (fun i => do
    if i < j then
      if p (← byte s i) then .ok (.done (some i)) else .ok (.next (i + 1))
    else .ok (.done none)) (s.length + 1) i

/-- `while(i < len) { n = f(s + i, len - i); if(n == 0) break; i += n; }`, with the last `i`. -/
def many (f : Bytes → Result ℕ) (s : Bytes) : Result ℕ :=
  loop (fun i => do
    if i < s.length then
      let n ← consume f s i s.length
      if n = 0 then .ok (.done i) else .ok (.next (i + n))
    else .ok (.done i)) (s.length + 1) 0

/-- `while(i < len) { n = f(s + i, len - i); if(n == 0) return false; i += n; } return true;` -/
def every (f : Bytes → Result ℕ) (s : Bytes) (i : ℕ) : Result Bool :=
  loop (fun i => do
    if i < s.length then
      let n ← consume f s i s.length
      if n = 0 then .ok (.done false) else .ok (.next (i + n))
    else .ok (.done true)) (s.length + 1) i

/-- `while(i < len && !p(s[i])) { n = f(s + i, len - i); if(n == 0) return 0; i += n; }`, with the
last `i`, or nothing where the code returns. -/
def manyUntil (p : UInt8 → Bool) (f : Bytes → Result ℕ) (s : Bytes) (i : ℕ) : Result (Option ℕ) :=
  loop (fun i => do
    if ← peek (fun c => !p c) s i s.length then
      let n ← consume f s i s.length
      if n = 0 then .ok (.done none) else .ok (.next (i + n))
    else .ok (.done (some i))) (s.length + 1) i

/-! ## Results -/

section Results

variable {α β : Type} {m : Result α} {f : α → Result β} {a : α} {Q R : α → Prop}

@[simp] theorem ok_bind (a : α) (f : α → Result β) : (Except.ok a >>= f) = f a := rfl

@[simp] theorem error_bind (e : Fault) (f : α → Result β) :
    (Except.error e >>= f) = Except.error e := rfl

/-- A result without a fault that has `Q`. -/
def Ends (m : Result α) (Q : α → Prop) : Prop := ∃ a, m = .ok a ∧ Q a

theorem Ends.ok (h : Q a) : Ends (.ok a) Q := ⟨a, rfl, h⟩

@[simp] theorem ends_ok : Ends (.ok a) Q ↔ Q a := by
  constructor
  · rintro ⟨b, hb, h⟩
    cases hb
    exact h
  · exact .ok

theorem Ends.mono (h : Ends m Q) (hQR : ∀ a, Q a → R a) : Ends m R := by
  obtain ⟨a, ha, hq⟩ := h
  exact ⟨a, ha, hQR a hq⟩

theorem Ends.bind {R : β → Prop} (h : Ends m Q) (hf : ∀ a, Q a → Ends (f a) R) :
    Ends (m >>= f) R := by
  obtain ⟨a, rfl, hq⟩ := h
  exact hf a hq

theorem Ends.ite {c : Prop} [Decidable c] {m' : Result α} (h : c → Ends m Q)
    (h' : ¬ c → Ends m' Q) : Ends (if c then m else m') Q := by
  by_cases hc : c
  · rw [if_pos hc]
    exact h hc
  · rw [if_neg hc]
    exact h' hc

theorem Ends.of_eq_ok (h : Ends m Q) (hm : m = .ok a) : Q a := by
  subst hm
  exact ends_ok.1 h

end Results

/-! ## Reading and handing on -/

section Windows

variable {s x y z : Bytes} {c : UInt8} {i j n : ℕ}

theorem byte_eq (h : i < s.length) : byte s i = .ok s[i] := by
  simp [byte, h]

@[simp] theorem byte_zero_cons : byte (c :: s) 0 = .ok c := rfl

@[simp] theorem byte_succ_cons : byte (c :: s) (i + 1) = byte s i := by
  simp [byte]

theorem byte_append (hi : i = x.length) : byte (x ++ c :: y) i = .ok c := by
  subst hi
  simp [byte]

theorem byte_append_add (hi : i = x.length + n) : byte (x ++ y) i = byte y n := by
  subst hi
  rw [byte, byte, List.getElem?_append_right (by omega), Nat.add_sub_cancel_left]

theorem window_eq (hij : i ≤ j) (hj : j ≤ s.length) :
    window s i j = .ok ((s.take j).drop i) := if_pos ⟨hij, hj⟩

theorem window_append (hi : i = x.length) (hj : j = x.length + y.length) :
    window (x ++ (y ++ z)) i j = .ok y := by
  subst hi hj
  rw [window_eq (by omega) (by simp), List.take_length_add_append]
  simp

theorem window_suffix (hi : i = x.length) (hj : j = (x ++ y).length) :
    window (x ++ y) i j = .ok y := by
  simpa using window_append (z := []) hi (hj.trans List.length_append)

/-- The window behind one byte. -/
theorem window_behind {c : UInt8} (hi : i = x.length) (hj : j = (x ++ c :: y).length) :
    window (x ++ c :: y) (i + 1) j = .ok y := by
  have := window_suffix (x := x ++ [c]) (y := y) (i := i + 1) (by simp [hi]) rfl
  simpa [hj] using this

theorem window_initial (hj : j = x.length) : window (x ++ y) 0 j = .ok x :=
  window_append (x := []) rfl (by simp [hj])

variable {p : UInt8 → Bool}

theorem peek_append (hi : i = x.length) (hj : j = x.length + y.length) :
    peek p (x ++ (y ++ z)) i j = .ok (y.head?.any p) := by
  subst hi hj
  cases y with
  | nil => simp [peek]
  | cons c y => simp [peek, byte_append]

theorem peek_suffix (hi : i = x.length) (hj : j = (x ++ y).length) :
    peek p (x ++ y) i j = .ok (y.head?.any p) := by
  simpa using peek_append (z := []) hi (hj.trans List.length_append)

/-- A look at the byte behind another one. -/
theorem peek_behind {c : UInt8} (hi : i = x.length) (hj : j = (x ++ c :: y).length) :
    peek p (x ++ c :: y) (i + 1) j = .ok (y.head?.any p) := by
  have := peek_suffix (p := p) (x := x ++ [c]) (y := y) (i := i + 1) (by simp [hi]) rfl
  simpa [hj] using this

/-- A byte that was seen is the first one of what is left. -/
theorem exists_cons_of_head {c : UInt8} (h : x.head?.any (· == c) = true) : ∃ t, x = c :: t := by
  cases x with
  | nil => simp at h
  | cons d t => exact ⟨t, by simpa using h⟩

theorem byte_ends (h : i < s.length) : Ends (byte s i) fun _ => True := ⟨_, byte_eq h, trivial⟩

theorem peek_ends (hj : j ≤ s.length) :
    Ends (peek p s i j) fun b => b = true → i < j := by
  rw [peek]
  refine .ite (fun hlt => ?_) fun _ => .ok (by simp)
  exact (byte_ends (by omega)).bind fun c _ => .ok fun _ => hlt

variable {f : Bytes → Result ℕ} {Q : ℕ → Prop}

theorem consume_eq (hw : window s i j = .ok z) (h : f z = .ok n) (hn : n ≤ z.length) :
    consume f s i j = .ok n := by
  simp [consume, hw, h, hn]

end Windows

/-! ## Loops -/

section Loops

variable {σ α : Type} {body : σ → Result (Step σ α)} {Q : α → Prop}

/-- What a round has to establish: the invariant and a smaller measure, or the result. -/
def Round (I : σ → Prop) (μ : σ → ℕ) (Q : α → Prop) (x : σ) : Step σ α → Prop
  | .next y => I y ∧ μ y < μ x
  | .done a => Q a

theorem Ends.loop {I : σ → Prop} (μ : σ → ℕ)
    (hbody : ∀ x, I x → Ends (body x) (Round I μ Q x)) :
    ∀ {n x}, I x → μ x < n → Ends (loop body n x) Q
  | 0, _, _, h => absurd h (Nat.not_lt_zero _)
  | n + 1, x, hx, h => by
    rw [Scan.loop]
    refine (hbody x hx).bind fun step hstep => ?_
    cases step with
    | next y =>
      obtain ⟨hy, hlt⟩ := hstep
      exact Ends.loop μ hbody hy (by omega)
    | done a => exact .ok hstep

end Loops

section Skipping

variable {p : UInt8 → Bool} {x y z : Bytes} {i j : ℕ}

theorem skipWhile_ends (hij : i ≤ j) (hj : j ≤ s.length) :
    Ends (skipWhile p s i j) fun k => i ≤ k ∧ k ≤ j := by
  refine Ends.loop (I := fun k => i ≤ k ∧ k ≤ j) (fun k => s.length - k) ?_
    ⟨Nat.le_refl i, hij⟩ (by omega)
  rintro k ⟨hik, hkj⟩
  refine .ite (fun hlt => ?_) fun _ => .ok ⟨hik, hkj⟩
  refine (byte_ends (by omega)).bind fun c _ => .ite (fun _ => ?_) fun _ => .ok ⟨hik, hkj⟩
  refine .ok ⟨⟨by omega, by omega⟩, ?_⟩
  dsimp only
  omega

/-- The byte that a loop over `y` looks at behind what it has seen. -/
theorem byte_inside {a b : Bytes} {c : UInt8} :
    byte (x ++ (a ++ c :: b ++ z)) (x.length + a.length) = .ok c := by
  rw [byte_append_add rfl, List.append_assoc]
  exact byte_append rfl

theorem skipWhile_append (hi : i = x.length) (hj : j = x.length + y.length) :
    skipWhile p (x ++ (y ++ z)) i j = .ok (i + (y.takeWhile p).length) := by
  subst hi hj
  -- the bytes skipped so far
  let I : ℕ → Prop := fun i => ∃ a b, y = a ++ b ∧ (∀ c ∈ a, p c) ∧ i = x.length + a.length
  suffices h : Ends (skipWhile p (x ++ (y ++ z)) x.length (x.length + y.length))
      (· = x.length + (y.takeWhile p).length) by
    obtain ⟨n, hn, rfl⟩ := h
    exact hn
  refine Ends.loop (I := I) (fun i => x.length + y.length - i) ?_ ⟨[], y, rfl, by simp, rfl⟩
    (by simp; omega)
  rintro i ⟨a, b, rfl, ha, rfl⟩
  cases b with
  | nil =>
    rw [List.takeWhile_append_of_pos ha]
    simp [Round]
  | cons c b =>
    have hlt : x.length + a.length < x.length + (a ++ c :: b).length := by simp
    simp only [byte_inside, hlt, if_true, ok_bind]
    cases hp : p c with
    | false => simp [Round, List.takeWhile_append_of_pos ha, hp]
    | true =>
      simp only [if_true, ends_ok, Round]
      refine ⟨⟨a ++ [c], b, by simp, ?_, by simp; omega⟩, by omega⟩
      intro d hd
      rcases List.mem_append.1 hd with hd | hd
      · exact ha d hd
      · rwa [List.mem_singleton.1 hd]

theorem find_append (hi : i = x.length) (hj : j = x.length + y.length) :
    find p (x ++ (y ++ z)) i j = .ok ((y.findIdx? p).map (i + ·)) := by
  subst hi hj
  let I : ℕ → Prop := fun i => ∃ a b, y = a ++ b ∧ (∀ c ∈ a, ¬ p c) ∧ i = x.length + a.length
  suffices h : Ends (find p (x ++ (y ++ z)) x.length (x.length + y.length))
      (· = (y.findIdx? p).map (x.length + ·)) by
    obtain ⟨n, hn, rfl⟩ := h
    exact hn
  refine Ends.loop (I := I) (fun i => x.length + y.length - i) ?_ ⟨[], y, rfl, by simp, rfl⟩
    (by simp; omega)
  rintro i ⟨a, b, rfl, ha, rfl⟩
  have hnone : a.findIdx? p = none := List.findIdx?_eq_none_iff.2 (by simpa using ha)
  cases b with
  | nil => simp [Round, hnone]
  | cons c b =>
    have hlt : x.length + a.length < x.length + (a ++ c :: b).length := by simp
    simp only [byte_inside, hlt, if_true, ok_bind]
    cases hp : p c with
    | true => simp [Round, List.findIdx?_append, List.findIdx?_cons, hnone, hp]
    | false =>
      simp only [Bool.false_eq_true, if_false, ends_ok, Round]
      refine ⟨⟨a ++ [c], b, by simp, ?_, by simp; omega⟩, by omega⟩
      intro d hd
      rcases List.mem_append.1 hd with hd | hd
      · exact ha d hd
      · simp [List.mem_singleton.1 hd, hp]

end Skipping

end Scan
