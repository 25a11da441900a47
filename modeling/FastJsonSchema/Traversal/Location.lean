import FastJsonSchema.Traversal.Bounds
import FastJsonSchema.Traversal.Calls
import Mathlib.Data.List.Forall2

/-!
# Where a run is

A `Layout` says which calls, failure sites and slots belong to a location, the list of tokens that
the stack should hold. When the programs of a machine keep to a layout (`Prog.At`), the stack of a
run holds the location at hand as long as no level has been left behind. So each report carries the
right path exactly when its judgement has no level left behind before it (`run_located`), and the
highest store lies above the deepest slot by no more than the levels left behind
(`judge_peak_le`).

The calls of a location depend on the mode: only a loud call reports anything.
-/

namespace Traversal

variable {Call Tok Site Exn : Type}

/-- The calls, failure sites and slots of each location. -/
structure Layout (Call Tok Site : Type) where
  call : Bool → List Tok → Call → Prop
  site : List Tok → Site → Prop
  slot : List Tok → Prop

variable {L : Layout Call Tok Site}

/-- `p.At L q l`: the program `p` works at the location `l` in the given mode. -/
inductive Prog.At (L : Layout Call Tok Site) (q : Bool) :
    List Tok → Prog Call Tok Site Exn → Prop
  | skip {l} : At L q l .skip
  | fail {l e} (h : q = false → L.site l e) : At L q l (.fail e)
  | raise {l x} : At L q l (.raise x)
  | crash {l} : At L q l .crash
  | seq {l p p'} (hp : At L q l p) (hp' : At L q l p') : At L q l (.seq p p')
  | call {l c} (h : L.call q l c) : At L q l (.call c)
  | guarded {l c k} (h : L.call true l c) (hk : ∀ b, At L q l (k b)) : At L q l (.guarded c k)
  | each {l xs} (hs : ∀ x ∈ xs, L.slot (l ++ [x.1])) (hx : ∀ x ∈ xs, At L q (l ++ [x.1]) x.2) :
      At L q l (.each xs)

namespace Prog

variable {l : List Tok} {q : Bool}

theorem At.block {ps : List (Prog Call Tok Site Exn)} (h : ∀ p ∈ ps, At L q l p) :
    At L q l (block ps) := by
  induction ps with
  | nil => exact .skip
  | cons p ps ih => exact .seq (h p (by simp)) (ih fun p' hp' => h p' (by simp [hp']))

theorem At.when {p : Prog Call Tok Site Exn} {b : Bool} (h : b = true → At L q l p) :
    At L q l (when b p) := by
  cases b with
  | false => exact .skip
  | true => exact h rfl

/-- Every call of a program belongs to some location. -/
theorem At.of_mem_calls {p : Prog Call Tok Site Exn} (h : At L q l p) {c : Call}
    (hc : c ∈ p.calls) : ∃ q' l', L.call q' l' c := by
  induction h with
  | skip => exact absurd hc List.not_mem_nil
  | fail _ => exact absurd hc List.not_mem_nil
  | raise => exact absurd hc List.not_mem_nil
  | crash => exact absurd hc List.not_mem_nil
  | seq _ _ ihp ihp' => exact (mem_calls_seq.1 hc).elim ihp ihp'
  | call h =>
    obtain rfl := List.mem_singleton.1 hc
    exact ⟨_, _, h⟩
  | guarded h _ ih =>
    rcases mem_calls_guarded.1 hc with rfl | ⟨b, hb⟩
    · exact ⟨_, _, h⟩
    · exact ih b hb
  | each _ _ ih =>
    obtain ⟨x, hx, hc⟩ := mem_calls_each.1 hc
    exact ih x hx hc

end Prog

namespace Judgement

variable {j k : Judgement Site Exn} {n : ℕ}

theorem peak_andThen (hj : j.peak ≤ j.leak + n) (hk : k.peak ≤ k.leak + n) :
    (j.andThen k).peak ≤ (j.andThen k).leak + n := by
  by_cases hx : j.exit = .pass
  · rw [andThen_of_pass hx]
    simp only [after]
    omega
  · rwa [andThen_of_ne hx]

theorem peak_branch {k : Bool → Judgement Site Exn} (hj : j.peak ≤ j.leak + n)
    (hk : ∀ b, (k b).peak ≤ (k b).leak + n) : (j.branch k).peak ≤ (j.branch k).leak + n := by
  have ht := hk true
  have hf := hk false
  rw [branch]
  cases j.exit with
  | pass => simp only [after]; omega
  | fail => simp only [after]; omega
  | _ => exact hj

theorem leak_le_deepen : j.leak ≤ j.deepen.leak := by
  simp only [deepen]
  cases j.exit with
  | fail => exact Nat.le_succ _
  | _ => exact le_rfl

end Judgement

namespace Machine

variable (M : Machine Call Tok Site Exn)

/-- Every body keeps to the layout, at each location of its call. -/
def Lays (L : Layout Call Tok Site) : Prop :=
  ∀ q l c, L.call q l c → (M.body c).At L q l

/-! ## The highest store -/

section Peak

variable {jcallee : Bool → Call → Judgement Site Exn} {h : ℕ}
  (hslot : ∀ l, L.slot l → l.length ≤ h)
  (hc : ∀ q c l, L.call q l c → (jcallee q c).peak ≤ (jcallee q c).leak + (h - l.length))

theorem judgeEach_peak_le {n : ℕ} {q : Bool} {xs : List (Tok × Prog Call Tok Site Exn)}
    (hx : ∀ x ∈ xs, (x.2.judge jcallee q).peak ≤ (x.2.judge jcallee q).leak + n) :
    (Prog.judgeEach jcallee q xs).peak ≤ (Prog.judgeEach jcallee q xs).leak + n := by
  induction xs with
  | nil => exact Nat.zero_le _
  | cons x xs ih =>
    obtain ⟨t, p⟩ := x
    exact Judgement.peak_andThen (hx (t, p) (by simp)) (ih fun x hx' => hx x (by simp [hx']))

include hslot hc

theorem prog_peak_le (q : Bool) (p : Prog Call Tok Site Exn) : ∀ l, p.At L q l →
    (p.judge jcallee q).peak ≤ (p.judge jcallee q).leak + (h - l.length) := by
  induction p with
  | skip => exact fun _ _ => Nat.zero_le _
  | fail e =>
    intro l _
    cases q <;> exact Nat.zero_le _
  | raise x => exact fun _ _ => Nat.zero_le _
  | crash => exact fun _ _ => Nat.zero_le _
  | seq p q ihp ihq =>
    rintro l (_ | _ | _ | _ | ⟨hp, hq⟩)
    exact Judgement.peak_andThen (ihp l hp) (ihq l hq)
  | call c =>
    rintro l (_ | _ | _ | _ | _ | hl)
    exact hc q c l hl
  | guarded c k ih =>
    rintro l (_ | _ | _ | _ | _ | _ | ⟨hl, hk⟩)
    exact Judgement.peak_branch (hc true c l hl) fun b => ih b l (hk b)
  | each xs ih =>
    rintro l (_ | _ | _ | _ | _ | _ | _ | ⟨hs, hx⟩)
    rw [Prog.judge]
    cases xs with
    | nil => exact Nat.zero_le _
    | cons x xs =>
      simp only [List.isEmpty_cons, Bool.false_eq_true, if_false]
      have hlen := hslot _ (hs x (by simp))
      rw [List.length_append, List.length_singleton] at hlen
      have he : (Prog.judgeEach jcallee q (x :: xs)).peak
          ≤ (Prog.judgeEach jcallee q (x :: xs)).leak + (h - (l.length + 1)) :=
        judgeEach_peak_le fun y hy =>
          (ih y hy _ (hx y hy)).trans_eq (by rw [List.length_append, List.length_singleton])
      have := (Prog.judgeEach jcallee q (x :: xs)).leak_le_deepen
      have hpeak : (Prog.judgeEach jcallee q (x :: xs)).deepen.peak
          = (Prog.judgeEach jcallee q (x :: xs)).peak + 1 := rfl
      omega

end Peak

variable {M}

/-- **The highest store** lies above the deepest slot by no more than the levels left behind. -/
theorem judge_peak_le (hM : M.Lays L) {h : ℕ} (hslot : ∀ l, L.slot l → l.length ≤ h) (n : ℕ) :
    ∀ q c l, L.call q l c → (M.judge n q c).peak ≤ (M.judge n q c).leak + (h - l.length) := by
  induction n with
  | zero => exact fun _ _ _ _ => Nat.zero_le _
  | succ n ih => exact fun q c l hl => prog_peak_le hslot ih q _ l (hM q l c hl)

/-! ## The paths of reports -/

variable {root : Tok} {s : State Tok Site} {r : Result Tok Site Exn}

/-- The state stands at the location `l`, with `k` levels left behind: the stack holds the tokens of
the location, in their order, among others. -/
structure Placed (root : Tok) (l : List Tok) (k : ℕ) (s : State Tok Site) : Prop where
  depth : s.depth = l.length + k
  path : ∃ ts, s.readPath = some ts ∧ (root :: l).Sublist ts

/-- A report against the one in its judgement, made above `k` levels left behind: its path has the
tokens of the location of its site, in their order, and one more for each level left behind. -/
def Reported (L : Layout Call Tok Site) (root : Tok) (k : ℕ) (e : Site × List Tok)
    (e' : Site × ℕ) : Prop :=
  e.1 = e'.1 ∧ ∃ l, L.site l e.1 ∧ (root :: l).Sublist e.2 ∧
    e.2.length = l.length + 1 + (k + e'.2)

/-- The reports of a run from `s` that ends in `r` are those of its judgement. -/
def Located (L : Layout Call Tok Site) (root : Tok) (k : ℕ) (s : State Tok Site)
    (r : Result Tok Site Exn) (j : Judgement Site Exn) : Prop :=
  ∃ es, r.2.errors = s.errors ++ es ∧ List.Forall₂ (Reported L root k) es j.reports

theorem Located.silent {k : ℕ} {j : Judgement Site Exn} (h : r.2.errors = s.errors)
    (hj : j.reports = []) : Located L root k s r j :=
  ⟨[], by rw [h, List.append_nil], hj ▸ .nil⟩

theorem Located.after {s₁ : State Tok Site} {o : Outcome Exn} {k : ℕ} {j j' : Judgement Site Exn}
    (h : Located L root k s (o, s₁) j) (h' : Located L root (k + j.leak) s₁ r j') :
    Located L root k s r (j.after j') := by
  obtain ⟨es, hes, hj⟩ := h
  obtain ⟨es', hes', hj'⟩ := h'
  refine ⟨es ++ es', by rw [hes', hes, List.append_assoc], List.rel_append hj ?_⟩
  rw [List.forall₂_map_right_iff]
  refine hj'.imp fun e e' he => ?_
  simpa only [Reported, Nat.add_assoc] using he

/-- The slots that are read. -/
theorem readPath_forall₂ {ts : List Tok} (h : s.readPath = some ts) :
    List.Forall₂ (fun i t => s.path i = some t) (List.range (s.depth + 1).toNat) ts := by
  have hall : ∀ (is : List ℕ) ts, is.mapM s.path = some ts →
      List.Forall₂ (fun i t => s.path i = some t) is ts := by
    intro is
    induction is with
    | nil =>
      intro ts h
      obtain rfl : [] = ts := by simpa using h
      exact .nil
    | cons i is ih =>
      intro ts h
      simp only [List.mapM_cons, Option.bind_eq_bind, Option.bind_eq_some_iff, Option.pure_def,
        Option.some.injEq] at h
      obtain ⟨t, ht, ts', hts', rfl⟩ := h
      exact .cons ht (ih ts' hts')
  exact hall _ ts h

theorem length_readPath {ts : List Tok} (h : s.readPath = some ts) :
    ts.length = (s.depth + 1).toNat := by
  rw [← (readPath_forall₂ h).length_eq, List.length_range]

theorem getElem?_readPath {ts : List Tok} (h : s.readPath = some ts) {i : ℕ} (hi : i ≤ s.depth) :
    ts[i]? = s.path i := by
  have hlen := length_readPath h
  have hall := readPath_forall₂ h
  have hget := hall.get (by rw [List.length_range]; omega) (by omega : i < ts.length)
  simp only [List.get_eq_getElem, List.getElem_range] at hget
  rw [List.getElem?_eq_getElem (by omega), hget]

/-- A deeper state that keeps the slots of another holds its tokens first. -/
theorem readPath_extends {s' : State Tok Site} {ts ts' : List Tok} (h : s.readPath = some ts)
    (h' : s'.readPath = some ts') (hp : ∀ i : ℕ, i ≤ s.depth → s'.path i = s.path i)
    (hd : s.depth ≤ s'.depth) : ts <+: ts' := by
  have hlen := length_readPath h
  have hlen' := length_readPath h'
  rw [List.prefix_iff_getElem?]
  intro i hi
  rw [getElem?_readPath h' (by omega), hp i (by omega), ← getElem?_readPath h (by omega),
    List.getElem?_eq_getElem hi]

theorem Placed.trans {l : List Tok} {k m : ℕ} {s' : State Tok Site} (h : Placed root l k s)
    (hw : M.Within (s'.depth + 1) s') (hp : ∀ i : ℕ, i ≤ s.depth → s'.path i = s.path i)
    (hd : s'.depth = s.depth + m) : Placed root l (k + m) s' := by
  obtain ⟨ts, hts, hl⟩ := h.path
  obtain ⟨ts', hts'⟩ := readPath_isSome hw
  have hdepth := h.depth
  exact ⟨by push_cast; omega,
    ts', hts', hl.trans (readPath_extends hts hts' hp (by omega)).sublist⟩

theorem Located.andThen {f : State Tok Site → Result Tok Site Exn} {k : ℕ} {b : ℤ}
    {j j' : Judgement Site Exn} (h : M.Safe r.2 → Located L root k s r j)
    (ht : M.Follows s r j) (hd : r.1 ≠ .tooDeep) (hp : r.1 ≠ .badPath)
    (hf : M.Frame b r.2 (f r.2).2) (hs : M.Safe (r.andThen f).2)
    (h' : M.Safe r.2 → r.2.depth = s.depth + j.leak → M.Safe (f r.2).2 →
      Located L root (k + j.leak) r.2 (f r.2) j') :
    Located L root k s (r.andThen f) (j.andThen j') := by
  obtain ⟨o, s₁⟩ := r
  cases o with
  | done =>
    rw [Result.andThen_of_done rfl] at hs ⊢
    have hs₁ : M.Safe s₁ := hs.mono hf.log
    obtain ⟨hj, hdepth⟩ := ht hs₁.stored
    rw [Judgement.andThen_of_pass hj]
    exact (h hs₁).after (h' hs₁ hdepth hs)
  | thrown =>
    rw [Judgement.andThen_of_ne (by simp [(ht hs.stored).1])]
    exact h hs
  | tooDeep => exact absurd rfl hd
  | badPath => exact absurd rfl hp
  | crashed =>
    have hj : j.exit = _ := ht hs.stored hs
    rw [Judgement.andThen_of_ne (by simp [hj])]
    exact h hs
  | _ =>
    have hj : j.exit = _ := ht hs.stored
    rw [Judgement.andThen_of_ne (by simp [hj])]
    exact h hs

theorem Located.branch {f : Bool → State Tok Site → Result Tok Site Exn} {k : ℕ} {b : ℤ}
    {j : Judgement Site Exn} {j' : Bool → Judgement Site Exn}
    (h : M.Safe r.2 → Located L root k s r j) (ht : M.Follows s r j) (hd : r.1 ≠ .tooDeep)
    (hp : r.1 ≠ .badPath) (hf : ∀ v, M.Frame b r.2 (f v r.2).2) (hs : M.Safe (r.branch f).2)
    (h' : ∀ v, M.Safe r.2 → r.2.depth = s.depth + j.leak → M.Safe (f v r.2).2 →
      Located L root (k + j.leak) r.2 (f v r.2) (j' v)) :
    Located L root k s (r.branch f) (j.branch j') := by
  obtain ⟨o, s₁⟩ := r
  cases o with
  | done =>
    have hs₁ : M.Safe s₁ := Safe.mono hs (hf true).log
    obtain ⟨hj, hdepth⟩ := ht hs₁.stored
    rw [Judgement.branch, hj]
    exact (h hs₁).after (h' true hs₁ hdepth hs)
  | thrown =>
    have hs₁ : M.Safe s₁ := Safe.mono hs (hf false).log
    obtain ⟨hj, hdepth⟩ := ht hs₁.stored
    rw [Judgement.branch, hj]
    exact (h hs₁).after (h' false hs₁ hdepth hs)
  | tooDeep => exact absurd rfl hd
  | badPath => exact absurd rfl hp
  | crashed =>
    have hj : j.exit = _ := ht hs.stored hs
    rw [Judgement.branch, hj]
    exact h hs
  | _ =>
    have hj : j.exit = _ := ht hs.stored
    rw [Judgement.branch, hj]
    exact h hs

/-- What the stack holds at a location. -/
theorem Placed.readPath {l : List Tok} {k : ℕ} {ts : List Tok} (h : Placed root l k s)
    (hts : s.readPath = some ts) :
    (root :: l).Sublist ts ∧ ts.length = l.length + 1 + k := by
  obtain ⟨ts', hts', hl⟩ := h.path
  obtain rfl : ts' = ts := Option.some.inj (hts'.symm.trans hts)
  have hlen := length_readPath hts
  rw [h.depth] at hlen
  exact ⟨hl, by omega⟩

theorem yieldError_located {e : Site} {l : List Tok} {k : ℕ}
    (he : s.shortCircuit = false → L.site l e)
    (h : Placed root l k s) (hw : M.Within (s.depth + 1) s) :
    Located L root k s (M.yieldError e s)
      (if s.shortCircuit then .ended .fail else ⟨.pass, 0, 0, [(e, 0)]⟩) := by
  unfold yieldError
  cases hq : s.shortCircuit with
  | true => exact .silent rfl rfl
  | false =>
    obtain ⟨ts, hts⟩ := readPath_isSome hw
    simp only [Bool.false_eq_true, if_false, if_neg (not_le.2 hw.lt), hts]
    exact ⟨_, rfl, .cons ⟨rfl, l, he hq, h.readPath hts⟩ .nil⟩

theorem write_errors (t : Tok) (s : State Tok Site) : (M.write t s).2.errors = s.errors := by
  unfold write
  split_ifs
  · rfl
  · cases M.overrun t s.toContext <;> rfl

/-- A store on top of a location places the state one token further. -/
theorem write_placed {l : List Tok} {k : ℕ} (t : Tok) (h : Placed root l k s.leave)
    (hw : M.Within s.depth s) : Placed root (l ++ [t]) k (M.write t s).2 := by
  obtain ⟨-, hdepth, hw₁⟩ := write_within t hw
  rw [← hdepth] at hw₁
  obtain ⟨ts', hts'⟩ := readPath_isSome hw₁
  obtain ⟨ts, hts, hl⟩ := h.path
  have hd := h.depth
  rw [State.depth_leave] at hd
  have hlen := length_readPath hts
  have hlen' := length_readPath hts'
  rw [State.depth_leave] at hlen
  -- the slots below keep their tokens, and the slot at the depth holds the new one
  have hpre : ts <+: ts' := by
    refine readPath_extends hts hts' (fun i hi => ?_) (by rw [State.depth_leave]; omega)
    rw [State.depth_leave] at hi
    exact (M.write_frame t s).path hw₁.safe.stored i (by omega)
  obtain ⟨us, rfl⟩ := hpre
  have htop : (ts ++ us)[s.depth.toNat]? = some t := by
    rw [getElem?_readPath hts' (by omega), write, if_pos ⟨hw.nonneg, hw.lt⟩]
    simp
  rw [List.getElem?_append_right (by omega)] at htop
  have hmem : t ∈ us := List.mem_of_getElem? htop
  refine ⟨by rw [hdepth, List.length_append, List.length_singleton]; push_cast; omega,
    _, hts', ?_⟩
  rw [← List.cons_append]
  exact hl.append (List.singleton_sublist.2 hmem)

theorem Bounded.lt_of_safe {j : Judgement Site Exn} (h : M.Bounded s r j) (hs : M.Safe r.2) :
    s.depth + j.peak < M.max := by
  by_contra hlt
  exact h.out (not_lt.1 hlt) hs

/-- The first part of a run that stays within the stack does. -/
theorem safe_of_andThen {f : State Tok Site → Result Tok Site Exn} {b : ℤ}
    (hf : M.Frame b r.2 (f r.2).2) (hs : M.Safe (r.andThen f).2) : M.Safe r.2 := by
  by_cases hd : r.1 = .done
  · rw [Result.andThen_of_done hd] at hs
    exact hs.mono hf.log
  · rwa [Result.andThen_of_ne hd] at hs

theorem safe_of_branch {f : Bool → State Tok Site → Result Tok Site Exn} {b : ℤ}
    (hf : ∀ v, M.Frame b r.2 (f v r.2).2) (hs : M.Safe (r.branch f).2) : M.Safe r.2 := by
  obtain ⟨o, s₁⟩ := r
  cases o with
  | done => exact Safe.mono hs (hf true).log
  | thrown => exact Safe.mono hs (hf false).log
  | _ => exact hs

section Exec

variable {callee : Call → State Tok Site → Result Tok Site Exn}
  {jcallee : Bool → Call → Judgement Site Exn}
  (hc : ∀ c s, M.Frame (s.depth + 1) s (callee c s).2)
  (hj : ∀ c s, M.Follows s (callee c s) (jcallee s.shortCircuit c))
  (hb : ∀ c s, M.Within (s.depth + 1) s → M.Bounded s (callee c s) (jcallee s.shortCircuit c))

include hc hj hb

theorem execEach_located {l : List Tok} {xs : List (Tok × Prog Call Tok Site Exn)}
    {q : Bool} (hx : ∀ x ∈ xs, ∀ k s, s.shortCircuit = q → Placed root (l ++ [x.1]) k s →
      M.Within (s.depth + 1) s → M.Safe (M.exec callee x.2 s).2 →
        Located L root k s (M.exec callee x.2 s) (x.2.judge jcallee s.shortCircuit)) :
    ∀ (k : ℕ) (s : State Tok Site), s.shortCircuit = q → Placed root l k s.leave →
      M.Within s.depth s → M.Safe (M.execEach callee xs s).2 →
        Located L root k s (M.execEach callee xs s)
          (Prog.judgeEach jcallee s.shortCircuit xs) := by
  induction xs with
  | nil => exact fun k s _ _ _ _ => .silent rfl rfl
  | cons x xs ih =>
    obtain ⟨t, p⟩ := x
    intro k s hmode hl hw hs
    have hplaced := write_placed t hl hw
    obtain ⟨hdone, hdepth, hw₁⟩ := write_within t hw
    have hwrite := M.write_frame t s
    have hq := hwrite.mode hw₁.safe.stored
    rw [execEach, Result.andThen_of_done hdone] at hs ⊢
    rw [Prog.judgeEach, ← hq]
    rw [← hdepth] at hw₁
    have herrors := M.write_errors t s
    generalize (M.write t s).2 = s₁ at *
    have hframe := exec_frame hc p s₁
    have hrest : M.Frame (M.exec callee p s₁).2.depth (M.exec callee p s₁).2
        (M.execEach callee xs (M.exec callee p s₁).2).2 :=
      execEach_frame (fun x _ => exec_frame hc x.2) _
    have hbp := exec_bounded hc hj hb p s₁ hw₁
    have hlt := hbp.lt_of_safe (safe_of_andThen hrest hs)
    have hw₂ := hbp.within hlt
    have hfirst := hx (t, p) (by simp) k s₁ (hq.trans hmode) hplaced hw₁
    have hgo : Located L root k s₁ ((M.exec callee p s₁).andThen (M.execEach callee xs))
        ((p.judge jcallee s₁.shortCircuit).andThen
          (Prog.judgeEach jcallee s₁.shortCircuit xs)) := by
      refine Located.andThen hfirst (exec_follows hc hj p s₁) (hbp.ne_tooDeep hlt)
        (hbp.ne_badPath hlt) hrest hs fun _ hd₂ hs₂ => ?_
      have hd := hl.depth
      rw [State.depth_leave] at hd
      have hplaced₂ : Placed root l (k + (p.judge jcallee s₁.shortCircuit).leak)
          (M.exec callee p s₁).2.leave := by
        refine hl.trans (M := M) ⟨hw₂.safe, ?_, ?_, fun i hi => hw₂.filled i ?_⟩ (fun i hi => ?_) ?_
        · rw [State.depth_leave]
          omega
        · have := hw₂.lt
          rw [State.depth_leave]
          omega
        · rw [State.depth_leave] at hi
          omega
        · rw [State.depth_leave] at hi
          have hkept := hwrite.path hw₁.safe.stored i (by omega)
          exact (hframe.path hw₂.safe.stored i (by omega)).trans hkept
        · rw [State.depth_leave, State.depth_leave, hd₂, hdepth]
          omega
      have hmode₂ := (hframe.mode hw₂.safe.stored).trans (hq.trans hmode)
      have := ih (fun x hx' => hx x (by simp [hx'])) _ _ hmode₂ hplaced₂
        ⟨hw₂.safe, hw₂.nonneg, hw₂.lt, fun i hi => hw₂.filled i (by omega)⟩ hs₂
      rwa [hframe.mode hw₂.safe.stored] at this
    obtain ⟨es, hes, hreports⟩ := hgo
    exact ⟨es, by rw [hes, herrors], hreports⟩

variable (hl : ∀ l c k s, L.call s.shortCircuit l c → Placed root l k s → M.Within (s.depth + 1) s →
  M.Safe (callee c s).2 → Located L root k s (callee c s) (jcallee s.shortCircuit c))

include hl

theorem exec_located (p : Prog Call Tok Site Exn) : ∀ l k s, p.At L s.shortCircuit l →
    Placed root l k s → M.Within (s.depth + 1) s → M.Safe (M.exec callee p s).2 →
      Located L root k s (M.exec callee p s) (p.judge jcallee s.shortCircuit) := by
  induction p with
  | skip => exact fun l k s _ _ _ _ => .silent rfl rfl
  | fail e =>
    rintro l k s (_ | he) h hw _
    exact yieldError_located he h hw
  | raise x => exact fun l k s _ _ _ _ => .silent rfl rfl
  | crash => exact fun l k s _ _ _ _ => .silent rfl rfl
  | seq p q ihp ihq =>
    rintro l k s (_ | _ | _ | _ | ⟨hp, hq⟩) h hw hs
    have hbp := exec_bounded hc hj hb p s hw
    have hframe := exec_frame hc p s
    have hlt := hbp.lt_of_safe (safe_of_andThen (exec_frame hc q _) hs)
    have hw₂ := hbp.within hlt
    refine Located.andThen (ihp l k s hp h hw) (exec_follows hc hj p s) (hbp.ne_tooDeep hlt)
      (hbp.ne_badPath hlt) (exec_frame hc q _) hs fun _ hd hs₂ => ?_
    have hd' := h.depth
    have hmode := hframe.mode hw₂.safe.stored
    have := ihq l _ _ (by rwa [hmode])
      (h.trans hw₂ (fun i hi => hframe.path hw₂.safe.stored i (by omega)) hd) hw₂ hs₂
    rwa [hmode] at this
  | call c =>
    rintro l k s (_ | _ | _ | _ | _ | hcl) h hw hs
    exact hl l c k s hcl h hw hs
  | guarded c f ih =>
    rintro l k s (_ | _ | _ | _ | _ | _ | ⟨hcl, hk⟩) h hw hs
    have hw' : M.Within ((s.mode true).depth + 1) (s.mode true) :=
      ⟨hw.safe, hw.nonneg, hw.lt, hw.filled⟩
    have hframe := protect_frame hc c s
    have hfollows : M.Follows s (protect callee c s) (jcallee true c) := protect_follows hj c s
    have hbc := hb c (s.mode true) hw'
    have hsp : M.Safe (protect callee c s).2 :=
      safe_of_branch (fun b => exec_frame hc (f b) _) hs
    have hlt := hbc.lt_of_safe hsp
    have hw₂ : M.Within ((protect callee c s).2.depth + 1) (protect callee c s).2 := by
      have := hbc.within hlt
      exact ⟨this.safe, this.nonneg, this.lt, this.filled⟩
    have hcall : Located L root k s (protect callee c s) (jcallee true c) :=
      hl l c k (s.mode true) hcl ⟨h.depth, h.path⟩ hw' hsp
    refine Located.branch (fun _ => hcall) hfollows (hbc.ne_tooDeep hlt) (hbc.ne_badPath hlt)
      (fun b => exec_frame hc (f b) _) hs fun b _ hd hs₂ => ?_
    have hd' := h.depth
    have hplaced := h.trans hw₂ (fun i hi => hframe.path hsp.stored i (by omega)) hd
    exact ih b l _ _ (hk b) hplaced hw₂ hs₂
  | each xs ih =>
    rintro l k s (_ | _ | _ | _ | _ | _ | _ | ⟨hslot, hx⟩) h hw hs
    have hmax : ¬ (M.max : ℤ) < s.depth + 1 := by have := hw.lt; omega
    simp only [exec, Prog.judge, if_neg hmax] at hs ⊢
    cases xs with
    | nil => exact .silent (by rw [Result.errors_leave]; rfl) rfl
    | cons x xs =>
      simp only [List.isEmpty_cons, Bool.not_false, Bool.false_eq_true, if_false] at hs ⊢
      have hs' : M.Safe (M.execEach callee (x :: xs) (s.enter true)).2 := by
        simpa [Safe] using hs
      have hlt := depth_lt_of_safe hc hs'
      rw [State.depth_enter] at hlt
      obtain ⟨es, hes, hreports⟩ := execEach_located hc hj hb
        (fun y hy k s' hq => ih y hy _ k s' (by rw [hq]; exact hx y hy)) k (s.enter true) rfl
        ⟨by simpa using h.depth, by simpa [State.readPath] using h.path⟩
        ⟨safe_logged.2 ⟨hw.safe, trivial⟩, by have := hw.nonneg; simp; omega, hlt,
          by simpa using hw.filled⟩ hs'
      exact ⟨es, by rw [Result.errors_leave, hes]; rfl, hreports⟩

end Exec

/-- **The reports of a run** that stays within the stack are those of its judgement. -/
theorem run_located (hM : M.Lays L) (n : ℕ) : ∀ l c k s, L.call s.shortCircuit l c →
    Placed root l k s → M.Within (s.depth + 1) s → M.Safe (M.run n c s).2 →
      Located L root k s (M.run n c s) (M.judge n s.shortCircuit c) := by
  induction n with
  | zero => exact fun l c k s _ _ _ _ => .silent rfl rfl
  | succ n ih =>
    intro l c k s hcl h hw hs
    exact exec_located (run_frame M n) (run_follows M n) (run_bounded M n) ih (M.body c) l k
      (s.logged (.read s.depth)) (hM _ l c hcl) ⟨h.depth, h.path⟩ (hw.logged hw.lt) hs

end Machine

end Traversal
