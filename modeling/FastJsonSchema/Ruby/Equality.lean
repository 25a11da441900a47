import FastJsonSchema.Ruby.Pointed
import Mathlib.Data.List.Pairwise
import Mathlib.Data.List.Perm.Subperm

/-!
# Equality of JSON values

`==` and `eql?` on the values that JSON documents are made of (`IsJson`). Both are symmetric, and
values that are `eql?` are also `==` (`equal_symm`, `equal_of_strict`). `uniq` shortens an array
exactly when two of its elements are `eql?` (`length_uniq_eq_iff`).
-/

namespace Ruby

namespace Value

variable {strict : Bool} {kvs kvs' : List (Value × Value)} {xs ys : List Value} {v w x : Value}
  {k : RString}

/-- The values of JSON documents: no NaN, and string keys that are distinct. -/
inductive IsJson : Value → Prop
  | nil : IsJson .nil
  | bool (b : Bool) : IsJson (.bool b)
  | int (n : ℤ) : IsJson (.int n)
  | float {x : Double} (h : x ≠ .nan) : IsJson (.float x)
  | str (s : RString) : IsJson (.str s)
  | arr {xs : List Value} (h : ∀ x ∈ xs, IsJson x) : IsJson (.arr xs)
  | hash {kvs : List (Value × Value)} (hkeys : ∀ e ∈ kvs, ∃ k, e.1 = .str k)
      (hnodup : (keys kvs).Nodup) (h : ∀ e ∈ kvs, IsJson e.2) : IsJson (.hash kvs)

/-! ## Arrays and hashes -/

theorem equalList_iff :
    equalList strict xs ys = true ↔ List.Forall₂ (fun x y => equal strict x y = true) xs ys := by
  induction xs generalizing ys with
  | nil => cases ys <;> simp [equalList]
  | cons x xs ih =>
    cases ys with
    | nil => simp [equalList]
    | cons y ys => rw [equalList, Bool.and_eq_true, List.forall₂_cons, ih]

theorem equal_str_eq (k : RString) (v : Value) : equal true (.str k) v = v.isStr k := by
  cases v with
  | str s => rw [equal, isStr, Bool.beq_comm]
  | _ => rfl

/-- The entry that a key is compared with is the one of the key. -/
theorem entry_equal_iff (hnodup : (keys kvs').Nodup) :
    (match kvs'.find? fun kv => equal true (.str k) kv.1 with
      | some kv => equal strict v kv.2
      | none => false) = true ↔ ∃ w, (.str k, w) ∈ kvs' ∧ equal strict v w = true := by
  simp only [equal_str_eq]
  cases hfind : kvs'.find? fun kv => kv.1.isStr k with
  | none =>
    refine iff_of_false Bool.false_ne_true ?_
    rintro ⟨w, hw, -⟩
    have hnot := List.find?_eq_none.1 hfind _ hw
    exact hnot (isStr_iff.2 rfl)
  | some e =>
    obtain ⟨k', w⟩ := e
    have hkey : isStr k k' = true :=
      List.find?_some (p := fun kv : Value × Value => kv.1.isStr k) hfind
    obtain rfl := isStr_iff.1 hkey
    have hmem := List.mem_of_find?_eq_some hfind
    constructor
    · intro h
      exact ⟨w, hmem, h⟩
    · rintro ⟨w', hw', h⟩
      obtain rfl := eq_of_mem hnodup hmem hw'
      exact h

theorem subHash_iff (hkeys : ∀ e ∈ kvs, ∃ k, e.1 = .str k) (hnodup : (keys kvs').Nodup) :
    subHash strict kvs kvs' = true ↔
      ∀ k v, (.str k, v) ∈ kvs → ∃ w, (.str k, w) ∈ kvs' ∧ equal strict v w = true := by
  induction kvs with
  | nil => simp [subHash]
  | cons e kvs ih =>
    obtain ⟨⟨key, hkey⟩, hrest⟩ := List.forall_mem_cons.1 hkeys
    obtain ⟨k, v⟩ := e
    obtain rfl : k = .str key := hkey
    rw [subHash, Bool.and_eq_true]
    refine (and_congr (entry_equal_iff hnodup) (ih hrest)).trans ?_
    constructor
    · rintro ⟨hhead, htail⟩ k v' hmem
      rcases List.mem_cons.1 hmem with he | hmem
      · obtain ⟨hk, rfl⟩ := Prod.mk.inj he
        obtain rfl := Value.str.inj hk
        exact hhead
      · exact htail k v' hmem
    · intro h
      exact ⟨h key v List.mem_cons_self, fun k v' hmem => h k v' (List.mem_cons_of_mem _ hmem)⟩

theorem mem_keys_iff : k ∈ keys kvs ↔ ∃ v, (.str k, v) ∈ kvs := by
  rw [keys, List.mem_map]
  constructor
  · rintro ⟨⟨k', v⟩, hmem, rfl⟩
    exact ⟨v, mem_stringEntries.1 hmem⟩
  · rintro ⟨v, hv⟩
    exact ⟨(k, v), mem_stringEntries.2 hv, rfl⟩

theorem length_keys (hkeys : ∀ e ∈ kvs, ∃ k, e.1 = .str k) : (keys kvs).length = kvs.length := by
  induction kvs with
  | nil => rfl
  | cons e kvs ih =>
    obtain ⟨⟨key, hkey⟩, hrest⟩ := List.forall_mem_cons.1 hkeys
    obtain ⟨k, v⟩ := e
    obtain rfl : k = .str key := hkey
    have hcons : keys ((.str key, v) :: kvs) = key :: keys kvs := rfl
    rw [hcons, List.length_cons, List.length_cons, ih hrest]

/-- Of two hashes of one size, one has the keys of the other only if it has no others. -/
theorem keys_subset_symm (hkeys : ∀ e ∈ kvs, ∃ k, e.1 = .str k)
    (hkeys' : ∀ e ∈ kvs', ∃ k, e.1 = .str k) (hnodup : (keys kvs).Nodup)
    (hlen : kvs.length = kvs'.length) (h : keys kvs ⊆ keys kvs') : keys kvs' ⊆ keys kvs := by
  have hle : (keys kvs').length ≤ (keys kvs).length := by
    rw [length_keys hkeys, length_keys hkeys', hlen]
  exact ((hnodup.subperm h).perm_of_length_le hle).symm.subset

/-! ## The two equalities -/

theorem forall₂_of_mem {R S : Value → Value → Prop} (h : List.Forall₂ R xs ys)
    (hRS : ∀ x ∈ xs, ∀ y ∈ ys, R x y → S x y) : List.Forall₂ S xs ys := by
  induction h with
  | nil => exact .nil
  | cons hxy _ ih =>
    refine .cons (hRS _ List.mem_cons_self _ List.mem_cons_self hxy) (ih fun x hx y hy => ?_)
    exact hRS x (List.mem_cons_of_mem _ hx) y (List.mem_cons_of_mem _ hy)

theorem equal_hash_iff (hkeys : ∀ e ∈ kvs, ∃ k, e.1 = .str k) (hnodup : (keys kvs').Nodup) :
    equal strict (.hash kvs) (.hash kvs') = true ↔ kvs.length = kvs'.length ∧
      ∀ k v, (.str k, v) ∈ kvs → ∃ w, (.str k, w) ∈ kvs' ∧ equal strict v w = true := by
  rw [equal, Bool.and_eq_true, beq_iff_eq, subHash_iff hkeys hnodup]

theorem equal_symm (hv : IsJson v) :
    ∀ {w}, IsJson w → equal strict v w = true → equal strict w v = true := by
  induction hv with
  | nil => intro w _ h; cases w <;> simp_all [equal]
  | bool b => intro w _ h; cases w <;> simp_all [equal]
  | int n => intro w _ h; cases w <;> simp_all [equal]
  | float hx =>
    intro w hw h
    cases w <;> simp_all [equal, Double.eq]
  | str s => intro w _ h; cases w <;> simp_all [equal]
  | @arr xs hxs ih =>
    intro w hw h
    cases hw with
    | @arr ys hys =>
      rw [equal, equalList_iff] at h ⊢
      exact (forall₂_of_mem h fun x hx y hy => ih x hx (hys y hy)).flip
    | _ => simp [equal] at h
  | @hash kvs hkeys hnodup hvals ih =>
    intro w hw h
    cases hw with
    | @hash kvs' hkeys' hnodup' hvals' =>
      rw [equal_hash_iff hkeys hnodup'] at h
      rw [equal_hash_iff hkeys' hnodup]
      obtain ⟨hlen, h⟩ := h
      have hsub : keys kvs ⊆ keys kvs' := by
        intro k hk
        obtain ⟨v, hv⟩ := mem_keys_iff.1 hk
        obtain ⟨w, hw, -⟩ := h k v hv
        exact mem_keys_iff.2 ⟨w, hw⟩
      refine ⟨hlen.symm, fun k w hw => ?_⟩
      obtain ⟨v, hv⟩ := mem_keys_iff.1 (keys_subset_symm hkeys hkeys' hnodup hlen hsub
        (mem_keys_iff.2 ⟨w, hw⟩))
      obtain ⟨w', hw', heq⟩ := h k v hv
      obtain rfl := eq_of_mem hnodup' hw hw'
      exact ⟨v, hv, ih _ hv (hvals' _ hw) heq⟩
    | _ => simp [equal] at h

/-- Values that are `eql?` are equal. -/
theorem equal_of_strict (hv : IsJson v) :
    ∀ {w}, IsJson w → equal true v w = true → equal false v w = true := by
  induction hv with
  | nil => intro w _ h; cases w <;> simp_all [equal]
  | bool b => intro w _ h; cases w <;> simp_all [equal]
  | int n => intro w _ h; cases w <;> simp_all [equal]
  | float hx => intro w _ h; cases w <;> simp_all [equal]
  | str s => intro w _ h; cases w <;> simp_all [equal]
  | @arr xs hxs ih =>
    intro w hw h
    cases hw with
    | @arr ys hys =>
      rw [equal, equalList_iff] at h ⊢
      exact forall₂_of_mem h fun x hx y hy => ih x hx (hys y hy)
    | _ => simp [equal] at h
  | @hash kvs hkeys hnodup hvals ih =>
    intro w hw h
    cases hw with
    | @hash kvs' hkeys' hnodup' hvals' =>
      rw [equal_hash_iff hkeys hnodup'] at h ⊢
      refine ⟨h.1, fun k v hv => ?_⟩
      obtain ⟨w, hw, heq⟩ := h.2 k v hv
      exact ⟨w, hw, ih _ hv (hvals' _ hw) heq⟩
    | _ => simp [equal] at h

/-! ## `uniq` -/

theorem uniq_append (xs : List Value) (x : Value) : uniq (xs ++ [x]) =
    if (uniq xs).any (equal true x) then uniq xs else uniq xs ++ [x] := by
  rw [uniq, List.foldl_append]
  rfl

theorem length_uniq_le (xs : List Value) : (uniq xs).length ≤ xs.length := by
  induction xs using List.reverseRecOn with
  | nil => rfl
  | append_singleton xs x ih =>
    rw [uniq_append, List.length_append, List.length_singleton]
    split_ifs
    · omega
    · rw [List.length_append, List.length_singleton]
      omega

theorem uniq_eq_self (h : xs.Pairwise fun x y => equal true y x = false) : uniq xs = xs := by
  induction xs using List.reverseRecOn with
  | nil => rfl
  | append_singleton xs x ih =>
    obtain ⟨hxs, -, hlast⟩ := List.pairwise_append.1 h
    have hany : xs.any (equal true x) = false :=
      List.any_eq_false.2 fun y hy => by simp [hlast y hy x (List.mem_singleton.2 rfl)]
    rw [uniq_append, ih hxs, hany, if_neg Bool.false_ne_true]

/-- **`uniq` drops an element** exactly when one before it is `eql?` to it. -/
theorem length_uniq_eq_iff :
    (uniq xs).length = xs.length ↔ xs.Pairwise fun x y => equal true y x = false := by
  constructor
  · intro h
    induction xs using List.reverseRecOn with
    | nil => exact .nil
    | append_singleton xs x ih =>
      have hle := length_uniq_le xs
      rw [uniq_append, List.length_append, List.length_singleton] at h
      split_ifs at h with hany
      · omega
      · have hxs := ih (by simpa using h)
        rw [uniq_eq_self hxs] at hany
        refine List.pairwise_append.2 ⟨hxs, List.pairwise_singleton _ _, fun y hy z hz => ?_⟩
        rw [List.mem_singleton.1 hz]
        simpa using fun hyes => hany (List.any_eq_true.2 ⟨y, hy, hyes⟩)
  · intro h
    rw [uniq_eq_self h]

end Value

end Ruby
