import FastJsonSchema.Ruby.Equality

/-!
# JSON values up to the order of members

Two JSON values that are `eql?` are the same up to the order of the members of their objects
(`Same`). Neither equality tells them apart (`Same.equal_congr`), the elements of their arrays are
the same one by one, and the members of their objects key by key (`Same.alike`).
-/

namespace Ruby

namespace Value

variable {strict : Bool} {kvs kvs' : List (Value × Value)} {xs ys : List Value}
  {u v w v' w' : Value} {k : RString}

/-- `==` and `eql?` go on with `eql?`. -/
theorem equal_trans (hu : IsJson u) : ∀ {v w}, IsJson v → IsJson w → equal strict u v = true →
    equal true v w = true → equal strict u w = true := by
  induction hu with
  | nil =>
    intro v w _ _ huv hvw
    cases v <;> cases w <;> simp_all [equal]
  | bool b =>
    intro v w _ _ huv hvw
    cases v <;> cases w <;> simp_all [equal]
  | int n =>
    intro v w _ _ huv hvw
    cases v <;> cases w <;> simp_all [equal, Double.eq]
  | float hx =>
    intro v w _ _ huv hvw
    cases v <;> cases w <;> simp_all [equal, Double.eq]
  | str s =>
    intro v w _ _ huv hvw
    cases v <;> cases w <;> simp_all [equal]
  | @arr xs hxs ih =>
    intro v w hv hw huv hvw
    cases hv with
    | @arr ys hys =>
      cases hw with
      | @arr zs hzs =>
        rw [equal, equalList_iff] at huv hvw ⊢
        rw [List.forall₂_iff_get] at huv hvw ⊢
        refine ⟨huv.1.trans hvw.1, fun i hi hi' => ?_⟩
        have hj : i < ys.length := huv.1 ▸ hi
        exact ih _ (List.get_mem _ _) (hys _ (List.get_mem ys ⟨i, hj⟩)) (hzs _ (List.get_mem _ _))
          (huv.2 i hi hj) (hvw.2 i hj hi')
      | _ => simp [equal] at hvw
    | _ => simp [equal] at huv
  | @hash kvs hkeys hnodup hvals ih =>
    intro v w hv hw huv hvw
    cases hv with
    | @hash kvs' hkeys' hnodup' hvals' =>
      cases hw with
      | @hash kvs'' hkeys'' hnodup'' hvals'' =>
        rw [equal_hash_iff hkeys hnodup'] at huv
        rw [equal_hash_iff hkeys' hnodup''] at hvw
        rw [equal_hash_iff hkeys hnodup'']
        refine ⟨huv.1.trans hvw.1, fun k x hx => ?_⟩
        obtain ⟨y, hy, hxy⟩ := huv.2 k x hx
        obtain ⟨z, hz, hyz⟩ := hvw.2 k y hy
        exact ⟨z, hz, ih _ hx (hvals' _ hy) (hvals'' _ hz) hxy hyz⟩
      | _ => simp [equal] at hvw
    | _ => simp [equal] at huv

theorem equal_refl (hv : IsJson v) : equal strict v v = true := by
  induction hv with
  | nil => rfl
  | bool b => simp [equal]
  | int n => simp [equal]
  | float hx => simpa [equal, Double.eq] using hx
  | str s => simp [equal]
  | @arr xs hxs ih =>
    rw [equal, equalList_iff]
    exact List.forall₂_same.2 ih
  | @hash kvs hkeys hnodup hvals ih =>
    rw [equal_hash_iff hkeys hnodup]
    exact ⟨rfl, fun k v hv => ⟨v, hv, ih _ hv⟩⟩

/-- One JSON value, up to the order of the members of its objects. -/
structure Same (v w : Value) : Prop where
  left : IsJson v
  right : IsJson w
  equal : Value.equal true v w = true

/-- The members of two objects, with the same value under each key. -/
structure SameMembers (kvs kvs' : List (Value × Value)) : Prop where
  left : IsJson (.hash kvs)
  right : IsJson (.hash kvs')
  perm : (keys kvs).Perm (keys kvs')
  same : ∀ k v w, (.str k, v) ∈ kvs → (.str k, w) ∈ kvs' → Same v w

namespace Same

theorem refl (h : IsJson v) : Same v v := ⟨h, h, equal_refl h⟩

theorem symm (h : Same v w) : Same w v := ⟨h.right, h.left, equal_symm h.left h.right h.equal⟩

/-- **Neither equality tells the same values apart.** -/
theorem equal_congr (hv : Same v v') (hw : Same w w') :
    Value.equal strict v w = Value.equal strict v' w' := by
  have hmono : ∀ {a a' b b' : Value}, Same a a' → Same b b' → Value.equal strict a b = true →
      Value.equal strict a' b' = true := by
    intro a a' b b' ha hb h
    have hab' := equal_trans ha.left hb.left hb.right h hb.equal
    have hb'a := equal_symm ha.left hb.right hab'
    exact equal_symm hb.right ha.right (equal_trans hb.right ha.left ha.right hb'a ha.equal)
  rw [Bool.eq_iff_iff]
  exact ⟨hmono hv hw, hmono hv.symm hw.symm⟩

end Same

/-- What the same values look like. -/
inductive Alike : Value → Value → Prop
  | nil : Alike .nil .nil
  | bool (b : Bool) : Alike (.bool b) (.bool b)
  | int (n : ℤ) : Alike (.int n) (.int n)
  | float (x : Double) : Alike (.float x) (.float x)
  | str (s : RString) : Alike (.str s) (.str s)
  | arr {xs ys : List Value} (h : List.Forall₂ Same xs ys) : Alike (.arr xs) (.arr ys)
  | hash {kvs kvs' : List (Value × Value)} (h : SameMembers kvs kvs') :
      Alike (.hash kvs) (.hash kvs')

/-- **The same values** are scalars that are equal, arrays with the same elements or objects with
the same members. -/
theorem Same.alike (h : Same v w) : Alike v w := by
  obtain ⟨hv, hw, hequal⟩ := h
  cases hv with
  | @arr xs hxs =>
    cases hw with
    | @arr ys hys =>
      rw [Value.equal, equalList_iff] at hequal
      exact .arr (forall₂_of_mem hequal fun x hx y hy hxy => ⟨hxs x hx, hys y hy, hxy⟩)
    | _ => simp [Value.equal] at hequal
  | @hash kvs hkeys hnodup hvals =>
    cases hw with
    | @hash kvs' hkeys' hnodup' hvals' =>
      rw [equal_hash_iff hkeys hnodup'] at hequal
      obtain ⟨hlen, hmem⟩ := hequal
      have hsub : keys kvs ⊆ keys kvs' := by
        intro k hk
        obtain ⟨v, hv⟩ := mem_keys_iff.1 hk
        obtain ⟨w, hw, -⟩ := hmem k v hv
        exact mem_keys_iff.2 ⟨w, hw⟩
      have hle : (keys kvs').length ≤ (keys kvs).length := by
        rw [length_keys hkeys, length_keys hkeys', hlen]
      refine .hash ⟨.hash hkeys hnodup hvals, .hash hkeys' hnodup' hvals',
        (hnodup.subperm hsub).perm_of_length_le hle, fun k v w hv hw => ?_⟩
      obtain ⟨w', hw', heq⟩ := hmem k v hv
      obtain rfl := eq_of_mem hnodup' hw hw'
      exact ⟨hvals _ hv, hvals' _ hw, heq⟩
    | _ => simp [Value.equal] at hequal
  | nil =>
    cases w <;> simp [Value.equal] at hequal
    exact .nil
  | bool b =>
    cases w <;> simp [Value.equal] at hequal
    exact hequal ▸ .bool b
  | int n =>
    cases w <;> simp [Value.equal] at hequal
    exact hequal ▸ .int n
  | float hx =>
    cases w <;> simp [Value.equal, Double.eq] at hequal
    exact hequal.1 ▸ .float _
  | str s =>
    cases w <;> simp [Value.equal] at hequal
    exact hequal ▸ .str s

/-! ## Arrays -/

/-- `uniq` shortens the same arrays alike. -/
theorem length_uniq_lt_congr (h : List.Forall₂ Same xs ys) :
    (uniq xs).length < xs.length ↔ (uniq ys).length < ys.length := by
  have hpairwise : ∀ {xs ys : List Value}, List.Forall₂ Same xs ys →
      (xs.Pairwise fun x y => equal true y x = false) →
        ys.Pairwise fun x y => equal true y x = false := by
    intro xs ys h
    induction h with
    | nil => exact fun _ => .nil
    | @cons x y xs ys hxy hrest ih =>
      intro hp
      obtain ⟨hx, hxs⟩ := List.pairwise_cons.1 hp
      refine List.pairwise_cons.2 ⟨fun z hz => ?_, ih hxs⟩
      obtain ⟨i, hi, rfl⟩ := List.mem_iff_getElem.1 hz
      have hi' : i < xs.length := hrest.length_eq ▸ hi
      have hsame : Same xs[i] ys[i] := (List.forall₂_iff_get.1 hrest).2 i hi' hi
      rw [← hsame.equal_congr hxy]
      exact hx _ (List.getElem_mem hi')
  have hiff : (uniq xs).length = xs.length ↔ (uniq ys).length = ys.length := by
    rw [length_uniq_eq_iff, length_uniq_eq_iff]
    exact ⟨hpairwise h, hpairwise (h.flip.imp fun _ _ => Same.symm)⟩
  have := length_uniq_le xs
  have := length_uniq_le ys
  omega

/-! ## Objects -/

namespace SameMembers

theorem refl (h : IsJson (.hash kvs)) : SameMembers kvs kvs := by
  cases (Same.refl h).alike with
  | hash hm => exact hm

variable (h : SameMembers kvs kvs')

include h

theorem nodup : (keys kvs).Nodup := by
  cases h.left with
  | hash _ hnodup _ => exact hnodup

theorem str_keys : ∀ e ∈ kvs, ∃ k, e.1 = .str k := by
  cases h.left with
  | hash hkeys _ _ => exact hkeys

theorem symm : SameMembers kvs' kvs :=
  ⟨h.right, h.left, h.perm.symm, fun k v w hv hw => (h.same k w v hw hv).symm⟩

/-- Each member has one with the same key and the same value. -/
theorem exists_right (hv : (.str k, v) ∈ kvs) : ∃ w, (.str k, w) ∈ kvs' ∧ Same v w := by
  obtain ⟨w, hw⟩ := mem_keys_iff.1 (h.perm.mem_iff.1 (mem_keys_iff.2 ⟨v, hv⟩))
  exact ⟨w, hw, h.same k v w hv hw⟩

theorem length_eq : kvs.length = kvs'.length := by
  rw [← length_keys h.str_keys, ← length_keys h.symm.str_keys]
  exact h.perm.length_eq

/-- Objects with the same members are the same. -/
theorem same_hash : Same (.hash kvs) (.hash kvs') :=
  ⟨h.left, h.right, (equal_hash_iff h.str_keys h.symm.nodup).2 ⟨h.length_eq, fun _ _ hv => by
    obtain ⟨w, hw, hsame⟩ := h.exists_right hv
    exact ⟨w, hw, hsame.equal⟩⟩⟩

/-- The entry of a key. -/
theorem get (k : RString) : Option.Rel Same (Value.get kvs k) (Value.get kvs' k) := by
  have hmem : ∀ {kvs : List (Value × Value)} {v}, Value.get kvs k = some v →
      (.str k, v) ∈ kvs := by
    intro kvs v hv
    obtain ⟨⟨k', v'⟩, he, rfl⟩ := Option.map_eq_some_iff.1 hv
    obtain rfl := isStr_iff.1 (List.find?_some (p := fun kv : Value × Value => kv.1.isStr k) he)
    exact List.mem_of_find?_eq_some he
  cases hv : Value.get kvs k with
  | some v =>
    obtain ⟨w, hw, hsame⟩ := h.exists_right (hmem hv)
    rw [get_of_mem h.symm.nodup hw]
    exact .some hsame
  | none =>
    cases hw : Value.get kvs' k with
    | none => exact .none
    | some w =>
      obtain ⟨v, hv', -⟩ := h.symm.exists_right (hmem hw)
      rw [get_of_mem h.nodup hv'] at hv
      cases hv

/-- The entry of a key, `nil` when there is none. -/
theorem aref (k : RString) : Same (Value.aref kvs k) (Value.aref kvs' k) := by
  have hget := h.get k
  rw [Value.aref, Value.aref]
  generalize Value.get kvs k = v, Value.get kvs' k = w at hget
  cases hget with
  | none => exact .refl .nil
  | some hs => exact hs

omit h in
/-- Only a string is a key of a JSON object. -/
theorem lookup_eq (hkeys : ∀ e ∈ kvs, ∃ k, e.1 = .str k) (name : Value) :
    Value.lookup kvs name = match name with
      | .str k => Value.get kvs k
      | _ => none := by
  cases name with
  | str k =>
    dsimp only
    rw [Value.lookup, Value.get]
    simp only [equal_str_eq]
  | _ =>
    refine Option.map_eq_none_iff.2 (List.find?_eq_none.2 fun e he => ?_)
    obtain ⟨k, hk⟩ := hkeys e he
    rw [hk]
    exact Bool.false_ne_true

/-- Whether there is an entry for a name. -/
theorem lookup_isSome {name name' : Value} (hname : Same name name') :
    (Value.lookup kvs name).isSome = (Value.lookup kvs' name').isSome := by
  rw [lookup_eq h.str_keys, lookup_eq h.symm.str_keys]
  have hget : ∀ k, (Value.get kvs k).isSome = (Value.get kvs' k).isSome := by
    intro k
    have hget := h.get k
    generalize Value.get kvs k = v, Value.get kvs' k = w at hget
    cases hget <;> rfl
  cases hname.alike with
  | str k => exact hget k
  | _ => rfl

end SameMembers

end Value

end Ruby
