import FastJsonSchema.Compile.Insertion
import FastJsonSchema.Table.Widening

/-!
# Replacing an object of a document

`Replaced u u' ts w w'` says that `w'` is `w` with the value `u` at the tokens `ts` replaced by
`u'`. When `u` is an object that steps of schemas lead to (`Reaches`), only the values on the way
there change, and none of the keywords that the schemas on the way have of their own.
-/

namespace FastJsonSchema

open Ruby Value

/-- `w'` is `w` with `u` at the tokens `ts` replaced by `u'`. -/
inductive Replaced (u u' : Value) : List RString → Value → Value → Prop
  | here : Replaced u u' [] u u'
  | member {l₁ l₂ : List (Value × Value)} {k : RString} {w w' : Value} {ts : List RString}
    (h : Replaced u u' ts w w') : Replaced u u' (k :: ts) (.hash (l₁ ++ (.str k, w) :: l₂))
      (.hash (l₁ ++ (.str k, w') :: l₂))
  | element {l₁ l₂ : List Value} {w w' : Value} {ts : List RString} (h : Replaced u u' ts w w') :
    Replaced u u' (decimal l₁.length :: ts) (.arr (l₁ ++ w :: l₂)) (.arr (l₁ ++ w' :: l₂))

/-- Steps with the tokens `ts` lead from a value to the object with the members `ms`. -/
inductive Reaches (ms : List (Value × Value)) : List RString → Value → Prop
  | here : Reaches ms [] (.hash ms)
  | step {kvs : List (Value × Value)} {s : Step} {v : Value} {ts : List RString}
    (h : Leads kvs s v) (ht : Reaches ms ts v) : Reaches ms (s.tokens ++ ts) (.hash kvs)

/-- `kvs'` is `kvs` with `w'` instead of `w` under the key `k`. -/
def Changed (k : RString) (w w' : Value) (kvs kvs' : List (Value × Value)) : Prop :=
  ∃ l₁ l₂, kvs = l₁ ++ (.str k, w) :: l₂ ∧ kvs' = l₁ ++ (.str k, w') :: l₂

namespace Changed

variable {k k' : RString} {w w' : Value} {kvs kvs' : List (Value × Value)}
  (h : Changed k w w' kvs kvs')

include h

theorem get_of_ne (hne : k' ≠ k) : get kvs' k' = get kvs k' := by
  obtain ⟨l₁, l₂, rfl, rfl⟩ := h
  have hskip : (Value.str k).isStr k' = false := by simpa [isStr] using hne.symm
  rw [Value.get, Value.get, List.find?_append, List.find?_append,
    List.find?_cons_of_neg (by simp [hskip]), List.find?_cons_of_neg (by simp [hskip])]

theorem aref_of_ne (hne : k' ≠ k) : aref kvs' k' = aref kvs k' := by
  rw [aref, aref, h.get_of_ne hne]

theorem mem : (.str k, w) ∈ kvs := by
  obtain ⟨l₁, l₂, rfl, rfl⟩ := h
  exact List.mem_append_right _ List.mem_cons_self

theorem symm : Changed k w' w kvs' kvs := by
  obtain ⟨l₁, l₂, h₁, h₂⟩ := h
  exact ⟨l₁, l₂, h₂, h₁⟩

theorem ne_nil : kvs ≠ [] := List.ne_nil_of_mem h.mem

theorem stringEntries : ∃ l₁ l₂, Value.stringEntries kvs = l₁ ++ (k, w) :: l₂ ∧
    Value.stringEntries kvs' = l₁ ++ (k, w') :: l₂ := by
  obtain ⟨l₁, l₂, rfl, rfl⟩ := h
  refine ⟨Value.stringEntries l₁, Value.stringEntries l₂, ?_, ?_⟩
  all_goals rw [Value.stringEntries, List.filterMap_append, List.filterMap_cons]; rfl

theorem keys_eq : keys kvs' = keys kvs := by
  obtain ⟨l₁, l₂, h₁, h₂⟩ := h.stringEntries
  rw [keys, keys, h₁, h₂, List.map_append, List.map_append, List.map_cons, List.map_cons]

theorem aref_left (hd : (keys kvs).Nodup) : aref kvs k = w := aref_of_mem hd h.mem

theorem aref_right (hd : (keys kvs).Nodup) : aref kvs' k = w' :=
  aref_of_mem (h.keys_eq ▸ hd) h.symm.mem

/-- The member of a keyword is not one of an unknown keyword. -/
theorem unknownMembers (hk : isKnownKeyword k = true) :
    FastJsonSchema.unknownMembers kvs' = FastJsonSchema.unknownMembers kvs := by
  obtain ⟨l₁, l₂, h₁, h₂⟩ := h.stringEntries
  rw [FastJsonSchema.unknownMembers, FastJsonSchema.unknownMembers, h₁, h₂, List.filter_append,
    List.filter_append, List.filter_cons_of_neg (by simp [hk]),
    List.filter_cons_of_neg (by simp [hk])]

theorem unknownMembers_of_unknown (hk : isKnownKeyword k = false) : ∃ l₁ l₂,
    FastJsonSchema.unknownMembers kvs = l₁ ++ (k, w) :: l₂ ∧
      FastJsonSchema.unknownMembers kvs' = l₁ ++ (k, w') :: l₂ := by
  obtain ⟨l₁, l₂, h₁, h₂⟩ := h.stringEntries
  refine ⟨l₁.filter fun e => !isKnownKeyword e.1, l₂.filter fun e => !isKnownKeyword e.1, ?_, ?_⟩
  · rw [FastJsonSchema.unknownMembers, h₁, List.filter_append,
      List.filter_cons_of_pos (by simp [hk])]
  · rw [FastJsonSchema.unknownMembers, h₂, List.filter_append,
      List.filter_cons_of_pos (by simp [hk])]

end Changed

/-! ## Values on the way -/

section Values

variable {u u' w w' : Value} {ms ms' kvs : List (Value × Value)} {xs : List Value} {k t : RString}
  {ts : List RString}

theorem Replaced.member_inv (h : Replaced u u' (k :: ts) (.hash kvs) w') :
    ∃ w₁ w₁' kvs', w' = .hash kvs' ∧ Changed k w₁ w₁' kvs kvs' ∧ Replaced u u' ts w₁ w₁' := by
  cases h with
  | @member l₁ l₂ _ w₁ w₁' _ h => exact ⟨w₁, w₁', _, rfl, ⟨l₁, l₂, rfl, rfl⟩, h⟩

theorem Replaced.element_inv (h : Replaced u u' (t :: ts) (.arr xs) w') :
    ∃ l₁ l₂ w₁ w₁', t = decimal l₁.length ∧ xs = l₁ ++ w₁ :: l₂ ∧
      w' = .arr (l₁ ++ w₁' :: l₂) ∧ Replaced u u' ts w₁ w₁' := by
  cases h with
  | @element l₁ l₂ w₁ w₁' _ h => exact ⟨l₁, l₂, w₁, w₁', rfl, rfl, rfl, h⟩

theorem Replaced.nil_inv (h : Replaced u u' [] w w') : w = u ∧ w' = u' := by
  cases h
  exact ⟨rfl, rfl⟩

theorem Reaches.hash (h : Reaches ms ts w) : ∃ kvs, w = .hash kvs := by
  cases h with
  | here => exact ⟨ms, rfl⟩
  | step _ _ => exact ⟨_, rfl⟩

/-- An object stays an object. -/
theorem Replaced.hash (h : Replaced (.hash ms) (.hash ms') ts (.hash kvs) w') :
    ∃ kvs', w' = .hash kvs' := by
  cases h with
  | here => exact ⟨_, rfl⟩
  | member _ => exact ⟨_, rfl⟩

theorem Replaced.arr (h : Replaced (.hash ms) (.hash ms') ts (.arr xs) w') :
    ∃ xs', w' = .arr xs' := by
  cases h with
  | element _ => exact ⟨_, rfl⟩

/-- The steps to an object do not go through the array of a dependency. -/
theorem Reaches.memberSchema_eq (h : Reaches ms ts (memberSchema k w))
    (hr : Replaced (.hash ms) (.hash ms') ts w w') :
    memberSchema k w = w ∧ memberSchema k w' = w' := by
  have hhash : ∀ kvs, memberSchema k (.hash kvs) = .hash kvs := fun kvs => by
    rw [memberSchema]
    split_ifs <;> rfl
  cases w with
  | arr names =>
    exfalso
    rw [memberSchema] at h
    split_ifs at h
    · rw [dependencySchema] at h
      cases ts with
      | nil => exact absurd hr.nil_inv.1 (by simp)
      | cons t ts =>
        generalize ht : t :: ts = us at h
        cases h with
        | here => cases ht
        | step h _ => exact Position.not_leads_dependency h
    · obtain ⟨kvs, hkvs⟩ := h.hash
      cases hkvs
  | hash kvs =>
    obtain ⟨kvs', rfl⟩ := hr.hash
    exact ⟨hhash kvs, hhash kvs'⟩
  | _ =>
    obtain ⟨kvs, hkvs⟩ := h.hash
    rw [memberSchema] at hkvs
    split_ifs at hkvs
    cases hkvs

end Values

end FastJsonSchema
