import FastJsonSchema.Ruby.Decimal
import FastJsonSchema.Text.Pointer

/-!
# What a JSON Pointer designates

`At v ts w`: the tokens `ts` of a JSON Pointer lead from the value `v` to the value `w`. The keys of
a hash are distinct in Ruby; `Distinct v` says so for each hash at and below `v`, and then an entry
of a hash is the one its key designates (`get_of_mem`). The indices of an array are written in
decimal.
-/

namespace Ruby

namespace Value

/-- The string keys of a hash. -/
def keys (kvs : List (Value × Value)) : List RString := (stringEntries kvs).map (·.1)

/-- `At v ts w`: the tokens `ts` lead from `v` to `w`. -/
inductive At : Value → List RString → Value → Prop
  | here (v : Value) : At v [] v
  | member {kvs : List (Value × Value)} {k : RString} {v w : Value} {ts : List RString}
      (h : get kvs k = some v) (ht : At v ts w) : At (.hash kvs) (k :: ts) w
  | element {xs : List Value} {i : ℕ} {v w : Value} {ts : List RString}
      (h : xs[i]? = some v) (ht : At v ts w) : At (.arr xs) (decimal i :: ts) w

mutual

/-- Whether `P` holds of the string keys of each hash at and below a value. -/
def everyKeys (P : List RString → Bool) : Value → Bool
  | .arr xs => everyKeysList P xs
  | .hash kvs => P (keys kvs) && everyKeysEntries P kvs
  | _ => true

/-- Whether `P` holds of the string keys of each hash in the elements of a list. -/
def everyKeysList (P : List RString → Bool) : List Value → Bool
  | [] => true
  | x :: xs => everyKeys P x && everyKeysList P xs

/-- Whether `P` holds of the string keys of each hash in the values of a hash. -/
def everyKeysEntries (P : List RString → Bool) : List (Value × Value) → Bool
  | [] => true
  | (_, v) :: kvs => everyKeys P v && everyKeysEntries P kvs

end

/-- The hashes at and below `v` have distinct string keys. -/
def Distinct (v : Value) : Prop := everyKeys (fun ks => decide ks.Nodup) v = true

instance (v : Value) : Decidable (Distinct v) := inferInstanceAs (Decidable (_ = true))

/-- The hashes at and below `v` have no key with a slash. -/
def SlashFree (v : Value) : Prop := everyKeys (fun ks => ks.all (!·.contains Text.slash)) v = true

instance (v : Value) : Decidable (SlashFree v) := inferInstanceAs (Decidable (_ = true))

/-- The value that indices lead to, through arrays only. -/
def elementAt : Value → List ℕ → Option Value
  | v, [] => some v
  | .arr xs, i :: is => xs[i]?.bind fun v => elementAt v is
  | _, _ :: _ => none

theorem At.trans {u v w : Value} {ts ts' : List RString} (h : At u ts v) (h' : At v ts' w) :
    At u (ts ++ ts') w := by
  induction h with
  | here v => exact h'
  | member hg _ ih => exact .member hg (ih h')
  | element hi _ ih => exact .element hi (ih h')

theorem at_of_elementAt {v w : Value} {is : List ℕ} (h : elementAt v is = some w) :
    At v (is.map decimal) w := by
  induction is generalizing v with
  | nil =>
    obtain rfl := Option.some.inj h
    exact .here v
  | cons i is ih =>
    cases v with
    | arr xs =>
      obtain ⟨x, hx, hw⟩ := Option.bind_eq_some_iff.1 h
      exact .element hx (ih hw)
    | _ => exact absurd h (by simp [elementAt])

/-- The value that tokens lead to is the only one. -/
theorem At.unique {v w w' : Value} {ts : List RString} (h : At v ts w) (h' : At v ts w') :
    w = w' := by
  induction h with
  | here v =>
    cases h'
    rfl
  | member hg _ ih =>
    cases h' with
    | member hg' ht' =>
      obtain rfl := Option.some.inj (hg.symm.trans hg')
      exact ih ht'
  | element hi _ ih =>
    generalize hk : decimal _ = k at h'
    cases h' with
    | element hi' ht' =>
      obtain rfl := decimal_injective hk
      obtain rfl := Option.some.inj (hi.symm.trans hi')
      exact ih ht'

section EveryKeys

variable {P : List RString → Bool}

theorem everyKeys_of_mem_list {xs : List Value} {v : Value} (h : everyKeysList P xs = true)
    (hv : v ∈ xs) : everyKeys P v = true := by
  induction xs with
  | nil => exact absurd hv List.not_mem_nil
  | cons x xs ih =>
    rw [everyKeysList, Bool.and_eq_true] at h
    rcases List.mem_cons.1 hv with rfl | hv
    · exact h.1
    · exact ih h.2 hv

theorem everyKeys_of_mem_entries {kvs : List (Value × Value)} {k v : Value}
    (h : everyKeysEntries P kvs = true) (hv : (k, v) ∈ kvs) : everyKeys P v = true := by
  induction kvs with
  | nil => exact absurd hv List.not_mem_nil
  | cons kv kvs ih =>
    obtain ⟨k', v'⟩ := kv
    rw [everyKeysEntries, Bool.and_eq_true] at h
    rcases List.mem_cons.1 hv with he | hv
    · rw [(Prod.mk.inj he).2]
      exact h.1
    · exact ih h.2 hv

theorem everyKeys_hash {kvs : List (Value × Value)} (h : everyKeys P (.hash kvs) = true) :
    P (keys kvs) = true := by
  rw [everyKeys, Bool.and_eq_true] at h
  exact h.1

theorem everyKeys_at {v w : Value} {ts : List RString} (h : everyKeys P v = true)
    (ht : At v ts w) : everyKeys P w = true := by
  induction ht with
  | here v => exact h
  | @member kvs k v w ts hg _ ih =>
    obtain ⟨kv, hkv, rfl⟩ := Option.map_eq_some_iff.1 hg
    rw [everyKeys, Bool.and_eq_true] at h
    exact ih (everyKeys_of_mem_entries h.2 (List.mem_of_find?_eq_some hkv))
  | @element xs i v w ts hi _ ih =>
    rw [everyKeys] at h
    exact ih (everyKeys_of_mem_list h (List.mem_of_getElem? hi))

end EveryKeys

theorem Distinct.at {v w : Value} {ts : List RString} (h : Distinct v) (ht : At v ts w) :
    Distinct w := everyKeys_at h ht

theorem Distinct.keys {kvs : List (Value × Value)} (h : Distinct (.hash kvs)) :
    (keys kvs).Nodup := of_decide_eq_true (everyKeys_hash h)

theorem SlashFree.at {v w : Value} {ts : List RString} (h : SlashFree v) (ht : At v ts w) :
    SlashFree w := everyKeys_at h ht

theorem SlashFree.key {kvs : List (Value × Value)} (h : SlashFree (.hash kvs)) {k : RString}
    {v : Value} (hv : (.str k, v) ∈ kvs) : Text.slash ∉ k := by
  have hk : k ∈ Value.keys kvs := List.mem_map.2 ⟨(k, v), mem_stringEntries.2 hv, rfl⟩
  simpa using List.all_eq_true.1 (everyKeys_hash h) k hk

/-- An entry of a hash with distinct keys is what its key designates. -/
theorem get_of_mem {kvs : List (Value × Value)} (h : (keys kvs).Nodup) {k : RString} {v : Value}
    (hv : (.str k, v) ∈ kvs) : get kvs k = some v := by
  induction kvs with
  | nil => exact absurd hv List.not_mem_nil
  | cons kv kvs ih =>
    obtain ⟨key, w⟩ := kv
    rw [get, List.find?_cons]
    by_cases hk : key.isStr k = true
    · obtain rfl := isStr_iff.1 hk
      simp only [hk, Option.map_some]
      rcases List.mem_cons.1 hv with he | hv
      · rw [(Prod.mk.inj he).2]
      · have hnot := (List.nodup_cons.1 h).1
        exact absurd (List.mem_map.2 ⟨(k, v), mem_stringEntries.2 hv, rfl⟩) hnot
    · have hne : key ≠ .str k := fun he => hk (isStr_iff.2 he)
      have hmem : (.str k, v) ∈ kvs := by
        rcases List.mem_cons.1 hv with he | hv
        · exact absurd (Prod.mk.inj he).1.symm hne
        · exact hv
      simp only [hk]
      refine ih ?_ hmem
      cases key with
      | str s => exact (List.nodup_cons.1 h).2
      | _ => exact h

theorem eq_of_mem {kvs : List (Value × Value)} (h : (keys kvs).Nodup) {k : RString} {v w : Value}
    (hv : (.str k, v) ∈ kvs) (hw : (.str k, w) ∈ kvs) : v = w :=
  Option.some.inj ((get_of_mem h hv).symm.trans (get_of_mem h hw))

theorem aref_of_mem {kvs : List (Value × Value)} (h : (keys kvs).Nodup) {k : RString} {v : Value}
    (hv : (.str k, v) ∈ kvs) : aref kvs k = v := by rw [aref, get_of_mem h hv, Option.getD_some]

theorem get_of_aref {kvs : List (Value × Value)} {k : RString} (h : aref kvs k ≠ .nil) :
    get kvs k = some (aref kvs k) := by
  rw [aref] at h ⊢
  cases hg : get kvs k with
  | none => exact absurd (by rw [hg, Option.getD_none]) h
  | some v => rw [Option.getD_some]

end Value

end Ruby
