import FastJsonSchema.Validate.Context

/-!
# The paths of errors

An error of `validate` reads its `data_path` off `context->path`. The path holds the tokens of the
location of the error, in their order, and one more for each level left behind before it. So the
`data_path` is right exactly when no level has been left behind (`rightlyLocated_iff`).
-/

namespace FastJsonSchema

open Ruby Traversal

/-- The `data_path` of an error. -/
def dataPath (e : Site × List Token) : RString := toPath e.2

/-- The data of the error is at its location in the instance, and the `data_path` is the text of
that location. -/
def RightlyLocated (root : Value) (e : Site × List Token) : Prop :=
  e.1.data.Located root ∧ dataPath e = str "#/" ++ toPath e.1.data.loc

theorem toPath_cons (t : Token) (ts : List Token) : toPath (t :: ts) = toPath [t] ++ toPath ts := by
  simp [toPath]

theorem toPath_root (l : List Token) : toPath (.str rootPathStr :: l) = str "#/" ++ toPath l :=
  toPath_cons _ _

theorem length_toPath_pos (t : Token) : 0 < List.length (toPath [t]) := by
  simp [toPath, show str "/" = [47] from rfl]

/-- Each token more makes the text longer. -/
theorem length_toPath_le {l ts : List Token} (h : l.Sublist ts) :
    List.length (toPath l) + (ts.length - l.length) ≤ List.length (toPath ts) := by
  induction h with
  | slnil => exact le_rfl
  | @cons l ts t h ih =>
    have := h.length_le
    have := length_toPath_pos t
    rw [toPath_cons t ts, List.length_append, List.length_cons]
    omega
  | @cons_cons l ts t h ih =>
    have := h.length_le
    rw [toPath_cons t ts, toPath_cons t l, List.length_append, List.length_append,
      List.length_cons, List.length_cons]
    omega

section

variable {rt : Runtime} {heap : Addr → Option CompiledSchema} {overrun : Overrun}
  {cs : CompiledSchema} {v : Value} {n : ℕ}

/-- A path of the tokens of a location and `k` more has the text of the location if and only if
there are none. -/
theorem toPath_eq_iff {l ts : List Token} {k : ℕ} (h : l.Sublist ts)
    (hk : ts.length = l.length + k) : toPath ts = toPath l ↔ k = 0 := by
  constructor
  · intro heq
    have := length_toPath_le h
    rw [heq] at this
    omega
  · rintro rfl
    rw [h.eq_of_length (by omega)]

/-- An error is rightly located if and only if no level was left behind before it. -/
theorem errors_located (hs : (machine rt heap overrun).Safe
    (evaluate rt heap overrun cs v false n).2) :
    List.Forall₂ (fun e e' => e.1 = e'.1 ∧ (RightlyLocated v e ↔ e'.2 = 0))
      (evaluate rt heap overrun cs v false n).2.errors
      ((machine rt heap overrun).judge n false (cs, .root v)).reports := by
  have hplaced : Machine.Placed (.str rootPathStr) [] 0 ((start createContext).mode false) :=
    ⟨rfl, [.str rootPathStr], rfl, List.Sublist.refl _⟩
  have hw : (machine rt heap overrun).Within _ ((start createContext).mode false) :=
    within_createContext false
  obtain ⟨es, hes, hall⟩ := Machine.run_located (machine_lays rt heap overrun v) n [] (cs, .root v)
    0 ((start createContext).mode false) (stands_root v false) hplaced hw hs
  rw [evaluate, hes]
  refine hall.imp ?_
  rintro e e' ⟨he, l, ⟨hlocated, hloc⟩, hsub, hlen⟩
  refine ⟨he, ?_⟩
  have hloc : e.1.data.loc = l := hloc
  rw [RightlyLocated, and_iff_right hlocated, hloc, ← toPath_root, dataPath,
    toPath_eq_iff hsub (k := e'.2) (by simp [hlen])]

/-- **When the errors are rightly located.** At every point of `validate`, the run has stayed within
`context->path` and every error yielded has the `data_path` of its data if and only if no element
that was reached lies `MAX_CONTEXT_DEPTH` levels down and no failing call of `is_valid` left a level
behind before an error. -/
theorem rightlyLocated_iff (rt : Runtime) (heap : Addr → Option CompiledSchema) (overrun : Overrun)
    (cs : CompiledSchema) (v : Value) (n : ℕ) :
    ((machine rt heap overrun).Safe (evaluate rt heap overrun cs v false n).2 ∧
        ∀ e ∈ (evaluate rt heap overrun cs v false n).2.errors, RightlyLocated v e) ↔
      ((machine rt heap overrun).judge n false (cs, .root v)).peak < maxContextDepth ∧
        ∀ e ∈ ((machine rt heap overrun).judge n false (cs, .root v)).reports, e.2 = 0 := by
  rw [← safe_evaluate_iff]
  refine and_congr_right fun hs => ?_
  have hall := errors_located hs
  constructor
  · intro h e' he'
    obtain ⟨e, he, -, hiff⟩ := exists_right_of_forall₂ (hall.flip (R := flip _)) he'
    exact hiff.1 (h e he)
  · intro h e he
    obtain ⟨e', he', -, hiff⟩ := exists_right_of_forall₂ hall he
    exact hiff.2 (h e' he')

end

/-- The document
`{"properties": {"a": {"anyOf": [{"properties": {"x": false}}, true]}, "b": false}}`. -/
def anyOfThenFalse : Value := .object [("properties", .object [
  ("a", .object [("anyOf", .arr [.object [("properties", .object [("x", .bool false)])],
    .bool true])]),
  ("b", .bool false)])]

/-- The instance `{"a": {"x": 1}, "b": 2}`. -/
def xThenB : Value := .object [("a", .object [("x", .int 1)]), ("b", .int 2)]

/-- The error about `b` is located at `a/b`. -/
theorem dataPath_wrong : ∃ cs r e, compileSchema .bare none anyOfThenFalse = .ok cs ∧
    Validates .bare cs.deref noOverrun cs xThenB r ∧ r.1 = .done ∧ e ∈ r.2.errors ∧
      e.1.data.loc = [.str (str "b")] ∧ dataPath e = str "#/a/b/" ∧ ¬ RightlyLocated xThenB e := by
  refine ⟨_, _, _, rfl, ⟨5, rfl, by decide⟩, by decide, List.mem_of_getElem? (i := 0) rfl, rfl, rfl,
    fun h => absurd h.2 (by decide)⟩

end FastJsonSchema
