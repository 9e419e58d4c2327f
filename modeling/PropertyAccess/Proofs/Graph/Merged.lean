import PropertyAccess.Proofs.Graph.Sequence

/-! A map that is made from a list of entries, as a list of its own. Entries with equal keys are one:
it stands where the first of them stood, and its value is that of the last. An entry whose key is
not even equal to itself stays as it is. Keys equal to a third one are equal, so each entry of the
list has its key among those of the map, and only once. -/

namespace PropertyAccess

theorem eraseDupsBy_concat {α : Type} (r : α → α → Bool) (xs : List α) (x : α) :
    (xs ++ [x]).eraseDupsBy r =
      if (xs.eraseDupsBy r).any (r x) then xs.eraseDupsBy r else xs.eraseDupsBy r ++ [x] := by
  have onto (seen : List α) : List.eraseDupsBy.loop r (xs ++ [x]) seen =
      if (List.eraseDupsBy.loop r xs seen).any (r x) then List.eraseDupsBy.loop r xs seen
      else List.eraseDupsBy.loop r xs seen ++ [x] := by
    induction xs generalizing seen with
    | nil =>
      rw [List.nil_append, List.eraseDupsBy.loop, List.eraseDupsBy.loop, List.any_reverse]
      cases seen.any (r x) <;> simp [List.eraseDupsBy.loop]
    | cons y xs ih =>
      rw [List.cons_append, List.eraseDupsBy.loop, List.eraseDupsBy.loop]
      split <;> exact ih _
  exact onto []

namespace MapEntries

variable {shape : TableShape} {es : List (Value × Value)} {e : Value × Value} {key value : Value}

/-- The entries whose key has not come up before. -/
def firsts (es : List (Value × Value)) : List (Value × Value) :=
  es.eraseDupsBy fun e f => f.1.same e.1

/-- One entry a key, in the place of the first one and with the value of the last. -/
def merged (es : List (Value × Value)) : List (Value × Value) :=
  (firsts es).map fun e => (e.1, (get? es.reverse e.1).getD e.2)

theorem firsts_concat (es : List (Value × Value)) (e : Value × Value) :
    firsts (es ++ [e]) = if contains (firsts es) e.1 then firsts es else firsts es ++ [e] :=
  eraseDupsBy_concat _ es e

theorem contains_firsts (es : List (Value × Value)) (key : Value) :
    contains (firsts es) key = contains es key := by
  induction es using List.reverseRecOn generalizing key with
  | nil => rfl
  | append_singleton es e ih =>
    rw [firsts_concat]
    split
    · rename_i there
      rw [ih, contains, contains, List.any_append, List.any_cons, List.any_nil, Bool.or_false]
      cases own : e.1.same key with
      | false => rw [Bool.or_false]
      | true =>
        rw [ih] at there
        obtain ⟨f, hf, same⟩ := List.any_eq_true.1 there
        rw [Value.same_comm] at own
        rw [Bool.or_true, List.any_eq_true]
        exact ⟨f, hf, Value.same_of_same same own⟩
    · rw [contains, contains, List.any_append, List.any_append]
      exact congrArg (· || _) (ih key)

theorem apart_firsts (es : List (Value × Value)) : Apart (firsts es) := by
  induction es using List.reverseRecOn with
  | nil => exact .nil
  | append_singleton es e ih =>
    rw [firsts_concat]
    split
    · exact ih
    · rename_i absent
      refine List.pairwise_append.2 ⟨ih, List.pairwise_singleton _ _, fun f hf => ?_⟩
      rw [Bool.not_eq_true, contains, List.any_eq_false] at absent
      simpa using absent f hf

theorem map_fst_merged (es : List (Value × Value)) :
    (merged es).map (·.1) = (firsts es).map (·.1) := by
  rw [merged, List.map_map]
  rfl

theorem replace_of_absent (absent : contains es key = false) : replace key value es = es := by
  induction es with
  | nil => rfl
  | cons e r ih =>
    obtain ⟨own, rest⟩ := Bool.or_eq_false_iff.1 absent
    rw [replace, if_neg (by simp [own]), ih rest]

theorem replace_eq_map (apart : Apart es) (key value : Value) :
    replace key value es = es.map fun e => (e.1, if e.1.same key then value else e.2) := by
  induction es with
  | nil => rfl
  | cons e r ih =>
    obtain ⟨other, apart⟩ := List.pairwise_cons.1 apart
    rw [replace, List.map_cons, ← ih apart]
    split
    · rename_i same
      have rest (f : Value × Value) (hf : f ∈ r) : f.1.same key = false := by
        by_contra also
        rw [Bool.not_eq_false] at also
        exact Bool.false_ne_true ((other f hf).symm.trans (Value.same_of_same same also))
      rw [replace_of_absent (List.any_eq_false.2 fun f hf => by simp [rest f hf])]
    · rfl

theorem get?_reverse_concat (es : List (Value × Value)) (e : Value × Value) (key : Value) :
    get? (es ++ [e]).reverse key = if e.1.same key then some e.2 else get? es.reverse key := by
  rw [List.reverse_concat, get?, List.find?_cons]
  split <;> simp_all [get?]

theorem insert_merged (unsorted : shape ≠ .sorted) (es : List (Value × Value))
    (e : Value × Value) : insert shape (merged es) e.1 e.2 = merged (es ++ [e]) := by
  have keys : contains (merged es) e.1 = contains (firsts es) e.1 := by
    rw [← contains_map_fst, map_fst_merged, contains_map_fst]
  have apart : Apart (merged es) := (apart_firsts es).of_keys (map_fst_merged es)
  rw [insert, keys, if_neg unsorted, merged.eq_1 (es ++ [e]), firsts_concat]
  split
  · rw [replace_eq_map apart, merged, List.map_map]
    refine List.map_congr_left fun f _ => ?_
    rw [get?_reverse_concat, Value.same_comm e.1, Function.comp_apply]
    split <;> rfl
  · rename_i absent
    rw [Bool.not_eq_true] at absent
    have before (f : Value × Value) (hf : f ∈ firsts es) : e.1.same f.1 = false := by
      rw [Value.same_comm]
      simpa using List.any_eq_false.1 absent f hf
    have missing : get? es.reverse e.1 = none := by
      rw [get?_eq_none_iff, contains, List.any_reverse]
      exact (contains_firsts es e.1).symm.trans absent
    rw [List.map_append, List.map_singleton, get?_reverse_concat, missing]
    congr 1
    · refine List.map_congr_left fun f hf => ?_
      rw [get?_reverse_concat, before f hf]
      rfl
    · cases e.1.same e.1 <;> rfl

theorem ofList_eq_merged (unsorted : shape ≠ .sorted) (es : List (Value × Value)) :
    ofList shape es = merged es := by
  induction es using List.reverseRecOn with
  | nil => rfl
  | append_singleton es e ih => rw [ofList_concat, ih, insert_merged unsorted]

end MapEntries

end PropertyAccess
