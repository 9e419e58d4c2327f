import Mathlib.Data.List.InsertIdx
import PropertyAccess.Graph.Table

/-! What sets and maps have in them: only what was put in, in whatever place. -/

namespace PropertyAccess

theorem Floating.Binary.same_of_same {F : Floating.Format} {x y z : Floating.Binary F}
    (hx : x.same z = true) (hy : y.same z = true) : x.same y = true := by
  simp only [same, Bool.and_eq_true, Bool.or_eq_true, beq_iff_eq, Bool.not_eq_true'] at *
  grind

theorem Number.same_of_same {m n k : Number} (hm : m.same k = true) (hn : n.same k = true) :
    m.same n = true := by
  cases k with
  | int =>
    cases m <;> cases n <;> simp_all [Number.same]
  | float kind z =>
    cases m with
    | int => cases kind <;> cases hm
    | float a x =>
      cases n with
      | int => cases kind <;> cases hn
      | float b y =>
        cases kind <;> cases a <;> cases b <;>
          first
          | cases hm
          | cases hn
          | exact Floating.Binary.same_of_same hm hn

theorem Value.same_of_same {a b c : Value} (ha : a.same c = true) (hb : b.same c = true) :
    a.same b = true := by
  cases c <;> cases a <;> first | (cases ha; done) | skip
  all_goals cases b <;> first | (cases hb; done) | skip
  · rfl
  case number => exact Number.same_of_same ha hb
  all_goals simp_all [Value.same]

theorem bisectFrom_le {α : Type} (before : α → Bool) (xs : Array α) {base : Nat} (size : Nat)
    (inside : base ≤ xs.size) : bisectFrom before xs base size ≤ xs.size := by
  fun_induction bisectFrom before xs base size with
  | case1 base size short x found here =>
    exact (Array.getElem?_eq_some_iff.1 found).1
  | case2 => exact inside
  | case3 => exact inside
  | case4 base size long middle x found ih =>
    refine ih ?_
    split
    · exact Nat.le_of_lt (Array.getElem?_eq_some_iff.1 found).1
    · exact inside
  | case5 => exact inside

theorem bisect_le {α : Type} (before : α → Bool) (xs : List α) : bisect before xs ≤ xs.length := by
  simpa [bisect] using bisectFrom_le before xs.toArray xs.length (Nat.zero_le _)

theorem eraseDups_concat {α : Type} [DecidableEq α] (xs : List α) (x : α) :
    (xs ++ [x]).eraseDups = if x ∈ xs then xs.eraseDups else xs.eraseDups ++ [x] := by
  have left : [x].removeAll xs = if x ∈ xs then [] else [x] := by
    simp only [List.removeAll, List.filter_cons, List.filter_nil, List.elem_eq_mem]
    grind
  rw [List.eraseDups_append, left]
  split
  · rw [List.eraseDups_nil, List.append_nil]
  · rfl

namespace SetItems

theorem mem_of_mem_insert {shape : TableShape} {items : List Value} {v x : Value}
    (hx : x ∈ insert shape items v) : x = v ∨ x ∈ items := by
  unfold insert at hx
  split at hx
  · exact .inr hx
  · split at hx
    · exact List.eq_or_mem_of_mem_insertIdx hx
    · rcases List.mem_append.1 hx with hx | hx
      · exact .inr hx
      · exact .inl (List.mem_singleton.1 hx)

theorem mem_of_mem_foldl {shape : TableShape} {vs items : List Value} {x : Value}
    (hx : x ∈ vs.foldl (insert shape) items) : x ∈ vs ∨ x ∈ items := by
  induction vs generalizing items with
  | nil => exact .inr hx
  | cons v vs ih =>
    rcases ih hx with hx | hx
    · exact .inl (List.mem_cons_of_mem _ hx)
    · rcases mem_of_mem_insert hx with rfl | hx
      · exact .inl List.mem_cons_self
      · exact .inr hx

theorem mem_of_mem_ofList {shape : TableShape} {vs : List Value} {x : Value}
    (hx : x ∈ ofList shape vs) : x ∈ vs :=
  (mem_of_mem_foldl hx).resolve_right (by simp)

end SetItems

namespace MapEntries

theorem mem_of_mem_replace {key value : Value} {entries : List (Value × Value)}
    {e : Value × Value} (he : e ∈ replace key value entries) :
    e ∈ entries ∨ e.2 = value ∧ ∃ f ∈ entries, f.1 = e.1 := by
  induction entries with
  | nil => cases he
  | cons f r ih =>
    rw [replace] at he
    split at he
    · rcases List.mem_cons.1 he with rfl | he
      · exact .inr ⟨rfl, f, List.mem_cons_self, rfl⟩
      · exact .inl (List.mem_cons_of_mem _ he)
    · rcases List.mem_cons.1 he with rfl | he
      · exact .inl List.mem_cons_self
      · rcases ih he with he | ⟨hv, g, hg, hk⟩
        · exact .inl (List.mem_cons_of_mem _ he)
        · exact .inr ⟨hv, g, List.mem_cons_of_mem _ hg, hk⟩

theorem forall_insert {P Q : Value → Prop} {shape : TableShape} {entries : List (Value × Value)}
    {key value : Value} (hk : P key) (hv : Q value) (he : ∀ e ∈ entries, P e.1 ∧ Q e.2) :
    ∀ e ∈ insert shape entries key value, P e.1 ∧ Q e.2 := by
  intro e hm
  unfold insert at hm
  split at hm
  · rcases mem_of_mem_replace hm with hm | ⟨hval, f, hf, hkey⟩
    · exact he e hm
    · exact ⟨hkey ▸ (he f hf).1, hval ▸ hv⟩
  · have new : e = (key, value) ∨ e ∈ entries := by
      split at hm
      · exact List.eq_or_mem_of_mem_insertIdx hm
      · rcases List.mem_append.1 hm with hm | hm
        · exact .inr hm
        · exact .inl (List.mem_singleton.1 hm)
    rcases new with rfl | hm
    · exact ⟨hk, hv⟩
    · exact he e hm

theorem forall_ofList {P Q : Value → Prop} {shape : TableShape} {es : List (Value × Value)}
    (he : ∀ e ∈ es, P e.1 ∧ Q e.2) : ∀ e ∈ ofList shape es, P e.1 ∧ Q e.2 := by
  have gathered : ∀ entries : List (Value × Value), (∀ e ∈ entries, P e.1 ∧ Q e.2) →
      ∀ e ∈ es.foldl (fun entries e => insert shape entries e.1 e.2) entries, P e.1 ∧ Q e.2 := by
    induction es with
    | nil => exact fun _ h => h
    | cons f r ih =>
      intro entries h
      have own := he f List.mem_cons_self
      exact ih (fun e hm => he e (List.mem_cons_of_mem _ hm)) _ (forall_insert own.1 own.2 h)
  exact gathered [] (by simp)

variable {entries : List (Value × Value)} {key : Value} {i : Nat}

theorem get?_of_findIdx? {e : Value × Value}
    (found : entries.findIdx? (·.1.same key) = some i) (he : entries[i]? = some e) :
    get? entries key = some e.2 := by
  have first : entries.find? (·.1.same key) = some e := by
    rw [List.find?_eq_bind_findIdx?_getElem?, found]
    exact he
  rw [get?, first]
  rfl

theorem contains_of_findIdx? (found : entries.findIdx? (·.1.same key) = some i) :
    contains entries key = true := by
  rw [contains, ← List.findIdx?_isSome, found]
  rfl

theorem get?_eq_none_iff : get? entries key = none ↔ contains entries key = false := by
  rw [get?, Option.map_eq_none_iff, List.find?_eq_none, contains, List.any_eq_false]

theorem replace_eq_modify (value : Value) (found : entries.findIdx? (·.1.same key) = some i) :
    replace key value entries = entries.modify i fun e => (e.1, value) := by
  induction entries generalizing i with
  | nil => simp at found
  | cons e r ih =>
    rw [replace]
    rw [List.findIdx?_cons] at found
    by_cases same : e.1.same key = true
    · rw [if_pos same] at found ⊢
      obtain rfl := Option.some.inj found
      rfl
    · rw [if_neg same] at found ⊢
      obtain ⟨j, hj, rfl⟩ := Option.map_eq_some_iff.1 found
      rw [ih hj]
      rfl

theorem findIdx?_modify (j : Nat) (value : Value) :
    (entries.modify j fun e => (e.1, value)).findIdx? (·.1.same key) =
      entries.findIdx? (·.1.same key) := by
  induction entries generalizing j with
  | nil => simp
  | cons e r ih =>
    cases j with
    | zero => simp [List.findIdx?_cons]
    | succ j => simp [List.findIdx?_cons, ih]

theorem findIdx?_of_get? {v : Value} (found : get? entries key = some v) :
    ∃ i e, entries.findIdx? (·.1.same key) = some i ∧ entries[i]? = some e ∧ e.2 = v := by
  obtain ⟨e, first, rfl⟩ := Option.map_eq_some_iff.1 found
  rw [List.find?_eq_bind_findIdx?_getElem?] at first
  obtain ⟨i, hi, he⟩ := Option.bind_eq_some_iff.1 first
  exact ⟨i, e, hi, he, rfl⟩

/-- One entry has a new value or is new; the others stay, in their order. -/
inductive Put (key value : Value) (entries : List (Value × Value)) : List (Value × Value) → Prop
  | replaced {i : Nat} (found : entries.findIdx? (·.1.same key) = some i) :
      Put key value entries (entries.modify i fun e => (e.1, value))
  | added {i : Nat} (absent : contains entries key = false) (inside : i ≤ entries.length) :
      Put key value entries (entries.insertIdx i (key, value))

theorem put_insert (shape : TableShape) (entries : List (Value × Value)) (key value : Value) :
    Put key value entries (insert shape entries key value) := by
  unfold insert
  split
  · rename_i there
    rw [contains, ← List.findIdx?_isSome] at there
    obtain ⟨i, found⟩ := Option.isSome_iff_exists.1 there
    rw [replace_eq_modify value found]
    exact .replaced found
  · rename_i absent
    have absent : contains entries key = false := by simpa using absent
    split
    · exact .added absent (bisect_le _ entries)
    · rw [← List.insertIdx_length_self]
      exact .added absent (Nat.le_refl _)

theorem Put.findIdx? {value : Value} {after : List (Value × Value)}
    (hp : Put key value entries after) (same : key.same key = true) :
    ∃ i e, after.findIdx? (·.1.same key) = some i ∧ after[i]? = some e ∧ e.2 = value := by
  cases hp with
  | @replaced i found =>
    obtain ⟨inside, -⟩ := List.findIdx?_eq_some_iff_getElem.1 found
    refine ⟨i, (entries[i].1, value), by rw [findIdx?_modify, found], ?_, rfl⟩
    rw [List.getElem?_modify_eq, List.getElem?_eq_getElem inside]
    rfl
  | @added i absent inside =>
    have others : ∀ e ∈ entries, ¬ e.1.same key = true := by
      intro e he here
      rw [contains, List.any_eq_false] at absent
      exact absent e he here
    have long : i < (entries.insertIdx i (key, value)).length := by
      rw [List.length_insertIdx_of_le_length inside]
      exact Nat.lt_succ_of_le inside
    refine ⟨i, (key, value), ?_, ?_, rfl⟩
    · refine List.findIdx?_eq_some_iff_getElem.2 ⟨long, ?_, fun j hj => ?_⟩
      · rw [List.getElem_insertIdx_self]
        exact same
      · rw [List.getElem_insertIdx_of_lt hj]
        exact others _ (List.getElem_mem _)
    · rw [List.getElem?_eq_getElem long, List.getElem_insertIdx_self]

end MapEntries

end PropertyAccess
