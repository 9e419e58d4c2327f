import Mathlib.Data.List.Induction
import Mathlib.Data.List.Nodup
import PropertyAccess.Property.Handle

/-! The table of handles as a list of declarations in which later ones prevail. Putting the
declarations in one by one, and then looking a name up through the index, comes to a search
for the name from the end of the declarations. -/

namespace PropertyAccess

namespace Handle

theorem find?_upsert (hs : List Handle) (h : Handle) (name : String) :
    (upsert hs h).find? (·.name = name) =
      if h.name = name then some h else hs.find? (·.name = name) := by
  induction hs with
  | nil => by_cases own : h.name = name <;> simp [upsert, own]
  | cons x r ih =>
    rw [upsert]
    by_cases same : x.name = h.name
    · by_cases own : h.name = name <;> simp [same, own]
    · rw [if_neg same, List.find?_cons, ih, List.find?_cons]
      by_cases own : h.name = name
      · simp [own, own ▸ same]
      · simp only [own, if_false]

theorem names_upsert (hs : List Handle) (h : Handle) :
    (upsert hs h).map (·.name) =
      if h.name ∈ hs.map (·.name) then hs.map (·.name) else hs.map (·.name) ++ [h.name] := by
  induction hs with
  | nil => simp [upsert]
  | cons x r ih =>
    rw [upsert]
    by_cases same : x.name = h.name
    · simp [same]
    · simp only [same, if_false, List.map_cons, ih, List.mem_cons, Ne.symm same, false_or]
      split <;> rfl

theorem nodup_upsert {hs : List Handle} (distinct : (hs.map (·.name)).Nodup) (h : Handle) :
    ((upsert hs h).map (·.name)).Nodup := by
  rw [names_upsert]
  split
  · exact distinct
  · rename_i new
    rw [← List.concat_eq_append]
    exact distinct.concat new

theorem nodup_foldl_upsert {gathered : List Handle} (distinct : (gathered.map (·.name)).Nodup)
    (declared : List Handle) : ((declared.foldl upsert gathered).map (·.name)).Nodup := by
  induction declared generalizing gathered with
  | nil => exact distinct
  | cons h declared ih => exact ih (nodup_upsert distinct h)

theorem find?_foldl_upsert (declared : List Handle) (name : String) :
    (declared.foldl upsert []).find? (·.name = name) =
      declared.reverse.find? (·.name = name) := by
  induction declared using List.reverseRecOn with
  | nil => rfl
  | append_singleton declared h ih =>
    rw [List.foldl_append, List.foldl_cons, List.foldl_nil, find?_upsert, ih,
      List.reverse_concat, List.find?_cons]
    by_cases own : h.name = name <;> simp [own]

theorem find?_eq_some_iff_of_nodup {hs : List Handle} (distinct : (hs.map (·.name)).Nodup)
    {name : String} {h : Handle} :
    hs.find? (·.name = name) = some h ↔ h ∈ hs ∧ h.name = name := by
  constructor
  · intro found
    exact ⟨List.mem_of_find?_eq_some found, by simpa using List.find?_some found⟩
  · rintro ⟨own, rfl⟩
    obtain ⟨k, found⟩ := Option.isSome_iff_exists.1
      (List.find?_isSome (p := fun k : Handle => k.name = h.name) |>.2 ⟨h, own, by simp⟩)
    have same : k.name = h.name := by simpa using List.find?_some found
    obtain rfl := List.inj_on_of_nodup_map distinct (List.mem_of_find?_eq_some found) own same
    exact found

end Handle

namespace HandleTable

theorem lookup_index (hs more : List Handle) (name : String) :
    ((ofHandles hs).index.lookup name).bind ((hs ++ more)[·]?) =
      hs.reverse.find? (·.name = name) := by
  induction hs using List.reverseRecOn generalizing more with
  | nil => rfl
  | append_singleton hs h ih =>
    have index : (ofHandles (hs ++ [h])).index =
        (h.name, hs.length) :: (ofHandles hs).index := by
      simp [ofHandles, List.zipIdx_append]
    rw [index, List.lookup_cons, List.reverse_concat, List.find?_cons, List.append_assoc]
    by_cases own : h.name = name
    · simp [own]
    -- places before stay good with `h` behind them, which is why `more` is general
    · rw [beq_false_of_ne (Ne.symm own), decide_eq_false own]
      exact ih ([h] ++ more)

theorem get?_ofHandles {hs : List Handle} (distinct : (hs.map (·.name)).Nodup) (name : String) :
    (ofHandles hs).get? name = hs.find? (·.name = name) := by
  have looked : (ofHandles hs).get? name = hs.reverse.find? (·.name = name) := by
    have found := lookup_index hs [] name
    rwa [List.append_nil] at found
  have reversed : (hs.reverse.map (·.name)).Nodup := by
    rwa [List.map_reverse, List.nodup_reverse]
  ext h
  rw [looked, Handle.find?_eq_some_iff_of_nodup reversed,
    Handle.find?_eq_some_iff_of_nodup distinct, List.mem_reverse]

end HandleTable

namespace Schema

variable {σ : Schema} {c : ClassId} {mode : AccessMode} {name : String} {hd : Handle}

theorem nodup_handles (σ : Schema) (c : ClassId) (mode : AccessMode) :
    ((σ.handles c mode).map (·.name)).Nodup :=
  @Handle.nodup_foldl_upsert [] List.nodup_nil _

theorem handle?_eq_find? (σ : Schema) (c : ClassId) (mode : AccessMode) (name : String) :
    σ.handle? c mode name = (σ.handles c mode).find? (·.name = name) :=
  HandleTable.get?_ofHandles (σ.nodup_handles c mode) name

theorem handle?_eq_some_iff :
    σ.handle? c mode name = some hd ↔ hd ∈ σ.handles c mode ∧ hd.name = name := by
  rw [handle?_eq_find?, Handle.find?_eq_some_iff_of_nodup (σ.nodup_handles c mode)]

theorem handle?_eq (σ : Schema) (c : ClassId) (mode : AccessMode) (name : String) :
    σ.handle? c mode name = (σ.declaredHandles c mode).reverse.find? (·.name = name) := by
  rw [handle?_eq_find?, handles, Handle.find?_foldl_upsert]

end Schema

end PropertyAccess
