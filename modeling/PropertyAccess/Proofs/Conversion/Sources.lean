import PropertyAccess.Conversion.Strategy

/-! Where a converter that applies comes from. Whatever way a registration or a
default is looked up, what is found is one of the converters that were put in;
and the registrations taken over below a property are some of those above it. -/

namespace PropertyAccess

theorem mem_of_lookup {α β : Type} [BEq α] [LawfulBEq α] {key : α} {value : β} {l : List (α × β)}
    (h : l.lookup key = some value) : (key, value) ∈ l := by
  induction l with
  | nil => simp at h
  | cons e r ih =>
    obtain ⟨k, v⟩ := e
    rw [List.lookup_cons] at h
    split at h
    · rename_i hk
      obtain rfl : key = k := by simpa using hk
      obtain rfl := Option.some.inj h
      exact List.mem_cons_self
    · exact List.mem_cons_of_mem _ (ih h)

theorem mem_of_mem_upsert {α β : Type} [DecidableEq α] {key : α} {value : β} {e : α × β}
    {l : List (α × β)} (h : e ∈ upsert key value l) : e.2 = value ∨ e ∈ l := by
  induction l with
  | nil => simp_all [upsert]
  | cons x r ih =>
    obtain ⟨k, v⟩ := x
    rw [upsert] at h
    split at h
    · rcases List.mem_cons.1 h with rfl | h
      · exact .inl rfl
      · exact .inr (List.mem_cons_of_mem _ h)
    · rcases List.mem_cons.1 h with rfl | h
      · exact .inr List.mem_cons_self
      · exact (ih h).imp_right (List.mem_cons_of_mem _)

namespace PathScope

def converters (s : PathScope) : List Converter := s.entries.map (·.2)

theorem mem_of_find? {σ : Schema} {s : PathScope} {required : Ty} {c : Converter}
    (h : s.find? σ required = some c) : c ∈ s.converters := by
  obtain ⟨e, he, rfl⟩ := Option.map_eq_some_iff.1 h
  exact List.mem_map_of_mem (List.mem_of_find?_eq_some he)

theorem mem_of_mem_register {s : PathScope} {type : Option Ty} {c d : Converter}
    (h : d ∈ (s.register type c).converters) : d = c ∨ d ∈ s.converters := by
  obtain ⟨e, he, rfl⟩ := List.mem_map.1 h
  exact (mem_of_mem_upsert he).imp_right fun hm => List.mem_map_of_mem hm

theorem mem_of_mem_registerAll {entries : List (Option Ty × Converter)} {s : PathScope}
    {d : Converter} (h : d ∈ (s.registerAll entries).converters) :
    d ∈ entries.map (·.2) ∨ d ∈ s.converters := by
  induction entries generalizing s with
  | nil => exact .inr h
  | cons e r ih =>
    rcases ih h with hr | hs
    · exact .inl (List.mem_cons_of_mem _ hr)
    · rcases mem_of_mem_register hs with rfl | hs
      · exact .inl List.mem_cons_self
      · exact .inr hs

end PathScope

namespace Registrations

def converters (rs : Registrations) : List Converter :=
  rs.byType.map (·.2) ++ rs.byPath.flatMap PathScope.converters

variable {σ : Schema} {rs : Registrations}

theorem mem_of_byPath {s : PathScope} {c : Converter} (hs : s ∈ rs.byPath)
    (hc : c ∈ s.converters) : c ∈ rs.converters :=
  List.mem_append_right _ (List.mem_flatMap.2 ⟨s, hs, hc⟩)

theorem mem_of_findAt? {text : String} {required : Ty} {c : Converter}
    (h : rs.findAt? σ text required = some c) : c ∈ rs.converters := by
  obtain ⟨s, hs, hc⟩ := Option.bind_eq_some_iff.1 h
  exact mem_of_byPath (List.mem_of_find?_eq_some hs) (PathScope.mem_of_find? hc)

theorem mem_of_findByType? {required : Ty} {c : Converter}
    (h : rs.findByType? σ required = some c) : c ∈ rs.converters := by
  refine List.mem_append_left _ ?_
  unfold findByType? at h
  split at h
  · cases h
  · split at h
    · rename_i found hf
      obtain rfl := Option.some.inj h
      exact List.mem_map_of_mem (mem_of_lookup hf)
    · obtain ⟨e, he, rfl⟩ := Option.map_eq_some_iff.1 h
      exact List.mem_map_of_mem (List.mem_of_find?_eq_some he)

theorem mem_of_findByPath? {text : String} {required : Ty} {c : Converter}
    (h : rs.findByPath? σ text required = some c) : c ∈ rs.converters := by
  unfold findByPath? at h
  split at h
  · rename_i found hf
    obtain rfl := Option.some.inj h
    exact mem_of_findAt? hf
  · split at h
    · obtain ⟨s, -, hs⟩ := List.exists_of_findSome?_eq_some h
      exact mem_of_findAt? hs
    · cases h

theorem mem_of_find? {required : Ty} {path : Option String} {c : Converter}
    (h : rs.find? σ required path = some c) : c ∈ rs.converters := by
  unfold find? at h
  split at h
  · rename_i found hf
    obtain rfl := Option.some.inj h
    obtain ⟨text, -, ht⟩ := Option.bind_eq_some_iff.1 hf
    exact mem_of_findByPath? ht
  · exact mem_of_findByType? h

theorem mem_of_mem_atPath {path : Path} {change : PathScope → PathScope}
    {scopes : List PathScope} {s : PathScope} (h : s ∈ atPath path change scopes) :
    s ∈ scopes ∨ s = change ⟨path, []⟩ ∨ ∃ t ∈ scopes, s = change t := by
  induction scopes with
  | nil => exact .inr (.inl (by simpa [atPath] using h))
  | cons t r ih =>
    rw [atPath] at h
    split at h
    · rcases List.mem_cons.1 h with rfl | h
      · exact .inr (.inr ⟨t, List.mem_cons_self, rfl⟩)
      · exact .inl (List.mem_cons_of_mem _ h)
    · rcases List.mem_cons.1 h with rfl | h
      · exact .inl List.mem_cons_self
      · rcases ih h with h | h | ⟨u, hu, rfl⟩
        · exact .inl (List.mem_cons_of_mem _ h)
        · exact .inr (.inl h)
        · exact .inr (.inr ⟨u, List.mem_cons_of_mem _ hu, rfl⟩)

theorem mem_of_register {rs' : Registrations} {type : Option Ty} {path : Option String}
    {c d : Converter} (made : rs.register type path c = .ok rs') (h : d ∈ rs'.converters) :
    d = c ∨ d ∈ rs.converters := by
  unfold register at made
  split at made
  · cases made
  · cases made
    rcases List.mem_append.1 h with h | h
    · obtain ⟨e, he, rfl⟩ := List.mem_map.1 h
      exact (mem_of_mem_upsert he).imp_right fun hm =>
        List.mem_append_left _ (List.mem_map_of_mem hm)
    · exact .inr (List.mem_append_right _ h)
  · split at made
    · cases made
    · cases made
      rcases List.mem_append.1 h with h | h
      · exact .inr (List.mem_append_left _ h)
      · obtain ⟨s, hs, hd⟩ := List.mem_flatMap.1 h
        rcases mem_of_mem_atPath hs with hs | rfl | ⟨t, ht, rfl⟩
        · exact .inr (mem_of_byPath hs hd)
        · refine (PathScope.mem_of_mem_register hd).imp_right fun none => ?_
          simp [PathScope.converters] at none
        · exact (PathScope.mem_of_mem_register hd).imp_right (mem_of_byPath ht)

theorem mem_of_mem_merge {path : Path} {entries : List (Option Ty × Converter)}
    {scopes : List PathScope} {c : Converter}
    (h : c ∈ (merge path entries scopes).flatMap PathScope.converters) :
    c ∈ entries.map (·.2) ∨ c ∈ scopes.flatMap PathScope.converters := by
  obtain ⟨s, hs, hc⟩ := List.mem_flatMap.1 h
  rcases mem_of_mem_atPath hs with hs | rfl | ⟨t, ht, rfl⟩
  · exact .inr (List.mem_flatMap.2 ⟨s, hs, hc⟩)
  · refine (PathScope.mem_of_mem_registerAll hc).imp_right fun hn => ?_
    simp [PathScope.converters] at hn
  · refine (PathScope.mem_of_mem_registerAll hc).imp_right fun hm => ?_
    exact List.mem_flatMap.2 ⟨t, ht, hm⟩

theorem mem_of_mem_takeOver {s : Segment} {scopes : List PathScope} {scope : PathScope}
    {c : Converter} (h : c ∈ (takeOver s scopes scope).flatMap PathScope.converters) :
    c ∈ scope.converters ∨ c ∈ scopes.flatMap PathScope.converters := by
  unfold takeOver at h
  split at h
  · split at h
    · exact mem_of_mem_merge h
    · exact .inr h
  · exact .inr h

theorem mem_of_mem_foldl_takeOver {s : Segment} {from_ gathered : List PathScope} {c : Converter}
    (h : c ∈ (from_.foldl (takeOver s) gathered).flatMap PathScope.converters) :
    c ∈ from_.flatMap PathScope.converters ∨ c ∈ gathered.flatMap PathScope.converters := by
  induction from_ generalizing gathered with
  | nil => exact .inr h
  | cons t r ih =>
    rw [List.flatMap_cons, List.mem_append]
    rcases ih h with hr | hg
    · exact .inl (.inr hr)
    · exact (mem_of_mem_takeOver hg).imp_left .inl

theorem mem_of_mem_below {s : Segment} {c : Converter} (h : c ∈ (rs.below s).converters) :
    c ∈ rs.converters := by
  rcases List.mem_append.1 h with h | h
  · exact List.mem_append_left _ h
  · rcases mem_of_mem_foldl_takeOver h with h | h
    · exact List.mem_append_right _ h
    · simp at h

end Registrations

namespace DefaultTable

def converters (t : DefaultTable) : List Converter :=
  t.builtins.map (·.2) ++ t.overrides.map (·.2) ++ t.conventions.map (·.2)

theorem mem_of_find? {σ : Schema} {t : DefaultTable} {required : Ty} {c : Converter}
    (h : t.find? σ required = some c) : c ∈ t.converters := by
  have conventional : ∀ name, t.conventions.lookup name = some c → c ∈ t.converters :=
    fun name hn => List.mem_append_right _ (List.mem_map_of_mem (mem_of_lookup hn))
  unfold find? at h
  split at h
  · rename_i found hf
    obtain rfl := Option.some.inj h
    exact List.mem_append_left _ (List.mem_append_right _ (List.mem_map_of_mem (mem_of_lookup hf)))
  · split at h
    · rename_i found hf
      obtain rfl := Option.some.inj h
      exact List.mem_append_left _ (List.mem_append_left _
        (List.mem_map_of_mem (mem_of_lookup hf)))
    · split at h
      · exact conventional _ h
      · exact conventional _ h
      · cases h

end DefaultTable

theorem Strategies.mem_of_chosen? {σ : Schema} {S : Strategies} {required : Ty}
    {path : Option String} {c : Converter} (h : S.chosen? σ required path = some c) :
    c ∈ S.registered.converters ∨ c ∈ S.defaults.converters := by
  unfold chosen? at h
  split at h
  · rename_i d hd
    obtain rfl := Option.some.inj h
    exact .inl (Registrations.mem_of_find? hd)
  · exact .inr (DefaultTable.mem_of_find? h)

end PropertyAccess
