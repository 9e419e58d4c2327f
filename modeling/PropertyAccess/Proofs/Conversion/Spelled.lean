import PropertyAccess.Proofs.Conversion.Precedence

/-! How a path is written when a converter is looked up for it. What is registered is filed
under the canonical text of a path, and a lookup starts with the text that it is given. So
the canonical text finds what is registered at the path itself, and any other text of the
same path goes on at once to the paths with keys left out and to the types. -/

namespace PropertyAccess

namespace Registrations

open PathScope

/-- The registrations of an accessor: made one after the other from none, or taken over from
those of the accessor above, whose segments were read from a path. -/
inductive Reached : Registrations → Prop
  | empty : Reached empty
  | register {rs made : Registrations} (earlier : Reached rs) {type : Option Ty}
      {path : Option String} {c : Converter} (registered : rs.register type path c = .ok made) :
      Reached made
  | takenOver {rs : Registrations} (above : Reached rs) {s : Segment} (read : s.Readable) :
      Reached (rs.below s)

theorem Reached.filed {rs : Registrations} (h : rs.Reached) : Filed rs.byPath := by
  induction h with
  | empty => exact .nil
  | register _ registered ih => exact ih.register registered
  | takenOver _ read ih => exact ih.below read

variable {σ : Schema} {rs : Registrations} {required : Ty} {path : Path}

/-- Where a lookup goes when nothing that serves the type is found for the text itself: to
the paths with keys left out, and then to the types. -/
def beyond (σ : Schema) (rs : Registrations) (required : Ty) (path : Path) : Option Converter :=
  (path.stripped.findSome? fun s => rs.findAt? σ s required).or (rs.findByType? σ required)

theorem find?_of_parse {text : String} (read : Path.parse text = .ok path) :
    rs.find? σ required (some text) =
      (rs.findAt? σ text required).or (rs.beyond σ required path) := by
  rw [find?, Option.bind_some, findByPath?, beyond, read]
  cases rs.findAt? σ text required with
  | some c => rfl
  | none =>
    simp only [Option.none_or]
    cases path.stripped.findSome? fun s => rs.findAt? σ s required <;> rfl

theorem Filed.findAt?_of_ne_canonical (h : Filed rs.byPath) {text : String}
    (read : Path.parse text = .ok path) (other : text ≠ path.canonical) :
    rs.findAt? σ text required = none := by
  have absent : rs.byPath.find? (·.path.canonical = text) = none := by
    rw [List.find?_eq_none]
    intro scope there same
    have again := (h.each scope there).readable.parse_joined
    have spelled : joined scope.path.segments = text := of_decide_eq_true same
    rw [spelled, read] at again
    obtain rfl : path = scope.path := Except.ok.inj again
    exact other spelled.symm
  rw [findAt?, absent, Option.bind_none]

theorem find?_eq_of_parse (reached : rs.Reached) {text : String} (read : Path.parse text = .ok path) :
    rs.find? σ required (some text) =
      if text = path.canonical then
        (rs.findAt? σ path.canonical required).or (rs.beyond σ required path)
      else rs.beyond σ required path := by
  rw [find?_of_parse read]
  split
  · rename_i spelled
    rw [spelled]
  · rename_i other
    rw [reached.filed.findAt?_of_ne_canonical read other, Option.none_or]

theorem readable_keepAll {marks : List Bool} {segments : List Segment}
    (h : ∀ s ∈ segments, s.Readable) : ∀ s ∈ Segment.keepAll marks segments, s.Readable := by
  induction segments generalizing marks with
  | nil => simp [Segment.keepAll]
  | cons s r ih =>
    rw [List.forall_mem_cons] at h
    rw [Segment.keepAll, List.forall_mem_cons]
    exact ⟨⟨h.1.name, fun key there =>
      h.1.keys key ((Segment.keepKeys_sublist _ _).subset there)⟩, ih h.2⟩

theorem canonical_not_mem_stripped {text : String} (read : Path.parse text = .ok path) :
    path.canonical ∉ path.stripped := by
  have readable := Path.readable_of_parse read
  intro there
  obtain ⟨marks, dropped, same⟩ := List.mem_map.1 there
  have kept : ∀ s ∈ Segment.keepAll marks path.segments, s.Readable :=
    readable_keepAll readable.2
  have some_ : Segment.keepAll marks path.segments ≠ [] := by
    cases segments : path.segments with
    | nil => exact absurd segments readable.1
    | cons => simp [Segment.keepAll]
  exact Path.keepAll_ne dropped ((Readable.joined_inj ⟨some_, kept⟩ readable).1 same)

theorem entriesAt_register {text : String} {c : Converter} {made : Registrations}
    (read : Path.parse text = .ok path) (registered : rs.register none (some text) c = .ok made)
    (other : String) :
    made.byType = rs.byType ∧
      entriesAt other made.byPath =
        if path.canonical = other then upsert none c (entriesAt other rs.byPath)
        else entriesAt other rs.byPath := by
  rw [register, read] at registered
  obtain rfl := Except.ok.inj registered
  have stays : ∀ scope : PathScope, (scope.register none c).path = scope.path := fun _ => rfl
  have puts : ∀ scope : PathScope, (scope.register none c).entries = upsert none c scope.entries :=
    fun _ => rfl
  exact ⟨rfl, entriesAt_atPath path other stays puts rs.byPath⟩

theorem beyond_register {text : String} {c : Converter} {made : Registrations}
    (read : Path.parse text = .ok path) (registered : rs.register none (some text) c = .ok made) :
    made.beyond σ required path = rs.beyond σ required path := by
  have untouched : ∀ s ∈ path.stripped, made.findAt? σ s required = rs.findAt? σ s required := by
    intro s there
    have other : path.canonical ≠ s := fun same =>
      canonical_not_mem_stripped read (same ▸ there)
    rw [findAt?_eq, findAt?_eq, (entriesAt_register read registered s).2, if_neg other]
  have stripped : (path.stripped.findSome? fun s => made.findAt? σ s required) =
      path.stripped.findSome? fun s => rs.findAt? σ s required := by
    generalize path.stripped = texts at untouched
    induction texts with
    | nil => rfl
    | cons s r ih =>
      rw [List.forall_mem_cons] at untouched
      rw [List.findSome?_cons, List.findSome?_cons, untouched.1, ih untouched.2]
  rw [beyond, beyond, stripped, findByType?, findByType?,
    (entriesAt_register read registered text).1]

theorem find?_upsert_none {entries : List (Option Ty × Converter)} {c : Converter}
    (alone : ∀ e ∈ entries, serves σ e.1 required = true → e.1 = none) :
    ((upsert none c entries).find? fun e => serves σ e.1 required) = some (none, c) := by
  induction entries with
  | nil => rfl
  | cons e r ih =>
    obtain ⟨type, earlier⟩ := e
    rw [List.forall_mem_cons] at alone
    rw [upsert]
    split
    · rename_i untyped
      rw [untyped]
      rfl
    · rename_i typed
      have passed : serves σ type required = false :=
        Bool.eq_false_iff.2 fun served => typed (alone.1 served)
      rw [List.find?_cons, passed, ih alone.2]

theorem findAt?_register {text : String} {c : Converter} {made : Registrations}
    (read : Path.parse text = .ok path) (registered : rs.register none (some text) c = .ok made)
    (alone : ∀ e ∈ entriesAt path.canonical rs.byPath,
      serves σ e.1 required = true → e.1 = none) :
    made.findAt? σ path.canonical required = some c := by
  rw [findAt?_eq, (entriesAt_register read registered path.canonical).2, if_pos rfl,
    find?_upsert_none alone, Option.map_some]

/-- Two texts of one path find the same converter exactly where both or neither of them are
canonical, where nothing at the path itself serves the type, or where the lookup would come
to the same converter beyond it. A converter that is registered for any type with a text of
the path is found with the canonical text, and with the same text if that is canonical or
the lookup comes to this converter beyond the path. -/
theorem find?_spelled (reached : rs.Reached) {text other : String} (read : Path.parse text = .ok path)
    (read' : Path.parse other = .ok path) (σ : Schema) (required : Ty) :
    (rs.find? σ required (some text) = rs.find? σ required (some other) ↔
      (text = path.canonical ↔ other = path.canonical) ∨
        rs.findAt? σ path.canonical required = none ∨
        rs.findAt? σ path.canonical required = rs.beyond σ required path) ∧
    ∀ (c : Converter) (later : Registrations), rs.register none (some text) c = .ok later →
      (∀ e ∈ entriesAt path.canonical rs.byPath, serves σ e.1 required = true → e.1 = none) →
      later.find? σ required (some path.canonical) = some c ∧
        (later.find? σ required (some text) = some c ↔
          text = path.canonical ∨ rs.beyond σ required path = some c) := by
  have differs (found : Option Converter) : found.or (rs.beyond σ required path) =
      rs.beyond σ required path ↔ found = none ∨ found = rs.beyond σ required path := by
    cases found <;> simp
  refine ⟨?_, fun c later registered alone => ?_⟩
  · rw [find?_eq_of_parse reached read, find?_eq_of_parse reached read']
    by_cases spelled : text = path.canonical <;> by_cases spelled' : other = path.canonical
    · simp [spelled, spelled']
    · simp [spelled, spelled', differs]
    · rw [if_neg spelled, if_pos spelled', eq_comm, differs]
      simp [spelled, spelled']
    · simp [spelled, spelled']
  · have there := findAt?_register read registered alone
    have afterwards : later.Reached := reached.register registered
    rw [find?_eq_of_parse afterwards (Path.parse_canonical read),
      find?_eq_of_parse afterwards read, if_pos rfl, there, Option.some_or,
      beyond_register read registered]
    refine ⟨rfl, ?_⟩
    by_cases spelled : text = path.canonical <;> simp [spelled]

theorem find?_spelled_quoted :
    ∃ later, empty.register none (some "a['0']") cents = .ok later ∧
      Path.parse "a['0']" = .ok ⟨[⟨"a", ["0"]⟩]⟩ ∧ Path.parse "a[0]" = .ok ⟨[⟨"a", ["0"]⟩]⟩ ∧
      later.find? .empty .text (some "a[0]") = some cents ∧
      later.find? .empty .text (some "a['0']") ≠ some cents := by
  have quoted : Path.parse "a['0']" = .ok ⟨[⟨"a", ["0"]⟩]⟩ := by cbv
  have plain : Path.parse "a[0]" = .ok ⟨[⟨"a", ["0"]⟩]⟩ := by cbv
  have canonical : Path.canonical ⟨[⟨"a", ["0"]⟩]⟩ = "a[0]" := by decide +kernel
  have registered : empty.register none (some "a['0']") cents =
      .ok ⟨[], [⟨⟨[⟨"a", ["0"]⟩]⟩, [(none, cents)]⟩]⟩ := by cbv
  obtain ⟨found, missed⟩ := (find?_spelled .empty quoted plain .empty .text).2 cents _
    registered (by simp [empty, entriesAt])
  rw [canonical] at found missed
  refine ⟨_, registered, quoted, plain, found, fun here => ?_⟩
  rcases missed.1 here with spelled | further
  · revert spelled
    decide
  · revert further
    have nothing : empty.beyond .empty .text ⟨[⟨"a", ["0"]⟩]⟩ = none :=
      Option.isNone_iff_eq_none.1 (by decide +kernel)
    rw [nothing]
    simp

end Registrations

end PropertyAccess
